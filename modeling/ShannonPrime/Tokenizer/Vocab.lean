import ShannonPrime.Lib.LinearProbe

/-!
The vocabulary of a tokenizer: token bytes to ids in a hash table with open addressing, and
what the encoders and the decoders share: the special tokens that cut a text, the buffer in
which it is put together again, and the ids that spell it.
-/

namespace ShannonPrime.Tokenizer

open LinearProbe

def fnv1a (s : List UInt8) : UInt64 :=
  s.foldl (fun h b => (h ^^^ b.toUInt64) * 1099511628211) 1469598103934665603

/-- A used entry has its key and its value. -/
structure Hmap where
  e : Nat → Option (List UInt8 × Nat)
  mask : Nat

def hmapInit (want : Nat) : Hmap := ⟨fun _ => none, doubled (want * 2) (2 ^ 4) (want * 2) - 1⟩

def Hmap.home (m : Hmap) (k : List UInt8) : Nat := (fnv1a k).toNat &&& m.mask

/-- The first writer for a key wins. -/
def hmapPut (m : Hmap) (k : List UInt8) (v : Nat) : Hmap :=
  { m with e := put (m.mask + 1) m.home Prod.fst m.e (k, v) }

def hmapGet (m : Hmap) (k : List UInt8) : Option Nat :=
  (get (m.mask + 1) m.home Prod.fst m.e k).map Prod.snd

/-- The loaders' vocabulary map: the tokens in the order of their ids. -/
def vocabMap (tok : List (List UInt8)) : Hmap :=
  tok.zipIdx.foldl (fun m entry => hmapPut m entry.1 entry.2) (hmapInit tok.length)

/-- Ids are `int32_t`. -/
structure Vocab where
  tok : List (List UInt8)
  size : tok.length ≤ 2 ^ 31

/-- `sp_tok_vocab_lookup`: the id of a token's bytes, or -1. -/
def Vocab.lookup (v : Vocab) (bytes : List UInt8) : Option Nat := hmapGet (vocabMap v.tok) bytes

/-- The output array and how many ids have been emitted, those that did not fit included. -/
structure Out where
  out : Nat → Int
  cnt : Nat

def emit (maxOut : Nat) (o : Out) (id : Int) : Out :=
  ⟨if o.cnt < maxOut then Function.update o.out o.cnt id else o.out, o.cnt + 1⟩

/-- Every space becomes U+2581; other bytes are copied. -/
def escape (s : List UInt8) : List UInt8 :=
  s.flatMap fun b => if b = 0x20 then [0xE2, 0x96, 0x81] else [b]

/-- A part of the text that an encoder emits: its id, or that of each of its bytes. -/
def idsOf (id : Option Nat) (byteTok : UInt8 → Int) (bytes : List UInt8) : List Int :=
  match id with
  | some id => [(id : Int)]
  | none => bytes.map byteTok

theorem foldl_emit_flatMap {α : Type*} (f : α → List Int) (maxOut : Nat) (l : List α) (o : Out) :
    l.foldl (fun o x => (f x).foldl (emit maxOut) o) o = (l.flatMap f).foldl (emit maxOut) o := by
  induction l generalizing o with
  | nil => rfl
  | cons a l ih => rw [List.foldl_cons, List.flatMap_cons, List.foldl_append, ih]

theorem cnt_foldl_emit (maxOut : Nat) (ids : List Int) (o : Out) :
    (ids.foldl (emit maxOut) o).cnt = o.cnt + ids.length := by
  induction ids generalizing o with
  | nil => rfl
  | cons id ids ih =>
      have hcnt : (emit maxOut o id).cnt = o.cnt + 1 := rfl
      rw [List.foldl_cons, ih, List.length_cons, hcnt]
      omega

theorem foldl_hmapPut (l : List (List UInt8 × Nat)) (m : Hmap) :
    l.foldl (fun m entry => hmapPut m entry.1 entry.2) m =
      { m with e := l.foldl (put (m.mask + 1) m.home Prod.fst) m.e } := by
  induction l generalizing m with
  | nil => rfl
  | cons entry l ih =>
      rw [List.foldl_cons, ih]
      rfl

theorem hmapInit_cap (want : Nat) :
    (hmapInit want).mask + 1 = doubled (want * 2) (2 ^ 4) (want * 2) ∧
      16 ≤ (hmapInit want).mask + 1 ∧ want * 2 ≤ (hmapInit want).mask + 1 := by
  obtain ⟨hlow, htarget⟩ := le_doubled (want * 2) (2 ^ 4) (want * 2) (by omega) (by omega)
  have hcap : (hmapInit want).mask + 1 = doubled (want * 2) (2 ^ 4) (want * 2) :=
    Nat.sub_add_cancel (by omega)
  exact ⟨hcap, by omega, by omega⟩

/-- The probe wraps around by the mask. -/
theorem hmapInit_wrap (want i : Nat) :
    i % ((hmapInit want).mask + 1) = i &&& (hmapInit want).mask := by
  rw [(hmapInit_cap want).1, mod_doubled]
  rfl

theorem find_zipIdx (tok : List (List UInt8)) (k : List UInt8) (n : Nat) :
    ((tok.zipIdx n).find? fun entry => decide (entry.1 = k)).map Prod.snd =
      (tok.findIdx? fun t => decide (t = k)).map (· + n) := by
  induction tok generalizing n with
  | nil => rfl
  | cons t tok ih =>
      rw [List.zipIdx_cons, List.find?_cons, List.findIdx?_cons]
      by_cases ht : t = k
      · rw [decide_eq_true ht, if_pos rfl]
        simp only [Option.map_some, Nat.zero_add]
      · rw [decide_eq_false ht, ih, if_neg Bool.false_ne_true, Option.map_map]
        congr 1
        funext i
        simp only [Function.comp_apply]
        omega

/-- The first of equal texts is found. -/
theorem hmapGet_vocabMap (tok : List (List UInt8)) (bytes : List UInt8) :
    hmapGet (vocabMap tok) bytes = tok.findIdx? fun t => decide (t = bytes) := by
  obtain ⟨-, hlow, htarget⟩ := hmapInit_cap tok.length
  have hempty : Good ((hmapInit tok.length).mask + 1) (hmapInit tok.length).home
      (Prod.fst : List UInt8 × Nat → List UInt8) (hmapInit tok.length).e :=
    good_empty (fun k => Nat.lt_succ_of_le Nat.and_le_right) (Nat.succ_pos _)
  have hroom : load ((hmapInit tok.length).mask + 1) (hmapInit tok.length).e +
      tok.zipIdx.length < (hmapInit tok.length).mask + 1 := by
    have hload : load ((hmapInit tok.length).mask + 1) (hmapInit tok.length).e = 0 :=
      load_empty _
    rw [hload, List.length_zipIdx]
    omega
  obtain ⟨-, hget⟩ := hempty.foldl_put hroom
  have hnone : get ((hmapInit tok.length).mask + 1) (hmapInit tok.length).home Prod.fst
      (hmapInit tok.length).e bytes = none := by
    rw [hempty.get_eq_none]
    rintro i a ⟨⟩
  rw [vocabMap, foldl_hmapPut, hmapGet]
  have hfind := find_zipIdx tok bytes 0
  simp only [Nat.add_zero, Option.map_id'] at hfind
  rw [← hfind]
  congr 1
  rw [← Option.none_or (o := tok.zipIdx.find? _), ← hnone]
  exact hget bytes

/-- The id of a token's bytes is the first place where they stand. -/
theorem Vocab.lookup_eq (v : Vocab) (bytes : List UInt8) :
    v.lookup bytes = v.tok.findIdx? fun t => decide (t = bytes) := hmapGet_vocabMap v.tok bytes

/-- An id stands for the bytes of its token. -/
theorem Vocab.lookup_tok {v : Vocab} {bytes : List UInt8} {id : Nat}
    (h : v.lookup bytes = some id) : v.tok[id]? = some bytes := by
  rw [v.lookup_eq, List.findIdx?_eq_some_iff_getElem] at h
  obtain ⟨hlt, hid, -⟩ := h
  rw [List.getElem?_eq_getElem hlt, of_decide_eq_true hid]

theorem Vocab.lookup_isSome {v : Vocab} {bytes : List UInt8} :
    (v.lookup bytes).isSome ↔ bytes ∈ v.tok := by
  rw [v.lookup_eq, List.findIdx?_isSome, List.any_eq_true]
  constructor
  · rintro ⟨t, ht, heq⟩
    rw [← of_decide_eq_true heq]
    exact ht
  · intro hmem
    exact ⟨bytes, hmem, decide_eq_true rfl⟩

theorem Vocab.lookup_eq_none {v : Vocab} {bytes : List UInt8} :
    v.lookup bytes = none ↔ bytes ∉ v.tok := by
  rw [← v.lookup_isSome, Bool.not_eq_true, Option.isSome_eq_false_iff, Option.isNone_iff_eq_none]

/-- Different bytes have different ids. -/
theorem Vocab.lookup_inj {v : Vocab} {bytes bytes' : List UInt8} {id : Nat}
    (h : v.lookup bytes = some id) (h' : v.lookup bytes' = some id) : bytes = bytes' := by
  have htok := v.lookup_tok h
  rw [v.lookup_tok h', Option.some_inj] at htok
  exact htok.symm

theorem Vocab.lookup_lt {v : Vocab} {bytes : List UInt8} {id : Nat}
    (h : v.lookup bytes = some id) : id < 2 ^ 31 := by
  have hlt := (List.getElem?_eq_some_iff.mp (v.lookup_tok h)).1
  exact hlt.trans_le v.size

/-! ## Special tokens -/

/-- `sp_special`: the bytes of a token and its id. -/
structure Special where
  surf : List UInt8
  id : Int

/-- The token stands at a place of the text. -/
def Special.hits (s : List UInt8) (i : Nat) (sp : Special) : Bool :=
  0 < sp.surf.length && i + sp.surf.length ≤ s.length && (s.drop i).take sp.surf.length == sp.surf

/-- The loop of every encoder: the text is cut at the special tokens, and what lies between them is
encoded as a fragment, which may fail. -/
def encodeSpecials {m : Type → Type} [Monad m] (fragment : List UInt8 → Out → m Out)
    (parseSpecial : Bool) (spec : List Special) (maxOut : Nat) (s : List UInt8) :
    Nat → Nat → Nat → Out → m Out
  | 0, _, _, o => pure o
  | fuel + 1, tstart, i, o =>
      if i < s.length then
        match if parseSpecial then spec.find? (Special.hits s i) else none with
        | none => encodeSpecials fragment parseSpecial spec maxOut s fuel tstart (i + 1) o
        | some sp => do
            let o ← if tstart < i then fragment ((s.drop tstart).take (i - tstart)) o else pure o
            encodeSpecials fragment parseSpecial spec maxOut s fuel (i + sp.surf.length)
              (i + sp.surf.length) (emit maxOut o sp.id)
      else if tstart < s.length then fragment (s.drop tstart) o else pure o

/-- Without special tokens the text is one fragment. -/
theorem encodeSpecials_plain {m : Type → Type} [Monad m] (fragment : List UInt8 → Out → m Out)
    (spec : List Special) (maxOut : Nat) (s : List UInt8) (o : Out) :
    encodeSpecials fragment false spec maxOut s (s.length + 1) 0 0 o =
      if 0 < s.length then fragment s o else pure o := by
  have hloop : ∀ fuel i, i ≤ s.length → s.length < i + fuel →
      encodeSpecials fragment false spec maxOut s fuel 0 i o =
        if 0 < s.length then fragment s o else pure o := by
    intro fuel
    induction fuel with
    | zero =>
        intro i hi hfuel
        exact absurd hi (Nat.not_le.mpr hfuel)
    | succ fuel ih =>
        intro i hi hfuel
        rw [encodeSpecials]
        split
        · apply ih (i + 1) <;> omega
        · rfl
  exact hloop _ 0 (Nat.zero_le _) (by omega)

/-! ## The decoders' buffer -/

/-- The buffer and how many bytes have been put, those that did not fit included. -/
structure Text where
  buf : Nat → UInt8
  pos : Nat

/-- A byte is stored where it leaves room for the NUL. -/
def Text.put (cap : Nat) (t : Text) (b : UInt8) : Text :=
  ⟨if t.pos + 1 < cap then Function.update t.buf t.pos b else t.buf, t.pos + 1⟩

/-- The NUL at the end. -/
def Text.finish (cap : Nat) (t : Text) : Text :=
  if 0 < cap then
    { t with buf := Function.update t.buf (if t.pos < cap then t.pos else cap - 1) 0 }
  else t

/-- The loop of both decoders, where each id stands for some bytes. -/
def decodeIds (text : Int → List UInt8) (ids : List Int) (cap : Nat) (buf : Nat → UInt8) : Text :=
  (ids.foldl (fun t id => (text id).foldl (Text.put cap) t) ⟨buf, 0⟩).finish cap

/-- What has been put into the buffer. -/
def Text.bytes (t : Text) : List UInt8 := (List.range t.pos).map t.buf

/-- What has been emitted. -/
def Out.ids (o : Out) : List Int := (List.range o.cnt).map o.out

theorem map_range_update {α : Type} (f : Nat → α) (n : Nat) (a : α) :
    (List.range (n + 1)).map (Function.update f n a) = (List.range n).map f ++ [a] := by
  rw [List.range_succ, List.map_append, List.map_singleton, Function.update_self]
  congr 1
  apply List.map_congr_left
  intro i hi
  exact Function.update_of_ne (Nat.ne_of_lt (List.mem_range.mp hi)) a f

theorem Text.bytes_put {cap : Nat} {t : Text} (hroom : t.pos + 1 < cap) (b : UInt8) :
    (t.put cap b).bytes = t.bytes ++ [b] := by
  rw [Text.put, if_pos hroom]
  exact map_range_update t.buf t.pos b

theorem Text.foldl_put {cap : Nat} {bytes : List UInt8} {t : Text}
    (hroom : t.pos + bytes.length < cap) :
    (bytes.foldl (Text.put cap) t).pos = t.pos + bytes.length ∧
      (bytes.foldl (Text.put cap) t).bytes = t.bytes ++ bytes := by
  induction bytes generalizing t with
  | nil => exact ⟨rfl, (List.append_nil _).symm⟩
  | cons b bytes ih =>
      rw [List.length_cons] at hroom ⊢
      have hpos : (t.put cap b).pos = t.pos + 1 := rfl
      obtain ⟨hend, hbytes⟩ := @ih (t.put cap b) (by omega)
      rw [List.foldl_cons, hend, hbytes, Text.bytes_put (by omega), hpos, List.append_assoc]
      exact ⟨by omega, rfl⟩

/-- The NUL stands behind the text. -/
theorem Text.finish_bytes {cap : Nat} {t : Text} (hroom : t.pos < cap) :
    (t.finish cap).bytes = t.bytes := by
  rw [Text.finish, if_pos (by omega), if_pos hroom]
  apply List.map_congr_left
  intro i hi
  exact Function.update_of_ne (Nat.ne_of_lt (List.mem_range.mp hi)) 0 t.buf

/-- With room for the text and the NUL the ids are decoded one after the other. -/
theorem decodeIds_bytes {text : Int → List UInt8} {ids : List Int} {cap : Nat}
    (hroom : (ids.flatMap text).length < cap) (buf : Nat → UInt8) :
    (decodeIds text ids cap buf).bytes = ids.flatMap text := by
  have hput : ∀ t : Text, ids.foldl (fun t id => (text id).foldl (Text.put cap) t) t =
      (ids.flatMap text).foldl (Text.put cap) t := by
    intro t
    rw [List.foldl_flatMap]
  rw [decodeIds, hput]
  obtain ⟨hpos, hbytes⟩ := @Text.foldl_put cap (ids.flatMap text) ⟨buf, 0⟩ (by rwa [Nat.zero_add])
  rw [Text.finish_bytes (by rwa [hpos, Nat.zero_add]), hbytes]
  rfl

/-! ## Spelling -/

/-- Ids are emitted that stand for the bytes. -/
def Spells (text : Int → List UInt8) (maxOut : Nat) (o o' : Out) (bytes : List UInt8) : Prop :=
  ∃ ids : List Int, o' = ids.foldl (emit maxOut) o ∧ ids.flatMap text = bytes

section Spells

variable {text : Int → List UInt8} {maxOut : Nat} {o o' o'' : Out} {bytes bytes' : List UInt8}

theorem Spells.nil : Spells text maxOut o o [] := ⟨[], rfl, rfl⟩

theorem Spells.append (h : Spells text maxOut o o' bytes) (h' : Spells text maxOut o' o'' bytes') :
    Spells text maxOut o o'' (bytes ++ bytes') := by
  obtain ⟨ids, rfl, rfl⟩ := h
  obtain ⟨ids', rfl, rfl⟩ := h'
  exact ⟨ids ++ ids', (List.foldl_append ..).symm, List.flatMap_append⟩

theorem Spells.emit (id : Int) : Spells text maxOut o (emit maxOut o id) (text id) :=
  ⟨[id], rfl, List.flatMap_singleton ..⟩

theorem Out.ids_emit (hroom : o.cnt < maxOut) (id : Int) :
    (Tokenizer.emit maxOut o id).ids = o.ids ++ [id] := by
  rw [Tokenizer.emit, if_pos hroom]
  exact map_range_update o.out o.cnt id

theorem Out.ids_foldl {ids : List Int} (hroom : o.cnt + ids.length ≤ maxOut) :
    (ids.foldl (Tokenizer.emit maxOut) o).ids = o.ids ++ ids := by
  induction ids generalizing o with
  | nil => exact (List.append_nil _).symm
  | cons id ids ih =>
      rw [List.length_cons] at hroom
      have hcnt : (Tokenizer.emit maxOut o id).cnt = o.cnt + 1 := rfl
      rw [List.foldl_cons, ih (by omega), Out.ids_emit (by omega), List.append_assoc]
      rfl

/-- Ids that spell a text, and that all fitted, are decoded to it. -/
theorem Spells.decode {out : Nat → Int} (h : Spells text maxOut ⟨out, 0⟩ o bytes)
    (hfits : o.cnt ≤ maxOut) {cap : Nat} (hroom : bytes.length < cap) (buf : Nat → UInt8) :
    (decodeIds text o.ids cap buf).bytes = bytes := by
  obtain ⟨ids, rfl, rfl⟩ := h
  rw [cnt_foldl_emit] at hfits
  rw [Out.ids_foldl hfits]
  exact decodeIds_bytes hroom buf

end Spells

end ShannonPrime.Tokenizer
