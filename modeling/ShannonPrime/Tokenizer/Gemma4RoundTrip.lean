import ShannonPrime.Lib.Utf8
import ShannonPrime.Tokenizer.Gemma4

/-!
The Gemma 4 encoding and its decoder. What is merged are whole characters, so that a token is a
text of its own, with U+2581 for the spaces; what is no token is one character, which is emitted
byte by byte.
-/

namespace ShannonPrime.Tokenizer

open PairMerge
open Utf8

/-- U+2581 -/
def spaceMark : Char := Char.ofNat 0x2581

/-- The encoder writes U+2581 for a space. -/
def mark (c : Char) : Char := if c = ' ' then spaceMark else c

/-- The decoder writes a space for U+2581. -/
def unmark (c : Char) : Char := if c = spaceMark then ' ' else c

theorem spaceMark_bytes : String.utf8EncodeChar spaceMark = [0xE2, 0x96, 0x81] := by decide

theorem unmark_mark {c : Char} (h : c ≠ spaceMark) : unmark (mark c) = c := by
  rw [mark]
  split
  · rename_i hspace
    rw [hspace, unmark, if_pos rfl]
  · rw [unmark, if_neg h]

/-! ## Characters -/

/-- An ASCII byte is a character of its own. -/
theorem ascii_mem {c : Char} {b : UInt8} (hb : b ∈ String.utf8EncodeChar c)
    (hascii : b.toNat < 0x80) : c.val.toNat = b.toNat := by
  obtain ⟨lead, tail, hbytes, htail, hlead⟩ := utf8EncodeChar_shape c
  rw [hbytes] at hb
  rcases List.mem_cons.mp hb with rfl | hb
  · omega
  · have hcont := htail b hb
    omega

theorem eq_of_val {c c' : Char} (h : c.val.toNat = c'.val.toNat) : c = c' :=
  Char.ext (UInt32.toNat_inj.mp h)

theorem escape_of_no_space {l : List UInt8} (h : ∀ b ∈ l, b ≠ 0x20) : escape l = l := by
  rw [escape]
  induction l with
  | nil => rfl
  | cons b l ih =>
      rw [List.flatMap_cons, if_neg (h b List.mem_cons_self),
        ih fun b' hb' => h b' (List.mem_cons_of_mem b hb')]
      rfl

/-- The escaped text has U+2581 for the spaces. -/
theorem escape_encode (text : List Char) : escape (encode text) = encode (text.map mark) := by
  have hchar : ∀ c, escape (String.utf8EncodeChar c) = String.utf8EncodeChar (mark c) := by
    intro c
    rw [mark]
    split
    · rename_i hspace
      rw [hspace, spaceMark_bytes]
      decide
    · rename_i hother
      apply escape_of_no_space
      rintro b hb rfl
      exact hother (eq_of_val (ascii_mem hb (by decide)))
  induction text with
  | nil => rfl
  | cons c text ih =>
      have happ : escape (encode (c :: text)) = escape (String.utf8EncodeChar c) ++
          escape (encode text) := List.flatMap_append
      rw [happ, hchar, ih]
      rfl

/-- Bytes that cannot begin U+2581 stay. -/
theorem unescape_skip {x rest : List UInt8} {fuel : Nat} (hx : ∀ b ∈ x, b ≠ 0xE2)
    (hfuel : x.length ≤ fuel) :
    unescape fuel (x ++ rest) = x ++ unescape (fuel - x.length) rest := by
  induction x generalizing fuel with
  | nil => rfl
  | cons b x ih =>
      rw [List.length_cons] at hfuel
      obtain ⟨fuel, rfl⟩ : ∃ n, fuel = n + 1 := ⟨fuel - 1, by omega⟩
      have hb : ([0xE2, 0x96, 0x81].isPrefixOf (b :: (x ++ rest))) = false := by
        rw [List.isPrefixOf_cons_cons, beq_false_of_ne (hx b List.mem_cons_self).symm]
        rfl
      rw [List.cons_append, unescape, hb, if_neg Bool.false_ne_true,
        ih (fun b' hb' => hx b' (List.mem_cons_of_mem b hb')) (by omega), List.length_cons,
        Nat.add_sub_add_right]
      rfl

/-- No other character begins as U+2581 does. -/
theorem eq_spaceMark {c : Char} {rest : List UInt8}
    (h : [0xE2, 0x96, 0x81].isPrefixOf (String.utf8EncodeChar c ++ rest) = true) :
    c = spaceMark := by
  obtain ⟨lead, tail, hbytes, -, hlead⟩ := utf8EncodeChar_shape c
  rw [hbytes, List.isPrefixOf_iff_prefix, List.cons_append] at h
  obtain ⟨hfirst, htail⟩ := List.cons_prefix_cons.mp h
  have hnat : lead.toNat = 0xE2 := by
    rw [← hfirst]
    rfl
  have htwo : tail.length = 2 := by omega
  have hsame : [0x96, 0x81] = tail := by
    have hprefix := List.prefix_of_prefix_length_le htail (List.prefix_append tail rest)
      (Nat.le_of_eq htwo.symm)
    exact hprefix.eq_of_length htwo.symm
  apply List.singleton_inj.mp
  apply encode_injective
  rw [encode_singleton, encode_singleton, hbytes, spaceMark_bytes, ← hfirst, ← hsame]

/-- No character but U+2581 begins with its bytes, and none has them further on. -/
theorem unescape_encode {fuel : Nat} {text : List Char} (hfuel : (encode text).length ≤ fuel) :
    unescape fuel (encode text) = encode (text.map unmark) := by
  induction text generalizing fuel with
  | nil => cases fuel <;> rfl
  | cons c text ih =>
      obtain ⟨lead, tail, hbytes, htail, -⟩ := utf8EncodeChar_shape c
      have hlen : (encode (c :: text)).length = tail.length + 1 + (encode text).length := by
        rw [encode_cons, List.length_append, hbytes, List.length_cons]
      obtain ⟨fuel, rfl⟩ : ∃ n, fuel = n + 1 := ⟨fuel - 1, by omega⟩
      rw [List.map_cons, encode_cons, encode_cons, unmark]
      split
      · rename_i hmark
        rw [hmark, spaceMark_bytes] at hbytes
        obtain ⟨rfl, rfl⟩ := List.cons.inj hbytes
        have hspace : String.utf8EncodeChar ' ' = [0x20] := by decide
        rw [hmark, spaceMark_bytes, hspace, ← @ih fuel (by omega)]
        rfl
      · rename_i hother
        have hprefix : [0xE2, 0x96, 0x81].isPrefixOf (lead :: (tail ++ encode text)) = false := by
          rw [← List.cons_append, ← hbytes]
          exact Bool.eq_false_iff.mpr fun h => hother (eq_spaceMark h)
        have hcont : ∀ b ∈ tail, b ≠ 0xE2 := by
          rintro b hb rfl
          exact absurd (htail _ hb).2 (by decide)
        rw [hbytes, List.cons_append, unescape, hprefix, if_neg Bool.false_ne_true,
          unescape_skip hcont (by omega), ih (by omega)]
        rfl

/-- The length of a character as its first byte tells it. -/
theorem g4Utf8Len_char (c : Char) : ∃ lead tail, String.utf8EncodeChar c = lead :: tail ∧
    g4Utf8Len lead = (String.utf8EncodeChar c).length := by
  have hall : ∀ n < 256, (n < 0x80 → g4Utf8Len (UInt8.ofNat n) = 1) ∧
      (0xC0 ≤ n → n < 0xE0 → g4Utf8Len (UInt8.ofNat n) = 2) ∧
      (0xE0 ≤ n → n < 0xF0 → g4Utf8Len (UInt8.ofNat n) = 3) ∧
      (0xF0 ≤ n → g4Utf8Len (UInt8.ofNat n) = 4) := by decide +kernel
  obtain ⟨lead, tail, hbytes, -, hlead⟩ := utf8EncodeChar_shape c
  obtain ⟨hone, htwo, hthree, hfour⟩ := hall lead.toNat lead.toNat_lt
  rw [UInt8.ofNat_toNat] at hone htwo hthree hfour
  refine ⟨lead, tail, hbytes, ?_⟩
  rw [hbytes, List.length_cons]
  rcases hlead with ⟨-, hlt, hlen⟩ | ⟨hle, hlt, hlen⟩ | ⟨hle, hlt, hlen⟩ | ⟨hle, hlen⟩
  · rw [hone hlt, hlen]
  · rw [htwo hle hlt, hlen]
  · rw [hthree hle hlt, hlen]
  · rw [hfour hle, hlen]

/-- The first symbols of a text are its characters. -/
theorem g4Chars_encode (text : List Char) :
    g4Chars (encode text) = text.map String.utf8EncodeChar := by
  rw [g4Chars, spans]
  apply cut_chars
  · intro x hx
    obtain ⟨c, -, rfl⟩ := List.mem_map.mp hx
    obtain ⟨lead, tail, hbytes, hlen⟩ := g4Utf8Len_char c
    exact ⟨lead, tail, hbytes, hlen⟩
  · rw [List.drop_zero, encode, List.flatMap_def]
  · exact Nat.le_add_left _ 0

theorem drop_length_takeWhile {α : Type} (p : α → Bool) (l : List α) :
    l.drop (l.takeWhile p).length = l.dropWhile p := by
  have hsplit := congrArg (List.drop (l.takeWhile p).length) (l.takeWhile_append_dropWhile (p := p))
  rw [List.drop_left] at hsplit
  exact hsplit.symm

/-- The runs of newlines and of other bytes are texts. -/
theorem g4Pieces_encode {fuel : Nat} {text : List Char} (hfuel : (encode text).length ≤ fuel) :
    ∃ ws : List (List Char), (g4Pieces fuel (encode text)).map Prod.snd = ws.map encode ∧
      ws.flatten = text := by
  have hnl : ∀ c, ∀ b ∈ String.utf8EncodeChar c, (b == 0x0A) = (c == '\n') := by
    intro c b hb
    rcases eq_or_ne c '\n' with rfl | hc
    · have hbytes : String.utf8EncodeChar '\n' = [0x0A] := by decide
      rw [hbytes, List.mem_singleton] at hb
      rw [hb]
      rfl
    · have hb' : b ≠ 0x0A := by
        rintro rfl
        exact hc (eq_of_val (ascii_mem hb (by decide)))
      rw [beq_false_of_ne hc, beq_false_of_ne hb']
  induction fuel generalizing text with
  | zero =>
      have hempty := List.length_eq_zero_iff.mp (Nat.le_zero.mp hfuel)
      refine ⟨[], rfl, ?_⟩
      exact (encode_injective (hempty.trans rfl : encode text = encode [])).symm
  | succ fuel ih =>
      cases text with
      | nil => exact ⟨[], rfl, rfl⟩
      | cons c text =>
          obtain ⟨lead, tail, hbytes, -⟩ := utf8EncodeChar_shape c
          have hsplit : encode (c :: text) = lead :: (tail ++ encode text) := by
            rw [encode_cons, hbytes]
            rfl
          have hrun : ∀ c' ∈ c :: text, ∀ b ∈ String.utf8EncodeChar c',
              ((b == 0x0A) == (lead == 0x0A)) = ((c' == '\n') == (lead == 0x0A)) := by
            intro c' _ b hb
            rw [hnl c' b hb]
          obtain ⟨htake, hdrop⟩ := encode_takeWhile hrun
          rw [hsplit] at htake hdrop hfuel
          have hlead : ((lead == 0x0A) == (lead == 0x0A)) = true := beq_self_eq_true _
          rw [List.takeWhile_cons_of_pos (p := fun b => (b == 0x0A) == (lead == 0x0A)) hlead] at htake
          rw [List.dropWhile_cons_of_pos (p := fun b => (b == 0x0A) == (lead == 0x0A)) hlead] at hdrop
          have hshort : (encode ((c :: text).dropWhile
              fun c' => (c' == '\n') == (lead == 0x0A))).length ≤ fuel := by
            rw [← hdrop]
            have hle := (List.dropWhile_suffix (l := tail ++ encode text)
              fun b => (b == 0x0A) == (lead == 0x0A)).length_le
            rw [List.length_cons] at hfuel
            omega
          obtain ⟨ws, hmap, hflat⟩ := ih hshort
          refine ⟨(c :: text).takeWhile (fun c' => (c' == '\n') == (lead == 0x0A)) :: ws, ?_, ?_⟩
          · rw [hsplit, g4Pieces, drop_length_takeWhile, hdrop, List.map_cons, hmap, htake, List.map_cons]
          · rw [List.flatten_cons, hflat, List.takeWhile_append_dropWhile]

/-! ## The ids of a text -/

/-- The ids of a piece: a run of newlines that is a token is one of its own. -/
def g4PieceIds (t : Gemma4) (junk : Nat → Node G4Sym) (garbage : Nat → G4Bigram)
    (piece : Bool × List UInt8) : List Int :=
  if piece.1 && (t.vocab.lookup piece.2).isSome then g4Ids t piece.2
  else (g4Parts t junk garbage piece.2).flatMap (g4Ids t)

def bosIds (sp : SpecialIds) : List Int := if sp.addBos && 0 ≤ sp.bos then [sp.bos] else []

section RoundTrip

variable {v : Vocab} {merges : List (List UInt8)} {t : Gemma4} {sp : SpecialIds}
variable {junk : Nat → Node G4Sym} {garbage : Nat → G4Bigram}

theorem g4Piece_ids (hbuild : spG4Build v merges = .ok t) (piece : Bool × List UInt8)
    (maxOut : Nat) (o : Out) : g4Piece t junk garbage piece.2 piece.1 maxOut o =
      (g4PieceIds t junk garbage piece).foldl (emit maxOut) o := by
  rw [g4Piece, g4PieceIds, g4Ids, g4Resegment_parts hbuild]
  cases piece.1 with
  | false => rfl
  | true =>
      cases t.vocab.lookup piece.2 with
      | none => rfl
      | some id => rfl

theorem spG4Encode_ids (hbuild : spG4Build v merges = .ok t) (spec : List Special) (s : List UInt8)
    (maxOut : Nat) (out : Nat → Int) :
    spG4Encode t sp spec junk garbage s false maxOut out =
      (bosIds sp ++ (g4Pieces (escape s).length (escape s)).flatMap
        (g4PieceIds t junk garbage)).foldl (emit maxOut) ⟨out, 0⟩ := by
  have hbos : (if sp.addBos && 0 ≤ sp.bos then emit maxOut ⟨out, 0⟩ sp.bos else ⟨out, 0⟩) =
      (bosIds sp).foldl (emit maxOut) ⟨out, 0⟩ := by
    rw [bosIds]
    split <;> rfl
  have hfragment : ∀ o, g4Fragment t junk garbage s maxOut o =
      ((g4Pieces (escape s).length (escape s)).flatMap (g4PieceIds t junk garbage)).foldl
        (emit maxOut) o := by
    intro o
    rw [← foldl_emit_flatMap, g4Fragment]
    congr 1
    funext o piece
    exact g4Piece_ids hbuild piece maxOut o
  rw [spG4Encode, encodeSpecials_plain, List.foldl_append, ← hbos, ← hfragment]
  split
  · rfl
  · rename_i hempty
    rw [List.length_eq_zero_iff.mp (Nat.eq_zero_of_not_pos hempty)]
    rfl

/-- A part that is no token is one character. -/
theorem part_character (hbuild : spG4Build v merges = .ok t) {w : List Char} {part : List UInt8}
    (hpart : part ∈ g4Parts t junk garbage (encode w)) (hnone : t.vocab.lookup part = none) :
    ∃ c ∈ w, part = String.utf8EncodeChar c := by
  obtain ⟨hvocab, hholds⟩ := spG4Build_holds hbuild
  rcases (g4Parts_merged hbuild junk garbage (encode w)).mem hpart with hchar | ⟨a, b, k, hrank, rfl⟩
  · rw [g4Chars_encode] at hchar
    obtain ⟨c, hc, rfl⟩ := List.mem_map.mp hchar
    exact ⟨c, hc, rfl⟩
  · -- what a line makes is a token
    rw [mergeRank, List.findIdx?_eq_some_iff_getElem] at hrank
    obtain ⟨hlt, hsplit, -⟩ := hrank
    have hres := (hholds.sides _ (List.getElem_mem hlt) a b (of_decide_eq_true hsplit)).2.2
    rw [← hvocab, hnone] at hres
    cases hres

/-- The id of a string that is taken for nothing else spells it, with spaces. -/
theorem token_text {w : List Char} (htoken : (t.vocab.lookup (encode w)).isSome = true)
    (hplain : Plain t sp (encode w)) :
    (g4Ids t (encode w)).flatMap (g4Text t sp) = encode (w.map unmark) := by
  obtain ⟨id, hid⟩ := Option.isSome_iff_exists.mp htoken
  rw [g4Ids, hid, idsOf, List.flatMap_singleton, g4Text_plain hid hplain,
    unescape_encode (Nat.le_refl _)]

theorem bytes_text (hbuild : spG4Build v merges = .ok t) {part : List UInt8}
    (hnone : t.vocab.lookup part = none) (hplain : ∀ b ∈ part, sp.skips (g4ByteTok t b) = false) :
    (g4Ids t part).flatMap (g4Text t sp) = part := by
  rw [g4Ids, hnone, idsOf, List.flatMap_map]
  have hone : ∀ b ∈ part, g4Text t sp (g4ByteTok t b) = [b] := fun b hb =>
    g4Text_byteTok hbuild (hplain b hb)
  rw [List.flatMap_congr hone]
  exact List.flatMap_singleton' part

theorem encode_flatten_unmark (ws : List (List Char)) :
    encode (ws.flatten.map unmark) = ws.flatMap fun w => encode (w.map unmark) := by
  induction ws with
  | nil => rfl
  | cons w ws ih =>
      rw [List.flatten_cons, List.map_append, encode_append, ih]
      rfl

/-- The ids of a piece spell it, with spaces. -/
theorem pieceIds_text (hbuild : spG4Build v merges = .ok t)
    (hmark : String.utf8EncodeChar spaceMark ∈ v.tok) {isNl : Bool} {w : List Char}
    (hnormal : ∀ part ∈ g4PieceNormal t junk garbage (isNl, encode w), Plain t sp part)
    (hbytes : ∀ c ∈ w, c ≠ spaceMark → ∀ b ∈ String.utf8EncodeChar c,
      sp.skips (g4ByteTok t b) = false) :
    (g4PieceIds t junk garbage (isNl, encode w)).flatMap (g4Text t sp) = encode (w.map unmark) := by
  rw [g4PieceNormal] at hnormal
  rw [g4PieceIds]
  split
  · rename_i hwhole
    rw [if_pos hwhole] at hnormal
    exact token_text (Bool.and_eq_true_iff.mp hwhole).2 (hnormal _ List.mem_cons_self)
  · rename_i hparts
    rw [if_neg hparts] at hnormal
    have hmerged := g4Parts_merged hbuild junk garbage (encode w)
    have hstart : (w.map fun c => [c]).map encode = g4Chars (encode w) := by
      rw [g4Chars_encode, List.map_map]
      apply List.map_congr_left
      intro c _
      exact encode_singleton c
    obtain ⟨ws, hws, hflat⟩ := hmerged.lift encode_append hstart
    have hchars : (w.map fun c => [c]).flatten = w := List.flatMap_singleton' w
    have hpart : ∀ w' ∈ ws, (g4Ids t (encode w')).flatMap (g4Text t sp) =
        encode (w'.map unmark) := by
      intro w' hw'
      have hmem : encode w' ∈ g4Parts t junk garbage (encode w) := by
        rw [← hws]
        exact List.mem_map_of_mem hw'
      cases htoken : t.vocab.lookup (encode w') with
      | some id =>
          have hsome : (t.vocab.lookup (encode w')).isSome = true := by
            rw [htoken]
            rfl
          exact token_text hsome (hnormal _ (List.mem_filter.mpr ⟨hmem, hsome⟩))
      | none =>
          obtain ⟨c, hc, hchar⟩ := part_character hbuild hmem htoken
          have hother : c ≠ spaceMark := by
            rintro rfl
            rw [hchar, (spG4Build_holds hbuild).1] at htoken
            exact Vocab.lookup_eq_none.mp htoken hmark
          have hone : w' = [c] := by
            apply encode_injective
            rw [hchar, encode_singleton]
          rw [bytes_text hbuild htoken (by
            rw [hchar]
            exact hbytes c hc hother), hone, List.map_singleton, unmark, if_neg hother]
    rw [List.flatMap_assoc, ← hws, List.flatMap_map, List.flatMap_congr hpart,
      ← encode_flatten_unmark, hflat, hchars]

/-- The beginning of the text is passed over. -/
theorem bosIds_text : (bosIds sp).flatMap (g4Text t sp) = [] := by
  rw [bosIds]
  split
  · have hskip : sp.skips sp.bos = true := by
      rw [SpecialIds.skips, beq_self_eq_true]
      rfl
    rw [List.flatMap_singleton, g4Text_skips hskip]
  · rfl

/-- A character of the escaped text that is not U+2581 is one of the text. -/
theorem mem_of_mark {text : List Char} {c : Char} (hc : c ∈ text.map mark) (h : c ≠ spaceMark) :
    c ∈ text := by
  obtain ⟨c', hc', rfl⟩ := List.mem_map.mp hc
  rw [mark] at h ⊢
  split at h
  · exact absurd rfl h
  · rename_i hother
    rwa [if_neg hother]

/-- The ids of a text spell it. -/
theorem textIds_text (hbuild : spG4Build v merges = .ok t)
    (hmark : String.utf8EncodeChar spaceMark ∈ v.tok) {text : List Char} (htext : spaceMark ∉ text)
    (hnormal : ∀ part ∈ g4Normal t junk garbage (encode text), Plain t sp part)
    (hbytes : ∀ b ∈ encode text, sp.skips (g4ByteTok t b) = false) :
    ((g4Pieces (escape (encode text)).length (escape (encode text))).flatMap
      (g4PieceIds t junk garbage)).flatMap (g4Text t sp) = encode text := by
  rw [g4Normal] at hnormal
  rw [escape_encode] at hnormal ⊢
  obtain ⟨ws, hws, hflat⟩ := g4Pieces_encode (Nat.le_refl (encode (text.map mark)).length)
  generalize g4Pieces (encode (text.map mark)).length (encode (text.map mark)) = pieces
    at hnormal hws
  have hpiece : ∀ piece ∈ pieces, (g4PieceIds t junk garbage piece).flatMap (g4Text t sp) =
      unescape piece.2.length piece.2 := by
    rintro ⟨isNl, p⟩ hmem
    have hp : p ∈ ws.map encode := by
      rw [← hws]
      exact List.mem_map_of_mem hmem
    obtain ⟨w, hw, rfl⟩ := List.mem_map.mp hp
    rw [unescape_encode (Nat.le_refl _)]
    apply pieceIds_text hbuild hmark
    · intro part hpart
      exact hnormal part (List.mem_flatMap.mpr ⟨_, hmem, hpart⟩)
    · intro c hc hother b hb
      have hin : c ∈ text.map mark := by
        rw [← hflat]
        exact List.mem_flatten.mpr ⟨w, hw, hc⟩
      exact hbytes b (List.mem_flatMap.mpr ⟨c, mem_of_mark hin hother, hb⟩)
  have hwhole : pieces.flatMap (fun piece => unescape piece.2.length piece.2) =
      (pieces.map Prod.snd).flatMap fun p => unescape p.length p := by rw [List.flatMap_map]
  have hunmark : (text.map mark).map unmark = text := by
    rw [List.map_map]
    conv_rhs => rw [← List.map_id text]
    apply List.map_congr_left
    rintro c hc
    exact unmark_mark fun heq => htext (heq ▸ hc)
  rw [List.flatMap_assoc, List.flatMap_congr hpiece, hwhole, hws, List.flatMap_map,
    List.flatMap_congr fun w _ => unescape_encode (Nat.le_refl (encode w).length),
    ← encode_flatten_unmark, hflat, hunmark]

/-- With enough room the decoder finds what the ids of the pieces stand for. -/
theorem g4_decode_encode (hbuild : spG4Build v merges = .ok t) {spec : List Special}
    {s bytes : List UInt8} (hbytes : ((g4Pieces (escape s).length (escape s)).flatMap
      (g4PieceIds t junk garbage)).flatMap (g4Text t sp) = bytes) {maxOut : Nat} {out : Nat → Int}
    (hfits : (spG4Encode t sp spec junk garbage s false maxOut out).cnt ≤ maxOut) {cap : Nat}
    (hroom : bytes.length < cap) (buf : Nat → UInt8) :
    (spG4Decode t sp (spG4Encode t sp spec junk garbage s false maxOut out).ids cap buf).bytes =
      bytes := by
  refine Spells.decode ⟨_, spG4Encode_ids hbuild spec s maxOut out, ?_⟩ hfits hroom buf
  rw [List.flatMap_append, bosIds_text, hbytes]
  rfl

end RoundTrip

/-- What has been encoded is decoded again, where no string that is emitted by its own id is taken
for anything else, and no byte token of the text is passed over. -/
theorem g4_round_trip {v : Vocab} {merges : List (List UInt8)} {t : Gemma4}
    (hbuild : spG4Build v merges = .ok t) (hmark : [0xE2, 0x96, 0x81] ∈ v.tok) (sp : SpecialIds)
    (spec : List Special) (junk : Nat → Node G4Sym) (garbage : Nat → G4Bigram) {text : List Char}
    (htext : spaceMark ∉ text)
    (hnormal : ∀ part ∈ g4Normal t junk garbage (encode text), Plain t sp part)
    (hbytes : ∀ b ∈ encode text, sp.skips (g4ByteTok t b) = false) {maxOut : Nat}
    {out : Nat → Int}
    (hfits : (spG4Encode t sp spec junk garbage (encode text) false maxOut out).cnt ≤ maxOut)
    {cap : Nat} (hroom : (encode text).length < cap) (buf : Nat → UInt8) :
    (spG4Decode t sp (spG4Encode t sp spec junk garbage (encode text) false maxOut out).ids cap
      buf).bytes = encode text := by
  rw [← spaceMark_bytes] at hmark
  exact g4_decode_encode hbuild (textIds_text hbuild hmark htext hnormal hbytes) hfits hroom buf

/-! ## A vocabulary with a lower-case byte token -/

/-- The byte tokens, U+2581, and the characters of `<0xab>` with what its merges make. -/
def hexTokens : List (List UInt8) :=
  (List.range 256).map byteName ++ [[0xE2, 0x96, 0x81], [0x3C], [0x30], [0x78], [0x61], [0x62],
    [0x3E], [0x3C, 0x30], [0x3C, 0x30, 0x78], [0x3C, 0x30, 0x78, 0x61],
    [0x3C, 0x30, 0x78, 0x61, 0x62], [0x3C, 0x30, 0x78, 0x61, 0x62, 0x3E]]

theorem hexTokens_length : hexTokens.length = 268 := by
  rw [hexTokens, List.length_append, List.length_map, List.length_range]
  rfl

def hexVocab : Vocab := ⟨hexTokens, by rw [hexTokens_length]; omega⟩

def hexMerges : List (List UInt8) :=
  [[0x3C, 0x20, 0x30], [0x3C, 0x30, 0x20, 0x78], [0x3C, 0x30, 0x78, 0x20, 0x61],
    [0x3C, 0x30, 0x78, 0x61, 0x20, 0x62], [0x3C, 0x30, 0x78, 0x61, 0x62, 0x20, 0x3E]]

theorem hex_build : ∃ t, spG4Build hexVocab hexMerges = .ok t := by
  -- the byte tokens, which come first, are no side of a merge
  have hsides : ∀ line ∈ hexMerges, ∀ sides ∈ g4Split line, sides.1 ∈ hexTokens.drop 256 ∧
      sides.2 ∈ hexTokens.drop 256 ∧ sides.1 ++ sides.2 ∈ hexTokens.drop 256 := by decide
  rw [spG4Build_ok_iff]
  refine ⟨Nat.succ_pos _, by decide, ?_, ?_⟩
  · intro line hline l r hsplit
    obtain ⟨hleft, hright, hboth⟩ := hsides line hline (l, r) hsplit
    exact ⟨List.mem_of_mem_drop hleft, List.mem_of_mem_drop hright, List.mem_of_mem_drop hboth⟩
  · intro b hb
    exact List.mem_append_left _ (List.mem_map_of_mem (List.mem_range.mpr hb))

section Hex

variable {v : Vocab} {merges : List (List UInt8)} {t : Gemma4}

/-- The parts of a piece, computed. -/
theorem g4Parts_eq (hbuild : spG4Build v merges = .ok t) (junk : Nat → Node G4Sym)
    (garbage : Nat → G4Bigram) (s : List UInt8) : g4Parts t junk garbage s =
      naive (mergeRank merges) (fun a b _ => a ++ b) (g4Chars s).length (g4Chars s) :=
  (g4Parts_merged hbuild junk garbage s).unique (naive_merged (Nat.le_refl _))

/-- A text that is one piece without newlines. -/
theorem g4Normal_eq (hbuild : spG4Build v merges = .ok t) (junk : Nat → Node G4Sym)
    (garbage : Nat → G4Bigram) {s : List UInt8}
    (hpiece : g4Pieces (escape s).length (escape s) = [(false, escape s)]) :
    g4Normal t junk garbage s = (naive (mergeRank merges) (fun a b _ => a ++ b)
      (g4Chars (escape s)).length (g4Chars (escape s))).filter fun part => part ∈ v.tok := by
  rw [g4Normal, hpiece, List.flatMap_singleton, g4PieceNormal, Bool.false_and,
    if_neg Bool.false_ne_true, g4Parts_eq hbuild, (spG4Build_holds hbuild).1]
  apply List.filter_congr
  intro part _
  rw [Bool.eq_iff_iff, Vocab.lookup_isSome, decide_eq_true_iff]

theorem g4Ids_length {part : List UInt8} (h : 0 < part.length) :
    (g4Ids t part).length ≤ part.length := by
  rw [g4Ids]
  cases t.vocab.lookup part with
  | none => exact Nat.le_of_eq (List.length_map _)
  | some id => exact h

/-- What a text that is one piece without newlines is emitted as. -/
theorem g4TextIds_eq (hbuild : spG4Build v merges = .ok t) (junk : Nat → Node G4Sym)
    (garbage : Nat → G4Bigram) {s : List UInt8}
    (hpiece : g4Pieces (escape s).length (escape s) = [(false, escape s)]) :
    (g4Pieces (escape s).length (escape s)).flatMap (g4PieceIds t junk garbage) =
      (naive (mergeRank merges) (fun a b _ => a ++ b) (g4Chars (escape s)).length
        (g4Chars (escape s))).flatMap (g4Ids t) := by
  rw [hpiece, List.flatMap_singleton, g4PieceIds, Bool.false_and, if_neg Bool.false_ne_true,
    g4Parts_eq hbuild]

theorem bosIds_length (sp : SpecialIds) : (bosIds sp).length ≤ 1 := by
  rw [bosIds]
  split
  · exact Nat.le_refl 1
  · exact Nat.zero_le 1

/-- `>` is the beginning of the text, and nothing else has a meaning of its own. -/
def hexIds : SpecialIds := ⟨true, 262, -1, -1, -1⟩

theorem hexIds_skips {part : List UInt8} (hpart : part ≠ [0x3E]) {id : Nat}
    (hid : hexVocab.tok[id]? = some part) : hexIds.skips id = false := by
  have hbos : hexVocab.tok[262]? = some [0x3E] := by decide
  have hne : id ≠ 262 := by
    rintro rfl
    rw [hbos, Option.some_inj] at hid
    exact hpart hid.symm
  simp only [SpecialIds.skips, hexIds, Bool.or_eq_false_iff, beq_eq_false_iff_ne]
  omega

end Hex

/-- A token, a space and a character that is no token. -/
theorem g4_round_trip_fallback : ∃ t, spG4Build hexVocab hexMerges = .ok t ∧ ∀ junk garbage buf,
    (spG4Decode t hexIds (spG4Encode t hexIds [] junk garbage (encode ['a', ' ', 'A']) false 8
      fun _ => 0).ids 8 buf).bytes = encode ['a', ' ', 'A'] := by
  obtain ⟨t, hbuild⟩ := hex_build
  have hvocab := (spG4Build_holds hbuild).1
  have hpiece : g4Pieces (escape (encode ['a', ' ', 'A'])).length (escape (encode ['a', ' ', 'A'])) =
      [(false, escape (encode ['a', ' ', 'A']))] := by decide
  have hparts : naive (mergeRank hexMerges) (fun a b _ => a ++ b)
      (g4Chars (escape (encode ['a', ' ', 'A']))).length
      (g4Chars (escape (encode ['a', ' ', 'A']))) = [[0x61], [0xE2, 0x96, 0x81], [0x41]] := by decide
  have hplain : ∀ part ∈ [[0x61], [0xE2, 0x96, 0x81]], g4ByteToken part = none ∧ part ≠ [0x3E] := by
    decide
  refine ⟨t, hbuild, fun junk garbage buf => ?_⟩
  apply g4_round_trip hbuild (by decide) hexIds [] junk garbage (by decide)
  · intro part hpart
    rw [g4Normal_eq hbuild junk garbage hpiece, hparts] at hpart
    have hkept : [[0x61], [0xE2, 0x96, 0x81], [0x41]].filter (fun part => part ∈ hexVocab.tok) =
        [[0x61], [0xE2, 0x96, 0x81]] := by decide
    rw [hkept] at hpart
    obtain ⟨hbyte, hne⟩ := hplain part hpart
    refine ⟨hbyte, fun id hid => hexIds_skips hne ?_⟩
    rwa [← hvocab]
  · intro b _
    have hlookup := spG4Build_byteTok hbuild b.toNat_lt
    have hne : byteName b.toNat ≠ [0x3E] := fun h => by cases h
    exact hexIds_skips hne (Vocab.lookup_tok hlookup)
  · rw [spG4Encode_ids hbuild, cnt_foldl_emit, List.length_append,
      g4TextIds_eq hbuild junk garbage hpiece, hparts]
    have hbos := bosIds_length hexIds
    have hone := @g4Ids_length t [0x61] (by decide)
    have hspace := @g4Ids_length t [0xE2, 0x96, 0x81] (by decide)
    have hother := @g4Ids_length t [0x41] (by decide)
    simp only [List.flatMap_cons, List.flatMap_nil, List.length_append, List.length_nil,
      List.length_cons] at hone hspace hother ⊢
    omega
  · decide

/-- A byte token that ends the text is passed over, and a token that is not one of the byte tokens
is taken for one if it has lower-case digits. -/
theorem g4_round_trip_fails : ∃ t, spG4Build hexVocab hexMerges = .ok t ∧
    [0xE2, 0x96, 0x81] ∈ hexVocab.tok ∧ ∀ junk garbage buf,
      (∃ sp : SpecialIds, g4Normal t junk garbage (encode ['A']) = [] ∧
        (spG4Encode t sp [] junk garbage (encode ['A']) false 8 fun _ => 0).cnt ≤ 8 ∧
        (spG4Decode t sp (spG4Encode t sp [] junk garbage (encode ['A']) false 8
          fun _ => 0).ids 8 buf).bytes ≠ encode ['A']) ∧
      ((∀ part ∈ g4Normal t junk garbage (encode ['<', '0', 'x', 'a', 'b', '>']),
          (∀ b < 256, part ≠ byteName b) ∧
            ∀ id : Nat, t.vocab.tok[id]? = some part → hexIds.skips id = false) ∧
        (spG4Encode t hexIds [] junk garbage (encode ['<', '0', 'x', 'a', 'b', '>']) false 8
          fun _ => 0).cnt ≤ 8 ∧
        (spG4Decode t hexIds (spG4Encode t hexIds [] junk garbage
          (encode ['<', '0', 'x', 'a', 'b', '>']) false 8 fun _ => 0).ids 8 buf).bytes ≠
            encode ['<', '0', 'x', 'a', 'b', '>']) := by
  obtain ⟨t, hbuild⟩ := hex_build
  have hvocab := (spG4Build_holds hbuild).1
  refine ⟨t, hbuild, by decide, fun junk garbage buf => ⟨?_, ?_⟩⟩
  · have hpiece : g4Pieces (escape (encode ['A'])).length (escape (encode ['A'])) =
        [(false, escape (encode ['A']))] := by decide
    have hparts : naive (mergeRank hexMerges) (fun a b _ => a ++ b)
        (g4Chars (escape (encode ['A']))).length (g4Chars (escape (encode ['A']))) =
        [[0x41]] := by decide
    have hout : [0x41] ∉ hexVocab.tok := by decide
    have hids : g4Ids t [0x41] = [g4ByteTok t 0x41] := by
      rw [g4Ids, hvocab, Vocab.lookup_eq_none.mpr hout]
      rfl
    -- the end of the text is the byte token of the letter
    let sp : SpecialIds := ⟨true, 262, g4ByteTok t 0x41, -1, -1⟩
    have hskip : sp.skips (g4ByteTok t 0x41) = true := by
      simp only [SpecialIds.skips, sp, beq_self_eq_true, Bool.or_true, Bool.true_or]
    have htext : ((g4Pieces (escape (encode ['A'])).length (escape (encode ['A']))).flatMap
        (g4PieceIds t junk garbage)).flatMap (g4Text t sp) = [] := by
      rw [g4TextIds_eq hbuild junk garbage hpiece, hparts, List.flatMap_singleton, hids,
        List.flatMap_singleton, g4Text_skips hskip]
    have hcnt : (spG4Encode t sp [] junk garbage (encode ['A']) false 8 fun _ => 0).cnt ≤ 8 := by
      have hbos := bosIds_length sp
      rw [spG4Encode_ids hbuild, cnt_foldl_emit, List.length_append,
        g4TextIds_eq hbuild junk garbage hpiece, hparts, List.flatMap_singleton, hids,
        List.length_singleton]
      dsimp only
      omega
    refine ⟨sp, ?_, hcnt, ?_⟩
    · rw [g4Normal_eq hbuild junk garbage hpiece, hparts, List.filter_cons_of_neg, List.filter_nil]
      exact Bool.not_eq_true _ ▸ decide_eq_false hout
    · rw [g4_decode_encode hbuild htext hcnt (Nat.succ_pos _)]
      decide
  · have hpiece : g4Pieces (escape (encode ['<', '0', 'x', 'a', 'b', '>'])).length
        (escape (encode ['<', '0', 'x', 'a', 'b', '>'])) =
        [(false, escape (encode ['<', '0', 'x', 'a', 'b', '>']))] := by decide
    have hparts : naive (mergeRank hexMerges) (fun a b _ => a ++ b)
        (g4Chars (escape (encode ['<', '0', 'x', 'a', 'b', '>']))).length
        (g4Chars (escape (encode ['<', '0', 'x', 'a', 'b', '>']))) =
        [[0x3C, 0x30, 0x78, 0x61, 0x62, 0x3E]] := by decide
    have hin : [0x3C, 0x30, 0x78, 0x61, 0x62, 0x3E] ∈ hexVocab.tok := by decide
    have hupper : ∀ b < 256, [0x3C, 0x30, 0x78, 0x61, 0x62, 0x3E] ≠ byteName b := by decide +kernel
    obtain ⟨id, hid⟩ := Option.isSome_iff_exists.mp (Vocab.lookup_isSome.mpr hin)
    have hplain : hexIds.skips id = false := hexIds_skips (by decide) (Vocab.lookup_tok hid)
    rw [← hvocab] at hid
    have hids : g4Ids t [0x3C, 0x30, 0x78, 0x61, 0x62, 0x3E] = [(id : Int)] := by
      rw [g4Ids, hid]
      rfl
    have hbyte : g4ByteToken [0x3C, 0x30, 0x78, 0x61, 0x62, 0x3E] = some 0xAB := by decide
    have hother : [0x3C, 0x30, 0x78, 0x61, 0x62, 0x3E] ≠ [(0x3E : UInt8)] := by decide
    have htext : ((g4Pieces (escape (encode ['<', '0', 'x', 'a', 'b', '>'])).length
        (escape (encode ['<', '0', 'x', 'a', 'b', '>']))).flatMap
        (g4PieceIds t junk garbage)).flatMap (g4Text t hexIds) = [0xAB] := by
      rw [g4TextIds_eq hbuild junk garbage hpiece, hparts, List.flatMap_singleton, hids,
        List.flatMap_singleton, g4Text_byte hid hplain hbyte]
    have hcnt : (spG4Encode t hexIds [] junk garbage (encode ['<', '0', 'x', 'a', 'b', '>']) false 8
        fun _ => 0).cnt ≤ 8 := by
      have hbos := bosIds_length hexIds
      rw [spG4Encode_ids hbuild, cnt_foldl_emit, List.length_append,
        g4TextIds_eq hbuild junk garbage hpiece, hparts, List.flatMap_singleton, hids,
        List.length_singleton]
      dsimp only
      omega
    refine ⟨?_, hcnt, ?_⟩
    · intro part hpart
      rw [g4Normal_eq hbuild junk garbage hpiece, hparts] at hpart
      obtain rfl := List.mem_singleton.mp (List.mem_filter.mp hpart).1
      refine ⟨hupper, fun id hid => hexIds_skips hother ?_⟩
      rwa [← hvocab]
    · rw [g4_decode_encode hbuild htext hcnt (by decide)]
      decide

end ShannonPrime.Tokenizer
