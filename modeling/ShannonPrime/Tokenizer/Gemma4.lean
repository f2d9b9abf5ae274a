import ShannonPrime.Tokenizer.Gemma4Build
import ShannonPrime.Tokenizer.Vocab
import ShannonPrime.Tokenizer.Symbols

/-!
The Gemma 4 encoding of one piece: the neighbours of the lowest merge line are merged, by their
ids. A pair is outdated when one of its ids has changed, which is to say one of its strings.
-/

namespace ShannonPrime.Tokenizer

open PairMerge

/-- The length that the upper half of the first byte tells. -/
def g4Utf8Len (lead : UInt8) : Nat :=
  [1, 1, 1, 1, 1, 1, 1, 1, 1, 1, 1, 1, 2, 2, 3, 4].getD (lead >>> 4).toNat 0

/-- A symbol with its id, if it is a token. -/
structure G4Sym where
  span : Span
  id : Option Nat

abbrev G4Bigram := Entry Nat (Option Nat × Option Nat)

/-- The lowest rank first, the left one of two equal ranks. -/
def g4Before (a b : G4Bigram) : Bool :=
  decide (a.rank < b.rank) || (decide (a.rank = b.rank) && decide (a.left < b.left))

/-- The ids of a pair tell its rank, and what it makes; a pair of which an id has changed is
outdated. -/
def g4Rule (t : Gemma4) : Rule G4Sym Nat (Option Nat × Option Nat) where
  dead x := decide (x.span.n = 0)
  rank l r :=
    match l.id, r.id with
    | some lid, some rid => g4PairRank t.tables lid rid
    | _, _ => none
  join l r k := ⟨⟨l.span.off, l.span.n + r.span.n⟩, (t.tables.result[k]?).join⟩
  kill r := ⟨⟨r.span.off, 0⟩, none⟩
  tag l r := (l.id, r.id)
  fresh l r ids := decide (l.id = ids.1) && decide (r.id = ids.2)

/-- The characters of a piece, looked up. -/
def g4Symbols (t : Gemma4) (s : List UInt8) : List G4Sym :=
  (spans g4Utf8Len s).map fun x => ⟨x, t.vocab.lookup (x.text s)⟩

def g4Merge (t : Gemma4) (junk : Nat → Node G4Sym) (garbage : Nat → G4Bigram) (s : List UInt8) :
    State G4Sym Nat (Option Nat × Option Nat) :=
  run (g4Rule t) (g4Symbols t s) junk garbage

def g4ByteTok (t : Gemma4) (b : UInt8) : Int := (t.byteTok.getD b.toNat 0 : Nat)

/-- A symbol by its id, or by its bytes. -/
def g4SymIds (t : Gemma4) (s : List UInt8) (x : G4Sym) : List Int :=
  if x.span.n = 0 then [] else idsOf x.id (g4ByteTok t) (x.span.text s)

/-- The strings of the symbols that are left. -/
def g4Parts (t : Gemma4) (junk : Nat → Node G4Sym) (garbage : Nat → G4Bigram) (s : List UInt8) :
    List (List UInt8) :=
  (result (g4Merge t junk garbage s) (g4Symbols t s).length).map fun x => x.span.text s

/-- The symbols that are left. -/
def g4Resegment (t : Gemma4) (junk : Nat → Node G4Sym) (garbage : Nat → G4Bigram)
    (s : List UInt8) (maxOut : Nat) (o : Out) : Out :=
  (result (g4Merge t junk garbage s) (g4Symbols t s).length).foldl
    (fun o x => (g4SymIds t s x).foldl (emit maxOut) o) o

/-- One piece; a run of newlines that is a token stays whole. -/
def g4Piece (t : Gemma4) (junk : Nat → Node G4Sym) (garbage : Nat → G4Bigram) (s : List UInt8)
    (isNlRun : Bool) (maxOut : Nat) (o : Out) : Out :=
  if isNlRun then
    match t.vocab.lookup s with
    | some id => emit maxOut o id
    | none => g4Resegment t junk garbage s maxOut o
  else g4Resegment t junk garbage s maxOut o

/-- The runs of newlines and of other bytes. -/
def g4Pieces : Nat → List UInt8 → List (Bool × List UInt8)
  | fuel + 1, c :: rest =>
      let isNl := c == 0x0A
      let run := rest.takeWhile fun b => (b == 0x0A) == isNl
      (isNl, c :: run) :: g4Pieces fuel (rest.drop run.length)
  | _, _ => []

/-- One fragment without special tokens. -/
def g4Fragment (t : Gemma4) (junk : Nat → Node G4Sym) (garbage : Nat → G4Bigram) (s : List UInt8)
    (maxOut : Nat) (o : Out) : Out :=
  (g4Pieces (escape s).length (escape s)).foldl
    (fun o piece => g4Piece t junk garbage piece.2 piece.1 maxOut o) o

/-! ## The procedure on strings of bytes -/

def g4Chars (s : List UInt8) : List (List UInt8) := (spans g4Utf8Len s).map (Span.text s)

def g4Ids (t : Gemma4) (bytes : List UInt8) : List Int :=
  idsOf (t.vocab.lookup bytes) (g4ByteTok t) bytes

theorem before_eq_g4Before (a b : G4Bigram) : Entry.before a b = g4Before a b := rfl

theorem g4Utf8Len_pos (lead : UInt8) : 0 < g4Utf8Len lead := by
  have hlt : (lead >>> 4).toNat < 16 := by
    rw [UInt8.toNat_shiftRight, show (4 : UInt8).toNat % 8 = 4 from rfl, Nat.shiftRight_eq_div_pow]
    have hlead := lead.toNat_lt
    omega
  have hall : ∀ i < 16, 0 < [1, 1, 1, 1, 1, 1, 1, 1, 1, 1, 1, 1, 2, 2, 3, 4].getD i 0 := by decide
  exact hall _ hlt

/-- The symbol is a part of the text, and its id is that of the part. -/
def G4Sym.Ok (t : Gemma4) (s : List UInt8) (x : G4Sym) : Prop :=
  x.span.Within s ∧ x.id = t.vocab.lookup (x.span.text s)

def G4Sym.text (s : List UInt8) (x : G4Sym) : List UInt8 := x.span.text s

def G4Sym.Next (x y : G4Sym) : Prop := x.span.Next y.span

section Encode

variable {v : Vocab} {merges : List (List UInt8)} {t : Gemma4} {s : List UInt8}

/-- Two ids have the rank of their strings. -/
theorem g4Rule_rank (hvocab : t.vocab = v) (hholds : Holds v t.tables merges) {a b : G4Sym}
    (ha : a.Ok t s) (hb : b.Ok t s) :
    (g4Rule t).rank a b = mergeRank merges (a.text s) (b.text s) := by
  have hnone : a.id = none ∨ b.id = none → mergeRank merges (a.text s) (b.text s) = none := by
    intro hid
    rw [mergeRank, List.findIdx?_eq_none_iff]
    intro line hline
    rw [decide_eq_false_iff_not]
    intro hsplit
    obtain ⟨hl, hr, -⟩ := hholds.sides line hline _ _ hsplit
    rcases hid with hid | hid
    · rw [ha.2, hvocab] at hid
      rw [G4Sym.text, hid] at hl
      cases hl
    · rw [hb.2, hvocab] at hid
      rw [G4Sym.text, hid] at hr
      cases hr
  cases hida : a.id with
  | none =>
      rw [hnone (Or.inl hida)]
      simp only [g4Rule, hida]
  | some lid =>
      cases hidb : b.id with
      | none =>
          rw [hnone (Or.inr hidb)]
          simp only [g4Rule, hida, hidb]
      | some rid =>
          simp only [g4Rule, hida, hidb]
          apply hholds.rank
          · rw [← hvocab, G4Sym.text, ← ha.2, hida]
          · rw [← hvocab, G4Sym.text, ← hb.2, hidb]

/-- What a line makes has the id of the two strings together. -/
theorem g4Rule_result (hvocab : t.vocab = v) (hholds : Holds v t.tables merges)
    {a b : List UInt8} {k : Nat} (hrank : mergeRank merges a b = some k) :
    (t.tables.result[k]?).join = t.vocab.lookup (a ++ b) := by
  rw [mergeRank, List.findIdx?_eq_some_iff_getElem] at hrank
  obtain ⟨hlt, hsplit, -⟩ := hrank
  rw [hholds.result, List.getElem?_map, List.getElem?_eq_getElem hlt, hvocab, Option.map_some,
    lineResult, of_decide_eq_true hsplit]
  rfl

theorem g4Rule_join (hvocab : t.vocab = v) (hholds : Holds v t.tables merges) {a b : G4Sym}
    {k : Nat} (ha : a.Ok t s) (hb : b.Ok t s) (hab : a.Next b)
    (hrank : (g4Rule t).rank a b = some k) :
    ((g4Rule t).join a b k).text s = a.text s ++ b.text s ∧ ((g4Rule t).join a b k).Ok t s := by
  have htext : ((g4Rule t).join a b k).text s = a.text s ++ b.text s :=
    (Span.Next.text_append hab).symm
  refine ⟨htext, ⟨?_, ?_⟩, ?_⟩
  · exact Nat.add_pos_left ha.1.1 _
  · have hend := hb.1.2
    have hnext : a.span.off + a.span.n = b.span.off := hab
    dsimp only [g4Rule]
    omega
  · rw [g4Rule_rank hvocab hholds ha hb] at hrank
    have hid : ((g4Rule t).join a b k).id = t.vocab.lookup (a.text s ++ b.text s) :=
      g4Rule_result hvocab hholds hrank
    rw [hid, ← htext]
    rfl

theorem g4Rule_lawful (hvocab : t.vocab = v) (hholds : Holds v t.tables merges) :
    Lawful (g4Rule t) (G4Sym.Ok t s) G4Sym.Next fun x => x.span.n where
  alive h := decide_eq_false (Nat.ne_of_gt h.1.1)
  dead_kill _ := rfl
  ok_join ha hb hab hrank := (g4Rule_join hvocab hholds ha hb hab hrank).2
  adj_left := by
    intro a b c k _ _ hab hbc _
    have hnext : a.span.off + a.span.n = b.span.off := hab
    have hnext' : b.span.off + b.span.n = c.span.off := hbc
    dsimp only [g4Rule, G4Sym.Next, Span.Next]
    omega
  adj_right _ _ hza _ _ := hza
  size_join := by
    intro a b k _ hb
    exact Nat.lt_add_of_pos_right hb.1.1
  fresh_tag := by
    intro a b k _ _ _
    simp only [g4Rule, decide_true, Bool.and_true]
  fresh_size := by
    intro a b b' k ha hb hb' hrank hfresh
    simp only [g4Rule, decide_true, Bool.true_and, decide_eq_true_eq] at hfresh
    cases hid : b'.id with
    | none =>
        simp only [g4Rule, hid] at hrank
        split at hrank
        · rename_i heq
          cases heq
        · cases hrank
    | some rid =>
        -- equal ids are ids of equal strings
        have htext := hb'.2.symm.trans hid
        have htext' := hb.2.symm.trans (hfresh.trans hid)
        have hsame := t.vocab.lookup_inj htext' htext
        rw [← hb.1.length_text, ← hb'.1.length_text, hsame]

theorem g4Rule_image (hvocab : t.vocab = v) (hholds : Holds v t.tables merges) :
    Image (g4Rule t) (G4Sym.Ok t s) G4Sym.Next (G4Sym.text s) (mergeRank merges)
      fun a b _ => a ++ b where
  rank ha hb _ := g4Rule_rank hvocab hholds ha hb
  join ha hb hab hrank := (g4Rule_join hvocab hholds ha hb hab hrank).1

theorem g4Symbols_chained : Chained (G4Sym.Ok t s) G4Sym.Next (g4Symbols t s) := by
  obtain ⟨hwithin, hchain⟩ := spans_chained (s := s) g4Utf8Len_pos
  refine ⟨?_, List.isChain_map _ |>.mpr hchain⟩
  intro x hx
  obtain ⟨y, hy, rfl⟩ := List.mem_map.mp hx
  exact ⟨hwithin y hy, rfl⟩

/-- The symbols that are left are the strings of the plain procedure. -/
theorem g4Parts_merged (hbuild : spG4Build v merges = .ok t) (junk : Nat → Node G4Sym)
    (garbage : Nat → G4Bigram) (s : List UInt8) :
    Merged (mergeRank merges) (fun a b _ => a ++ b) (g4Chars s) (g4Parts t junk garbage s) := by
  obtain ⟨hvocab, hholds⟩ := spG4Build_holds hbuild
  obtain ⟨hmerged, -, -, -⟩ := run_merged (g4Rule_lawful hvocab hholds)
    (g4Rule_image hvocab hholds) (g4Symbols_chained (t := t) (s := s)) junk garbage
  have hchars : (g4Symbols t s).map (G4Sym.text s) = g4Chars s := by
    rw [g4Symbols, List.map_map]
    rfl
  rwa [hchars] at hmerged

/-- They are emitted one after the other. -/
theorem g4Resegment_parts (hbuild : spG4Build v merges = .ok t) (junk : Nat → Node G4Sym)
    (garbage : Nat → G4Bigram) (s : List UInt8) (maxOut : Nat) (o : Out) :
    g4Resegment t junk garbage s maxOut o =
      ((g4Parts t junk garbage s).flatMap (g4Ids t)).foldl (emit maxOut) o := by
  obtain ⟨hvocab, hholds⟩ := spG4Build_holds hbuild
  obtain ⟨-, ⟨hok, -⟩, -, -⟩ := run_merged (g4Rule_lawful hvocab hholds)
    (g4Rule_image hvocab hholds) (g4Symbols_chained (t := t) (s := s)) junk garbage
  rw [g4Parts, List.flatMap_map, ← foldl_emit_flatMap, g4Resegment]
  apply List.foldl_ext
  intro o x hx
  obtain ⟨hwithin, hid⟩ := hok x hx
  rw [g4SymIds, if_neg (Nat.ne_of_gt hwithin.1), hid]
  rfl

/-- A piece is encoded as the merges of the lowest neighbours, unless it is a run of newlines
that is a token. -/
theorem g4Piece_merges (hbuild : spG4Build v merges = .ok t) (junk : Nat → Node G4Sym)
    (garbage : Nat → G4Bigram) (s : List UInt8) (isNlRun : Bool) (maxOut : Nat) (o : Out) :
    (g4Merge t junk garbage s).heap.n = 0 ∧
    (∀ id, isNlRun = true → t.vocab.lookup s = some id →
      g4Piece t junk garbage s isNlRun maxOut o = emit maxOut o id) ∧
    (isNlRun = false ∨ t.vocab.lookup s = none →
      ∃ parts, (∀ l, Merged (mergeRank merges) (fun a b _ => a ++ b) (g4Chars s) l ↔ l = parts) ∧
        g4Piece t junk garbage s isNlRun maxOut o =
          (parts.flatMap (g4Ids t)).foldl (emit maxOut) o) := by
  obtain ⟨hvocab, hholds⟩ := spG4Build_holds hbuild
  obtain ⟨-, -, hempty, -⟩ := run_merged (g4Rule_lawful hvocab hholds)
    (g4Rule_image hvocab hholds) (g4Symbols_chained (t := t) (s := s)) junk garbage
  refine ⟨hempty, ?_, ?_⟩
  · intro id hnl hid
    rw [g4Piece, if_pos hnl, hid]
  · intro hplain
    have hmerged := g4Parts_merged hbuild junk garbage s
    refine ⟨_, fun l => ⟨fun hl => hl.unique hmerged, fun hl => hl ▸ hmerged⟩, ?_⟩
    rw [← g4Resegment_parts hbuild, g4Piece]
    rcases hplain with hplain | hnone
    · rw [hplain]
      rfl
    · cases isNlRun with
      | false => rfl
      | true => rw [hnone, if_pos rfl]

end Encode

/-! ## A run of newlines -/

/-- The byte tokens, one and two newlines, and two letters with their merge. -/
def newlineTokens : List (List UInt8) :=
  (List.range 256).map byteName ++ [[0x0A], [0x0A, 0x0A], [0x61], [0x62], [0x61, 0x62]]

theorem newlineTokens_length : newlineTokens.length = 261 := by
  rw [newlineTokens, List.length_append, List.length_map, List.length_range]
  rfl

def newlineVocab : Vocab := ⟨newlineTokens, by rw [newlineTokens_length]; omega⟩

def letterMerges : List (List UInt8) := [[0x61, 0x20, 0x62]]

theorem newline_build : ∃ t, spG4Build newlineVocab letterMerges = .ok t := by
  rw [spG4Build_ok_iff]
  refine ⟨Nat.one_pos, by decide, ?_, ?_⟩
  · intro line hline l r hsplit
    rw [List.mem_singleton.mp hline] at hsplit
    have hsides : g4Split [0x61, 0x20, 0x62] = some ([0x61], [0x62]) := by decide
    rw [hsides, Option.some_inj, Prod.mk.injEq] at hsplit
    obtain ⟨rfl, rfl⟩ := hsplit
    refine ⟨?_, ?_, ?_⟩ <;>
    · apply List.mem_append_right
      decide
  · intro b hb
    exact List.mem_append_left _ (List.mem_map_of_mem (List.mem_range.mpr hb))

theorem g4Piece_merges_letters : ∃ t, spG4Build newlineVocab letterMerges = .ok t ∧
    ∃ parts, (∀ l, Merged (mergeRank letterMerges) (fun a b _ => a ++ b)
        (g4Chars [0x61, 0x62]) l ↔ l = parts) ∧
      g4Piece t (fun _ => ⟨none, none, ⟨0, 0⟩, none⟩) (fun _ => ⟨0, 0, 0, none, none⟩) [0x61, 0x62]
        false 8 ⟨fun _ => 0, 0⟩ = (parts.flatMap (g4Ids t)).foldl (emit 8) ⟨fun _ => 0, 0⟩ := by
  obtain ⟨t, ht⟩ := newline_build
  exact ⟨t, ht, (g4Piece_merges ht _ _ _ _ _ _).2.2 (Or.inl rfl)⟩

/-- Two newlines that no line merges come out as one token. -/
theorem newline_run_whole : ∃ t, spG4Build newlineVocab letterMerges = .ok t ∧
    g4Pieces 2 (escape [0x0A, 0x0A]) = [(true, [0x0A, 0x0A])] ∧
    ∃ parts, Merged (mergeRank letterMerges) (fun a b _ => a ++ b) (g4Chars [0x0A, 0x0A]) parts ∧
      ∀ junk garbage, g4Piece t junk garbage [0x0A, 0x0A] true 8 ⟨fun _ => 0, 0⟩ ≠
        (parts.flatMap (g4Ids t)).foldl (emit 8) ⟨fun _ => 0, 0⟩ := by
  obtain ⟨t, ht⟩ := newline_build
  have hchars : g4Chars [0x0A, 0x0A] = [[0x0A], [0x0A]] := by decide
  have hbest : best (mergeRank letterMerges) [[0x0A], [0x0A]] = none := by decide
  refine ⟨t, ht, by decide, [[0x0A], [0x0A]], ?_, ?_⟩
  · rw [hchars]
    exact .done (best_eq_none hbest)
  · intro junk garbage heq
    have hvocab := (spG4Build_holds ht).1
    have hmem : [0x0A, 0x0A] ∈ newlineVocab.tok := by
      apply List.mem_append_right
      decide
    obtain ⟨id, hid⟩ := Option.isSome_iff_exists.mp (Vocab.lookup_isSome.mpr hmem)
    have hone : (g4Piece t junk garbage [0x0A, 0x0A] true 8 ⟨fun _ => 0, 0⟩).cnt = 1 := by
      rw [g4Piece, if_pos rfl, hvocab, hid]
      rfl
    have hids : (g4Ids t [0x0A]).length = 1 := by
      rw [g4Ids]
      cases t.vocab.lookup [0x0A] <;> rfl
    have htwo := cnt_foldl_emit 8 ([[0x0A], [0x0A]].flatMap (g4Ids t)) ⟨fun _ => 0, 0⟩
    rw [← heq, hone, List.flatMap_cons, List.flatMap_cons, List.flatMap_nil, List.length_append,
      List.length_append, hids] at htwo
    cases htwo

/-! ## A whole text, and the decoder

Byte tokens become their bytes, U+2581 becomes a space, and the ids with a meaning of their own are
passed over. -/

/-- The ids with a meaning of their own, negative where there are none. -/
structure SpecialIds where
  addBos : Bool
  bos : Int
  eos : Int
  pad : Int
  unk : Int

def SpecialIds.skips (sp : SpecialIds) (id : Int) : Bool :=
  id == sp.bos || id == sp.eos || id == sp.pad || id == sp.unk

def spG4Encode (t : Gemma4) (sp : SpecialIds) (spec : List Special) (junk : Nat → Node G4Sym)
    (garbage : Nat → G4Bigram) (s : List UInt8) (parseSpecial : Bool) (maxOut : Nat)
    (out : Nat → Int) : Out :=
  let o : Out := ⟨out, 0⟩
  let o := if sp.addBos && 0 ≤ sp.bos then emit maxOut o sp.bos else o
  Id.run <| encodeSpecials (fun s o => pure (g4Fragment t junk garbage s maxOut o)) parseSpecial
    spec maxOut s (s.length + 1) 0 0 o

/-- A hexadecimal digit of either case. -/
def g4Hex (c : UInt8) : Option Nat :=
  if 0x30 ≤ c ∧ c ≤ 0x39 then some (c.toNat - 0x30)
  else if 0x41 ≤ c ∧ c ≤ 0x46 then some (c.toNat - 0x41 + 10)
  else if 0x61 ≤ c ∧ c ≤ 0x66 then some (c.toNat - 0x61 + 10)
  else none

/-- The byte of a token that the decoder reads as `<0xNN>`. -/
def g4ByteToken (s : List UInt8) : Option UInt8 :=
  if s.length = 6 ∧ s.getD 0 0 = 0x3C ∧ s.getD 1 0 = 0x30 ∧ s.getD 2 0 = 0x78 ∧ s.getD 5 0 = 0x3E then
    match g4Hex (s.getD 3 0), g4Hex (s.getD 4 0) with
    | some hi, some lo => some (UInt8.ofNat (hi <<< 4 ||| lo))
    | _, _ => none
  else none

/-- Every U+2581 becomes a space. -/
def unescape : Nat → List UInt8 → List UInt8
  | 0, _ => []
  | _, [] => []
  | fuel + 1, c :: rest =>
      if [0xE2, 0x96, 0x81].isPrefixOf (c :: rest) then 0x20 :: unescape fuel (rest.drop 2)
      else c :: unescape fuel rest

/-- What an id stands for. Ids out of range are skipped. -/
def g4Text (t : Gemma4) (sp : SpecialIds) (id : Int) : List UInt8 :=
  if id < 0 then []
  else
    match t.vocab.tok[id.toNat]? with
    | none => []
    | some s =>
        if sp.skips id then []
        else
          match g4ByteToken s with
          | some b => [b]
          | none => unescape s.length s

def spG4Decode (t : Gemma4) (sp : SpecialIds) (ids : List Int) (cap : Nat) (buf : Nat → UInt8) :
    Text := decodeIds (g4Text t sp) ids cap buf

/-! ## The tokens that are emitted -/

/-- The strings of a piece that are emitted by their own ids; the others are emitted byte by
byte. -/
def g4PieceNormal (t : Gemma4) (junk : Nat → Node G4Sym) (garbage : Nat → G4Bigram)
    (piece : Bool × List UInt8) : List (List UInt8) :=
  if piece.1 && (t.vocab.lookup piece.2).isSome then [piece.2]
  else (g4Parts t junk garbage piece.2).filter fun part => (t.vocab.lookup part).isSome

def g4Normal (t : Gemma4) (junk : Nat → Node G4Sym) (garbage : Nat → G4Bigram) (s : List UInt8) :
    List (List UInt8) :=
  (g4Pieces (escape s).length (escape s)).flatMap (g4PieceNormal t junk garbage)

/-- The decoder takes a string that is emitted by its own id for nothing else: neither for a byte
token nor for one with a meaning of its own. -/
def Plain (t : Gemma4) (sp : SpecialIds) (part : List UInt8) : Prop :=
  g4ByteToken part = none ∧ ∀ id : Nat, t.vocab.tok[id]? = some part → sp.skips id = false

section Decode

variable {v : Vocab} {merges : List (List UInt8)} {t : Gemma4}

theorem byteTable_getD {bs ids : List Nat} (h : byteTable v bs = .ok ids) :
    ∀ i < bs.length, v.lookup (byteName (bs.getD i 0)) = some (ids.getD i 0) := by
  induction bs generalizing ids with
  | nil => exact fun i hi => absurd hi (Nat.not_lt_zero i)
  | cons b bs ih =>
      rw [byteTable] at h
      cases hid : v.lookup (byteName b) with
      | none =>
          rw [hid] at h
          cases h
      | some id =>
          rw [hid] at h
          cases hids : byteTable v bs with
          | error e =>
              rw [hids] at h
              cases h
          | ok rest =>
              rw [hids] at h
              cases h
              intro i hi
              cases i with
              | zero => exact hid
              | succ i => exact ih hids i (Nat.lt_of_succ_lt_succ hi)

/-- The table has the ids of the byte tokens. -/
theorem spG4Build_byteTok (h : spG4Build v merges = .ok t) {b : Nat} (hb : b < 256) :
    v.lookup (byteName b) = some (t.byteTok.getD b 0) := by
  rw [spG4Build] at h
  split at h
  · cases h
  · dsimp only at h
    split at h
    · cases h
    · cases hbytes : byteTable v (List.range 256) with
      | error e =>
          rw [hbytes] at h
          cases h
      | ok ids =>
          rw [hbytes] at h
          cases h
          have hlookup := byteTable_getD hbytes b (by rwa [List.length_range])
          have hget : (List.range 256).getD b 0 = b := by
            rw [List.getD_eq_getElem?_getD, List.getElem?_range hb, Option.getD_some]
          rwa [hget] at hlookup

theorem g4Hex_hexDigit {d : Nat} (hd : d < 16) : g4Hex (hexDigit d) = some d := by
  have hall : ∀ d < 16, g4Hex (hexDigit d) = some d := by decide
  exact hall d hd

theorem g4ByteToken_byteName {b : Nat} (hb : b < 256) :
    g4ByteToken (byteName b) = some (UInt8.ofNat b) := by
  have hvalue : (b / 16) <<< 4 ||| b % 16 = b := by
    rw [← Nat.shiftLeft_add_eq_or_of_lt (Nat.mod_lt b (by decide)), Nat.shiftLeft_eq]
    exact Nat.div_add_mod' b 16
  have hhi : g4Hex ((byteName b).getD 3 0) = some (b / 16) :=
    g4Hex_hexDigit (Nat.div_lt_of_lt_mul hb)
  have hlo : g4Hex ((byteName b).getD 4 0) = some (b % 16) :=
    g4Hex_hexDigit (Nat.mod_lt b (by decide))
  rw [g4ByteToken, if_pos ⟨rfl, rfl, rfl, rfl, rfl⟩, hhi, hlo]
  simp only [hvalue]

variable {sp : SpecialIds}

theorem g4Text_skips {id : Int} (h : sp.skips id = true) : g4Text t sp id = [] := by
  rw [g4Text, h]
  split
  · rfl
  · cases t.vocab.tok[id.toNat]? with
    | none => rfl
    | some s => exact if_pos rfl

theorem g4Text_byte {part : List UInt8} {id : Nat} {b : UInt8}
    (hid : t.vocab.lookup part = some id) (hplain : sp.skips id = false)
    (hbyte : g4ByteToken part = some b) : g4Text t sp id = [b] := by
  rw [g4Text, if_neg (by omega), Int.toNat_natCast, t.vocab.lookup_tok hid]
  dsimp only
  rw [hplain, if_neg Bool.false_ne_true, hbyte]

/-- A byte token is decoded to its byte. -/
theorem g4Text_byteTok (h : spG4Build v merges = .ok t) {b : UInt8}
    (hplain : sp.skips (g4ByteTok t b) = false) : g4Text t sp (g4ByteTok t b) = [b] := by
  have hlookup := spG4Build_byteTok h b.toNat_lt
  have hbyte := g4ByteToken_byteName b.toNat_lt
  rw [UInt8.ofNat_toNat] at hbyte
  rw [← (spG4Build_holds h).1] at hlookup
  exact g4Text_byte hlookup hplain hbyte

/-- A token that is taken for nothing else is decoded to itself, with spaces. -/
theorem g4Text_plain {part : List UInt8} {id : Nat} (hid : t.vocab.lookup part = some id)
    (hplain : Plain t sp part) : g4Text t sp id = unescape part.length part := by
  have htok := t.vocab.lookup_tok hid
  rw [g4Text, if_neg (by omega), Int.toNat_natCast, htok]
  dsimp only
  rw [hplain.2 id htok, if_neg Bool.false_ne_true, hplain.1]

end Decode

end ShannonPrime.Tokenizer
