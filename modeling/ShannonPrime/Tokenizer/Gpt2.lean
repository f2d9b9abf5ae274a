import ShannonPrime.Tokenizer.ByteLevel
import ShannonPrime.Tokenizer.PreToken
import ShannonPrime.Tokenizer.Symbols

/-!
The GPT-2 encoding: the text is cut into pre-tokens, the bytes of each are written in the alphabet,
and the neighbours of the lowest merge line are merged until there are none. What is left has to be
tokens.
-/

namespace ShannonPrime.Tokenizer

open PairMerge

/-- What the loader has built. -/
structure Gpt2 where
  vocab : Vocab
  merge : Option Hmap
  spec : List Special
  ranges : UnicodeRanges

/-- The lines are hashed as the tokens are. Without any the table stays null. -/
def gpt2Merge (lines : List (List UInt8)) : Option Hmap :=
  if lines.length > 0 then some (vocabMap lines) else none

/-- The null table is read, or a symbol is no token, for which the encoder returns -1. -/
inductive Stop where
  | nullMap
  | noToken

/-- One symbol for each byte. -/
def byteSymbols : List UInt8 → Nat → List Span
  | [], _ => []
  | b :: rb, ne => ⟨ne, (bcp b).length⟩ :: byteSymbols rb (ne + (bcp b).length)

/-- The rank of two neighbours is that of their line. -/
def bpeRank (merge : Hmap) (enc : List UInt8) (a b : Span) : Option Nat :=
  hmapGet merge (a.text enc ++ 0x20 :: b.text enc)

/-- A pair is the best so far if it has a rank and none before it has one as low. -/
def bpeBetter (best : Option (Nat × Nat)) (i : Nat) (rank : Option Nat) : Option (Nat × Nat) :=
  match rank, best with
  | none, best => best
  | some r, none => some (r, i)
  | some r, some (least, bi) => if r < least then some (r, i) else some (least, bi)

/-- The scan for the lowest rank. -/
def bpeScan (rank : Span → Span → Option Nat) :
    List Span → Nat → Option (Nat × Nat) → Option (Nat × Nat)
  | a :: b :: rest, i, best => bpeScan rank (b :: rest) (i + 1) (bpeBetter best i (rank a b))
  | _, _, best => best

/-- The rounds of merges. -/
def bpeMerges (merge : Option Hmap) (enc : List UInt8) : Nat → List Span → Except Stop (List Span)
  | 0, syms => .ok syms
  | fuel + 1, syms =>
      if syms.length ≤ 1 then .ok syms
      else
        match merge with
        | none => .error .nullMap
        | some m =>
            match bpeScan (bpeRank m enc) syms 0 none with
            | none => .ok syms
            | some (best, bi) =>
                bpeMerges merge enc fuel (mergeAt (fun a b _ => ⟨a.off, a.n + b.n⟩) best bi syms)

def bpeEmit (v : Vocab) (enc : List UInt8) (maxOut : Nat) : List Span → Out → Except Stop Out
  | [], o => .ok o
  | x :: syms, o =>
      match v.lookup (x.text enc) with
      | none => .error .noToken
      | some id => bpeEmit v enc maxOut syms (emit maxOut o id)

/-- One pre-token. -/
def bpePiece (t : Gpt2) (rb : List UInt8) (maxOut : Nat) (o : Out) : Except Stop Out :=
  match bpeMerges t.merge (byteLevel rb) rb.length (byteSymbols rb 0) with
  | .error e => .error e
  | .ok syms => bpeEmit t.vocab (byteLevel rb) maxOut syms o

/-- The code points and the places where they begin. -/
def codePoints (s : List UInt8) : Nat → Nat → List (Nat × Nat)
  | 0, _ => []
  | fuel + 1, i =>
      match s.drop i with
      | [] => []
      | c0 :: rest => ((cpDecode c0 rest).1, i) :: codePoints s fuel (i + (cpDecode c0 rest).2)

def encodePieces (t : Gpt2) (s : List UInt8) (cps boff : List Nat) (maxOut : Nat) :
    Nat → Nat → Out → Except Stop Out
  | 0, _, o => .ok o
  | fuel + 1, i, o =>
      if i < cps.length then
        let e := t.ranges.nextPiece cps i
        let rstart := boff.getD i 0
        let rend := boff.getD e 0
        match bpePiece t ((s.drop rstart).take (rend - rstart)) maxOut o with
        | .error e => .error e
        | .ok o => encodePieces t s cps boff maxOut fuel e o
      else .ok o

/-- A text without special tokens. Behind the last code point stands the end of the text. -/
def encodeText (t : Gpt2) (maxOut : Nat) (s : List UInt8) (o : Out) : Except Stop Out :=
  if s.length = 0 then .ok o
  else
    let points := codePoints s s.length 0
    encodePieces t s (points.map Prod.fst) (points.map Prod.snd ++ [s.length]) maxOut points.length
      0 o

/-- `sp_tokenizer_encode` -/
def gpt2Encode (t : Gpt2) (s : List UInt8) (parseSpecial : Bool) (maxOut : Nat) (out : Nat → Int) :
    Except Stop Out :=
  if s.length = 0 then .ok ⟨out, 0⟩
  else encodeSpecials (encodeText t maxOut) parseSpecial t.spec maxOut s (s.length + 1) 0 0 ⟨out, 0⟩

/-! ## Groups of bytes -/

/-- Symbols one behind the other, each for a group of bytes. -/
def layout : List (List UInt8) → Nat → List Span
  | [], _ => []
  | g :: groups, off => ⟨off, (byteLevel g).length⟩ :: layout groups (off + (byteLevel g).length)

/-- The rank of two groups. -/
def groupRank (merge : Hmap) (a b : List UInt8) : Option Nat :=
  hmapGet merge (byteLevel a ++ 0x20 :: byteLevel b)

/-- What the rounds leave of the bytes of a pre-token. -/
def bpeGroups (merge : Hmap) (rb : List UInt8) : List (List UInt8) :=
  naive (groupRank merge) (fun a b _ => a ++ b) rb.length (rb.map fun b => [b])

theorem byteLevel_append (a b : List UInt8) : byteLevel (a ++ b) = byteLevel a ++ byteLevel b :=
  List.flatMap_append

theorem byteSymbols_eq (rb : List UInt8) (off : Nat) :
    byteSymbols rb off = layout (rb.map fun b => [b]) off := by
  induction rb generalizing off with
  | nil => rfl
  | cons b rb ih =>
      have hone : byteLevel [b] = bcp b := List.flatMap_singleton ..
      rw [byteSymbols, List.map_cons, layout, hone, ih]

theorem layout_length (groups : List (List UInt8)) (off : Nat) :
    (layout groups off).length = groups.length := by
  induction groups generalizing off with
  | nil => rfl
  | cons g groups ih => rw [layout, List.length_cons, List.length_cons, ih]

/-- The first symbol is the first group, and the others lie behind it. -/
theorem layout_head {enc g : List UInt8} {groups : List (List UInt8)} {off : Nat}
    (h : enc.drop off = byteLevel (g :: groups).flatten) :
    Span.text enc ⟨off, (byteLevel g).length⟩ = byteLevel g ∧
      enc.drop (off + (byteLevel g).length) = byteLevel groups.flatten := by
  rw [List.flatten_cons, byteLevel_append] at h
  rw [Span.text, ← List.drop_drop, h, List.take_left, List.drop_left]
  exact ⟨rfl, rfl⟩

theorem layout_text {enc : List UInt8} {groups : List (List UInt8)} {off : Nat}
    (h : enc.drop off = byteLevel groups.flatten) :
    (layout groups off).map (Span.text enc) = groups.map byteLevel := by
  induction groups generalizing off with
  | nil => rfl
  | cons g groups ih =>
      obtain ⟨htext, hrest⟩ := layout_head h
      rw [layout, List.map_cons, List.map_cons, htext, ih hrest]

/-- To merge two symbols is to merge their groups. -/
theorem mergeAt_layout (k i : Nat) (groups : List (List UInt8)) (off : Nat) :
    mergeAt (fun (a b : Span) (_ : Nat) => ⟨a.off, a.n + b.n⟩) k i (layout groups off) =
      layout (mergeAt (fun a b _ => a ++ b) k i groups) off := by
  induction groups generalizing i off with
  | nil => cases i <;> rfl
  | cons g groups ih =>
      cases i with
      | succ i => rw [layout, mergeAt, ih, mergeAt, layout]
      | zero =>
          cases groups with
          | nil => rfl
          | cons g' groups =>
              rw [layout, layout, mergeAt, mergeAt, layout, byteLevel_append, List.length_append,
                Nat.add_assoc]

/-- The earlier of two choices, unless the later one is lower. -/
def lower : Option (Nat × Nat) → Option (Nat × Nat) → Option (Nat × Nat)
  | none, later => later
  | some first, none => some first
  | some first, some later => if later.1 < first.1 then some later else some first

theorem lower_none (a : Option (Nat × Nat)) : lower a none = a := by
  cases a <;> rfl

theorem lower_assoc (a b c : Option (Nat × Nat)) :
    lower (lower a b) c = lower a (lower b c) := by
  cases a with
  | none => rfl
  | some a =>
      cases b with
      | none => rfl
      | some b =>
          cases c with
          | none => rw [lower_none, lower_none]
          | some c =>
              simp only [lower]
              split_ifs <;> dsimp only <;> split_ifs <;> first | rfl | omega

/-- Places count from further on. -/
def shift (i : Nat) (r : Nat × Nat) : Nat × Nat := (r.1, r.2 + i)

theorem lower_map_shift (i : Nat) (a b : Option (Nat × Nat)) :
    (lower a b).map (shift i) = lower (a.map (shift i)) (b.map (shift i)) := by
  cases a with
  | none => rfl
  | some a =>
      cases b with
      | none => rfl
      | some b =>
          simp only [lower, Option.map_some, shift]
          split <;> rfl

theorem best_cons (rank : Span → Span → Option Nat) (a b : Span) (syms : List Span) :
    best rank (a :: b :: syms) =
      lower ((rank a b).map fun r => (r, 0)) ((best rank (b :: syms)).map (shift 1)) := by
  cases hrank : rank a b with
  | none =>
      simp only [best, hrank]
      rfl
  | some r =>
      cases hbest : best rank (b :: syms) with
      | none => simp only [best, hrank, hbest, Option.map_some, Option.map_none, lower]
      | some later => simp only [best, hrank, hbest, Option.map_some, lower, shift]

/-- The scan finds what the plain procedure chooses. -/
theorem bpeScan_eq (rank : Span → Span → Option Nat) (syms : List Span) (i : Nat)
    (acc : Option (Nat × Nat)) :
    bpeScan rank syms i acc = lower acc ((best rank syms).map (shift i)) := by
  induction syms generalizing i acc with
  | nil => exact (lower_none acc).symm
  | cons a syms ih =>
      cases syms with
      | nil => exact (lower_none acc).symm
      | cons b syms =>
          have hbetter : bpeBetter acc i (rank a b) = lower acc ((rank a b).map fun r => (r, i)) := by
            cases rank a b <;> cases acc <;> rfl
          have hplace : ∀ r : Nat × Nat, shift i (shift 1 r) = shift (i + 1) r := by
            intro r
            simp only [shift, Nat.add_assoc, Nat.add_comm 1]
          rw [bpeScan, hbetter, ih, lower_assoc, best_cons, lower_map_shift, Option.map_map,
            Option.map_map]
          congr 2
          · simp only [Function.comp_def, shift, Nat.zero_add]
          · simp only [Function.comp_def, hplace]

section Rounds

variable {m : Hmap} {enc : List UInt8} {groups : List (List UInt8)}

/-- The ranks of symbols are those of their groups. -/
theorem best_layout (h : enc = byteLevel groups.flatten) :
    best (bpeRank m enc) (layout groups 0) = best (groupRank m) groups := by
  have hmap : ∀ {ρ : Type} (f : ρ → List UInt8) (l : List ρ),
      best (fun x y => hmapGet m (x ++ 0x20 :: y)) (l.map f) =
        best (fun a b => hmapGet m (f a ++ 0x20 :: f b)) l := fun f l => best_map f l
  have htexts := hmap (Span.text enc) (layout groups 0)
  rw [layout_text (by rw [List.drop_zero, h]), hmap byteLevel groups] at htexts
  exact htexts.symm

/-- The rounds are those of the plain procedure on the groups. -/
theorem bpeMerges_layout (fuel : Nat) (h : enc = byteLevel groups.flatten) :
    bpeMerges (some m) enc fuel (layout groups 0) =
      .ok (layout (naive (groupRank m) (fun a b _ => a ++ b) fuel groups) 0) := by
  induction fuel generalizing groups with
  | zero => rfl
  | succ fuel ih =>
      rw [bpeMerges, naive, layout_length, bpeScan_eq, best_layout h]
      split
      · rename_i hshort
        have hnone : best (groupRank m) groups = none := by
          cases groups with
          | nil => rfl
          | cons g groups =>
              cases groups with
              | nil => rfl
              | cons g' groups => simp at hshort
        rw [hnone]
      · cases hbest : best (groupRank m) groups with
        | none => rfl
        | some r =>
            obtain ⟨k, i⟩ := r
            have hranked := (best_eq_some hbest).1
            obtain ⟨a, b, ha, hb, -⟩ := hranked
            obtain ⟨pre, post, rfl, rfl⟩ := exists_split ha hb
            simp only [lower, Option.map_some, shift, Nat.add_zero]
            rw [mergeAt_layout, ih]
            rw [mergeAt_split, h]
            simp only [List.flatten_append, List.flatten_cons, List.append_assoc]

theorem bpeMerges_eq (m : Hmap) (rb : List UInt8) :
    bpeMerges (some m) (byteLevel rb) rb.length (byteSymbols rb 0) =
      .ok (layout (bpeGroups m rb) 0) := by
  rw [byteSymbols_eq, bpeMerges_layout, bpeGroups]
  congr 1
  exact List.flatMap_singleton' rb |>.symm

end Rounds

end ShannonPrime.Tokenizer
