import Mathlib.Order.OrderDual
import ShannonPrime.Tokenizer.Symbols

/-!
The SentencePiece encoding: the neighbours whose bytes together are a token of the best score
are merged, and what is no token in the end is emitted byte by byte. The symbols are linked in
an array and the pairs are kept in a heap; a pair is outdated when its size has changed.
-/

namespace ShannonPrime.Tokenizer

open PairMerge

section Spm

variable {S : Type*}

/-- The vocabulary, the scores of its ids, and the ids of the bytes. -/
structure Spm (S : Type*) where
  vocab : Vocab
  scores : Nat → S
  byteTok : UInt8 → Int

/-- A malformed first byte is one byte. -/
def utf8Len (c0 : UInt8) : Nat :=
  if c0 < 0x80 then 1
  else if c0 &&& 0xE0 = 0xC0 then 2
  else if c0 &&& 0xF0 = 0xE0 then 3
  else if c0 &&& 0xF8 = 0xF0 then 4
  else 1

/-- A pair's score, its symbols and its size; the best score is the least of the dual. -/
abbrev SpmBigram (S : Type*) := Entry Sᵒᵈ Nat

theorem utf8Len_pos (c0 : UInt8) : 0 < utf8Len c0 := by
  unfold utf8Len
  split_ifs <;> omega

theorem utf8Len_le (c0 : UInt8) : utf8Len c0 ≤ 4 := by
  unfold utf8Len
  split_ifs <;> omega

/-- The higher score first, the left one of two equal scores. -/
def spmHi [LinearOrder S] (a b : SpmBigram S) : Bool :=
  decide (OrderDual.ofDual a.rank > OrderDual.ofDual b.rank) ||
    (decide (OrderDual.ofDual a.rank = OrderDual.ofDual b.rank) && decide (a.left < b.left))

/-- A symbol of length 0 has been consumed. The pair's bytes are those from the left symbol
on, with the lengths added up. -/
def spmRule (t : Spm S) (esc : List UInt8) : Rule Span Sᵒᵈ Nat where
  dead x := decide (x.n = 0)
  rank l r := (t.vocab.lookup ((esc.drop l.off).take (l.n + r.n))).map fun id =>
    OrderDual.toDual (t.scores id)
  join l r _ := ⟨l.off, l.n + r.n⟩
  kill r := ⟨r.off, 0⟩
  tag l r := l.n + r.n
  fresh l r size := decide (l.n + r.n = size)

/-- The symbols and the heap when the heap has run empty. -/
def spmMerge [LinearOrder S] (t : Spm S) (junk : Nat → Node Span) (garbage : Nat → SpmBigram S)
    (esc : List UInt8) : State Span Sᵒᵈ Nat :=
  run (spmRule t esc) (spans utf8Len esc) junk garbage

def spmIds (t : Spm S) (bytes : List UInt8) : List Int :=
  idsOf (t.vocab.lookup bytes) t.byteTok bytes

/-- One fragment without special tokens. The arrays come with arbitrary contents. -/
def spmFragment [LinearOrder S] (t : Spm S) (junk : Nat → Node Span) (garbage : Nat → SpmBigram S)
    (s : List UInt8) (maxOut : Nat) (o : Out) : Out :=
  if s = [] then o
  else
    let esc := escape s
    (result (spmMerge t junk garbage esc) (spans utf8Len esc).length).foldl
      (fun o x => (spmIds t (x.text esc)).foldl (emit maxOut) o) o

/-! ## The procedure on strings of bytes -/

/-- The score of two symbols whose bytes together are a token. -/
def spmScore (t : Spm S) (a b : List UInt8) : Option Sᵒᵈ :=
  (t.vocab.lookup (a ++ b)).map fun id => OrderDual.toDual (t.scores id)

/-- The characters of a text. -/
def spmChars (s : List UInt8) : List (List UInt8) := (spans utf8Len s).map (Span.text s)

variable {s : List UInt8}

/-- The heap's order is that of the scores. -/
theorem before_eq_spmHi [LinearOrder S] (a b : SpmBigram S) : Entry.before a b = spmHi a b := rfl

theorem spmRule_lawful (t : Spm S) (esc : List UInt8) :
    Lawful (spmRule t esc) (Span.Within esc) Span.Next Span.n where
  alive h := decide_eq_false (Nat.ne_of_gt h.1)
  dead_kill _ := rfl
  ok_join := by
    intro a b k ha hb hab _
    have hend := hb.2
    have hpos := ha.1
    have hnext : a.off + a.n = b.off := hab
    constructor <;> dsimp only [spmRule] <;> omega
  adj_left := by
    intro a b c k _ _ hab hbc _
    have hnext : a.off + a.n = b.off := hab
    have hnext' : b.off + b.n = c.off := hbc
    dsimp only [spmRule, Span.Next]
    omega
  adj_right hza := fun _ h _ _ => h
  size_join := by
    intro a b k _ hb
    exact Nat.lt_add_of_pos_right hb.1
  fresh_tag _ _ _ := decide_eq_true rfl
  fresh_size := by
    intro a b b' k _ _ _ _ hfresh
    exact Nat.add_left_cancel (of_decide_eq_true hfresh)

/-- A pair's bytes are those of its symbols. -/
theorem spmRule_image (t : Spm S) (esc : List UInt8) :
    Image (spmRule t esc) (Span.Within esc) Span.Next (Span.text esc) (spmScore t)
      fun a b _ => a ++ b where
  rank _ _ hab := by
    rw [spmScore, hab.text_append]
    rfl
  join _ _ hab _ := hab.text_append.symm

/-! ## The size of the heap -/

theorem cut_nil {utf8 : UInt8 → Nat} {fuel o : Nat} (h : s.length ≤ o) :
    cut utf8 s fuel o = [] := by
  cases fuel with
  | zero => rfl
  | succ fuel => rw [cut, List.getElem?_eq_none h]

/-- A symbol more than from where it ends. -/
theorem length_cut_le {utf8 : UInt8 → Nat} {o L m : Nat} {c : UInt8} (hc : s[o]? = some c)
    (hL : min (utf8 c) (s.length - o) = L)
    (hrest : ∀ fuel, (cut utf8 s fuel (o + L)).length ≤ m) (fuel : Nat) :
    (cut utf8 s fuel o).length ≤ m + 1 := by
  cases fuel with
  | zero => exact Nat.zero_le _
  | succ fuel =>
      rw [cut_zero hc, hL, List.length_cons]
      exact Nat.succ_le_succ (hrest fuel)

theorem getElem?_between (pre mid post : List UInt8) {i : Nat} (hi : i < mid.length) :
    (pre ++ mid ++ post)[pre.length + i]? = mid[i]? := by
  rw [List.append_assoc, List.getElem?_append_right (Nat.le_add_right _ _),
    Nat.add_sub_cancel_left, List.getElem?_append_left hi]

/-- The symbols from an offset on that is among the next three bytes. -/
theorem length_cut_escape (s pre : List UInt8) (fuel x : Nat) (hx : x ≤ 3) :
    (cut utf8Len (pre ++ escape s) fuel (pre.length + x)).length ≤ 2 * s.length := by
  induction s generalizing pre fuel x with
  | nil =>
      rw [cut_nil (by simp only [escape, List.flatMap_nil, List.append_nil]; omega)]
      exact Nat.zero_le _
  | cons b s ih =>
      rw [List.length_cons]
      by_cases hb : b = 0x20
      · have hescape : pre ++ escape (b :: s) = pre ++ [0xE2, 0x96, 0x81] ++ escape s := by
          rw [escape, List.flatMap_cons, if_pos hb, List.append_assoc]
          rfl
        have hpre : (pre ++ [(0xE2 : UInt8), 0x96, 0x81]).length = pre.length + 3 := by
          rw [List.length_append]
          rfl
        have hrest : ∀ fuel, (cut utf8Len (pre ++ [0xE2, 0x96, 0x81] ++ escape s) fuel
            (pre.length + 3)).length ≤ 2 * s.length := by
          intro fuel
          rw [← hpre]
          exact ih _ fuel 0 (Nat.zero_le 3)
        have hlen : pre.length + 3 ≤ (pre ++ [0xE2, 0x96, 0x81] ++ escape s).length := by
          rw [List.length_append, hpre]
          exact Nat.le_add_right _ _
        have hat := fun i => getElem?_between pre [0xE2, 0x96, 0x81] (escape s) (i := i)
        have hlead : utf8Len 0xE2 = 3 ∧ utf8Len 0x96 = 1 ∧ utf8Len 0x81 = 1 := by decide
        -- from its second or third byte on a space is cut into single bytes
        have hthird := length_cut_le (hat 2 (by decide)) (L := 1) (by omega) hrest
        have hsecond := length_cut_le (hat 1 (by decide)) (L := 1) (by omega) hthird
        have hfirst := length_cut_le (hat 0 (by decide)) (L := 3) (by omega) hrest
        rw [hescape]
        have hcases : x = 0 ∨ x = 1 ∨ x = 2 ∨ x = 3 := by omega
        rcases hcases with rfl | rfl | rfl | rfl
        · exact (hfirst fuel).trans (by omega)
        · exact hsecond fuel
        · exact (hthird fuel).trans (by omega)
        · exact (hrest fuel).trans (by omega)
      · have hescape : pre ++ escape (b :: s) = pre ++ [b] ++ escape s := by
          rw [escape, List.flatMap_cons, if_neg hb, List.append_assoc]
          rfl
        have hpre : (pre ++ [b]).length = pre.length + 1 := List.length_append
        have hrest : ∀ y ≤ 3, ∀ fuel, (cut utf8Len (pre ++ [b] ++ escape s) fuel
            (pre.length + (1 + y))).length ≤ 2 * s.length := by
          intro y hy fuel
          rw [← Nat.add_assoc, ← hpre]
          exact ih _ fuel y hy
        rw [hescape]
        cases x with
        | zero =>
            have hlen : 0 < (pre ++ [b] ++ escape s).length - pre.length := by
              rw [List.length_append, hpre]
              omega
            have hpos := utf8Len_pos b
            have hle := utf8Len_le b
            obtain ⟨y, hy⟩ : ∃ y, min (utf8Len b) ((pre ++ [b] ++ escape s).length -
                (pre.length + 0)) = 1 + y := Nat.exists_eq_add_of_le (by omega)
            have hat := getElem?_between pre [b] (escape s) (i := 0) Nat.one_pos
            exact (length_cut_le hat hy (hrest y (by omega)) fuel).trans (by omega)
        | succ x =>
            rw [Nat.add_comm x 1]
            exact (hrest x (by omega) fuel).trans (by omega)

/-- At most two symbols for each byte of the text. -/
theorem length_spans_escape (s : List UInt8) :
    (spans utf8Len (escape s)).length ≤ 2 * s.length :=
  length_cut_escape s [] _ 0 (Nat.zero_le 3)

theorem length_le_escape (s : List UInt8) : s.length ≤ (escape s).length := by
  induction s with
  | nil => exact Nat.zero_le _
  | cons b s ih =>
      rw [escape, List.flatMap_cons, List.length_append, List.length_cons]
      have hone : 1 ≤ (if b = 0x20 then [0xE2, 0x96, 0x81] else [b] : List UInt8).length := by
        split_ifs <;> simp
      rw [escape] at ih
      omega

/-! ## The encoding -/

/-- The encoding of a fragment is that of the merges of the best-scored neighbours, and its heap
keeps within the capacity that has been allocated for it. -/
theorem spmFragment_merges [LinearOrder S] (t : Spm S) (junk : Nat → Node Span)
    (garbage : Nat → SpmBigram S) (s : List UInt8) (maxOut : Nat) (o : Out) :
    (∃ parts, (∀ l, Merged (spmScore t) (fun a b _ => a ++ b) (spmChars (escape s)) l ↔ l = parts) ∧
      spmFragment t junk garbage s maxOut o = (parts.flatMap (spmIds t)).foldl (emit maxOut) o) ∧
    (spmMerge t junk garbage (escape s)).heap.n = 0 ∧
    (spmMerge t junk garbage (escape s)).peak ≤ 4 * s.length + 16 ∧
    (spmMerge t junk garbage (escape s)).peak ≤ 4 * (escape s).length + 16 := by
  obtain ⟨hmerged, -, hempty, hpeak⟩ :=
    run_merged (spmRule_lawful t (escape s)) (spmRule_image t (escape s))
      (spans_chained utf8Len_pos) junk garbage
  have hspans := length_spans_escape s
  have hescape := length_le_escape s
  have hcap : (spmMerge t junk garbage (escape s)).peak ≤
      2 * ((spans utf8Len (escape s)).length - 1) := hpeak
  refine ⟨⟨_, fun l => ⟨fun hl => hl.unique hmerged, fun hl => hl ▸ hmerged⟩, ?_⟩, hempty,
    by omega, by omega⟩
  rw [List.flatMap_map, ← foldl_emit_flatMap, spmFragment]
  split
  · rename_i hs
    subst hs
    rfl
  · rfl

end Spm

end ShannonPrime.Tokenizer
