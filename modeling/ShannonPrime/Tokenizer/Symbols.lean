import ShannonPrime.Lib.MergeRuns
import ShannonPrime.Tokenizer.Vocab

/-!
The symbols that a text is cut into before its neighbours are merged: parts of the text, as
offsets and lengths.
-/

namespace ShannonPrime.Tokenizer

open PairMerge

/-- A part of the text. -/
structure Span where
  off : Nat
  n : Nat

def Span.text (s : List UInt8) (x : Span) : List UInt8 := (s.drop x.off).take x.n

/-- One symbol for each character, of the length that its first byte tells or what is left. -/
def cut (utf8Len : UInt8 → Nat) (s : List UInt8) : Nat → Nat → List Span
  | 0, _ => []
  | fuel + 1, o =>
      match s[o]? with
      | none => []
      | some c =>
          ⟨o, min (utf8Len c) (s.length - o)⟩ ::
            cut utf8Len s fuel (o + min (utf8Len c) (s.length - o))

def spans (utf8Len : UInt8 → Nat) (s : List UInt8) : List Span := cut utf8Len s s.length 0

/-- The part is not empty and within the text. -/
def Span.Within (s : List UInt8) (x : Span) : Prop := 0 < x.n ∧ x.off + x.n ≤ s.length

/-- The second part begins where the first ends. -/
def Span.Next (x y : Span) : Prop := x.off + x.n = y.off

section Texts

variable {s : List UInt8} {x y : Span}

theorem Span.Within.length_text (h : x.Within s) : (x.text s).length = x.n := by
  have hend := h.2
  rw [Span.text, List.length_take, List.length_drop]
  omega

theorem Span.Next.text_append (h : x.Next y) :
    x.text s ++ y.text s = (s.drop x.off).take (x.n + y.n) := by
  rw [Span.text, Span.text, ← h, ← List.drop_drop, List.take_add]

variable {utf8Len : UInt8 → Nat}

theorem cut_zero {fuel o : Nat} {c : UInt8} (hc : s[o]? = some c) :
    cut utf8Len s (fuel + 1) o = ⟨o, min (utf8Len c) (s.length - o)⟩ ::
      cut utf8Len s fuel (o + min (utf8Len c) (s.length - o)) := by
  rw [cut, hc]

/-- The parts follow one another from the offset on. -/
theorem cut_chained (hpos : ∀ c, 0 < utf8Len c) (fuel o : Nat) :
    Chained (Span.Within s) Span.Next (cut utf8Len s fuel o) ∧
      ∀ x ∈ (cut utf8Len s fuel o).head?, x.off = o := by
  induction fuel generalizing o with
  | zero => exact ⟨⟨List.forall_mem_nil _, List.isChain_nil⟩, by rintro x ⟨⟩⟩
  | succ fuel ih =>
      cases hc : s[o]? with
      | none =>
          rw [cut, hc]
          exact ⟨⟨List.forall_mem_nil _, List.isChain_nil⟩, by rintro x ⟨⟩⟩
      | some c =>
          have hlt := (List.getElem?_eq_some_iff.mp hc).1
          have hlen := hpos c
          obtain ⟨⟨hwithin, hchain⟩, hhead⟩ := ih (o + min (utf8Len c) (s.length - o))
          rw [cut_zero hc]
          refine ⟨⟨?_, ?_⟩, ?_⟩
          · intro x hx
            rcases List.mem_cons.mp hx with rfl | hx
            · constructor <;> dsimp only <;> omega
            · exact hwithin x hx
          · rw [List.isChain_cons]
            exact ⟨fun y hy => (hhead y hy).symm, hchain⟩
          · intro x hx
            rw [List.head?_cons, Option.mem_some_iff] at hx
            rw [← hx]

theorem spans_chained (hpos : ∀ c, 0 < utf8Len c) :
    Chained (Span.Within s) Span.Next (spans utf8Len s) := (cut_chained hpos s.length 0).1

/-- Characters whose first byte tells their length are the parts of their text. -/
theorem cut_chars {l : List (List UInt8)}
    (hl : ∀ x ∈ l, ∃ c rest, x = c :: rest ∧ utf8Len c = x.length) {fuel o : Nat}
    (hdrop : s.drop o = l.flatten) (hfuel : s.length ≤ o + fuel) :
    (cut utf8Len s fuel o).map (Span.text s) = l := by
  induction l generalizing fuel o with
  | nil =>
      cases fuel with
      | zero => rfl
      | succ fuel =>
          rw [cut, List.getElem?_eq_none (List.drop_eq_nil_iff.mp hdrop)]
          rfl
  | cons x l ih =>
      obtain ⟨c, rest, hx, hlen⟩ := hl x List.mem_cons_self
      have hfirst : s[o]? = some c := by
        have hhead := congrArg List.head? hdrop
        rw [List.head?_drop, hx] at hhead
        exact hhead
      have hlt := (List.getElem?_eq_some_iff.mp hfirst).1
      have hsize := congrArg List.length hdrop
      rw [List.length_drop, List.flatten_cons, List.length_append] at hsize
      have hpos : 0 < x.length := by
        rw [hx]
        exact Nat.succ_pos _
      obtain ⟨fuel, rfl⟩ : ∃ n, fuel = n + 1 := ⟨fuel - 1, by omega⟩
      rw [List.flatten_cons] at hdrop
      rw [cut_zero hfirst, hlen, Nat.min_eq_left (by omega), List.map_cons, Span.text, hdrop,
        List.take_left]
      congr 1
      apply ih (fun y hy => hl y (List.mem_cons_of_mem x hy)) _ (by omega)
      rw [← List.drop_drop, hdrop, List.drop_left]

end Texts

end ShannonPrime.Tokenizer
