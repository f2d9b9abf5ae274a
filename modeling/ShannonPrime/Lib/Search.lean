import Mathlib.Data.List.Infix
import Mathlib.Order.Nat

/-!
Occurrences of a list in another, by the position at which they begin, and what of them is
seen in a prefix of the text.
-/

namespace ShannonPrime.Search

variable {α : Type*}

/-- The pattern stands in the text from position `i` on. -/
def OccursAt (needle text : List α) (i : Nat) : Prop := needle <+: text.drop i

/-- The first of the pattern's occurrences is at `i`. -/
def FirstAt (needle text : List α) (i : Nat) : Prop :=
  OccursAt needle text i ∧ ∀ j < i, ¬OccursAt needle text j

/-- None of the patterns occurs. -/
def Absent (needles : List (List α)) (text : List α) : Prop :=
  ∀ needle ∈ needles, ∀ i, ¬OccursAt needle text i

/-- One of the patterns occurs at `i`, and none before it. -/
def EarliestAt (needles : List (List α)) (text : List α) (i : Nat) : Prop :=
  (∃ needle ∈ needles, OccursAt needle text i) ∧
    ∀ j < i, ∀ needle ∈ needles, ¬OccursAt needle text j

variable {needle text rest : List α} {needles : List (List α)} {i k : Nat}

theorem OccursAt.fits (h : OccursAt needle text i) (hne : needle ≠ []) :
    i + needle.length ≤ text.length := by
  have hle := h.length_le
  rw [List.length_drop] at hle
  have hpos := List.length_pos_iff.mpr hne
  omega

theorem occursAt_drop : OccursAt needle (text.drop k) i ↔ OccursAt needle text (k + i) := by
  rw [OccursAt, OccursAt, List.drop_drop]

/-- An occurrence stays when the text goes on. -/
theorem OccursAt.append (h : OccursAt needle text i) (rest : List α) (hfits : i ≤ text.length) :
    OccursAt needle (text ++ rest) i := by
  rw [OccursAt, List.drop_append_of_le_length hfits]
  exact h.trans (List.prefix_append _ _)

/-- One that ends in the first part was there before the text went on. -/
theorem OccursAt.of_append (h : OccursAt needle (text ++ rest) i)
    (hends : i + needle.length ≤ text.length) : OccursAt needle text i := by
  rw [OccursAt, List.drop_append_of_le_length (by omega)] at h
  apply List.prefix_of_prefix_length_le h (List.prefix_append _ _)
  rw [List.length_drop]
  omega

/-- In a text that goes on, an occurrence of an absent pattern reaches into the new part. -/
theorem Absent.reaches (habsent : Absent needles text) (hmem : needle ∈ needles)
    (h : OccursAt needle (text ++ rest) i) : text.length < i + needle.length := by
  by_contra hends
  exact habsent needle hmem i (h.of_append (Nat.le_of_not_lt hends))

theorem Absent.start (habsent : Absent needles (text ++ rest))
    (hne : ∀ needle ∈ needles, needle ≠ []) : Absent needles text := by
  intro needle hmem i h
  have hfits := h.fits (hne needle hmem)
  exact habsent needle hmem i (h.append rest (by omega))

/-- The part before the earliest occurrence has none. -/
theorem EarliestAt.absent_take (h : EarliestAt needles text i)
    (hne : ∀ needle ∈ needles, needle ≠ []) : Absent needles (text.take i) := by
  intro needle hmem j hj
  have hfits := hj.fits (hne needle hmem)
  have hpos := List.length_pos_iff.mpr (hne needle hmem)
  rw [List.length_take] at hfits
  apply h.2 j (by omega) needle hmem
  have hlater := hj.append (text.drop i) (by rw [List.length_take]; omega)
  rwa [List.take_append_drop] at hlater

/-- The earliest occurrence is one position. -/
theorem EarliestAt.unique (h : EarliestAt needles text i) (h' : EarliestAt needles text k) :
    i = k := by
  obtain ⟨⟨n, hn, hni⟩, hbefore⟩ := h
  obtain ⟨⟨n', hn', hnk⟩, hbefore'⟩ := h'
  rcases Nat.lt_trichotomy i k with hlt | heq | hlt
  · exact absurd hni (hbefore' i hlt n hn)
  · exact heq
  · exact absurd hnk (hbefore k hlt n' hn')

theorem EarliestAt.not_absent (h : EarliestAt needles text i) : ¬Absent needles text := by
  intro habsent
  obtain ⟨⟨needle, hmem, hi⟩, -⟩ := h
  exact habsent needle hmem i hi

/-- Where a pattern occurs one is the earliest. -/
theorem exists_earliestAt (h : ¬Absent needles text) : ∃ i, EarliestAt needles text i := by
  classical
  have hsome : ∃ i, ∃ needle ∈ needles, OccursAt needle text i := by
    by_contra hnone
    apply h
    intro needle hmem i hi
    exact hnone ⟨i, needle, hmem, hi⟩
  refine ⟨Nat.find hsome, Nat.find_spec hsome, fun j hj needle hmem hocc => ?_⟩
  exact Nat.find_min hsome hj ⟨needle, hmem, hocc⟩

/-- The first occurrence in a prefix is the first in the whole text. -/
theorem FirstAt.append (h : FirstAt needle text i) (rest : List α) (hne : needle ≠ []) :
    FirstAt needle (text ++ rest) i := by
  have hfits := h.1.fits hne
  refine ⟨h.1.append rest (by omega), fun j hj hocc => h.2 j hj ?_⟩
  exact hocc.of_append (by omega)

end ShannonPrime.Search
