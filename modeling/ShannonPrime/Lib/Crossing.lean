import Mathlib.Algebra.BigOperators.Intervals
import Mathlib.Algebra.Order.BigOperators.Group.Finset
import Mathlib.Order.Bounds.Basic

/-!
The first term with which a running total reaches a bound, found one term after another or in
two levels: the slice that crosses the bound, and the term within that slice.
-/

namespace ShannonPrime.Crossing

variable {K : Type*} [AddCommMonoid K] [LinearOrder K]

/-- The first of the `fuel` terms from `i` on with which the total, so far `acc`, reaches `r`, and
the total before it. -/
def crossing (w : Nat → K) (r : K) : Nat → Nat → K → Option (Nat × K)
  | 0, _, _ => none
  | fuel + 1, i, acc =>
      if r ≤ acc + w i then some (i, acc) else crossing w r fuel (i + 1) (acc + w i)

/-- What a search that starts with the total of the first `i` terms finds. -/
structure Crosses (w : Nat → K) (r : K) (i j : Nat) : Prop where
  reached : r ≤ ∑ k ∈ Finset.range (j + 1), w k
  before : ∀ k, i ≤ k → k < j → ∑ l ∈ Finset.range (k + 1), w l < r

variable {w : Nat → K} {r : K}

theorem crossing_cases (w : Nat → K) (r : K) (fuel i : Nat) :
    (crossing w r fuel i (∑ k ∈ Finset.range i, w k) = none ∧
      ∀ k, i ≤ k → k < i + fuel → ∑ l ∈ Finset.range (k + 1), w l < r) ∨
    ∃ j, crossing w r fuel i (∑ k ∈ Finset.range i, w k) =
        some (j, ∑ k ∈ Finset.range j, w k) ∧ i ≤ j ∧ j < i + fuel ∧ Crosses w r i j := by
  induction fuel generalizing i with
  | zero => exact Or.inl ⟨rfl, fun k hlo hhi => by omega⟩
  | succ fuel ih =>
      rw [crossing, ← Finset.sum_range_succ]
      split
      · rename_i hreach
        exact Or.inr ⟨i, rfl, le_refl i, by omega, hreach, fun k hlo hhi => by omega⟩
      · rename_i hbelow
        rcases ih (i + 1) with ⟨hnone, hall⟩ | ⟨j, hsome, hlo, hhi, hcross⟩
        · refine Or.inl ⟨hnone, fun k hk hkhi => ?_⟩
          rcases Nat.eq_or_lt_of_le hk with rfl | hlt
          · exact not_le.mp hbelow
          · exact hall k hlt (by omega)
        · refine Or.inr ⟨j, hsome, by omega, by omega, hcross.reached, fun k hk hkj => ?_⟩
          rcases Nat.eq_or_lt_of_le hk with rfl | hlt
          · exact not_le.mp hbelow
          · exact hcross.before k hlt hkj

variable [IsOrderedAddMonoid K] {b : Nat → Nat} {slice : Nat → K} {m : Nat}

omit [LinearOrder K] [IsOrderedAddMonoid K] in
/-- The totals of the slices add up to those of their terms. -/
theorem sum_slices (hmono : Monotone b) (hstart : b 0 = 0)
    (hslice : ∀ i, slice i = ∑ k ∈ Finset.Ico (b i) (b (i + 1)), w k) (i : Nat) :
    ∑ t ∈ Finset.range i, slice t = ∑ k ∈ Finset.range (b i), w k := by
  induction i with
  | zero => rw [hstart, Finset.sum_range_zero, Finset.sum_range_zero]
  | succ i ih =>
      rw [Finset.sum_range_succ, ih, hslice,
        Finset.sum_range_add_sum_Ico _ (hmono (Nat.le_succ i))]

/-- The slice that crosses and the term in it are found, and no term before crosses. -/
theorem two_levels (hmono : Monotone b) (hstart : b 0 = 0) (hfirst : 0 < b 1)
    (hslice : ∀ i, slice i = ∑ k ∈ Finset.Ico (b i) (b (i + 1)), w k) (hw : ∀ k, 0 ≤ w k)
    (hm : 0 < m) (hr : r ≤ ∑ k ∈ Finset.range (b m), w k) :
    ∃ i acc v last, i < m ∧ crossing slice r m 0 0 = some (i, acc) ∧
      crossing w r (b (i + 1) - b i) (b i) acc = some (v, last) ∧
      IsLeast {v | r ≤ ∑ k ∈ Finset.range (v + 1), w k} v := by
  have htotal := sum_slices hmono hstart hslice
  rcases crossing_cases slice r m 0 with ⟨-, hall⟩ | ⟨i, hsome, -, hi, hcross⟩
  · have hlast := hall (m - 1) (Nat.zero_le _) (by omega)
    rw [Nat.sub_add_cancel hm, htotal] at hlast
    exact absurd hr (not_le.mpr hlast)
  · rw [Finset.sum_range_zero] at hsome
    have hreach := hcross.reached
    rw [htotal] at hreach
    -- nothing before the slice crosses
    have hbefore : ∀ k < b i, ∑ l ∈ Finset.range (k + 1), w l < r := by
      intro k hk
      have hpos : 0 < i := by
        apply Nat.pos_of_ne_zero
        rintro rfl
        omega
      have hprev := hcross.before (i - 1) (Nat.zero_le _) (by omega)
      rw [Nat.sub_add_cancel hpos, htotal] at hprev
      refine lt_of_le_of_lt ?_ hprev
      exact Finset.sum_le_sum_of_subset_of_nonneg
        (Finset.range_subset_range.mpr hk) fun l _ _ => hw l
    have hle : b i ≤ b (i + 1) := hmono (Nat.le_succ i)
    rw [htotal] at hsome
    rcases crossing_cases w r (b (i + 1) - b i) (b i) with ⟨-, hall⟩ | ⟨v, hv, hlo, hhi, hleast⟩
    · have hend : ∀ k < b (i + 1), ∑ l ∈ Finset.range (k + 1), w l < r := by
        intro k hk
        rcases Nat.lt_or_ge k (b i) with hbelow | hin
        · exact hbefore k hbelow
        · exact hall k hin (by omega)
      have hpos : 0 < b (i + 1) := lt_of_lt_of_le hfirst (hmono (by omega))
      have hlast := hend (b (i + 1) - 1) (by omega)
      rw [Nat.sub_add_cancel hpos] at hlast
      exact absurd hreach (not_le.mpr hlast)
    · refine ⟨i, _, v, _, by omega, hsome, hv, hleast.reached, fun k hk => ?_⟩
      by_contra hlt
      rw [not_le] at hlt
      have hbelow : ∑ l ∈ Finset.range (k + 1), w l < r := by
        rcases Nat.lt_or_ge k (b i) with hout | hin
        · exact hbefore k hout
        · exact hleast.before k hin hlt
      exact absurd hk (not_le.mpr hbelow)

end ShannonPrime.Crossing
