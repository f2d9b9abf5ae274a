import Mathlib.Algebra.Order.Group.Abs
import Mathlib.Algebra.BigOperators.Group.List.Basic

/-!
Steps of fixed lengths, each taken towards zero. Where no step is longer than those after it
can take back, what is left at the end is as small as it is to be.
-/

namespace ShannonPrime.SignedSteps

variable {α : Type*} [AddCommGroup α] [LinearOrder α] [IsOrderedAddMonoid α] {r z a s : α}

def turn (z a : α) : α := if 0 ≤ z then z - a else z + a

/-- Each step is at most what the later ones and `r` make up. -/
def Covered (r : α) : List α → Prop
  | [] => True
  | a :: as => a ≤ as.sum + r ∧ Covered r as

instance (r : α) : (as : List α) → Decidable (Covered r as)
  | [] => isTrue trivial
  | _ :: as =>
      have := instDecidableCovered r as
      inferInstanceAs (Decidable (_ ∧ _))

theorem turn_abs_le (hcover : a ≤ s) (hz : |z| ≤ a + s) : |turn z a| ≤ s := by
  obtain ⟨hlo, hhi⟩ := abs_le.mp hz
  unfold turn
  split
  case isTrue hpos =>
      apply abs_le.mpr
      constructor
      · apply neg_le_sub_iff_le_add.mpr
        exact hcover.trans (le_add_of_nonneg_left hpos)
      · exact sub_le_iff_le_add'.mpr hhi
  case isFalse hneg =>
      rw [neg_add] at hlo
      apply abs_le.mpr
      constructor
      · rw [add_comm]
        exact neg_add_le_iff_le_add.mp hlo
      · exact (add_le_of_nonpos_left (not_le.mp hneg).le).trans hcover

theorem residual {as : List α} (hcover : Covered r as) (hz : |z| ≤ as.sum + r) :
    |as.foldl turn z| ≤ r := by
  induction as generalizing z with
  | nil => simpa using hz
  | cons a as ih =>
      apply ih hcover.2
      apply turn_abs_le hcover.1
      rw [← add_assoc, ← List.sum_cons]
      exact hz

end ShannonPrime.SignedSteps
