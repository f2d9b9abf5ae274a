import Mathlib.Algebra.BigOperators.Group.Finset.Basic
import Mathlib.Algebra.BigOperators.Intervals
import Mathlib.Algebra.BigOperators.Ring.Finset
import Mathlib.Algebra.Order.BigOperators.Group.Finset
import Mathlib.Algebra.Order.Ring.Int
import Mathlib.Tactic.Ring
import Mathlib.Tactic.NormNum

/-!
Signed 32-bit arithmetic over the integers. A scalar operation of C has no value when its
result does not fit, a vector operation wraps around.
-/

namespace ShannonPrime.CInt

/-- The value is one of an `int32_t`. -/
def Fits (x : Int) : Prop := -2 ^ 31 ≤ x ∧ x < 2 ^ 31

instance (x : Int) : Decidable (Fits x) := inferInstanceAs (Decidable (_ ∧ _))

/-- The result of a scalar operation. -/
def checked (x : Int) : Option Int := if Fits x then some x else none

/-- A lane of a vector operation. -/
def wrap (x : Int) : Int := x.bmod (2 ^ 32)

/-- `s = 0; for (k = 0; k < n; k++) s += f(k)` -/
def sum (n : Nat) (f : Nat → Int) : Option Int :=
  (List.range n).foldlM (fun s k => checked (s + f k)) 0

theorem checked_eq_some {x y : Int} : checked x = some y ↔ Fits x ∧ x = y := by
  unfold checked
  split
  · rename_i h
    simp [h]
  · rename_i h
    simp [h]

theorem checked_of_fits {x : Int} (h : Fits x) : checked x = some x := if_pos h

theorem wrap_of_fits {x : Int} (h : Fits x) : wrap x = x := by
  unfold wrap Fits at *
  apply Int.bmod_eq_of_le <;> omega

theorem fits_wrap (x : Int) : Fits (wrap x) := by
  unfold wrap Fits
  have hlo : -((2 ^ 32 : Nat) : Int) / 2 ≤ x.bmod (2 ^ 32) := Int.le_bmod (by norm_num)
  have hhi : x.bmod (2 ^ 32) < (((2 ^ 32 : Nat) : Int) + 1) / 2 := Int.bmod_lt (by norm_num)
  norm_num at hlo hhi ⊢
  omega

theorem wrap_add_wrap (x y : Int) : wrap (wrap x + y) = wrap (x + y) := Int.bmod_add_bmod ..

/-- Lanes that wrap at every step wrap to the same total. -/
theorem wrap_sum {n : Nat} (f g : Nat → Int) (h : ∀ i, i < n → wrap (f i) = wrap (g i)) :
    wrap (∑ i ∈ Finset.range n, f i) = wrap (∑ i ∈ Finset.range n, g i) := by
  induction n with
  | zero => rfl
  | succ n ih =>
      have hlast := h n (Nat.lt_succ_self n)
      have hrest := ih fun i hi => h i (hi.trans (Nat.lt_succ_self n))
      rw [Finset.sum_range_succ, Finset.sum_range_succ, ← wrap_add_wrap, hrest, wrap_add_wrap,
        add_comm, ← wrap_add_wrap, hlast, wrap_add_wrap, add_comm]

/-- A sum of terms between `lo` and `hi`. -/
theorem sum_bounds {n : Nat} {f : Nat → Int} {lo hi : Int}
    (h : ∀ k, k < n → lo ≤ f k ∧ f k ≤ hi) :
    n * lo ≤ ∑ k ∈ Finset.range n, f k ∧ ∑ k ∈ Finset.range n, f k ≤ n * hi := by
  induction n with
  | zero => simp
  | succ n ih =>
      obtain ⟨hlo, hhi⟩ := ih fun k hk => h k (hk.trans (Nat.lt_succ_self n))
      obtain ⟨hn, hn'⟩ := h n (Nat.lt_succ_self n)
      have hsplit : ∀ b : Int, ((n + 1 : Nat) : Int) * b = n * b + b := by
        intro b
        push_cast
        ring
      rw [Finset.sum_range_succ, hsplit, hsplit]
      omega

/-- No partial sum overflows when the terms are small enough. -/
theorem sum_eq {n : Nat} {f : Nat → Int} {lo hi : Int} (h : ∀ k, k < n → lo ≤ f k ∧ f k ≤ hi)
    (hlo : lo ≤ 0) (hhi : 0 ≤ hi) (hlo' : -2 ^ 31 ≤ n * lo) (hhi' : n * hi < 2 ^ 31) :
    sum n f = some (∑ k ∈ Finset.range n, f k) := by
  have hstep : ∀ m, m ≤ n →
      (List.range m).foldlM (fun s k => checked (s + f k)) 0 =
        some (∑ k ∈ Finset.range m, f k) := by
    intro m hm
    induction m with
    | zero => rfl
    | succ m ih =>
        have hbound : ((m + 1 : Nat) : Int) * lo ≤ ∑ k ∈ Finset.range (m + 1), f k ∧
            ∑ k ∈ Finset.range (m + 1), f k ≤ ((m + 1 : Nat) : Int) * hi :=
          sum_bounds fun k hk => h k (by omega)
        have hlow : (n : Int) * lo ≤ ((m + 1 : Nat) : Int) * lo :=
          mul_le_mul_of_nonpos_right (by exact_mod_cast hm) hlo
        have hhigh : ((m + 1 : Nat) : Int) * hi ≤ n * hi :=
          mul_le_mul_of_nonneg_right (by exact_mod_cast hm) hhi
        rw [List.range_succ, List.foldlM_append, ih (by omega), Finset.sum_range_succ]
        rw [Finset.sum_range_succ] at hbound
        simp only [Option.bind_eq_bind, Option.bind_some, List.foldlM_cons, List.foldlM_nil]
        rw [checked_of_fits ⟨by omega, by omega⟩]
        rfl
  exact hstep n (Nat.le_refl n)

/-- `s = s0; for (k = 0; k < n; k++) s += f(k)` -/
def sumFrom (s0 : Int) (n : Nat) (f : Nat → Int) : Option Int :=
  (List.range n).foldlM (fun s k => checked (s + f k)) s0

/-- No partial sum overflows when start and terms together stay within a bound. -/
theorem sumFrom_eq {s0 B C : Int} {n : Nat} {f : Nat → Int} (hs : -B ≤ s0 ∧ s0 ≤ B)
    (h : ∀ k, k < n → -C ≤ f k ∧ f k ≤ C) (hbound : B + n * C < 2 ^ 31) :
    sumFrom s0 n f = some (s0 + ∑ k ∈ Finset.range n, f k) := by
  induction n with
  | zero => simp [sumFrom]
  | succ n ih =>
      have hC : 0 ≤ C := by
        have := h n (Nat.lt_succ_self n)
        omega
      have hsplit : B + ((n + 1 : Nat) : Int) * C = B + n * C + C := by
        push_cast
        ring
      have hrest := ih (fun k hk => h k (hk.trans (Nat.lt_succ_self n))) (by omega)
      have hpart := sum_bounds (n := n) fun k hk => h k (hk.trans (Nat.lt_succ_self n))
      have hlast := h n (Nat.lt_succ_self n)
      have hneg : (n : Int) * -C = -(n * C) := by ring
      unfold sumFrom at hrest ⊢
      rw [List.range_succ, List.foldlM_append, hrest, Finset.sum_range_succ, ← add_assoc]
      simp only [Option.bind_eq_bind, Option.bind_some, List.foldlM_cons, List.foldlM_nil]
      rw [checked_of_fits ⟨by omega, by omega⟩]
      rfl

end ShannonPrime.CInt
