import Mathlib.Data.Nat.Sqrt
import Mathlib.Tactic.Ring
import Mathlib.Tactic.Linarith

/-!
Square roots digit by digit. After the digits of weight `2 ^ j` and above a partial root `q`
is known, what is left of the number is kept in `v`, and the root is carried shifted, in `x`.
The next digit is one where `x + 4 ^ j` can be taken off.
-/

namespace ShannonPrime.DigitRoot

/-- The state before the digit of weight `2 ^ (j - 1)`. -/
structure Partial (n j q v x : Nat) : Prop where
  shifted : x = q * 4 ^ j
  rest : v + q * q * 4 ^ j = n
  below : n < (q + 1) * (q + 1) * 4 ^ j

variable {n j q v x w : Nat}

theorem Partial.start (h : n < 4 ^ j) : Partial n j 0 n 0 where
  shifted := by simp
  rest := by simp
  below := by simpa using h

/-- Half the shifted root is the root shifted by one place less. -/
theorem Partial.half (h : Partial n (j + 1) q v x) : x / 2 = 2 * q * 4 ^ j := by
  have hx : x = 2 * (2 * q * 4 ^ j) := by
    rw [h.shifted]
    ring
  omega

theorem Partial.one (h : Partial n (j + 1) q v x) (hle : x + 4 ^ j ≤ v) :
    Partial n j (2 * q + 1) (v - (x + 4 ^ j)) (x / 2 + 4 ^ j) where
  shifted := by
    rw [h.half]
    ring
  rest := by
    have hsquare : (2 * q + 1) * (2 * q + 1) * 4 ^ j = q * q * 4 ^ (j + 1) + (x + 4 ^ j) := by
      rw [h.shifted]
      ring
    have hrest := h.rest
    omega
  below := by
    have hsquare : (2 * q + 1 + 1) * (2 * q + 1 + 1) * 4 ^ j = (q + 1) * (q + 1) * 4 ^ (j + 1) := by
      ring
    rw [hsquare]
    exact h.below

theorem Partial.zero (h : Partial n (j + 1) q v x) (hlt : v < x + 4 ^ j) :
    Partial n j (2 * q) v (x / 2) where
  shifted := h.half
  rest := by
    have hsquare : 2 * q * (2 * q) * 4 ^ j = q * q * 4 ^ (j + 1) := by ring
    rw [hsquare]
    exact h.rest
  below := by
    have hsquare : (2 * q + 1) * (2 * q + 1) * 4 ^ j = q * q * 4 ^ (j + 1) + (x + 4 ^ j) := by
      rw [h.shifted]
      ring
    have hrest := h.rest
    omega

/-- With no digit left the shifted root is the root. -/
theorem Partial.root (h : Partial n 0 q v x) : x * x ≤ n ∧ n < (x + 1) * (x + 1) := by
  have hx : x = q := by simpa using h.shifted
  have hrest : v + q * q = n := by simpa using h.rest
  have hbelow : n < (q + 1) * (q + 1) := by simpa using h.below
  rw [hx]
  exact ⟨by omega, hbelow⟩

/-- The shifted root of a number of `2 * w` bits has a bit less. -/
theorem Partial.shifted_lt (h : Partial n (j + 1) q v x) (hn : n < 4 ^ w) (hj : j < w) :
    2 * x < 4 ^ w := by
  have hroot : q * q * 4 ^ (j + 1) < 4 ^ w := by
    have hrest := h.rest
    omega
  rcases Nat.lt_or_ge (j + 1) w with hlow | htop
  · have hpow : 4 * 4 ^ (j + 1) ≤ 4 ^ w := by
      rw [← pow_succ']
      exact Nat.pow_le_pow_right (by decide) hlow
    have hsquare : 2 * x * (2 * x) = q * q * 4 ^ (j + 1) * (4 * 4 ^ (j + 1)) := by
      rw [h.shifted]
      ring
    by_contra hge
    have hle : 4 ^ w * 4 ^ w ≤ 2 * x * (2 * x) := Nat.mul_le_mul (by omega) (by omega)
    have hlt : q * q * 4 ^ (j + 1) * (4 * 4 ^ (j + 1)) < 4 ^ w * 4 ^ w :=
      Nat.mul_lt_mul_of_lt_of_le hroot hpow (by positivity)
    omega
  · -- no digit has been taken yet
    have hw : j + 1 = w := by omega
    rw [hw] at hroot
    have hq : q = 0 := by
      by_contra hne
      have hone : 1 * 4 ^ w ≤ q * q * 4 ^ w :=
        Nat.mul_le_mul_right _ (Nat.mul_pos (Nat.pos_of_ne_zero hne) (Nat.pos_of_ne_zero hne))
      omega
    rw [h.shifted, hq]
    simp

theorem Partial.sum_lt (h : Partial n (j + 1) q v x) (hn : n < 4 ^ w) (hj : j < w) :
    x + 4 ^ j < 4 ^ w := by
  have hx := h.shifted_lt hn hj
  have hpow : 4 * 4 ^ j ≤ 4 ^ w := by
    rw [← pow_succ']
    exact Nat.pow_le_pow_right (by decide) hj
  have hpos : 0 < 4 ^ j := by positivity
  omega

end ShannonPrime.DigitRoot
