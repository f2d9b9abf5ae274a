import Mathlib.Algebra.Order.Ring.Nat
import Mathlib.Tactic.Ring
import Mathlib.Tactic.Linarith
import Mathlib.Algebra.Order.Ring.Int
import Mathlib.Data.Int.ModEq
import Mathlib.RingTheory.Coprime.Basic
import Mathlib.Tactic.LinearCombination

/-!
Barrett reduction over the natural numbers, with `B` for the power of two just below the
modulus: a quotient from two shifts that is at most two too small.
-/

namespace ShannonPrime.Barrett

/-- `⌊(2B)² / q⌋` -/
def factor (B q : Nat) : Nat := 4 * B ^ 2 / q

/-- The estimate of `x / q`. -/
def estimate (B q x : Nat) : Nat := x / B * factor B q / (4 * B)

variable {B q x : Nat}

theorem estimate_le (hB : 0 < B) : estimate B q x ≤ x / q := by
  rcases Nat.eq_zero_or_pos q with rfl | hq
  · simp [estimate, factor]
  · rw [Nat.le_div_iff_mul_le hq]
    have hest : estimate B q x * (4 * B) ≤ x / B * factor B q := Nat.div_mul_le_self _ _
    have hfactor : factor B q * q ≤ 4 * B ^ 2 := Nat.div_mul_le_self _ _
    have hshift : x / B * B ≤ x := Nat.div_mul_le_self _ _
    have hscaled : 4 * B * (estimate B q x * q) ≤ 4 * B * x := by
      calc 4 * B * (estimate B q x * q) = estimate B q x * (4 * B) * q := by ring
        _ ≤ x / B * factor B q * q := Nat.mul_le_mul_right q hest
        _ = x / B * (factor B q * q) := by ring
        _ ≤ x / B * (4 * B ^ 2) := Nat.mul_le_mul_left _ hfactor
        _ = 4 * B * (x / B * B) := by ring
        _ ≤ 4 * B * x := Nat.mul_le_mul_left _ hshift
    exact Nat.le_of_mul_le_mul_left hscaled (by omega)

/-- Below the square of `2B` what the estimate leaves is less than three times the modulus. -/
theorem lt_estimate_add_three (hB : 0 < B) (hq : B ≤ q) (hx : x < 4 * B ^ 2) :
    x < (estimate B q x + 3) * q := by
  have hquot : 4 * B * (estimate B q x + 1) > x / B * factor B q := by
    rw [estimate, Nat.mul_add, mul_one]
    exact Nat.lt_mul_div_succ _ (by omega)
  have hfactor : 4 * B ^ 2 < q * (factor B q + 1) := Nat.lt_mul_div_succ _ (by omega)
  have hshift : x < B * (x / B + 1) := Nat.lt_mul_div_succ _ hB
  have hshort : x / B < 4 * B := by
    rw [Nat.div_lt_iff_lt_mul hB]
    calc x < 4 * B ^ 2 := hx
      _ = 4 * B * B := by ring
  generalize estimate B q x = e at hquot ⊢
  generalize x / B = X at hquot hshift hshort
  generalize factor B q = f at hquot hfactor
  have hXf : X * (4 * B ^ 2) + X ≤ q * (X * f) + X * q := by
    calc X * (4 * B ^ 2) + X = X * (4 * B ^ 2 + 1) := by ring
      _ ≤ X * (q * (f + 1)) := Nat.mul_le_mul_left X hfactor
      _ = q * (X * f) + X * q := by ring
  have hXq : X * q + q ≤ 4 * B * q := by
    calc X * q + q = (X + 1) * q := by ring
      _ ≤ 4 * B * q := Nat.mul_le_mul_right q hshort
  have hest : q * (X * f) + q ≤ q * (4 * B * (e + 1)) := by
    calc q * (X * f) + q = q * (X * f + 1) := by ring
      _ ≤ q * (4 * B * (e + 1)) := Nat.mul_le_mul_left q hquot
  have hBq : 4 * B * B ≤ 4 * B * q := Nat.mul_le_mul_left _ hq
  have hscaled : 4 * B * x < 4 * B * ((e + 3) * q) := by
    calc 4 * B * x < 4 * B * (B * (X + 1)) := Nat.mul_lt_mul_of_pos_left hshift (by omega)
      _ = X * (4 * B ^ 2) + 4 * B * B := by ring
      _ ≤ q * (4 * B * (e + 1)) + 4 * B * q + 4 * B * q := by omega
      _ = 4 * B * ((e + 3) * q) := by ring
  exact Nat.lt_of_mul_lt_mul_left hscaled

/-- Two conditional subtractions take what is left to the remainder. -/
theorem correct_twice {r : Nat} (hr : r < 3 * q) :
    (let s := if r ≥ q then r - q else r
     if s ≥ q then s - q else s) = r % q := by
  have hq : 0 < q := by omega
  have hone : ∀ s, s < q → s % q = s := fun s hs => Nat.mod_eq_of_lt hs
  rcases Nat.lt_or_ge r q with h | h
  · simp [Nat.not_le.mpr h, hone r h]
  · rcases Nat.lt_or_ge (r - q) q with h' | h'
    · simp [h, Nat.not_le.mpr h', Nat.mod_eq_sub_mod h, hone _ h']
    · simp only [ge_iff_le, h, if_true, h', Nat.mod_eq_sub_mod h, Nat.mod_eq_sub_mod h']
      exact (hone _ (by omega)).symm

/-- What the estimate leaves. -/
def rest (B q x : Nat) : Nat := x - estimate B q x * q

theorem rest_spec (hB : 0 < B) (hq : B ≤ q) (hx : x < 4 * B ^ 2) :
    estimate B q x * q ≤ x ∧ rest B q x < 3 * q ∧ rest B q x % q = x % q := by
  have hle : estimate B q x * q ≤ x :=
    (Nat.mul_le_mul_right q (estimate_le hB)).trans (Nat.div_mul_le_self x q)
  have hlt := lt_estimate_add_three hB hq hx
  rw [Nat.add_mul] at hlt
  refine ⟨hle, by unfold rest; omega, ?_⟩
  have hsplit : x = rest B q x + estimate B q x * q := (Nat.sub_add_cancel hle).symm
  conv_rhs => rw [hsplit, Nat.add_mul_mod_self_right]

end ShannonPrime.Barrett

/-!
An integer from its residues for two moduli, and the range centred at zero in which that
is the integer itself.
-/

namespace ShannonPrime.Garner

/-- Garner's step: the number below `q1 * q2` with the residues `r1` and `r2`, where `inv`
inverts `q1` modulo `q2`. -/
def join (q1 q2 inv r1 r2 : Int) : Int := r1 + q1 * ((r2 - r1) * inv % q2)

/-- The representative centred at zero. -/
def centre (m y : Int) : Int := if y > m / 2 then y - m else y

variable {q1 q2 inv : Int}

theorem join_nonneg (h1 : 0 < q1) (h2 : 0 < q2) {r1 r2 : Int} (hr : 0 ≤ r1) :
    0 ≤ join q1 q2 inv r1 r2 :=
  add_nonneg hr (mul_nonneg h1.le (Int.emod_nonneg _ h2.ne'))

theorem join_lt (h1 : 0 < q1) (h2 : 0 < q2) {r1 r2 : Int} (hr : r1 < q1) :
    join q1 q2 inv r1 r2 < q1 * q2 := by
  have hlast : (r2 - r1) * inv % q2 ≤ q2 - 1 := Int.le_sub_one_of_lt (Int.emod_lt_of_pos _ h2)
  calc join q1 q2 inv r1 r2 < q1 + q1 * ((r2 - r1) * inv % q2) := by
        unfold join
        omega
    _ ≤ q1 + q1 * (q2 - 1) := by
        have := mul_le_mul_of_nonneg_left hlast h1.le
        omega
    _ = q1 * q2 := by ring

theorem join_emod (h1 : 0 < q1) (h2 : 0 < q2) (hinv : q2 ∣ q1 * inv - 1) (x : Int) :
    join q1 q2 inv (x % q1) (x % q2) = x % (q1 * q2) := by
  have hcoprime : IsCoprime q1 q2 := by
    obtain ⟨k, hk⟩ := hinv
    exact ⟨inv, -k, by linear_combination hk⟩
  have hfirst : q1 ∣ join q1 q2 inv (x % q1) (x % q2) - x := by
    have hx := Int.emod_add_mul_ediv x q1
    refine ⟨(x % q2 - x % q1) * inv % q2 - x / q1, ?_⟩
    unfold join
    linear_combination hx
  have hsecond : q2 ∣ join q1 q2 inv (x % q1) (x % q2) - x := by
    obtain ⟨k, hk⟩ := hinv
    have hx := Int.emod_add_mul_ediv x q2
    have ht := Int.emod_add_mul_ediv ((x % q2 - x % q1) * inv) q2
    refine ⟨(x % q2 - x % q1) * k - x / q2 - q1 * ((x % q2 - x % q1) * inv / q2), ?_⟩
    unfold join
    linear_combination hx + q1 * ht + (x % q2 - x % q1) * hk
  have hboth : q1 * q2 ∣ join q1 q2 inv (x % q1) (x % q2) - x :=
    hcoprime.mul_dvd hfirst hsecond
  have hmod := Int.emod_eq_emod_iff_emod_sub_eq_zero.mpr (Int.emod_eq_zero_of_dvd hboth)
  rw [← hmod]
  exact (Int.emod_eq_of_lt (join_nonneg h1 h2 (Int.emod_nonneg _ h1.ne'))
    (join_lt h1 h2 (Int.emod_lt_of_pos _ h1))).symm

/-- A step of Garner's form has the second residue exactly for Garner's own turn. -/
theorem add_mul_emod_iff (hinv : q2 ∣ q1 * inv - 1) (a b t : Int) :
    (a + q1 * t) % q2 = b % q2 ↔ t % q2 = (b - a) * inv % q2 := by
  obtain ⟨k, hk⟩ := hinv
  rw [Int.emod_eq_emod_iff_emod_sub_eq_zero, Int.emod_eq_emod_iff_emod_sub_eq_zero,
    ← Int.dvd_iff_emod_eq_zero, ← Int.dvd_iff_emod_eq_zero]
  constructor
  · rintro ⟨c, hc⟩
    refine ⟨inv * c - t * k, ?_⟩
    linear_combination inv * hc - t * hk
  · rintro ⟨c, hc⟩
    refine ⟨q1 * c + (b - a) * k, ?_⟩
    linear_combination q1 * hc + (b - a) * hk

/-- The centred representative is the number itself exactly within half the modulus. -/
theorem centre_emod_iff {m : Int} (hm : 0 < m) (hodd : m % 2 = 1) (x : Int) :
    centre m (x % m) = x ↔ |x| ≤ m / 2 := by
  have hlo := Int.emod_nonneg x hm.ne'
  have hhi := Int.emod_lt_of_pos x hm
  rw [abs_le]
  constructor
  · intro h
    rw [← h]
    unfold centre
    split <;> omega
  · rintro ⟨hleft, hright⟩
    rcases Int.lt_or_le x 0 with hneg | hnonneg
    · have hx : x % m = x + m := by
        rw [← Int.add_emod_right]
        exact Int.emod_eq_of_lt (by omega) (by omega)
      unfold centre
      rw [hx]
      split <;> omega
    · have hx : x % m = x := Int.emod_eq_of_lt hnonneg (by omega)
      unfold centre
      rw [hx]
      split <;> omega

end ShannonPrime.Garner
