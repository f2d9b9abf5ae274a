import Mathlib.Algebra.BigOperators.Intervals
import Mathlib.Algebra.BigOperators.Ring.Finset
import Mathlib.Algebra.Ring.Parity
import Mathlib.Algebra.Polynomial.Div
import Mathlib.Algebra.Polynomial.Eval.Degree
import Mathlib.Data.Nat.Factorization.Basic
import Mathlib.Tactic.LinearCombination
import Mathlib.Tactic.Ring

/-!
The radix-2 decimation-in-time transform over a commutative ring: after bit reversal and
`t` stages each block holds the transform of a subsequence, after all of them the array
holds the transform. Nothing is asked of the ring but a root of minus one.
-/

namespace ShannonPrime.Radix2

open Finset

/-! Bit reversal -/

/-- The lowest `n` bits in reverse order. -/
def rev : Nat → Nat → Nat
  | 0, _ => 0
  | n + 1, x => x % 2 * 2 ^ n + rev n (x / 2)

theorem rev_lt (n x : Nat) : rev n x < 2 ^ n := by
  induction n generalizing x with
  | zero => exact Nat.one_pos
  | succ n ih =>
      have hbit : x % 2 * 2 ^ n ≤ 1 * 2 ^ n := Nat.mul_le_mul_right _ (by omega)
      have := ih (x / 2)
      rw [rev, pow_succ]
      omega

theorem rev_even (n g : Nat) : rev (n + 1) (2 * g) = rev n g := by
  have hdiv : 2 * g / 2 = g := by omega
  rw [rev, hdiv, Nat.mul_mod_right, zero_mul, zero_add]

theorem rev_odd (n g : Nat) : rev (n + 1) (2 * g + 1) = 2 ^ n + rev n g := by
  have hdiv : (2 * g + 1) / 2 = g := by omega
  have hmod : (2 * g + 1) % 2 = 1 := by omega
  rw [rev, hdiv, hmod, one_mul]

/-- A bit on top comes out at the bottom. -/
theorem rev_top (n y b : Nat) (hy : y < 2 ^ n) (hb : b < 2) :
    rev (n + 1) (y + b * 2 ^ n) = 2 * rev n y + b := by
  induction n generalizing y with
  | zero =>
      obtain rfl : y = 0 := by simpa using hy
      have hmod : b % 2 = b := Nat.mod_eq_of_lt hb
      simp [rev, hmod]
  | succ n ih =>
      have hhalf : y / 2 < 2 ^ n := by
        rw [pow_succ] at hy
        omega
      have hshift : b * 2 ^ (n + 1) = 2 * (b * 2 ^ n) := by ring
      have hmod : (y + b * 2 ^ (n + 1)) % 2 = y % 2 := by
        rw [hshift]
        omega
      have hdiv : (y + b * 2 ^ (n + 1)) / 2 = y / 2 + b * 2 ^ n := by
        rw [hshift]
        omega
      rw [rev, hmod, hdiv, ih _ hhalf, rev]
      ring

theorem rev_rev (n x : Nat) (hx : x < 2 ^ n) : rev n (rev n x) = x := by
  induction n generalizing x with
  | zero =>
      obtain rfl : x = 0 := by simpa using hx
      rfl
  | succ n ih =>
      have hhalf : x / 2 < 2 ^ n := by
        rw [pow_succ] at hx
        omega
      have htop := rev_top n (rev n (x / 2)) (x % 2) (rev_lt n _) (Nat.mod_lt _ (by omega))
      rw [ih _ hhalf] at htop
      have hstep : rev (n + 1) x = rev n (x / 2) + x % 2 * 2 ^ n := Nat.add_comm _ _
      rw [hstep, htop]
      omega

/-! The stages -/

variable {R : Type*} [CommRing R]

/-- One stage of butterflies over blocks of `2 * half`, with the twiddle factors `w`. -/
def butterflies (half : Nat) (w : Nat → R) (s : Nat → R) (c : Nat) : R :=
  if c % (2 * half) < half then s c + s (c + half) * w (c % (2 * half))
  else s (c - half) - s c * w (c % (2 * half) - half)

/-- Bit reversal and the first `t` stages of the transform of `2 ^ n` elements. -/
def stages (n : Nat) (ω : R) (x : Nat → R) (t : Nat) : Nat → R :=
  (List.range t).foldl (fun s t => butterflies (2 ^ t) (fun k => ω ^ (k * 2 ^ (n - 1 - t))) s)
    fun c => x (rev n c)

theorem sum_even_odd (M : Nat) (f : Nat → R) :
    ∑ m ∈ range (2 * M), f m = ∑ m ∈ range M, f (2 * m) + ∑ m ∈ range M, f (2 * m + 1) := by
  induction M with
  | zero => simp
  | succ M ih =>
      rw [Nat.mul_succ, sum_range_succ, sum_range_succ, ih, sum_range_succ, sum_range_succ]
      ring

theorem stages_succ (n : Nat) (ω : R) (x : Nat → R) (t : Nat) :
    stages n ω x (t + 1) =
      butterflies (2 ^ t) (fun k => ω ^ (k * 2 ^ (n - 1 - t))) (stages n ω x t) := by
  rw [stages, List.range_succ, List.foldl_append, List.foldl_cons, List.foldl_nil]
  rfl

/-- The first half of a block: the sum of its butterflies. -/
theorem butterflies_low {half r : Nat} (w : Nat → R) (s : Nat → R) (g : Nat) (hr : r < half) :
    butterflies half w s (g * (2 * half) + r) =
      s (g * (2 * half) + r) + s (g * (2 * half) + r + half) * w r := by
  have hmod : (g * (2 * half) + r) % (2 * half) = r := by
    rw [Nat.add_comm, Nat.add_mul_mod_self_right, Nat.mod_eq_of_lt (by omega)]
  rw [butterflies, hmod, if_pos hr]

/-- The second half of a block: the difference. -/
theorem butterflies_high {half r : Nat} (w : Nat → R) (s : Nat → R) (g : Nat) (hr : r < half) :
    butterflies half w s (g * (2 * half) + half + r) =
      s (g * (2 * half) + r) - s (g * (2 * half) + half + r) * w r := by
  have hmod : (g * (2 * half) + half + r) % (2 * half) = half + r := by
    rw [Nat.add_assoc, Nat.add_comm, Nat.add_mul_mod_self_right, Nat.mod_eq_of_lt (by omega)]
  have hsub : g * (2 * half) + half + r - half = g * (2 * half) + r := by omega
  rw [butterflies, hmod, if_neg (by omega), hsub, Nat.add_sub_cancel_left]

/-- After `t` stages block `g` holds the transform of every `2 ^ (n - t)`th element. -/
theorem stages_block {n : Nat} {ω : R} (hω : ω ^ 2 ^ (n - 1) = -1) (x : Nat → R) (t d : Nat)
    (hn : n = t + d) {g r : Nat} (hr : r < 2 ^ t) :
    stages n ω x t (g * 2 ^ t + r) =
      ∑ m ∈ range (2 ^ t), x (m * 2 ^ d + rev d g) * ω ^ (2 ^ d * r * m) := by
  induction t generalizing d g r with
  | zero =>
      obtain rfl : r = 0 := by simpa using hr
      obtain rfl : n = d := by omega
      simp [stages]
  | succ t ih =>
      have hprev : n = t + (d + 1) := by omega
      have hexp : n - 1 - t = d := by omega
      have hlast : n - 1 = d + t := by omega
      -- the two halves of the block are blocks of the stage before
      have heven : ∀ r, r < 2 ^ t → stages n ω x t (g * (2 * 2 ^ t) + r) =
          ∑ m ∈ range (2 ^ t), x (2 * m * 2 ^ d + rev d g) * ω ^ (2 ^ d * r * (2 * m)) := by
        intro r hr
        have hat : g * (2 * 2 ^ t) + r = 2 * g * 2 ^ t + r := by ring
        rw [hat, ih (d + 1) hprev hr, rev_even]
        refine sum_congr rfl fun m _ => ?_
        have hidx : m * 2 ^ (d + 1) = 2 * m * 2 ^ d := by ring
        have hpow : 2 ^ (d + 1) * r * m = 2 ^ d * r * (2 * m) := by ring
        rw [hidx, hpow]
      have hodd : ∀ r, r < 2 ^ t → stages n ω x t (g * (2 * 2 ^ t) + 2 ^ t + r) * ω ^ (r * 2 ^ d) =
          ∑ m ∈ range (2 ^ t),
            x ((2 * m + 1) * 2 ^ d + rev d g) * ω ^ (2 ^ d * r * (2 * m + 1)) := by
        intro r hr
        have hat : g * (2 * 2 ^ t) + 2 ^ t + r = (2 * g + 1) * 2 ^ t + r := by ring
        rw [hat, ih (d + 1) hprev hr, rev_odd, sum_mul]
        refine sum_congr rfl fun m _ => ?_
        have hidx : m * 2 ^ (d + 1) + (2 ^ d + rev d g) = (2 * m + 1) * 2 ^ d + rev d g := by ring
        have hpow : 2 ^ d * r * (2 * m + 1) = 2 ^ (d + 1) * r * m + r * 2 ^ d := by ring
        rw [hidx, hpow, pow_add ω, mul_assoc]
      rw [stages_succ, hexp]
      have hlen : 2 ^ (t + 1) = 2 * 2 ^ t := pow_succ' 2 t
      rw [hlen, sum_even_odd]
      rcases Nat.lt_or_ge r (2 ^ t) with hlow | hhigh
      · have hat : g * (2 * 2 ^ t) + r + 2 ^ t = g * (2 * 2 ^ t) + 2 ^ t + r := by ring
        rw [butterflies_low _ _ g hlow, hat, heven r hlow, hodd r hlow]
      · obtain ⟨r, rfl⟩ := Nat.exists_eq_add_of_le hhigh
        have hr' : r < 2 ^ t := by omega
        have hat : g * (2 * 2 ^ t) + (2 ^ t + r) = g * (2 * 2 ^ t) + 2 ^ t + r := by ring
        rw [hat, butterflies_high _ _ g hr', heven r hr', hodd r hr', sub_eq_add_neg,
          ← sum_neg_distrib]
        refine congrArg₂ _ (sum_congr rfl fun m _ => ?_) (sum_congr rfl fun m _ => ?_)
        · have hpow : 2 ^ d * (2 ^ t + r) * (2 * m) = 2 ^ d * r * (2 * m) + 2 ^ (n - 1) * (2 * m) := by
            rw [hlast]
            ring
          have hone : ω ^ (2 ^ (n - 1) * (2 * m)) = 1 := by
            rw [pow_mul, hω, Even.neg_one_pow (even_two_mul m)]
          rw [hpow, pow_add ω, hone, mul_one]
        · have hpow : 2 ^ d * (2 ^ t + r) * (2 * m + 1) =
              2 ^ d * r * (2 * m + 1) + 2 ^ (n - 1) * (2 * m + 1) := by
            rw [hlast]
            ring
          have hneg : ω ^ (2 ^ (n - 1) * (2 * m + 1)) = -1 := by
            rw [pow_mul, hω, Odd.neg_one_pow (odd_two_mul_add_one m)]
          rw [hpow, pow_add ω, hneg]
          ring

/-- All stages: the transform. -/
theorem stages_all {n : Nat} {ω : R} (hω : ω ^ 2 ^ (n - 1) = -1) (x : Nat → R) {r : Nat}
    (hr : r < 2 ^ n) :
    stages n ω x n r = ∑ m ∈ range (2 ^ n), x m * ω ^ (r * m) := by
  have h := stages_block hω x n 0 rfl (g := 0) hr
  simpa [rev] using h

/-! The inverse transform -/

theorem geom_sum_two_pow (z : R) (n : Nat) :
    ∑ j ∈ range (2 ^ n), z ^ j = ∏ i ∈ range n, (1 + z ^ 2 ^ i) := by
  induction n with
  | zero => simp
  | succ n ih =>
      have hlen : 2 ^ (n + 1) = 2 ^ n + 2 ^ n := by ring
      have hshift : ∀ j, z ^ (2 ^ n + j) = z ^ j * z ^ 2 ^ n := fun j => by ring
      rw [hlen, sum_range_add, prod_range_succ, ← ih]
      simp only [hshift]
      rw [← sum_mul]
      ring

/-- The powers of a root sum to zero, except over the multiples of the length. -/
theorem orthogonal {n : Nat} {ω : R} (hω : ω ^ 2 ^ (n - 1) = -1) {d : Nat} (hd : 0 < d)
    (hd' : d < 2 ^ n) : ∑ j ∈ range (2 ^ n), (ω ^ d) ^ j = 0 := by
  obtain ⟨k, m, hm, rfl⟩ := Nat.exists_eq_two_pow_mul_odd hd.ne'
  have hkn : k < n := by
    by_contra hge
    have hle : 2 ^ n ≤ 2 ^ k * m :=
      (Nat.pow_le_pow_right (by omega) (by omega)).trans (Nat.le_mul_of_pos_right _ hm.pos)
    omega
  rw [geom_sum_two_pow]
  apply prod_eq_zero (mem_range.mpr (show n - 1 - k < n by omega))
  have hexp : 2 ^ k * m * 2 ^ (n - 1 - k) = 2 ^ (n - 1) * m := by
    have hsplit : n - 1 = k + (n - 1 - k) := by omega
    rw [mul_right_comm, ← pow_add, ← hsplit]
  rw [← pow_mul, hexp, pow_mul, hω, hm.neg_one_pow]
  ring

/-- The transform with the inverse root, of a transform. -/
theorem inverse_transform {n : Nat} {ω ω' : R} (hω : ω ^ 2 ^ (n - 1) = -1) (hinv : ω * ω' = 1)
    (c : Nat → R) {k : Nat} (hk : k < 2 ^ n) :
    ∑ j ∈ range (2 ^ n), (∑ m ∈ range (2 ^ n), c m * ω ^ (j * m)) * ω' ^ (k * j) =
      2 ^ n * c k := by
  have hω' : ω' ^ 2 ^ (n - 1) = -1 := by
    have hprod : ω ^ 2 ^ (n - 1) * ω' ^ 2 ^ (n - 1) = 1 := by rw [← mul_pow, hinv, one_pow]
    rw [hω] at hprod
    linear_combination -hprod
  have hcancel : ∀ i, ω ^ i * ω' ^ i = 1 := fun i => by rw [← mul_pow, hinv, one_pow]
  -- for one coefficient the sum over the positions is the length or nothing
  have hone : ∀ m, m < 2 ^ n →
      ∑ j ∈ range (2 ^ n), ω ^ (j * m) * ω' ^ (k * j) = if m = k then 2 ^ n else 0 := by
    intro m hm
    rcases lt_trichotomy m k with hlt | rfl | hgt
    · rw [if_neg hlt.ne, ← orthogonal hω' (show 0 < k - m by omega) (by omega)]
      refine sum_congr rfl fun j _ => ?_
      have hexp : k * j = j * m + (k - m) * j := by
        rw [mul_comm j m, ← add_mul]
        congr 1
        omega
      rw [hexp, pow_add ω', ← mul_assoc, hcancel, one_mul, pow_mul]
    · rw [if_pos rfl]
      have hterm : ∀ j ∈ range (2 ^ n), ω ^ (j * m) * ω' ^ (m * j) = 1 := fun j _ => by
        rw [mul_comm j m, hcancel]
      rw [sum_congr rfl hterm]
      simp
    · rw [if_neg hgt.ne', ← orthogonal hω (show 0 < m - k by omega) (by omega)]
      refine sum_congr rfl fun j _ => ?_
      have hexp : j * m = (m - k) * j + k * j := by
        rw [mul_comm j m, ← add_mul]
        congr 1
        omega
      rw [hexp, pow_add ω, mul_assoc, hcancel, mul_one, pow_mul]
  calc ∑ j ∈ range (2 ^ n), (∑ m ∈ range (2 ^ n), c m * ω ^ (j * m)) * ω' ^ (k * j)
      = ∑ m ∈ range (2 ^ n), c m * ∑ j ∈ range (2 ^ n), ω ^ (j * m) * ω' ^ (k * j) := by
        simp only [sum_mul, mul_sum]
        rw [sum_comm]
        exact sum_congr rfl fun m _ => sum_congr rfl fun j _ => mul_assoc _ _ _
    _ = ∑ m ∈ range (2 ^ n), c m * if m = k then 2 ^ n else 0 :=
        sum_congr rfl fun m hm => by rw [hone m (mem_range.mp hm)]
    _ = 2 ^ n * c k := by
        simp [mem_range.mpr hk, mul_comm]

/-! Products modulo `x ^ N + 1` -/

open Polynomial in
/-- The polynomial of a vector. -/
noncomputable def poly (N : Nat) (a : Nat → R) : R[X] := ∑ i ∈ range N, C (a i) * X ^ i

open Polynomial in
theorem poly_eval (N : Nat) (a : Nat → R) (z : R) :
    (poly N a).eval z = ∑ i ∈ range N, a i * z ^ i := by
  simp [poly, eval_finsetSum]

open Polynomial in
/-- The product of two vectors as polynomials, modulo `x ^ N + 1`. -/
noncomputable def product (N : Nat) (a b : Nat → R) : R[X] :=
  poly N a * poly N b %ₘ (X ^ N + C 1)

theorem product_natDegree_lt [Nontrivial R] {N : Nat} (hN : N ≠ 0) (a b : Nat → R) :
    (product N a b).natDegree < N := by
  have hmonic := Polynomial.monic_X_pow_add_C (1 : R) hN
  have hlen := Polynomial.natDegree_X_pow_add_C (R := R) (n := N) (r := 1)
  have hne : (Polynomial.X ^ N + Polynomial.C 1 : Polynomial R) ≠ 1 := by
    intro hone
    rw [hone, Polynomial.natDegree_one] at hlen
    exact hN hlen.symm
  have hlt := Polynomial.natDegree_modByMonic_lt (poly N a * poly N b) hmonic hne
  rwa [hlen] at hlt

open Polynomial in
/-- At a root of `x ^ N + 1` the product takes the product of the values. -/
theorem product_eval [Nontrivial R] {N : Nat} (hN : N ≠ 0) (a b : Nat → R) {z : R}
    (hz : z ^ N = -1) :
    ∑ k ∈ range N, (product N a b).coeff k * z ^ k =
      (∑ i ∈ range N, a i * z ^ i) * ∑ i ∈ range N, b i * z ^ i := by
  have hdiv := modByMonic_add_div (poly N a * poly N b) (X ^ N + C 1 : R[X])
  have hroot : (X ^ N + C 1 : R[X]).eval z = 0 := by simp [hz]
  calc ∑ k ∈ range N, (product N a b).coeff k * z ^ k
      = (product N a b).eval z := (eval_eq_sum_range' (product_natDegree_lt hN a b) z).symm
    _ = (poly N a * poly N b).eval z := by
        have hval := congrArg (eval z) hdiv
        rw [eval_add, eval_mul, hroot, zero_mul, add_zero] at hval
        exact hval
    _ = (∑ i ∈ range N, a i * z ^ i) * ∑ i ∈ range N, b i * z ^ i := by
        rw [eval_mul, poly_eval, poly_eval]

end ShannonPrime.Radix2
