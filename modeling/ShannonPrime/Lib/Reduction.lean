import Mathlib.Algebra.BigOperators.Group.Finset.Basic
import Mathlib.Algebra.BigOperators.Intervals

/-!
Sums as a block of threads makes them: every thread adds up a strided part of the terms,
and a tree of halvings leaves the total with thread 0. Addition is associative and
commutative here, so these are statements about exact arithmetic.
-/

namespace ShannonPrime.Reduction

variable {M : Type*} [AddCommMonoid M]

/-- `for (c = start; c < n; c += stride) acc += f(c)`, at most `fuel` rounds of it. -/
def strided (stride n : Nat) (f : Nat → M) : Nat → Nat → M → M
  | 0, _, acc => acc
  | fuel + 1, c, acc =>
      if c < n then strided stride n f fuel (c + stride) (acc + f c) else acc

/-- What thread `t` of `stride` threads adds up. Its loop ends within `n` rounds. -/
def lane (stride n : Nat) (f : Nat → M) (t : Nat) : M := strided stride n f n t 0

/-- A tree of `k` halvings, each with its own way of adding the upper half on. -/
def tree (step : Nat → (Nat → M) → Nat → M) : Nat → (Nat → M) → Nat → M
  | 0, v => v
  | k + 1, v => tree step k (step (2 ^ k) v)

theorem strided_eq {stride : Nat} (hstride : 0 < stride) (n : Nat) (f : Nat → M) (fuel start : Nat)
    (acc : M) (hfuel : n ≤ start + fuel) :
    strided stride n f fuel start acc =
      acc + ∑ c ∈ (Finset.range n).filter (fun c => start ≤ c ∧ c % stride = start % stride),
        f c := by
  induction fuel generalizing start acc with
  | zero =>
      have hnone : (Finset.range n).filter
          (fun c => start ≤ c ∧ c % stride = start % stride) = ∅ := by
        apply Finset.filter_eq_empty_iff.mpr
        intro c hc
        have := Finset.mem_range.mp hc
        omega
      simp [strided, hnone]
  | succ fuel ih =>
      unfold strided
      split
      case isFalse hend =>
        have hnone : (Finset.range n).filter
            (fun c => start ≤ c ∧ c % stride = start % stride) = ∅ := by
          apply Finset.filter_eq_empty_iff.mpr
          intro c hc
          have := Finset.mem_range.mp hc
          omega
        simp [hnone]
      case isTrue hlt =>
        rw [ih (start + stride) (acc + f start) (by omega)]
        have hsplit : (Finset.range n).filter
              (fun c => start ≤ c ∧ c % stride = start % stride) =
            insert start ((Finset.range n).filter
              (fun c => start + stride ≤ c ∧ c % stride = (start + stride) % stride)) := by
          ext c
          simp only [Finset.mem_filter, Finset.mem_range, Finset.mem_insert, Nat.add_mod_right]
          constructor
          · rintro ⟨hc, hle, hmod⟩
            rcases Nat.eq_or_lt_of_le hle with rfl | hafter
            · exact Or.inl rfl
            · refine Or.inr ⟨hc, ?_, hmod⟩
              have hdvd : stride ∣ c - start :=
                Nat.dvd_of_mod_eq_zero (Nat.sub_mod_eq_zero_of_mod_eq hmod)
              have := Nat.le_of_dvd (by omega) hdvd
              omega
          · rintro (rfl | ⟨hc, hle, hmod⟩)
            · exact ⟨hlt, Nat.le_refl _, rfl⟩
            · exact ⟨hc, by omega, hmod⟩
        have hfresh : start ∉ (Finset.range n).filter
            (fun c => start + stride ≤ c ∧ c % stride = (start + stride) % stride) := by
          simp only [Finset.mem_filter, not_and]
          omega
        rw [hsplit, Finset.sum_insert hfresh, add_assoc]

/-- The threads together add up all the terms. -/
theorem sum_lane {stride : Nat} (hstride : 0 < stride) (n : Nat) (f : Nat → M) :
    ∑ t ∈ Finset.range stride, lane stride n f t = ∑ c ∈ Finset.range n, f c := by
  have hlane : ∀ t ∈ Finset.range stride, lane stride n f t =
      ∑ c ∈ (Finset.range n).filter (fun c => c % stride = t), f c := by
    intro t ht
    have hmod : t % stride = t := Nat.mod_eq_of_lt (Finset.mem_range.mp ht)
    rw [lane, strided_eq hstride n f n t 0 (by omega), zero_add]
    apply Finset.sum_congr _ fun _ _ => rfl
    apply Finset.filter_congr
    intro c _
    rw [hmod]
    constructor
    · exact fun h => h.2
    · intro h
      exact ⟨h ▸ Nat.mod_le c stride, h⟩
  rw [Finset.sum_congr rfl hlane]
  apply Finset.sum_fiberwise_of_maps_to
  intro c _
  exact Finset.mem_range.mpr (Nat.mod_lt c hstride)

/-- A halving that adds the upper half on keeps the total. -/
theorem sum_halving {o : Nat} {v v' : Nat → M} (h : ∀ t < o, v' t = v t + v (t + o)) :
    ∑ t ∈ Finset.range o, v' t = ∑ t ∈ Finset.range (2 * o), v t := by
  rw [Nat.two_mul, Finset.sum_range_add, ← Finset.sum_add_distrib]
  apply Finset.sum_congr rfl
  intro t ht
  rw [h t (Finset.mem_range.mp ht), Nat.add_comm]

theorem tree_zero {step : Nat → (Nat → M) → Nat → M} (k : Nat) (v : Nat → M)
    (hstep : ∀ i < k, ∀ v t, t < 2 ^ i → step (2 ^ i) v t = v t + v (t + 2 ^ i)) :
    tree step k v 0 = ∑ t ∈ Finset.range (2 ^ k), v t := by
  induction k generalizing v with
  | zero => simp [tree]
  | succ k ih =>
      rw [tree, ih _ fun i hi => hstep i (by omega), Nat.pow_succ, Nat.mul_comm]
      exact sum_halving (hstep k (by omega) v)

/-- Terms taken in blocks of `m`. -/
theorem sum_blocks (m n : Nat) (f : Nat → M) :
    ∑ c ∈ Finset.range n, ∑ r ∈ Finset.range m, f (m * c + r) =
      ∑ i ∈ Finset.range (m * n), f i := by
  induction n with
  | zero => simp
  | succ n ih => rw [Finset.sum_range_succ, ih, Nat.mul_succ, Finset.sum_range_add]

end ShannonPrime.Reduction
