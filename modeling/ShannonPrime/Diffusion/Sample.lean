import Mathlib.Algebra.Order.Field.Basic
import Mathlib.Analysis.SpecialFunctions.Log.Basic
import ShannonPrime.Lib.Argmax
import ShannonPrime.Lib.Crossing
import ShannonPrime.Lib.Reduction

/-!
`dg_sample_kernel`: the greatest logit of a row, the entropy, and a draw from the softmax, made
by a block of 256 threads. Arithmetic is exact. Between two barriers every thread reads what the
barrier left and writes cells of its own, so each step is a function of the shared arrays before
it.
-/

namespace ShannonPrime.Diffusion.Sample

open Crossing (crossing)

variable {K : Type} [Field K] [LinearOrder K]

def blockDim : Nat := 256

/-- The `__shared__` arrays. -/
structure Shared (K : Type) where
  sVal : Nat → K
  sSum : Nat → K
  sIdx : Nat → Int
  sTok : Int

/-- One stride of the halvings for the maximum. -/
def maxStep (stride : Nat) (s : Shared K) : Shared K where
  sVal t := if t < stride ∧ s.sVal t < s.sVal (t + stride) then s.sVal (t + stride) else s.sVal t
  sSum := s.sSum
  sIdx t := if t < stride ∧ s.sVal t < s.sVal (t + stride) then s.sIdx (t + stride) else s.sIdx t
  sTok := s.sTok

/-- One stride of the halvings for the two sums. -/
def sumStep (stride : Nat) (s : Shared K) : Shared K where
  sVal t := if t < stride then s.sVal t + s.sVal (t + stride) else s.sVal t
  sSum t := if t < stride then s.sSum t + s.sSum (t + stride) else s.sSum t
  sIdx := s.sIdx
  sTok := s.sTok

/-- The loop over `stride`, from `2 ^ (k - 1)` down to 1. -/
def halvings (step : Nat → Shared K → Shared K) : Nat → Shared K → Shared K
  | 0, s => s
  | k + 1, s => halvings step k (step (2 ^ k) s)

/-- `local_max` and `local_idx` -/
def localMax (x : Nat → K) (n t : Nat) : K × Nat :=
  Argmax.scan (fun best y => decide (best < y)) x n blockDim n t (-(34 * 10 ^ 37), 0)

def maxPhase (x : Nat → K) (n : Nat) (s : Shared K) : Shared K :=
  halvings maxStep 8
    { s with
      sVal := fun t => (localMax x n t).1
      sIdx := fun t => (localMax x n t).2 }

/-- `max_l` -/
def maxLogit (x : Nat → K) (n : Nat) (s : Shared K) : K := (maxPhase x n s).sVal 0

/-- `expf(d)` -/
def weight (exp : K → K) (x : Nat → K) (maxL : K) (v : Nat) : K := exp (x v - maxL)

/-- `Z` and `T` -/
def sumPhase (exp : K → K) (x : Nat → K) (n : Nat) (maxL : K) (s : Shared K) : Shared K :=
  halvings sumStep 8
    { s with
      sSum := fun t => Reduction.lane blockDim n (weight exp x maxL) t
      sVal := fun t => Reduction.lane blockDim n (fun v => (x v - maxL) * weight exp x maxL v) t }

def chunk (n : Nat) : Nat := (n + blockDim - 1) / blockDim

/-- `beg` -/
def sliceBeg (n t : Nat) : Nat := t * chunk n

/-- `end` -/
def sliceEnd (n t : Nat) : Nat := min (sliceBeg n t + chunk n) n

def sliceSum (w : Nat → K) (n t : Nat) : K :=
  (List.range' (sliceBeg n t) (sliceEnd n t - sliceBeg n t)).foldl (fun acc v => acc + w v) 0

/-- Thread 0 looks for the slice that crosses, and leaves its index and the sum before it. -/
def scanSlices (r : K) (n : Nat) (s : Shared K) : Shared K :=
  let s := { s with sTok := n - 1, sIdx := Function.update s.sIdx 0 (-1) }
  match crossing s.sSum r blockDim 0 0 with
  | some (i, pref) =>
      { s with
        sIdx := Function.update s.sIdx 0 i
        sVal := Function.update s.sVal 0 pref }
  | none => s

/-- A thread walks its slice if that is the one that crosses. -/
def walkSlice (w : Nat → K) (r : K) (n : Nat) (s : Shared K) (t : Nat) : Shared K :=
  if (t : Int) = s.sIdx 0 then
    match crossing w r (sliceEnd n t - sliceBeg n t) (sliceBeg n t) (s.sVal 0) with
    | some (v, _) => { s with sTok := v }
    | none => s
  else s

/-- What is written for a row. -/
structure Sampled (K : Type) where
  argmax : Int
  entropy : K
  sampled : Int

/-- The block of one row. The shared arrays hold anything at first. -/
def dgSampleKernel (exp log : K → K) (logits u : Nat → K) (nVocab : Nat) (invTemp : K)
    (s : Shared K) (row : Nat) : Sampled K :=
  let x := fun v => logits (row * nVocab + v) * invTemp
  let maxL := maxLogit x nVocab s
  let sums := sumPhase exp x nVocab maxL (maxPhase x nVocab s)
  let z := sums.sSum 0
  let t := sums.sVal 0
  let r := u row * z
  let w := weight exp x maxL
  let slices := { sums with sSum := sliceSum w nVocab }
  let drawn := (List.range blockDim).foldl (walkSlice w r nVocab) (scanSlices r nVocab slices)
  { argmax := (maxPhase x nVocab s).sIdx 0
    entropy := log z - t / z
    sampled := drawn.sTok }

/-- The weights of a row. -/
def rowWeight (exp : K → K) (logits : Nat → K) (n : Nat) (invTemp : K) (s : Shared K)
    (row : Nat) : Nat → K :=
  weight exp (fun v => logits (row * n + v) * invTemp)
    (maxLogit (fun v => logits (row * n + v) * invTemp) n s)

/-- The draw without slices: one walk over the row. -/
def serialDraw (w : Nat → K) (r : K) (n : Nat) : Int :=
  match crossing w r n 0 0 with
  | some (v, _) => v
  | none => n - 1

/-! The total -/

omit [LinearOrder K] in
theorem halvings_sum (k : Nat) (s : Shared K) :
    (halvings sumStep k s).sSum =
      Reduction.tree (fun o v t => if t < o then v t + v (t + o) else v t) k s.sSum := by
  induction k generalizing s with
  | zero => rfl
  | succ k ih => exact ih (sumStep (2 ^ k) s)

omit [LinearOrder K] in
/-- Thread 0 is left with the sum of all the weights. -/
theorem sumPhase_total (exp : K → K) (x : Nat → K) (n : Nat) (maxL : K) (s : Shared K) :
    (sumPhase exp x n maxL s).sSum 0 = ∑ v ∈ Finset.range n, weight exp x maxL v := by
  rw [sumPhase, halvings_sum, Reduction.tree_zero 8 _ fun i _ v t ht => if_pos ht]
  exact Reduction.sum_lane (by decide) n _

/-! The slices -/

/-- Where the slice of a thread begins, within the row. -/
def bound (n i : Nat) : Nat := min (i * chunk n) n

theorem bound_mono (n : Nat) : Monotone (bound n) := fun _ _ h =>
  min_le_min_right n (Nat.mul_le_mul_right _ h)

theorem chunk_pos {n : Nat} (hn : 1 ≤ n) : 0 < chunk n := by
  apply Nat.div_pos
  · unfold blockDim
    omega
  · decide

theorem bound_last (n : Nat) : bound n blockDim = n := by
  apply min_eq_right
  have hdiv := Nat.div_add_mod (n + blockDim - 1) blockDim
  have hmod := Nat.mod_lt (n + blockDim - 1) (show 0 < blockDim by decide)
  unfold chunk
  unfold blockDim at hdiv hmod ⊢
  omega

theorem sliceEnd_eq (n t : Nat) : sliceEnd n t = bound n (t + 1) := by
  rw [sliceEnd, bound, sliceBeg, Nat.succ_mul]

/-- A slice that begins beyond the row is empty. -/
theorem slice_within (n t : Nat) :
    sliceBeg n t = bound n t ∨ sliceEnd n t - sliceBeg n t = 0 ∧ bound n (t + 1) = bound n t := by
  unfold sliceEnd bound sliceBeg
  rw [Nat.succ_mul]
  omega

omit [LinearOrder K] in
theorem sliceSum_eq (w : Nat → K) (n t : Nat) :
    sliceSum w n t = ∑ k ∈ Finset.Ico (bound n t) (bound n (t + 1)), w k := by
  have hfold : ∀ (fuel i : Nat) (acc : K),
      (List.range' i fuel).foldl (fun acc v => acc + w v) acc =
        acc + ∑ k ∈ Finset.Ico i (i + fuel), w k := by
    intro fuel
    induction fuel with
    | zero =>
        intro i acc
        rw [Nat.add_zero, Finset.Ico_self, Finset.sum_empty, add_zero]
        rfl
    | succ fuel ih =>
        intro i acc
        rw [List.range'_succ, List.foldl_cons, ih, add_assoc,
          Finset.sum_eq_sum_Ico_succ_bot (by omega : i < i + (fuel + 1)),
          show i + 1 + fuel = i + (fuel + 1) by omega]
  rw [sliceSum, hfold, zero_add]
  rcases slice_within n t with hin | ⟨hempty, hsame⟩
  · rw [hin, sliceEnd_eq, Nat.add_sub_cancel' (bound_mono n (Nat.le_succ t))]
  · rw [hempty, hsame, Nat.add_zero, Finset.Ico_self, Finset.Ico_self]

/-- The walk of a slice is that within the row. -/
theorem crossing_slice (w : Nat → K) (r : K) (n t : Nat) (acc : K) :
    crossing w r (sliceEnd n t - sliceBeg n t) (sliceBeg n t) acc =
      crossing w r (bound n (t + 1) - bound n t) (bound n t) acc := by
  rcases slice_within n t with hin | ⟨hempty, hsame⟩
  · rw [hin, sliceEnd_eq]
  · rw [hempty, hsame, Nat.sub_self]
    rfl

/-! The draw -/

/-- Only the thread of the slice that crosses writes. -/
theorem walk_crossing {w : Nat → K} {r : K} {n i v : Nat} {s : Shared K} (last : K)
    (hi : i < blockDim) (hidx : s.sIdx 0 = i)
    (hwalk : crossing w r (sliceEnd n i - sliceBeg n i) (sliceBeg n i) (s.sVal 0) =
      some (v, last)) :
    ((List.range blockDim).foldl (walkSlice w r n) s).sTok = v := by
  have hloop : ∀ m, (List.range m).foldl (walkSlice w r n) s =
      if i < m then { s with sTok := v } else s := by
    intro m
    induction m with
    | zero => rfl
    | succ m ih =>
        rw [List.range_succ, List.foldl_append, ih, List.foldl_cons, List.foldl_nil]
        rcases Nat.lt_trichotomy i m with hbelow | rfl | habove
        · rw [if_pos hbelow, if_pos (by omega), walkSlice, if_neg]
          rw [hidx]
          omega
        · rw [if_neg (lt_irrefl i), if_pos (Nat.lt_succ_self i), walkSlice, if_pos hidx.symm, hwalk]
        · rw [if_neg (by omega), if_neg (by omega), walkSlice, if_neg]
          rw [hidx]
          omega
  rw [hloop, if_pos hi]

variable [IsStrictOrderedRing K]

/-- The slices of a row are drawn from as the row is. -/
theorem drawn_least {w : Nat → K} (hw : ∀ k, 0 ≤ w k) {r : K} {n : Nat} (hn : 1 ≤ n)
    (hr : r ≤ ∑ k ∈ Finset.range n, w k) (s : Shared K) :
    ∃ v : Nat, ((List.range blockDim).foldl (walkSlice w r n)
        (scanSlices r n { s with sSum := sliceSum w n })).sTok = v ∧
      IsLeast {v | r ≤ ∑ k ∈ Finset.range (v + 1), w k} v := by
  have hfirst : 0 < bound n 1 := by
    have := chunk_pos hn
    unfold bound
    omega
  have hstart : bound n 0 = 0 := by
    rw [bound, Nat.zero_mul]
    exact Nat.zero_min n
  have htotal : r ≤ ∑ k ∈ Finset.range (bound n blockDim), w k := by rwa [bound_last]
  obtain ⟨i, acc, v, last, hi, hscan, hwalk, hleast⟩ :=
    Crossing.two_levels (bound_mono n) hstart hfirst (sliceSum_eq w n) hw (by decide) htotal
  refine ⟨v, walk_crossing last hi ?_ ?_, hleast⟩
  · rw [scanSlices]
    simp only [hscan, Function.update_self]
  · rw [crossing_slice, scanSlices]
    simp only [hscan, Function.update_self]
    exact hwalk

omit [IsStrictOrderedRing K] in
theorem serialDraw_least {w : Nat → K} {r : K} {n v : Nat} (hr : r ≤ ∑ k ∈ Finset.range n, w k)
    (hn : 1 ≤ n) (hleast : IsLeast {v | r ≤ ∑ k ∈ Finset.range (v + 1), w k} v) :
    serialDraw w r n = v := by
  rcases Crossing.crossing_cases w r n 0 with ⟨-, hall⟩ | ⟨j, hsome, -, hj, hcross⟩
  · have hlast := hall (n - 1) (Nat.zero_le _) (by omega)
    rw [Nat.sub_add_cancel hn] at hlast
    exact absurd hr (not_le.mpr hlast)
  · have hjv : j = v := by
      refine IsLeast.unique ⟨hcross.reached, fun k hk => ?_⟩ hleast
      by_contra hlt
      exact absurd hk (not_le.mpr (hcross.before k (Nat.zero_le _) (not_le.mp hlt)))
    rw [Finset.sum_range_zero] at hsome
    rw [serialDraw, hsome, hjv]

/-- The block draws what one walk over the row draws: the first index whose cumulative weight
reaches `u` times the total. -/
theorem dgSampleKernel_draw {exp : K → K} (hexp : ∀ y, 0 < exp y) (log : K → K)
    (logits u : Nat → K) (n : Nat) (hn : 1 ≤ n) (invTemp : K) (s : Shared K) (row : Nat)
    (hu : u row ≤ 1) :
    ∃ v : Nat, v < n ∧ (dgSampleKernel exp log logits u n invTemp s row).sampled = v ∧
      IsLeast {v | u row * ∑ k ∈ Finset.range n, rowWeight exp logits n invTemp s row k ≤
        ∑ k ∈ Finset.range (v + 1), rowWeight exp logits n invTemp s row k} v ∧
      serialDraw (rowWeight exp logits n invTemp s row)
        (u row * ∑ k ∈ Finset.range n, rowWeight exp logits n invTemp s row k) n = v := by
  have hw : ∀ k, 0 ≤ rowWeight exp logits n invTemp s row k := fun k => (hexp _).le
  have hreach : u row * ∑ k ∈ Finset.range n, rowWeight exp logits n invTemp s row k ≤
      ∑ k ∈ Finset.range n, rowWeight exp logits n invTemp s row k :=
    mul_le_of_le_one_left (Finset.sum_nonneg fun k _ => hw k) hu
  obtain ⟨v, hdrawn, hleast⟩ := drawn_least hw hn hreach
    (sumPhase exp (fun v => logits (row * n + v) * invTemp) n
      (maxLogit (fun v => logits (row * n + v) * invTemp) n s)
      (maxPhase (fun v => logits (row * n + v) * invTemp) n s))
  have hlast : u row * ∑ k ∈ Finset.range n, rowWeight exp logits n invTemp s row k ≤
      ∑ k ∈ Finset.range (n - 1 + 1), rowWeight exp logits n invTemp s row k := by
    rw [Nat.sub_add_cancel hn]
    exact hreach
  have hvn : v ≤ n - 1 := hleast.2 hlast
  refine ⟨v, by omega, ?_, hleast, serialDraw_least hreach hn hleast⟩
  rw [dgSampleKernel]
  simp only [sumPhase_total]
  exact hdrawn

/-- Five equal logits, and the whole of the total. -/
theorem dgSampleKernel_draw_five : ∃ v : Nat, v < 5 ∧
    (dgSampleKernel Real.exp Real.log (fun _ => 0) (fun _ => 1) 5 1
      ⟨fun _ => 0, fun _ => 0, fun _ => 0, 0⟩ 0).sampled = v := by
  obtain ⟨v, hv, hdraw, -⟩ := dgSampleKernel_draw Real.exp_pos Real.log (fun _ => 0) (fun _ => 1) 5
    (by decide) 1 ⟨fun _ => 0, fun _ => 0, fun _ => 0, 0⟩ 0 (le_refl 1)
  exact ⟨v, hv, hdraw⟩

end ShannonPrime.Diffusion.Sample
