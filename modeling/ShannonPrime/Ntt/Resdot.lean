import Mathlib.Algebra.BigOperators.Intervals
import Mathlib.Algebra.Order.BigOperators.Group.Finset
import ShannonPrime.Lib.Traverse
import ShannonPrime.Ntt.Avx2

/-!
The keystore residue dot of the engine (`cpu_overlay.c`). Products of residues are added up
fifteen deep before they are reduced, in eight lanes and then in a scalar tail. An addition that
wraps a 64-bit word has no value here, so a result shows that none did.
-/

namespace ShannonPrime.Ntt.Resdot

open Avx2

/-- An addition of 64-bit words. -/
def add64 (x y : Nat) : Option Nat := if x + y < 2 ^ 64 then some (x + y) else none

/-- Lane `l` of `_mm256_loadu_si256` from element `i` on. -/
def loadu (a : Nat → Nat) (i l : Nat) : Nat := pack (a (i + 2 * l)) (a (i + 2 * l + 1))

/-- Lane `l` of an accumulator after `k` vectors from element `i` on; the odd elements come down
by a shift. -/
def lane (a b : Nat → Nat) (i k shift l : Nat) : Option Nat :=
  (List.range k).foldlM (fun acc c => add64 acc
    (mulEpu32 (loadu a (i + 8 * c) l >>> shift) (loadu b (i + 8 * c) l >>> shift))) 0

/-- `lanes`: four even ones, then four odd ones. -/
def chunkLanes (a b : Nat → Nat) (i k : Nat) : Option (List Nat) :=
  (List.range 8).mapM fun l => lane a b i k (l / 4 * 32) (l % 4)

/-- `acc = (acc + x % q) % q` -/
def fold (q acc x : Nat) : Option Nat := (add64 acc (x % q)).map (· % q)

/-- The end of a chunk of `step` elements; the addition is one of 32-bit words. -/
def chunkEnd (i step last : Nat) : Nat :=
  let lim := (i + step) % 2 ^ 32
  if lim > last then last else lim

def vecLoop (a b : Nat → Nat) (q vec_n : Nat) : Nat → Nat → Nat → Option (Nat × Nat)
  | 0, _, _ => none
  | fuel + 1, i, acc =>
    if i < vec_n then do
      let k := (chunkEnd i 120 vec_n - i + 7) / 8
      let lanes ← chunkLanes a b i k
      let acc ← lanes.foldlM (fold q) acc
      vecLoop a b q vec_n fuel (i + 8 * k) acc
    else some (i, acc)

def tailLoop (a b : Nat → Nat) (q n : Nat) : Nat → Nat → Nat → Option Nat
  | 0, _, _ => none
  | fuel + 1, i, acc =>
    if i < n then do
      let k := chunkEnd i 15 n - i
      let t ← (List.range k).foldlM (fun t c => add64 t (a (i + c) * b (i + c))) 0
      let acc ← fold q acc t
      tailLoop a b q n fuel (i + k) acc
    else some acc

/-- `sp_pr_resdot`; each of its loops has `fuel` rounds. -/
def sp_pr_resdot (fuel : Nat) (a b : Nat → Nat) (n q : Nat) : Option Nat := do
  let (i, acc) ← vecLoop a b q (n / 8 * 8) fuel 0 0
  let acc ← tailLoop a b q n fuel i acc
  some (acc % 2 ^ 32)

/-! ### The accumulators -/

theorem add64_of_lt {x y : Nat} (h : x + y < 2 ^ 64) : add64 x y = some (x + y) := if_pos h

/-- Fifteen products of residues fit a 64-bit word. -/
theorem sum_add64 {f : Nat → Nat} {k : Nat} (hk : k ≤ 15) (hf : ∀ c < k, f c ≤ (2 ^ 30 - 1) ^ 2) :
    (List.range k).foldlM (fun acc c => add64 acc (f c)) 0 = some (∑ c ∈ Finset.range k, f c) := by
  induction k with
  | zero => rfl
  | succ k ih =>
      have hprev := ih (by omega) fun c hc => hf c (by omega)
      have hsum : ∑ c ∈ Finset.range k, f c ≤ k * (2 ^ 30 - 1) ^ 2 := by
        calc ∑ c ∈ Finset.range k, f c ≤ ∑ _c ∈ Finset.range k, (2 ^ 30 - 1) ^ 2 :=
              Finset.sum_le_sum fun c hc => hf c (Nat.lt_succ_of_lt (Finset.mem_range.mp hc))
          _ = k * (2 ^ 30 - 1) ^ 2 := by rw [Finset.sum_const, Finset.card_range, smul_eq_mul]
      have hlast := hf k (Nat.lt_succ_self k)
      have hfits : ∑ c ∈ Finset.range k, f c + f k < 2 ^ 64 := by omega
      rw [List.range_succ, List.foldlM_append, hprev, Finset.sum_range_succ]
      exact congrArg (· >>= pure) (add64_of_lt hfits)

theorem pack_shift_mod {x y : Nat} (hx : x < 2 ^ 32) (hy : y < 2 ^ 32) :
    (pack x y >>> 0) % 2 ^ 32 = x ∧ (pack x y >>> 32) % 2 ^ 32 = y := by
  unfold pack
  constructor
  · rw [Nat.shiftRight_zero]
    omega
  · rw [Nat.shiftRight_eq_div_pow]
    omega

section Lanes

variable {a b : Nat → Nat} {n : Nat}

/-- A lane holds the products of its elements. -/
theorem lane_eq (ha : ∀ j < n, a j < 2 ^ 30) (hb : ∀ j < n, b j < 2 ^ 30) {i k l : Nat}
    (hk : k ≤ 15) (hl : l < 8) (hin : i + 8 * k ≤ n) :
    lane a b i k (l / 4 * 32) (l % 4) =
      some (∑ c ∈ Finset.range k, a (i + 8 * c + (2 * (l % 4) + l / 4)) *
        b (i + 8 * c + (2 * (l % 4) + l / 4))) := by
  have hword : ∀ {f : Nat → Nat}, (∀ j < n, f j < 2 ^ 30) → ∀ c < k,
      (loadu f (i + 8 * c) (l % 4) >>> (l / 4 * 32)) % 2 ^ 32 =
        f (i + 8 * c + (2 * (l % 4) + l / 4)) := by
    intro f hf c hc
    have hlow := hf (i + 8 * c + 2 * (l % 4)) (by omega)
    have hhigh := hf (i + 8 * c + 2 * (l % 4) + 1) (by omega)
    obtain ⟨heven, hodd⟩ := pack_shift_mod (x := f (i + 8 * c + 2 * (l % 4)))
      (y := f (i + 8 * c + 2 * (l % 4) + 1)) (by omega) (by omega)
    rcases (by omega : l / 4 = 0 ∨ l / 4 = 1) with hhalf | hhalf
    · rw [hhalf]
      exact heven
    · rw [hhalf]
      exact hodd
  have hproduct : ∀ c < k, mulEpu32 (loadu a (i + 8 * c) (l % 4) >>> (l / 4 * 32))
      (loadu b (i + 8 * c) (l % 4) >>> (l / 4 * 32)) =
        a (i + 8 * c + (2 * (l % 4) + l / 4)) * b (i + 8 * c + (2 * (l % 4) + l / 4)) := by
    intro c hc
    rw [mulEpu32, hword ha c hc, hword hb c hc]
  have hbound : ∀ c < k, mulEpu32 (loadu a (i + 8 * c) (l % 4) >>> (l / 4 * 32))
      (loadu b (i + 8 * c) (l % 4) >>> (l / 4 * 32)) ≤ (2 ^ 30 - 1) ^ 2 := by
    intro c hc
    have hax := ha (i + 8 * c + (2 * (l % 4) + l / 4)) (by omega)
    have hbx := hb (i + 8 * c + (2 * (l % 4) + l / 4)) (by omega)
    rw [hproduct c hc, pow_two]
    exact Nat.mul_le_mul (by omega) (by omega)
  rw [lane, sum_add64 hk hbound]
  exact congrArg some (Finset.sum_congr rfl fun c hc => hproduct c (Finset.mem_range.mp hc))

/-- The eight lanes share out the elements of a chunk. -/
theorem sum_lanes (f : Nat → Nat) (i k : Nat) :
    ((List.range 8).map fun l => ∑ c ∈ Finset.range k, f (i + 8 * c + (2 * (l % 4) + l / 4))).sum =
      ∑ j ∈ Finset.range (8 * k), f (i + j) := by
  induction k with
  | zero => rfl
  | succ k ih =>
      rw [show 8 * (k + 1) = 8 * k + 8 by omega, Finset.sum_range_add, ← ih]
      simp only [Finset.sum_range_succ, Finset.sum_range_zero, List.range, List.range.loop,
        List.map_cons, List.map_nil, List.sum_cons, List.sum_nil]
      simp only [Nat.add_assoc]
      norm_num
      ring

theorem chunkLanes_eq (ha : ∀ j < n, a j < 2 ^ 30) (hb : ∀ j < n, b j < 2 ^ 30) {i k : Nat}
    (hk : k ≤ 15) (hin : i + 8 * k ≤ n) :
    ∃ lanes, chunkLanes a b i k = some lanes ∧
      lanes.sum = ∑ j ∈ Finset.range (8 * k), a (i + j) * b (i + j) := by
  refine ⟨_, Traverse.mapM_eq_some fun l hl => lane_eq ha hb hk (List.mem_range.mp hl) hin, ?_⟩
  exact sum_lanes (fun j => a j * b j) i k

end Lanes

/-! ### The loops -/

section Loops

variable {a b : Nat → Nat} {n q : Nat}

theorem fold_eq {acc x : Nat} (hq : 0 < q) (hq' : q < 2 ^ 30) (hacc : acc < q) :
    fold q acc x = some ((acc + x) % q) := by
  have hx := Nat.mod_lt x hq
  rw [fold, add64_of_lt (by omega)]
  exact congrArg some (Nat.add_mod_mod acc x q)

theorem foldlM_fold {acc : Nat} (hq : 0 < q) (hq' : q < 2 ^ 30) (hacc : acc < q)
    (lanes : List Nat) : lanes.foldlM (fold q) acc = some ((acc + lanes.sum) % q) := by
  induction lanes generalizing acc with
  | nil =>
      rw [List.sum_nil, Nat.add_zero, Nat.mod_eq_of_lt hacc]
      rfl
  | cons x lanes ih =>
      rw [List.foldlM_cons, fold_eq hq hq' hacc]
      refine (ih (Nat.mod_lt _ hq)).trans ?_
      rw [Nat.mod_add_mod, List.sum_cons, Nat.add_assoc]

/-- The dot of the first `n` elements. -/
def dot (a b : Nat → Nat) (n : Nat) : Nat := ∑ i ∈ Finset.range n, a i * b i

theorem dot_add (a b : Nat → Nat) (i k : Nat) :
    dot a b (i + k) = dot a b i + ∑ j ∈ Finset.range k, a (i + j) * b (i + j) :=
  Finset.sum_range_add _ _ _

theorem chunkEnd_of_lt {i step last : Nat} (h : i + step < 2 ^ 32) :
    chunkEnd i step last = min (i + step) last := by
  rw [chunkEnd, Nat.mod_eq_of_lt h]
  split <;> omega

/-- The vectors before the last 16 elements of the address range are all taken. -/
theorem vecLoop_eq {vec_n : Nat} (hn : vec_n ≤ n) (ha : ∀ j < n, a j < 2 ^ 30)
    (hb : ∀ j < n, b j < 2 ^ 30) (hq : 0 < q) (hq' : q < 2 ^ 30) (hvec : vec_n % 8 = 0)
    (hend : vec_n ≤ 4294967280) (fuel : Nat) {i : Nat} (hi : i ≤ vec_n)
    (hstep : i % 120 = 0 ∨ i = vec_n) (hfuel : vec_n < i + fuel) :
    vecLoop a b q vec_n fuel i (dot a b i % q) = some (vec_n, dot a b vec_n % q) := by
  induction fuel generalizing i with
  | zero => omega
  | succ fuel ih =>
      rw [vecLoop]
      split
      case isFalse hdone =>
          have hsame : i = vec_n := by omega
          rw [hsame]
      case isTrue hmore =>
          have hlim : chunkEnd i 120 vec_n = min (i + 120) vec_n := chunkEnd_of_lt (by omega)
          obtain ⟨k, hk⟩ : ∃ k, (min (i + 120) vec_n - i + 7) / 8 = k := ⟨_, rfl⟩
          have hk8 : i + 8 * k = min (i + 120) vec_n := by omega
          obtain ⟨lanes, hlanes, hsum⟩ :=
            chunkLanes_eq ha hb (i := i) (k := k) (by omega) (by omega)
          have hfold : lanes.foldlM (fold q) (dot a b i % q) = some (dot a b (i + 8 * k) % q) := by
            rw [foldlM_fold hq hq' (Nat.mod_lt _ hq), Nat.mod_add_mod, hsum, dot_add]
          rw [hlim]
          dsimp only
          rw [hk, hlanes]
          simp only [Option.bind_eq_bind, Option.bind_some, hfold]
          exact ih (by omega) (by omega) (by omega)

/-- What is left after the vectors is one chunk at most. -/
theorem tailLoop_eq (ha : ∀ j < n, a j < 2 ^ 30) (hb : ∀ j < n, b j < 2 ^ 30) (hq : 0 < q)
    (hq' : q < 2 ^ 30) {i : Nat} (hi : i ≤ n) (hlast : n < i + 8) (hend : i ≤ 4294967280)
    {fuel : Nat} (hfuel : 2 ≤ fuel) :
    tailLoop a b q n fuel i (dot a b i % q) = some (dot a b n % q) := by
  obtain ⟨fuel, rfl⟩ := Nat.exists_eq_add_of_le' hfuel
  rw [tailLoop]
  split
  case isFalse hdone => rw [show i = n by omega]
  case isTrue =>
      have hlim : chunkEnd i 15 n = min (i + 15) n := chunkEnd_of_lt (by omega)
      have hk : min (i + 15) n - i = n - i := by omega
      have hproduct : ∀ c < n - i, a (i + c) * b (i + c) ≤ (2 ^ 30 - 1) ^ 2 := by
        intro c hc
        have hax := ha (i + c) (by omega)
        have hbx := hb (i + c) (by omega)
        rw [pow_two]
        exact Nat.mul_le_mul (by omega) (by omega)
      have hsum := sum_add64 (k := n - i) (by omega) hproduct
      have hdot : dot a b n = dot a b i + ∑ j ∈ Finset.range (n - i), a (i + j) * b (i + j) := by
        rw [← dot_add, Nat.add_sub_cancel' hi]
      rw [hlim]
      simp only [hk, hsum, Option.bind_eq_bind, Option.bind_some,
        fold_eq hq hq' (Nat.mod_lt _ hq), Nat.mod_add_mod, ← hdot, Nat.add_sub_cancel' hi]
      rw [tailLoop, if_neg (Nat.lt_irrefl n)]

/-- A chunk that would end past the address range ends at once, and is taken again. -/
theorem vecLoop_stuck (fuel : Nat) {i acc : Nat} (hstep : i % 120 = 0) (hi : i ≤ 4294967280) :
    vecLoop a b q 4294967288 fuel i acc = none := by
  induction fuel generalizing i acc with
  | zero => rfl
  | succ fuel ih =>
      have hnext : ∀ acc', vecLoop a b q 4294967288 fuel
          (i + 8 * ((chunkEnd i 120 4294967288 - i + 7) / 8)) acc' = none := by
        intro acc'
        rcases Nat.lt_or_ge (i + 120) (2 ^ 32) with hinside | hpast
        · rw [chunkEnd_of_lt hinside]
          exact ih (by omega) (by omega)
        · have hlim : chunkEnd i 120 4294967288 = i + 120 - 2 ^ 32 := by
            rw [chunkEnd, show (i + 120) % 2 ^ 32 = i + 120 - 2 ^ 32 by omega]
            exact if_neg (by omega)
          rw [hlim, show (i + 120 - 2 ^ 32 - i + 7) / 8 = 0 by omega]
          exact ih hstep hi
      rw [vecLoop, if_pos (by omega)]
      dsimp only
      cases chunkLanes a b i ((chunkEnd i 120 4294967288 - i + 7) / 8) with
      | none => rfl
      | some lanes =>
          cases hfold : lanes.foldlM (fold q) acc with
          | none => simp only [Option.bind_eq_bind, Option.bind_some, hfold, Option.bind_none]
          | some acc' => simp only [Option.bind_eq_bind, Option.bind_some, hfold, hnext]

end Loops

/-- The dot of residues, of any number of elements up to the last eight that a 32-bit length can
name; from there on the last chunk of vectors is never left. -/
theorem sp_pr_resdot_iff (a b : Nat → Nat) (n q : Nat) (hn : n < 2 ^ 32)
    (ha : ∀ i < n, a i < 2 ^ 30) (hb : ∀ i < n, b i < 2 ^ 30) (hq : 0 < q) (hq' : q < 2 ^ 30) :
    (∃ fuel, sp_pr_resdot fuel a b n q = some ((∑ i ∈ Finset.range n, a i * b i) % q)) ↔
      n < 2 ^ 32 - 8 := by
  constructor
  · rintro ⟨fuel, hrun⟩
    by_contra hlong
    have hvec : n / 8 * 8 = 4294967288 := by omega
    rw [sp_pr_resdot, hvec, vecLoop_stuck fuel (by omega) (by omega)] at hrun
    cases hrun
  · intro hshort
    refine ⟨n + 2, ?_⟩
    have hstart : (0 : Nat) = dot a b 0 % q := (Nat.zero_mod q).symm
    have hvec := vecLoop_eq (i := 0) (n := n) (show n / 8 * 8 ≤ n by omega) ha hb hq hq'
      (by omega) (by omega) (n + 2) (by omega) (by omega) (by omega)
    have htail := tailLoop_eq (i := n / 8 * 8) ha hb hq hq' (by omega) (by omega)
      (by omega) (show 2 ≤ n + 2 by omega)
    have hword : dot a b n % q < 2 ^ 32 := (Nat.mod_lt _ hq).trans (by omega)
    rw [← hstart] at hvec
    rw [sp_pr_resdot, hvec]
    simp only [Option.bind_eq_bind, Option.bind_some, htail, Nat.mod_eq_of_lt hword]
    rfl

theorem sp_pr_resdot_tail :
    (∃ fuel, sp_pr_resdot fuel (fun i => i) (fun _ => 2) 11 7 =
      some ((∑ i ∈ Finset.range 11, i * 2) % 7)) ↔ 11 < 2 ^ 32 - 8 :=
  sp_pr_resdot_iff _ _ 11 7 (by decide) (fun i hi => by omega) (fun _ _ => by decide) (by decide)
    (by decide)

/-- Zeros of the longest multiple of eight: no number of rounds ends the loop. -/
theorem longest_never_ends :
    ¬ ∃ fuel, sp_pr_resdot fuel (fun _ => 0) (fun _ => 0) 4294967288 1 = some 0 := by
  rintro ⟨fuel, hrun⟩
  rw [sp_pr_resdot, vecLoop_stuck fuel (by decide) (by decide)] at hrun
  cases hrun

end ShannonPrime.Ntt.Resdot
