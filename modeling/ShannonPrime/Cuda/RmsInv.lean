import ShannonPrime.Islands.Reference

/-!
The reciprocal root of a row (`bx_rms_inv`) against that of the reference. The 128-bit
numerator is split there: the 22 low bits of the quotient are dropped, and the rest is
shifted in one 64-bit word.
-/

namespace ShannonPrime.Cuda

open Islands DigitRoot

/-- The machine's words. -/
def wrapped (n : Nat) : Option Nat := some (n % 2 ^ 64)

/-- The words of a run that does not overflow. -/
def checked64 (n : Nat) : Option Nat := if n < 2 ^ 64 then some n else none

/-- One turn of `bx_isqrt_u64`. -/
def bxIsqrtStep (word : Nat → Option Nat) (s : Isqrt) : Option Isqrt := do
  let sum ← word (s.x + s.b)
  if sum ≤ s.v then do
    let x ← word (s.x / 2 + s.b)
    some { v := s.v - sum, x := x, b := s.b / 4 }
  else some { v := s.v, x := s.x / 2, b := s.b / 4 }

def bxIsqrtLoop (word : Nat → Option Nat) : Nat → Isqrt → Option Nat
  | 0, _ => none
  | fuel + 1, s => if s.b ≠ 0 then (bxIsqrtStep word s).bind (bxIsqrtLoop word fuel) else some s.x

/-- `bx_isqrt_u64`, whose loops take at most 33 turns each. -/
def bxIsqrtU64 (word : Nat → Option Nat) (v : Nat) : Option Nat :=
  if v = 0 then some 0
  else do
    let b ← isqrtBit v 33 (2 ^ 62)
    bxIsqrtLoop word 33 { v := v, x := 0, b := b }

/-- `bx_rms_inv` -/
def bxRmsInv (word : Nat → Option Nat) (sumsq : Int) (n : Nat) : Option Nat :=
  if sumsq ≤ 0 then some 0
  else do
    let shifted ← word (n * 2 ^ 50)
    let val ← word (shifted / sumsq.toNat * 2 ^ 22)
    bxIsqrtU64 word val

/-- `inv` of `rmsnorm_q_ref`. -/
def rmsInvRef (sumsq : Int) (n : Nat) : Option Nat :=
  if sumsq ≤ 0 then some 0
  else isqrtU128 65 (n * 2 ^ 72 / sumsq.toNat)

/-- The sum of squares of an encoded row. -/
def sumsq (row : List Int) : Int := (row.map fun x => x * x).sum

/-- On this row no word overflows, and the result is within a relative `2 ^ -10` of the
reference. -/
def Faithful (row : List Int) : Prop :=
  sumsq row < 2 ^ 63 ∧ ∃ r ref, bxRmsInv checked64 (sumsq row) row.length = some r ∧
    bxRmsInv wrapped (sumsq row) row.length = some r ∧
    rmsInvRef (sumsq row) row.length = some ref ∧ 2 ^ 10 * |(r : Int) - ref| ≤ ref

/-- The quotient under the root. -/
def radicand (row : List Int) : Nat := row.length * 2 ^ 72 / (sumsq row).toNat

/-- The sum and both shifts fit a word, and without its low 22 bits the quotient still has a
root that is not a 1024th below its own. -/
structure Splits (row : List Int) : Prop where
  fits : sumsq row < 2 ^ 63
  short : row.length < 2 ^ 14
  large : 2 ^ 8 * row.length < sumsq row
  dropped : (Nat.sqrt (radicand row) - Nat.sqrt (radicand row) / 2 ^ 10) ^ 2 ≤
    radicand row - radicand row % 2 ^ 22

/-! The root of a word -/

section

variable {word : Nat → Option Nat} (hword : ∀ m, m < 4 ^ 32 → word m = some m)
include hword

/-- One turn takes one digit, and both sums fit. -/
theorem bxIsqrtStep_some {n j q : Nat} {s : Isqrt} (hn : n < 4 ^ 32) (hj : j < 32)
    (hb : s.b = 4 ^ j) (h : Partial n (j + 1) q s.v s.x) :
    ∃ s' q', bxIsqrtStep word s = some s' ∧ s'.b = 4 ^ j / 4 ∧ Partial n j q' s'.v s'.x := by
  have hsum := h.sum_lt hn hj
  have hfirst : word (s.x + s.b) = some (s.x + 4 ^ j) := by
    rw [hb]
    exact hword _ hsum
  rw [bxIsqrtStep, hfirst, Option.bind_eq_bind, Option.bind_some]
  rcases Nat.lt_or_ge s.v (s.x + 4 ^ j) with hlt | hle
  · rw [if_neg (by omega)]
    exact ⟨_, 2 * q, rfl, by rw [hb], h.zero hlt⟩
  · have hx : word (s.x / 2 + s.b) = some (s.x / 2 + 4 ^ j) := by
      rw [hb]
      exact hword _ (by omega)
    rw [if_pos hle, hx]
    exact ⟨_, 2 * q + 1, rfl, by rw [hb], h.one hle⟩

theorem bxIsqrtLoop_some {n q : Nat} (hn : n < 4 ^ 32) (fuel : Nat) {j : Nat} (hj : j ≤ 32)
    {s : Isqrt} (hb : s.b = 4 ^ j / 4) (h : Partial n j q s.v s.x) :
    ∃ r, bxIsqrtLoop word (fuel + (j + 1)) s = some r ∧ r * r ≤ n ∧ n < (r + 1) * (r + 1) := by
  induction j generalizing q s with
  | zero => exact ⟨s.x, if_neg (by simpa using hb), h.root⟩
  | succ j ih =>
      rw [quarter_pow] at hb
      obtain ⟨s', q', hstep, hb', h'⟩ := bxIsqrtStep_some hword hn (by omega) hb h
      obtain ⟨r, hrun, hroot⟩ := ih (by omega) hb' h'
      have hne : s.b ≠ 0 := by
        rw [hb]
        positivity
      refine ⟨r, ?_, hroot⟩
      rw [← Nat.add_assoc, bxIsqrtLoop, if_pos hne, hstep, Option.bind_some]
      exact hrun

/-- Both loops end, and their result is the floor of the root. -/
theorem bxIsqrtU64_eq {v : Nat} (hv : v < 4 ^ 32) : bxIsqrtU64 word v = some (Nat.sqrt v) := by
  rcases Nat.eq_zero_or_pos v with rfl | hpos
  · exact if_pos rfl
  · obtain ⟨k, hk, hlow, hbit⟩ := isqrtBit_some hpos 1 (j := 31) hv
    obtain ⟨r, hrun, hle, hlt⟩ := bxIsqrtLoop_some hword hv (31 - k) (j := k + 1) (by omega)
      (s := { v := v, x := 0, b := 4 ^ k }) (quarter_pow k).symm (Partial.start hlow)
    have hfuel : 31 - k + (k + 1 + 1) = 33 := by omega
    rw [hfuel] at hrun
    have hstart : isqrtBit v 33 (2 ^ 62) = some (4 ^ k) := hbit
    rw [bxIsqrtU64, if_neg (Nat.ne_of_gt hpos), hstart, Option.bind_eq_bind, Option.bind_some, hrun,
      Nat.eq_sqrt.mpr ⟨hle, hlt⟩]

end

theorem wrapped_eq {m : Nat} (h : m < 4 ^ 32) : wrapped m = some m :=
  congrArg some (Nat.mod_eq_of_lt h)

theorem checked64_eq {m : Nat} (h : m < 4 ^ 32) : checked64 m = some m := if_pos h

theorem isqrtU128_eq {v : Nat} (hv : v < 2 ^ 128) : isqrtU128 65 v = some (Nat.sqrt v) := by
  obtain ⟨r, hrun, hle, hlt⟩ := isqrtU128_root ⟨v, hv⟩ 0
  rw [← Nat.eq_sqrt.mpr ⟨hle, hlt⟩]
  exact hrun

theorem word_eq : (4 : Nat) ^ 32 = 2 ^ 64 := by norm_num

/-! The split -/

section

variable {s n : Nat}

/-- What the split shifts back is the quotient without its low bits. -/
theorem split_eq : n * 2 ^ 50 / s * 2 ^ 22 = n * 2 ^ 72 / s - n * 2 ^ 72 / s % 2 ^ 22 := by
  have hquotient : n * 2 ^ 72 / s / 2 ^ 22 = n * 2 ^ 50 / s := by
    have hwide : n * 2 ^ 72 = n * 2 ^ 50 * 2 ^ 22 := by ring
    rw [Nat.div_div_eq_div_mul, Nat.mul_comm s, ← Nat.div_div_eq_div_mul, hwide,
      Nat.mul_div_cancel _ (by omega)]
  rw [← hquotient]
  omega

/-- The quotient fits before its shift exactly for a large enough sum. -/
theorem split_lt_iff (hs : 0 < s) : n * 2 ^ 50 / s * 2 ^ 22 < 2 ^ 64 ↔ 2 ^ 8 * n < s := by
  have hquotient : n * 2 ^ 50 / s < 2 ^ 42 ↔ n * 2 ^ 50 < 2 ^ 42 * s := Nat.div_lt_iff_lt_mul hs
  omega

/-- Without overflow the words of the run are the numbers. -/
theorem bxRmsInv_eq {word : Nat → Option Nat} (hword : ∀ m, m < 4 ^ 32 → word m = some m)
    (hs : 0 < s) (hn : n < 2 ^ 14) (hlarge : 2 ^ 8 * n < s) :
    bxRmsInv word s n = some (Nat.sqrt (n * 2 ^ 50 / s * 2 ^ 22)) := by
  have hfirst : n * 2 ^ 50 < 4 ^ 32 := by
    rw [word_eq]
    omega
  have hsecond : n * 2 ^ 50 / s * 2 ^ 22 < 4 ^ 32 := by
    rw [word_eq]
    exact (split_lt_iff hs).mpr hlarge
  rw [bxRmsInv, if_neg (by omega), hword _ hfirst, Int.toNat_natCast]
  simp only [Option.bind_eq_bind, Option.bind_some]
  rw [hword _ hsecond, Option.bind_some]
  exact bxIsqrtU64_eq hword hsecond

/-- A run that gives a result without overflow had room for both shifts. -/
theorem bxRmsInv_checked {r : Nat} (hs : 0 < s) (h : bxRmsInv checked64 s n = some r) :
    n < 2 ^ 14 ∧ 2 ^ 8 * n < s := by
  rw [bxRmsInv, if_neg (by omega), Int.toNat_natCast] at h
  obtain ⟨shifted, hshifted, h⟩ := Option.bind_eq_some_iff.mp h
  obtain ⟨val, hval, -⟩ := Option.bind_eq_some_iff.mp h
  obtain ⟨hfirst, hfits⟩ := Option.ite_none_right_eq_some.mp hshifted
  obtain ⟨hsecond, -⟩ := Option.ite_none_right_eq_some.mp hval
  rw [← Option.some.inj hfits] at hsecond
  exact ⟨by omega, (split_lt_iff hs).mp hsecond⟩

theorem rmsInvRef_eq (hs : 0 < s) (hn : n < 2 ^ 31) :
    rmsInvRef s n = some (Nat.sqrt (n * 2 ^ 72 / s)) := by
  have hquotient : n * 2 ^ 72 / s < 2 ^ 128 := lt_of_le_of_lt (Nat.div_le_self _ _) (by omega)
  rw [rmsInvRef, if_neg (by omega), Int.toNat_natCast]
  exact isqrtU128_eq hquotient

end

/-- A root that is not a 1024th below another is one of a large enough number. -/
theorem near_iff {x y : Nat} (hy : y ≤ x) :
    2 ^ 10 * |((Nat.sqrt y : Nat) : Int) - (Nat.sqrt x : Nat)| ≤ (Nat.sqrt x : Nat) ↔
      (Nat.sqrt x - Nat.sqrt x / 2 ^ 10) ^ 2 ≤ y := by
  have hroot : Nat.sqrt y ≤ Nat.sqrt x := Nat.sqrt_le_sqrt hy
  have hgap : |((Nat.sqrt y : Nat) : Int) - (Nat.sqrt x : Nat)| = Nat.sqrt x - Nat.sqrt y := by
    rw [abs_of_nonpos (by omega)]
    omega
  rw [hgap, ← Nat.le_sqrt']
  generalize Nat.sqrt x = R at hroot ⊢
  generalize Nat.sqrt y = r at hroot ⊢
  omega

theorem faithful_of_splits {row : List Int} (hs : 0 < sumsq row) (h : Splits row) :
    Faithful row := by
  obtain ⟨hfits, hshort, hlarge, hdropped⟩ := h
  obtain ⟨s, hsum⟩ := Int.eq_ofNat_of_zero_le hs.le
  rw [hsum] at hs hlarge
  unfold radicand at hdropped
  rw [hsum, Int.toNat_natCast, ← split_eq] at hdropped
  refine ⟨hfits, ?_⟩
  rw [hsum]
  refine ⟨_, _, bxRmsInv_eq (fun m => checked64_eq) (by omega) hshort (by omega),
    bxRmsInv_eq (fun m => wrapped_eq) (by omega) hshort (by omega),
    rmsInvRef_eq (by omega) (by omega), (near_iff ?_).mpr hdropped⟩
  rw [split_eq]
  exact Nat.sub_le _ _

theorem splits_of_faithful {row : List Int} (hrow : row.length < 2 ^ 31) (hs : 0 < sumsq row)
    (h : Faithful row) : Splits row := by
  obtain ⟨hfits, r, ref, hrun, -, href, hnear⟩ := h
  obtain ⟨s, hsum⟩ := Int.eq_ofNat_of_zero_le hs.le
  rw [hsum] at hs hrun href
  have hpos : 0 < s := by omega
  obtain ⟨hshort, hlarge⟩ := bxRmsInv_checked hpos hrun
  have hr := (bxRmsInv_eq (fun m => checked64_eq) hpos hshort hlarge).symm.trans hrun
  have href' := (rmsInvRef_eq hpos hrow).symm.trans href
  obtain rfl := Option.some.inj hr
  obtain rfl := Option.some.inj href'
  have hle : row.length * 2 ^ 50 / s * 2 ^ 22 ≤ row.length * 2 ^ 72 / s := by
    rw [split_eq]
    exact Nat.sub_le _ _
  refine ⟨hfits, hshort, by omega, ?_⟩
  rw [radicand, hsum, Int.toNat_natCast, ← split_eq]
  exact (near_iff hle).mp hnear

/-- From `2 ^ 32` on the low bits of a number are too few to matter. -/
theorem dropped_small {x : Nat} (hx : 2 ^ 32 ≤ x) :
    (Nat.sqrt x - Nat.sqrt x / 2 ^ 10) ^ 2 ≤ x - x % 2 ^ 22 := by
  have hroot : 2 ^ 16 ≤ Nat.sqrt x := Nat.le_sqrt.mpr (le_trans (by omega) hx)
  have hsquare : Nat.sqrt x * Nat.sqrt x ≤ x := Nat.sqrt_le x
  generalize Nat.sqrt x = R at hroot hsquare ⊢
  have hlinear : R * 2 ^ 16 ≤ R * R := Nat.mul_le_mul_left R hroot
  have hcut : 2 ^ 10 * (R - R / 2 ^ 10) ≤ 1023 * (R + 1) := by omega
  have hscaled : 2 ^ 20 * (R - R / 2 ^ 10) ^ 2 ≤ 2 ^ 20 * (x - x % 2 ^ 22) := by
    calc 2 ^ 20 * (R - R / 2 ^ 10) ^ 2
        = (2 ^ 10 * (R - R / 2 ^ 10)) * (2 ^ 10 * (R - R / 2 ^ 10)) := by ring
      _ ≤ (1023 * (R + 1)) * (1023 * (R + 1)) := Nat.mul_le_mul hcut hcut
      _ = 1046529 * (R * R) + 2093058 * R + 1046529 := by ring
      _ ≤ 2 ^ 20 * (x - x % 2 ^ 22) := by omega
  exact Nat.le_of_mul_le_mul_left hscaled (by omega)

/-- Rows whose mean square lies between `2 ^ 8` and `2 ^ 40` all split. -/
theorem splits_of_mean {row : List Int} (hs : 0 < sumsq row) (hfits : sumsq row < 2 ^ 63)
    (hshort : row.length < 2 ^ 14) (hlarge : 2 ^ 8 * row.length < sumsq row)
    (hmean : sumsq row ≤ 2 ^ 40 * row.length) : Splits row := by
  refine ⟨hfits, hshort, hlarge, dropped_small ?_⟩
  have hpos : 0 < (sumsq row).toNat := by omega
  rw [radicand, Nat.le_div_iff_mul_le hpos]
  omega

/-- The split reciprocal root is faithful for exactly the rows that fit it. -/
theorem rms_inv_faithful_iff (row : List Int) (hrow : row.length < 2 ^ 31)
    (hs : 1 ≤ sumsq row) : Faithful row ↔ Splits row :=
  ⟨splits_of_faithful hrow hs, faithful_of_splits hs⟩

/-- One activation of one. -/
theorem rms_inv_faithful_one : Faithful [2 ^ 16] :=
  (rms_inv_faithful_iff [2 ^ 16] (by decide) (by decide)).mpr
    (splits_of_mean (by decide) (by decide) (by decide) (by decide) (by decide))

/-- A head row with one activation of a single step: the second shift loses every bit. -/
theorem rms_inv_zero :
    bxRmsInv wrapped (sumsq (1 :: List.replicate 255 0)) 256 = some 0 ∧
    rmsInvRef (sumsq (1 :: List.replicate 255 0)) 256 = some (2 ^ 40) ∧
    1 ≤ sumsq (1 :: List.replicate 255 0) ∧ ¬ Faithful (1 :: List.replicate 255 0) := by
  have hsum : sumsq (1 :: List.replicate 255 0) = 1 := by decide +kernel
  have hlength : (1 :: List.replicate 255 (0 : Int)).length = 256 := by decide +kernel
  rw [hsum]
  refine ⟨by decide, by decide, le_refl 1, fun h => ?_⟩
  have hlarge := (splits_of_faithful (by omega) (by omega) h).large
  omega

end ShannonPrime.Cuda
