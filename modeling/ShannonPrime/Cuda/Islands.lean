import Mathlib.Algebra.Order.Ring.Abs
import Mathlib.Tactic.Ring
import ShannonPrime.Islands.Reference

/-!
The integer islands of the CUDA kernels. There is no 128-bit integer on the device: a wide
product is taken of the magnitudes, as two unsigned words, and shifted there.
-/

namespace ShannonPrime.Cuda

open Islands Word64

/-- `BX_ONE` -/
def bxOne : Int := 2 ^ 30

def bxLog2e : Int := 1549082005

def bxExpc (k : Nat) : Int :=
  [1073741824, 744261118, 257941248, 59597083, 10327387, 1431680, 165394].getD k 0

def bxExp2Frac (r : Int) : Option Int := horner bxExpc r

/-- The shift of the unsigned product rounds the quotient down. -/
def bxExpFixed (d : Int) : Option Int :=
  if 0 ≤ d then some bxOne
  else do
    let ad ← checked (-d)
    expOf bxExp2Frac (wrap (productShift 30 ad.toNat bxLog2e.toNat))

def bxTanhFixed (t : Int) : Option Int := tanhOf bxExpFixed t

def bxGk : Int := 856722024

def bxGa : Int := 48012366

/-- A sign is `-1` or `1`, also of zero. -/
def sgn (a : Int) : Int := if a < 0 then -1 else 1

/-- `(a * b) >> FB` on the magnitudes, with the sign put back. -/
def bxMulshiftFb (a b : Int) : Option Int := do
  let ua ← checked |a|
  let ub ← checked |b|
  checked (sgn a * sgn b * wrap (productShift 30 ua.toNat ub.toNat))

/-- `bx_gelu` from the encoded activation to the fixed-point result. -/
def bxGelu (xq : Int) : Option Int := do
  let bigX := wrap (xq * bxOne) / 2 ^ 16
  let x2 ← bxMulshiftFb bigX bigX
  let x3 ← bxMulshiftFb x2 bigX
  let cubic ← bxMulshiftFb bxGa x3
  let sum ← checked (bigX + cubic)
  let inner ← bxMulshiftFb bxGk sum
  let t ← bxTanhFixed inner
  let factor ← checked (bxOne + t)
  bxMulshiftFb (bigX / 2) factor

/-- `BX_ATAN_FB30` -/
def bxAtan (k : Nat) : Int :=
  [843314857, 497837829, 263043837, 133525159, 67021687, 33543516, 16775851, 8388437, 4194283,
    2097149, 1048576, 524288, 262144, 131072, 65536, 32768, 16384, 8192, 4096, 2048, 1024, 512,
    256, 128, 64, 32, 16, 8, 4, 2].getD k 0

def bxCordicK : Int := 652032874

def bxPiFb : Int := 3373259426

def bxHalfpiFb : Int := 1686629713

def bxTwopiFb : Int := 6746518852

def bxCordicCossin (theta : Int) : Option (Int × Int) := do
  let z ← wrapAngle bxPiFb bxTwopiFb theta
  let folded ← foldAngle bxPiFb bxHalfpiFb z
  rotate bxAtan bxCordicK folded

end ShannonPrime.Cuda

/-!
Where the integer islands of the kernels agree with the references. They round a negative
product the other way: the reference rounds the exponent up, the kernel down, and the
kernel's cubic is rounded towards zero. What lies behind the rounding is the same.
-/

namespace ShannonPrime.Cuda

open Islands Word64

/-! The exponential behind the rounding -/

theorem hornerStep_some (table : Nat → Int) (k : Nat) {r acc B : Int} (hr : 0 ≤ r ∧ r ≤ one)
    (hacc : 0 ≤ acc ∧ acc ≤ B) (hB : B ≤ 2 ^ 31) (hk : 0 ≤ table k ∧ table k ≤ 2 ^ 31) :
    ∃ next, hornerStep table r acc k = some next ∧ table k ≤ next ∧ next ≤ B + table k := by
  have hone : one = 2 ^ 30 := rfl
  have hnonneg : 0 ≤ acc * r := mul_nonneg hacc.1 hr.1
  have hle : acc * r ≤ B * one := mul_le_mul hacc.2 hr.2 hr.1 (hacc.1.trans hacc.2)
  have hfits : Fits (acc * r) := ⟨by omega, by rw [hone] at hle; omega⟩
  have hquot : acc * r / one ≤ B := Int.ediv_le_of_le_mul (by omega) hle
  have hquot' : 0 ≤ acc * r / one := Int.ediv_nonneg hnonneg (by omega)
  refine ⟨acc * r / one + table k, ?_, by omega, by omega⟩
  simp only [hornerStep, checked_of_fits hfits, Option.bind_eq_bind, Option.bind_some]
  exact checked_of_fits ⟨by omega, by omega⟩

/-- On a fraction of a power of two the polynomial stays between one and two. -/
theorem exp2Frac_some {r : Int} (hr : 0 ≤ r ∧ r ≤ one) :
    ∃ p, exp2Frac r = some p ∧ one ≤ p ∧ p < 2 ^ 31 := by
  obtain ⟨a5, h5, hlo5, hhi5⟩ := hornerStep_some expc 5 hr
    (show 0 ≤ expc 6 ∧ expc 6 ≤ expc 6 by decide) (by decide) ⟨by decide, by decide⟩
  obtain ⟨a4, h4, hlo4, hhi4⟩ := hornerStep_some expc 4 hr
    ⟨le_trans (by decide) hlo5, hhi5⟩ (by decide) ⟨by decide, by decide⟩
  obtain ⟨a3, h3, hlo3, hhi3⟩ := hornerStep_some expc 3 hr
    ⟨le_trans (by decide) hlo4, hhi4⟩ (by decide) ⟨by decide, by decide⟩
  obtain ⟨a2, h2, hlo2, hhi2⟩ := hornerStep_some expc 2 hr
    ⟨le_trans (by decide) hlo3, hhi3⟩ (by decide) ⟨by decide, by decide⟩
  obtain ⟨a1, h1, hlo1, hhi1⟩ := hornerStep_some expc 1 hr
    ⟨le_trans (by decide) hlo2, hhi2⟩ (by decide) ⟨by decide, by decide⟩
  obtain ⟨a0, h0, hlo0, hhi0⟩ := hornerStep_some expc 0 hr
    ⟨le_trans (by decide) hlo1, hhi1⟩ (by decide) ⟨by decide, by decide⟩
  refine ⟨a0, ?_, hlo0, lt_of_le_of_lt hhi0 (by decide)⟩
  simp only [exp2Frac, horner, List.foldlM_cons, List.foldlM_nil, h5, h4, h3, h2, h1, h0,
    Option.bind_eq_bind, Option.bind_some]
  rfl

theorem bxExp2Frac_eq : bxExp2Frac = exp2Frac := rfl

theorem scale_pos : 0 < one := by decide

theorem whole_nonneg {g : Int} (hg : 0 ≤ g) : 0 ≤ g / one := Int.ediv_nonneg hg scale_pos.le

theorem rest_bounds (g : Int) : 0 ≤ g % one ∧ g % one < one :=
  ⟨Int.emod_nonneg g scale_pos.ne', Int.emod_lt_of_pos g scale_pos⟩

theorem exp2Frac_rest (g : Int) :
    ∃ p, exp2Frac (one - g % one) = some p ∧ one ≤ p ∧ p < 2 ^ 31 := by
  have hrest := rest_bounds g
  exact exp2Frac_some ⟨by omega, by omega⟩

/-- The fraction that `expOf` takes out of its argument. -/
theorem expOf_rest {g : Int} (hg : 0 ≤ g) (hn : g / one < 32) :
    checked (g - wrap (g / one * one)) = some (g % one) := by
  have hone : one = 2 ^ 30 := rfl
  have hsplit := Int.emod_add_mul_ediv g one
  have hbounds := rest_bounds g
  have hcomm : one * (g / one) = g / one * one := mul_comm _ _
  have hquot := whole_nonneg hg
  have hcap : g / one * one ≤ 31 * one := mul_le_mul_of_nonneg_right (by omega) scale_pos.le
  have hwrap : wrap (g / one * one) = g / one * one := wrap_of_fits ⟨by omega, by omega⟩
  rw [hwrap]
  have hrest : g - g / one * one = g % one := by omega
  rw [hrest]
  exact checked_of_fits ⟨by omega, by omega⟩

theorem expOf_past {g : Int} (hn : 32 ≤ g / one) : expOf exp2Frac g = some 0 := by
  simp [expOf, hn]

theorem expOf_whole {g : Int} (hg : 0 ≤ g) (hn : g / one < 32) (hr : g % one = 0) :
    expOf exp2Frac g = some (one / 2 ^ (g / one).toNat) := by
  have hquot := whole_nonneg hg
  have hnot : ¬ 32 ≤ g / one := by omega
  simp only [expOf, if_neg hnot, expOf_rest hg hn, Option.bind_eq_bind, Option.bind_some, hr,
    ne_eq, not_true_eq_false, if_false]
  exact if_pos ⟨hquot, by omega⟩

theorem expOf_frac {g p : Int} (hg : 0 ≤ g) (hn : g / one < 32) (hr : g % one ≠ 0)
    (hp : exp2Frac (one - g % one) = some p) :
    expOf exp2Frac g = some (p / 2 ^ (g / one + 1).toNat) := by
  have hone : one = 2 ^ 30 := rfl
  have hquot := whole_nonneg hg
  have hbounds := rest_bounds g
  have hnot : ¬ 32 ≤ g / one := by omega
  have hrest : checked (one - g % one) = some (one - g % one) :=
    checked_of_fits ⟨by omega, by omega⟩
  simp only [expOf, if_neg hnot, expOf_rest hg hn, Option.bind_eq_bind, Option.bind_some, hr,
    ne_eq, not_false_eq_true, if_true, hrest, hp]
  exact if_pos ⟨by omega, by omega⟩

/-- The values lie between zero and one. -/
theorem expOf_some {g : Int} (hg : 0 ≤ g) : ∃ e, expOf exp2Frac g = some e ∧ 0 ≤ e ∧ e ≤ one := by
  have hquot := whole_nonneg hg
  rcases Int.lt_or_le (g / one) 32 with hn | hn
  · rcases eq_or_ne (g % one) 0 with hr | hr
    · refine ⟨_, expOf_whole hg hn hr, Int.ediv_nonneg scale_pos.le (by positivity), ?_⟩
      exact Int.ediv_le_self _ scale_pos.le
    · obtain ⟨p, hp, hlo, hhi⟩ := exp2Frac_rest g
      refine ⟨_, expOf_frac hg hn hr hp, ?_, ?_⟩
      · exact Int.ediv_nonneg (scale_pos.le.trans hlo) (by positivity)
      · have hone : one = 2 ^ 30 := rfl
        have hsucc : (g / one + 1).toNat = (g / one).toNat + 1 := by omega
        calc p / 2 ^ (g / one + 1).toNat = p / 2 / 2 ^ (g / one).toNat := by
              rw [hsucc, pow_succ', Int.ediv_ediv_of_nonneg (by decide)]
          _ ≤ p / 2 := Int.ediv_le_self _ (by omega)
          _ ≤ one := by omega
  · exact ⟨0, expOf_past hn, le_refl _, scale_pos.le⟩

/-! One step down the exponential -/

/-- The exponents `g` and `g + 1` give one value: both are past the smallest power, or the
polynomial at their fractions has one quotient. -/
def SameStep (g : Int) : Prop :=
  31 ≤ g / one ∨ g % one ≠ 0 ∧
    (exp2Frac (one - g % one)).map (· / 2 ^ (g / one + 1).toNat) =
      (exp2Frac (one - g % one - 1)).map (· / 2 ^ (g / one + 1).toNat)

/-- From exponent 31 on only zero is left. -/
theorem expOf_zero {g : Int} (hg : 0 ≤ g) (hn : 31 ≤ g / one) : expOf exp2Frac g = some 0 := by
  rcases Int.lt_or_le (g / one) 32 with hn' | hn'
  · have hexp : g / one = 31 := by omega
    rcases eq_or_ne (g % one) 0 with hr | hr
    · rw [expOf_whole hg hn' hr, hexp]
      rfl
    · obtain ⟨p, hp, hlo, hhi⟩ := exp2Frac_rest g
      rw [expOf_frac hg hn' hr hp, hexp]
      have hone : one = 2 ^ 30 := rfl
      have hsmall : p < 2 ^ (31 + 1 : Int).toNat := hhi.trans (by decide)
      exact congrArg some (Int.ediv_eq_zero_of_lt (by omega) hsmall)
  · exact expOf_past hn'

/-- What is below two comes out below the power that one gives. -/
theorem shift_short {q : Int} {n : Nat} (hq : q < 2 ^ 31) (hn : n ≤ 30) :
    q / 2 ^ (n + 1) < one / 2 ^ n := by
  have hsplit : (2 : Int) ^ 30 = 2 ^ (30 - n) * 2 ^ n := by
    rw [← pow_add, Nat.sub_add_cancel hn]
  have hone : one / 2 ^ n = 2 ^ (30 - n) := by
    rw [one, hsplit]
    exact Int.mul_ediv_cancel _ (by positivity)
  rw [hone]
  apply Int.ediv_lt_of_lt_mul (by positivity)
  calc q < 2 * 2 ^ 30 := hq
    _ = 2 ^ (30 - n) * 2 ^ (n + 1) := by rw [hsplit, pow_succ]; ring

/-- Short of the last power the next exponent takes the polynomial one below, also where it
begins the next power. -/
theorem expOf_next {g q : Int} (hg : 0 ≤ g) (hn : g / one < 31)
    (hq : exp2Frac (one - g % one - 1) = some q) :
    expOf exp2Frac (g + 1) = some (q / 2 ^ (g / one + 1).toNat) := by
  have hone : one = 2 ^ 30 := rfl
  rcases eq_or_ne (g % one) (one - 1) with hr | hr
  · have hmod : (g + 1) % one = 0 := by rw [hone] at hr ⊢; omega
    have hdiv : (g + 1) / one = g / one + 1 := by rw [hone] at hr ⊢; omega
    have hzero : exp2Frac (one - g % one - 1) = some one := by
      rw [hr]
      rfl
    rw [expOf_whole (by omega) (by omega) hmod, hdiv]
    rw [hzero] at hq
    cases hq
    rfl
  · have hmod : (g + 1) % one = g % one + 1 := by rw [hone] at hr ⊢; omega
    have hdiv : (g + 1) / one = g / one := by rw [hone] at hr ⊢; omega
    have hfrac : (g + 1) % one ≠ 0 := by
      have hbounds := rest_bounds g
      omega
    have hrest : one - (g + 1) % one = one - g % one - 1 := by omega
    rw [expOf_frac (by omega) (by omega) hfrac (by rw [hrest]; exact hq), hdiv]

theorem expOf_step_iff {g : Int} (hg : 0 ≤ g) :
    expOf exp2Frac (g + 1) = expOf exp2Frac g ↔ SameStep g := by
  have hone : one = 2 ^ 30 := rfl
  have hbounds := rest_bounds g
  have hquot := whole_nonneg hg
  unfold SameStep
  rcases Int.lt_or_le (g / one) 31 with hn | hn
  · have hn' : g / one < 32 := by omega
    have hsucc : (g / one + 1).toNat = (g / one).toNat + 1 := by omega
    obtain ⟨q, hq, hqlo, hqhi⟩ := exp2Frac_some (r := one - g % one - 1) ⟨by omega, by omega⟩
    have hnext := expOf_next hg hn hq
    rcases eq_or_ne (g % one) 0 with hr | hr
    · -- below a whole power the polynomial falls short of it
      refine iff_of_false ?_ ?_
      · rw [hnext, expOf_whole hg hn' hr, hsucc]
        intro heq
        exact absurd (Option.some.inj heq) (ne_of_lt (shift_short hqhi (by omega)))
      · rintro (h | ⟨h, -⟩)
        · omega
        · exact h hr
    · obtain ⟨p, hp, -, -⟩ := exp2Frac_rest g
      rw [hnext, expOf_frac hg hn' hr hp, hp, hq]
      constructor
      · exact fun heq => .inr ⟨hr, heq.symm⟩
      · rintro (h | ⟨-, heq⟩)
        · omega
        · exact heq.symm
  · have hnext : 31 ≤ (g + 1) / one := le_trans hn (Int.ediv_le_ediv scale_pos (by omega))
    rw [expOf_zero hg hn, expOf_zero (by omega) hnext]
    exact iff_of_true rfl (.inl hn)

/-! The two roundings of the exponent -/

theorem expOf_negative {g : Int} (hg : g / one + 1 < 0) : expOf exp2Frac g = none := by
  have hnot : ¬ 32 ≤ g / one := by omega
  have hn : shr one (g / one) = none := shr_of_neg (by omega)
  have hn' : ∀ p, shr p (g / one + 1) = none := fun p => shr_of_neg hg
  simp [expOf, hnot, hn, hn']

/-- Where the reference has a value its exponent fits the word. -/
theorem expFixed_exponent {d v : Int} (hd : Fits d) (hneg : d < 0) (h : expFixed d = some v) :
    -(d * log2e / one) < 2 ^ 63 := by
  by_contra hpast
  have hone : one = 2 ^ 30 := rfl
  have hlog : log2e = 1549082005 := rfl
  unfold Fits at hd
  have hwrap : wrap (-(d * log2e / one)) = -(d * log2e / one) - 2 ^ 64 :=
    wrap_of_past (by omega) (by rw [hlog, hone]; omega)
  have hnone : expFixed d = none := by
    rw [expFixed, if_neg (by omega), hwrap]
    apply expOf_negative
    rw [hlog, hone]
    omega
  rw [h] at hnone
  cases hnone

/-- `|d| * log2(e)`, rounded down. -/
def exponent (d : Int) : Int := -d * log2e / one

theorem one_dvd_iff (d : Int) : one ∣ d * log2e ↔ one ∣ d :=
  ⟨fun h => Int.dvd_of_dvd_mul_left_of_gcd_one h (by decide), fun h => dvd_mul_of_dvd_left h _⟩

theorem exponent_up (d : Int) :
    -(d * log2e / one) = if one ∣ d then exponent d else exponent d + 1 := by
  have hone : one = 2 ^ 30 := rfl
  have hneg : -d * log2e = -(d * log2e) := by ring
  unfold exponent
  rw [hneg]
  split
  case isTrue h =>
      have hdvd := (one_dvd_iff d).mpr h
      rw [hone] at hdvd ⊢
      omega
  case isFalse h =>
      have hdvd := mt (one_dvd_iff d).mp h
      rw [hone] at hdvd ⊢
      omega

theorem exponent_nonneg {d : Int} (hneg : d < 0) : 0 ≤ exponent d :=
  whole_nonneg (mul_nonneg (by omega) (by decide))

theorem expFixed_eq {d : Int} (hneg : d < 0) (hfit : -(d * log2e / one) < 2 ^ 63) :
    expFixed d = expOf exp2Frac (if one ∣ d then exponent d else exponent d + 1) := by
  have hup := exponent_up d
  have hnonneg := exponent_nonneg hneg
  have hfits : Fits (-(d * log2e / one)) := by
    constructor
    · rw [hup]
      split <;> omega
    · exact hfit
  rw [expFixed, if_neg (by omega), wrap_of_fits hfits, hup]

theorem roundedUp_nonneg {d : Int} (hneg : d < 0) :
    0 ≤ if one ∣ d then exponent d else exponent d + 1 := by
  have hnonneg := exponent_nonneg hneg
  split <;> omega

theorem expFixed_bounds {d e : Int} (hd : Fits d) (h : expFixed d = some e) :
    0 ≤ e ∧ e ≤ one := by
  rcases Int.lt_or_le d 0 with hneg | hpos
  · rw [expFixed_eq hneg (expFixed_exponent hd hneg h)] at h
    obtain ⟨e', he', hbound⟩ := expOf_some (roundedUp_nonneg hneg)
    rw [h] at he'
    cases he'
    exact hbound
  · rw [expFixed, if_pos hpos] at h
    cases h
    exact ⟨scale_pos.le, le_refl _⟩

theorem exponent_fits {d : Int} (hneg : d < 0) (hfit : -(d * log2e / one) < 2 ^ 63) :
    Fits (exponent d) := by
  have hnonneg := exponent_nonneg hneg
  have hup := exponent_up d
  constructor
  · omega
  · split at hup <;> omega

theorem neg_fits {d : Int} (hneg : d < 0) (hfit : -(d * log2e / one) < 2 ^ 63) : Fits (-d) := by
  have hone : one = 2 ^ 30 := rfl
  have hlog : log2e = 1549082005 := rfl
  rw [hlog, hone] at hfit
  constructor <;> omega

/-- The two words of the product, put together. -/
theorem bxExponent_eq {d : Int} (hneg : d < 0) (hfit : -(d * log2e / one) < 2 ^ 63) :
    (productShift 30 (-d).toNat bxLog2e.toNat : Int) = exponent d := by
  have hmag : ((-d).toNat : Int) = -d := Int.toNat_of_nonneg (by omega)
  have hlog : (bxLog2e.toNat : Int) = log2e := Int.toNat_of_nonneg (by decide)
  have hfits := exponent_fits hneg hfit
  have hquot : (((-d).toNat * bxLog2e.toNat / 2 ^ 30 : Nat) : Int) = exponent d := by
    rw [Int.natCast_ediv, Int.natCast_mul, hmag, hlog]
    rfl
  rw [productShift_of_lt (by decide), hquot]
  have hcast : (((-d).toNat * bxLog2e.toNat / 2 ^ 30 : Nat) : Int) < 2 ^ 63 := hquot ▸ hfits.2
  omega

theorem bxExpFixed_eq {d : Int} (hneg : d < 0) (hfit : -(d * log2e / one) < 2 ^ 63) :
    bxExpFixed d = expOf exp2Frac (exponent d) := by
  rw [bxExpFixed, if_neg (by omega), checked_of_fits (neg_fits hneg hfit)]
  rw [Option.bind_eq_bind, Option.bind_some, bxExponent_eq hneg hfit,
    wrap_of_fits (exponent_fits hneg hfit), bxExp2Frac_eq]

/-- Rounding the exponent up or down gives one value. -/
def ExpAgrees (d : Int) : Prop := 0 ≤ d ∨ one ∣ d ∨ SameStep (exponent d)

theorem bxExpFixed_agrees_iff {d v : Int} (hd : Fits d) (h : expFixed d = some v) :
    bxExpFixed d = some v ↔ ExpAgrees d := by
  rcases Int.lt_or_le d 0 with hneg | hnonneg
  · have hfit := expFixed_exponent hd hneg h
    rw [← h, bxExpFixed_eq hneg hfit, expFixed_eq hneg hfit]
    split
    case isTrue hdvd => exact iff_of_true rfl (.inr (.inl hdvd))
    case isFalse hdvd =>
        rw [eq_comm, expOf_step_iff (exponent_nonneg hneg)]
        simp [ExpAgrees, hdvd, not_le.mpr hneg]
  · rw [← h, bxExpFixed, expFixed, if_pos hnonneg, if_pos hnonneg]
    exact iff_of_true rfl (.inl hnonneg)

/-! The hyperbolic tangent -/

/-- What is left of one: `num / (ONE + e2)`. -/
def tanhQuot (e2 : Int) : Int := 2 * e2 * one / (one + e2)

/-- The tangent from the exponential `e2` on. -/
def tanhTail (t e2 : Int) : Int := (if 0 ≤ t then 1 else -1) * (one - tanhQuot e2)

theorem tanhQuot_bounds {e : Int} (he : 0 ≤ e ∧ e ≤ one) :
    0 ≤ tanhQuot e ∧ tanhQuot e ≤ one := by
  have hone : one = 2 ^ 30 := rfl
  unfold tanhQuot
  constructor
  · exact Int.ediv_nonneg (mul_nonneg (by omega) (by decide)) (by omega)
  · apply Int.ediv_le_of_le_mul (by omega)
    rw [hone] at he ⊢
    omega

theorem tanhTail_bounds {e : Int} (he : 0 ≤ e ∧ e ≤ one) (t : Int) :
    -one ≤ tanhTail t e ∧ tanhTail t e ≤ one := by
  obtain ⟨hlo, hhi⟩ := tanhQuot_bounds he
  unfold tanhTail
  split <;> omega

/-- The arguments of the tangent whose exponential is asked for. -/
def TanhDomain (t : Int) : Prop := Fits |t| ∧ Fits (2 * |t|) ∧ Fits (-(2 * |t|))

theorem tanhOf_domain {exp : Int → Option Int} {t v : Int} (h : tanhOf exp t = some v) :
    TanhDomain t ∧ ∃ e, exp (-(2 * |t|)) = some e := by
  simp only [tanhOf, Option.bind_eq_bind, Option.bind_eq_some_iff, checked_eq_some] at h
  obtain ⟨a, ⟨ha, rfl⟩, twice, ⟨htwice, rfl⟩, d, ⟨hd, rfl⟩, e2, he2, -⟩ := h
  exact ⟨⟨ha, htwice, hd⟩, e2, he2⟩

theorem tanhOf_eq {exp : Int → Option Int} {t e : Int} (ht : TanhDomain t)
    (he : exp (-(2 * |t|)) = some e) (hbound : 0 ≤ e ∧ e ≤ one) :
    tanhOf exp t = some (tanhTail t e) := by
  have hone : one = 2 ^ 30 := rfl
  obtain ⟨hlo, hhi⟩ := tanhTail_bounds hbound t
  obtain ⟨hlo', hhi'⟩ := tanhQuot_bounds hbound
  have hnum : wrap (2 * e * one) = 2 * e * one := wrap_of_fits (by rw [hone]; constructor <;> omega)
  have hquot : (2 * e * one).tdiv (one + e) = tanhQuot e :=
    Int.tdiv_eq_ediv_of_nonneg (mul_nonneg (by omega) (by decide))
  have hdouble : checked (2 * e) = some (2 * e) := checked_of_fits ⟨by omega, by omega⟩
  have hden : checked (one + e) = some (one + e) := checked_of_fits ⟨by omega, by omega⟩
  have hrest : checked (one - tanhQuot e) = some (one - tanhQuot e) :=
    checked_of_fits ⟨by omega, by omega⟩
  simp only [tanhOf, Option.bind_eq_bind, checked_of_fits ht.1, checked_of_fits ht.2.1,
    checked_of_fits ht.2.2, Option.bind_some, he, hdouble, hden, hnum, hquot, hrest]
  exact checked_of_fits ⟨by unfold tanhTail at hlo; omega, by unfold tanhTail at hhi; omega⟩

theorem tanhTail_inj (t : Int) {e e' : Int} :
    tanhTail t e = tanhTail t e' ↔ tanhQuot e = tanhQuot e' := by
  unfold tanhTail
  split <;> omega

/-- Rounding the exponent up or down gives one tangent. -/
def TanhAgrees (t : Int) : Prop :=
  one ∣ 2 * t ∨
    (expOf exp2Frac (exponent (-(2 * |t|)) + 1)).map tanhQuot =
      (expOf exp2Frac (exponent (-(2 * |t|)))).map tanhQuot

theorem bxTanhFixed_agrees_iff {t v : Int} (h : tanhFixed t = some v) :
    bxTanhFixed t = some v ↔ TanhAgrees t := by
  obtain ⟨hdomain, e, he⟩ := tanhOf_domain h
  rcases eq_or_ne t 0 with rfl | ht
  · have href : expFixed (-(2 * |0|)) = some one := by simp [expFixed]
    have hkernel : bxExpFixed (-(2 * |0|)) = some one := by simp [bxExpFixed, bxOne, one]
    have hbound : 0 ≤ one ∧ one ≤ one := ⟨by decide, le_refl _⟩
    rw [← h, tanhFixed, bxTanhFixed, tanhOf_eq hdomain href hbound,
      tanhOf_eq hdomain hkernel hbound]
    exact iff_of_true rfl (.inl (dvd_zero _))
  · have hneg : -(2 * |t|) < 0 := by
      have := abs_pos.mpr ht
      omega
    have hfit := expFixed_exponent hdomain.2.2 hneg he
    have hnonneg := exponent_nonneg hneg
    have hdvd : one ∣ -(2 * |t|) ↔ one ∣ 2 * t := by
      have hone : one = 2 ^ 30 := rfl
      rw [hone]
      rcases abs_choice t with habs | habs
      · rw [habs]
        omega
      · rw [habs]
        omega
    obtain ⟨up, hup, hupBound⟩ := expOf_some (g := exponent (-(2 * |t|)) + 1) (by omega)
    obtain ⟨down, hdown, hdownBound⟩ := expOf_some hnonneg
    have hkernel : bxTanhFixed t = some (tanhTail t down) :=
      tanhOf_eq hdomain ((bxExpFixed_eq hneg hfit).trans hdown) hdownBound
    have href := expFixed_eq hneg hfit
    unfold TanhAgrees
    rw [hup, hdown, ← h, hkernel]
    split at href
    case isTrue hwhole =>
        rw [tanhFixed, tanhOf_eq hdomain (href.trans hdown) hdownBound]
        exact iff_of_true rfl (.inl (hdvd.mp hwhole))
    case isFalse hwhole =>
        rw [tanhFixed, tanhOf_eq hdomain (href.trans hup) hupBound]
        simp [mt hdvd.mpr hwhole, tanhTail_inj, eq_comm]

/-- An argument so far below zero that its exponential is lost. -/
def Saturated (t : Int) : Prop := t < 0 ∧ 31 ≤ exponent (2 * t) / one

theorem Saturated.mono {t t' : Int} (h : Saturated t) (hle : t' ≤ t) : Saturated t' := by
  obtain ⟨hneg, hexp⟩ := h
  refine ⟨by omega, hexp.trans (Int.ediv_le_ediv scale_pos ?_)⟩
  apply Int.ediv_le_ediv scale_pos
  exact mul_le_mul_of_nonneg_right (by omega) (by decide)

theorem tanhTail_lost {t : Int} (h : t < 0) : tanhTail t 0 = -one := by
  rw [tanhTail, if_neg (by omega)]
  rfl

theorem saturated_eq {t : Int} (h : Saturated t) (hlo : -2 ^ 61 - 4 < t) :
    tanhFixed t = some (-one) ∧ bxTanhFixed t = some (-one) := by
  have hone : one = 2 ^ 30 := rfl
  have hlog : log2e = 1549082005 := rfl
  have habs : |t| = -t := abs_of_neg h.1
  have htwice : -(2 * |t|) = 2 * t := by omega
  have hbelow := h.1
  have hneg : -(2 * |t|) < 0 := by omega
  have hdomain : TanhDomain t := by
    refine ⟨⟨by omega, by omega⟩, ⟨by omega, by omega⟩, ⟨by omega, by omega⟩⟩
  have hfit : -(-(2 * |t|) * log2e / one) < 2 ^ 63 := by
    rw [htwice, hlog, hone]
    omega
  have hnonneg := exponent_nonneg hneg
  have hlost : 31 ≤ exponent (-(2 * |t|)) / one := by
    rw [htwice]
    exact h.2
  have hzero : 0 ≤ (0 : Int) ∧ 0 ≤ one := ⟨le_refl _, by decide⟩
  rw [← tanhTail_lost h.1]
  constructor
  · apply tanhOf_eq hdomain _ hzero
    rw [expFixed_eq hneg hfit]
    split
    case isTrue => exact expOf_zero hnonneg hlost
    case isFalse =>
        exact expOf_zero (by omega) (hlost.trans (Int.ediv_le_ediv scale_pos (by omega)))
  · apply tanhOf_eq hdomain _ hzero
    rw [bxExpFixed_eq hneg hfit]
    exact expOf_zero hnonneg hlost

/-! The activation -/

theorem sgn_mul_abs (a : Int) : sgn a * |a| = a := by
  unfold sgn
  split
  case isTrue h => rw [abs_of_neg h]; omega
  case isFalse h => rw [abs_of_nonneg (by omega)]; omega

theorem sgn_mul_sgn (a b : Int) : sgn a * sgn b = 1 ∨ sgn a * sgn b = -1 := by
  unfold sgn
  split <;> split <;> simp

/-- The product of the magnitudes rounds towards zero. -/
theorem bxMulshiftFb_eq {a b : Int} (ha : Fits |a|) (hb : Fits |b|) (hab : |a * b| < 2 ^ 93) :
    bxMulshiftFb a b = some ((a * b).tdiv one) := by
  have hone : one = 2 ^ 30 := rfl
  have hquot : ((|a|.toNat * |b|.toNat / 2 ^ 30 : Nat) : Int) = |a * b| / one := by
    rw [Int.natCast_ediv, Int.natCast_mul, Int.toNat_of_nonneg (abs_nonneg a),
      Int.toNat_of_nonneg (abs_nonneg b), ← abs_mul]
    rfl
  have hsmall : |a * b| / one < 2 ^ 63 := by
    rw [hone]
    omega
  have hlow : 0 ≤ |a * b| / one := whole_nonneg (abs_nonneg _)
  have hshift : (productShift 30 |a|.toNat |b|.toNat : Int) = |a * b| / one := by
    rw [productShift_of_lt (by decide), hquot]
    omega
  have hsign : sgn a * sgn b * (|a * b| / one) = (a * b).tdiv one := by
    have hmag : |a * b| / one = |a * b|.tdiv one :=
      (Int.tdiv_eq_ediv_of_nonneg (abs_nonneg _)).symm
    have hprod : a * b = sgn a * sgn b * |a * b| := by
      calc a * b = sgn a * |a| * (sgn b * |b|) := by rw [sgn_mul_abs, sgn_mul_abs]
        _ = sgn a * sgn b * |a * b| := by rw [abs_mul]; ring
    rw [hmag]
    rcases sgn_mul_sgn a b with hunit | hunit
    · rw [hunit, one_mul] at hprod ⊢
      rw [← hprod]
    · rw [hunit] at hprod ⊢
      rw [hprod, neg_one_mul, neg_one_mul, abs_neg, abs_abs, Int.neg_tdiv]
  have hfits : Fits ((a * b).tdiv one) := by
    rw [← hsign]
    rcases sgn_mul_sgn a b with hunit | hunit
    · rw [hunit]
      constructor <;> omega
    · rw [hunit]
      constructor <;> omega
  rw [bxMulshiftFb, checked_of_fits ha, checked_of_fits hb]
  rw [Option.bind_eq_bind, Option.bind_some, Option.bind_some, hshift,
    wrap_of_fits ⟨by omega, hsmall⟩, hsign]
  exact checked_of_fits hfits

theorem bxMulshiftFb_nonneg {a b : Int} (ha : 0 ≤ a ∧ a < 2 ^ 63) (hb : 0 ≤ b ∧ b < 2 ^ 63)
    (hab : a * b < 2 ^ 93) : bxMulshiftFb a b = some (a * b / one) := by
  have hprod : 0 ≤ a * b := mul_nonneg ha.1 hb.1
  rw [bxMulshiftFb_eq, Int.tdiv_eq_ediv_of_nonneg hprod]
  · rw [abs_of_nonneg ha.1]
    constructor <;> omega
  · rw [abs_of_nonneg hb.1]
    constructor <;> omega
  · rwa [abs_of_nonneg hprod]

theorem tdiv_near (a : Int) : a / one ≤ a.tdiv one ∧ a.tdiv one ≤ a / one + 1 := by
  have hone : one.sign = 1 := rfl
  rw [Int.tdiv_eq_ediv, hone]
  split <;> omega

/-- The reference's cubic term before its coefficient. -/
def geluCube (xq : Int) : Int := xq * 2 ^ 14 * (xq * 2 ^ 14) / one * (xq * 2 ^ 14) / one

/-- The argument of the reference's tangent. -/
def geluInner (xq : Int) : Int := gk * (xq * 2 ^ 14 + ga * geluCube xq / one) / one

/-- The kernel's words hold the cube, and either nothing is negative and the tangent agrees,
or the activation is so far below zero that nothing is left of it. -/
def GeluAgrees (xq : Int) : Prop :=
  -2 ^ 27 < xq ∧ xq < 2 ^ 27 ∧
    (0 ≤ xq ∧ TanhAgrees (geluInner xq) ∨ xq < 0 ∧ Saturated (geluInner xq + 3))

/-- The activation on the grid of the island, and its square. -/
theorem geluX_bounds {xq : Int} (hlo : -2 ^ 27 < xq) (hhi : xq < 2 ^ 27) :
    |xq * 2 ^ 14| < 2 ^ 41 ∧ 0 ≤ xq * 2 ^ 14 * (xq * 2 ^ 14) ∧
      xq * 2 ^ 14 * (xq * 2 ^ 14) < 2 ^ 82 := by
  have habs : |xq * 2 ^ 14| < 2 ^ 41 := abs_lt.mpr ⟨by omega, by omega⟩
  refine ⟨habs, mul_self_nonneg _, ?_⟩
  calc xq * 2 ^ 14 * (xq * 2 ^ 14) = |xq * 2 ^ 14| * |xq * 2 ^ 14| := (abs_mul_abs_self _).symm
    _ < 2 ^ 41 * 2 ^ 41 := mul_lt_mul'' habs habs (abs_nonneg _) (abs_nonneg _)
    _ = 2 ^ 82 := by norm_num

theorem geluSquare_bounds {xq : Int} (hlo : -2 ^ 27 < xq) (hhi : xq < 2 ^ 27) :
    0 ≤ xq * 2 ^ 14 * (xq * 2 ^ 14) / one ∧ xq * 2 ^ 14 * (xq * 2 ^ 14) / one < 2 ^ 52 := by
  obtain ⟨-, hsq, hsq'⟩ := geluX_bounds hlo hhi
  exact ⟨whole_nonneg hsq, Int.ediv_lt_of_lt_mul scale_pos (hsq'.trans_eq (by decide))⟩

/-- What the reference takes the second product of. -/
theorem geluCube_bound {xq : Int} (hlo : -2 ^ 27 < xq) (hhi : xq < 2 ^ 27) :
    |xq * 2 ^ 14 * (xq * 2 ^ 14) / one * (xq * 2 ^ 14)| < 2 ^ 93 := by
  have habs := (geluX_bounds hlo hhi).1
  obtain ⟨hnonneg, hlt⟩ := geluSquare_bounds hlo hhi
  have hx2 : |xq * 2 ^ 14 * (xq * 2 ^ 14) / one| < 2 ^ 52 := by
    rwa [abs_of_nonneg hnonneg]
  rw [abs_mul]
  calc |xq * 2 ^ 14 * (xq * 2 ^ 14) / one| * |xq * 2 ^ 14| < 2 ^ 52 * 2 ^ 41 :=
        mul_lt_mul'' hx2 habs (abs_nonneg _) (abs_nonneg _)
    _ = 2 ^ 93 := by norm_num

theorem geluQRef_cast {xq : Int} (hscaled : Fits (xq * one)) :
    geluQRef xq =
      (tanhFixed (wrap (geluInner xq))).map fun t => xq * 2 ^ 14 / 2 * (one + t) / one := by
  have hone : one = 2 ^ 30 := rfl
  have hx : xq * one / 2 ^ 16 = xq * 2 ^ 14 := by
    rw [hone]
    omega
  rw [geluQRef, checked_of_fits hscaled, Option.bind_eq_bind, Option.bind_some, hx]
  change (tanhFixed (wrap (geluInner xq))).bind _ = _
  rw [Option.map_eq_bind]
  rfl

theorem geluQRef_eq {xq : Int} (hlo : -2 ^ 27 < xq) (hhi : xq < 2 ^ 27)
    (hinner : Fits (geluInner xq)) :
    geluQRef xq = (tanhFixed (geluInner xq)).map fun t => xq * 2 ^ 14 / 2 * (one + t) / one := by
  have hone : one = 2 ^ 30 := rfl
  have hscaled : Fits (xq * one) := by
    rw [hone]
    constructor <;> omega
  rw [geluQRef_cast hscaled, wrap_of_fits hinner]

/-- The kernel's chain, given its products. -/
theorem bxGelu_eq {xq x2 x3 cubic inner t : Int} (hlo : -2 ^ 27 < xq) (hhi : xq < 2 ^ 27)
    (hx2 : bxMulshiftFb (xq * 2 ^ 14) (xq * 2 ^ 14) = some x2)
    (hx3 : bxMulshiftFb x2 (xq * 2 ^ 14) = some x3) (hcubic : bxMulshiftFb bxGa x3 = some cubic)
    (hsum : Fits (xq * 2 ^ 14 + cubic))
    (hinner : bxMulshiftFb bxGk (xq * 2 ^ 14 + cubic) = some inner)
    (ht : bxTanhFixed inner = some t) (hfactor : Fits (bxOne + t)) :
    bxGelu xq = bxMulshiftFb (xq * 2 ^ 14 / 2) (bxOne + t) := by
  have hone : bxOne = 2 ^ 30 := rfl
  have hx : wrap (xq * bxOne) / 2 ^ 16 = xq * 2 ^ 14 := by
    rw [wrap_of_fits (by rw [hone]; constructor <;> omega), hone]
    omega
  simp only [bxGelu, hx, hx2, hx3, hcubic, checked_of_fits hsum, hinner, ht,
    checked_of_fits hfactor, Option.bind_eq_bind, Option.bind_some]

theorem tanhFixed_bounds {t v : Int} (h : tanhFixed t = some v) : -one ≤ v ∧ v ≤ one := by
  obtain ⟨hdomain, e, he⟩ := tanhOf_domain h
  have hbound := expFixed_bounds hdomain.2.2 he
  rw [tanhFixed, tanhOf_eq hdomain he hbound] at h
  cases h
  exact tanhTail_bounds hbound t

/-- Without a negative product the kernel's chain is the reference's. -/
theorem bxGelu_nonneg {xq t : Int} (hlo : 0 ≤ xq) (hhi : xq < 2 ^ 27)
    (ht : tanhFixed (geluInner xq) = some t) (hagrees : TanhAgrees (geluInner xq)) :
    bxGelu xq = some (xq * 2 ^ 14 / 2 * (one + t) / one) := by
  have hone : one = 2 ^ 30 := rfl
  have hlo' : -2 ^ 27 < xq := by omega
  obtain ⟨-, hsq, hsq'⟩ := geluX_bounds hlo' hhi
  have hcube := geluCube_bound hlo' hhi
  obtain ⟨hx2, hx2'⟩ := geluSquare_bounds hlo' hhi
  have hprod : 0 ≤ xq * 2 ^ 14 * (xq * 2 ^ 14) / one * (xq * 2 ^ 14) :=
    mul_nonneg hx2 (by omega)
  rw [abs_of_nonneg hprod] at hcube
  have hx3 : 0 ≤ geluCube xq := whole_nonneg hprod
  have hx3' : geluCube xq < 2 ^ 63 := Int.ediv_lt_of_lt_mul scale_pos (hcube.trans_eq (by decide))
  have hga : ga = 48012366 := rfl
  have hgk : gk = 856722024 := rfl
  have hsquare : bxMulshiftFb (xq * 2 ^ 14) (xq * 2 ^ 14) =
      some (xq * 2 ^ 14 * (xq * 2 ^ 14) / one) :=
    bxMulshiftFb_nonneg ⟨by omega, by omega⟩ ⟨by omega, by omega⟩ (by omega)
  have hcube3 : bxMulshiftFb (xq * 2 ^ 14 * (xq * 2 ^ 14) / one) (xq * 2 ^ 14) =
      some (geluCube xq) :=
    bxMulshiftFb_nonneg ⟨hx2, by omega⟩ ⟨by omega, by omega⟩ hcube
  have hcubic : bxMulshiftFb ga (geluCube xq) = some (ga * geluCube xq / one) :=
    bxMulshiftFb_nonneg ⟨by decide, by decide⟩ ⟨hx3, hx3'⟩ (by rw [hga]; omega)
  have hterm : 0 ≤ ga * geluCube xq / one ∧ ga * geluCube xq / one < 2 ^ 59 := by
    rw [hga, hone]
    constructor <;> omega
  have hinner : bxMulshiftFb gk (xq * 2 ^ 14 + ga * geluCube xq / one) = some (geluInner xq) :=
    bxMulshiftFb_nonneg ⟨by decide, by decide⟩ ⟨by omega, by omega⟩ (by rw [hgk]; omega)
  have hbound := tanhFixed_bounds ht
  have hfactor : xq * 2 ^ 14 / 2 * (one + t) < 2 ^ 93 := by
    calc xq * 2 ^ 14 / 2 * (one + t) ≤ 2 ^ 40 * 2 ^ 31 := by
          apply mul_le_mul (by omega) (by omega) (by omega) (by decide)
      _ < 2 ^ 93 := by norm_num
  rw [bxGelu_eq hlo' hhi hsquare hcube3 hcubic ⟨by omega, by omega⟩ hinner
    ((bxTanhFixed_agrees_iff ht).mpr hagrees) (show Fits (one + t) from ⟨by omega, by omega⟩)]
  exact bxMulshiftFb_nonneg ⟨by omega, by omega⟩ (show 0 ≤ one + t ∧ one + t < 2 ^ 63 by omega)
    hfactor

theorem fits_abs {a : Int} (h : |a| < 2 ^ 63) : Fits |a| :=
  ⟨le_trans (by decide) (abs_nonneg a), h⟩

theorem tdiv_abs_lt {p : Int} (hp : |p| < 2 ^ 93) : |p.tdiv one| < 2 ^ 63 := by
  have hone : one = 2 ^ 30 := rfl
  have hsign : one.sign = 1 := rfl
  obtain ⟨hlo, hhi⟩ := abs_lt.mp hp
  rw [abs_lt, Int.tdiv_eq_ediv, hsign, hone]
  split
  case isTrue h => constructor <;> omega
  case isFalse h => constructor <;> omega

/-- From the cube on the kernel stays within three units of the reference. -/
theorem bxInner_near {X p : Int} (hX : |X| < 2 ^ 41) (hp : |p| < 2 ^ 93) :
    ∃ cubic inner, bxMulshiftFb ga (p.tdiv one) = some cubic ∧ Fits (X + cubic) ∧
      bxMulshiftFb gk (X + cubic) = some inner ∧ |inner| < 2 ^ 61 ∧
      gk * (X + ga * (p / one) / one) / one ≤ inner ∧
      inner ≤ gk * (X + ga * (p / one) / one) / one + 3 := by
  have hone : one = 2 ^ 30 := rfl
  have hga : ga = 48012366 := rfl
  have hgk : gk = 856722024 := rfl
  obtain ⟨hX', hX''⟩ := abs_lt.mp hX
  have hcube := tdiv_abs_lt hp
  have hcubeFits := fits_abs hcube
  obtain ⟨hnear, hnear'⟩ := tdiv_near p
  generalize p.tdiv one = x3 at hcube hcubeFits hnear hnear' ⊢
  obtain ⟨hcube', hcube''⟩ := abs_lt.mp hcube
  have hterm : |ga * x3| < 2 ^ 93 := by
    rw [abs_lt, hga]
    constructor <;> omega
  have hcubic := bxMulshiftFb_eq (by decide) hcubeFits hterm
  obtain ⟨hterm', hterm''⟩ := tdiv_near (ga * x3)
  generalize (ga * x3).tdiv one = cubic at hcubic hterm' hterm''
  rw [hga, hone] at hterm' hterm''
  rw [hone] at hnear hnear'
  have hsum : |X + cubic| < 2 ^ 60 := by
    rw [abs_lt]
    constructor <;> omega
  obtain ⟨hsum', hsum''⟩ := abs_lt.mp hsum
  have hprod : |gk * (X + cubic)| < 2 ^ 90 := by
    rw [abs_lt, hgk]
    constructor <;> omega
  have hinner := bxMulshiftFb_eq (by decide) (fits_abs (hsum.trans (by decide)))
    (hprod.trans (by decide))
  obtain ⟨hlast, hlast'⟩ := tdiv_near (gk * (X + cubic))
  obtain ⟨hprod', hprod''⟩ := abs_lt.mp hprod
  generalize (gk * (X + cubic)).tdiv one = inner at hinner hlast hlast'
  refine ⟨cubic, inner, hcubic, ⟨by omega, by omega⟩, hinner, ?_, ?_, ?_⟩
  all_goals
    rw [hgk, hone] at hlast hlast'
    rw [hgk] at hprod' hprod''
  · rw [abs_lt]
    constructor <;> omega
  · rw [hgk, hga, hone]
    omega
  · rw [hgk, hga, hone]
    omega

/-- Far below zero the kernel's chain stays within three units of the reference's, and both
come to nothing. -/
theorem bxGelu_saturated {xq : Int} (hlo : -2 ^ 27 < xq) (hneg : xq < 0)
    (hsat : Saturated (geluInner xq + 3)) : bxGelu xq = some 0 := by
  have hone : one = 2 ^ 30 := rfl
  have hhi : xq < 2 ^ 27 := by omega
  obtain ⟨habs, hsq, hsq'⟩ := geluX_bounds hlo hhi
  have hcube := geluCube_bound hlo hhi
  obtain ⟨hx2, hx2'⟩ := geluSquare_bounds hlo hhi
  have hX : Fits |xq * 2 ^ 14| := fits_abs (habs.trans (by decide))
  have hsquare : bxMulshiftFb (xq * 2 ^ 14) (xq * 2 ^ 14) =
      some (xq * 2 ^ 14 * (xq * 2 ^ 14) / one) := by
    rw [bxMulshiftFb_eq hX hX (by rw [abs_of_nonneg hsq]; omega),
      Int.tdiv_eq_ediv_of_nonneg hsq]
  have hx2Fits : Fits |xq * 2 ^ 14 * (xq * 2 ^ 14) / one| := by
    apply fits_abs
    rw [abs_of_nonneg hx2]
    omega
  have hcube3 := bxMulshiftFb_eq hx2Fits hX hcube
  obtain ⟨cubic, inner, hcubic, hsum, hinner, hsmall, -, hnear⟩ := bxInner_near habs hcube
  have hlost := saturated_eq (hsat.mono hnear) (by have := (abs_lt.mp hsmall).1; omega)
  rw [bxGelu_eq hlo hhi hsquare hcube3 hcubic hsum hinner hlost.2 (by decide)]
  have hnothing : bxOne + -one = 0 := rfl
  rw [hnothing, bxMulshiftFb_eq, mul_zero]
  · rfl
  · apply fits_abs
    rw [abs_lt] at habs ⊢
    omega
  · decide
  · simp

theorem geluInner_bounds {xq : Int} (hlo : -2 ^ 27 < xq) (hhi : xq < 2 ^ 27) :
    -2 ^ 61 - 4 < geluInner xq ∧ geluInner xq < 2 ^ 61 := by
  obtain ⟨-, inner, -, -, -, hsmall, hnear, hnear'⟩ :=
    bxInner_near (geluX_bounds hlo hhi).1 (geluCube_bound hlo hhi)
  obtain ⟨hsmall', hsmall''⟩ := abs_lt.mp hsmall
  change geluInner xq ≤ inner at hnear
  change inner ≤ geluInner xq + 3 at hnear'
  constructor <;> omega

theorem bxGelu_agrees {xq v : Int} (h : geluQRef xq = some v) (hagrees : GeluAgrees xq) :
    bxGelu xq = some v := by
  obtain ⟨hlo, hhi, hcase⟩ := hagrees
  obtain ⟨hlow, hhigh⟩ := geluInner_bounds hlo hhi
  rw [geluQRef_eq hlo hhi ⟨by omega, by omega⟩] at h
  obtain ⟨t, ht, hv⟩ := Option.map_eq_some_iff.mp h
  rw [← hv]
  rcases hcase with ⟨hnonneg, htanh⟩ | ⟨hneg, hsat⟩
  · exact bxGelu_nonneg hnonneg hhi ht htanh
  · have hlost := (saturated_eq (hsat.mono (by omega)) hlow).1
    rw [hlost] at ht
    cases ht
    rw [bxGelu_saturated hlo hneg hsat]
    simp

theorem bxCordicCossin_eq : bxCordicCossin = cordicCossin := rfl

end ShannonPrime.Cuda
