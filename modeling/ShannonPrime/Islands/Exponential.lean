import Mathlib.Data.List.Forall2
import ShannonPrime.Cuda.ExpMonotone
import ShannonPrime.Lib.Traverse

/-!
The reference's exponential over its whole argument type. Down to one far argument it is
monotone and stays in the unit interval; past it the exponent no longer fits the word it is
cast to, comes out negative and asks for a shift that does not exist.
-/

namespace ShannonPrime.Islands

open Word64 Cuda

/-- The last argument whose exponent fits. -/
def expFloor : Int := -6393154321280132744

theorem expFloor_le_iff (d : Int) : expFloor ≤ d ↔ -(d * log2e / one) < 2 ^ 63 := by
  have hone : one = 2 ^ 30 := rfl
  have hlog : log2e = 1549082005 := rfl
  have hfloor : expFloor = -6393154321280132744 := rfl
  rw [hone, hlog, hfloor]
  omega

/-- The exponent as the reference rounds it. -/
theorem expFixed_exponentUp {d : Int} (hneg : d < 0) (hlo : expFloor ≤ d) :
    expFixed d = expOf exp2Frac (-(d * log2e / one)) := by
  rw [exponent_up]
  exact expFixed_eq hneg ((expFloor_le_iff d).mp hlo)

theorem exponentUp_nonneg {d : Int} (hneg : d < 0) : 0 ≤ -(d * log2e / one) := by
  rw [exponent_up]
  exact roundedUp_nonneg hneg

theorem expFixed_some {d : Int} (hlo : expFloor ≤ d) :
    ∃ e, expFixed d = some e ∧ 0 ≤ e ∧ e ≤ one := by
  rcases Int.lt_or_le d 0 with hneg | hpos
  · rw [expFixed_exponentUp hneg hlo]
    exact expOf_some (exponentUp_nonneg hneg)
  · exact ⟨one, if_pos hpos, by decide, le_refl _⟩

theorem expFixed_zero : expFixed 0 = some one := rfl

/-- Rounding the product keeps the order of the exponents, and the seams between the powers
of two keep the order of the values. -/
theorem expFixed_mono {d d' e e' : Int} (hlo : expFloor ≤ d) (hle : d ≤ d')
    (he : expFixed d = some e) (he' : expFixed d' = some e') : e ≤ e' := by
  rcases Int.lt_or_le d' 0 with hneg' | hpos'
  · have hneg : d < 0 := by omega
    have hexp : -(d' * log2e / one) ≤ -(d * log2e / one) :=
      neg_le_neg (Int.ediv_le_ediv (by decide) (mul_le_mul_of_nonneg_right hle (by decide)))
    rw [expFixed_exponentUp hneg hlo] at he
    rw [expFixed_exponentUp hneg' (hlo.trans hle)] at he'
    exact expOf_anti (exponentUp_nonneg hneg') hexp he' he
  · obtain ⟨e₀, he₀, -, htop⟩ := expFixed_some hlo
    rw [he] at he₀
    cases he₀
    rw [expFixed, if_pos hpos'] at he'
    cases he'
    exact htop

theorem expFixed_floor {d e : Int} (hd : Fits d) (h : expFixed d = some e) : expFloor ≤ d := by
  rcases Int.lt_or_le d 0 with hneg | hpos
  · exact (expFloor_le_iff d).mpr (expFixed_exponent hd hneg h)
  · have hfloor : expFloor < 0 := by decide
    omega

/-- The product with `log2(e)` fits its 128 bits for every argument; what decides is the word
that the exponent is cast to. -/
theorem expFixed_law_iff {d₁ d₂ : Int} (hd : Fits d₁) (hle : d₁ ≤ d₂) :
    (∃ e₁ e₂, expFixed d₁ = some e₁ ∧ expFixed d₂ = some e₂ ∧
      (0 ≤ e₁ ∧ e₁ ≤ one) ∧ (0 ≤ e₂ ∧ e₂ ≤ one) ∧ e₁ ≤ e₂) ↔ expFloor ≤ d₁ := by
  constructor
  · rintro ⟨e₁, e₂, he₁, -⟩
    exact expFixed_floor hd he₁
  · intro hlo
    obtain ⟨e₁, he₁, hbound₁⟩ := expFixed_some hlo
    obtain ⟨e₂, he₂, hbound₂⟩ := expFixed_some (hlo.trans hle)
    exact ⟨e₁, e₂, he₁, he₂, hbound₁, hbound₂, expFixed_mono hlo hle he₁ he₂⟩

theorem expFixed_law_half : expFloor ≤ -2 ^ 62 ∧
    ∃ e₁ e₂, expFixed (-2 ^ 62) = some e₁ ∧ expFixed (-1) = some e₂ ∧
      (0 ≤ e₁ ∧ e₁ ≤ one) ∧ (0 ≤ e₂ ∧ e₂ ≤ one) ∧ e₁ ≤ e₂ :=
  ⟨by decide, (expFixed_law_iff (by decide) (by decide)).mpr (by decide)⟩

/-- The least argument: its product is far inside 128 bits, and there is no value. -/
theorem expFixed_least : Fits (-2 ^ 63) ∧ -2 ^ 127 ≤ -2 ^ 63 * log2e ∧ -2 ^ 63 * log2e < 2 ^ 127 ∧
    expFixed (-2 ^ 63) = none := by
  decide

end ShannonPrime.Islands

/-!
The numerators of the softmax keep the order of the logits, as long as no two logits are more
than `2 ^ 33` apart. The exponential could take any such gap; the product that scales the gap
is taken in the word and cannot.
-/

namespace ShannonPrime.Islands

open Word64 Traverse

theorem softmaxNumerator_eq_some {m zz e : Int} :
    softmaxNumerator m zz = some e ↔
      Fits (zz - m) ∧ Fits ((zz - m) * one) ∧ expFixed ((zz - m) * 2 ^ 16) = some e := by
  have hscale : (zz - m) * one / 2 ^ 14 = (zz - m) * 2 ^ 16 := by
    have hone : one = 2 ^ 30 := rfl
    rw [hone]
    omega
  simp only [softmaxNumerator, Option.bind_eq_bind, Option.bind_eq_some_iff, checked_eq_some]
  constructor
  · rintro ⟨gap, ⟨hgap, rfl⟩, scaled, ⟨hscaled, rfl⟩, he⟩
    rw [hscale] at he
    exact ⟨hgap, hscaled, he⟩
  · rintro ⟨hgap, hscaled, he⟩
    rw [← hscale] at he
    exact ⟨_, ⟨hgap, rfl⟩, _, ⟨hscaled, rfl⟩, he⟩

/-- The scaling is what bounds the gap. -/
theorem gap_fits_iff {m zz : Int} (hle : zz ≤ m) :
    Fits (zz - m) ∧ Fits ((zz - m) * one) ↔ m - zz ≤ 2 ^ 33 := by
  have hone : one = 2 ^ 30 := rfl
  rw [hone]
  unfold Fits
  omega

theorem scaled_gap_floor {m zz : Int} (hgap : m - zz ≤ 2 ^ 33) :
    expFloor ≤ (zz - m) * 2 ^ 16 := by
  have hfloor : expFloor = -6393154321280132744 := rfl
  rw [hfloor]
  omega

theorem softmaxNumerator_iff {m zz : Int} (hle : zz ≤ m) :
    (∃ e, softmaxNumerator m zz = some e ∧ 0 ≤ e ∧ e ≤ one) ↔ m - zz ≤ 2 ^ 33 := by
  rw [← gap_fits_iff hle]
  constructor
  · rintro ⟨e, he, -⟩
    obtain ⟨hgap, hscaled, -⟩ := softmaxNumerator_eq_some.mp he
    exact ⟨hgap, hscaled⟩
  · rintro ⟨hgap, hscaled⟩
    have hlow := scaled_gap_floor ((gap_fits_iff hle).mp ⟨hgap, hscaled⟩)
    obtain ⟨e, he, hunit⟩ := expFixed_some hlow
    exact ⟨e, softmaxNumerator_eq_some.mpr ⟨hgap, hscaled, he⟩, hunit⟩

theorem softmaxNumerator_mono {m zz zz' e e' : Int} (hle : zz ≤ zz') (htop : zz' ≤ m)
    (he : softmaxNumerator m zz = some e) (he' : softmaxNumerator m zz' = some e') : e ≤ e' := by
  obtain ⟨hgap, hscaled, he⟩ := softmaxNumerator_eq_some.mp he
  obtain ⟨-, -, he'⟩ := softmaxNumerator_eq_some.mp he'
  have hlow := scaled_gap_floor ((gap_fits_iff (hle.trans htop)).mp ⟨hgap, hscaled⟩)
  exact expFixed_mono hlow (by omega) he he'

theorem softmaxNumerator_greatest {m e : Int} (he : softmaxNumerator m m = some e) : e = one := by
  obtain ⟨-, -, he⟩ := softmaxNumerator_eq_some.mp he
  rw [Int.sub_self, Int.zero_mul, expFixed_zero] at he
  cases he
  rfl

/-- What the numerators `e` of the logits `zi` are to be. -/
structure SoftmaxLaw (zi e : List Int) : Prop where
  each : e.length = zi.length
  unit : ∀ p ∈ zi.zip e, 0 ≤ p.2 ∧ p.2 ≤ one
  ordered : ∀ p ∈ zi.zip e, ∀ q ∈ zi.zip e, p.1 ≤ q.1 → p.2 ≤ q.2
  greatest : ∀ p ∈ zi.zip e, (∀ z ∈ zi, z ≤ p.1) → p.2 = one

theorem softmaxLaw_of_numerators {zi e : List Int} {m : Int} (hm : zi.max? = some m)
    (he : zi.mapM (softmaxNumerator m) = some e)
    (hunit : List.Forall₂ (fun _ x => 0 ≤ x ∧ x ≤ one) zi e) : SoftmaxLaw zi e := by
  have hzip := mapM_zip he
  obtain ⟨hmem, hmax⟩ := List.max?_eq_some_iff.mp hm
  have hlogit : ∀ p ∈ zi.zip e, p.1 ∈ zi := fun p hp => (List.of_mem_zip hp).1
  obtain ⟨hlength, hbound⟩ := List.forall₂_iff_zip.mp hunit
  exact {
    each := hlength.symm
    unit := fun p hp => hbound hp
    ordered := fun p hp q hq hle =>
      softmaxNumerator_mono hle (hmax _ (hlogit q hq)) (hzip p hp) (hzip q hq)
    greatest := fun p hp htop => by
      have heq : p.1 = m := le_antisymm (hmax _ (hlogit p hp)) (htop m hmem)
      have hp' := hzip p hp
      rw [heq] at hp'
      exact softmaxNumerator_greatest hp' }

/-- The numerators are there, in order and in the unit interval, when and only when no two
logits are further apart than the scaling can take. -/
theorem softmaxQRef_law_iff {zi : List Int} (hne : zi ≠ []) :
    (∃ e s, softmaxQRef zi = some (e, s) ∧ SoftmaxLaw zi e) ↔
      ∀ z ∈ zi, ∀ z' ∈ zi, z' - z ≤ 2 ^ 33 := by
  obtain ⟨m, hm⟩ := Option.isSome_iff_exists.mp (List.isSome_max?_of_ne_nil hne)
  obtain ⟨hmem, hmax⟩ := List.max?_eq_some_iff.mp hm
  have hrun : ∀ e s, softmaxQRef zi = some (e, s) ↔
      zi.mapM (softmaxNumerator m) = some e ∧ e.sum = s := by
    intro e s
    simp [softmaxQRef, hm, Option.bind_eq_some_iff]
  constructor
  · rintro ⟨e, s, hsoft, -⟩ z hz z' hz'
    obtain ⟨x, hx⟩ := mapM_mem ((hrun e s).mp hsoft).1 z hz
    obtain ⟨hgap, hscaled, -⟩ := softmaxNumerator_eq_some.mp hx
    have hbound := (gap_fits_iff (hmax z hz)).mp ⟨hgap, hscaled⟩
    have hle := hmax z' hz'
    omega
  · intro hclose
    obtain ⟨e, he, hunit⟩ := mapM_forall₂.mpr fun z hz =>
      (softmaxNumerator_iff (hmax z hz)).mpr (hclose z hz m hmem)
    exact ⟨e, e.sum, (hrun e e.sum).mpr ⟨he, rfl⟩, softmaxLaw_of_numerators hm he hunit⟩

theorem softmaxQRef_law_pair : ∃ e s, softmaxQRef [0, -2 ^ 33] = some (e, s) ∧
    SoftmaxLaw [0, -2 ^ 33] e :=
  (softmaxQRef_law_iff (by decide)).mpr (by decide)

/-- The logits `0.0` and `-1e9`, as a mask leaves them. -/
theorem softmaxQRef_masked : (∀ z ∈ [0, -16384000000000], Fits z) ∧
    softmaxQRef [0, -16384000000000] = none := by
  decide

end ShannonPrime.Islands

/-!
The activation of what is not negative. The cubic grows without a bound in 128 bits; what it
leaves is cast to the word and doubled, and from one input on the exponential of that is past
its range.
-/

namespace ShannonPrime.Islands

open Word64 Cuda

theorem geluCube_mono {xq xq' : Int} (hpos : 0 ≤ xq) (hle : xq ≤ xq') :
    0 ≤ geluCube xq ∧ geluCube xq ≤ geluCube xq' := by
  have hone : (0 : Int) < one := by decide
  have hx : 0 ≤ xq * 2 ^ 14 := by omega
  have hx' : xq * 2 ^ 14 ≤ xq' * 2 ^ 14 := by omega
  have hsquare : 0 ≤ xq * 2 ^ 14 * (xq * 2 ^ 14) / one :=
    Int.ediv_nonneg (mul_nonneg hx hx) hone.le
  have hsquare' : xq * 2 ^ 14 * (xq * 2 ^ 14) / one ≤ xq' * 2 ^ 14 * (xq' * 2 ^ 14) / one :=
    Int.ediv_le_ediv hone (mul_le_mul hx' hx' hx (hx.trans hx'))
  exact ⟨Int.ediv_nonneg (mul_nonneg hsquare hx) hone.le,
    Int.ediv_le_ediv hone (mul_le_mul hsquare' hx' hx (hsquare.trans hsquare'))⟩

/-- The argument of the tangent keeps the sign and the order. -/
theorem geluInner_mono {xq xq' : Int} (hpos : 0 ≤ xq) (hle : xq ≤ xq') :
    0 ≤ geluInner xq ∧ geluInner xq ≤ geluInner xq' := by
  have hone : (0 : Int) < one := by decide
  have hga : (0 : Int) ≤ ga := by decide
  have hgk : (0 : Int) ≤ gk := by decide
  obtain ⟨hcube, hcube'⟩ := geluCube_mono hpos hle
  have hterm : 0 ≤ ga * geluCube xq / one := Int.ediv_nonneg (mul_nonneg hga hcube) hone.le
  have hterm' : ga * geluCube xq / one ≤ ga * geluCube xq' / one :=
    Int.ediv_le_ediv hone (mul_le_mul_of_nonneg_left hcube' hga)
  exact ⟨Int.ediv_nonneg (mul_nonneg hgk (by omega)) hone.le,
    Int.ediv_le_ediv hone (mul_le_mul_of_nonneg_left (by omega) hgk)⟩

/-- The tangent has a value where the exponential of the doubled argument has one. -/
theorem tanhFixed_iff {t : Int} (hpos : 0 ≤ t) :
    (∃ v, tanhFixed t = some v ∧ 0 ≤ v ∧ v ≤ one) ↔ expFloor ≤ -(2 * t) := by
  have habs : |t| = t := abs_of_nonneg hpos
  constructor
  · rintro ⟨v, hv, -⟩
    obtain ⟨⟨-, -, hd⟩, e, he⟩ := tanhOf_domain hv
    rw [habs] at hd he
    exact expFixed_floor hd he
  · intro hlo
    have hfloor : expFloor = -6393154321280132744 := rfl
    rw [hfloor] at hlo
    have hdomain : TanhDomain t := by
      unfold TanhDomain Fits
      rw [habs]
      omega
    obtain ⟨e, he, hunit⟩ := expFixed_some (d := -(2 * t)) (by rw [hfloor]; exact hlo)
    rw [← habs] at he
    obtain ⟨hlow, hhigh⟩ := tanhQuot_bounds hunit
    refine ⟨tanhTail t e, tanhOf_eq hdomain he hunit, ?_⟩
    unfold tanhTail
    rw [if_pos hpos]
    constructor <;> omega

/-- The greatest activation whose exponential is in range; it stands for `4369.82`. -/
def geluCeil : Int := 286380714

theorem geluInner_floor_iff {xq : Int} (hpos : 0 ≤ xq) :
    expFloor ≤ -(2 * geluInner xq) ↔ xq ≤ geluCeil := by
  have hlast : expFloor ≤ -(2 * geluInner geluCeil) := by decide
  have hnext : -(2 * geluInner (geluCeil + 1)) < expFloor := by decide
  constructor
  · intro hlo
    by_contra hpast
    have hceil : 0 ≤ geluCeil + 1 := by decide
    have hmono := (geluInner_mono hceil (Int.not_le.mp hpast)).2
    omega
  · intro hle
    have hmono := (geluInner_mono hpos hle).2
    omega

/-- What the activation of an encoded input is to do: the argument of the tangent is not
negative and is cast as it is, and the result lies between half the input and the input. -/
structure GeluSane (xq : Int) : Prop where
  sign : 0 ≤ wrap (geluInner xq)
  cast : wrap (geluInner xq) = geluInner xq
  between : ∃ g, geluQRef xq = some g ∧ xq * 2 ^ 14 / 2 ≤ g ∧ g ≤ xq * 2 ^ 14

/-- A factor between one and two takes half the input to between it and the input. -/
theorem half_scaled {xq t : Int} (hpos : 0 ≤ xq) (ht : 0 ≤ t ∧ t ≤ one) :
    xq * 2 ^ 14 / 2 ≤ xq * 2 ^ 14 / 2 * (one + t) / one ∧
      xq * 2 ^ 14 / 2 * (one + t) / one ≤ xq * 2 ^ 14 := by
  have hone : (0 : Int) < one := by decide
  have hhalf : 0 ≤ xq * 2 ^ 14 / 2 := by omega
  constructor
  · apply Int.le_ediv_of_mul_le hone
    exact mul_le_mul_of_nonneg_left (by omega) hhalf
  · apply Int.ediv_le_of_le_mul hone
    calc xq * 2 ^ 14 / 2 * (one + t) ≤ xq * 2 ^ 14 / 2 * (2 * one) :=
          mul_le_mul_of_nonneg_left (by omega) hhalf
      _ = xq * 2 ^ 14 / 2 * 2 * one := by ring
      _ = xq * 2 ^ 14 * one := by rw [Int.ediv_mul_cancel (by omega)]

theorem geluQRef_sane_iff {xq : Int} (hpos : 0 ≤ xq) (hscaled : Fits (xq * one)) :
    GeluSane xq ↔ xq ≤ geluCeil := by
  have hrun := geluQRef_cast hscaled
  have hnonneg := (geluInner_mono hpos le_rfl).1
  rw [← geluInner_floor_iff hpos]
  constructor
  · rintro ⟨-, hcast, g, hg, -⟩
    rw [hrun, hcast] at hg
    obtain ⟨t, ht, -⟩ := Option.map_eq_some_iff.mp hg
    obtain ⟨⟨-, -, hd⟩, e, he⟩ := tanhOf_domain ht
    rw [abs_of_nonneg hnonneg] at hd he
    exact expFixed_floor hd he
  · intro hlo
    have hfloor : expFloor = -6393154321280132744 := rfl
    have hcast : wrap (geluInner xq) = geluInner xq := by
      apply wrap_of_fits
      rw [hfloor] at hlo
      constructor <;> omega
    obtain ⟨t, ht, hunit⟩ := (tanhFixed_iff hnonneg).mpr hlo
    refine ⟨by rw [hcast]; exact hnonneg, hcast, _, ?_, half_scaled hpos hunit⟩
    rw [hrun, hcast, ht]
    rfl

theorem geluQRef_sane_unit : GeluSane 65536 :=
  (geluQRef_sane_iff (by decide) (by decide)).mpr (by decide)

/-- The input `7500.0`: the cast argument is negative and nothing is left of the input. -/
theorem geluQRef_lost : Fits (491520000 * one) ∧ wrap (geluInner 491520000) < 0 ∧
    geluQRef 491520000 = some 0 := by
  decide

end ShannonPrime.Islands
