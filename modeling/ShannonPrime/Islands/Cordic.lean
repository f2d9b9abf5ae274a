import ShannonPrime.Islands.Reference
import ShannonPrime.Lib.SignedSteps
import Mathlib.Tactic.Ring

/-!
The rotations of the integer CORDIC. The angle is folded exactly into a half turn around zero,
each of the thirty steps turns it towards zero by an arctangent that the later ones can take
back, and neither the angle nor the vector leaves the word.
-/

namespace ShannonPrime.Islands

open Word64 SignedSteps

/-- The angle in `[-pi, pi]`, a number of whole turns away. -/
theorem wrapAngle_some (theta : Int) :
    ∃ z m, wrapAngle piFb twopiFb theta = some z ∧ theta = z + 2 * m * piFb ∧ |z| ≤ piFb := by
  have hpi : piFb = 3373259426 := rfl
  have htwopi : twopiFb = 6746518852 := rfl
  have hsplit := Int.tmod_add_mul_tdiv theta twopiFb
  have hlow : -twopiFb < theta.tmod twopiFb := Int.lt_tmod_of_pos theta (by decide)
  have hhigh : theta.tmod twopiFb < twopiFb := Int.tmod_lt_of_pos theta (by decide)
  rw [wrapAngle, hpi, htwopi] at *
  generalize theta.tmod 6746518852 = z at *
  generalize theta.tdiv 6746518852 = q at *
  split
  case isTrue hpast =>
      refine ⟨z - 6746518852, q + 1, checked_of_fits ⟨by omega, by omega⟩, by omega, ?_⟩
      exact abs_le.mpr ⟨by omega, by omega⟩
  case isFalse hin =>
      split
      case isTrue hpast =>
          refine ⟨z + 6746518852, q - 1, checked_of_fits ⟨by omega, by omega⟩, by omega, ?_⟩
          exact abs_le.mpr ⟨by omega, by omega⟩
      case isFalse hin' =>
          exact ⟨z, q, rfl, by omega, abs_le.mpr ⟨by omega, by omega⟩⟩

/-- The folded angle, no half turn or one away. -/
theorem foldAngle_some {z : Int} (hz : |z| ≤ piFb) :
    ∃ z' j, foldAngle piFb halfpiFb z = some (z', decide (j % 2 = 1)) ∧ z = z' + j * piFb ∧
      |z'| ≤ halfpiFb := by
  have hpi : piFb = 3373259426 := rfl
  have hhalfpi : halfpiFb = 1686629713 := rfl
  obtain ⟨hlow, hhigh⟩ := abs_le.mp hz
  rw [foldAngle, hpi, hhalfpi] at *
  split
  case isTrue hpast =>
      have hfold : checked (z - 3373259426) = some (z - 3373259426) :=
        checked_of_fits ⟨by omega, by omega⟩
      refine ⟨z - 3373259426, 1, by rw [hfold]; rfl, by omega, ?_⟩
      exact abs_le.mpr ⟨by omega, by omega⟩
  case isFalse hin =>
      split
      case isTrue hpast =>
          have hfold : checked (z + 3373259426) = some (z + 3373259426) :=
            checked_of_fits ⟨by omega, by omega⟩
          refine ⟨z + 3373259426, -1, by rw [hfold]; rfl, by omega, ?_⟩
          exact abs_le.mpr ⟨by omega, by omega⟩
      case isFalse hin' =>
          exact ⟨z, 0, rfl, by omega, abs_le.mpr ⟨by omega, by omega⟩⟩

theorem shr_abs_le {x B : Int} {k : Nat} (hk : k < 64) (hx : |x| ≤ B) :
    ∃ q, shr x k = some q ∧ |q| ≤ B := by
  obtain ⟨hlow, hhigh⟩ := abs_le.mp hx
  have hB : 0 ≤ B := (abs_nonneg x).trans hx
  have hpow : (1 : Int) ≤ 2 ^ k := one_le_pow₀ (by decide)
  have hgrow : B * 1 ≤ B * 2 ^ k := mul_le_mul_of_nonneg_left hpow hB
  refine ⟨x / 2 ^ k, if_pos ⟨by omega, by omega⟩, abs_le.mpr ⟨?_, ?_⟩⟩
  · apply Int.le_ediv_of_mul_le (by omega)
    rw [neg_mul]
    omega
  · apply Int.ediv_le_of_le_mul (by omega)
    omega

/-- A step at most doubles the vector, and turns the angle. -/
theorem cordicStep_some {table : Nat → Int} {s : Cordic} {k : Nat} {B : Int} (hk : k < 64)
    (hx : |s.x| ≤ B) (hy : |s.y| ≤ B) (hB : 2 * B < 2 ^ 63)
    (hz : |turn s.z (table k)| < 2 ^ 63) :
    ∃ s', cordicStep table s k = some s' ∧ |s'.x| ≤ 2 * B ∧ |s'.y| ≤ 2 * B ∧
      s'.z = turn s.z (table k) := by
  obtain ⟨xs, hxs, hxs'⟩ := shr_abs_le hk hx
  obtain ⟨ys, hys, hys'⟩ := shr_abs_le hk hy
  rw [abs_le] at hx hy hxs' hys'
  rw [abs_lt] at hz
  have hfits : ∀ v, -(2 * B) ≤ v → v ≤ 2 * B → checked v = some v := fun v hlow hhigh =>
    checked_of_fits ⟨by omega, by omega⟩
  rw [cordicStep, hxs, hys, Option.bind_eq_bind, Option.bind_some, Option.bind_some]
  unfold turn at hz ⊢
  split
  case isTrue hpos =>
      rw [if_pos hpos] at hz
      have hangle : checked (s.z - table k) = some (s.z - table k) :=
        checked_of_fits ⟨by omega, by omega⟩
      rw [hfits (s.x - ys) (by omega) (by omega), hfits (s.y + xs) (by omega) (by omega), hangle]
      have hx' : |s.x - ys| ≤ 2 * B := abs_le.mpr ⟨by omega, by omega⟩
      have hy' : |s.y + xs| ≤ 2 * B := abs_le.mpr ⟨by omega, by omega⟩
      exact ⟨_, rfl, hx', hy', rfl⟩
  case isFalse hneg =>
      rw [if_neg hneg] at hz
      have hangle : checked (s.z + table k) = some (s.z + table k) :=
        checked_of_fits ⟨by omega, by omega⟩
      rw [hfits (s.x + ys) (by omega) (by omega), hfits (s.y - xs) (by omega) (by omega), hangle]
      have hx' : |s.x + ys| ≤ 2 * B := abs_le.mpr ⟨by omega, by omega⟩
      have hy' : |s.y - xs| ≤ 2 * B := abs_le.mpr ⟨by omega, by omega⟩
      exact ⟨_, rfl, hx', hy', rfl⟩

/-- The steps from one number on: the vector has room to double at each of them, and the later
arctangents cover each one. -/
theorem rotations_some {table : Nat → Int} {r : Int} {ks : List Nat} {s : Cordic} {B : Int}
    (hks : ∀ k ∈ ks, k < 64 ∧ 0 ≤ table k) (hx : |s.x| ≤ B) (hy : |s.y| ≤ B)
    (hB : 2 ^ ks.length * B < 2 ^ 63) (hcover : Covered r (ks.map table))
    (hz : |s.z| ≤ (ks.map table).sum + r) (hsum : (ks.map table).sum + r < 2 ^ 63) :
    ∃ s', ks.foldlM (cordicStep table) s = some s' ∧ |s'.z| ≤ r ∧ |s'.x| < 2 ^ 63 ∧
      |s'.y| < 2 ^ 63 := by
  induction ks generalizing s B with
  | nil =>
      have hfits : B < 2 ^ 63 := by simpa using hB
      exact ⟨s, rfl, by simpa using hz, hx.trans_lt hfits, hy.trans_lt hfits⟩
  | cons k ks ih =>
      obtain ⟨hk, htable⟩ := hks k List.mem_cons_self
      have hB0 : 0 ≤ B := (abs_nonneg s.x).trans hx
      have hroom : 2 * B ≤ 2 ^ ks.length * (2 * B) :=
        le_mul_of_one_le_left (by omega) (one_le_pow₀ (by decide))
      have hdouble : 2 ^ (k :: ks).length * B = 2 ^ ks.length * (2 * B) := by
        rw [List.length_cons, pow_succ]
        ring
      rw [hdouble] at hB
      rw [List.map_cons, List.sum_cons, add_assoc] at hz hsum
      have hturn := turn_abs_le hcover.1 hz
      obtain ⟨s₁, hstep, hx₁, hy₁, hz₁⟩ :=
        cordicStep_some hk hx hy (by omega) (hturn.trans_lt (by omega))
      obtain ⟨s', hrun, hbounds⟩ := ih (fun k hk => hks k (List.mem_cons_of_mem _ hk)) hx₁ hy₁ hB
        hcover.2 (by rw [hz₁]; exact hturn) (by omega)
      refine ⟨s', ?_, hbounds⟩
      rw [List.foldlM_cons, hstep]
      exact hrun

/-- The thirty rotations of the folded angle, from the constant on. -/
def rotations (z : Int) : Option Cordic :=
  (List.range 30).foldlM (cordicStep atan) { x := cordicK, y := 0, z := z }

/-- The arctangents add up to more than a quarter turn, and each is made up by the later ones
and two units. -/
theorem rotations_residual {z : Int} (hz : |z| ≤ halfpiFb) :
    ∃ s, rotations z = some s ∧ |s.z| ≤ 2 ∧ |s.x| < 2 ^ 63 ∧ |s.y| < 2 ^ 63 := by
  have hsum : ((List.range 30).map atan).sum = 1871839755 := by decide
  have hcover : Covered 2 ((List.range 30).map atan) := by decide
  have hx : |cordicK| ≤ 2 ^ 30 := by decide
  have hy : |(0 : Int)| ≤ 2 ^ 30 := by decide
  have hroom : halfpiFb ≤ 1871839755 + 2 := by decide
  refine rotations_some (by decide) hx hy (by decide) hcover ?_ ?_
  · rw [hsum]
    exact hz.trans hroom
  · rw [hsum]
    decide

theorem checked_neg {x : Int} (hx : |x| < 2 ^ 63) : checked (-x) = some (-x) := by
  rw [abs_lt] at hx
  exact checked_of_fits ⟨by omega, by omega⟩

theorem rotate_eq {z : Int} {s : Cordic} (hs : rotations z = some s) (hx : |s.x| < 2 ^ 63)
    (hy : |s.y| < 2 ^ 63) (negated : Bool) :
    rotate atan cordicK (z, negated) =
      some (if negated = true then (-s.x, -s.y) else (s.x, s.y)) := by
  change (rotations z).bind _ = _
  rw [hs, Option.bind_some, checked_neg hx, checked_neg hy]
  cases negated <;> rfl

/-- Every angle is a folded one and a number of half turns. Its pair is the rotation of the
folded one, negated when that number is odd; two units of the angle are left at most. -/
theorem cordicCossin_folds (theta : Int) :
    ∃ z m s, theta = z + m * piFb ∧ |z| ≤ halfpiFb ∧ rotations z = some s ∧ |s.z| ≤ 2 ∧
      cordicCossin theta = some (if m % 2 = 1 then (-s.x, -s.y) else (s.x, s.y)) := by
  obtain ⟨z₁, q, hwrap, hturns, hz₁⟩ := wrapAngle_some theta
  obtain ⟨z, j, hfold, hhalf, hz⟩ := foldAngle_some hz₁
  obtain ⟨s, hs, hleft, hx, hy⟩ := rotations_residual hz
  have hparity : (2 * q + j) % 2 = j % 2 := by omega
  have hpair := rotate_eq hs hx hy (decide (j % 2 = 1))
  refine ⟨z, 2 * q + j, s, ?_, hz, hs, hleft, ?_⟩
  · rw [hturns, hhalf]
    ring
  · rw [hparity, cordicCossin, hwrap, Option.bind_eq_bind, Option.bind_some, hfold]
    simpa using hpair

end ShannonPrime.Islands
