import ShannonPrime.Lib.Modular
import ShannonPrime.Lib.Traverse
import ShannonPrime.Ntt.Residue

/-!
The host's recombination of two residues (`sp_matmul_q_ref.rs`, `sp_trick1/src/lib.rs`), in
the unsigned words of the code. The difference of the residues is taken below zero when the
first exceeds the second by more than the second prime.
-/

namespace ShannonPrime.Ntt

/-- `Q1_INV_MOD_Q2` -/
def q1InvModQ2 : Nat := 894602413

/-- `M_Q1Q2` -/
def mQ1Q2 : Nat := q1.q * q2.q

/-- The build: a debug build panics where a release build wraps. -/
inductive Build
  | debug
  | release

namespace Build

def word (build : Build) (bits : Nat) (x : Int) : Option Nat :=
  match build with
  | .debug => if 0 ≤ x ∧ x < 2 ^ bits then some x.toNat else none
  | .release => some (x % 2 ^ bits).toNat

end Build

/-- `diff`, from the residues of one lane. -/
def garnerDiff (build : Build) (a b : Nat) : Option Nat :=
  if b ≥ a then build.word 32 (b - a)
  else do
    let d ← build.word 32 (a - b)
    build.word 64 (q2.q - d)

/-- One lane of `garner_combine_q1_q2`. -/
def garnerOne (build : Build) (a b : Nat) : Option Nat := do
  let diff ← garnerDiff build a b
  let prod ← build.word 64 (diff * q1InvModQ2)
  let t := prod % q2.q
  let turn ← build.word 64 (q1.q * t)
  build.word 64 (a + turn)

/-- `v`, with `r as i64` in two's complement. -/
def garnerCentre (build : Build) (r : Nat) : Option Int :=
  let v := (r : Int).bmod (2 ^ 64)
  let halfM := (mQ1Q2 / 2 : Nat)
  if v > halfM then
    match build with
    | .debug => if -2 ^ 63 ≤ v - mQ1Q2 ∧ v - mQ1Q2 < 2 ^ 63 then some (v - mQ1Q2) else none
    | .release => some ((v - mQ1Q2).bmod (2 ^ 64))
  else some v

/-- The lanes of two slices, whose lengths the code asserts equal. -/
def lanes {R : Type} (f : Nat → Nat → Option R) (r1 r2 : List Nat) : Option (List R) :=
  if r1.length ≠ r2.length then none
  else (r1.zip r2).mapM fun r => f r.1 r.2

/-- `garner_combine_q1_q2`, and `garner_combine_q1_q2_unsigned` -/
def garnerCombineQ1Q2 (build : Build) (r1 r2 : List Nat) : Option (List Nat) :=
  lanes (garnerOne build) r1 r2

/-- `garner_combine_q1_q2_signed` -/
def garnerCombineQ1Q2Signed (build : Build) (r1 r2 : List Nat) : Option (List Int) :=
  lanes (fun a b => (garnerOne build a b).bind (garnerCentre build)) r1 r2

/-- The number that the residues `a` and `b` stand for. -/
structure Recombines (a b r : Nat) : Prop where
  lt : r < mQ1Q2
  first : r % q1.q = a
  second : r % q2.q = b
  only : ∀ s, s < mQ1Q2 → s % q1.q = a → s % q2.q = b → s = r

/-- The integer nearest to zero that they stand for. -/
structure RecombinesSigned (a b : Nat) (v : Int) : Prop where
  lower : -(mQ1Q2 : Int) < 2 * v
  upper : 2 * v ≤ mQ1Q2
  first : v % q1.q = a
  second : v % q2.q = b
  only : ∀ w, -(mQ1Q2 : Int) < 2 * w → 2 * w ≤ mQ1Q2 → w % q1.q = a → w % q2.q = b → w = v

/-! The number -/

theorem q1_q : q1.q = 1073738753 := rfl

theorem q2_q : q2.q = 1073732609 := rfl

theorem q1InvModQ2_eq : q1InvModQ2 = 894602413 := rfl

theorem mQ1Q2_eq : mQ1Q2 = q1.q * q2.q := rfl

theorem inverts : ((q2.q : Nat) : Int) ∣ (q1.q : Int) * q1InvModQ2 - 1 := by
  decide

/-- The number that the residues stand for, as Garner's step gives it. -/
def joined (a b : Nat) : Int := Garner.join q1.q q2.q q1InvModQ2 a b

section

variable {a b : Nat}

theorem joined_emod {x : Int} (h1 : x % q1.q = a) (h2 : x % q2.q = b) :
    joined a b = x % mQ1Q2 := by
  rw [joined, ← h1, ← h2, Garner.join_emod (by decide) (by decide) inverts]
  rfl

theorem joined_nonneg (a b : Nat) : 0 ≤ joined a b :=
  Garner.join_nonneg (by decide) (by decide) (Int.natCast_nonneg a)

theorem joined_lt (ha : a < q1.q) (b : Nat) : joined a b < mQ1Q2 :=
  Garner.join_lt (by decide) (by decide) (by exact_mod_cast ha)

theorem joined_first (ha : a < q1.q) (b : Nat) : joined a b % q1.q = a := by
  rw [joined, Garner.join, Int.add_mul_emod_self_left]
  exact Int.emod_eq_of_lt (Int.natCast_nonneg a) (by exact_mod_cast ha)

theorem joined_second (hb : b < q2.q) : joined a b % q2.q = b := by
  have hturn := (Garner.add_mul_emod_iff inverts a b
    (((b : Int) - a) * q1InvModQ2 % q2.q)).mpr (Int.emod_emod_of_dvd _ (dvd_refl _))
  rw [joined, Garner.join, hturn]
  exact Int.emod_eq_of_lt (Int.natCast_nonneg b) (by exact_mod_cast hb)

theorem toNat_emod {x : Int} (hx : 0 ≤ x) {n r : Nat} (h : x % n = r) : x.toNat % n = r := by
  have hcast : ((x.toNat % n : Nat) : Int) = r := by
    rw [Int.natCast_mod, Int.toNat_of_nonneg hx, h]
  exact_mod_cast hcast

theorem joined_recombines (ha : a < q1.q) (hb : b < q2.q) : Recombines a b (joined a b).toNat where
  lt := by
    have hlt := joined_lt ha b
    have hpos : 0 < mQ1Q2 := by decide
    omega
  first := toNat_emod (joined_nonneg a b) (joined_first ha b)
  second := toNat_emod (joined_nonneg a b) (joined_second hb)
  only s hs h1 h2 := by
    have hs' : joined a b = s := by
      rw [joined_emod (x := s) (by exact_mod_cast h1) (by exact_mod_cast h2)]
      exact Int.emod_eq_of_lt (Int.natCast_nonneg s) (by exact_mod_cast hs)
    rw [hs', Int.toNat_natCast]

theorem centre_recombines (ha : a < q1.q) (hb : b < q2.q) :
    RecombinesSigned a b (Garner.centre mQ1Q2 (joined a b)) := by
  have hodd : (mQ1Q2 : Int) % 2 = 1 := by decide
  have hlo := joined_nonneg a b
  have hhi := joined_lt ha b
  have hfirst := joined_first ha b
  have hsecond := joined_second (a := a) hb
  have hturn : ∀ q : Int, q ∣ mQ1Q2 → Garner.centre mQ1Q2 (joined a b) % q = joined a b % q := by
    intro q hq
    rw [Garner.centre]
    split
    · exact Int.emod_eq_emod_iff_emod_sub_eq_zero.mpr (Int.emod_eq_zero_of_dvd (by
        rw [sub_sub_cancel_left]
        exact (dvd_neg.mpr hq)))
    · rfl
  constructor
  case lower =>
    rw [Garner.centre]
    split <;> omega
  case upper =>
    rw [Garner.centre]
    split <;> omega
  case first => rw [hturn _ (by decide), hfirst]
  case second => rw [hturn _ (by decide), hsecond]
  case only =>
    intro w hwlo hwhi h1 h2
    rw [joined_emod h1 h2]
    have habs : |w| ≤ (mQ1Q2 : Int) / 2 := by
      rw [abs_le]
      omega
    exact ((Garner.centre_emod_iff (by decide) hodd w).mpr habs).symm

/-! One lane -/

theorem word_of_lt (build : Build) {bits x : Nat} (h : x < 2 ^ bits) :
    build.word bits x = some x := by
  have hcast : (x : Int) < 2 ^ bits := by exact_mod_cast h
  cases build
  case debug => exact if_pos ⟨Int.natCast_nonneg x, hcast⟩
  case release =>
    rw [Build.word, Int.emod_eq_of_lt (Int.natCast_nonneg x) hcast, Int.toNat_natCast]

/-- What a lane makes of the product of its difference. -/
theorem garnerOne_of_prod {build : Build} (ha : a < q1.q) {d p : Nat}
    (hdiff : garnerDiff build a b = some d) (hprod : build.word 64 (d * q1InvModQ2) = some p) :
    garnerOne build a b = some (a + q1.q * (p % q2.q)) := by
  have hturn : build.word 64 (q1.q * (p % q2.q : Nat)) = some (q1.q * (p % q2.q)) := by
    rw [← Nat.cast_mul]
    apply word_of_lt
    rw [q1_q, q2_q]
    omega
  have hsum : build.word 64 (a + (q1.q * (p % q2.q) : Nat)) = some (a + q1.q * (p % q2.q)) := by
    rw [← Nat.cast_add]
    apply word_of_lt
    rw [q1_q] at ha ⊢
    rw [q2_q]
    omega
  simp only [garnerOne, hdiff, hprod, hturn, hsum, Option.bind_eq_bind, Option.bind_some]

/-- Up to a difference of the second prime no build panics or wraps. -/
theorem garnerDiff_within (build : Build) (ha : a < q1.q) (hb : b < q2.q) (h : a ≤ b + q2.q) :
    ∃ d, garnerDiff build a b = some d ∧ d < q2.q ∧ (d : Int) % q2.q = (b - a) % q2.q := by
  have hq1 := q1_q
  have hq2 := q2_q
  rw [garnerDiff]
  split
  · rename_i hge
    refine ⟨b - a, ?_, by omega, by rw [Nat.cast_sub hge]⟩
    rw [← Nat.cast_sub hge]
    exact word_of_lt build (by omega)
  · rename_i hlt
    refine ⟨q2.q - (a - b), ?_, by omega, ?_⟩
    · have hfirst : build.word 32 (a - b) = some (a - b) := by
        rw [← Nat.cast_sub (by omega)]
        exact word_of_lt build (by omega)
      rw [hfirst, Option.bind_eq_bind, Option.bind_some, ← Nat.cast_sub (by omega)]
      exact word_of_lt build (by omega)
    · have hturn : ((q2.q - (a - b) : Nat) : Int) = b - a + q2.q := by omega
      rw [hturn, Int.add_emod_right]

theorem garnerOne_within (build : Build) (ha : a < q1.q) (hb : b < q2.q) (h : a ≤ b + q2.q) :
    garnerOne build a b = some (joined a b).toNat := by
  obtain ⟨d, hdiff, hd, hmod⟩ := garnerDiff_within build ha hb h
  have hprod : build.word 64 (d * q1InvModQ2) = some (d * q1InvModQ2) := by
    rw [← Nat.cast_mul]
    apply word_of_lt
    rw [q2_q] at hd
    rw [q1InvModQ2_eq]
    omega
  have hturn : ((d * q1InvModQ2 % q2.q : Nat) : Int) = ((b : Int) - a) * q1InvModQ2 % q2.q := by
    rw [Int.natCast_mod, Nat.cast_mul, Int.mul_emod, hmod, ← Int.mul_emod]
  have hvalue : joined a b = (a + q1.q * (d * q1InvModQ2 % q2.q) : Nat) := by
    rw [Nat.cast_add, Nat.cast_mul, hturn]
    rfl
  rw [garnerOne_of_prod ha hdiff hprod, hvalue, Int.toNat_natCast]

theorem turn_lt {t : Nat} (ha : a < q1.q) (ht : t < q2.q) : a + q1.q * t < mQ1Q2 := by
  calc a + q1.q * t < q1.q + q1.q * t := Nat.add_lt_add_right ha _
    _ = q1.q * (t + 1) := by ring
    _ ≤ q1.q * q2.q := Nat.mul_le_mul_left _ ht

theorem wrapped_prod {e : Nat} (hpos : 0 < e) (he : e < 6144) :
    ((2 ^ 64 - e : Nat) * (894602413 : Nat) : Int) % 2 ^ 64 = (2 ^ 64 - e * 894602413 : Nat) := by
  omega

/-- The wrapped product turns by another number of first primes: the word size is no multiple
of the second prime. -/
theorem wrapped_turn_ne {e : Nat} (he : e < 6144) (b : Nat) :
    ((2 ^ 64 - e * 894602413 : Nat) : Int) % 1073732609 ≠
      (b - (b + 1073732609 + e : Nat)) * 894602413 % 1073732609 := by
  omega

/-- Past it a debug build panics, and a release build goes on to a number that has another
second residue. -/
theorem garnerOne_beyond (build : Build) (ha : a < q1.q) (h : b + q2.q < a) {r : Nat}
    (hr : garnerOne build a b = some r) : r < mQ1Q2 ∧ r % q2.q ≠ b % q2.q := by
  have hq1 := q1_q
  have hq2 := q2_q
  have hfirst : build.word 32 (a - b) = some (a - b) := by
    rw [← Nat.cast_sub (by omega)]
    exact word_of_lt build (by omega)
  have hdiff : garnerDiff build a b = build.word 64 (q2.q - (a - b : Nat)) := by
    rw [garnerDiff, if_neg (by omega), hfirst]
    rfl
  cases build with
  | debug =>
      have hpanic : garnerDiff .debug a b = none := hdiff.trans (if_neg (by omega))
      rw [garnerOne, hpanic] at hr
      cases hr
  | release =>
      obtain ⟨e, rfl⟩ := Nat.exists_eq_add_of_le h.le
      have he : e < 6144 := by omega
      have hwrapped : (((q2.q : Int) - (b + q2.q + e - b : Nat)) % 2 ^ 64).toNat =
          2 ^ 64 - e := by omega
      rw [Build.word, hwrapped] at hdiff
      have hprod : Build.release.word 64 ((2 ^ 64 - e : Nat) * q1InvModQ2) =
          some (2 ^ 64 - e * 894602413) := by
        rw [Build.word, q1InvModQ2_eq, wrapped_prod (by omega) he, Int.toNat_natCast]
      rw [garnerOne_of_prod ha hdiff hprod] at hr
      cases hr
      refine ⟨?_, fun hsecond => ?_⟩
      · exact turn_lt ha (Nat.mod_lt _ q2.q_pos)
      · have hcast : (((b + q2.q + e : Nat) : Int) +
            q1.q * ((2 ^ 64 - e * 894602413) % q2.q : Nat)) % q2.q = b % q2.q := by
          exact_mod_cast hsecond
        have hturn := (Garner.add_mul_emod_iff inverts _ _ _).mp hcast
        rw [Int.natCast_mod, Int.emod_emod_of_dvd _ (dvd_refl _)] at hturn
        exact wrapped_turn_ne he b hturn

theorem bmod_of_fits {x : Int} (hlo : -2 ^ 63 ≤ x) (hhi : x < 2 ^ 63) : x.bmod (2 ^ 64) = x := by
  apply Int.bmod_eq_of_le
  · exact hlo
  · exact hhi

/-- Below the product of the primes the cast keeps the number and the shift stays in range. -/
theorem garnerCentre_eq (build : Build) {r : Nat} (hr : r < mQ1Q2) :
    garnerCentre build r = some (Garner.centre mQ1Q2 r) := by
  have hword : (mQ1Q2 : Int) < 2 ^ 63 := by
    rw [mQ1Q2_eq, q1_q, q2_q]
    norm_num
  have hlo : (0 : Int) ≤ r := Int.natCast_nonneg r
  have hhi : (r : Int) < mQ1Q2 := by exact_mod_cast hr
  have hcast : (r : Int).bmod (2 ^ 64) = r := bmod_of_fits (by linarith) (by linarith)
  have hshift : ((r : Int) - mQ1Q2).bmod (2 ^ 64) = r - mQ1Q2 :=
    bmod_of_fits (by linarith) (by linarith)
  unfold garnerCentre
  generalize mQ1Q2 = M at *
  simp only [hcast, Garner.centre, Nat.cast_ofNat, Int.natCast_ediv]
  split
  · cases build
    case debug => exact if_pos ⟨by linarith, by linarith⟩
    case release => exact congrArg some hshift
  · rfl

theorem centre_second {r : Nat} : Garner.centre mQ1Q2 r % q2.q = (r : Int) % q2.q := by
  rw [Garner.centre]
  split
  · rw [mQ1Q2_eq, Nat.cast_mul, Int.sub_mul_emod_self_right]
  · rfl

theorem garnerOne_recombines_iff (build : Build) (ha : a < q1.q) (hb : b < q2.q) :
    (∃ r, garnerOne build a b = some r ∧ Recombines a b r) ↔ a ≤ b + q2.q := by
  constructor
  · rintro ⟨r, hr, hrec⟩
    by_contra hbeyond
    apply (garnerOne_beyond build ha (Nat.lt_of_not_le hbeyond) hr).2
    rw [hrec.second, Nat.mod_eq_of_lt hb]
  · intro h
    exact ⟨_, garnerOne_within build ha hb h, joined_recombines ha hb⟩

theorem garnerSigned_recombines_iff (build : Build) (ha : a < q1.q) (hb : b < q2.q) :
    (∃ v, (garnerOne build a b).bind (garnerCentre build) = some v ∧ RecombinesSigned a b v) ↔
      a ≤ b + q2.q := by
  constructor
  · rintro ⟨v, hv, hrec⟩
    by_contra hbeyond
    obtain ⟨r, hr, hcentre⟩ := Option.bind_eq_some_iff.mp hv
    obtain ⟨hlt, hne⟩ := garnerOne_beyond build ha (Nat.lt_of_not_le hbeyond) hr
    rw [garnerCentre_eq build hlt] at hcentre
    cases hcentre
    have hsecond := hrec.second
    rw [centre_second] at hsecond
    apply hne
    rw [Nat.mod_eq_of_lt hb]
    exact_mod_cast hsecond
  · intro h
    refine ⟨_, ?_, centre_recombines ha hb⟩
    rw [garnerOne_within build ha hb h, Option.bind_some,
      garnerCentre_eq build (joined_recombines ha hb).lt, Int.toNat_of_nonneg (joined_nonneg a b)]

end

/-! The slices -/

theorem lanes_iff {R : Type} {f : Nat → Nat → Option R} {P : Nat → Nat → R → Prop}
    (within : Nat → Nat → Prop) {r1 r2 : List Nat} (hlen : r1.length = r2.length)
    (hf : ∀ r ∈ r1.zip r2, (∃ v, f r.1 r.2 = some v ∧ P r.1 r.2 v) ↔ within r.1 r.2) :
    (∃ out, lanes f r1 r2 = some out ∧
      List.Forall₂ (fun r v => P r.1 r.2 v) (r1.zip r2) out) ↔
      ∀ r ∈ r1.zip r2, within r.1 r.2 := by
  rw [lanes, if_neg (not_not.mpr hlen), Traverse.mapM_forall₂]
  exact forall₂_congr hf

/-- In either build both recombinations answer, and answer what the residues stand for,
exactly when no first residue exceeds its partner by more than the second prime. -/
theorem garnerCombine_iff (build : Build) (r1 r2 : List Nat) (hlen : r1.length = r2.length)
    (h1 : ∀ a ∈ r1, a < q1.q) (h2 : ∀ b ∈ r2, b < q2.q) :
    ((∃ out, garnerCombineQ1Q2 build r1 r2 = some out ∧
        List.Forall₂ (fun r v => Recombines r.1 r.2 v) (r1.zip r2) out) ∧
      ∃ out, garnerCombineQ1Q2Signed build r1 r2 = some out ∧
        List.Forall₂ (fun r v => RecombinesSigned r.1 r.2 v) (r1.zip r2) out) ↔
      ∀ r ∈ r1.zip r2, r.1 ≤ r.2 + q2.q := by
  have hbound : ∀ r ∈ r1.zip r2, r.1 < q1.q ∧ r.2 < q2.q := fun r hr =>
    ⟨h1 _ (List.of_mem_zip hr).1, h2 _ (List.of_mem_zip hr).2⟩
  rw [garnerCombineQ1Q2, garnerCombineQ1Q2Signed,
    lanes_iff (fun a b => a ≤ b + q2.q) hlen fun r hr =>
      garnerOne_recombines_iff build (hbound r hr).1 (hbound r hr).2,
    lanes_iff (fun a b => a ≤ b + q2.q) hlen fun r hr =>
      garnerSigned_recombines_iff build (hbound r hr).1 (hbound r hr).2,
    and_self]

/-- Residues of seven. -/
theorem garnerCombine_iff_seven :
    ∃ out, garnerCombineQ1Q2 .debug [7] [7] = some out ∧
      List.Forall₂ (fun r v => Recombines r.1 r.2 v) [(7, 7)] out :=
  ((garnerCombine_iff .debug [7] [7] rfl (by decide) (by decide)).mpr (by decide)).1

/-- The largest first residue with the second zero: a debug build panics, a release build
answers a number with another second residue. -/
theorem garnerCombine_underflows :
    ¬ ∀ build : Build, ∀ a b : Nat, a < q1.q → b < q2.q →
      ∃ r, garnerCombineQ1Q2 build [a] [b] = some [r] ∧ Recombines a b r := by
  intro h
  obtain ⟨r, hr, -⟩ := h .debug (q1.q - 1) 0 (by decide) (by decide)
  have hpanic : garnerCombineQ1Q2 .debug [q1.q - 1] [0] = none := by decide
  rw [hpanic] at hr
  cases hr

end ShannonPrime.Ntt
