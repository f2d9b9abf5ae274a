import ShannonPrime.Dsp.Requests

/-!
`y[i] = saturate_i16((a_h * x[i] + b) >> q_bits)` (`sp_compute_imp.c`): whole vectors on the
even and the odd lanes apart, then one element after another. A vector sum wraps where the
scalar one has no value.
-/

namespace ShannonPrime.Dsp

open Bounded (Buf Returns)
open CInt (Fits checked wrap)

/-! Vectors -/

/-- Two vectors of words, the products of the even and of the odd lanes. -/
structure WordPair where
  lo : Nat → Int
  hi : Nat → Int

/-- A halfword of a scalar register. -/
def halfword (r : Int) (k : Nat) : Int := (r / 2 ^ (16 * k)).bmod (2 ^ 16)

/-- `Q6_Ww_vmpy_VhRh` -/
def vmpyVhRh (v : Nat → Int) (r : Int) : WordPair where
  lo k := v (2 * k) * halfword r 0
  hi k := v (2 * k + 1) * halfword r 1

/-- `Q6_Vw_vadd_VwVw` -/
def vaddVwVw (u v : Nat → Int) : Nat → Int := fun k => wrap (u k + v k)

/-- `Q6_Vw_vasr_VwR` -/
def vasrVwR (v : Nat → Int) (q : Nat) : Nat → Int := fun k => v k >>> q

/-- `Q6_Vh_vsat_VwVw`: the lanes of the two vectors in turn, saturated. -/
def vsatVwVw (u v : Nat → Int) : Nat → Int := fun l =>
  if l % 2 = 0 then satI16 (v (l / 2)) else satI16 (u (l / 2))

/-- `a_dup`: the halfword of `a_h` in both halves of a register. -/
def aDup (aH : Int) : Int := aH % 2 ^ 16 * 2 ^ 16 + aH % 2 ^ 16

/-- The 64 results of a vector. -/
def axpbyVector (aH b : Int) (q : Nat) (v : Nat → Int) : Nat → Int :=
  let ax := vmpyVhRh v (aDup aH)
  let slo := vaddVwVw ax.lo fun _ => b
  let shi := vaddVwVw ax.hi fun _ => b
  vsatVwVw (vasrVwR shi q) (vasrVwR slo q)

/-! The kernels -/

/-- One element of the scalar loops; a sum or a product that leaves `int32_t` has no value. -/
def axpbyElement (a b : Int) (q : Nat) (x : Int) : Option Int := do
  let prod ← checked (a * x)
  let acc ← checked (prod + b)
  some (satI16 (acc >>> q))

/-- What `sp_compute_axpby` and `sp_compute_axpby_hvx` are passed. -/
structure AxpbyRequest where
  n : Int
  a : Int
  b : Int
  qBits : Int
  x : Buf Int
  y : Buf Int

/-- The scalar loop from element `start` on. -/
def axpbyTail (r : AxpbyRequest) (start count : Nat) (out : Nat → Int) : Option (Nat → Int) :=
  (List.range count).foldlM
    (fun out (t : Nat) => do
      let xv ← r.x.load 2 1 (start + t : Nat)
      let v ← axpbyElement r.a r.b r.qBits.toNat (xv 0)
      r.y.put 2 1 out (start + t : Nat) fun _ => v)
    out

/-- Vector `i` of the vector loop. -/
def axpbyBlock (r : AxpbyRequest) (out : Nat → Int) (i : Nat) : Option (Nat → Int) := do
  let xVec ← r.x.load 2 64 (64 * i : Nat)
  r.y.put 2 64 out (64 * i : Nat) (axpbyVector r.a r.b r.qBits.toNat xVec)

/-- `sp_compute_axpby` -/
def computeAxpby (r : AxpbyRequest) : Option (Returns Int) :=
  if r.n < 0 ∨ r.qBits < 0 ∨ r.qBits > 30 then some .rejected
  else if r.x.addr = 0 ∨ r.y.addr = 0 then some .rejected
  else if r.x.len < wrap (r.n * 2) ∨ r.y.len < wrap (r.n * 2) then some .rejected
  else (axpbyTail r 0 r.n.toNat r.y.cells).map .done

/-- `sp_compute_axpby_hvx` -/
def computeAxpbyHvx (r : AxpbyRequest) : Option (Returns Int) :=
  if r.n < 0 then some .rejected
  else if r.a < -32768 ∨ r.a > 32767 then some .rejected
  else if r.qBits < 0 ∨ r.qBits > 30 then some .rejected
  else if r.x.addr = 0 ∨ r.y.addr = 0 then some .rejected
  else if r.x.len < wrap (r.n * 2) ∨ r.y.len < wrap (r.n * 2) then some .rejected
  else do
    let vecBlocks := r.n.toNat / 64
    let out ← (List.range vecBlocks).foldlM (axpbyBlock r) r.y.cells
    let out ← axpbyTail r (vecBlocks * 64) (r.n.toNat - vecBlocks * 64) out
    some (.done out)

/-! One element -/

/-- What an element is to hold. -/
def axpbyLaw (a b : Int) (q : Nat) (x : Int) : Int := satI16 ((a * x + b) / 2 ^ q)

/-- What a lane of a vector holds. -/
def axpbyLane (a b : Int) (q : Nat) (x : Int) : Int := satI16 (wrap (a * x + b) >>> q)

theorem halfword_aDup {aH : Int} (hlo : -32768 ≤ aH) (hhi : aH ≤ 32767) :
    halfword (aDup aH) 0 = aH ∧ halfword (aDup aH) 1 = aH := by
  have hword : (aH % 2 ^ 16).bmod (2 ^ 16) = aH := by
    rw [Int.bmod_def]
    split <;> omega
  have hlow : halfword (aDup aH) 0 = (aH % 2 ^ 16 + 2 ^ 16 * (aH % 2 ^ 16)).bmod (2 ^ 16) := by
    rw [halfword, aDup, mul_zero, pow_zero, Int.ediv_one, Int.add_comm, Int.mul_comm]
  have hhigh : (aH % 2 ^ 16 * 2 ^ 16 + aH % 2 ^ 16) / 2 ^ 16 = aH % 2 ^ 16 := by omega
  constructor
  · rw [hlow]
    exact (Int.add_mul_bmod_self_left ..).trans hword
  · rw [halfword, aDup, mul_one, hhigh, hword]

/-- Every lane holds what its own element gives, whichever half it went through. -/
theorem axpbyVector_lane {a : Int} (hlo : -32768 ≤ a) (hhi : a ≤ 32767) (b : Int) (q : Nat)
    (v : Nat → Int) (l : Nat) : axpbyVector a b q v l = axpbyLane a b q (v l) := by
  obtain ⟨hlow, hhigh⟩ := halfword_aDup hlo hhi
  simp only [axpbyVector, vsatVwVw, vasrVwR, vaddVwVw, vmpyVhRh, hlow, hhigh, axpbyLane]
  split
  · rename_i heven
    have hat : 2 * (l / 2) = l := by omega
    rw [hat, Int.mul_comm]
  · rename_i hodd
    have hat : 2 * (l / 2) + 1 = l := by omega
    rw [hat, Int.mul_comm]

theorem satI16_neg_iff (s : Int) : satI16 s < 0 ↔ s < 0 := by
  unfold satI16
  split
  · omega
  · split <;> omega

theorem shift_neg_iff (s : Int) (q : Nat) : s >>> q < 0 ↔ s < 0 := by
  rw [Int.shiftRight_eq_div_pow]
  have hpos : (0 : Int) < (2 ^ q : Nat) := by positivity
  rw [← Int.not_le, ← Int.not_le, Int.ediv_nonneg_iff_of_pos hpos]

theorem shift_eq (s : Int) (q : Nat) : s >>> q = s / 2 ^ q := by
  rw [Int.shiftRight_eq_div_pow]
  norm_cast

/-- The law holds of a lane exactly when its sum does not wrap: a sum that wraps changes its
sign. -/
theorem axpbyLane_eq_iff {a b x : Int} {q : Nat} (ha : -2 ^ 30 ≤ a * x ∧ a * x ≤ 2 ^ 30)
    (hb : Fits b) : axpbyLane a b q x = axpbyLaw a b q x ↔ Fits (a * x + b) := by
  rw [axpbyLane, axpbyLaw, ← shift_eq]
  generalize a * x = p at ha
  constructor
  · intro h
    by_contra hwraps
    have hsign : wrap (p + b) < 0 ↔ p + b < 0 := by
      rw [← shift_neg_iff _ q, ← satI16_neg_iff, h, satI16_neg_iff, shift_neg_iff]
    unfold Fits at hb hwraps
    unfold wrap at hsign
    rw [Int.bmod_def] at hsign
    split at hsign <;> omega
  · intro h
    rw [CInt.wrap_of_fits h]

theorem axpbyElement_eq {a b x : Int} {q : Nat} (hp : Fits (a * x)) (h : Fits (a * x + b)) :
    axpbyElement a b q x = some (axpbyLaw a b q x) := by
  rw [axpbyElement, CInt.checked_of_fits hp, Option.bind_eq_bind, Option.bind_some,
    CInt.checked_of_fits h, Option.bind_some, shift_eq]
  rfl

theorem axpbyElement_none {a b x : Int} {q : Nat} (h : ¬ (Fits (a * x) ∧ Fits (a * x + b))) :
    axpbyElement a b q x = none := by
  rw [axpbyElement]
  by_cases hp : Fits (a * x)
  · rw [CInt.checked_of_fits hp, Option.bind_eq_bind, Option.bind_some, checked,
      if_neg fun hsum => h ⟨hp, hsum⟩]
    rfl
  · rw [checked, if_neg hp]
    rfl

/-! The loops -/

section

variable {r : AxpbyRequest} {n : Nat}

/-- The sums that a scalar loop takes at element `i` do not overflow. -/
def AxpbyRequest.FitsAt (r : AxpbyRequest) (i : Nat) : Prop :=
  Fits (r.a * r.x.cells i) ∧ Fits (r.a * r.x.cells i + r.b)

theorem axpbyTail_eq (hx : r.x.Holds 2 n 1) (hy : r.y.Holds 2 n 1) {start count : Nat}
    (hend : start + count ≤ n) (hfits : ∀ t, t < count → r.FitsAt (start + t))
    (out : Nat → Int) :
    axpbyTail r start count out = some (Buffer.store out start count fun t =>
      axpbyLaw r.a r.b r.qBits.toNat (r.x.cells (start + t))) := by
  rw [← Buffer.foldl_store_cells fun i => axpbyLaw r.a r.b r.qBits.toNat (r.x.cells i)]
  apply Traverse.foldlM_eq_some
  intro out t ht
  have hlt : t < count := List.mem_range.mp ht
  obtain ⟨hp, hsum⟩ := hfits t hlt
  rw [Buf.load_eq (hx.inside (by omega)), Option.bind_eq_bind, Option.bind_some,
    Int.toNat_natCast]
  beta_reduce
  rw [Nat.add_zero, axpbyElement_eq hp hsum, Option.bind_eq_bind,
    Option.bind_some, Buf.put_eq (hy.inside (by omega)), Int.toNat_natCast]

/-- An overflow at any element leaves the loop without a value. -/
theorem axpbyTail_none (hx : r.x.Holds 2 n 1) {start count t : Nat} (hend : start + count ≤ n)
    (ht : t < count) (hover : ¬ r.FitsAt (start + t)) (out : Nat → Int) :
    axpbyTail r start count out = none := by
  apply Traverse.foldlM_eq_none (List.mem_range.mpr ht)
  intro out
  rw [Buf.load_eq (hx.inside (by omega)), Option.bind_eq_bind, Option.bind_some,
    Int.toNat_natCast]
  beta_reduce
  rw [Nat.add_zero, axpbyElement_none hover]
  rfl

/-- The whole vectors. -/
theorem axpbyBlocks_eq (ha : -32768 ≤ r.a ∧ r.a ≤ 32767) (hx : r.x.Holds 2 n 1)
    (hy : r.y.Holds 2 n 1) (out : Nat → Int) :
    (List.range (n / 64)).foldlM (axpbyBlock r) out =
      some (Buffer.forCells (64 * (n / 64))
        (fun i _ => axpbyLane r.a r.b r.qBits.toNat (r.x.cells i)) out) := by
  rw [← Buffer.foldl_store fun i => axpbyLane r.a r.b r.qBits.toNat (r.x.cells i)]
  apply Traverse.foldlM_eq_some
  intro out i hi
  have hlt : i < n / 64 := List.mem_range.mp hi
  rw [axpbyBlock, Buf.load_eq (hx.inside (by omega)), Option.bind_eq_bind, Option.bind_some,
    Buf.put_eq (hy.inside (by omega)), Int.toNat_natCast]
  apply congrArg some
  apply Buffer.store_congr
  intro l _
  exact axpbyVector_lane ha.1 ha.2 r.b r.qBits.toNat _ l

/-- What both handlers ask for: a length and a shift in range, and buffers that hold the
elements, of 16 bits each. -/
structure AxpbyRequest.Held (r : AxpbyRequest) : Prop where
  count : 0 ≤ r.n
  shift : 0 ≤ r.qBits ∧ r.qBits ≤ 30
  nonNull : r.x.addr ≠ 0 ∧ r.y.addr ≠ 0
  xHolds : r.x.Holds 2 r.n.toNat 1
  yHolds : r.y.Holds 2 r.n.toNat 1

/-- What the vector handler admits. -/
structure AxpbyRequest.Admitted (r : AxpbyRequest) : Prop extends r.Held where
  factor : -32768 ≤ r.a ∧ r.a ≤ 32767
  offset : Fits r.b
  samples : ∀ i, i < r.n.toNat → -32768 ≤ r.x.cells i ∧ r.x.cells i ≤ 32767

/-- The check of the lengths passes. -/
theorem AxpbyRequest.Held.lengths (h : r.Held) :
    ¬ (r.x.len < wrap (r.n * 2) ∨ r.y.len < wrap (r.n * 2)) := by
  have hcount := h.count
  have hx := h.xHolds.enough
  have hy := h.yHolds.enough
  have hwords := h.xHolds.lt
  rw [CInt.wrap_of_fits (x := r.n * 2) ⟨by omega, by omega⟩]
  omega

theorem computeAxpby_eq (h : r.Held) :
    computeAxpby r = (axpbyTail r 0 r.n.toNat r.y.cells).map .done := by
  have hcount := h.count
  have hshift := h.shift
  have hnull := h.nonNull
  rw [computeAxpby, if_neg (by omega), if_neg (by omega), if_neg h.lengths]

namespace AxpbyRequest.Admitted

theorem product (h : r.Admitted) {i : Nat} (hi : i < r.n.toNat) :
    -2 ^ 30 ≤ r.a * r.x.cells i ∧ r.a * r.x.cells i ≤ 2 ^ 30 := by
  have ha : |r.a| ≤ 2 ^ 15 := abs_le.mpr ⟨by linarith [h.factor.1], by linarith [h.factor.2]⟩
  have hx : |r.x.cells i| ≤ 2 ^ 15 :=
    abs_le.mpr ⟨by linarith [(h.samples i hi).1], by linarith [(h.samples i hi).2]⟩
  have hmul : |r.a * r.x.cells i| ≤ 2 ^ 30 := by
    rw [abs_mul]
    calc |r.a| * |r.x.cells i| ≤ 2 ^ 15 * 2 ^ 15 :=
          mul_le_mul ha hx (abs_nonneg _) (by positivity)
      _ = 2 ^ 30 := by norm_num
  exact abs_le.mp hmul

theorem fitsAt_iff (h : r.Admitted) {i : Nat} (hi : i < r.n.toNat) :
    r.FitsAt i ↔ Fits (r.a * r.x.cells i + r.b) := by
  obtain ⟨hlo, hhi⟩ := h.product hi
  exact and_iff_right ⟨by omega, by omega⟩

end AxpbyRequest.Admitted

/-- The run of the vector handler, by what its scalar tail makes of the whole vectors. -/
theorem computeAxpbyHvx_eq (h : r.Admitted) :
    computeAxpbyHvx r = (axpbyTail r (r.n.toNat / 64 * 64) (r.n.toNat - r.n.toNat / 64 * 64)
      (Buffer.forCells (64 * (r.n.toNat / 64))
        (fun i _ => axpbyLane r.a r.b r.qBits.toNat (r.x.cells i)) r.y.cells)).map .done := by
  have hfactor := h.factor
  have hshift := h.shift
  have hnull := h.nonNull
  rw [computeAxpbyHvx, if_neg (Int.not_lt.mpr h.count), if_neg (by omega), if_neg (by omega),
    if_neg (by omega), if_neg h.toHeld.lengths]
  dsimp only
  rw [axpbyBlocks_eq hfactor h.xHolds h.yHolds]
  exact Option.map_eq_bind.symm

end

/-- The scalar handler gives the law at every position exactly when no product and no sum
overflows. -/
theorem computeAxpby_law_iff (r : AxpbyRequest) (h : r.Held) :
    (∃ out, computeAxpby r = some (.done out) ∧
      ∀ i, i < r.n.toNat → out i = axpbyLaw r.a r.b r.qBits.toNat (r.x.cells i)) ↔
      ∀ i, i < r.n.toNat → r.FitsAt i := by
  rw [computeAxpby_eq h]
  constructor
  · rintro ⟨out, hrun, -⟩ i hi
    by_contra hover
    rw [axpbyTail_none (t := i) h.xHolds (by omega) hi (by rwa [Nat.zero_add])] at hrun
    cases hrun
  · intro hfits
    rw [axpbyTail_eq h.xHolds h.yHolds (by omega) fun t ht => by
      rw [Nat.zero_add]
      exact hfits t ht]
    refine ⟨_, rfl, fun i hi => ?_⟩
    have hcell : Buffer.store r.y.cells 0 r.n.toNat
        (fun t => axpbyLaw r.a r.b r.qBits.toNat (r.x.cells (0 + t))) (0 + i) =
          axpbyLaw r.a r.b r.qBits.toNat (r.x.cells (0 + i)) :=
      Buffer.store_inside hi
    rwa [Nat.zero_add] at hcell

/-- The vector handler gives the law at every position exactly when every sum fits 32 bits. -/
theorem computeAxpbyHvx_law_iff (r : AxpbyRequest) (h : r.Admitted) :
    (∃ out, computeAxpbyHvx r = some (.done out) ∧
      ∀ i, i < r.n.toNat → out i = axpbyLaw r.a r.b r.qBits.toNat (r.x.cells i)) ↔
      ∀ i, i < r.n.toNat → Fits (r.a * r.x.cells i + r.b) := by
  have hparts : r.n.toNat / 64 * 64 + (r.n.toNat - r.n.toNat / 64 * 64) = r.n.toNat := by omega
  rw [computeAxpbyHvx_eq h]
  constructor
  · rintro ⟨out, hrun, hlaw⟩ i hi
    have htail : ∀ t, t < r.n.toNat - r.n.toNat / 64 * 64 →
        r.FitsAt (r.n.toNat / 64 * 64 + t) := by
      intro t ht
      by_contra hover
      rw [axpbyTail_none h.xHolds hparts.le ht hover] at hrun
      cases hrun
    rw [axpbyTail_eq h.xHolds h.yHolds hparts.le htail] at hrun
    cases hrun
    rcases Nat.lt_or_ge i (r.n.toNat / 64 * 64) with hblock | hrest
    · have hlane := hlaw i hi
      rw [Buffer.store_outside (Or.inl hblock), Buffer.forCells, if_pos (by omega)] at hlane
      exact (axpbyLane_eq_iff (h.product hi) h.offset).mp hlane
    · obtain ⟨t, rfl⟩ := Nat.exists_eq_add_of_le hrest
      exact (htail t (by omega)).2
  · intro hfits
    have htail : ∀ t, t < r.n.toNat - r.n.toNat / 64 * 64 →
        r.FitsAt (r.n.toNat / 64 * 64 + t) := fun t ht =>
      (h.fitsAt_iff (by omega)).mpr (hfits _ (by omega))
    rw [axpbyTail_eq h.xHolds h.yHolds hparts.le htail]
    refine ⟨_, rfl, fun i hi => ?_⟩
    rcases Nat.lt_or_ge i (r.n.toNat / 64 * 64) with hblock | hrest
    · rw [Buffer.store_outside (Or.inl hblock), Buffer.forCells, if_pos (by omega)]
      exact (axpbyLane_eq_iff (h.product hi) h.offset).mpr (hfits i hi)
    · obtain ⟨t, rfl⟩ := Nat.exists_eq_add_of_le hrest
      rw [Buffer.store_inside (by omega)]

/-- Sixty-five ones, scaled by one and shifted by none. -/
theorem computeAxpbyHvx_law_iff_ones :
    ∃ out, computeAxpbyHvx ⟨65, 1, 0, 0, ⟨128, 130, fun _ => 1⟩, ⟨384, 130, fun _ => 0⟩⟩ =
        some (.done out) ∧ ∀ i, i < 65 → out i = axpbyLaw 1 0 0 1 := by
  have hone : -32768 ≤ (1 : Int) ∧ (1 : Int) ≤ 32767 := by decide
  have hsum : Fits (1 * 1 + 0) := by decide
  exact (computeAxpbyHvx_law_iff ⟨65, 1, 0, 0, ⟨128, 130, fun _ => 1⟩, ⟨384, 130, fun _ => 0⟩⟩
    ⟨⟨by decide, by decide, by decide, ⟨by decide, by decide⟩, ⟨by decide, by decide⟩⟩,
      hone, by decide, fun _ _ => hone⟩).mpr fun _ _ => hsum

/-- A vector of ones and the largest offset: the sum wraps and saturates at the other end. -/
theorem computeAxpbyHvx_wraps :
    ¬ ∀ r : AxpbyRequest, r.Admitted → ∃ out, computeAxpbyHvx r = some (.done out) ∧
      ∀ i, i < r.n.toNat → out i = axpbyLaw r.a r.b r.qBits.toNat (r.x.cells i) := by
  intro h
  have hone : -32768 ≤ (1 : Int) ∧ (1 : Int) ≤ 32767 := by decide
  have hadmitted : AxpbyRequest.Admitted ⟨64, 1, 2147483647, 0, ⟨128, 128, fun _ => 1⟩,
      ⟨256, 128, fun _ => 0⟩⟩ :=
    ⟨⟨by decide, by decide, by decide, ⟨by decide, by decide⟩, ⟨by decide, by decide⟩⟩,
      hone, by decide, fun _ _ => hone⟩
  obtain ⟨out, hrun, hlaw⟩ := h _ hadmitted
  rw [computeAxpbyHvx_eq hadmitted] at hrun
  cases hrun
  exact absurd (hlaw 0 (by decide)) (by decide)

end ShannonPrime.Dsp
