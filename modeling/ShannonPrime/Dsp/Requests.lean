import ShannonPrime.Ntt.MatmulQ

/-!
The requests whose buffers are checked against products of dimensions (`sp_compute_crt_imp.c`,
`sp_compute_imp.c`). The checks multiply in 32 bits, the loops run over the dimensions
themselves: what passes the checks stays within its buffers exactly when no product wraps.
-/

namespace ShannonPrime.Dsp

open Bounded (Buf Returns)
open CInt (Fits wrap)
open Ntt (MatmulAdmits matmulQHvx matmulRow matmulStep matmulVector qMu)

/-! The product of matrices -/

/-- What `sp_compute_matmul_q` is passed; the counters of cycles are pointers. -/
structure MatmulRequest where
  qIdx : Int
  batch : Int
  dIn : Int
  dOut : Int
  x : Buf Nat
  w : Buf Nat
  y : Buf Nat
  pcyclesLo : Nat
  pcyclesHi : Nat
  dims : Fits batch ∧ Fits dIn ∧ Fits dOut
  lens : Fits x.len ∧ Fits w.len ∧ Fits y.len

/-- The words of the result that the log line reads. -/
def logMatmul (batch dOut : Int) (y : Buf Nat) (out : Nat → Nat) : Option (Nat × Nat) := do
  let first ← { y with cells := out }.load 4 1 0
  let last ← { y with cells := out }.load 4 1 (wrap (wrap (batch * dOut) - 1))
  some (first 0, last 0)

/-- `sp_compute_matmul_q`, by the buffers; a run that leaves one has no value. -/
def computeMatmulQ (r : MatmulRequest) : Option (Returns Nat) :=
  if r.qIdx < 0 ∨ r.qIdx > 1 then some .rejected
  else if r.batch < 1 ∨ r.dIn < 1 ∨ r.dOut < 32 then some .rejected
  else if r.dOut.tmod 32 ≠ 0 then some .rejected
  else if r.x.addr = 0 ∨ r.w.addr = 0 ∨ r.y.addr = 0 then some .rejected
  else if r.pcyclesLo = 0 ∨ r.pcyclesHi = 0 then some .rejected
  else if r.x.len ≠ wrap (wrap (r.batch * r.dIn) * 4) then some .rejected
  else if r.w.len ≠ wrap (wrap (r.dIn * r.dOut) * 4) then some .rejected
  else if r.y.len ≠ wrap (wrap (r.batch * r.dOut) * 4) then some .rejected
  else do
    match ← matmulQHvx r.qIdx r.batch r.dIn r.dOut r.x r.w r.y with
    | .rejected => some .rejected
    | .done out =>
        let _ ← logMatmul r.batch r.dOut r.y out
        some (.done out)

/-- No number of bytes wraps. -/
structure MatmulRequest.Small (r : MatmulRequest) : Prop where
  x : 4 * (r.batch * r.dIn) < 2 ^ 31
  w : 4 * (r.dIn * r.dOut) < 2 ^ 31
  y : 4 * (r.batch * r.dOut) < 2 ^ 31

/-! The batches of scalings -/

def satI16 (s : Int) : Int := if s > 32767 then 32767 else if s < -32768 then -32768 else s

/-- `n` elements of `x`, scaled into `y`. -/
def scaleElements (n : Nat) (aH : Int) (x y : Buf Int) (i : Int) (out : Nat → Int) :
    Option (Nat → Int) := do
  let xv ← x.load 2 n i
  y.put 2 n out i fun l => satI16 (xv l + aH)

/-- `scale_i16_inner`, from element `start` on: whole vectors, then one element after
another. -/
def scaleI16Inner (n : Nat) (aH : Int) (x y : Buf Int) (start : Int) (out : Nat → Int) :
    Option (Nat → Int) := do
  let vecBlocks := n / 64
  let out ← (List.range vecBlocks).foldlM
    (fun out (i : Nat) => scaleElements 64 aH x y (start + 64 * i) out) out
  (List.range (n - vecBlocks * 64)).foldlM
    (fun out (t : Nat) => scaleElements 1 aH x y (start + (vecBlocks * 64 + t : Nat)) out) out

/-- What `sp_compute_scale_i16_batched` is passed. -/
structure ScaleRequest where
  nPerBatch : Int
  nBatches : Int
  aH : Buf Int
  x : Buf Int
  y : Buf Int
  dims : Fits nPerBatch ∧ Fits nBatches
  lens : Fits aH.len ∧ Fits x.len ∧ Fits y.len

/-- The loop over the batches. -/
def scaleBatches (r : ScaleRequest) : Option (Nat → Int) :=
  (List.range r.nBatches.toNat).foldlM
    (fun out (b : Nat) => do
      let a ← r.aH.load 2 1 b
      scaleI16Inner r.nPerBatch.toNat (a 0) r.x r.y (wrap (b * r.nPerBatch)) out)
    r.y.cells

/-- `sp_compute_scale_i16_batched` -/
def scaleI16Batched (r : ScaleRequest) : Option (Returns Int) :=
  let total := wrap (r.nPerBatch * r.nBatches)
  if r.nPerBatch < 0 ∨ r.nBatches < 0 then some .rejected
  else if r.aH.addr = 0 ∨ r.x.addr = 0 ∨ r.y.addr = 0 then some .rejected
  else if r.aH.len < wrap (r.nBatches * 2) then some .rejected
  else if r.x.len < wrap (total * 2) ∨ r.y.len < wrap (total * 2) then some .rejected
  else (scaleBatches r).map .done

/-- No number of bytes wraps. -/
structure ScaleRequest.Small (r : ScaleRequest) : Prop where
  factors : 2 * r.nBatches < 2 ^ 31
  elements : 2 * (r.nPerBatch * r.nBatches) < 2 ^ 31

/-! What a product reads and writes -/

section

variable {M : Ntt.Modulus} {batch dIn dOut b iOut : Nat} {x w y : Buf Nat}

theorem matmulVector_inside (hx : x.Holds 4 batch dIn) (hw : w.Holds 4 dIn dOut) (hb : b < batch)
    (hin : iOut + 32 ≤ dOut) : ∃ acc, matmulVector M dIn dOut b iOut x w = some acc := by
  apply Traverse.foldlM_isSome
  intro acc k hk
  exact ⟨_, Ntt.matmulStep_eq hx hw hb (List.mem_range.mp hk) hin acc⟩

/-- Within buffers of their sizes the loops reach their end. -/
theorem matmulRows_inside (hx : x.Holds 4 batch dIn) (hw : w.Holds 4 dIn dOut)
    (hy : y.Holds 4 batch dOut) (out : Nat → Nat) :
    ∃ out', (List.range batch).foldlM (matmulRow M dIn dOut x w y) out = some out' := by
  apply Traverse.foldlM_isSome
  intro out b hb
  apply Traverse.foldlM_isSome
  intro out iv hiv
  have hin : iv < dOut / 32 := List.mem_range.mp hiv
  have hvector : iv * 32 + 32 ≤ dOut := by omega
  obtain ⟨acc, hacc⟩ := matmulVector_inside (M := M) hx hw (List.mem_range.mp hb) hvector
  rw [hacc, Option.bind_eq_bind, Option.bind_some,
    Ntt.put_eq hy (List.mem_range.mp hb) (by omega) out acc]
  exact ⟨_, rfl⟩

/-- A round of the loops at which an access leaves its buffer ends the run. -/
theorem matmulRows_outside (i : Nat) (hb : b < batch) (hi : i < dOut / 32)
    (h : ∀ out, (do
      let acc ← matmulVector M dIn dOut b (i * 32) x w
      y.put 4 32 out (wrap (b * dOut) + 32 * i) acc) = none) (out : Nat → Nat) :
    (List.range batch).foldlM (matmulRow M dIn dOut x w y) out = none := by
  apply Traverse.foldlM_eq_none (List.mem_range.mpr hb)
  intro out
  exact Traverse.foldlM_eq_none (List.mem_range.mpr hi) h out

/-- More words of `x` than its bytes can count. -/
theorem matmulRows_x_outside (hlen : x.len < 2 ^ 31) (hdOut : 32 ≤ dOut)
    (h : 2 ^ 31 ≤ 4 * (batch * dIn)) (out : Nat → Nat) :
    (List.range batch).foldlM (matmulRow M dIn dOut x w y) out = none := by
  obtain ⟨b, k, hb, hk, hint, hbeyond⟩ := Bounded.exists_beyond (by omega) h
  have hat : wrap (wrap (b * dIn) + k) = (b * dIn + k : Nat) := by
    rw [Bounded.wrap_row (by omega), ← Nat.cast_add]
    exact CInt.wrap_of_fits ⟨by omega, by omega⟩
  apply matmulRows_outside 0 hb (by omega)
  intro out
  have hvector : matmulVector M dIn dOut b (0 * 32) x w = none := by
    apply Traverse.foldlM_eq_none (List.mem_range.mpr hk)
    intro acc
    rw [matmulStep, hat, Buf.load_outside (Buf.not_inside hlen hbeyond)]
    rfl
  rw [hvector]
  rfl

theorem matmulRows_w_outside (hlen : w.len < 2 ^ 31) (hbatch : 0 < batch)
    (hdvd : 32 * (dOut / 32) = dOut) (h : 2 ^ 31 ≤ 4 * (dIn * dOut)) (out : Nat → Nat) :
    (List.range batch).foldlM (matmulRow M dIn dOut x w y) out = none := by
  obtain ⟨k, i, hk, hi, hint, hbeyond⟩ := Bounded.exists_beyond (by omega) h
  have hat : wrap (k * dOut) + (i / 32 * 32 : Nat) = (k * dOut + i / 32 * 32 : Nat) := by
    rw [Bounded.wrap_row (by omega), ← Nat.cast_add]
  apply matmulRows_outside (i / 32) hbatch (by omega)
  intro out
  have hvector : matmulVector M dIn dOut 0 (i / 32 * 32) x w = none := by
    apply Traverse.foldlM_eq_none (List.mem_range.mpr hk)
    intro acc
    rw [matmulStep, hat, Buf.load_outside (b := w) (Buf.not_inside hlen (by omega))]
    cases x.load 4 1 (wrap (wrap ((0 : Nat) * dIn) + k)) with
    | none => rfl
    | some xSplat => rfl
  rw [hvector]
  rfl

theorem matmulRows_y_outside (hlen : y.len < 2 ^ 31) (hdvd : 32 * (dOut / 32) = dOut)
    (h : 2 ^ 31 ≤ 4 * (batch * dOut)) (out : Nat → Nat) :
    (List.range batch).foldlM (matmulRow M dIn dOut x w y) out = none := by
  obtain ⟨b, i, hb, hi, hint, hbeyond⟩ := Bounded.exists_beyond (by omega) h
  have hat : wrap (b * dOut) + 32 * (i / 32 : Nat) = (b * dOut + 32 * (i / 32) : Nat) := by
    rw [Bounded.wrap_row (by omega), Nat.cast_add]
    rfl
  apply matmulRows_outside (i / 32) hb (by omega)
  intro out
  rw [hat]
  cases matmulVector M dIn dOut b (i / 32 * 32) x w with
  | none => rfl
  | some acc => exact Buf.put_outside (Buf.not_inside hlen (by omega)) out acc

end

section

variable {r : MatmulRequest}

/-- What a request that is not answered -1 has passed. -/
structure MatmulRequest.Checked (r : MatmulRequest) : Prop where
  admits : MatmulAdmits r.qIdx r.batch r.dIn r.dOut r.x r.w r.y
  counters : r.pcyclesLo ≠ 0 ∧ r.pcyclesHi ≠ 0
  xLen : r.x.len = wrap (wrap (r.batch * r.dIn) * 4)
  wLen : r.w.len = wrap (wrap (r.dIn * r.dOut) * 4)
  yLen : r.y.len = wrap (wrap (r.batch * r.dOut) * 4)

theorem computeMatmulQ_checked (h : computeMatmulQ r ≠ some .rejected) : r.Checked := by
  have hadmits : MatmulAdmits r.qIdx r.batch r.dIn r.dOut r.x r.w r.y := by
    by_contra hnot
    apply h
    rw [computeMatmulQ, Ntt.matmulQHvx_rejects hnot]
    simp only [Option.bind_eq_bind, Option.bind_some, ite_self]
  unfold computeMatmulQ at h
  simp only [ne_eq, ite_eq_left_iff, not_forall] at h
  obtain ⟨-, -, -, -, hcounters, hx, hw, hy, -⟩ := h
  exact ⟨hadmits, by omega, not_not.mp hx, not_not.mp hw, not_not.mp hy⟩

theorem computeMatmulQ_eq (h : r.Checked) :
    computeMatmulQ r = (do
      let out ← (List.range r.batch.toNat).foldlM
        (matmulRow (qMu r.qIdx) r.dIn.toNat r.dOut.toNat r.x r.w r.y) r.y.cells
      let _ ← logMatmul r.batch r.dOut r.y out
      some (.done out)) := by
  obtain ⟨hadmits, hcounters, hx, hw, hy⟩ := h
  obtain ⟨hprime, hbatch, hdIn, hdOut, hvectors, hnull, -⟩ := id hadmits
  have htmod : r.dOut.tmod 32 = 0 := by
    rw [Int.tmod_eq_emod_of_nonneg (by omega), hvectors]
  rw [computeMatmulQ, if_neg (by omega), if_neg (by omega), if_neg (by omega), if_neg (by omega),
    if_neg (by omega), if_neg (not_not.mpr hx), if_neg (not_not.mpr hw), if_neg (not_not.mpr hy),
    Ntt.matmulQHvx_admitted hadmits]
  cases (List.range r.batch.toNat).foldlM
    (matmulRow (qMu r.qIdx) r.dIn.toNat r.dOut.toNat r.x r.w r.y) r.y.cells with
  | none => rfl
  | some out => rfl

/-- A product of dimensions whose bytes do not wrap, as the length of a buffer. -/
theorem holds_of_len {V : Type*} {b : Buf V} {m n : Int} (hm : 1 ≤ m) (hn : 1 ≤ n)
    (hlen : b.len = wrap (wrap (m * n) * 4)) (hsmall : 4 * (m * n) < 2 ^ 31) :
    b.Holds 4 m.toNat n.toNat := by
  have hpos : 0 < m * n := Int.mul_pos (by omega) (by omega)
  have hcast : ((m.toNat * n.toNat : Nat) : Int) = m * n := by
    rw [Nat.cast_mul, Int.toNat_of_nonneg (by omega), Int.toNat_of_nonneg (by omega)]
  have hbytes : b.len = 4 * (m * n) := by
    rw [hlen, CInt.wrap_of_fits (x := m * n) ⟨by omega, by omega⟩,
      CInt.wrap_of_fits ⟨by omega, by omega⟩, Int.mul_comm]
  constructor
  · omega
  · rw [Nat.cast_mul, hcast]
    exact hbytes.ge

theorem logMatmul_inside {batch dOut : Int} {y : Buf Nat} (hbatch : 1 ≤ batch) (hdOut : 1 ≤ dOut)
    (hy : y.Holds 4 batch.toNat dOut.toNat) (out : Nat → Nat) :
    ∃ logged, logMatmul batch dOut y out = some logged := by
  have hpos : 0 < batch.toNat * dOut.toNat := Nat.mul_pos (by omega) (by omega)
  have hwords := hy.lt
  have hcast : ((batch.toNat * dOut.toNat : Nat) : Int) = batch * dOut := by
    rw [Nat.cast_mul, Int.toNat_of_nonneg (by omega), Int.toNat_of_nonneg (by omega)]
  have hfirst : Buf.Inside 4 1 { y with cells := out } (0 : Nat) :=
    Buf.Holds.inside (b := { y with cells := out }) ⟨hy.int, hy.enough⟩ hpos
  have hlast : Buf.Inside 4 1 { y with cells := out } (batch.toNat * dOut.toNat - 1 : Nat) :=
    Buf.Holds.inside (b := { y with cells := out }) ⟨hy.int, hy.enough⟩ (by omega)
  have hat : wrap (wrap (batch * dOut) - 1) = (batch.toNat * dOut.toNat - 1 : Nat) := by
    rw [← hcast, CInt.wrap_of_fits (x := (batch.toNat * dOut.toNat : Nat)) ⟨by omega, by omega⟩,
      CInt.wrap_of_fits ⟨by omega, by omega⟩]
    omega
  rw [logMatmul, hat, Buf.load_eq hlast]
  exact ⟨_, congrArg (fun first => first >>= _) (Buf.load_eq hfirst)⟩

/-- Some product wraps: an access leaves its buffer. -/
theorem computeMatmulQ_outside (h : r.Checked) (hbig : ¬ r.Small) : computeMatmulQ r = none := by
  obtain ⟨-, hbatch, hdIn, hdOut, hvectors, -, -⟩ := h.admits
  have hbatchCast := Int.toNat_of_nonneg (a := r.batch) (by omega)
  have hdInCast := Int.toNat_of_nonneg (a := r.dIn) (by omega)
  have hdOutCast := Int.toNat_of_nonneg (a := r.dOut) (by omega)
  have hdvd : 32 * (r.dOut.toNat / 32) = r.dOut.toNat := by omega
  have hnone : (List.range r.batch.toNat).foldlM
      (matmulRow (qMu r.qIdx) r.dIn.toNat r.dOut.toNat r.x r.w r.y) r.y.cells = none := by
    rcases Int.lt_or_le (4 * (r.batch * r.dIn)) (2 ^ 31) with hx | hx
    · rcases Int.lt_or_le (4 * (r.dIn * r.dOut)) (2 ^ 31) with hw | hw
      · rcases Int.lt_or_le (4 * (r.batch * r.dOut)) (2 ^ 31) with hy | hy
        · exact absurd ⟨hx, hw, hy⟩ hbig
        · rw [← hbatchCast, ← hdOutCast] at hy
          exact matmulRows_y_outside r.lens.2.2.2 hdvd (by exact_mod_cast hy) _
      · rw [← hdInCast, ← hdOutCast] at hw
        exact matmulRows_w_outside r.lens.2.1.2 (by omega) hdvd (by exact_mod_cast hw) _
    · rw [← hbatchCast, ← hdInCast] at hx
      exact matmulRows_x_outside r.lens.1.2 (by omega) (by exact_mod_cast hx) _
  rw [computeMatmulQ_eq h, hnone]
  rfl

theorem computeMatmulQ_inside_iff (h : r.Checked) :
    (∃ out, computeMatmulQ r = some (.done out)) ↔ r.Small := by
  constructor
  · rintro ⟨out, hrun⟩
    by_contra hbig
    rw [computeMatmulQ_outside h hbig] at hrun
    cases hrun
  · rintro ⟨hx, hw, hy⟩
    obtain ⟨-, hbatch, hdIn, hdOut, -, -, -⟩ := h.admits
    have hyHolds := holds_of_len hbatch (by omega) h.yLen hy
    obtain ⟨out, hout⟩ := matmulRows_inside (M := qMu r.qIdx) (holds_of_len hbatch hdIn h.xLen hx)
      (holds_of_len hdIn (by omega) h.wLen hw) hyHolds r.y.cells
    obtain ⟨logged, hlog⟩ := logMatmul_inside hbatch (by omega) hyHolds out
    rw [computeMatmulQ_eq h, hout, Option.bind_eq_bind, Option.bind_some, hlog]
    exact ⟨out, rfl⟩

end

/-! What a batch of scalings reads and writes -/

section

variable {n rows b : Nat} {x y : Buf Int}

theorem scaleElements_inside {m p : Nat} (hx : x.Holds 2 rows n) (hy : y.Holds 2 rows n)
    (hend : p + m ≤ rows * n) (aH : Int) (out : Nat → Int) :
    ∃ out', scaleElements m aH x y p out = some out' := by
  rw [scaleElements, Buf.load_eq (hx.inside hend), Option.bind_eq_bind, Option.bind_some,
    Buf.put_eq (hy.inside hend)]
  exact ⟨_, rfl⟩

theorem scaleElements_outside {m p : Nat} (hlen : x.len < 2 ^ 31) (h : 2 ^ 31 ≤ 2 * (p + m))
    (aH : Int) (out : Nat → Int) : scaleElements m aH x y p out = none := by
  rw [scaleElements, Buf.load_outside (Buf.not_inside hlen h)]
  rfl

/-- Where a block starts. -/
theorem block_cast (start i : Nat) : (start : Int) + 64 * i = (start + 64 * i : Nat) := by
  rw [Nat.cast_add, Nat.cast_mul]
  rfl

theorem scaleI16Inner_inside (hx : x.Holds 2 rows n) (hy : y.Holds 2 rows n) (hb : b < rows)
    (aH : Int) (out : Nat → Int) :
    ∃ out', scaleI16Inner n aH x y (b * n : Nat) out = some out' := by
  have hrow : b * n + n ≤ rows * n := Buffer.block_le hb
  obtain ⟨mid, hmid⟩ : ∃ mid, (List.range (n / 64)).foldlM
      (fun out (i : Nat) => scaleElements 64 aH x y ((b * n : Nat) + 64 * i) out) out =
        some mid := by
    apply Traverse.foldlM_isSome
    intro out i hi
    have hin : i < n / 64 := List.mem_range.mp hi
    rw [block_cast]
    exact scaleElements_inside hx hy (by omega) aH out
  rw [scaleI16Inner, hmid, Option.bind_eq_bind, Option.bind_some]
  apply Traverse.foldlM_isSome
  intro out t ht
  have hin : t < n - n / 64 * 64 := List.mem_range.mp ht
  rw [← Nat.cast_add]
  exact scaleElements_inside hx hy (by omega) aH out

/-- Element `i` of the batch lies beyond the bytes that the length can count. -/
theorem scaleI16Inner_outside {start i : Nat} (hlen : x.len < 2 ^ 31) (hi : i < n)
    (hbeyond : 2 ^ 31 ≤ 2 * (start + i + 1)) (aH : Int) (out : Nat → Int) :
    scaleI16Inner n aH x y start out = none := by
  rcases Nat.lt_or_ge i (n / 64 * 64) with hblock | htail
  · have hblocks : (List.range (n / 64)).foldlM
        (fun out (i : Nat) => scaleElements 64 aH x y (start + 64 * i) out) out = none := by
      apply Traverse.foldlM_eq_none (x := i / 64) (List.mem_range.mpr (by omega))
      intro out
      rw [block_cast]
      exact scaleElements_outside hlen (by omega) aH out
    rw [scaleI16Inner, hblocks]
    rfl
  · have hat : n / 64 * 64 + (i - n / 64 * 64) = i := by omega
    rw [scaleI16Inner]
    cases (List.range (n / 64)).foldlM
        (fun out (i : Nat) => scaleElements 64 aH x y (start + 64 * i) out) out with
    | none => rfl
    | some mid =>
        apply Traverse.foldlM_eq_none (x := i - n / 64 * 64) (List.mem_range.mpr (by omega))
        intro out
        rw [hat, ← Nat.cast_add]
        exact scaleElements_outside hlen hbeyond aH out

end

section

variable {r : ScaleRequest}

/-- What a request that is not answered -1 has passed. -/
structure ScaleRequest.Checked (r : ScaleRequest) : Prop where
  nPerBatch : 0 ≤ r.nPerBatch
  nBatches : 0 ≤ r.nBatches
  nonNull : r.aH.addr ≠ 0 ∧ r.x.addr ≠ 0 ∧ r.y.addr ≠ 0
  aHLen : wrap (r.nBatches * 2) ≤ r.aH.len
  xLen : wrap (wrap (r.nPerBatch * r.nBatches) * 2) ≤ r.x.len
  yLen : wrap (wrap (r.nPerBatch * r.nBatches) * 2) ≤ r.y.len

theorem scaleI16Batched_checked (h : scaleI16Batched r ≠ some .rejected) : r.Checked := by
  unfold scaleI16Batched at h
  simp only [ne_eq, ite_eq_left_iff, not_forall] at h
  obtain ⟨hdims, hnull, haH, hxy, -⟩ := h
  constructor <;> omega

theorem scaleI16Batched_eq (h : r.Checked) :
    scaleI16Batched r = (scaleBatches r).map .done := by
  obtain ⟨hper, hbatches, hnull, haH, hx, hy⟩ := h
  dsimp only [scaleI16Batched]
  rw [if_neg (by omega), if_neg (by omega), if_neg (by omega), if_neg (by omega)]

/-- A batch whose element leaves its buffer ends the run. -/
theorem scaleBatches_none {b : Nat} (hb : b < r.nBatches.toNat)
    (h : ∀ a out, r.aH.load 2 1 b = some a →
      scaleI16Inner r.nPerBatch.toNat (a 0) r.x r.y (wrap (b * r.nPerBatch)) out = none) :
    scaleBatches r = none := by
  apply Traverse.foldlM_eq_none (List.mem_range.mpr hb)
  intro out
  cases ha : r.aH.load 2 1 (b : Int) with
  | none => rfl
  | some a => exact h a out ha

theorem ScaleRequest.Checked.elements (h : r.Checked) :
    ((r.nBatches.toNat * r.nPerBatch.toNat : Nat) : Int) = r.nPerBatch * r.nBatches := by
  rw [Nat.cast_mul, Int.toNat_of_nonneg h.nPerBatch, Int.toNat_of_nonneg h.nBatches, Int.mul_comm]

/-- Where a batch starts. -/
theorem ScaleRequest.Checked.start (h : r.Checked) {b : Nat}
    (hint : b * r.nPerBatch.toNat < 2 ^ 31) :
    wrap (b * r.nPerBatch) = (b * r.nPerBatch.toNat : Nat) := by
  have hcast : (b : Int) * r.nPerBatch = b * (r.nPerBatch.toNat : Int) := by
    rw [Int.toNat_of_nonneg h.nPerBatch]
  rw [hcast]
  exact Bounded.wrap_row hint

/-- Some product wraps: an access leaves its buffer. -/
theorem scaleI16Batched_outside (h : r.Checked) (hbig : ¬ r.Small) :
    scaleI16Batched r = none := by
  have helements := h.elements
  have hbatches := h.nBatches
  have hnone : scaleBatches r = none := by
    rcases Int.lt_or_le (2 * r.nBatches) (2 ^ 31) with hfactors | hfactors
    · have helems : 2 ^ 31 ≤ 2 * (r.nBatches.toNat * r.nPerBatch.toNat) := by
        by_contra hlt
        exact hbig ⟨hfactors, by omega⟩
      obtain ⟨b, i, hb, hi, hint, hbeyond⟩ := Bounded.exists_beyond (by omega) helems
      apply scaleBatches_none hb
      intro a out _
      rw [h.start (by omega)]
      exact scaleI16Inner_outside r.lens.2.1.2 hi hbeyond (a 0) out
    · apply scaleBatches_none (b := r.nBatches.toNat - 1) (by omega)
      intro a out ha
      rw [Buf.load_outside (Buf.not_inside r.lens.1.2 (by omega))] at ha
      cases ha
  rw [scaleI16Batched_eq h, hnone]
  rfl

theorem scaleI16Batched_inside_iff (h : r.Checked) :
    (∃ out, scaleI16Batched r = some (.done out)) ↔ r.Small := by
  constructor
  · rintro ⟨out, hrun⟩
    by_contra hbig
    rw [scaleI16Batched_outside h hbig] at hrun
    cases hrun
  · rintro ⟨hfactors, helems⟩
    have helements := h.elements
    have hbatches := h.nBatches
    have hnonneg : 0 ≤ r.nPerBatch * r.nBatches := Int.mul_nonneg h.nPerBatch hbatches
    have hwrap : wrap (wrap (r.nPerBatch * r.nBatches) * 2) = r.nPerBatch * r.nBatches * 2 := by
      rw [CInt.wrap_of_fits (x := r.nPerBatch * r.nBatches) ⟨by omega, by omega⟩,
        CInt.wrap_of_fits ⟨by omega, by omega⟩]
    have haWrap : wrap (r.nBatches * 2) = r.nBatches * 2 :=
      CInt.wrap_of_fits ⟨by omega, by omega⟩
    have hx := h.xLen
    have hy := h.yLen
    have haH := h.aHLen
    rw [hwrap] at hx hy
    rw [haWrap] at haH
    have hxHolds : r.x.Holds 2 r.nBatches.toNat r.nPerBatch.toNat := ⟨r.lens.2.1.2, by omega⟩
    have hyHolds : r.y.Holds 2 r.nBatches.toNat r.nPerBatch.toNat := ⟨r.lens.2.2.2, by omega⟩
    have haHolds : r.aH.Holds 2 r.nBatches.toNat 1 := ⟨r.lens.1.2, by omega⟩
    obtain ⟨out, hout⟩ : ∃ out, scaleBatches r = some out := by
      apply Traverse.foldlM_isSome
      intro out b hb
      have hlt : b < r.nBatches.toNat := List.mem_range.mp hb
      have hend : b * r.nPerBatch.toNat ≤ r.nBatches.toNat * r.nPerBatch.toNat :=
        Nat.mul_le_mul_right _ hlt.le
      rw [Buf.load_eq (haHolds.inside (by omega)), Option.bind_eq_bind, Option.bind_some,
        h.start (by omega)]
      exact scaleI16Inner_inside hxHolds hyHolds hlt _ out
    rw [scaleI16Batched_eq h, hout]
    exact ⟨out, rfl⟩

end

/-- A request of either kind that passes the checks stays within its buffers exactly when no
number of bytes wraps. -/
theorem requests_inside_iff (r : MatmulRequest) (q : ScaleRequest) :
    (computeMatmulQ r = some .rejected ∨
      ((∃ out, computeMatmulQ r = some (.done out)) ↔ r.Small)) ∧
    (scaleI16Batched q = some .rejected ∨
      ((∃ out, scaleI16Batched q = some (.done out)) ↔ q.Small)) := by
  constructor
  · rw [or_iff_not_imp_left]
    intro h
    exact computeMatmulQ_inside_iff (computeMatmulQ_checked h)
  · rw [or_iff_not_imp_left]
    intro h
    exact scaleI16Batched_inside_iff (scaleI16Batched_checked h)

/-- 32769 rows of 32768 words, and 65536 batches of 32769 elements: both numbers of bytes wrap
to 131072, the length of the buffer that is read past its end. -/
theorem requests_leave_buffers :
    (¬ ∀ r : MatmulRequest, computeMatmulQ r ≠ none) ∧
      ¬ ∀ r : ScaleRequest, scaleI16Batched r ≠ none := by
  constructor
  · intro h
    apply h ⟨0, 32769, 32768, 32, ⟨4, 131072, fun _ => 0⟩, ⟨128, 4194304, fun _ => 0⟩,
      ⟨256, 4194432, fun _ => 0⟩, 8, 16, ⟨by decide, by decide, by decide⟩,
      ⟨by decide, by decide, by decide⟩⟩
    apply computeMatmulQ_outside
    · exact ⟨⟨by decide, by decide, by decide, by decide, by decide, by decide, by decide⟩,
        by decide, by decide, by decide, by decide⟩
    · exact fun hsmall => absurd hsmall.x (by decide)
  · intro h
    apply h ⟨32769, 65536, ⟨4, 131072, fun _ => 0⟩, ⟨128, 131072, fun _ => 0⟩,
      ⟨256, 131072, fun _ => 0⟩, ⟨by decide, by decide⟩, ⟨by decide, by decide, by decide⟩⟩
    apply scaleI16Batched_outside
    · exact ⟨by decide, by decide, by decide, by decide, by decide, by decide⟩
    · exact fun hsmall => absurd hsmall.elements (by decide)

end ShannonPrime.Dsp
