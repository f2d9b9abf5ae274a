import ShannonPrime.Cuda.Experts
import ShannonPrime.Cuda.PackedRows

/-!
An expert's slice of a tensor, as the packed product finds it on the device. The view of
a resident tensor and the fields staged in the slab hold the same rows, and two tensors
that hold the same rows run alike as long as the kernels are the same and stay within the
bytes of the slice.
-/

namespace ShannonPrime.Cuda

variable {F : Type*} [Field F] [LinearOrder F]

/-! ### Rows and their bytes -/

namespace HostTensor

variable (pt : HostTensor)

/-- A byte of the rows `[r0, r0 + rows)`. -/
def InRows (r0 rows a : Nat) : Prop :=
  ∃ r, r0 ≤ r ∧ r < r0 + rows ∧ pt.rowOff r ≤ a ∧ a < pt.rowOff r + rowBytes (pt.rowPrec r) pt.cols

/-- All rows have one precision. -/
def Uniform : Prop := ∀ r < pt.rows, pt.rowPrec r = pt.rowPrec 0

/-- The scale of a row; OK_Q4B has none. -/
def scaleOf (single : BitVec 32 → F) (r : Nat) : F :=
  (pt.rowScale.map fun s => single (s r)).getD 0

/-- A row ends before every later one starts. -/
theorem row_le_end {r r' : Nat} (hlt : r < r') (hr' : r' ≤ pt.rows) :
    pt.rowOff r + rowBytes (pt.rowPrec r) pt.cols ≤ pt.codesEnd r' := by
  induction r' with
  | zero => exact absurd hlt (Nat.not_lt_zero r)
  | succ r' ih =>
      have hstep := pt.ascending r' (by omega)
      rcases Nat.lt_succ_iff_lt_or_eq.mp hlt with hlt | rfl
      · have hend := ih hlt (by omega)
        have hstart : pt.codesEnd r' = pt.rowOff r' := if_pos (by omega)
        rw [hstart] at hend
        simp only [codesEnd]
        omega
      · exact hstep

theorem rowOff_le {r r' : Nat} (hle : r ≤ r') (hr' : r' < pt.rows) :
    pt.rowOff r ≤ pt.rowOff r' := by
  rcases Nat.eq_or_lt_of_le hle with rfl | hlt
  · exact Nat.le_refl _
  · have hend := pt.row_le_end hlt (Nat.le_of_lt hr')
    rw [codesEnd, if_pos hr'] at hend
    omega

theorem codesEnd_le {r : Nat} (hr : r ≤ pt.rows) : pt.codesEnd r ≤ pt.codesBytes := by
  rcases Nat.eq_or_lt_of_le hr with rfl | hlt
  · rw [codesEnd, if_neg (Nat.lt_irrefl _)]
  · have hend := pt.row_le_end hlt (Nat.le_refl _)
    have hlast : pt.codesEnd pt.rows = pt.codesBytes := if_neg (Nat.lt_irrefl _)
    rw [codesEnd, if_pos hlt]
    omega

variable {pt}

theorem InRows.bounds {r0 rows a : Nat} (h : pt.InRows r0 rows a) (hfit : r0 + rows ≤ pt.rows) :
    pt.rowOff r0 ≤ a ∧ a < pt.codesEnd (r0 + rows) := by
  obtain ⟨r, hle, hlt, hstart, hend⟩ := h
  have hbase := pt.rowOff_le hle (by omega)
  have hlast := pt.row_le_end hlt hfit
  omega

/-- A slice has a precision when its rows do. -/
theorem slicePrec_iff {r0 rows p : Nat} (hrows : 0 < rows) (hp : 0 < p) :
    pt.slicePrec r0 rows = p ↔ ∀ i < rows, pt.rowPrec (r0 + i) = p := by
  have hall : (List.range' 1 (rows - 1)).all (fun i => pt.rowPrec (r0 + i) == pt.rowPrec r0) =
      true ↔ ∀ i < rows, pt.rowPrec (r0 + i) = pt.rowPrec r0 := by
    rw [List.all_eq_true]
    constructor
    · intro h i hi
      rcases Nat.eq_zero_or_pos i with rfl | hpos
      · rfl
      · exact beq_iff_eq.mp (h i (List.mem_range'_1.mpr (by omega)))
    · intro h i hi
      have hi := List.mem_range'_1.mp hi
      exact beq_iff_eq.mpr (h i (by omega))
  rw [slicePrec]
  constructor
  · intro h i hi
    split at h
    · rename_i hsame
      rw [hall.mp hsame i hi, h]
    · omega
  · intro h
    have hzero : pt.rowPrec r0 = p := h 0 hrows
    rw [if_pos, hzero]
    apply hall.mpr
    intro i hi
    rw [h i hi, hzero]

end HostTensor

/-! ### Tensors that hold a slice -/

namespace DevTensor

variable (W : DevTensor F)

/-- The bytes of a row the kernels take: half a byte a weight at precision 4, else one. -/
def takes : Nat := if W.prec = 4 then W.nIn / 2 else W.nIn

/-- The bytes of the codes the kernels take, when the packed path is taken. -/
def codeReads : List Nat :=
  (List.range W.nOut).flatMap fun j => (List.range W.takes).map fun i => W.rowOff j + i

omit [Field F] [LinearOrder F] in
theorem mem_codeReads {a : Nat} :
    a ∈ W.codeReads ↔ ∃ j < W.nOut, ∃ i < W.takes, W.rowOff j + i = a := by
  simp only [codeReads, List.mem_flatMap, List.mem_range, List.mem_map]

/-- The tensor holds the rows `[r0, r0 + rows)` of a host tensor, its codes from `base` on. -/
structure Holds (single : BitVec 32 → F) (W : DevTensor F) (pt : HostTensor)
    (r0 rows base : Nat) : Prop where
  plain : W.f32 = none
  width : W.nIn = pt.cols
  height : W.nOut = rows
  starts : ∀ j < rows, base + W.rowOff j = pt.rowOff (r0 + j)
  precs : ∀ j < rows, W.rowPrec j = pt.rowPrec (r0 + j)
  codes : ∀ a, base + a < pt.codesEnd (r0 + rows) → W.codes a = pt.codes (base + a)
  scales : pt.bscale = none → W.bscale = none ∧
    ∀ j < rows, W.scaleOf j = pt.scaleOf single (r0 + j)
  blocks : ∀ b, pt.bscale = some b → ∃ b', W.bscale = some b' ∧
    ∀ j < rows, ∀ c < pt.cols / 32, b' (j * W.bsNblk + c) = b ((r0 + j) * pt.bsNblk + c)

end DevTensor

/-! ### Products on tensors that hold the same slice -/

section Twins

variable (A : Conversions F) {single : BitVec 32 → F} {W W' : DevTensor F} {pt : HostTensor}
  {r0 rows base base' : Nat}

omit [Field F] [LinearOrder F] in
theorem write_congr {f g dY : Nat → F} {n : Nat} (h : ∀ j < n, f j = g j) :
    (fun j => if j < n then f j else dY j) = fun j => if j < n then g j else dY j := by
  funext j
  split
  · rename_i hj
    exact h j hj
  · rfl

omit [LinearOrder F] in
/-- The bytes the kernels take of a row are the same in both. -/
theorem twin_codes (hW : W.Holds single pt r0 rows base) (hW' : W'.Holds single pt r0 rows base')
    (hin : ∀ a ∈ W.codeReads, base + a < pt.codesEnd (r0 + rows)) {j i : Nat} (hj : j < rows)
    (hi : i < W.takes) : W'.codes (W'.rowOff j + i) = W.codes (W.rowOff j + i) := by
  have hread := hin (W.rowOff j + i) (W.mem_codeReads.mpr ⟨j, by rw [hW.height]; exact hj, i, hi, rfl⟩)
  have hstart := hW.starts j hj
  have hstart' := hW'.starts j hj
  have hplace : base' + (W'.rowOff j + i) = base + (W.rowOff j + i) := by omega
  rw [hW.codes _ hread, hW'.codes _ (by omega), hplace]

variable [IsStrictOrderedRing F]

/-- A 4-bit product. -/
theorem twin_four (hW : W.Holds single pt r0 rows base) (hW' : W'.Holds single pt r0 rows base')
    (hprec : W.prec = 4) (hprec' : W'.prec = 4)
    (hin : ∀ a ∈ W.codeReads, base + a < pt.codesEnd (r0 + rows)) (x dY : Nat → F)
    (s : Scratch F) : gemvWPacked A W' x dY s = gemvWPacked A W x dY s := by
  have hwidth : W'.nIn = W.nIn := by rw [hW.width, hW'.width]
  have hheight : W'.nOut = W.nOut := by rw [hW.height, hW'.height]
  simp only [gemvWPacked, hW.plain, hW'.plain, hprec, hprec', hwidth, hheight,
    Option.isSome_none, Bool.false_eq_true, if_false, if_true]
  split
  · rfl
  case isFalse hdec =>
  have h32 : W.nIn % 32 = 0 := by omega
  have h32' : W'.nIn % 32 = 0 := by omega
  have hcode : ∀ j < W.nOut, ∀ i ∈ Finset.range W.nIn, W'.q4Code j i = W.q4Code j i := by
    intro j hj i hi
    rw [hW.height] at hj
    have hi := Finset.mem_range.mp hi
    have htake : i / 2 < W.takes := by
      rw [DevTensor.takes, if_pos hprec]
      omega
    rw [DevTensor.q4Code, DevTensor.q4Code, twin_codes hW hW' hin hj htake]
  cases hb : pt.bscale with
  | none =>
    obtain ⟨hnone, hscale⟩ := hW.scales hb
    obtain ⟨hnone', hscale'⟩ := hW'.scales hb
    simp only [hnone, hnone', Option.some.injEq, Prod.mk.injEq, and_true]
    apply write_congr
    intro j hj
    rw [gemvQ4V2_eq W' _ j h32', gemvQ4V2_eq W _ j h32, hscale j (by rwa [← hW.height]),
      hscale' j (by rwa [← hW.height]), hwidth, Scratch.dot, Scratch.dot]
    congr 1
    apply Finset.sum_congr rfl
    intro i hi
    rw [hcode j hj i hi]
  | some b =>
    obtain ⟨c, hsome, hblock⟩ := hW.blocks b hb
    obtain ⟨c', hsome', hblock'⟩ := hW'.blocks b hb
    simp only [hsome, hsome', Option.some.injEq, Prod.mk.injEq, and_true]
    apply write_congr
    intro j hj
    rw [gemvQ4bV2_eq W' _ j A c' h32', gemvQ4bV2_eq W _ j A c h32, hwidth]
    apply Finset.sum_congr rfl
    intro i hi
    have hlt : i / 32 < pt.cols / 32 := by
      have hi := Finset.mem_range.mp hi
      have hw := hW.width
      omega
    rw [hcode j hj i hi, hblock j (by rwa [← hW.height]) _ hlt,
      hblock' j (by rwa [← hW.height]) _ hlt]

omit [IsStrictOrderedRing F] in
/-- An 8-bit product. -/
theorem twin_eight (hW : W.Holds single pt r0 rows base) (hW' : W'.Holds single pt r0 rows base')
    (hprec : W.prec ≠ 4) (hprec' : W'.prec ≠ 4) (hb : pt.bscale = none)
    (hin : ∀ a ∈ W.codeReads, base + a < pt.codesEnd (r0 + rows)) (x dY : Nat → F)
    (s : Scratch F) : gemvWPacked A W' x dY s = gemvWPacked A W x dY s := by
  have hwidth : W'.nIn = W.nIn := by rw [hW.width, hW'.width]
  have hheight : W'.nOut = W.nOut := by rw [hW.height, hW'.height]
  have hscale : ∀ j < W.nOut, W'.scaleOf j = W.scaleOf j := by
    intro j hj
    rw [hW.height] at hj
    rw [(hW.scales hb).2 j hj, (hW'.scales hb).2 j hj]
  have hdot : ∀ j < W.nOut, ∀ s : Scratch F,
      s.dot (W'.q8Code j) W.nIn = s.dot (W.q8Code j) W.nIn := by
    intro j hj s
    rw [hW.height] at hj
    apply Finset.sum_congr rfl
    intro i hi
    have htake : i < W.takes := by
      rw [DevTensor.takes, if_neg hprec]
      exact Finset.mem_range.mp hi
    rw [DevTensor.q8Code, DevTensor.q8Code, twin_codes hW hW' hin hj htake]
  simp only [gemvWPacked, hW.plain, hW'.plain, hwidth, hheight, if_neg hprec, if_neg hprec',
    Option.isSome_none, Bool.false_eq_true, if_false]
  split
  case isTrue h16 =>
    simp only [Option.some.injEq, Prod.mk.injEq, and_true]
    apply write_congr
    intro j hj
    rw [gemvQ8V2_eq W' _ j (by omega), gemvQ8V2_eq W _ j h16, hwidth, hdot j hj, hscale j hj]
  case isFalse =>
    split
    case isTrue h4 =>
      simp only [Option.some.injEq, Prod.mk.injEq, and_true]
      apply write_congr
      intro j hj
      rw [gemvQ8_eq W' _ j (by omega), gemvQ8_eq W _ j h4, hwidth, hdot j hj, hscale j hj]
    case isFalse => rfl

/-- A product whose reads stay within the slice only depends on the slice and on the
kernel. -/
theorem twin_run (hW : W.Holds single pt r0 rows base) (hW' : W'.Holds single pt r0 rows base')
    (hfour : W'.prec = 4 ↔ W.prec = 4) (hblocked : pt.bscale.isSome = true → W.prec = 4)
    (hin : ∀ a ∈ W.codeReads, base + a < pt.codesEnd (r0 + rows)) (x dY : Nat → F)
    (s : Scratch F) : gemvWPacked A W' x dY s = gemvWPacked A W x dY s := by
  rcases eq_or_ne W.prec 4 with hprec | hprec
  · exact twin_four A hW hW' hprec (hfour.mpr hprec) hin x dY s
  · have hb : pt.bscale = none := by
      rw [← Option.not_isSome_iff_eq_none]
      intro hsome
      exact hprec (hblocked hsome)
    exact twin_eight A hW hW' hprec (mt hfour.mp hprec) hb hin x dY s

end Twins

end ShannonPrime.Cuda
