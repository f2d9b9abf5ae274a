import ShannonPrime.Cuda.PackedRows

/-!
Dispatch of the packed product. A tensor whose rows differ in precision is uploaded with
precision 0, for the dequantising path; the packed path takes it for an 8-bit one. The
8-bit kernels also run on widths past a whole block of the activation, whose tail is not
quantised. When every weight is read at its own precision is settled for every upload.
-/

namespace ShannonPrime.Cuda

/-! ### Uploads -/

section Uploads

variable {F : Type*} {pt : PackedTensor F} {W : DevTensor F}

theorem upload_plain (hup : uploadPacked pt = some W) :
    W.f32 = none := by
  simp only [uploadPacked] at hup
  split at hup
  · cases hup
  · cases hup
    rfl

/-- Rows of an upload have its precision, when that is not 0. -/
theorem upload_rows (hup : uploadPacked pt = some W)
    (hprec : W.prec ≠ 0) : ∀ j < W.nOut, W.rowPrec j = W.prec := by
  simp only [uploadPacked] at hup
  split at hup
  · cases hup
  · cases hup
    intro j hj
    have hsame : (decide (0 < pt.rows) && (List.range' 1 (pt.rows - 1)).all fun r =>
        pt.rowPrec r == pt.rowPrec 0) = true := by
      cases hu : (decide (0 < pt.rows) && (List.range' 1 (pt.rows - 1)).all fun r =>
          pt.rowPrec r == pt.rowPrec 0) with
      | true => rfl
      | false =>
        simp only [hu] at hprec
        exact absurd rfl hprec
    simp only [hsame, if_true]
    rw [Bool.and_eq_true, List.all_eq_true] at hsame
    rcases Nat.eq_zero_or_pos j with rfl | hpos
    · rfl
    · have hmem : j ∈ List.range' 1 (pt.rows - 1) := by
        rw [List.mem_range'_1]
        simp only at hj
        omega
      exact beq_iff_eq.mp (hsame.2 j hmem)

/-- Blocks of scales go with rows of precision 4. -/
theorem upload_blocked (hup : uploadPacked pt = some W)
    (hprec : W.prec ≠ 4) (hrows : 0 < W.nOut) : W.bscale = none := by
  have hprecOf := upload_rows hup
  simp only [uploadPacked] at hup
  split at hup
  · cases hup
  · cases hup
    cases hb : pt.bscale with
    | none => rfl
    | some b =>
      have hfour := pt.blocked (by rw [hb]; rfl)
      have hall : (decide (0 < pt.rows) && (List.range' 1 (pt.rows - 1)).all fun r =>
          pt.rowPrec r == pt.rowPrec 0) = true := by
        rw [Bool.and_eq_true, List.all_eq_true]
        constructor
        · exact decide_eq_true hrows
        · intro r hr
          rw [List.mem_range'_1] at hr
          rw [hfour r (by omega), hfour 0 (by omega), beq_self_eq_true]
      simp only [hall, if_true] at hprec
      exact absurd (hfour 0 hrows) hprec

end Uploads

/-! ### Dispatch -/

section Dispatch

variable {F : Type*} [Field F] [LinearOrder F] [IsStrictOrderedRing F]
variable (A : Conversions F)

/-- Every value the packed path writes is that of the row's own weights. -/
def ReadsOwn (W : DevTensor F) : Prop :=
  ∀ x dY s y s', gemvWPacked A W x dY s = some (y, s') → ∀ j < W.nOut,
    y j = ∑ i ∈ Finset.range W.nIn,
      W.dequant A j i * ((actCode A x W.nIn i : F) * actScale x W.nIn (i / 16))

/-- A weight that the 8-bit kernels read right: of an 8-bit row, or of a row whose byte
and nibble stand for the same number. Past the last whole block of the activation it has
to be zero. -/
def DevTensor.Eightfold (W : DevTensor F) (j i : Nat) : Prop :=
  W.scaleOf j = 0 ∨
    if i / 16 < W.nIn / 16 then W.rowPrec j = 8 ∨ 7 * W.q8Code j i = 127 * W.q4Code j i
    else W.q8Code j i = 0 ∧ (W.rowPrec j = 8 ∨ W.q4Code j i = 0)

/-- The 4-bit kernels read the weights of a row. -/
theorem four_readsOwn {W : DevTensor F} (hplain : W.f32 = none) (hprec : W.prec = 4)
    (hrows : ∀ j < W.nOut, W.rowPrec j = 4) : ReadsOwn A W := by
  intro x dY s y s' hrun j hj
  simp only [gemvWPacked, hplain, hprec, Option.isSome_none, Bool.false_eq_true, if_false,
    if_true] at hrun
  split at hrun
  · cases hrun
  case isFalse hwidth =>
    have hwidth : W.nIn % 32 = 0 := by omega
    have hpad : (W.nIn + 31) / 32 * 32 = W.nIn := by omega
    rw [hpad] at hrun
    have hact : ∀ i ∈ Finset.range W.nIn, (quantActInt8 A x W.nIn W.nIn s).act i =
        (actCode A x W.nIn i : F) * actScale x W.nIn (i / 16) := by
      intro i hi
      have hlt := Finset.mem_range.mp hi
      rw [quantActInt8_act, if_pos (by omega)]
    cases hb : W.bscale with
    | some bscale =>
      simp only [hb, Option.some.injEq, Prod.mk.injEq] at hrun
      have hy : y j = gemvQ4bV2 A W (quantActInt8 A x W.nIn W.nIn s) j bscale := by
        rw [← hrun.1]
        exact if_pos hj
      rw [hy, gemvQ4bV2_eq W _ j A bscale hwidth]
      apply Finset.sum_congr rfl
      intro i hi
      simp only [DevTensor.dequant, hb, DevTensor.dequantArenaQ4b, hact i hi]
      rfl
    | none =>
      simp only [hb, Option.some.injEq, Prod.mk.injEq] at hrun
      have hy : y j = gemvQ4V2 W (quantActInt8 A x W.nIn W.nIn s) j := by
        rw [← hrun.1]
        exact if_pos hj
      rw [hy, gemvQ4V2_eq W _ j hwidth, Scratch.dot, Finset.sum_mul]
      apply Finset.sum_congr rfl
      intro i hi
      have hfour : W.rowPrec j ≠ 8 := by
        rw [hrows j hj]
        omega
      simp only [DevTensor.dequant, hb, DevTensor.dequantArena, hact i hi, if_neg hfour]
      rw [DevTensor.q4Code]
      ring

/-- What the two 8-bit kernels write. -/
theorem eight_run {W : DevTensor F} (hplain : W.f32 = none) (hprec : W.prec ≠ 4)
    (hwidth : W.nIn % 4 = 0) (x dY : Nat → F) (s : Scratch F) :
    ∃ y s', gemvWPacked A W x dY s = some (y, s') ∧ ∀ j < W.nOut,
      y j = ∑ i ∈ Finset.range W.nIn, W.q8Weight j i *
        if i / 16 < W.nIn / 16 then (actCode A x W.nIn i : F) * actScale x W.nIn (i / 16)
        else s.act i := by
  have hrow : ∀ j, (quantActInt8 A x W.nIn W.nIn s).dot (W.q8Code j) W.nIn *
      (W.scaleOf j * (1 / 127)) = ∑ i ∈ Finset.range W.nIn, W.q8Weight j i *
        if i / 16 < W.nIn / 16 then (actCode A x W.nIn i : F) * actScale x W.nIn (i / 16)
        else s.act i := by
    intro j
    rw [Scratch.dot, Finset.sum_mul]
    apply Finset.sum_congr rfl
    intro i _
    rw [quantActInt8_act, DevTensor.q8Weight]
    ring
  rcases Nat.eq_zero_or_pos (W.nIn % 16) with h16 | h16
  · have hpad : (W.nIn + 15) / 16 * 16 = W.nIn := by omega
    have hrun : gemvWPacked A W x dY s =
        some (fun j => if j < W.nOut then gemvQ8V2 W (quantActInt8 A x W.nIn W.nIn s) j else dY j,
          quantActInt8 A x W.nIn W.nIn s) := by
      simp only [gemvWPacked, hplain, Option.isSome_none, Bool.false_eq_true, if_false,
        if_neg hprec, if_pos h16, hpad]
    refine ⟨_, _, hrun, ?_⟩
    intro j hj
    simp only [if_pos hj, gemvQ8V2_eq W _ j h16, hrow]
  · have hpad : (W.nIn + 3) / 4 * 4 = W.nIn := by omega
    have hrun : gemvWPacked A W x dY s =
        some (fun j => if j < W.nOut then gemvQ8 W (quantActInt8 A x W.nIn W.nIn s) j else dY j,
          quantActInt8 A x W.nIn W.nIn s) := by
      simp only [gemvWPacked, hplain, Option.isSome_none, Bool.false_eq_true, if_false,
        if_neg hprec, if_neg (Nat.ne_of_gt h16), if_pos hwidth, hpad]
    refine ⟨_, _, hrun, ?_⟩
    intro j hj
    simp only [if_pos hj, gemvQ8_eq W _ j hwidth, hrow]

omit [LinearOrder F] [IsStrictOrderedRing F] in
theorem sum_pulse {n i : Nat} (hi : i < n) {f g : Nat → F} (hg : ∀ k ≠ i, g k = 0) :
    ∑ k ∈ Finset.range n, f k * g k = f i * g i := by
  apply Finset.sum_eq_single i
  · intro k _ hk
    rw [hg k hk, mul_zero]
  · intro hout
    exact absurd (Finset.mem_range.mpr hi) hout

/-- Over a cleared scratch a pulse makes an 8-bit kernel write the weight it has read. -/
theorem eight_run_pulse {W : DevTensor F} (hplain : W.f32 = none) (hprec : W.prec ≠ 4)
    (hwidth : W.nIn % 4 = 0) {i : Nat} (hi : i < W.nIn) :
    ∃ y s', gemvWPacked A W (pulse i) (fun _ => 0) ⟨fun _ => 0, fun _ => 0⟩ = some (y, s') ∧
      ∀ j < W.nOut, y j = if i / 16 < W.nIn / 16 then W.q8Weight j i else 0 := by
  obtain ⟨y, s', hrun, hy⟩ := eight_run A hplain hprec hwidth (pulse i) (fun _ => 0)
    ⟨fun _ => 0, fun _ => 0⟩
  refine ⟨y, s', hrun, ?_⟩
  intro j hj
  rw [hy j hj, sum_pulse hi]
  · simp [quant_pulse A W.nIn i hi, Scratch.act]
  · intro k hk
    simp [quant_pulse A W.nIn i hi, Scratch.act, hk]

/-- The row's own weight is what it should have written. -/
theorem sum_dequant_pulse (W : DevTensor F) (j : Nat) {i : Nat} (hi : i < W.nIn) :
    ∑ k ∈ Finset.range W.nIn, W.dequant A j k *
      ((actCode A (pulse i) W.nIn k : F) * actScale (pulse i) W.nIn (k / 16)) =
      W.dequant A j i := by
  rw [sum_pulse hi]
  · rw [quant_pulse A W.nIn i hi, if_pos rfl, mul_one]
  · intro k hk
    rw [quant_pulse A W.nIn i hi, if_neg hk]

/-- The 8-bit kernels read the weights of a row exactly where the bytes stand for them. -/
theorem eight_readsOwn_iff {W : DevTensor F} (hplain : W.f32 = none) (hprec : W.prec ≠ 4)
    (hwidth : W.nIn % 4 = 0) :
    ReadsOwn A W ↔ ∀ j < W.nOut, ∀ i < W.nIn,
      W.q8Weight j i = (if i / 16 < W.nIn / 16 then W.dequant A j i else 0) ∧
        (i / 16 < W.nIn / 16 ∨ W.dequant A j i = 0) := by
  constructor
  · intro hown j hj i hi
    -- a pulse in the activation, over a scratch that is clear
    have hpulse : (if i / 16 < W.nIn / 16 then W.q8Weight j i else 0) = W.dequant A j i := by
      obtain ⟨y, s', hrun, hy⟩ := eight_run_pulse A hplain hprec hwidth hi
      rw [← hy j hj, hown _ _ _ _ _ hrun j hj, sum_dequant_pulse A W j hi]
    -- and one in the scratch, under an activation that is clear
    have hstale : i / 16 < W.nIn / 16 ∨ W.q8Weight j i = 0 := by
      obtain ⟨y, s', hrun, hy⟩ := eight_run A hplain hprec hwidth
        (fun _ => 0) (fun _ => 0) ⟨fun k => if k = i then 1 else 0, fun _ => 1⟩
      have hrow := hown _ _ _ _ _ hrun j hj
      rw [hy j hj, sum_pulse hi] at hrow
      · by_cases hin : i / 16 < W.nIn / 16
        · left
          exact hin
        · right
          simpa [quant_zero A W.nIn, Scratch.act, hin] using hrow
      · intro k hk
        simp [quant_zero A W.nIn, Scratch.act, hk]
    rcases hstale with hin | hzero
    · rw [if_pos hin] at hpulse
      rw [if_pos hin]
      exact ⟨hpulse, Or.inl hin⟩
    · rw [hzero, ite_self] at hpulse
      rw [← hpulse, hzero, ite_self]
      exact ⟨rfl, Or.inr rfl⟩
  · intro hread x dY s y s' hrun j hj
    obtain ⟨y', t', hrun', hy⟩ := eight_run A hplain hprec hwidth x dY s
    rw [hrun] at hrun'
    cases hrun'
    rw [hy j hj]
    apply Finset.sum_congr rfl
    intro i hi
    obtain ⟨hw, hin⟩ := hread j hj i (Finset.mem_range.mp hi)
    rw [hw]
    rcases hin with hin | hzero
    · rw [if_pos hin, if_pos hin]
    · rw [hzero, ite_self, zero_mul, zero_mul]

/-- Away from blocks of scales, a weight is read as its row's when it is eightfold. -/
theorem eightfold_iff {W : DevTensor F} (hb : W.bscale = none) (j i : Nat) :
    (W.q8Weight j i = (if i / 16 < W.nIn / 16 then W.dequant A j i else 0) ∧
      (i / 16 < W.nIn / 16 ∨ W.dequant A j i = 0)) ↔ W.Eightfold j i := by
  have hdequant : W.dequant A j i =
      if W.rowPrec j = 8 then W.q8Weight j i else (W.q4Code j i : F) * (W.scaleOf j * (1 / 7)) := by
    simp only [DevTensor.dequant, hb]
    rfl
  rw [hdequant]
  simp only [DevTensor.q8Weight, DevTensor.Eightfold]
  rcases eq_or_ne (W.scaleOf j) 0 with hscale | hscale
  · simp [hscale]
  · have hzero : ∀ (z : Int) (c : F), c ≠ 0 → ((z : F) * (W.scaleOf j * c) = 0 ↔ z = 0) := by
      intro z c hc
      rw [mul_eq_zero, Int.cast_eq_zero]
      exact or_iff_left (mul_ne_zero hscale hc)
    have hnumber : (W.q8Code j i : F) * (W.scaleOf j * (1 / 127)) =
        (W.q4Code j i : F) * (W.scaleOf j * (1 / 7)) ↔ 7 * W.q8Code j i = 127 * W.q4Code j i := by
      rw [← @Int.cast_inj F]
      push_cast
      constructor
      · intro h
        field_simp at h
        linear_combination h
      · intro h
        field_simp
        linear_combination h
    have h127 := hzero (W.q8Code j i) (1 / 127) (by norm_num)
    have h7 := hzero (W.q4Code j i) (1 / 7) (by norm_num)
    by_cases hin : i / 16 < W.nIn / 16
    · by_cases h8 : W.rowPrec j = 8
      · simp [hin, h8]
      · simp only [hin, h8, if_true, if_false, true_or, and_true, false_or, hscale, hnumber]
    · by_cases h8 : W.rowPrec j = 8
      · simp only [hin, h8, if_true, if_false, false_or, true_or, and_true, hscale, h127, and_self]
      · simp only [hin, h8, if_false, false_or, hscale, h127, h7]

/-- The packed path reads every weight at its own precision when the rows are 4-bit, when
the width makes it decline, and else exactly when the tensor is eightfold. -/
theorem gemv_w_packed_exact_iff {pt : PackedTensor F} {W : DevTensor F}
    (hup : uploadPacked pt = some W) :
    ReadsOwn A W ↔ W.prec = 4 ∨ W.nIn % 4 ≠ 0 ∨ ∀ j < W.nOut, ∀ i < W.nIn, W.Eightfold j i := by
  have hplain := upload_plain hup
  by_cases hprec : W.prec = 4
  · have hrows := upload_rows hup (by omega)
    rw [hprec] at hrows
    exact iff_of_true (four_readsOwn A hplain hprec hrows) (Or.inl hprec)
  · by_cases hwidth : W.nIn % 4 = 0
    · rw [eight_readsOwn_iff A hplain hprec hwidth, or_iff_right hprec,
        or_iff_right (not_not.mpr hwidth)]
      constructor
      · intro hread j hj i hi
        exact (eightfold_iff A (upload_blocked hup hprec (by omega)) j i).mp (hread j hj i hi)
      · intro hfold j hj i hi
        exact (eightfold_iff A (upload_blocked hup hprec (by omega)) j i).mpr (hfold j hj i hi)
    · constructor
      · intro _
        exact Or.inr (Or.inl hwidth)
      · intro _ x dY s y s' hrun
        have h16 : W.nIn % 16 ≠ 0 := by omega
        simp only [gemvWPacked, hplain, Option.isSome_none, Bool.false_eq_true, if_false,
          if_neg hprec, if_neg h16, if_neg hwidth, reduceCtorEq] at hrun

end Dispatch

section Rational

/-- Rounding to the nearest integer, ties to even. -/
def nearestEven (q : ℚ) : Int :=
  if q - ⌊q⌋ < 1 / 2 then ⌊q⌋
  else if 1 / 2 < q - ⌊q⌋ then ⌊q⌋ + 1
  else if ⌊q⌋ % 2 = 0 then ⌊q⌋ else ⌊q⌋ + 1

/-- The number a half stands for, when it is finite. -/
def halfToRat (b : BitVec 16) : ℚ :=
  let exponent := b.toNat / 1024 % 32
  let mantissa : ℚ := ((b.toNat % 1024 : Nat) : ℚ)
  (if b.msb then -1 else 1) *
    if exponent = 0 then mantissa / 2 ^ 24 else (1024 + mantissa) * 2 ^ exponent / 2 ^ 25

def ratConversions : Conversions ℚ where
  nearest := nearestEven
  nearest_int z := by simp [nearestEven]
  half := halfToRat

/-- Two rows of width 16 over the bytes 1, the first 8-bit. -/
def pairTensor (second : Nat) (h : second = 8 ∨ second = 4) : PackedTensor ℚ where
  rows := 2
  cols := 16
  codes _ := 1
  rowOff r := 16 * r
  rowScale := some fun _ => 1
  rowPrec r := if r = 0 then 8 else second
  bscale := none
  bsNblk := 0
  precise r hr := by
    by_cases h0 : r = 0
    · simp [h0]
    · simpa [h0] using h
  blocked := by simp

def uniformTensor : PackedTensor ℚ := pairTensor 8 (Or.inl rfl)

def mixedTensor : PackedTensor ℚ := pairTensor 4 (Or.inr rfl)

/-- With both rows 8-bit every weight is read right. -/
theorem gemv_w_packed_exact_uniform :
    ∃ W, uploadPacked uniformTensor = some W ∧ W.prec = 8 ∧ ReadsOwn ratConversions W := by
  refine ⟨_, rfl, rfl, ?_⟩
  apply (gemv_w_packed_exact_iff ratConversions
    (rfl : uploadPacked uniformTensor = some _)).mpr
  right
  right
  intro j _ i hi
  right
  have hi : i < 16 := hi
  have hin : i / 16 < 16 / 16 := by omega
  have h8 : (if j = 0 then 8 else 8) = 8 := ite_self 8
  exact (if_pos hin).mpr (Or.inl h8)

/-- With the second row 4-bit the tensor has precision 0, and the 8-bit kernel takes that
row's nibbles for bytes. -/
theorem gemv_w_packed_mixed :
    ∃ W, uploadPacked mixedTensor = some W ∧ W.prec = 0 ∧
      ∃ y s', gemvWPacked ratConversions W (pulse 0) (fun _ => 0) ⟨fun _ => 0, fun _ => 0⟩ =
          some (y, s') ∧
        y 1 = 1 / 127 ∧
        ∑ i ∈ Finset.range W.nIn, W.dequant ratConversions 1 i *
          ((actCode ratConversions (pulse 0) W.nIn i : ℚ) * actScale (pulse 0) W.nIn (i / 16)) =
            1 / 7 := by
  refine ⟨_, rfl, rfl, ?_⟩
  obtain ⟨y, s', hrun, hy⟩ := eight_run_pulse ratConversions
    (upload_plain (rfl : uploadPacked mixedTensor = some _)) (by decide) rfl
    (show 0 < 16 by decide)
  refine ⟨y, s', hrun, ?_, ?_⟩
  · rw [hy 1 (by decide), if_pos (by decide)]
    simp [DevTensor.q8Weight, DevTensor.q8Code, DevTensor.scaleOf, mixedTensor, pairTensor]
  · rw [sum_dequant_pulse ratConversions _ 1 (by decide)]
    have hcode : nibCode 1 (0 % 2 == 1) = 1 := rfl
    simp only [DevTensor.dequant, DevTensor.dequantArena, DevTensor.scaleOf, mixedTensor,
      pairTensor, hcode]
    norm_num

end Rational

end ShannonPrime.Cuda
