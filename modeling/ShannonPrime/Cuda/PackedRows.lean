import ShannonPrime.Cuda.Packed

/-!
What the kernels of the packed product compute: a row is the dot product of its codes, read
as bytes or as nibbles, with the activation the scratch stands for, whatever way the lanes
of a block or a warp share and add it up.
-/

namespace ShannonPrime.Cuda

open Reduction

/-! ### Words and their bytes -/

section Words

theorem byteAt_append (c0 c1 c2 c3 : BitVec 8) :
    byteAt (c3 ++ c2 ++ c1 ++ c0) 0 = c0 ∧ byteAt (c3 ++ c2 ++ c1 ++ c0) 1 = c1 ∧
      byteAt (c3 ++ c2 ++ c1 ++ c0) 2 = c2 ∧ byteAt (c3 ++ c2 ++ c1 ++ c0) 3 = c3 := by
  refine ⟨?_, ?_, ?_, ?_⟩
  all_goals
    apply BitVec.eq_of_getLsbD_eq
    intro i hi
    simp only [byteAt, BitVec.getLsbD_extractLsb', BitVec.getLsbD_append, hi, decide_true,
      Bool.true_and]
    grind

theorem pack_bytes (c0 c1 c2 c3 : BitVec 8) :
    c0.setWidth 32 ||| c1.setWidth 32 <<< 8 ||| c2.setWidth 32 <<< 16 ||| c3.setWidth 32 <<< 24 =
      c3 ++ c2 ++ c1 ++ c0 := by
  apply BitVec.eq_of_getLsbD_eq
  intro i hi
  simp only [BitVec.getLsbD_append, BitVec.getLsbD_or, BitVec.getLsbD_setWidth,
    BitVec.getLsbD_shiftLeft, hi, decide_true, Bool.true_and]
  grind

/-- Shifted down and masked, a word gives its bytes. -/
theorem mask_byte (c0 c1 c2 c3 : BitVec 8) :
    let w := c3 ++ c2 ++ c1 ++ c0
    w &&& 0xFF#32 = c0.setWidth 32 ∧ w.sshiftRight 8 &&& 0xFF#32 = c1.setWidth 32 ∧
      w.sshiftRight 16 &&& 0xFF#32 = c2.setWidth 32 ∧
      w.sshiftRight 24 &&& 0xFF#32 = c3.setWidth 32 := by
  have hmask : ∀ i, i < 32 → (0xFF#32).getLsbD i = decide (i < 8) := by decide
  intro w
  refine ⟨?_, ?_, ?_, ?_⟩
  all_goals
    apply BitVec.eq_of_getLsbD_eq
    intro i hi
    simp only [w, BitVec.getLsbD_and, hmask i hi, BitVec.getLsbD_sshiftRight,
      BitVec.getLsbD_setWidth, BitVec.getLsbD_append, hi, decide_true, Bool.true_and]
    grind

/-- A nibble sign-extended within its byte. -/
def nibByte (b : BitVec 8) (hi : Bool) : BitVec 8 :=
  (((if hi then b >>> 4 else b) &&& 0xF#8) ^^^ 0x8#8) - 0x8#8

theorem spx_nibByte : ∀ (b : BitVec 8) (hi : Bool),
    spx (b.setWidth 32) hi = (nibByte b hi).setWidth 32 ∧
      (nibByte b hi).toInt = nibCode b hi := by
  decide

theorem spUnpack8_word (m : Bytes) (a : Nat) :
    spUnpack8 (word m a) =
      (nibByte (m (a + 1)) true ++ nibByte (m (a + 1)) false ++ nibByte (m a) true ++
          nibByte (m a) false,
        nibByte (m (a + 3)) true ++ nibByte (m (a + 3)) false ++ nibByte (m (a + 2)) true ++
          nibByte (m (a + 2)) false) := by
  obtain ⟨h0, h1, h2, h3⟩ := mask_byte (m a) (m (a + 1)) (m (a + 2)) (m (a + 3))
  simp only [spUnpack8, word, h0, h1, h2, h3, (spx_nibByte _ _).1, pack_bytes]

theorem dp4a_append (c0 c1 c2 c3 : BitVec 8) (q : Bytes) (b : Nat) (acc : Int) :
    dp4a (c3 ++ c2 ++ c1 ++ c0) (word q b) acc =
      acc + (c0.toInt * (q b).toInt + c1.toInt * (q (b + 1)).toInt +
        c2.toInt * (q (b + 2)).toInt + c3.toInt * (q (b + 3)).toInt) := by
  obtain ⟨h0, h1, h2, h3⟩ := byteAt_append c0 c1 c2 c3
  obtain ⟨k0, k1, k2, k3⟩ := byteAt_append (q b) (q (b + 1)) (q (b + 2)) (q (b + 3))
  simp only [dp4a, word, h0, h1, h2, h3, k0, k1, k2, k3]

theorem dp4a_word (m q : Bytes) (a b : Nat) (acc : Int) :
    dp4a (word m a) (word q b) acc =
      acc + ((m a).toInt * (q b).toInt + (m (a + 1)).toInt * (q (b + 1)).toInt +
        (m (a + 2)).toInt * (q (b + 2)).toInt + (m (a + 3)).toInt * (q (b + 3)).toInt) :=
  dp4a_append _ _ _ _ q b acc

end Words

section Dots

variable {F : Type*} [Field F]

/-- The block of a row in `k_gemv_q8_dp4a` adds up all the terms. -/
theorem sharedRow (n : Nat) (term : Nat → F) :
    tree sharedStep 8 (lane 256 n term) 0 = ∑ c ∈ Finset.range n, term c := by
  rw [tree_zero 8 (lane 256 n term), ← sum_lane (show 0 < 256 by omega) n term]
  · rfl
  · intro i _ v t ht
    simp [sharedStep, ht]

/-- So does the warp of a row in the other kernels. -/
theorem shflRow (n : Nat) (term : Nat → F) :
    tree shflStep 5 (lane 32 n term) 0 = ∑ c ∈ Finset.range n, term c := by
  rw [tree_zero 5 (lane 32 n term), ← sum_lane (show 0 < 32 by omega) n term]
  · rfl
  · intro i hi v t ht
    have hpow : 2 ^ i ≤ 2 ^ 4 := Nat.pow_le_pow_right (by omega) (by omega)
    simp only [shflStep]
    rw [if_pos (by omega)]

variable (W : DevTensor F) (s : Scratch F) (j : Nat)

/-- The activation the scratch stands for. -/
def Scratch.act (i : Nat) : F := (s.qx i).toInt * s.sxb (i / 16)

/-- A row of codes against it. -/
def Scratch.dot (code : Nat → Int) (n : Nat) : F :=
  ∑ i ∈ Finset.range n, (code i : F) * s.act i

theorem gemvQ8_eq (h : W.nIn % 4 = 0) :
    gemvQ8 W s j = s.dot (W.q8Code j) W.nIn * (W.scaleOf j * (1 / 127)) := by
  have hterm : ∀ k, (dp4a (word W.codes (W.rowOff j + 4 * k)) (word s.qx (4 * k)) 0 : F) *
      s.sxb (k / 4) = ∑ r ∈ Finset.range 4, (W.q8Code j (4 * k + r) : F) * s.act (4 * k + r) := by
    intro k
    have hact : ∀ r ∈ Finset.range 4, (W.q8Code j (4 * k + r) : F) * s.act (4 * k + r) =
        ((W.codes (W.rowOff j + 4 * k + r)).toInt * (s.qx (4 * k + r)).toInt : Int) *
          s.sxb (k / 4) := by
      intro r hr
      have hblock : (4 * k + r) / 16 = k / 4 := by
        have := Finset.mem_range.mp hr
        omega
      rw [DevTensor.q8Code, Scratch.act, hblock, Nat.add_assoc]
      push_cast
      ring
    rw [Finset.sum_congr rfl hact, ← Finset.sum_mul]
    simp only [dp4a_word, Finset.sum_range_succ, Finset.sum_range_zero, Nat.add_assoc]
    push_cast
    ring_nf
  have hwidth : 4 * (W.nIn / 4) = W.nIn := by omega
  simp only [gemvQ8, hterm]
  rw [sharedRow, sum_blocks 4 _ fun i => (W.q8Code j i : F) * s.act i, hwidth]
  rfl

theorem gemvQ8V2_eq (h : W.nIn % 16 = 0) :
    gemvQ8V2 W s j = s.dot (W.q8Code j) W.nIn * (W.scaleOf j * (1 / 127)) := by
  have hterm : ∀ c, (dp4a (word W.codes (W.rowOff j + 16 * c + 4 * 3)) (word s.qx (16 * c + 4 * 3))
      (dp4a (word W.codes (W.rowOff j + 16 * c + 4 * 2)) (word s.qx (16 * c + 4 * 2))
      (dp4a (word W.codes (W.rowOff j + 16 * c + 4 * 1)) (word s.qx (16 * c + 4 * 1))
      (dp4a (word W.codes (W.rowOff j + 16 * c + 4 * 0)) (word s.qx (16 * c + 4 * 0)) 0))) : F) *
      s.sxb c = ∑ r ∈ Finset.range 16, (W.q8Code j (16 * c + r) : F) * s.act (16 * c + r) := by
    intro c
    have hact : ∀ r ∈ Finset.range 16, (W.q8Code j (16 * c + r) : F) * s.act (16 * c + r) =
        ((W.codes (W.rowOff j + 16 * c + r)).toInt * (s.qx (16 * c + r)).toInt : Int) *
          s.sxb c := by
      intro r hr
      have hblock : (16 * c + r) / 16 = c := by
        have := Finset.mem_range.mp hr
        omega
      rw [DevTensor.q8Code, Scratch.act, hblock, Nat.add_assoc]
      push_cast
      ring
    rw [Finset.sum_congr rfl hact, ← Finset.sum_mul]
    simp only [dp4a_word, Finset.sum_range_succ, Finset.sum_range_zero, Nat.add_assoc]
    push_cast
    ring
  have hwidth : 16 * (W.nIn / 16) = W.nIn := by omega
  simp only [gemvQ8V2, hterm]
  rw [shflRow, sum_blocks 16 _ fun i => (W.q8Code j i : F) * s.act i, hwidth]
  rfl

omit [Field F] in
/-- The two accumulators of a chunk hold its two sixteens. -/
theorem q4Halves_eq (c : Nat) :
    q4Halves W s j c =
      (∑ r ∈ Finset.range 16, W.q4Code j (32 * c + r) * (s.qx (32 * c + r)).toInt,
        ∑ r ∈ Finset.range 16, W.q4Code j (32 * c + (16 + r)) *
          (s.qx (32 * c + (16 + r))).toInt) := by
  have hcode : ∀ r < 32, W.q4Code j (32 * c + r) =
      (nibByte (W.codes (W.rowOff j + 16 * c + r / 2)) (r % 2 == 1)).toInt := by
    intro r _
    have hbyte : (32 * c + r) / 2 = 16 * c + r / 2 := by omega
    have hside : (32 * c + r) % 2 = r % 2 := by omega
    rw [DevTensor.q4Code, hbyte, hside, (spx_nibByte _ _).2, Nat.add_assoc]
  have hlow : ∀ r ∈ Finset.range 16, W.q4Code j (32 * c + r) * (s.qx (32 * c + r)).toInt =
      (nibByte (W.codes (W.rowOff j + 16 * c + r / 2)) (r % 2 == 1)).toInt *
        (s.qx (32 * c + r)).toInt := by
    intro r hr
    rw [hcode r (by have := Finset.mem_range.mp hr; omega)]
  have hhigh : ∀ r ∈ Finset.range 16, W.q4Code j (32 * c + (16 + r)) *
      (s.qx (32 * c + (16 + r))).toInt =
      (nibByte (W.codes (W.rowOff j + 16 * c + (16 + r) / 2)) ((16 + r) % 2 == 1)).toInt *
        (s.qx (32 * c + (16 + r))).toInt := by
    intro r hr
    rw [hcode (16 + r) (by have := Finset.mem_range.mp hr; omega)]
  rw [Finset.sum_congr rfl hlow, Finset.sum_congr rfl hhigh]
  simp only [q4Halves, spUnpack8_word, dp4a_append, Finset.sum_range_succ,
    Finset.sum_range_zero, Nat.add_assoc]
  have hzero : ((0 : Nat) == 1) = false := rfl
  norm_num [hzero]
  constructor <;> ring_nf

/-- A chunk of thirty-two against the activation. -/
theorem q4Halves_act (c : Nat) :
    ((q4Halves W s j c).1 : F) * s.sxb (2 * c) + (q4Halves W s j c).2 * s.sxb (2 * c + 1) =
      ∑ r ∈ Finset.range 32, (W.q4Code j (32 * c + r) : F) * s.act (32 * c + r) := by
  have hlow : ∀ r ∈ Finset.range 16, (W.q4Code j (32 * c + r) : F) * s.act (32 * c + r) =
      (W.q4Code j (32 * c + r) * (s.qx (32 * c + r)).toInt : Int) * s.sxb (2 * c) := by
    intro r hr
    have hblock : (32 * c + r) / 16 = 2 * c := by
      have := Finset.mem_range.mp hr
      omega
    rw [Scratch.act, hblock]
    push_cast
    ring
  have hhigh : ∀ r ∈ Finset.range 16,
      (W.q4Code j (32 * c + (16 + r)) : F) * s.act (32 * c + (16 + r)) =
        (W.q4Code j (32 * c + (16 + r)) * (s.qx (32 * c + (16 + r))).toInt : Int) *
          s.sxb (2 * c + 1) := by
    intro r hr
    have hblock : (32 * c + (16 + r)) / 16 = 2 * c + 1 := by
      have := Finset.mem_range.mp hr
      omega
    rw [Scratch.act, hblock]
    push_cast
    ring
  rw [show (32 : Nat) = 16 + 16 from rfl, Finset.sum_range_add,
    Finset.sum_congr rfl hlow, Finset.sum_congr rfl hhigh, ← Finset.sum_mul, ← Finset.sum_mul,
    q4Halves_eq]
  push_cast
  rfl

theorem gemvQ4V2_eq (h : W.nIn % 32 = 0) :
    gemvQ4V2 W s j = s.dot (W.q4Code j) W.nIn * (W.scaleOf j * (1 / 7)) := by
  have hwidth : 32 * (W.nIn / 32) = W.nIn := by omega
  simp only [gemvQ4V2, q4Halves_act]
  rw [shflRow, sum_blocks 32 _ fun i => (W.q4Code j i : F) * s.act i, hwidth]
  rfl

theorem gemvQ4bV2_eq [LinearOrder F] [IsStrictOrderedRing F] (A : Conversions F)
    (bscale : Nat → BitVec 16) (h : W.nIn % 32 = 0) :
    gemvQ4bV2 A W s j bscale =
      ∑ i ∈ Finset.range W.nIn,
        (W.q4Code j i : F) * A.half (bscale (j * W.bsNblk + i / 32)) * s.act i := by
  have hchunk : ∀ c, A.half (bscale (j * W.bsNblk + c)) *
      (∑ r ∈ Finset.range 32, (W.q4Code j (32 * c + r) : F) * s.act (32 * c + r)) =
      ∑ r ∈ Finset.range 32, (W.q4Code j (32 * c + r) : F) *
        A.half (bscale (j * W.bsNblk + (32 * c + r) / 32)) * s.act (32 * c + r) := by
    intro c
    rw [Finset.mul_sum]
    apply Finset.sum_congr rfl
    intro r hr
    have hblock : (32 * c + r) / 32 = c := by
      have := Finset.mem_range.mp hr
      omega
    rw [hblock]
    ring
  have hwidth : 32 * (W.nIn / 32) = W.nIn := by omega
  simp only [gemvQ4bV2, q4Halves_act, hchunk]
  rw [shflRow, sum_blocks 32 _ fun i =>
    (W.q4Code j i : F) * A.half (bscale (j * W.bsNblk + i / 32)) * s.act i, hwidth]

end Dots

/-! ### The quantised activation -/

section Quantised

variable {F : Type*} [Field F] [LinearOrder F] [IsStrictOrderedRing F]
variable (A : Conversions F) (x : Nat → F) (n : Nat)

omit [IsStrictOrderedRing F] in
theorem actCode_bounds (i : Nat) : -127 ≤ actCode A x n i ∧ actCode A x n i ≤ 127 := by
  simp only [actCode]
  split
  · omega
  · split
    · omega
    · omega

omit [IsStrictOrderedRing F] in
theorem quantActInt8_act (npad : Nat) (s : Scratch F) (i : Nat) :
    (quantActInt8 A x n npad s).act i =
      if i / 16 < npad / 16 then (actCode A x n i : F) * actScale x n (i / 16) else s.act i := by
  simp only [Scratch.act, quantActInt8]
  split
  case isTrue h =>
    obtain ⟨hlo, hhi⟩ := actCode_bounds A x n i
    have hcode : (BitVec.ofInt 8 (actCode A x n i)).toInt = actCode A x n i := by
      apply BitVec.toInt_ofInt_eq_self
      · omega
      · omega
      · omega
    rw [hcode]
  case isFalse h => rfl

/-- An activation with one entry. -/
def pulse (i : Nat) : Nat → F := fun k => if k = i then 1 else 0

theorem actMax_pulse (i : Nat) (hi : i < n) : actMax (pulse i : Nat → F) n (i / 16) = 1 := by
  have hentry : ∀ r, (if 16 * (i / 16) + r < n then
      |(if 16 * (i / 16) + r = i then (1 : F) else 0)| else 0) =
      if r = i % 16 then 1 else 0 := by
    intro r
    have hdiv := Nat.div_add_mod i 16
    by_cases hr : r = i % 16
    · rw [if_pos (by omega), if_pos (by omega), if_pos hr, abs_one]
    · rw [if_neg (show ¬ 16 * (i / 16) + r = i by omega), if_neg hr, abs_zero, ite_self]
  have hfold : ∀ (l : List Nat) (m : F), m = 0 ∨ m = 1 →
      l.foldl (fun m r => if m < (if r = i % 16 then (1 : F) else 0) then
        (if r = i % 16 then 1 else 0) else m) m = if m = 1 ∨ i % 16 ∈ l then 1 else 0 := by
    intro l
    induction l with
    | nil =>
      rintro m (rfl | rfl)
      · simp
      · simp
    | cons r l ih =>
      rintro m (rfl | rfl)
      · by_cases hr : r = i % 16
        · simp [hr, ih]
        · simp [hr, Ne.symm hr, ih]
      · by_cases hr : r = i % 16
        · simp [hr, ih]
        · simp [hr, ih, not_lt.mpr zero_le_one]
  simp only [actMax, pulse, hentry]
  rw [hfold _ _ (Or.inl rfl), if_pos]
  right
  rw [List.mem_range]
  omega

/-- A pulse is quantised to itself. -/
theorem quant_pulse (i : Nat) (hi : i < n) (k : Nat) :
    (actCode A (pulse i) n k : F) * actScale (pulse i : Nat → F) n (k / 16) =
      if k = i then 1 else 0 := by
  by_cases hk : k = i
  · subst hk
    have hscale : actScale (pulse k : Nat → F) n (k / 16) = 1 / 127 := by
      rw [actScale, actMax_pulse n k hi, if_pos zero_lt_one, one_mul]
    have hcode : actCode A (pulse k) n k = 127 := by
      have hshare : pulse k k * (1 / (1 / 127)) = ((127 : Int) : F) := by
        simp only [pulse, if_true]
        norm_num
      simp only [actCode, if_pos hi, hscale, hshare, A.nearest_int]
      omega
    rw [hcode, hscale, if_pos rfl]
    norm_num
  · have hcode : actCode A (pulse i) n k = 0 := by
      have hshare : (if k < n then pulse i k * (1 / actScale (pulse i) n (k / 16)) else 0) =
          ((0 : Int) : F) := by
        simp [pulse, hk]
      simp only [actCode, hshare, A.nearest_int]
      omega
    rw [hcode, if_neg hk]
    simp

omit [IsStrictOrderedRing F] in
theorem quant_zero (k : Nat) :
    (actCode A (fun _ => (0 : F)) n k : F) * actScale (fun _ => (0 : F)) n (k / 16) = 0 := by
  have hshare : (if k < n then (0 : F) * (1 / actScale (fun _ => (0 : F)) n (k / 16)) else 0) =
      ((0 : Int) : F) := by
    simp
  have hcode : actCode A (fun _ => (0 : F)) n k = 0 := by
    simp only [actCode, hshare, A.nearest_int]
    omega
  rw [hcode]
  simp

end Quantised

end ShannonPrime.Cuda
