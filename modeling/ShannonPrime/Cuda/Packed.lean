import Mathlib
import ShannonPrime.Lib.Reduction

/-!
The packed matrix-vector product of the decode. Weights are bytes (rows of precision 8)
or nibbles (precision 4), with one scale a row or, for OK_Q4B, one a block of 32; the
activation is quantised to bytes with one scale a block of 16. `gemv_w_packed` picks the
kernel by the tensor's precision and width, or declines. Arithmetic is exact: the numbers
are those of an ordered field.
-/

namespace ShannonPrime.Cuda

open Reduction

/-! ### Words -/

/-- Device memory from the start of an allocation on. -/
abbrev Bytes := Nat → BitVec 8

/-- The little-endian 32-bit word at an address. -/
def word (m : Bytes) (a : Nat) : BitVec 32 := m (a + 3) ++ m (a + 2) ++ m (a + 1) ++ m a

def byteAt (w : BitVec 32) (k : Nat) : BitVec 8 := w.extractLsb' (8 * k) 8

/-- `__dp4a` on words of signed bytes. -/
def dp4a (a b : BitVec 32) (c : Int) : Int :=
  c + ((byteAt a 0).toInt * (byteAt b 0).toInt + (byteAt a 1).toInt * (byteAt b 1).toInt +
    (byteAt a 2).toInt * (byteAt b 2).toInt + (byteAt a 3).toInt * (byteAt b 3).toInt)

/-- `SPX`: a nibble of the low byte, sign-extended to a byte. -/
def spx (byte : BitVec 32) (hi : Bool) : BitVec 32 :=
  ((((if hi then byte.sshiftRight 4 else byte) &&& 0xF#32) ^^^ 0x8#32) - 0x8#32) &&& 0xFF#32

/-- `sp_unpack8`: the eight nibbles of a word as two words of bytes. -/
def spUnpack8 (w : BitVec 32) : BitVec 32 × BitVec 32 :=
  let b0 := w &&& 0xFF#32
  let b1 := w.sshiftRight 8 &&& 0xFF#32
  let b2 := w.sshiftRight 16 &&& 0xFF#32
  let b3 := w.sshiftRight 24 &&& 0xFF#32
  (spx b0 false ||| spx b0 true <<< 8 ||| spx b1 false <<< 16 ||| spx b1 true <<< 24,
    spx b2 false ||| spx b2 true <<< 8 ||| spx b3 false <<< 16 ||| spx b3 true <<< 24)

/-- The code in a nibble, as the dequantising kernels decode it. -/
def nibCode (byte : BitVec 8) (hi : Bool) : Int :=
  ((((if hi then byte.toNat >>> 4 else byte.toNat) &&& 0xF) ^^^ 8 : Nat) : Int) - 8

/-! ### Tensors -/

variable {F : Type*}

/-- A tensor of the arena. Rows have precision 8 or 4, and those of OK_Q4B have 4. -/
structure PackedTensor (F : Type*) where
  rows : Nat
  cols : Nat
  codes : Bytes
  rowOff : Nat → Nat
  rowScale : Option (Nat → F)
  rowPrec : Nat → Nat
  bscale : Option (Nat → BitVec 16)
  bsNblk : Nat
  precise : ∀ r < rows, rowPrec r = 8 ∨ rowPrec r = 4
  blocked : bscale.isSome = true → ∀ r < rows, rowPrec r = 4

structure DevTensor (F : Type*) where
  nIn : Nat
  nOut : Nat
  prec : Nat
  f32 : Option (Nat → F)
  codes : Bytes
  rowOff : Nat → Nat
  rowScale : Option (Nat → F)
  rowPrec : Nat → Nat
  bscale : Option (Nat → BitVec 16)
  bsNblk : Nat

/-- `upload_packed`, every allocation and copy going through. `prec` is that of the rows,
0 when they differ. -/
def uploadPacked (pt : PackedTensor F) : Option (DevTensor F) :=
  let uniform := (List.range' 1 (pt.rows - 1)).all fun r => pt.rowPrec r == pt.rowPrec 0
  if pt.bscale.isNone && pt.rowScale.isNone then none
  else some
    { nIn := pt.cols
      nOut := pt.rows
      prec := if 0 < pt.rows && uniform then pt.rowPrec 0 else 0
      f32 := none
      codes := pt.codes
      rowOff := pt.rowOff
      rowScale := pt.rowScale
      rowPrec := pt.rowPrec
      bscale := pt.bscale
      bsNblk := if pt.bscale.isSome then pt.bsNblk else 0 }

variable [Field F] [LinearOrder F] [IsStrictOrderedRing F]

/-- `__float2int_rn`, which keeps integers, and `__half2float`. -/
structure Conversions (F : Type*) [Field F] where
  nearest : F → Int
  nearest_int : ∀ z : Int, nearest z = z
  half : BitVec 16 → F

variable (A : Conversions F)

namespace DevTensor

variable (W : DevTensor F)

/-- The row's scale; OK_Q4B has none. -/
def scaleOf (j : Nat) : F := (W.rowScale.map fun s => s j).getD 0

/-- `k_dequant_arena`. -/
def dequantArena (j i : Nat) : F :=
  let off := W.rowOff j
  if W.rowPrec j = 8 then ((W.codes (off + i)).toInt : F) * (W.scaleOf j * (1 / 127))
  else (nibCode (W.codes (off + i / 2)) (i % 2 == 1) : F) * (W.scaleOf j * (1 / 7))

/-- `k_dequant_arena_q4b`. -/
def dequantArenaQ4b (bscale : Nat → BitVec 16) (j i : Nat) : F :=
  (nibCode (W.codes (W.rowOff j + i / 2)) (i % 2 == 1) : F) *
    A.half (bscale (j * W.bsNblk + i / 32))

/-- The weight as the dequantising path decodes it. -/
def dequant (j i : Nat) : F :=
  match W.bscale with
  | some bscale => W.dequantArenaQ4b A bscale j i
  | none => W.dequantArena j i

/-- The code of the 8-bit and of the 4-bit reading of a row. -/
def q8Code (j i : Nat) : Int := (W.codes (W.rowOff j + i)).toInt

def q4Code (j i : Nat) : Int := nibCode (W.codes (W.rowOff j + i / 2)) (i % 2 == 1)

/-- The weight an 8-bit kernel takes a byte for. -/
def q8Weight (j i : Nat) : F := (W.q8Code j i : F) * (W.scaleOf j * (1 / 127))

end DevTensor

/-! ### The activation -/

/-- The scratch for the quantised activation: codes and block scales. -/
structure Scratch (F : Type*) where
  qx : Bytes
  sxb : Nat → F

section Activation

variable (x : Nat → F) (n : Nat)

def actMax (b : Nat) : F :=
  (List.range 16).foldl
    (fun m i =>
      let a := if 16 * b + i < n then |x (16 * b + i)| else 0
      if m < a then a else m) 0

def actScale (b : Nat) : F := if 0 < actMax x n b then actMax x n b * (1 / 127) else 1

/-- The activation's code: its share of the block scale, rounded and clamped. -/
def actCode (i : Nat) : Int :=
  let q := A.nearest (if i < n then x i * (1 / actScale x n (i / 16)) else 0)
  if 127 < q then 127 else if q < -127 then -127 else q

/-- `k_quant_act_int8`: the blocks below `npad >> 4` are written, the rest of the scratch
is left as it was. -/
def quantActInt8 (npad : Nat) (s : Scratch F) : Scratch F where
  qx i := if i / 16 < npad / 16 then BitVec.ofInt 8 (actCode A x n i) else s.qx i
  sxb b := if b < npad / 16 then actScale x n b else s.sxb b

end Activation

/-! ### The kernels, one row -/

/-- A halving in shared memory, and one by `__shfl_down_sync` in a warp. -/
def sharedStep (o : Nat) (v : Nat → F) (t : Nat) : F := if t < o then v t + v (t + o) else v t

def shflStep (o : Nat) (v : Nat → F) (t : Nat) : F :=
  v t + if t + o < 32 then v (t + o) else v t

section Rows

variable (W : DevTensor F) (s : Scratch F) (j : Nat)

/-- `k_gemv_q8_dp4a`: a block of 256 threads a row, a word a round. -/
def gemvQ8 : F :=
  let term := fun k =>
    (dp4a (word W.codes (W.rowOff j + 4 * k)) (word s.qx (4 * k)) 0 : F) * s.sxb (k / 4)
  tree sharedStep 8 (lane 256 (W.nIn / 4) term) 0 * (W.scaleOf j * (1 / 127))

/-- `k_gemv_q8_dp4a_v2`: a warp a row, sixteen codes a round. -/
def gemvQ8V2 : F :=
  let wrow := fun c k => word W.codes (W.rowOff j + 16 * c + 4 * k)
  let qxi := fun c k => word s.qx (16 * c + 4 * k)
  let term := fun c =>
    (dp4a (wrow c 3) (qxi c 3) (dp4a (wrow c 2) (qxi c 2)
      (dp4a (wrow c 1) (qxi c 1) (dp4a (wrow c 0) (qxi c 0) 0))) : F) * s.sxb c
  tree shflStep 5 (lane 32 (W.nIn / 16) term) 0 * (W.scaleOf j * (1 / 127))

/-- The two sixteens of the `c`-th thirty-two nibbles against the activation. -/
def q4Halves (c : Nat) : Int × Int :=
  let wv := fun k => spUnpack8 (word W.codes (W.rowOff j + 16 * c + 4 * k))
  let q := fun k => word s.qx (32 * c + 4 * k)
  (dp4a (wv 1).2 (q 3) (dp4a (wv 1).1 (q 2) (dp4a (wv 0).2 (q 1) (dp4a (wv 0).1 (q 0) 0))),
    dp4a (wv 3).2 (q 7) (dp4a (wv 3).1 (q 6) (dp4a (wv 2).2 (q 5) (dp4a (wv 2).1 (q 4) 0))))

/-- `k_gemv_q4_dp4a_v2`. -/
def gemvQ4V2 : F :=
  let term := fun c =>
    ((q4Halves W s j c).1 : F) * s.sxb (2 * c) + (q4Halves W s j c).2 * s.sxb (2 * c + 1)
  tree shflStep 5 (lane 32 (W.nIn / 32) term) 0 * (W.scaleOf j * (1 / 7))

/-- `k_gemv_q4b_dp4a_v2`. -/
def gemvQ4bV2 (bscale : Nat → BitVec 16) : F :=
  let term := fun c =>
    A.half (bscale (j * W.bsNblk + c)) *
      (((q4Halves W s j c).1 : F) * s.sxb (2 * c) + (q4Halves W s j c).2 * s.sxb (2 * c + 1))
  tree shflStep 5 (lane 32 (W.nIn / 32) term) 0

end Rows

/-- `gemv_w_packed`: the rows it has written and the scratch when it takes the packed path
and returns 1, none when it returns 0. -/
def gemvWPacked (W : DevTensor F) (x dY : Nat → F) (s : Scratch F) :
    Option ((Nat → F) × Scratch F) :=
  let write := fun (row : Nat → F) j => if j < W.nOut then row j else dY j
  if W.f32.isSome then none
  else if W.prec = 4 then
    if W.nIn % 32 ≠ 0 then none
    else
      let s := quantActInt8 A x W.nIn ((W.nIn + 31) / 32 * 32) s
      match W.bscale with
      | some bscale => some (write fun j => gemvQ4bV2 A W s j bscale, s)
      | none => some (write (gemvQ4V2 W s), s)
  else if W.nIn % 16 = 0 then
    let s := quantActInt8 A x W.nIn ((W.nIn + 15) / 16 * 16) s
    some (write (gemvQ8V2 W s), s)
  else if W.nIn % 4 = 0 then
    let s := quantActInt8 A x W.nIn ((W.nIn + 3) / 4 * 4) s
    some (write (gemvQ8 W s), s)
  else none

end ShannonPrime.Cuda
