import ShannonPrime.Cuda.Packed
import ShannonPrime.Lib.Words

/-!
The experts of a mixture-of-experts layer on the device. A resident layer is uploaded
whole, and an expert is a view of it: the parent with its row pointers moved and the
parent's precision. Of a layer that is not resident the selected experts are streamed: the
slice of each tensor is packed into a pinned blob, five fields at aligned offsets, and the
blob is copied to the slab. The flow of an expert is the same on both paths.
-/

namespace ShannonPrime.Cuda

/-! ### Host tensors -/

/-- The bytes of a row. -/
def rowBytes (prec cols : Nat) : Nat := if prec = 8 then cols else (cols + 1) / 2

/-- `sp_frob_packed_tensor`, as the bytes it is staged from. Rows lie one after another in
the codes; those of OK_Q4B have a scale a block of 32. -/
structure HostTensor where
  rows : Nat
  cols : Nat
  codesBytes : Nat
  codes : Bytes
  rowOff : Nat → Nat
  rowScale : Option (Nat → BitVec 32)
  rowPrec : Nat → Nat
  bscale : Option (Nat → BitVec 16)
  bsNblk : Nat
  rows_pos : 0 < rows
  cols_pos : 0 < cols
  precise : ∀ r < rows, rowPrec r = 8 ∨ rowPrec r = 4
  blocked : bscale.isSome = true → ∀ r < rows, rowPrec r = 4
  blocks : bscale.isSome = true → bsNblk = cols / 32
  ascending : ∀ r < rows, rowOff r + rowBytes (rowPrec r) cols ≤
    if r + 1 < rows then rowOff (r + 1) else codesBytes
  addressable : codesBytes < 2 ^ 64

/-- The tensor with its row scales read as floats. -/
def HostTensor.packed {F : Type*} (single : BitVec 32 → F) (pt : HostTensor) :
    PackedTensor F where
  rows := pt.rows
  cols := pt.cols
  codes := pt.codes
  rowOff := pt.rowOff
  rowScale := pt.rowScale.map fun s r => single (s r)
  rowPrec := pt.rowPrec
  bscale := pt.bscale
  bsNblk := pt.bsNblk
  precise := pt.precise
  blocked := pt.blocked

inductive Proj where
  | gate | up | down
  deriving DecidableEq, Repr

/-- One of three. -/
def Proj.of {α : Type*} (g u d : α) : Proj → α
  | .gate => g
  | .up => u
  | .down => d

/-- The three expert tensors of a layer: `NE` experts of `FF` rows in gate and up, and of
`E` rows in down. -/
structure ExpertTensors where
  NE : Nat
  FF : Nat
  E : Nat
  pt : Proj → HostTensor
  gate_shape : (pt .gate).rows = NE * FF ∧ (pt .gate).cols = E
  up_shape : (pt .up).rows = NE * FF ∧ (pt .up).cols = E
  down_shape : (pt .down).rows = NE * E ∧ (pt .down).cols = FF

/-- The rows of an expert in each of the tensors. -/
def sliceRows (FF E : Nat) : Proj → Nat := Proj.of FF FF E

/-! ### One expert -/

variable {F : Type*} [Field F] [LinearOrder F]

/-- A product that took the packed path: the projection, the expert and the tensor it ran
on. -/
structure Use (F : Type*) where
  proj : Proj
  expert : Nat
  W : DevTensor F

/-- The device memory of the handle that a call works on, and the products so far. -/
structure MoeState (F : Type*) where
  dX : Nat → F
  dG : Nat → F
  dU : Nat → F
  dDe : Nat → F
  dYo : Nat → F
  scratch : Scratch F
  pin : Nat → Bytes
  slab : Bytes
  uses : List (Use F)

/-- A call that may end early, with the products it ran. -/
abbrev MoeCall (F : Type*) := Except (List (Use F))

section Flow

variable (A : Conversions F) (silu : F → F)

/-- `gemv_w_packed` for an expert. The call ends when it declines. -/
def product (p : Proj) (e : Nat) (W : DevTensor F) (x dY : Nat → F) (d : MoeState F) :
    MoeCall F ((Nat → F) × MoeState F) :=
  match gemvWPacked A W x dY d.scratch with
  | none => .error d.uses
  | some r => .ok (r.1, { d with scratch := r.2, uses := d.uses ++ [⟨p, e, W⟩] })

/-- `k_silu_mul`. -/
def kSiluMul (n : Nat) (g up : Nat → F) : Nat → F :=
  fun i => if i < n then silu (g i) * up i else g i

/-- `dg_k_axpy`. -/
def dgKAxpy (yo de : Nat → F) (w : F) (E : Nat) : Nat → F :=
  fun i => if i < E then yo i + w * de i else yo i

/-- The flow of an expert: gate and up, their product through silu, down, and the weighted
sum. -/
def expertFlow (FF E e : Nat) (wt : F) (W : Proj → DevTensor F) (d : MoeState F) :
    MoeCall F (MoeState F) := do
  let g ← product A .gate e (W .gate) d.dX d.dG d
  let u ← product A .up e (W .up) g.2.dX g.2.dU g.2
  let h := kSiluMul silu FF g.1 u.1
  let de ← product A .down e (W .down) h u.2.dDe u.2
  return { de.2 with dG := h, dU := u.1, dDe := de.1, dYo := dgKAxpy de.2.dYo de.1 wt E }

/-- The activation copied in and the sum cleared. -/
def MoeState.start (x : Nat → F) (E : Nat) (d : MoeState F) : MoeState F :=
  { d with dX := fun i => if i < E then x i else d.dX i
           dYo := fun i => if i < E then 0 else d.dYo i
           uses := [] }

/-! ### Resident layers -/

/-- `q36_expert_view`. -/
def q36ExpertView (p : DevTensor F) (e rows : Nat) : DevTensor F :=
  { p with
    nOut := rows
    rowOff := fun j => p.rowOff (e * rows + j)
    rowPrec := fun j => p.rowPrec (e * rows + j)
    rowScale := p.rowScale.map fun s j => s (e * rows + j)
    bscale := p.bscale.map fun b i => b (e * rows * p.bsNblk + i) }

/-- `q36moe_ent`. -/
structure MoeEnt (F : Type*) where
  tag : String
  dt : Proj → DevTensor F
  NE : Nat
  FF : Nat
  E : Nat

/-- `sp_q36gpu_upload_experts`, every allocation and copy going through: the new entry. -/
def q36gpuUploadExperts (single : BitVec 32 → F) (tag : String) (pt : Proj → HostTensor)
    (NE FF E : Nat) : Option (MoeEnt F) := do
  let g ← uploadPacked ((pt .gate).packed single)
  let u ← uploadPacked ((pt .up).packed single)
  let d ← uploadPacked ((pt .down).packed single)
  return { tag, dt := Proj.of g u d, NE, FF, E }

/-- `sp_q36gpu_moe`: the output and the products run. -/
def q36gpuMoe (moes : List (MoeEnt F)) (tag : String) (sel : List (Nat × F)) (x : Nat → F)
    (E FF : Nat) (d : MoeState F) : MoeCall F (List F × List (Use F)) :=
  match moes.find? fun M => M.tag == tag with
  | none => .error []
  | some M =>
    if M.FF ≠ FF || M.E ≠ E then .error []
    else do
      let d ← sel.foldlM
        (fun d s => expertFlow A silu FF E s.1 s.2
          (fun p => q36ExpertView (M.dt p) s.1 (sliceRows FF E p)) d)
        (d.start x E)
      return (Buffer.vec E d.dYo, d.uses)

end Flow

/-! ### Streamed layers -/

/-- A `DevTensor` whose fields lie in the slab, at these addresses. -/
structure SlabTensor where
  nIn : Nat
  nOut : Nat
  prec : Nat
  codes : Nat
  rowOff : Nat
  rowPrec : Nat
  bscale : Option Nat
  rowScale : Option Nat
  bsNblk : Nat

/-- What the kernels find there. -/
def SlabTensor.dev (single : BitVec 32 → F) (slab : Bytes) (t : SlabTensor) : DevTensor F where
  nIn := t.nIn
  nOut := t.nOut
  prec := t.prec
  f32 := none
  codes a := slab (t.codes + a)
  rowOff j := LittleEndian.load slab (t.rowOff + j * 8) 8
  rowScale := t.rowScale.map fun p j => single (BitVec.ofNat 32 (LittleEndian.load slab (p + j * 4) 4))
  rowPrec j := LittleEndian.load slab (t.rowPrec + j * 1) 1
  bscale := t.bscale.map fun p i => BitVec.ofNat 16 (LittleEndian.load slab (p + i * 2) 2)
  bsNblk := t.bsNblk

def align256 (x : Nat) : Nat := (x + 255) / 256 * 256

namespace HostTensor

variable (pt : HostTensor)

/-- Where the codes of the rows from `r` on end, when `r` is the row after them. -/
def codesEnd (r : Nat) : Nat := if r < pt.rows then pt.rowOff r else pt.codesBytes

/-- The precision of the rows `[r0, r0 + rows)`, 0 when they differ. -/
def slicePrec (r0 rows : Nat) : Nat :=
  if (List.range' 1 (rows - 1)).all fun i => pt.rowPrec (r0 + i) == pt.rowPrec r0
  then pt.rowPrec r0 else 0

end HostTensor

/-- `q36_stage_slice`: the rows `[r0, r0 + rows)` written to the pinned blob from `off` on,
with the tensor at the mirrored addresses of the slab and the end of its fields. None when
the tensor has no scales. -/
def q36StageSlice (pt : HostTensor) (r0 rows : Nat) (pin : Bytes) (slabBase off : Nat) :
    Option (SlabTensor × Bytes × Nat) :=
  let cbase := pt.rowOff r0
  let cbytes := pt.codesEnd (r0 + rows) - cbase
  let pin := Buffer.store pin off cbytes fun a => pt.codes (cbase + a)
  let offAt := align256 (off + cbytes)
  let pin := LittleEndian.putAll pin offAt 8 rows fun i => pt.rowOff (r0 + i) - cbase
  let precAt := align256 (offAt + rows * 8)
  let pin := LittleEndian.putAll pin precAt 1 rows fun i => pt.rowPrec (r0 + i)
  let scaleAt := align256 (precAt + rows)
  let dt : SlabTensor :=
    { nIn := pt.cols
      nOut := rows
      prec := pt.slicePrec r0 rows
      codes := slabBase + off
      rowOff := slabBase + offAt
      rowPrec := slabBase + precAt
      bscale := none
      rowScale := none
      bsNblk := 0 }
  match pt.bscale with
  | some bscale =>
    let n := rows * pt.bsNblk
    some ({ dt with bscale := some (slabBase + scaleAt), bsNblk := pt.bsNblk },
      LittleEndian.putAll pin scaleAt 2 n fun i => (bscale (r0 * pt.bsNblk + i)).toNat,
      align256 (scaleAt + n * 2))
  | none =>
    match pt.rowScale with
    | some s =>
      some ({ dt with rowScale := some (slabBase + scaleAt) },
        LittleEndian.putAll pin scaleAt 4 rows fun i => (s (r0 + i)).toNat,
        align256 (scaleAt + rows * 4))
    | none => none

/-- The room of an expert in the slab: its codes at 8 bits and its metadata, in pages. -/
def perExpert (FF E : Nat) : Nat :=
  (FF * E + FF * E + E * FF + 3 * (max E FF * 8 + 4096 + max E FF * 4 + 8192) + 4095) /
    4096 * 4096

/-- The three slices of an expert, one after another in the blob. -/
def stageSlices (pt : Proj → HostTensor) (FF E e : Nat) (pin : Bytes) (slabBase : Nat) :
    Option ((Proj → SlabTensor) × Bytes × Nat) := do
  let g ← q36StageSlice (pt .gate) (e * FF) FF pin slabBase 0
  let u ← q36StageSlice (pt .up) (e * FF) FF g.2.1 slabBase g.2.2
  let d ← q36StageSlice (pt .down) (e * E) E u.2.1 slabBase u.2.2
  return (Proj.of g.1 u.1 d.1, d.2)

section Stream

variable (A : Conversions F) (silu : F → F) (single : BitVec 32 → F)

/-- The `k`-th selected expert: staged in the pinned buffer of its turn, the blob copied to
its room of the slab, and run. -/
def streamExpert (pt : Proj → HostTensor) (FF E k e : Nat) (wt : F) (d : MoeState F) :
    MoeCall F (MoeState F) :=
  let slabK := k * perExpert FF E
  match stageSlices pt FF E e (d.pin (k % 2)) slabK with
  | none => .error d.uses
  | some r =>
    let slab := Buffer.store d.slab slabK r.2.2 r.2.1
    expertFlow A silu FF E e wt (fun p => (r.1 p).dev single slab)
      { d with pin := Function.update d.pin (k % 2) r.2.1, slab }

/-- `sp_q36gpu_moe_stream`. -/
def q36gpuMoeStream (pt : Proj → HostTensor) (sel : List (Nat × F)) (x : Nat → F) (E FF : Nat)
    (d : MoeState F) : MoeCall F (List F × List (Use F)) := do
  let d ← sel.zipIdx.foldlM
    (fun d s => streamExpert A silu single pt FF E s.2 s.1.1 s.1.2 d) (d.start x E)
  return (Buffer.vec E d.dYo, d.uses)

end Stream

end ShannonPrime.Cuda
