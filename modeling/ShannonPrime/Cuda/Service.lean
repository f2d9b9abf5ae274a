import ShannonPrime.Cuda.ExpertStage
import ShannonPrime.Lib.Exits

/-!
The buffers of the q36 service: what each call allocates and frees, and every byte of a shared
buffer that its copies and kernels touch. A touch outside an allocation, and a free of what has
been freed, go wrong; a call that fails leaves the handle as it is by then. What the buffers hold
plays no part here.
-/

namespace ShannonPrime.Cuda.Service

open Exits

inductive Buf where
  | x | y | qx | sx | moe | slab
  | pin (second : Bool)
  deriving DecidableEq

/-- What a pointer points to: nothing, so many bytes, or what has been freed. -/
inductive Region where
  | null
  | live (bytes : Nat)
  | freed
  deriving DecidableEq

def Region.reaches (hi : Nat) : Region → Bool
  | .live bytes => hi ≤ bytes
  | .null | .freed => false

/-- What a kernel takes from a `DevTensor` besides its contents. -/
structure Dims where
  nIn : Nat
  nOut : Nat
  prec : Nat

/-- What a field of so many bytes keeps of a name. -/
def strncpy (size : Nat) (name : List UInt8) : List UInt8 := name.take (size - 1)

structure Ent where
  name : List UInt8
  dt : Dims

structure MoeEnt where
  tag : List UInt8
  dt : Proj → Dims
  FF : Nat
  E : Nat

/-- `q36gpu`; a capacity of elements is one of floats, `qcap` is one of codes. -/
structure Q36gpu where
  buf : Buf → Region
  xcap : Nat
  ycap : Nat
  qcap : Nat
  moe_ff : Nat
  moe_e : Nat
  slab_cap : Nat
  pin_cap : Nat
  pev_used : Bool → Bool
  e : List Ent
  moes : List MoeEnt

/-- `sp_q36gpu_new` -/
def Q36gpu.new : Q36gpu where
  buf _ := .null
  xcap := 0
  ycap := 0
  qcap := 0
  moe_ff := 0
  moe_e := 0
  slab_cap := 0
  pin_cap := 0
  pev_used _ := false
  e := []
  moes := []

abbrev Work := Exits Int Q36gpu

/-- What goes through in a call: the growth of a table on the host, the arrays of its tensors,
the allocation of each buffer, the creation of an event, the copies and the waiting. -/
structure Luck where
  host : Bool
  tensor : Bool
  alloc : Buf → Bool
  event : Bool → Bool
  copyIn : Bool
  clear : Bool
  wait : Nat → Bool
  ship : Nat → Bool
  record : Nat → Bool
  copyOut : Bool
  sync : Bool

def setBuf (b : Buf) (r : Region) : Work PUnit :=
  modify fun h => { h with buf := Function.update h.buf b r }

/-- `if (p) cudaFree(p)`, which leaves the pointer as it is. -/
def cudaFree (b : Buf) : Work PUnit := do
  require fun h => h.buf b ≠ .freed
  modify fun h => if h.buf b = .null then h else { h with buf := Function.update h.buf b .freed }

/-- An allocation that fails leaves the pointer as it is. -/
def cudaMalloc (b : Buf) (bytes : Nat) (ok : Bool) (code : Int) : Work PUnit :=
  if ok then setBuf b (if bytes = 0 then .null else .live bytes) else exit code

/-- The bytes `[lo, hi)` of a buffer. -/
def touch (b : Buf) (lo hi : Nat) : Work PUnit :=
  require fun h => hi ≤ lo || (h.buf b).reaches hi

def attempt (ok : Bool) (code : Int) : Work PUnit := if ok then pure ⟨⟩ else exit code

/-! ### The products -/

/-- A tensor, and what the kernels touch of the shared buffers for a row of it. -/
structure Weights where
  dt : Dims
  row : Nat → Work PUnit

/-- A tensor of its own allocations. -/
def Dims.resident (dt : Dims) : Weights := ⟨dt, fun _ => pure ⟨⟩⟩

/-- `k_quant_act_int8` and the GEMV after it. -/
def quantGemv (W : Weights) (npad : Nat) (x y : Buf × Nat) : Work PUnit := do
  touch x.1 x.2 (x.2 + 4 * min W.dt.nIn (npad / 16 * 16))
  touch .sx 0 (4 * (npad / 16))
  touch .qx 0 (npad / 16 * 16)
  (List.range W.dt.nOut).forM fun j => do
    W.row j
    touch .qx 0 W.dt.nIn
    touch .sx 0 (4 * ((W.dt.nIn + 15) / 16))
    touch y.1 (y.2 + 4 * j) (y.2 + 4 * j + 4)

/-- `gemv_w_packed`; where it declines the call gives up. -/
def gemvWPacked (W : Weights) (x y : Buf × Nat) : Work PUnit :=
  if W.dt.prec = 4 then
    if W.dt.nIn % 32 ≠ 0 then exit (-1) else quantGemv W ((W.dt.nIn + 31) / 32 * 32) x y
  else if W.dt.nIn % 16 = 0 then quantGemv W ((W.dt.nIn + 15) / 16 * 16) x y
  else if W.dt.nIn % 4 = 0 then quantGemv W ((W.dt.nIn + 3) / 4 * 4) x y
  else exit (-1)

/-- The scratch of an expert: `dG`, `dU` and `dH` of `FF` floats, `dDe` and `dYo` of `E`. -/
def dDe (FF : Nat) : Nat := 4 * (3 * FF)

def dYo (FF E : Nat) : Nat := dDe FF + 4 * E

def expertFlow (FF E : Nat) (W : Proj → Weights) : Work PUnit := do
  gemvWPacked (W .gate) (.x, 0) (.moe, 0)
  gemvWPacked (W .up) (.x, 0) (.moe, 4 * FF)
  touch .moe 0 (4 * FF)
  touch .moe (4 * FF) (4 * FF + 4 * FF)
  gemvWPacked (W .down) (.moe, 0) (.moe, dDe FF)
  touch .moe (dYo FF E) (dYo FF E + 4 * E)
  touch .moe (dDe FF) (dDe FF + 4 * E)

/-! ### The calls -/

/-- `upload_packed`. -/
def uploadPacked (pt : HostTensor) (ok : Bool) : Option Dims :=
  if ok && (pt.bscale.isSome || pt.rowScale.isSome) then
    some { nIn := pt.cols, nOut := pt.rows, prec := pt.slicePrec 0 pt.rows }
  else none

/-- A buffer of floats that grows to `n`. -/
def grow (b : Buf) (cap : Q36gpu → Nat) (setCap : Q36gpu → Nat → Q36gpu) (n : Nat) (luck : Luck)
    (code : Int) : Work PUnit := do
  let h ← get
  if cap h < n then do
    cudaFree b
    cudaMalloc b (n * 4) (luck.alloc b) code
    modify fun h => setCap h n
  else pure ⟨⟩

def growX : Nat → Luck → Int → Work PUnit :=
  grow .x Q36gpu.xcap fun h n => { h with xcap := n }

def growY : Nat → Luck → Int → Work PUnit :=
  grow .y Q36gpu.ycap fun h n => { h with ycap := n }

/-- `dqx` and `dsx`. -/
def growQuant (n : Nat) (luck : Luck) : Work PUnit := do
  let h ← get
  if h.qcap < n + 64 then do
    cudaFree .qx
    cudaFree .sx
    cudaMalloc .qx (n + 64) (luck.alloc .qx) 1
    cudaMalloc .sx ((n / 32 + 8) * 4) (luck.alloc .sx) 1
    modify fun h => { h with qcap := n + 64 }
  else pure ⟨⟩

def sp_q36gpu_upload (name : List UInt8) (pt : HostTensor) (luck : Luck) : Work PUnit := do
  attempt luck.host 1
  match uploadPacked pt luck.tensor with
  | none => exit 1
  | some dt => do
    growX dt.nIn luck 1
    growY dt.nOut luck 1
    growQuant dt.nIn luck
    modify fun h => { h with e := h.e ++ [⟨strncpy 160 name, dt⟩] }

/-- `dmoe`, where there is none. -/
def ensureMoe (FF E : Nat) (luck : Luck) (code : Int) : Work PUnit := do
  let h ← get
  if h.buf .moe = .null then do
    cudaMalloc .moe ((FF * 3 + E * 2) * 4) (luck.alloc .moe) code
    modify fun h => { h with moe_ff := FF, moe_e := E }
  else pure ⟨⟩

def sp_q36gpu_upload_experts (tag : List UInt8) (pt : Proj → HostTensor) (FF E : Nat)
    (luck : Luck) : Work PUnit := do
  attempt luck.host 1
  match uploadPacked (pt .gate) luck.tensor, uploadPacked (pt .up) luck.tensor,
      uploadPacked (pt .down) luck.tensor with
  | some g, some u, some d => do
    modify fun h => { h with moes := h.moes ++ [⟨strncpy 96 tag, Proj.of g u d, FF, E⟩] }
    ensureMoe FF E luck 1
    growX E luck 1
  | _, _, _ => exit 1

def sp_q36gpu_matmul (name : List UInt8) (n_tok nIn nOut : Nat) (luck : Luck) :
    Work PUnit := do
  if n_tok ≠ 1 then exit (-1)
  else do
    let h ← get
    match h.e.find? fun E => E.name == name with
    | none => exit (-1)
    | some E =>
      if E.dt.nIn ≠ nIn ∨ E.dt.nOut ≠ nOut then exit (-1)
      else do
        touch .x 0 (nIn * 4)
        attempt luck.copyIn (-1)
        gemvWPacked E.dt.resident (.x, 0) (.y, 0)
        touch .y 0 (nOut * 4)
        attempt luck.copyOut (-1)
        attempt luck.sync (-1)

/-- The activation in and the sum cleared. -/
def startMoe (FF E : Nat) (luck : Luck) : Work PUnit := do
  touch .x 0 (E * 4)
  attempt luck.copyIn (-1)
  touch .moe (dYo FF E) (dYo FF E + 4 * E)
  attempt luck.clear (-1)

/-- The sum out. -/
def finishMoe (FF E : Nat) (luck : Luck) : Work PUnit := do
  touch .moe (dYo FF E) (dYo FF E + 4 * E)
  attempt luck.copyOut (-1)
  attempt luck.sync (-1)

def sp_q36gpu_moe (tag : List UInt8) (idx : List Nat) (E FF : Nat) (luck : Luck) :
    Work PUnit := do
  let h ← get
  match h.moes.find? fun M => M.tag == tag with
  | none => exit (-1)
  | some M =>
    if M.FF ≠ FF ∨ M.E ≠ E then exit (-1)
    else do
      startMoe FF E luck
      -- the view of an expert is the parent with the rows of the slice
      idx.forM fun _ => expertFlow FF E fun p =>
        Dims.resident { M.dt p with nOut := sliceRows FF E p }
      finishMoe FF E luck

/-! ### The streamed experts -/

def q36_slab_ensure (need : Nat) (luck : Luck) : Work PUnit := do
  let h ← get
  if need ≤ h.slab_cap then pure ⟨⟩
  else do
    cudaFree .slab
    if luck.alloc .slab then do
      setBuf .slab (.live need)
      modify fun h => { h with slab_cap := need }
    else do
      setBuf .slab .null
      modify fun h => { h with slab_cap := 0 }
      exit (-1)

def pinBuffer (per_e : Nat) (luck : Luck) (b : Bool) : Work PUnit := do
  cudaFree (.pin b)
  if luck.alloc (.pin b) then setBuf (.pin b) (.live per_e)
  else do
    setBuf (.pin b) .null
    modify fun h => { h with pin_cap := 0 }
    exit (-1)

def pinEvent (luck : Luck) (b : Bool) : Work PUnit := do
  let h ← get
  if h.pev_used b then pure ⟨⟩
  else do
    attempt (luck.event b) (-1)
    modify fun h => { h with pev_used := Function.update h.pev_used b true }

def pinEnsure (per_e : Nat) (luck : Luck) : Work PUnit := do
  let h ← get
  if h.pin_cap < per_e then do
    [false, true].forM fun b => do
      pinBuffer per_e luck b
      pinEvent luck b
    modify fun h => { h with pin_cap := per_e }
  else pure ⟨⟩

/-- The end of a staged slice, where it has scales. -/
def stageEnd (pt : HostTensor) (r0 rows off : Nat) : Nat :=
  if pt.bscale.isSome then align256 (pt.scaleAt r0 rows off + rows * pt.bsNblk * 2)
  else align256 (pt.scaleAt r0 rows off + rows * 4)

/-- `q36_stage_slice` -/
def stageSlice (pt : HostTensor) (r0 rows : Nat) (pin : Buf) (off : Nat) : Work PUnit := do
  touch pin off (off + (pt.codesEnd (r0 + rows) - pt.rowOff r0))
  touch pin (pt.offAt r0 rows off) (pt.offAt r0 rows off + rows * 8)
  touch pin (pt.precAt r0 rows off) (pt.precAt r0 rows off + rows)
  if pt.bscale.isSome then
    touch pin (pt.scaleAt r0 rows off) (pt.scaleAt r0 rows off + rows * pt.bsNblk * 2)
  else if pt.rowScale.isSome then
    touch pin (pt.scaleAt r0 rows off) (pt.scaleAt r0 rows off + rows * 4)
  else exit (-1)

/-- What the kernels read of a staged slice for its row `j`: where the row begins, its codes and
its scales. -/
def slabRow (pt : HostTensor) (r0 rows base off j : Nat) : Work PUnit := do
  let prec := pt.slicePrec r0 rows
  let codes := base + off + (pt.rowOff (r0 + j) - pt.rowOff r0)
  let scale := base + pt.scaleAt r0 rows off
  touch .slab (base + pt.offAt r0 rows off + j * 8) (base + pt.offAt r0 rows off + j * 8 + 8)
  touch .slab codes (codes + if prec = 4 then pt.cols / 2 else pt.cols)
  if prec = 4 ∧ pt.bscale.isSome then
    touch .slab (scale + j * pt.bsNblk * 2) (scale + (j * pt.bsNblk + pt.cols / 32) * 2)
  else if pt.bscale.isNone then touch .slab (scale + j * 4) (scale + j * 4 + 4)
  else pure ⟨⟩

def slabTensor (pt : HostTensor) (r0 rows base off : Nat) : Weights where
  dt := { nIn := pt.cols, nOut := rows, prec := pt.slicePrec r0 rows }
  row := slabRow pt r0 rows base off

/-- Where the slices of expert `e` begin and end in its blob. -/
def sliceAt (pt : Proj → HostTensor) (FF e : Nat) : Proj → Nat :=
  Proj.of 0 (stageEnd (pt .gate) (e * FF) FF 0)
    (stageEnd (pt .up) (e * FF) FF (stageEnd (pt .gate) (e * FF) FF 0))

def blobEnd (pt : Proj → HostTensor) (FF E e : Nat) : Nat :=
  stageEnd (pt .down) (e * E) E (sliceAt pt FF e .down)

/-- The `k`-th selected expert, in the pinned buffer of its turn and its room of the slab. -/
def streamExpert (pt : Proj → HostTensor) (FF E : Nat) (luck : Luck) (k e : Nat) :
    Work PUnit := do
  attempt (k < 2 || luck.wait k) (-1)
  stageSlice (pt .gate) (e * FF) FF (.pin (k % 2 == 1)) (sliceAt pt FF e .gate)
  stageSlice (pt .up) (e * FF) FF (.pin (k % 2 == 1)) (sliceAt pt FF e .up)
  stageSlice (pt .down) (e * E) E (.pin (k % 2 == 1)) (sliceAt pt FF e .down)
  touch (.pin (k % 2 == 1)) 0 (blobEnd pt FF E e)
  touch .slab (k * perExpert FF E) (k * perExpert FF E + blobEnd pt FF E e)
  attempt (luck.ship k) (-1)
  attempt (luck.record k) (-1)
  expertFlow FF E fun p => slabTensor (pt p) (e * sliceRows FF E p) (sliceRows FF E p)
    (k * perExpert FF E) (sliceAt pt FF e p)

def sp_q36gpu_moe_stream (pt : Proj → HostTensor) (idx : List Nat) (E FF : Nat) (luck : Luck) :
    Work PUnit := do
  ensureMoe FF E luck (-1)
  growX E luck (-1)
  q36_slab_ensure (idx.length * perExpert FF E + 65536) luck
  pinEnsure (perExpert FF E) luck
  startMoe FF E luck
  idx.zipIdx.forM fun s => streamExpert pt FF E luck s.2 s.1
  finishMoe FF E luck

def Buf.all : List Buf := [.slab, .pin false, .pin true, .moe, .x, .y, .qx, .sx]

def sp_q36gpu_free : Work PUnit := Buf.all.forM cudaFree

/-! ### Runs -/

inductive Cmd where
  | upload (name : List UInt8) (pt : HostTensor) (luck : Luck)
  | uploadExperts (tag : List UInt8) (pt : Proj → HostTensor) (FF E : Nat) (luck : Luck)
  | matmul (name : List UInt8) (n_tok nIn nOut : Nat) (luck : Luck)
  | moe (tag : List UInt8) (idx : List Nat) (E FF : Nat) (luck : Luck)
  | moeStream (pt : Proj → HostTensor) (idx : List Nat) (E FF : Nat) (luck : Luck)

def Cmd.run : Cmd → Work PUnit
  | .upload name pt luck => sp_q36gpu_upload name pt luck
  | .uploadExperts tag pt FF E luck => sp_q36gpu_upload_experts tag pt FF E luck
  | .matmul name n_tok nIn nOut luck => sp_q36gpu_matmul name n_tok nIn nOut luck
  | .moe tag idx E FF luck => sp_q36gpu_moe tag idx E FF luck
  | .moeStream pt idx E FF luck => sp_q36gpu_moe_stream pt idx E FF luck

/-- The handle after a call, whatever the call returns; none when the call goes wrong. -/
def Q36gpu.after (h : Q36gpu) (cmd : Cmd) : Option Q36gpu := (cmd.run h).map Prod.snd

def Q36gpu.afterAll (h : Q36gpu) (cmds : List Cmd) : Option Q36gpu :=
  cmds.foldlM Q36gpu.after h

end ShannonPrime.Cuda.Service
