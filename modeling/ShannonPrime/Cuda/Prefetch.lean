import ShannonPrime.Cuda.Experts
import ShannonPrime.Lib.Streams

/-!
The prefetch of expert rows (`dg_prefetch_rows`, `dg_pf_consume`, `dg_gemm_packed_rows`). Four
slots, two for each kind of tensor, are filled on an upload stream from pinned memory and read by
the products on the compute stream of a forward. What the host queues is a program of streams and
events; it respects their clocks, whatever the order of the calls and whichever of them fail.
-/

namespace ShannonPrime.Cuda

open Streams

/-- `ffn_gate_up_exps` (kind 0) and `ffn_down_exps` (kind 1). -/
inductive PfKind where
  | gateUp | down
  deriving DecidableEq

/-- `blk.%d.` and the kind. -/
structure PfName where
  layer : Nat
  kind : PfKind
  deriving DecidableEq

/-- What a slot holds of a slice: the codes, where its rows start, the scales of the blocks. -/
inductive Part where
  | codes | rowOff | bscale
  deriving DecidableEq

inductive PfStream where
  | upload
  | compute (forward : Nat)
  deriving DecidableEq

inductive PfEvent where
  | up (slot : Nat)
  | cons (slot : Nat)
  deriving DecidableEq

/-- A product: the slot it reads with the fields of its descriptor, and the rows that were asked
for. -/
structure PfLaunch where
  slot : Nat
  out : Nat
  nIn : Nat
  bsNblk : Nat
  name : PfName
  r0 : Nat
  rows : Nat

def PfLaunch.reads (k : PfLaunch) : List (Nat × Part) :=
  [(k.slot, .codes), (k.slot, .rowOff), (k.slot, .bscale)]

abbrev PfAction := Action PfStream PfEvent (Nat × Part) (Nat × Part) (List Nat) PfLaunch

namespace PfKind

variable (E FFx : Nat)

def width : PfKind → Nat
  | gateUp => E
  | down => FFx

/-- The rows of an expert. -/
def height : PfKind → Nat
  | gateUp => 2 * FFx
  | down => E

/-- `(kind==0)?0:2` -/
def base : PfKind → Nat
  | gateUp => 0
  | down => 2

end PfKind

/-- A loaded model. The rows of a tensor are as wide as its kind has them, and lie one after
another. -/
structure PfModel where
  E : Nat
  FFx : Nat
  arena : PfName → Option HostTensor
  cols : ∀ name pt, arena name = some pt → pt.cols = name.kind.width E FFx
  dense : ∀ name pt, arena name = some pt → ∀ r, r + 1 < pt.rows →
    pt.rowOff (r + 1) = pt.rowOff r + rowBytes (pt.rowPrec r) pt.cols

namespace HostTensor

variable (pt : HostTensor) (r0 rows nIn : Nat)

/-- `span` -/
def span : Nat := pt.rowOff (r0 + rows - 1) + (nIn + 1) / 2 - pt.rowOff r0

/-- `bsc` -/
def bscBytes : Nat := if pt.bscale.isSome then rows * pt.bsNblk * 2 else 0

/-- What is copied of a slice, and how many bytes that is. -/
def slicePart : Part → List Nat
  | .codes => (List.range (pt.span r0 rows nIn)).map fun i => (pt.codes (pt.rowOff r0 + i)).toNat
  | .rowOff => (List.range rows).map fun r => pt.rowOff (r0 + r) - pt.rowOff r0
  | .bscale => (List.range (rows * pt.bsNblk)).map fun i =>
      (pt.bscale.map fun s => (s (r0 * pt.bsNblk + i)).toNat).getD 0

def partBytes : Part → Nat
  | .codes => pt.span r0 rows nIn
  | .rowOff => rows * 8
  | .bscale => pt.bscBytes rows

/-- A row: its codes and its scales. -/
def packedRow (r : Nat) : List Nat × List Nat :=
  ((List.range (pt.cols / 2)).map fun i => (pt.codes (pt.rowOff r + i)).toNat,
    (List.range pt.bsNblk).map fun b => (pt.bscale.map fun s => (s (r * pt.bsNblk + b)).toNat).getD 0)

end HostTensor

/-- The row of a slot that the product reads. -/
def PfLaunch.row (k : PfLaunch) (dev : Nat × Part → List Nat) (j : Nat) : List Nat × List Nat :=
  (((dev (k.slot, .codes)).drop ((dev (k.slot, .rowOff)).getD j 0)).take (k.nIn / 2),
    ((dev (k.slot, .bscale)).drop (j * k.bsNblk)).take k.bsNblk)

/-- `dg_pf_slot_t`, with the sizes of its allocations. -/
structure PfSlot where
  key : PfName × Nat
  valid : Bool
  inited : Bool
  cap : Part → Nat
  pinCap : Nat
  out : Nat
  nIn : Nat
  bsNblk : Nat
  consPending : Bool
  upRec : Bool

/-- A slot that is used for the first time gets its buffers. -/
def PfSlot.allocate (s : PfSlot) (alloc : Bool) (cap : Part → Nat) (need : Nat) : PfSlot :=
  if s.inited then s else { s with inited := alloc, cap := cap, pinCap := need }

/-- The host: its slots, `dg_pf_rr` and what it has queued, latest first. -/
structure PfHost where
  slots : Nat → PfSlot
  rr : PfKind → Nat
  queued : List PfAction

namespace PfHost

variable (h : PfHost)

def setSlot (i : Nat) (s : PfSlot) : PfHost := { h with slots := Function.update h.slots i s }

def push (a : PfAction) : PfHost := { h with queued := a :: h.queued }

@[simp]
theorem setSlot_self (i : Nat) (s : PfSlot) : (h.setSlot i s).slots i = s := by
  simp [setSlot]

@[simp]
theorem setSlot_of_ne {i j : Nat} (hne : j ≠ i) (s : PfSlot) :
    (h.setSlot i s).slots j = h.slots j := by
  simp [setSlot, hne]

@[simp]
theorem setSlot_queued (i : Nat) (s : PfSlot) : (h.setSlot i s).queued = h.queued := rfl

@[simp]
theorem push_queued (a : PfAction) : (h.push a).queued = a :: h.queued := rfl

@[simp]
theorem push_slots (a : PfAction) : (h.push a).slots = h.slots := rfl

/-- The host's part of filling a slot, and what it queues. -/
def fill (i : Nat) (s : PfSlot) (part : Part → List Nat) : PfHost :=
  let h := if s.upRec then h.push (.sync (.up i)) else h
  let h := h.push (.write (i, .codes) (part .codes))
  let h := h.push (.write (i, .rowOff) (part .rowOff))
  let h := h.push (.write (i, .bscale) (part .bscale))
  let h := if s.consPending then h.push (.wait .upload (.cons i)) else h
  let h := h.push (.copy .upload (i, .codes) (i, .codes))
  let h := h.push (.copy .upload (i, .rowOff) (i, .rowOff))
  let h := h.push (.copy .upload (i, .bscale) (i, .bscale))
  h.push (.record .upload (.up i))

/-- `dg_prefetch_rows` from the choice of a slot on. There is no result where a copy would go past
the end of its buffer. -/
def prefetchSlot (alloc : Bool) (pt : HostTensor) (name : PfName) (r0 rows nIn i : Nat) :
    Option PfHost :=
  if (h.slots i).valid then some h
  else if pt.bscBytes rows = 0 then some h
  else
    let need := pt.span r0 rows nIn + rows * 8 + pt.bscBytes rows
    let s := (h.slots i).allocate alloc (pt.partBytes r0 rows nIn) need
    if s.inited = false ∨ s.pinCap < need then some (h.setSlot i s)
    else if s.cap .codes < pt.partBytes r0 rows nIn .codes ∨
        s.cap .rowOff < pt.partBytes r0 rows nIn .rowOff ∨
        s.cap .bscale < pt.partBytes r0 rows nIn .bscale then none
    else
      some ((h.fill i s (pt.slicePart r0 rows nIn)).setSlot i
        { s with
          upRec := true
          nIn := nIn
          out := rows
          bsNblk := pt.bsNblk
          key := (name, r0)
          valid := true })

/-- `dg_prefetch_rows`; `alloc` says whether the allocations of an unused slot succeed. -/
def dgPrefetchRows (M : PfModel) (alloc : Bool) (name : PfName) (r0 rows nIn : Nat)
    (kind : PfKind) : Option PfHost :=
  match M.arena name with
  | none => some h
  | some pt =>
    if rows = 0 ∨ pt.rows < r0 + rows then some h
    else if nIn % 32 ≠ 0 then some h
    else if ¬∀ r < rows, pt.rowPrec (r0 + r) = 4 then some h
    else if pt.codesBytes < pt.rowOff r0 + pt.span r0 rows nIn then some h
    else
      { h with rr := Function.update h.rr kind (h.rr kind + 1) }.prefetchSlot alloc pt name r0 rows
        nIn (kind.base + h.rr kind % 2)

/-- `dg_pf_consume`: the first valid slot with the key. -/
def dgPfConsume (key : PfName × Nat) (st : Nat) : Option (Nat × PfHost) :=
  ((List.range 4).find? fun i => (h.slots i).valid && (h.slots i).key == key).map fun i =>
    (i, (h.push (.wait (.compute st) (.up i))).setSlot i { h.slots i with valid := false })

/-- `dg_pf_mark_consumed` -/
def dgPfMarkConsumed (slot st : Nat) : PfHost :=
  (h.push (.record (.compute st) (.cons slot))).setSlot slot
    { h.slots slot with consPending := true }

end PfHost

/-- How a product ends: no scratch for the weights, a launch that fails, or none of these. -/
inductive GemmEnd where
  | noScratch | noLaunch | launched
  deriving DecidableEq

/-- `dg_gemm_packed_rows`, its part in the prefetch; `hit` says whether the rows are cached. -/
def PfHost.dgGemmPackedRows (h : PfHost) (hit : Bool) (ends : GemmEnd) (name : PfName)
    (r0 rows st : Nat) : PfHost :=
  if hit then h
  else
    match h.dgPfConsume (name, r0) st with
    | none => h
    | some (slot, h') =>
        let s := h.slots slot
        match ends with
        | .noScratch => h'
        | .noLaunch => h'.dgPfMarkConsumed slot st
        | .launched =>
            (h'.push (.kernel (.compute st)
              ⟨slot, s.out, s.nIn, s.bsNblk, name, r0, rows⟩)).dgPfMarkConsumed slot st

/-- What the expert loop of a forward calls, for a layer and an expert. -/
inductive PfCall where
  | prefetch (alloc : Bool) (kind : PfKind) (layer expert : Nat)
  | gemm (hit : Bool) (ends : GemmEnd) (forward : Nat) (kind : PfKind) (layer expert : Nat)

def PfCall.run (M : PfModel) (h : PfHost) : PfCall → Option PfHost
  | prefetch alloc kind layer expert =>
      h.dgPrefetchRows M alloc ⟨layer, kind⟩ (expert * kind.height M.E M.FFx)
        (kind.height M.E M.FFx) (kind.width M.E M.FFx) kind
  | gemm hit ends forward kind layer expert =>
      some (h.dgGemmPackedRows hit ends ⟨layer, kind⟩ (expert * kind.height M.E M.FFx)
        (kind.height M.E M.FFx) forward)

/-- `dg_async_ensure` -/
def PfHost.init : PfHost where
  slots _ := ⟨(⟨0, .gateUp⟩, 0), false, false, fun _ => 0, 0, 0, 0, 0, false, false⟩
  rr _ := 0
  queued := []

def PfModel.run (M : PfModel) (calls : List PfCall) : Option PfHost :=
  calls.foldlM (PfCall.run M) PfHost.init

end ShannonPrime.Cuda
