import ShannonPrime.Hexagon.Matmul
import Mathlib.Logic.Function.Basic

/-!
What the skeleton keeps of the weights between two calls: row sums by the address of the
block, the attention weights of one layer in the VTCM, and row sums by layer and kind. None
of them looks at the weights again once it has an entry.
-/

namespace ShannonPrime.Hexagon

/-- The weights a forward is called with: the configuration, and the blob with the address
the skeleton sees it at while the session lives. -/
structure Blob where
  cfg : Cfg
  base : Nat
  bytes : Nat → Int

namespace Cfg

variable (c : Cfg)

def rows (k : Kind) : Nat := (c.kindDims k).1

def cols (k : Kind) : Nat := (c.kindDims k).2.getD 0

/-- `hx_vtcm_attn_set_bytes` -/
def attnSetBytes : Nat :=
  c.kindBytes .wq + c.kindBytes .wk + c.kindBytes .wv + c.kindBytes .wo

/-- `off_wq` and the others: where the VTCM has an attention block. -/
def vtcmOff : Kind → Nat
  | .wk => c.kindBytes .wq
  | .wv => c.kindBytes .wq + c.kindBytes .wk
  | .wo => c.kindBytes .wq + c.kindBytes .wk + c.kindBytes .wv
  | _ => 0

/-- `hx_vtcm_rsum_off_wq` and the others. -/
def attnSumOff : Kind → Nat
  | .wk => c.qd
  | .wv => c.qd + c.kvd
  | .wo => c.qd + 2 * c.kvd
  | _ => 0

/-- `hx_vtcm_rsum_stride` -/
def attnSumStride : Nat := c.qd + 2 * c.kvd + c.nEmbd

/-- `hx_vtcm_rsum_ffn_off_wgate` and the others. -/
def ffnSumOff : Kind → Nat
  | .wup => c.nFf
  | .wdown => 2 * c.nFf
  | _ => 0

/-- `hx_vtcm_rsum_ffn_stride` -/
def ffnSumStride : Nat := c.nFf + c.nFf + c.nEmbd

end Cfg

/-- `HX_FFN_WGATE`, `HX_FFN_WUP`, `HX_FFN_WDOWN` -/
def Kind.ffnNum : Kind → Nat
  | .wup => 1
  | .wdown => 2
  | _ => 0

def attnKinds : List Kind := [.wq, .wk, .wv, .wo]

def ffnKinds : List Kind := [.wgate, .wup, .wdown]

section Layout

variable {L : Nat} {k : Kind}

theorem attnSum_end (c : Cfg) (hk : k ∈ attnKinds) :
    c.attnSumOff k + c.rows k ≤ c.attnSumStride := by
  simp only [attnKinds, List.mem_cons, List.not_mem_nil, or_false] at hk
  unfold Cfg.attnSumStride
  rcases hk with rfl | rfl | rfl | rfl <;>
    simp only [Cfg.rows, Cfg.kindDims, Cfg.attnSumOff] <;> omega

theorem ffnSum_end (c : Cfg) (hk : k ∈ ffnKinds) :
    c.ffnSumOff k + c.rows k ≤ c.ffnSumStride := by
  simp only [ffnKinds, List.mem_cons, List.not_mem_nil, or_false] at hk
  unfold Cfg.ffnSumStride
  rcases hk with rfl | rfl | rfl <;> simp only [Cfg.rows, Cfg.kindDims, Cfg.ffnSumOff] <;> omega

/-- The VTCM has the attention blocks as they follow each other in the blob. -/
theorem vtcmOff_place (c : Cfg) (hk : k ∈ attnKinds) (hL : L < c.nLayers) :
    c.weightOff L k.num = c.weightOff L Kind.wq.num + c.vtcmOff k ∧
      c.vtcmOff k + c.kindBytes k ≤ c.attnSetBytes := by
  rw [c.weightOff_kind hL, c.weightOff_kind hL]
  unfold Cfg.attnSetBytes
  simp only [attnKinds, List.mem_cons, List.not_mem_nil, or_false] at hk
  rcases hk with rfl | rfl | rfl | rfl <;>
    simp only [Cfg.vtcmOff, Cfg.kindOff, Cfg.addKinds, Kind.num, Kind.all, List.take_succ_cons,
      List.take_zero, List.foldl_cons, List.foldl_nil] <;>
    omega

end Layout

/-- The codes of a tensor. -/
def Blob.block (b : Blob) (L : Nat) (k : Kind) : Nat → Int :=
  fun i => b.bytes (b.cfg.weightOff L k.num + i)

/-- `WPTR(kind)` -/
def Blob.ptr (b : Blob) (L : Nat) (k : Kind) : Nat := b.base + b.cfg.weightOff L k.num

/-! ### The state -/

/-- `hx_rsum_entry`, of a slot that is taken. -/
structure SumEntry where
  key : Nat
  out : Nat
  inn : Nat
  vals : Nat → Int

/-- `hx_vtcm_t` while it is allocated. Sizes, offsets and strides are those of the stored
configuration. -/
structure Vtcm where
  cfg : Cfg
  bytes : Nat → Int
  cachedLayer : Option Nat
  slots : Slots
  rsumAttn : Nat → Int
  attnReady : Nat → Bool
  rsumFfn : Nat → Int
  ffnReady : Nat → Bool

/-- The statics of the skeleton that hold something made from weights. -/
structure Dsp where
  sums : Nat → Option SumEntry
  vtcm : Option Vtcm

/-- After loading, and after `hx_rsum_clear` and `hx_vtcm_release`. -/
def Dsp.empty : Dsp where
  sums := fun _ => none
  vtcm := none

/-- A part of the VTCM that a matmul reads, and the place in the blob it stands for. -/
structure Copy where
  src : Nat
  len : Nat
  bytes : Nat → Int

/-- What a matmul takes from the caches: a table of row sums, unless it makes its own, and
codes from the VTCM, unless it reads the blob. -/
structure Use where
  layer : Nat
  kind : Kind
  sums : Option (Nat → Int)
  resident : List Copy

/-- What the surroundings of a matmul decide. -/
structure MatmulEnv where
  poolOk : Bool
  malloc : Bool
  mallocAgain : Bool
  dmaError : Nat → Bool

/-- What the surroundings of a layer decide, and what each piece of fresh memory holds. -/
structure LayerEnv where
  vtcmOk : Bool
  mallocAttn : Bool
  mallocFfn : Bool
  fresh : Nat → Nat → Int
  matmul : Kind → MatmulEnv

/-! ### Row sums by address -/

def rsumCacheCap : Nat := 256

/-- `hx_ptr_hash` -/
def ptrHash (p : Nat) : Nat :=
  let h := 2166136261 ^^^ p % 2 ^ 32
  let h := (h ^^^ (p >>> 16) % 2 ^ 32) * 16777619 % 2 ^ 32
  h ^^^ (h >>> 13)

/-- The probes of `hx_rsum_get` from step `step` on, `left` of them. -/
def probe (sums : Nat → Option SumEntry) (key out inn : Nat) (codes : Nat → Int)
    (malloc : Bool) : Nat → Nat → Option (Nat → Int) × (Nat → Option SumEntry)
  | 0, _ => (none, sums)
  | left + 1, step =>
      let idx := (ptrHash key + step) % rsumCacheCap
      match sums idx with
      | some e =>
          if e.key = key ∧ e.out = out ∧ e.inn = inn then (some e.vals, sums)
          else probe sums key out inn codes malloc left (step + 1)
      | none =>
          if malloc then
            let e : SumEntry := { key, out, inn, vals := rowSum codes inn }
            (some e.vals, Function.update sums idx (some e))
          else (none, sums)

/-- `hx_rsum_get` on a tensor of the blob. -/
def rsumGet (b : Blob) (L : Nat) (k : Kind) (malloc : Bool) (d : Dsp) :
    Option (Nat → Int) × Dsp :=
  let (vals, sums) := probe d.sums (b.ptr L k) (b.cfg.rows k) (b.cfg.cols k) (b.block L k) malloc
    rsumCacheCap 0
  (vals, { d with sums })

/-- The matmul of `hx_matmul_q8_vrmpy_dual_ctx`. Without the worker, or when there is no
memory, the fallback looks for the row sums again. -/
def ddrUse (b : Blob) (env : MatmulEnv) (L : Nat) (k : Kind) (d : Dsp) : Dsp × List Use :=
  let (vals, d) := rsumGet b L k env.malloc d
  match vals with
  | some vals => (d, [⟨L, k, some vals, []⟩])
  | none =>
      if env.poolOk then
        let (vals, d) := rsumGet b L k env.mallocAgain d
        (d, [⟨L, k, vals, []⟩])
      else (d, [⟨L, k, none, []⟩])

/-! ### The attention weights of a layer -/

/-- `hx_vtcm_init` where nothing is allocated yet. -/
def vtcmInit (c : Cfg) (env : LayerEnv) : Option Vtcm :=
  if env.vtcmOk ∧ env.mallocAttn ∧ env.mallocFfn then
    some
      { cfg := c
        bytes := env.fresh 0
        cachedLayer := none
        slots := fun slot => env.fresh (if slot then 2 else 1)
        rsumAttn := env.fresh 3
        attnReady := fun _ => false
        rsumFfn := env.fresh 4
        ffnReady := fun _ => false }
  else none

/-- `hx_compute_rsum` into a table. -/
def storeSums (b : Blob) (L : Nat) (k : Kind) (off : Nat) (table : Nat → Int) : Nat → Int :=
  Buffer.store table off (b.cfg.rows k) (rowSum (b.block L k) (b.cfg.cols k))

/-- `hx_vtcm_ensure_layer` once the VTCM is allocated. -/
def Vtcm.load (b : Blob) (L : Nat) (v : Vtcm) : Vtcm :=
  if v.cachedLayer = some L then v
  else
    let v := { v with
      bytes := Buffer.store v.bytes 0 v.cfg.attnSetBytes fun i =>
        b.bytes (b.cfg.weightOff L Kind.wq.num + i)
      cachedLayer := some L }
    if L < v.cfg.nLayers ∧ v.attnReady L = false then
      let row := L * v.cfg.attnSumStride
      let table := storeSums b L .wq (row + b.cfg.attnSumOff .wq) v.rsumAttn
      let table := storeSums b L .wk (row + b.cfg.attnSumOff .wk) table
      let table := storeSums b L .wv (row + b.cfg.attnSumOff .wv) table
      let table := storeSums b L .wo (row + b.cfg.attnSumOff .wo) table
      { v with rsumAttn := table, attnReady := Function.update v.attnReady L true }
    else v

/-- `hx_vtcm_ensure_layer`; without VTCM the matmuls read the blob. -/
def ensureLayer (b : Blob) (env : LayerEnv) (L : Nat) (d : Dsp) : Dsp :=
  match d.vtcm with
  | some v => { d with vtcm := some (v.load b L) }
  | none => { d with vtcm := (vtcmInit b.cfg env).map (Vtcm.load b L) }

/-- `hx_vtcm_rsum_for` -/
def Vtcm.sumsFor (v : Vtcm) (c : Cfg) (L : Nat) (k : Kind) : Option (Nat → Int) :=
  if L < v.cfg.nLayers ∧ v.attnReady L then
    some fun j => v.rsumAttn (L * v.cfg.attnSumStride + c.attnSumOff k + j)
  else none

/-- The attention block as the matmul finds it in the VTCM. -/
def Vtcm.copy (v : Vtcm) (c : Cfg) (L : Nat) (k : Kind) : Copy where
  src := c.weightOff L k.num
  len := c.kindBytes k
  bytes := fun i => v.bytes (v.cfg.vtcmOff k + i)

/-- `hx_matmul_q8_vrmpy_dispatch` -/
def attnUse (b : Blob) (env : MatmulEnv) (L : Nat) (k : Kind) (d : Dsp) : Dsp × List Use :=
  match d.vtcm with
  | none => ddrUse b env L k d
  | some v =>
      match v.sumsFor b.cfg L k with
      | none => ddrUse b env L k d
      | some vals => (d, [⟨L, k, some vals, [v.copy b.cfg L k]⟩])

/-! ### The tiles of the feed-forward weights -/

/-- `hx_vtcm_ensure_ffn_rsum` -/
def Vtcm.ffnSums (b : Blob) (L : Nat) (k : Kind) (v : Vtcm) : Vtcm :=
  if v.ffnReady (L * 3 + k.ffnNum) then v
  else
    { v with
      rsumFfn := storeSums b L k (L * v.cfg.ffnSumStride + v.cfg.ffnSumOff k) v.rsumFfn
      ffnReady := Function.update v.ffnReady (L * 3 + k.ffnNum) true }

/-- The tiles that are computed with, from tile `i` on, as their slots hold them then, with
whether the matmul ends well and what the slots are left with. `at0` is the block's place
in the blob. -/
def tileCopies (codes : Nat → Int) (at0 out inn r : Nat) (dmaError : Nat → Bool) :
    Nat → Nat → Slots → Bool × Slots × List Copy
  | 0, _, slots => (true, slots, [])
  | left + 1, i, slots =>
      let slots := nextSlots out inn codes r left i slots
      let copy : Copy :=
        { src := at0 + i * r * align inn
          len := tileRows out r i * align inn
          bytes := slots (slotOf i) }
      if 0 < left ∧ dmaError (i + 1) then (false, slots, [copy])
      else
        let (ok, slots, rest) := tileCopies codes at0 out inn r dmaError left (i + 1) slots
        (ok, slots, copy :: rest)

/-- The slots and the reads of `hx_matmul_q8_vrmpy_dual_ctx_v5_tiled`. -/
def tiledCopies (b : Blob) (env : MatmulEnv) (L : Nat) (k : Kind) (slots : Slots) :
    Bool × Slots × List Copy :=
  let out := b.cfg.rows k
  let inn := b.cfg.cols k
  if env.poolOk ∧ align inn ≠ 0 ∧ fitRows inn ≠ 0 then
    let r := rowsPerTile out inn
    let slots := prefetch (b.block L k) slots (slotOf 0) 0 (tileRows out r 0 * align inn)
    if env.dmaError 0 then (false, slots, [])
    else
      tileCopies (b.block L k) (b.cfg.weightOff L k.num) out inn r env.dmaError
        ((out + r - 1) / r) 0 slots
  else (false, slots, [])

/-- `hx_matmul_q8_vrmpy_dispatch_ffn` -/
def ffnUse (b : Blob) (env : MatmulEnv) (L : Nat) (k : Kind) (d : Dsp) : Dsp × List Use :=
  match d.vtcm with
  | none => ddrUse b env L k d
  | some v =>
      if L < v.cfg.nLayers then
        let v := v.ffnSums b L k
        let vals := fun j => v.rsumFfn (L * v.cfg.ffnSumStride + v.cfg.ffnSumOff k + j)
        let (ok, slots, copies) := tiledCopies b env L k v.slots
        let d := { d with vtcm := some { v with slots } }
        let use : Use := ⟨L, k, some vals, copies⟩
        if ok then (d, [use])
        else
          let (d, uses) := ddrUse b env L k d
          (d, use :: uses)
      else ddrUse b env L k d

/-! ### A forward -/

/-- One matmul after another, with the uses in order. -/
def allUses {α : Type*} (use : α → Dsp → Dsp × List Use) : List α → Dsp → Dsp × List Use
  | [], d => (d, [])
  | a :: as, d =>
      let (d, first) := use a d
      let (d, rest) := allUses use as d
      (d, first ++ rest)

/-- The weights of a layer in the order of the loop body of `sp_hex_forward`. -/
def layerUses (b : Blob) (env : LayerEnv) (L : Nat) (d : Dsp) : Dsp × List Use :=
  let d := ensureLayer b env L d
  let (d, attn) := allUses (fun k => attnUse b (env.matmul k) L k) [.wq, .wk, .wv, .wo] d
  let (d, ffn) := allUses (fun k => ffnUse b (env.matmul k) L k) [.wgate, .wup, .wdown] d
  (d, attn ++ ffn)

/-- The weights of `sp_hex_forward`. -/
def forwardUses (b : Blob) (env : Nat → LayerEnv) (d : Dsp) : Dsp × List Use :=
  allUses (fun L => layerUses b (env L) L) (List.range b.cfg.nLayers) d

end ShannonPrime.Hexagon
