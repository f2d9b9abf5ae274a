import Mathlib.Order.Basic
import Mathlib.Tactic.Ring
import ShannonPrime.Lib.Buffer
import ShannonPrime.Lib.Lanes

/-!
`sp_hex_layout.h`: the byte layout of the weight blob and the size of the scratch area,
which the host and the skeleton each compute from the configuration.
-/

namespace ShannonPrime.Hexagon

/-- The integer fields of `sp_hex_cfg`. -/
structure Cfg where
  nLayers : Nat
  nEmbd : Nat
  nFf : Nat
  headDim : Nat
  nHead : Nat
  nHeadKv : Nat
  slidingWindow : Int

/-- The tensors of a layer, in blob order. -/
inductive Kind where
  | attnNorm
  | qNorm
  | kNorm
  | ffnNorm
  | postAttn
  | postFfw
  | wq
  | wk
  | wv
  | wo
  | wgate
  | wup
  | wdown
  deriving DecidableEq, Repr

namespace Kind

def all : List Kind :=
  [attnNorm, qNorm, kNorm, ffnNorm, postAttn, postFfw, wq, wk, wv, wo, wgate, wup, wdown]

/-- The number the enumeration of the source gives a kind. -/
def num : Kind → Nat
  | attnNorm => 0
  | qNorm => 1
  | kNorm => 2
  | ffnNorm => 3
  | postAttn => 4
  | postFfw => 5
  | wq => 6
  | wk => 7
  | wv => 8
  | wo => 9
  | wgate => 10
  | wup => 11
  | wdown => 12

end Kind

/-- `sp_hex_align` -/
def align (x : Nat) : Nat := (x + 127) / 128 * 128

/-- `sp_hex_q8_bytes`: the codes, padded, and the row scales. -/
def q8Bytes (out inn : Nat) : Nat := align (align (out * inn) + out * 4)

/-- `sp_hex_f32_bytes` -/
def f32Bytes (n : Nat) : Nat := align (n * 4)

namespace Cfg

variable (c : Cfg)

/-- `QD`, the width of the query rows. -/
def qd : Nat := c.nHead * c.headDim

/-- `KVD`, the width of the key and value rows. -/
def kvd : Nat := c.nHeadKv * c.headDim

/-- `sp_hex_kind_dims`: rows and columns, no columns for a norm vector. -/
def kindDims : Kind → Nat × Option Nat
  | .attnNorm | .ffnNorm | .postAttn | .postFfw => (c.nEmbd, none)
  | .qNorm | .kNorm => (c.headDim, none)
  | .wq => (c.qd, some c.nEmbd)
  | .wk | .wv => (c.kvd, some c.nEmbd)
  | .wo => (c.nEmbd, some c.qd)
  | .wgate | .wup => (c.nFf, some c.nEmbd)
  | .wdown => (c.nEmbd, some c.nFf)

/-- `sp_hex_kind_bytes` -/
def kindBytes (k : Kind) : Nat :=
  match c.kindDims k with
  | (rows, none) => f32Bytes rows
  | (rows, some cols) => q8Bytes rows cols

/-- `for (k …) off += sp_hex_kind_bytes(c, k)` -/
def addKinds (off : Nat) (ks : List Kind) : Nat := ks.foldl (fun off k => off + c.kindBytes k) off

/-- `sp_hex_weight_off` -/
def weightOff (layer kind : Nat) : Nat :=
  let off := (List.range layer).foldl (fun off _ => c.addKinds off Kind.all) 0
  if layer < c.nLayers then c.addKinds off (Kind.all.take kind) else off

/-- `sp_hex_blob_bytes` -/
def blobBytes : Nat := c.weightOff c.nLayers 0 + f32Bytes c.nEmbd

/-- `sp_hex_scratch_elems` -/
def scratchElems (nTok : Nat) : Nat :=
  nTok * (c.nEmbd + c.nEmbd + c.qd + c.kvd + c.kvd + c.qd + c.nEmbd + c.nFf + c.nFf + c.nEmbd + 1)

/-- The bytes of one layer. -/
def layerBytes : Nat := c.addKinds 0 Kind.all

end Cfg

/-! ### The offsets in closed form -/

theorem le_align (x : Nat) : x ≤ align x := by
  unfold align
  omega

theorem align_lt (x : Nat) : align x < x + 128 := by
  unfold align
  omega

theorem align_mod (x : Nat) : align x % 128 = 0 := by
  unfold align
  omega

theorem align_eq {x : Nat} (h : x % 128 = 0) : align x = x := by
  unfold align
  omega

theorem align_eq_iff {x : Nat} : align x = x ↔ x % 128 = 0 := by
  constructor
  · intro h
    rw [← h]
    exact align_mod x
  · exact align_eq

theorem align_mono {x y : Nat} (h : x ≤ y) : align x ≤ align y := by
  unfold align
  omega

namespace Cfg

variable (c : Cfg)

theorem addKinds_eq (off : Nat) (ks : List Kind) : c.addKinds off ks = off + c.addKinds 0 ks := by
  induction ks generalizing off with
  | nil => rfl
  | cons k ks ih =>
      have hoff : c.addKinds off (k :: ks) = c.addKinds (off + c.kindBytes k) ks := rfl
      have hzero : c.addKinds 0 (k :: ks) = c.addKinds (0 + c.kindBytes k) ks := rfl
      rw [hoff, hzero, ih, ih (0 + c.kindBytes k)]
      omega

theorem weightOff_eq (layer kind : Nat) :
    c.weightOff layer kind =
      layer * c.layerBytes + if layer < c.nLayers then c.addKinds 0 (Kind.all.take kind) else 0 := by
  have hlayers : (List.range layer).foldl (fun off _ => c.addKinds off Kind.all) 0 =
      layer * c.layerBytes := by
    induction layer with
    | zero => simp
    | succ layer ih =>
        rw [List.range_succ, List.foldl_append, ih]
        simp only [List.foldl_cons, List.foldl_nil]
        rw [addKinds_eq, Nat.succ_mul]
        rfl
  unfold weightOff
  rw [hlayers]
  split
  · rw [addKinds_eq]
  · rfl

/-- The offset of a kind within its layer. -/
def kindOff (k : Kind) : Nat := c.addKinds 0 (Kind.all.take k.num)

theorem weightOff_kind {L : Nat} (hL : L < c.nLayers) (k : Kind) :
    c.weightOff L k.num = L * c.layerBytes + c.kindOff k := by
  rw [weightOff_eq, if_pos hL]
  rfl

/-- A tensor ends within its layer. -/
theorem kindOff_add_le (k : Kind) : c.kindOff k + c.kindBytes k ≤ c.layerBytes := by
  cases k <;>
    simp only [kindOff, layerBytes, addKinds, Kind.num, Kind.all, List.take_succ_cons,
      List.take_zero, List.foldl_cons, List.foldl_nil] <;>
    omega

/-- A tensor ends within the blob. -/
theorem weightOff_add_le {L : Nat} (hL : L < c.nLayers) (k : Kind) :
    c.weightOff L k.num + c.kindBytes k ≤ c.blobBytes := by
  have hkind := c.kindOff_add_le k
  have hlayer : L * c.layerBytes + c.layerBytes ≤ c.nLayers * c.layerBytes := by
    rw [← Nat.succ_mul]
    exact Nat.mul_le_mul_right _ hL
  have hnorm : c.weightOff c.nLayers 0 = c.nLayers * c.layerBytes := by
    rw [weightOff_eq, if_neg (Nat.lt_irrefl _), Nat.add_zero]
  rw [weightOff_kind c hL, blobBytes, hnorm]
  omega

end Cfg

end ShannonPrime.Hexagon

/-!
The Q8 matmul of the skeleton on its five paths. Activations are quantised to bytes with
128 added, so that the unsigned by signed product can be used, and 128 times the sum of
the weight row is taken off again. The paths differ in where the row sums come from, in
how the rows are split over the two threads and in where the codes are read.
-/

namespace ShannonPrime.Hexagon

open CInt

/-- What a matmul reads: the signed bytes from the weight block on, and the activations as
`hx_quant_act_ub` rounds and clamps them. -/
structure Operands where
  codes : Nat → Int
  act : Nat → Nat → Int
  int8 : ∀ k, -128 ≤ codes k ∧ codes k ≤ 127
  clamped : ∀ t i, -127 ≤ act t i ∧ act t i ≤ 127

/-- `SP_HEX_VRMPY_MAX_IN` -/
def maxIn : Nat := 8192

/-- A store to `Y[t * out + j]` of the integer dot, times the token's activation scale and
the row scale of index `scale`, over 127. -/
structure Cell where
  tok : Nat
  row : Nat
  dot : Int
  scale : Nat
  deriving DecidableEq

/-- The byte buffer of a token: 128 is added, and the padding stands for 0. -/
def Operands.actUb (o : Operands) (inn t i : Nat) : Int := if i < inn then o.act t i + 128 else 128

/-- `dot_b - 128 * rsum` -/
def trueDot (dotB rsum : Int) : Option Int := do checked (dotB - (← checked (128 * rsum)))

/-- `for (t < n_tok) for (j = j_start; j < j_end; j++)` -/
def forCells (nTok jStart jEnd : Nat) (cell : Nat → Nat → Option Cell) : Option (List Cell) := do
  let rows ← (List.range nTok).mapM fun t => (List.range' jStart (jEnd - jStart)).mapM (cell t)
  return rows.flatten

variable (o : Operands) (out inn nTok : Nat)

/-! ### The kernels -/

/-- The loop of `hx_rsum_get` and of `hx_compute_rsum`. -/
def computeRsum : Option (List Int) :=
  (List.range out).mapM fun j => sum inn fun i => o.codes (j * inn + i)

/-- The sum of the codes of row `j`. -/
def rowSum (codes : Nat → Int) (inn j : Nat) : Int :=
  ∑ i ∈ Finset.range inn, codes (j * inn + i)

/-- `hx_matmul_q8_vrmpy`: a second accumulator, on ones, makes the row sum. -/
def matmulV1 : Option (List Cell) :=
  forCells nTok 0 out fun t j => do
    let dotB ← Lanes.dot (o.actUb inn t) (fun i => o.codes (j * inn + i)) inn
    let wsB ← Lanes.dot (fun _ => 1) (fun i => o.codes (j * inn + i)) inn
    return ⟨t, j, ← trueDot dotB wsB, j⟩

/-- The half kernel on the codes behind a pointer. Its rows are numbered from `base` on in
the output, in the row sums and in the scales. -/
def halfRows (codes : Nat → Int) (base : Nat) (rsum : List Int) (jStart jEnd : Nat) :
    Option (List Cell) :=
  forCells nTok jStart jEnd fun t j => do
    let dotB ← Lanes.dot (o.actUb inn t) (fun i => codes (j * inn + i)) inn
    return ⟨t, base + j, ← trueDot dotB (← rsum[base + j]?), base + j⟩

/-- `hx_matmul_q8_vrmpy_half` -/
def half (blk : Nat → Int) (rsum : List Int) (jStart jEnd : Nat) : Option (List Cell) :=
  halfRows o inn nTok blk 0 rsum jStart jEnd

/-- `hx_matmul_q8_vrmpy_half_tile` -/
def halfTile (tile : Nat → Int) (rowBase : Nat) (rsumFull : List Int) (jStart jEnd : Nat) :
    Option (List Cell) :=
  halfRows o inn nTok tile rowBase rsumFull jStart jEnd

/-! ### The dispatches -/

/-- `hx_matmul_q8_vrmpy_v2`; the row sums are missing when their allocation failed. -/
def matmulV2 (rsumOk : Bool) : Option (List Cell) :=
  if rsumOk then do half o inn nTok o.codes (← computeRsum o out inn) 0 out
  else matmulV1 o out inn nTok

/-- The rows `[0, (rows + 1) / 2)` are the worker's, the rest the handler's. -/
def bothHalves (rows : Nat) (kernel : Nat → Nat → Option (List Cell)) : Option (List Cell) := do
  let mHalf := (rows + 1) / 2
  return (← kernel 0 mHalf) ++ (← kernel mHalf rows)

/-- `hx_matmul_q8_vrmpy_dual_ctx`. `again` is the second look for the row sums, which the
fallback makes. -/
def dualCtx (poolOk rsumOk again : Bool) : Option (List Cell) :=
  if poolOk then
    if rsumOk then do
      let rsum ← computeRsum o out inn
      bothHalves out (half o inn nTok o.codes rsum)
    else matmulV2 o out inn nTok again
  else matmulV2 o out inn nTok rsumOk

/-- `memcpy` of a block to offset `off` of the VTCM, and the pointer to it. -/
def vtcmBlock (vtcm : Nat → Int) (off : Nat) : Nat → Int := fun k =>
  Buffer.store vtcm off (q8Bytes out inn) o.codes (off + k)

/-- `hx_matmul_q8_vrmpy_dual_ctx_v4` on the copy of the block; its row sums were taken from
the original. -/
def dualCtxV4 (vtcm : Nat → Int) (off : Nat) (poolOk : Bool) : Option (List Cell) := do
  let rsum ← computeRsum o out inn
  let kernel := half o inn nTok (vtcmBlock o out inn vtcm off) rsum
  if poolOk then bothHalves out kernel else kernel 0 out

/-! ### The tiles -/

/-- `SP_HEX_V5_TILE_BYTES` -/
def tileBytes : Nat := 1048576

/-- The rows whose padded length fits a tile slot, a multiple of 4. -/
def fitRows : Nat := tileBytes / align inn / 4 * 4

/-- `rows_per_tile` with its cap. -/
def rowsPerTile : Nat := if out < fitRows inn then out else fitRows inn

/-- The two slots. -/
abbrev Slots := Bool → Nat → Int

/-- `hx_udma_prefetch` to a slot, and the wait for it. -/
def prefetch (codes : Nat → Int) (slots : Slots) (slot : Bool) (src len : Nat) : Slots := fun b =>
  if b = slot then Buffer.store (slots b) 0 len fun k => codes (src + k) else slots b

/-- The rows of tile `i`. -/
def tileRows (r i : Nat) : Nat := if i * r + r ≤ out then r else out - i * r

/-- `slots[i & 1]` -/
def slotOf (i : Nat) : Bool := i % 2 = 1

/-- The slots while tile `i` is computed with: the next tile, if there is one, is fetched
into the other slot. -/
def nextSlots (codes : Nat → Int) (r left i : Nat) (slots : Slots) : Slots :=
  if 0 < left then
    prefetch codes slots (slotOf (i + 1)) ((i + 1) * r * align inn)
      (tileRows out r (i + 1) * align inn)
  else slots

/-- The ping-pong loop from tile `i` on, with `left` tiles to go: whether the matmul ended
well, and its stores. A failing transfer leaves zeros in the rows that are missing. -/
def tileLoop (r : Nat) (rsum : List Int) (dmaError : Nat → Bool) :
    Nat → Nat → Slots → Option (Bool × List Cell)
  | 0, _, _ => some (true, [])
  | left + 1, i, slots => do
      let rows := tileRows out r i
      let haveNext := 0 < left
      let slots := nextSlots out inn o.codes r left i slots
      let cells ← bothHalves rows (halfTile o inn nTok (slots (slotOf i)) (i * r) rsum)
      if haveNext ∧ dmaError (i + 1) then
        let zeros ← forCells nTok (i * r + rows) out fun t j => some ⟨t, j, 0, j⟩
        return (false, cells ++ zeros)
      else
        let (ok, rest) ← tileLoop r rsum dmaError left (i + 1) slots
        return (ok, cells ++ rest)

/-- `hx_matmul_q8_vrmpy_dual_ctx_v5_tiled`. No rows at all make it divide by zero. -/
def tiled (poolOk : Bool) (rsum : List Int) (slots : Slots) (dmaError : Nat → Bool) :
    Option (Bool × List Cell) :=
  if poolOk then
    if align inn = 0 then some (false, [])
    else if fitRows inn = 0 then some (false, [])
    else
      let r := rowsPerTile out inn
      if r = 0 then none
      else
        let nTiles := (out + r - 1) / r
        let slots := prefetch o.codes slots (slotOf 0) 0 (r * align inn)
        if dmaError 0 then some (false, [])
        else tileLoop o out inn nTok r rsum dmaError nTiles 0 slots
  else some (false, [])

/-- The matmul of `hx_matmul_q8_vrmpy_dispatch_ffn` when the tile slots and the row sums are
there: the tiles, and the whole matrix from DDR if they failed. -/
def dispatchFfn (poolOk : Bool) (slots : Slots) (dmaError : Nat → Bool) (rsumOk again : Bool) :
    Option (List Cell) := do
  let rsum ← computeRsum o out inn
  let (ok, cells) ← tiled o out inn nTok poolOk rsum slots dmaError
  if ok then return cells
  else return cells ++ (← dualCtx o out inn nTok poolOk rsumOk again)

end ShannonPrime.Hexagon
