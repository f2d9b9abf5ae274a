import ShannonPrime.Hexagon.Caches

/-!
The indices of `sp_hex_forward`: every range of bytes that the forward and its matmuls
touch in a buffer of a fixed or computed size, with the divisions and the `int` arithmetic
the indices come from.
-/

namespace ShannonPrime.Hexagon

open CInt

/-- The buffers. The row sums of the address cache are a table for each tensor, of as many
numbers as it has rows. -/
inductive Area where
  | x
  | hidden
  | scratch
  | blob
  | rsum (out : Nat)
  | rsumAttn
  | rsumFfn
  | attnReady
  | ffnReady
  | vtcm
  | actUb

/-- A range of bytes that is touched, a division, or a number that must be an `int`. -/
inductive Event where
  | touch (a : Area) (off len : Nat)
  | divide (n : Nat)
  | int (n : Nat)

/-- `len` floats from index `i` on. -/
def floats (a : Area) (i len : Nat) : Event := .touch a (4 * i) (4 * len)

/-- `for (i < n)` -/
def forEach (n : Nat) (body : Nat → List Event) : List Event := (List.range n).flatMap body

/-- The widths of one token's scratch areas together, an `int` in `sp_hex_scratch_elems`. -/
def Cfg.scratchWidth (c : Cfg) : Nat :=
  c.nEmbd + c.nEmbd + c.qd + c.kvd + c.kvd + c.qd + c.nEmbd + c.nFf + c.nFf + c.nEmbd + 1

/-- What `rpcmem_alloc` makes of a size: its parameter is an `int`. -/
def rpcmemBytes (size : Nat) : Int := wrap size

/-- The bytes of each buffer. -/
def Cfg.bytesOf (c : Cfg) (nTok : Nat) : Area → Int
  | .x => rpcmemBytes (4 * (nTok * c.nEmbd))
  | .hidden => rpcmemBytes (4 * (nTok * c.nEmbd))
  | .scratch => rpcmemBytes (4 * c.scratchElems nTok)
  | .blob => rpcmemBytes c.blobBytes
  | .rsum out => 4 * out
  | .rsumAttn => 4 * (c.nLayers * c.attnSumStride)
  | .rsumFfn => 4 * (c.nLayers * c.ffnSumStride)
  | .attnReady => c.nLayers
  | .ffnReady => c.nLayers * 3
  | .vtcm => c.attnSetBytes + 2 * tileBytes
  | .actUb => maxIn

/-- A range lies in its buffer, a divisor is not 0, a number is an `int`. -/
def Event.Ok (bytesOf : Area → Int) : Event → Prop
  | touch a off len => len = 0 ∨ ((off + len : Nat) : Int) ≤ bytesOf a
  | divide n => n ≠ 0
  | int n => n < 2 ^ 31

/-- Every event of a list is in order. -/
def AllOk (bytesOf : Area → Int) (es : List Event) : Prop := ∀ e ∈ es, e.Ok bytesOf

/-! ### The matmuls -/

/-- Where a matmul finds what it needs: its operands in the scratch area, the codes, the row
scales, the row sums. -/
structure Places where
  inn : Nat
  out : Nat
  xAt : Nat
  yAt : Nat

/-- A kernel on `n` rows of codes, the first of which is row `base` of the output: for each
token it quantises, for each row it reads codes, scale and row sum. -/
def kernelEvents (nTok : Nat) (p : Places) (codes scales sums : Area × Nat) (base n : Nat) :
    List Event :=
  forEach nTok fun t =>
    [floats .scratch (p.xAt + t * p.inn) p.inn, .touch .actUb 0 (align p.inn)] ++
    forEach n fun j =>
      [.touch codes.1 (codes.2 + j * p.inn) p.inn,
        .touch scales.1 (scales.2 + 4 * (base + j)) 4,
        .touch sums.1 (sums.2 + 4 * (base + j)) 4,
        floats .scratch (p.yAt + (t * p.out + (base + j))) 1]

/-- The loop that makes row sums, into a table from byte `at0` on. -/
def sumEvents (codes : Nat) (p : Places) (table : Area) (at0 : Nat) : List Event :=
  forEach p.out fun j => [.touch .blob (codes + j * p.inn) p.inn, .touch table (at0 + 4 * j) 4]

/-- The place of the scales of a block. -/
def Places.scales (p : Places) (block : Nat) : Nat := block + align (p.out * p.inn)

/-- `hx_matmul_q8_vrmpy_dual_ctx`, and the paths it falls back to. -/
def ddrEvents (nTok block : Nat) (p : Places) : List Event :=
  sumEvents block p (.rsum p.out) 0 ++
  kernelEvents nTok p (.blob, block) (.blob, p.scales block) (.rsum p.out, 0) 0 p.out

/-- `hx_matmul_q8_vrmpy_dispatch`: with the block in the VTCM, or without. -/
def attnEvents (c : Cfg) (nTok L : Nat) (k : Kind) (p : Places) (vtcm : Bool) : List Event :=
  if vtcm then
    kernelEvents nTok p (.vtcm, c.vtcmOff k) (.vtcm, p.scales (c.vtcmOff k))
      (.rsumAttn, 4 * (L * c.attnSumStride + c.attnSumOff k)) 0 p.out
  else ddrEvents nTok (c.weightOff L k.num) p

/-- `tile_a_off`, `tile_b_off` -/
def Cfg.slotOff (c : Cfg) (slot : Bool) : Nat :=
  c.attnSetBytes + if slot then tileBytes else 0

/-- A transfer of tile `i`. -/
def fetchEvents (c : Cfg) (block : Nat) (p : Places) (r i : Nat) : List Event :=
  [.touch .blob (block + i * r * align p.inn) (tileRows p.out r i * align p.inn),
    .touch .vtcm (c.slotOff (slotOf i)) (tileRows p.out r i * align p.inn)]

/-- `hx_matmul_q8_vrmpy_dual_ctx_v5_tiled`. `fetched` transfers go well; after one that does
not, the rest of the output is zeroed and the other path follows. -/
def tiledEvents (c : Cfg) (nTok block sums : Nat) (p : Places) (fetched : Nat) : List Event :=
  if align p.inn = 0 ∨ fitRows p.inn = 0 then ddrEvents nTok block p
  else
    let r := rowsPerTile p.out p.inn
    let nTiles := (p.out + r - 1) / r
    let tile := fun i =>
      (if i + 1 < nTiles then fetchEvents c block p r (i + 1) else []) ++
      kernelEvents nTok p (.vtcm, c.slotOff (slotOf i)) (.blob, p.scales block) (.rsumFfn, sums)
        (i * r) (tileRows p.out r i)
    [.divide r] ++ fetchEvents c block p r 0 ++ forEach (min fetched nTiles) tile ++
    if nTiles ≤ fetched then []
    else
      (if fetched = 0 then []
        else
          forEach nTok fun t =>
            (List.range' (fetched * r) (p.out - fetched * r)).flatMap fun j =>
              [floats .scratch (p.yAt + (t * p.out + j)) 1]) ++
      ddrEvents nTok block p

/-- `hx_matmul_q8_vrmpy_dispatch_ffn`: in tiles when there is a VTCM and a worker. -/
def ffnEvents (c : Cfg) (nTok L : Nat) (k : Kind) (p : Places) (tiles : Option Nat) :
    List Event :=
  let block := c.weightOff L k.num
  match tiles with
  | none => ddrEvents nTok block p
  | some fetched =>
      let sums := 4 * (L * c.ffnSumStride + c.ffnSumOff k)
      [.touch .ffnReady (L * 3 + k.ffnNum) 1] ++ sumEvents block p .rsumFfn sums ++
      tiledEvents c nTok block sums p fetched

/-! ### A layer -/

/-- The areas of the scratch buffer, in floats. -/
structure Carve where
  nx : Nat
  q : Nat
  k : Nat
  v : Nat
  ao : Nat
  ap : Nat
  g : Nat
  up : Nat
  dn : Nat
  sc : Nat

/-- The pointers of `sp_hex_forward`; `resid` is at the start. -/
def Cfg.carve (c : Cfg) (nTok : Nat) : Carve :=
  let nx := nTok * c.nEmbd
  let q := nx + nTok * c.nEmbd
  let k := q + nTok * c.qd
  let v := k + nTok * c.kvd
  let ao := v + nTok * c.kvd
  let ap := ao + nTok * c.qd
  let g := ap + nTok * c.nEmbd
  let up := g + nTok * c.nFf
  let dn := up + nTok * c.nFf
  let sc := dn + nTok * c.nEmbd
  { nx, q, k, v, ao, ap, g, up, dn, sc }

/-- `hx_vtcm_ensure_layer` on a layer that is not there yet. -/
def loadEvents (c : Cfg) (L : Nat) : List Event :=
  let sums := fun k : Kind =>
    sumEvents (c.weightOff L k.num) ⟨c.cols k, c.rows k, 0, 0⟩ .rsumAttn
      (4 * (L * c.attnSumStride + c.attnSumOff k))
  [.touch .blob (c.weightOff L Kind.wq.num) c.attnSetBytes, .touch .vtcm 0 c.attnSetBytes] ++
  sums .wq ++ sums .wk ++ sums .wv ++ sums .wo

/-- `hx_rmsnorm` of every token, by a norm vector of the blob. -/
def normEvents (nTok norm n from0 to0 : Nat) : List Event :=
  forEach nTok fun t =>
    [floats .scratch (from0 + t * n) n, .touch .blob norm (4 * n), floats .scratch (to0 + t * n) n]

/-- The per-head norm and rotation of `heads` heads. -/
def headEvents (nTok norm heads headDim at0 : Nat) : List Event :=
  forEach nTok fun t =>
    forEach heads fun h =>
      [floats .scratch (at0 + (t * (heads * headDim) + h * headDim)) headDim,
        .touch .blob norm (4 * headDim)]

/-- The first position a query looks at. -/
def Cfg.firstPos (c : Cfg) (L pos : Nat) : Nat :=
  let win : Int := if L % 6 = 5 then -1 else c.slidingWindow
  if 0 ≤ win ∧ 0 < (pos : Int) - win + 1 then ((pos : Int) - win + 1).toNat else 0

/-- `hx_attn_head` of every query head. -/
def attentionEvents (c : Cfg) (nTok L : Nat) : List Event :=
  let w := c.carve nTok
  let group := c.nHead / c.nHeadKv
  forEach nTok fun t =>
    forEach c.nHead fun h =>
      let kvh := h / group
      let head := t * c.qd + h * c.headDim
      [.divide group, floats .scratch (w.q + head) c.headDim] ++
      (List.range' (c.firstPos L t) (t + 1 - c.firstPos L t)).flatMap (fun s =>
        [floats .scratch (w.k + (s * c.kvd + kvh * c.headDim)) c.headDim,
          floats .scratch (w.sc + s) 1,
          floats .scratch (w.v + (s * c.kvd + kvh * c.headDim)) c.headDim]) ++
      [floats .scratch (w.ao + head) c.headDim]

/-- `for (i < n) a[i] op b[i]` -/
def pairEvents (a b n : Nat) : List Event :=
  forEach n fun i => [floats .scratch (a + i) 1, floats .scratch (b + i) 1]

/-- What the surroundings and the caches decide in a layer: whether the VTCM is there,
whether it needs the layer, and how the tiles of each tensor go. -/
structure BoundsEnv where
  vtcm : Bool
  load : Bool
  tiles : Kind → Option Nat

/-- The first half of the loop body of `sp_hex_forward`. -/
def attnHalfEvents (c : Cfg) (nTok L : Nat) (env : BoundsEnv) : List Event :=
  let w := c.carve nTok
  let off := fun k : Kind => c.weightOff L k.num
  let matmul := fun k xAt yAt => attnEvents c nTok L k ⟨c.cols k, c.rows k, xAt, yAt⟩ env.vtcm
  (if env.vtcm then [.touch .attnReady L 1] else []) ++
  (if env.vtcm ∧ env.load then loadEvents c L else []) ++
  normEvents nTok (off .attnNorm) c.nEmbd 0 w.nx ++
  matmul .wq w.nx w.q ++ matmul .wk w.nx w.k ++ matmul .wv w.nx w.v ++
  headEvents nTok (off .qNorm) c.nHead c.headDim w.q ++
  headEvents nTok (off .kNorm) c.nHeadKv c.headDim w.k ++
  attentionEvents c nTok L ++
  matmul .wo w.ao w.ap ++
  normEvents nTok (off .postAttn) c.nEmbd w.ap w.nx ++
  pairEvents 0 w.nx (nTok * c.nEmbd)

/-- The second half. -/
def ffnHalfEvents (c : Cfg) (nTok L : Nat) (env : BoundsEnv) : List Event :=
  let w := c.carve nTok
  let off := fun k : Kind => c.weightOff L k.num
  let matmul := fun k xAt yAt => ffnEvents c nTok L k ⟨c.cols k, c.rows k, xAt, yAt⟩ (env.tiles k)
  normEvents nTok (off .ffnNorm) c.nEmbd 0 w.nx ++
  matmul .wgate w.nx w.g ++ matmul .wup w.nx w.up ++
  pairEvents w.g w.up (nTok * c.nFf) ++
  matmul .wdown w.g w.dn ++
  normEvents nTok (off .postFfw) c.nEmbd w.dn w.nx ++
  pairEvents 0 w.nx (nTok * c.nEmbd)

def layerEvents (c : Cfg) (nTok L : Nat) (env : BoundsEnv) : List Event :=
  attnHalfEvents c nTok L env ++ ffnHalfEvents c nTok L env

/-- `sp_hex_forward` as `gemma3_forward_hexagon` calls it. -/
def forwardEvents (c : Cfg) (nTok : Nat) (env : Nat → BoundsEnv) : List Event :=
  [.int c.scratchWidth, .divide c.nHeadKv] ++
  (forEach (nTok * c.nEmbd) fun i => [floats .x i 1, floats .scratch i 1]) ++
  (forEach c.nLayers fun L => layerEvents c nTok L (env L)) ++
  forEach nTok fun t =>
    [floats .scratch (t * c.nEmbd) c.nEmbd,
      .touch .blob (c.weightOff c.nLayers 0) (4 * c.nEmbd),
      floats .hidden (t * c.nEmbd) c.nEmbd]

/-- The host gets as far as the call: every buffer was allocated. -/
def Cfg.Accepted (c : Cfg) (nTok : Nat) : Prop :=
  0 < c.bytesOf nTok .x ∧ 0 < c.bytesOf nTok .scratch ∧ 0 < c.bytesOf nTok .blob

end ShannonPrime.Hexagon
