import Mathlib.Data.Nat.Init
import Mathlib.Logic.Function.Basic
import Mathlib.Algebra.Ring.Int.Defs

/-!
The DiffusionGemma forward: one pass over a prompt followed by a canvas. Buffers are
functions from the row to its contents, and what a kernel does to one row is a primitive
of the model. What is modelled is how rows meet: the region masks of the attention, the
shared K/V, the expert-major batches and the region scale.

A pass may compute only the rows from a base on; what the lower rows of a buffer then
hold is arbitrary. The K/V of the prompt may come from a cache.
-/

namespace ShannonPrime.Diffusion

abbrev Rows (R : Type) := Nat → R

structure Config where
  nLayers : Nat
  nVocab : Nat
  /-- `dg_canvas_length` -/
  canvasLength : Nat
  swaPeriod : Nat
  kvFromStart : Nat
  slidingWindow : Nat
  nHead : Nat
  nHeadSwa : Nat
  nExpert : Nat
  hasV : Nat → Bool

namespace Config

variable (c : Config)

def period (c : Config) : Nat := if c.swaPeriod = 0 then 6 else c.swaPeriod

/-- The layers below this one own their K/V. -/
def kvfs (c : Config) : Nat := if c.kvFromStart = 0 then c.nLayers else c.kvFromStart

def global (c : Config) (L : Nat) : Bool := L % c.period == c.period - 1

def heads (c : Config) (L : Nat) : Nat := if c.global L then c.nHead else c.nHeadSwa

/-- The owner whose K/V a sharing layer reads. -/
def sharedFrom (c : Config) (L : Nat) : Int := c.kvfs - if c.global L then 1 else 2

/-- The number of prompt rows. -/
def promptRows (c : Config) (nTok : Nat) : Nat :=
  if 0 < c.canvasLength ∧ c.canvasLength < nTok then nTok - c.canvasLength else 0

end Config

/-- The scalar operations of the attention kernel. -/
structure Scalars (F : Type) where
  /-- -3.4e38 and -3.0e38 -/
  mask : F
  cut : F
  zero : F
  lt : F → F → Bool
  le : F → F → Bool
  plus : F → F → F
  /-- `expf(s - m)` -/
  expSub : F → F → F
  mask_le_cut : le mask cut = true

/-- What the kernels do to one row. A number is the layer, a second one the head or the
expert. -/
structure Primitives (R H F : Type) extends Scalars F where
  embed : Int → R
  add : R → R → R
  normNoscale : R → R
  scProbs : F → R → R
  scSoft : R → R
  scNorm : R → R
  scGate : R → R
  scUp : R → R
  scDown : R → R
  geluMul : R → R → R
  attnNorm : Nat → R → R
  qProj : Nat → R → R
  qNorm : Nat → R → R
  kProj : Nat → R → R
  kNorm : Nat → R → R
  vProj : Nat → R → R
  vNorm : Nat → R → R
  /-- The layer and the position. -/
  rope : Nat → Nat → R → R
  dot : Nat → Nat → R → R → F
  headZero : H
  /-- Adds a weighted value row to a head. -/
  mac : Nat → Nat → H → F → R → H
  headDiv : H → F → H
  join : List H → R
  oProj : Nat → R → R
  postAttnNorm : Nat → R → R
  ffnNorm : Nat → R → R
  ffnGate : Nat → R → R
  ffnUp : Nat → R → R
  ffnDown : Nat → R → R
  postFfwNorm1 : Nat → R → R
  preFfwNorm2 : Nat → R → R
  routerPrep : Nat → R → R
  routerLogits : Nat → R → R
  /-- Softmax, the best experts and their renormalised weights. -/
  topExperts : Nat → R → List (Nat × F)
  gateUp : Nat → Nat → R → R
  geglu : R → R
  expertDown : Nat → Nat → R → R
  moeZero : R
  axpy : R → F → R → R
  postFfwNorm2 : Nat → R → R
  postFfwNorm : Nat → R → R
  encScale : Nat → R → R
  decScale : Nat → R → R
  outputNorm : R → R
  head : R → R
  softcap : R → R

structure Model (R H F : Type) extends Config, Primitives R H F

/-- The logits of the previous step's canvas, and the inverse temperature. -/
structure PrevLogits (R F : Type) where
  rows : Rows R
  scTempInv : F

inductive Buf where
  | q | k | v | ao | ap | gate | up | mlp
  deriving DecidableEq

/-- What a pass computes: the rows from `base` on, with the K/V of the prompt from a
cache if there is one. -/
structure Pass (R : Type) where
  promptRows : Nat
  nTok : Nat
  base : Nat
  /-- What the rows that are not computed hold. -/
  leftover : Buf → Nat → Rows R
  prefixKV : Option (Nat → Rows R × Rows R)

/-- The rows from the base on are written. -/
def rowsFrom {R : Type} (base : Nat) (old new : Rows R) : Rows R :=
  fun t => if t < base then old t else new t

structure Residual (R : Type) where
  x : Rows R
  /-- `Kst` and `Vst` -/
  kv : Nat → Option (Rows R × Rows R)

/-! ### The region mask -/

/-- The query of row `t` may look at the key of row `s`. -/
def allows (P nSwa : Nat) (isSwa : Bool) (t s : Nat) : Bool :=
  if P ≤ t then !isSwa || P ≤ s || (P : Int) - nSwa + 1 ≤ s
  else s < P && s ≤ t && !(isSwa && (s : Int) ≤ (t : Int) - nSwa)

/-! ### The batches of the experts -/

/-- A token, an expert it is routed to and the weight. -/
structure Entry (F : Type) where
  tok : Nat
  expert : Nat
  weight : F

/-- `et_cnt` -/
def count {F : Type} (entries : List (Entry F)) (e : Nat) : Nat :=
  entries.countP fun en => en.expert == e

/-- `et_off` -/
def offset {F : Type} (entries : List (Entry F)) : Nat → Nat
  | 0 => 0
  | e + 1 => offset entries e + count entries e

/-- `et_tok` and `et_w`, and the places taken so far. -/
structure Tables (F : Type) where
  cur : Nat → Nat
  slot : Nat → Option (Nat × F)

def Tables.fill {F : Type} (off : Nat → Nat) (tb : Tables F) (en : Entry F) : Tables F where
  cur := Function.update tb.cur en.expert (tb.cur en.expert + 1)
  slot := Function.update tb.slot (off en.expert + tb.cur en.expert) (some (en.tok, en.weight))

def Tables.build {F : Type} (entries : List (Entry F)) : Tables F :=
  entries.foldl (Tables.fill (offset entries)) ⟨fun _ => 0, fun _ => none⟩

namespace Model

variable {R H F : Type} (m : Model R H F)

/-! ### Attention -/

def score (m : Model R H F) (L h P : Nat) (q : R) (K : Rows R) (t s : Nat) : F :=
  if allows P m.slidingWindow (!m.global L) t s then m.dot L h q (K s) else m.mask

def rowMax (m : Model R H F) (sc : Nat → F) (n : Nat) : F :=
  (List.range n).foldl (fun mx s => if m.lt mx (sc s) then sc s else mx) m.mask

def weight (m : Model R H F) (mx s : F) : F := if m.le s m.cut then m.zero else m.expSub s mx

def rowSum (m : Model R H F) (sc : Nat → F) (mx : F) (n : Nat) : F :=
  (List.range n).foldl (fun sum s => if m.le (sc s) m.cut then sum
    else m.plus sum (m.expSub (sc s) mx)) m.zero

/-- One block of the attention kernel: a masked key has weight zero, and its value is
added with it. -/
def headOut (m : Model R H F) (L h P n : Nat) (q : R) (K V : Rows R) (t : Nat) : H :=
  let sc := m.score L h P q K t
  let mx := m.rowMax sc n
  m.headDiv
    ((List.range n).foldl (fun acc s => m.mac L h acc (m.weight mx (sc s)) (V s)) m.headZero)
    (m.rowSum sc mx n)

def attend (m : Model R H F) (L P n : Nat) (q : R) (K V : Rows R) (t : Nat) : R :=
  m.join ((List.range (m.heads L)).map fun h => m.headOut L h P n q K V t)

/-! ### The mixture of experts -/

def route (m : Model R H F) (L : Nat) (x : R) : List (Nat × F) :=
  m.topExperts L (m.routerLogits L (m.routerPrep L x))

/-- The routed tokens in scan order. -/
def entries (m : Model R H F) (L base n : Nat) (x : Rows R) : List (Entry F) :=
  (List.range' base (n - base)).flatMap fun t =>
    (m.route L (x t)).map fun p => ⟨t, p.1, p.2⟩

/-- An expert on one gathered column. -/
def expertRow (m : Model R H F) (L e : Nat) (x : R) : R :=
  m.expertDown L e (m.geglu (m.gateUp L e x))

/-- The batch of one expert: its tokens are gathered, and each result is added to the row
of its token. -/
def expertBatch (m : Model R H F) (L : Nat) (entries : List (Entry F)) (hidden : Rows R)
    (moe : Rows R) (e : Nat) : Rows R :=
  (List.range (count entries e)).foldl
    (fun moe j =>
      match (Tables.build entries).slot (offset entries e + j) with
      | some (t, w) =>
          Function.update moe t (m.axpy (moe t) w (m.expertRow L e (hidden t)))
      | none => moe)
    moe

def moe (m : Model R H F) (L base n : Nat) (x hidden : Rows R) : Rows R :=
  (List.range m.nExpert).foldl (m.expertBatch L (m.entries L base n x) hidden) fun _ => m.moeZero

/-! ### The layers -/

variable (pass : Pass R)

def queries (m : Model R H F) (pass : Pass R) (L : Nat) (nx : Rows R) : Rows R :=
  fun t => m.rope L t (m.qNorm L
    (rowsFrom pass.base (pass.leftover .q L) (fun t => m.qProj L (nx t)) t))

/-- The K/V an owner projects; a layer without V takes the raw projection of K. -/
def freshKV (m : Model R H F) (pass : Pass R) (L : Nat) (nx : Rows R) : Rows R × Rows R :=
  let k := rowsFrom pass.base (pass.leftover .k L) fun t => m.kProj L (nx t)
  let v :=
    if m.hasV L then rowsFrom pass.base (pass.leftover .v L) fun t => m.vProj L (nx t) else k
  (fun t => m.rope L t (m.kNorm L (k t)), fun t => m.vNorm L (v t))

/-- The prompt rows of the cache, if there is one, before the canvas rows. -/
def ownKV (m : Model R H F) (pass : Pass R) (L : Nat) (x : Rows R) : Rows R × Rows R :=
  let fresh := m.freshKV pass L fun t => m.attnNorm L (x t)
  match pass.prefixKV with
  | none => fresh
  | some cached =>
      (fun s => if s < pass.promptRows then (cached L).1 s else fresh.1 s,
        fun s => if s < pass.promptRows then (cached L).2 s else fresh.2 s)

/-- The K/V a layer attends to; none is a sharing layer without an owner. -/
def useKV (m : Model R H F) (pass : Pass R) (L : Nat) (st : Residual R) :
    Option (Rows R × Rows R) :=
  if L < m.kvfs then some (m.ownKV pass L st.x)
  else
    match m.sharedFrom L with
    | .ofNat src => st.kv src
    | .negSucc _ => none

/-- From the attention's output to the next layer's input. -/
def layerTail (m : Model R H F) (pass : Pass R) (L : Nat) (x ao : Rows R) : Rows R :=
  let ap := rowsFrom pass.base (pass.leftover .ap L) fun t => m.oProj L (ao t)
  let x1 : Rows R := fun t => m.add (x t) (m.postAttnNorm L (ap t))
  let gate := rowsFrom pass.base (pass.leftover .gate L) fun t =>
    m.ffnGate L (m.ffnNorm L (x1 t))
  let up := rowsFrom pass.base (pass.leftover .up L) fun t => m.ffnUp L (m.ffnNorm L (x1 t))
  let mlp := rowsFrom pass.base (pass.leftover .mlp L) fun t =>
    m.ffnDown L (m.geluMul (gate t) (up t))
  let moe := m.moe L pass.base pass.nTok x1 fun t => m.preFfwNorm2 L (x1 t)
  fun t =>
    let ffn := m.add (m.postFfwNorm1 L (mlp t)) (m.postFfwNorm2 L (moe t))
    let y := m.add (m.postFfwNorm L ffn) (x1 t)
    if t < pass.promptRows then m.encScale L y else m.decScale L y

/-- A layer that attends to the given K/V. -/
def layerOn (m : Model R H F) (pass : Pass R) (L : Nat) (st : Residual R)
    (kv : Rows R × Rows R) : Residual R :=
  let q := m.queries pass L fun t => m.attnNorm L (st.x t)
  let ao := rowsFrom pass.base (pass.leftover .ao L) fun t =>
    m.attend L pass.promptRows pass.nTok (q t) kv.1 kv.2 t
  { x := m.layerTail pass L st.x ao
    kv := if L < m.kvfs then Function.update st.kv L (some kv) else st.kv }

def layer (m : Model R H F) (pass : Pass R) (L : Nat) (st : Residual R) : Option (Residual R) :=
  (m.useKV pass L st).map (m.layerOn pass L st)

/-- The first layers. -/
def layers (m : Model R H F) (pass : Pass R) (st : Residual R) : Nat → Option (Residual R)
  | 0 => some st
  | L + 1 => (m.layers pass st L).bind (m.layer pass L)

/-! ### The whole forward -/

/-- `dg_self_cond` on one canvas row. -/
def scSignal (m : Model R H F) (scTempInv : F) (prev : R) : R :=
  let normed := m.scNorm (m.scSoft (m.scProbs scTempInv prev))
  m.scDown (m.geluMul (m.scGate normed) (m.scUp normed))

def embeddings (m : Model R H F) (P : Nat) (tokens : List Int) (prev : Option (PrevLogits R F)) :
    Rows R := fun t =>
  let x := m.embed (tokens.getD t 0)
  if t < P then x
  else
    m.normNoscale
      (match prev with
      | none => x
      | some prev => m.add x (m.scSignal prev.scTempInv (prev.rows (t - P))))

/-- The arguments are taken: there are tokens, and all are in the vocabulary. -/
def accepts (m : Model R H F) (tokens : List Int) : Bool :=
  !tokens.isEmpty && tokens.all fun t => 0 ≤ t && t < m.nVocab

def start (m : Model R H F) (tokens : List Int) (prev : Option (PrevLogits R F)) : Residual R :=
  ⟨m.embeddings (m.promptRows tokens.length) tokens prev, fun _ => none⟩

/-- The pass that computes every row. -/
def fullPass (m : Model R H F) (leftover : Buf → Nat → Rows R) (tokens : List Int) : Pass R where
  promptRows := m.promptRows tokens.length
  nTok := tokens.length
  base := 0
  leftover := leftover
  prefixKV := none

/-- The pass that computes the canvas rows behind a cached prompt. -/
def fastPass (m : Model R H F) (leftover : Buf → Nat → Rows R)
    (cached : Nat → Rows R × Rows R) (tokens : List Int) : Pass R where
  promptRows := m.promptRows tokens.length
  nTok := tokens.length
  base := m.promptRows tokens.length
  leftover := leftover
  prefixKV := some cached

def logits (m : Model R H F) (st : Residual R) : Rows R :=
  fun t => m.softcap (m.head (m.outputNorm (st.x t)))

/-- The logits of a forward in which nothing fails. -/
def forward (m : Model R H F) (pass : Pass R) (tokens : List Int)
    (prev : Option (PrevLogits R F)) : Option (Rows R) :=
  if m.accepts tokens then (m.layers pass (m.start tokens prev) m.nLayers).map m.logits else none

end Model

end ShannonPrime.Diffusion
