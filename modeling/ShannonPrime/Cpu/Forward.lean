import ShannonPrime.Lib.Buffer
import Mathlib.Data.Nat.Cast.Basic
import Mathlib.Algebra.Order.Group.Nat

/-!
The two CPU forwards of the Qwen3 path over flat memory: `qwen3_forward`, which runs a
whole sequence with its own K/V buffers, and `qwen3_mtp_forward`, which appends a batch
to a K/V cache of `cap` rows a layer. The arithmetic of one row is a parameter; the
addresses, the loops and what is read where are the source's. Both overlay gates are off.
-/

namespace ShannonPrime.Cpu

open Buffer

structure Config where
  nEmbd : Nat
  nFf : Nat
  headDim : Nat
  nHead : Nat
  nHeadKv : Nat
  nVocab : Nat
  nLayers : Nat
  kv_pos : 0 < nHeadKv
  /-- Grouped-query attention: the query heads are split evenly over the K/V heads. -/
  heads_split : nHeadKv ∣ nHead

namespace Config

variable (c : Config)

def qd : Nat := c.nHead * c.headDim
def kvd : Nat := c.nHeadKv * c.headDim
def group : Nat := c.nHead / c.nHeadKv

theorem kvHead_lt {h : Nat} (hh : h < c.nHead) : h / c.group < c.nHeadKv := by
  have hsplit : c.nHeadKv * c.group = c.nHead := Nat.mul_div_cancel' c.heads_split
  have hgroup : 0 < c.group := by
    apply Nat.pos_of_ne_zero
    intro hzero
    rw [hzero] at hsplit
    omega
  rw [Nat.div_lt_iff_lt_mul hgroup, hsplit]
  exact hh

end Config

/-- A bound model: its dimensions and what each per-row primitive computes with the
weights of a layer. -/
structure Model (F : Type*) extends Config where
  embedRow : Int → Option (Nat → F)
  attnNorm : Nat → List F → Nat → F
  attnQ : Nat → List F → Nat → F
  attnK : Nat → List F → Nat → F
  attnV : Nat → List F → Nat → F
  attnQNorm : Nat → List F → Nat → F
  attnKNorm : Nat → List F → Nat → F
  /-- `rope_neox` at a position. -/
  rope : Nat → List F → Nat → F
  /-- `kernels_attn_head`: a query head, the K rows and the V rows it attends. -/
  attnHead : List F → List (List F) → List (List F) → Nat → F
  attnOutput : Nat → List F → Nat → F
  add : F → F → F
  ffnNorm : Nat → List F → Nat → F
  ffnGate : Nat → List F → Nat → F
  ffnUp : Nat → List F → Nat → F
  siluMul : F → F → F
  ffnDown : Nat → List F → Nat → F
  outputNorm : List F → Nat → F
  output : List F → Nat → F

variable {F : Type*}

/-- The buffers both forwards allocate. `malloc` leaves them uninitialised, so a call
starts from arbitrary contents. -/
structure Work (F : Type*) where
  x : Nat → F
  nx : Nat → F
  q : Nat → F
  ao : Nat → F
  ap : Nat → F
  g : Nat → F
  up : Nat → F
  dn : Nat → F

/-- `rmsnorm` of `n` rows of width `w`. -/
def normRows (w n : Nat) (norm : List F → Nat → F) (x nx : Nat → F) : Nat → F :=
  forBlocks 0 w n (fun t _ => norm (slice x (t * w) w)) nx

/-- `matmul` of `n` rows of width `inn` to rows of width `out`, written from `off` on. -/
def matmul (row : List F → Nat → F) (x : Nat → F) (n inn out : Nat) (y : Nat → F)
    (off : Nat) : Nat → F :=
  forBlocks off out n (fun t _ => row (slice x (t * inn) inn)) y

/-- The loop over rows `first ..` and their heads, each head rewritten in place. -/
def forHeads (off first n heads hd : Nat) (f : Nat → Nat → List F → Nat → F)
    (b : Nat → F) : Nat → F :=
  (List.range n).foldl (fun b t =>
    (List.range heads).foldl (fun b h =>
      store b (off + (first + t) * (heads * hd) + h * hd) hd
        (f (first + t) h (slice b (off + (first + t) * (heads * hd) + h * hd) hd))) b) b

/-- The rows of one K/V head at positions `0 .. pos`. -/
def headRows (b : Nat → F) (off kvd hd kvh pos : Nat) : List (List F) :=
  (List.range (pos + 1)).map fun s => slice b (off + s * kvd + kvh * hd) hd

namespace Model

variable (m : Model F)

def embedRows : List Int → Nat → (Nat → F) → Option (Nat → F)
  | [], _, x => some x
  | tok :: rest, t, x =>
      (m.embedRow tok).bind fun e => embedRows rest (t + 1) (store x (t * m.nEmbd) m.nEmbd e)

/-- What follows the attention of layer `L` in both forwards: the output projection, the
residual and the SwiGLU block. -/
def layerTail (L n : Nat) (w : Work F) : Work F :=
  let ap := matmul (m.attnOutput L) w.ao n m.qd m.nEmbd w.ap 0
  let x := forCells (n * m.nEmbd) (fun i a => m.add a (ap i)) w.x
  let nx := normRows m.nEmbd n (m.ffnNorm L) x w.nx
  let g := matmul (m.ffnGate L) nx n m.nEmbd m.nFf w.g 0
  let up := matmul (m.ffnUp L) nx n m.nEmbd m.nFf w.up 0
  let g := forCells (n * m.nFf) (fun i a => m.siluMul a (up i)) g
  let dn := matmul (m.ffnDown L) g n m.nFf m.nEmbd w.dn 0
  let x := forCells (n * m.nEmbd) (fun i a => m.add a (dn i)) x
  { w with x, nx, ap, g, up, dn }

/-- The final norm and the LM head. -/
def lmHead (n : Nat) (w : Work F) (logits : Nat → F) : Nat → F :=
  let nx := normRows m.nEmbd n m.outputNorm w.x w.nx
  matmul m.output nx n m.nEmbd m.nVocab logits 0

/-- One head of the attention of one token: `qh` is the head's query, K and V lie in
rows from `off` on. -/
def attnAt (k v : Nat → F) (off pos h : Nat) (qh : List F) : Nat → F :=
  m.attnHead qh (headRows k off m.kvd m.headDim (h / m.group) pos)
    (headRows v off m.kvd m.headDim (h / m.group) pos)

/-- Layer `L` of `qwen3_forward_ex` over `n` tokens. The norm and rope loop visits the q
heads and then the k heads of each token; the two buffers are apart, so it is two loops
here. -/
def forwardLayer (n L : Nat) (s : Work F × (Nat → F) × (Nat → F)) :
    Work F × (Nat → F) × (Nat → F) :=
  let (w, k, v) := s
  let nx := normRows m.nEmbd n (m.attnNorm L) w.x w.nx
  let q := matmul (m.attnQ L) nx n m.nEmbd m.qd w.q 0
  let k := matmul (m.attnK L) nx n m.nEmbd m.kvd k 0
  let v := matmul (m.attnV L) nx n m.nEmbd m.kvd v 0
  let q := forHeads 0 0 n m.nHead m.headDim
    (fun t _ qh => m.rope t (vec m.headDim (m.attnQNorm L qh))) q
  let k := forHeads 0 0 n m.nHeadKv m.headDim
    (fun t _ kh => m.rope t (vec m.headDim (m.attnKNorm L kh))) k
  let ao := forHeads 0 0 n m.nHead m.headDim
    (fun t h _ => m.attnAt k v 0 t h (slice q (t * m.qd + h * m.headDim) m.headDim)) w.ao
  (m.layerTail L n { w with nx, q, ao }, k, v)

/-- `qwen3_forward`: `none` is a nonzero return, the value is the logits buffer. -/
def forward (tokens : List Int) (w : Work F) (k v logits : Nat → F) : Option (Nat → F) :=
  let n := tokens.length
  (m.embedRows tokens 0 w.x).map fun x =>
    let s := (List.range m.nLayers).foldl (fun s L => m.forwardLayer n L s) ({ w with x }, k, v)
    m.lmHead n s.1 logits

/-- The query rows of a batch from position `basePos` on. -/
def mtpQueries (L basePos nb : Nat) (nx q : Nat → F) : Nat → F :=
  forHeads 0 0 nb m.nHead m.headDim
    (fun t _ qh => m.rope (basePos + t) (vec m.headDim (m.attnQNorm L qh)))
    (matmul (m.attnQ L) nx nb m.nEmbd m.qd q 0)

/-- The K rows of a batch, written straight into the rows of the layer's cache `off` and
finished in place. -/
def mtpKeys (L off basePos nb : Nat) (nx kc : Nat → F) : Nat → F :=
  forHeads off basePos nb m.nHeadKv m.headDim
    (fun pos _ kh => m.rope pos (vec m.headDim (m.attnKNorm L kh)))
    (matmul (m.attnK L) nx nb m.nEmbd m.kvd kc (off + basePos * m.kvd))

/-- The attention of a batch, one turn of the loop for each pair of a token and a head. -/
def mtpAttention (off basePos nb : Nat) (q kc vc ao : Nat → F) : Nat → F :=
  (List.range (nb * m.nHead)).foldl (fun ao th =>
    let t := th / m.nHead
    let h := th % m.nHead
    store ao (t * m.qd + h * m.headDim) m.headDim
      (m.attnAt kc vc off (basePos + t) h (slice q (t * m.qd + h * m.headDim) m.headDim))) ao

/-- Layer `L` of `qwen3_mtp_forward`: a batch of `nb` tokens from position `basePos` on. -/
def mtpLayer (cap basePos nb L : Nat) (s : Work F × (Nat → F) × (Nat → F)) :
    Work F × (Nat → F) × (Nat → F) :=
  let (w, kc, vc) := s
  let off := L * cap * m.kvd
  let nx := normRows m.nEmbd nb (m.attnNorm L) w.x w.nx
  let q := m.mtpQueries L basePos nb nx w.q
  let kc := m.mtpKeys L off basePos nb nx kc
  let vc := matmul (m.attnV L) nx nb m.nEmbd m.kvd vc (off + basePos * m.kvd)
  let ao := m.mtpAttention off basePos nb q kc vc w.ao
  (m.layerTail L nb { w with nx, q, ao }, kc, vc)

/-- `qwen3_mtp_forward`: the caches after the call and the logits buffer, `none` for a
nonzero return. -/
def mtpForward (batch : List Int) (basePos : Int) (w : Work F) (kc vc : Nat → F) (cap : Int)
    (logits : Nat → F) : Option ((Nat → F) × (Nat → F) × (Nat → F)) :=
  let nb := batch.length
  if nb < 1 ∨ basePos < 0 ∨ basePos + nb > cap then none
  else
    (m.embedRows batch 0 w.x).map fun x =>
      let s := (List.range m.nLayers).foldl
        (fun s L => m.mtpLayer cap.toNat basePos.toNat nb L s) ({ w with x }, kc, vc)
      (s.2.1, s.2.2, m.lmHead nb s.1 logits)

end Model

end ShannonPrime.Cpu
