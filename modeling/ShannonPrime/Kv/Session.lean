import Mathlib.Data.List.Range
import ShannonPrime.Lib.UndoLog

/-!
The resident gemma4 KV cache. `Session` is the part of `sp_g4_kv` the decode
path reads and writes; K/V rows, residuals and tokens are opaque, and the
arithmetic that produces them is the parameter `Kernels`. A verb checks its
arguments and queues operations; `runOps` executes them and stops at the first
one that fails. CPU-tail offload, capture taps, steering and the draft model
are not modelled.
-/

namespace ShannonPrime.Kv

/-- What one device step computes. The flag is the byte-exact mode. -/
structure Kernels (T X R : Type*) where
  embed : T → X
  ple : Bool → T → X → X
  kvRow : Bool → Nat → Nat → X → R
  layer : Bool → Nat → Nat → X → List R → X
  argmax : Bool → X → T
  batchRow : Bool → List T → Nat → Nat → R
  attenuate : Nat → R → R
  zero : R

/-- The constants of an open session. The layer that lends its cache to a
sharer has the sharer's attention type: the source relies on it ("type matches
by construction"), so a session without it is not representable. -/
structure Geometry where
  nl : Nat
  period : Nat
  kvfs : Nat
  sw : Nat
  pmax : Nat
  ringW : Nat
  jmax : Nat
  jmax_pos : 0 < jmax
  ringW_le : ringW ≤ pmax
  shared_type : ∀ l, kvfs ≤ l → l < nl →
    (if l % period = period - 1 then 1 else 2) ≤ kvfs ∧
    ((kvfs - if l % period = period - 1 then 1 else 2) % period = period - 1 ↔
      l % period = period - 1)

namespace Geometry

variable (g : Geometry)

def isGlobal (l : Nat) : Bool := l % g.period == g.period - 1

/-- Layers below `kvfs` own a cache, the others read an owner's. -/
def isOwner (l : Nat) : Bool := decide (l < g.kvfs ∧ l < g.nl)

def source (l : Nat) : Nat :=
  if l < g.kvfs then l else g.kvfs - if g.isGlobal l then 1 else 2

/-- Only sliding-window layers are ringed; globals keep the full cache. -/
def isRinged (l : Nat) : Bool := decide (0 < g.ringW) && !g.isGlobal l

def slot (l p : Nat) : Nat := if g.isRinged l then p % g.ringW else p

/-- The positions `[ctx - win, ctx)` the attention reads, `ctx = dpos + 1`. -/
def window (l dpos : Nat) : List Nat :=
  let s0 := if g.isGlobal l then 0 else dpos + 1 - g.sw
  List.range' s0 (dpos + 1 - s0)

end Geometry

/-- The mutable part of `sp_g4_kv`. `kv` and `jkv` are indexed by layer first,
then by slot and by journal entry. `jpos` is a ghost: the position for which
the entry was last written since the last commit, reset or batched fill. -/
structure Session (T X R : Type*) where
  dpos : Nat
  commitPos : Nat
  jcur : Nat
  dseq : Nat → T
  kv : Nat → Nat → R
  jkv : Nat → Nat → R
  jpos : Nat → Nat → Option Nat
  inj : Option X
  bxOn : Bool

/-- How the device can fail in a step: before layer `n` stores anything (`n`
the number of layers: at the head), or at the stream sync after the step. -/
inductive Fault where
  | layer (n : Nat) (text : String)
  | sync (text : String)
  deriving DecidableEq, Repr

namespace Fault

def atLayer (l : Nat) : Option Fault → Option String
  | some (.layer n text) => if n = l then some text else none
  | _ => none

def atSync : Option Fault → Option String
  | some (.sync text) => some text
  | _ => none

end Fault

/-- What a call leaves: the error text when it returned -1, the session, and
the rows each attention read, in order. -/
structure Outcome (T X R : Type*) where
  err : Option String
  session : Session T X R
  reads : List (List R)

variable {T X R : Type*}

namespace Session

variable (g : Geometry) (s : Session T X R)

/-- The journal of the ring is full. -/
def slides : Prop := 0 < g.ringW ∧ g.jmax ≤ s.dpos - s.commitPos

instance : Decidable (s.slides g) := inferInstanceAs (Decidable (_ ∧ _))

/-- The journal slide at the head of a step: the span is cut to `jmax - 1`.
The entries stay where they are. -/
def slide : Session T X R :=
  if s.slides g then
    { s with
      commitPos := s.dpos - (g.jmax - 1)
      jcur := min s.jcur (g.jmax - 1) }
  else s

/-- Store new rows at the live position. A ringed owner first saves the row it
overwrites as journal entry `dpos - commitPos`. -/
def record (row : Nat → Option R) : Session T X R :=
  { s with
    jkv := fun l j =>
      if g.isRinged l ∧ (row l).isSome ∧ j = s.dpos - s.commitPos
      then s.kv l (g.slot l s.dpos) else s.jkv l j
    jpos := fun l j =>
      if g.isRinged l ∧ (row l).isSome ∧ j = s.dpos - s.commitPos
      then some s.dpos else s.jpos l j
    kv := fun l q =>
      if q = g.slot l s.dpos then (row l).getD (s.kv l q) else s.kv l q }

/-- Drop the armed residual. -/
def disarm : Session T X R := { s with inj := none }

def withSeq (dseq : Nat → T) : Session T X R := { s with dseq := dseq }

def advance : Session T X R := { s with dpos := s.dpos + 1 }

/-- The rows layer `l` attends to at the live position. -/
def attends (l : Nat) : List R :=
  (g.window l s.dpos).map fun p => s.kv (g.source l) (g.slot l p)

end Session

/-- The layer loop of a step, with the residual it has reached. -/
structure Layered (T X R : Type*) where
  err : Option String
  session : Session T X R
  hidden : X
  reads : List (List R)

section Step

variable (K : Kernels T X R) (g : Geometry)

/-- One layer: an owner stores its row, then the layer attends. -/
def layerStore (l : Nat) (s : Session T X R) (x : X) : Session T X R :=
  if g.isOwner l then
    s.record g fun l' => if l' = l then some (K.kvRow s.bxOn l s.dpos x) else none
  else s

/-- The layers in turn. A failing layer leaves the stores of the ones before. -/
def layerLoop (f : Option Fault) :
    List Nat → Session T X R → X → Layered T X R
  | [], s, x => ⟨none, s, x, []⟩
  | l :: rest, s, x =>
      match Fault.atLayer l f with
      | some text => ⟨some text, s, x, []⟩
      | none =>
          if g.isOwner l ∧ g.isRinged l ∧ g.jmax ≤ s.dpos - s.commitPos then
            ⟨some "g4_kv ring: uncommitted tick span exceeds Jmax", s, x, []⟩
          else
            let s' := layerStore K g l s x
            let rows := s'.attends g l
            let out := layerLoop f rest s' (K.layer s.bxOn l s.dpos x rows)
            { out with reads := rows :: out.reads }

/-- `g4_kv_step` up to the host counter: embed or take the armed residual,
slide the journal, run the layers, and with the head on write the argmax to
`dseq[dpos + 1]`. -/
def g4KvStep (head : Bool) (f : Option Fault) (s : Session T X R) :
    Outcome T X R :=
  let tok := s.dseq s.dpos
  let x := K.ple s.bxOn tok (s.inj.getD (K.embed tok))
  let out := layerLoop K g f (List.range g.nl) (s.disarm.slide g) x
  match out.err with
  | some e => ⟨some e, out.session, out.reads⟩
  | none =>
      if head then
        match Fault.atLayer g.nl f with
        | some text => ⟨some text, out.session, out.reads⟩
        | none =>
            ⟨none, out.session.withSeq
              (Function.update out.session.dseq (s.dpos + 1) (K.argmax s.bxOn out.hidden)),
              out.reads⟩
      else ⟨none, out.session, out.reads⟩

/-- The operations the verbs queue. -/
inductive Op (T X R : Type*) where
  | feed (toks : List T)
  | arm (x : X)
  | tick (head : Bool) (f : Option Fault)
  | room (text : String)
  | peek (f : Option Fault)
  | undo (d : Nat)
  | commit
  | reset
  | resetCold
  | sink (toks : List T)
  | put (row : Nat → R)
  | attenuate (base n : Nat)
  | ablate (base : Nat) (pos : List Nat)
  | byteexact (on : Bool)

namespace Session

/-- Copy tokens to `dseq[dpos ..]`. -/
def feed (toks : List T) (s : Session T X R) : Session T X R :=
  { s with dseq := fun q =>
      if s.dpos ≤ q then (toks[q - s.dpos]?).getD (s.dseq q) else s.dseq q }

/-- `gemma4_kv_rewind` after its checks: a ringed owner gets the journalled
rows back, the highest position first. -/
def undo (g : Geometry) (d : Nat) (s : Session T X R) : Session T X R :=
  { s with
    kv := fun l =>
      if g.isOwner l ∧ g.isRinged l then
        UndoLog.restoreDown (· % g.ringW) (fun p => s.jkv l (p - s.commitPos))
          s.dpos d (s.kv l)
      else s.kv l
    dpos := s.dpos - d }

def commit (s : Session T X R) : Session T X R :=
  { s with commitPos := s.dpos, jcur := 0, jpos := fun _ _ => none }

def reset (s : Session T X R) : Session T X R :=
  { s with dpos := 0, commitPos := 0, jcur := 0, jpos := fun _ _ => none }

def resetCold (zero : R) (g : Geometry) (s : Session T X R) : Session T X R :=
  { s.reset with
    kv := fun l q => if g.isOwner l then zero else s.kv l q
    jkv := fun l j => if g.isOwner l ∧ g.isRinged l then zero else s.jkv l j }

/-- Rewrite the rows of every owner at the listed positions, one at a time. -/
def overwrite (g : Geometry) (new : Nat → Nat → R → R) (ps : List Nat)
    (s : Session T X R) : Session T X R :=
  { s with
    kv := fun l =>
      if g.isOwner l then
        ps.foldl (fun m p => Function.update m (g.slot l p) (new l p (m (g.slot l p))))
          (s.kv l)
      else s.kv l }

end Session

/-- The cache part of `gemma4_kv_prefill_batched`: full caches take every
position, a ring the last `min n ringW`. The journal is not written. -/
def sinkRows (toks : List T) (s : Session T X R) : Session T X R :=
  let n := toks.length
  { s with
    kv := fun l =>
      if g.isOwner l then
        let start := if g.isRinged l then n - g.ringW else 0
        (List.range' start (n - start)).foldl
          (fun m p => Function.update m (g.slot l p) (K.batchRow s.bxOn toks l p))
          (s.kv l)
      else s.kv l
    jpos := fun _ _ => none
    dseq := fun q => (toks[q]?).getD (s.dseq q)
    dpos := n }

/-- A step followed by `dpos_host++`; a sync failure comes after both. -/
def tick (head : Bool) (f : Option Fault) (s : Session T X R) : Outcome T X R :=
  let out := g4KvStep K g head f s
  match out.err with
  | some _ => out
  | none => ⟨Fault.atSync f, out.session.advance, out.reads⟩

/-- The step of `gemma4_kv_read_global_q`: the host counter is not advanced and
the journal counters are put back, unless the step itself failed. -/
def peek (f : Option Fault) (s : Session T X R) : Outcome T X R :=
  let out := g4KvStep K g false f s
  match out.err with
  | some _ => out
  | none =>
      ⟨Fault.atSync f, { out.session with commitPos := s.commitPos, jcur := s.jcur },
        out.reads⟩

def runOp : Op T X R → Session T X R → Outcome T X R
  | .feed toks, s => ⟨none, s.feed toks, []⟩
  | .arm x, s => ⟨none, { s with inj := some x }, []⟩
  | .tick head f, s => tick K g head f s
  | .room text, s => ⟨if g.pmax < s.dpos + 1 then some text else none, s, []⟩
  | .peek f, s => peek K g f s
  | .undo d, s => ⟨none, s.undo g d, []⟩
  | .commit, s => ⟨none, s.commit, []⟩
  | .reset, s => ⟨none, s.reset, []⟩
  | .resetCold, s => ⟨none, s.resetCold K.zero g, []⟩
  | .sink toks, s => ⟨none, sinkRows K g toks s, []⟩
  | .put row, s =>
      ⟨none, (s.record g fun l => if g.isOwner l then some (row l) else none).advance, []⟩
  | .attenuate base n, s =>
      ⟨none, s.overwrite g (fun _ _ => K.attenuate n) (List.range' base n), []⟩
  | .ablate base pos, s =>
      ⟨none, s.overwrite g (fun _ _ _ => K.zero)
        ((pos.map (base + ·)).filter (· < g.pmax)), []⟩
  | .byteexact on, s => ⟨none, { s with bxOn := on }, []⟩

/-- Run the queue until an operation fails. -/
def runOps : List (Op T X R) → Session T X R → Outcome T X R
  | [], s => ⟨none, s, []⟩
  | op :: rest, s =>
      let out := runOp K g op s
      match out.err with
      | some _ => out
      | none =>
          let last := runOps rest out.session
          { last with reads := out.reads ++ last.reads }

end Step

end ShannonPrime.Kv
