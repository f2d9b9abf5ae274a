import ShannonPrime.Kv.Session

/-!
The verbs of the resident cache. Each is its argument checks, in the order of
the source, followed by the operations it queues; a refused call queues
nothing. `Call` collects them so that a run is a list of calls.
-/

namespace ShannonPrime.Kv

variable {T X R : Type*}

/-- The model file's attention layout and the sliding window. Zero stands for
an absent field, as in the source. -/
structure Config where
  nLayers : Nat
  swaPeriod : Nat
  nKvFromStart : Nat
  slidingWindow : Nat

namespace Config

variable (c : Config)

def period : Nat := if c.swaPeriod = 0 then 6 else c.swaPeriod

def kvfs : Nat := if c.nKvFromStart = 0 then c.nLayers else c.nKvFromStart

/-- Sharers find an owner of their own attention type. -/
def SharedType : Prop :=
  ∀ l, c.kvfs ≤ l → l < c.nLayers →
    (if l % c.period = c.period - 1 then 1 else 2) ≤ c.kvfs ∧
    ((c.kvfs - if l % c.period = c.period - 1 then 1 else 2) % c.period = c.period - 1 ↔
      l % c.period = c.period - 1)

end Config

/-- `gemma4_kv_open` as far as it fixes the geometry: a ring width outside
`[0, Pmax]` switches the ring off, a journal depth below one becomes one. -/
def gemma4KvOpen (c : Config) (hc : c.SharedType) (ringEnv jmaxEnv : Option Int)
    (pmax : Int) : Except String Geometry :=
  if pmax ≤ 0 then .error "gemma4_kv_open: bad args"
  else
    let w := ringEnv.getD 0
    let j := jmaxEnv.getD 64
    .ok {
      nl := c.nLayers
      period := c.period
      kvfs := c.kvfs
      sw := c.slidingWindow
      pmax := pmax.toNat
      ringW := if w < 0 ∨ pmax < w then 0 else w.toNat
      jmax := if j < 1 then 1 else j.toNat
      jmax_pos := by split <;> omega
      ringW_le := by split <;> omega
      shared_type := hc }

/-- A session just opened: the counters are zero, the device memory is not
initialised. -/
def Session.opened (dseq : Nat → T) (kv jkv : Nat → Nat → R) : Session T X R :=
  ⟨0, 0, 0, dseq, kv, jkv, fun _ _ => none, none, false⟩

/-- A stored episode as `gemma4_kv_replay` finds it: the error of opening or
decoding `ep.mf`, its length, the error of reading `ep.k` or `ep.v`, and the
rows it writes. -/
structure Episode (R : Type*) where
  mfErr : Option String
  positions : Nat
  kvErr : Option String
  row : Nat → Nat → R

/-- What the device does to the steps of one call. -/
abbrev Script := Nat → Option Fault

/-- A healthy device. -/
def noFaults : Script := fun _ => none

section Verbs

variable (g : Geometry) (s : Session T X R)

/-- The steps of a prefill: only the last runs the head. -/
def prefillTicks (n : Nat) (fs : Script) : List (Op T X R) :=
  (List.range n).map fun i => .tick (i + 1 == n) (fs i)

def gemma4KvPrefill (toks : List T) (fs : Script) : Except String (List (Op T X R)) :=
  if toks.isEmpty then .error "gemma4_kv_prefill: bad args"
  else if g.pmax < s.dpos + toks.length then .error "gemma4_kv_prefill: exceeds Pmax"
  else .ok (.feed toks :: prefillTicks toks.length fs)

def gemma4KvDecode (nGen : Int) (fs : Script) : Except String (List (Op T X R)) :=
  if nGen < 0 then .error "gemma4_kv_decode: bad args"
  else if (g.pmax : Int) ≤ s.dpos + nGen then .error "gemma4_kv_decode: exceeds Pmax"
  else .ok ((List.range nGen.toNat).map fun i => .tick true (fs i))

def gemma4KvDecodeLogits (tok : T) (f : Option Fault) : Except String (List (Op T X R)) :=
  if g.pmax ≤ s.dpos + 1 then .error "gemma4_kv_decode_logits: exceeds Pmax"
  else .ok [.feed [tok], .tick true f]

def gemma4KvDecodeBatch (toks : List T) (fs : Script) : Except String (List (Op T X R)) :=
  if toks.isEmpty then .error "gemma4_kv_decode_batch: bad args"
  else if g.pmax ≤ s.dpos + toks.length then .error "gemma4_kv_decode_batch: exceeds Pmax"
  else .ok (toks.zipIdx.flatMap fun (tok, i) => [.feed [tok], .tick true (fs i)])

def gemma4KvRewind (delta : Int) : Except String (List (Op T X R)) :=
  if delta < 0 ∨ s.dpos < delta then .error "gemma4_kv_rewind: bad delta"
  else if 0 < g.ringW ∧ (s.dpos - s.commitPos : Nat) < delta then
    .error "gemma4_kv_rewind: delta crosses a commit (journal cleared)"
  else .ok [.undo delta.toNat]

def gemma4KvCommit : Except String (List (Op T X R)) := .ok [.commit]

def gemma4KvReset : Except String (List (Op T X R)) := .ok [.reset]

def gemma4KvResetCold : Except String (List (Op T X R)) := .ok [.resetCold]

/-- `decline` is the verdict of the environment guards (persist continuation,
CPU tail, free VRAM). -/
def gemma4KvPrefillBatched (toks : List T) (decline : Option String) :
    Except String (List (Op T X R)) :=
  if toks.isEmpty then .error "gemma4_kv_prefill_batched: bad args"
  else if s.dpos ≠ 0 then .error "gemma4_kv_prefill_batched: not cold (dpos!=0)"
  else if g.pmax < toks.length then .error "gemma4_kv_prefill_batched: exceeds Pmax"
  else match decline with
    | some text => .error text
    | none => .ok [.sink toks]

/-- One prefill of a single token per id, with its own embedding armed. The
attenuated form then scales the rows it minted. -/
def gemma4KvInjectTokens (embed : T → X) (toks : List T) (atten : Bool) (fs : Script) :
    Except String (List (Op T X R)) :=
  if toks.isEmpty then .error "gemma4_kv_inject_tokens: bad args"
  else if g.pmax < s.dpos + toks.length then .error "gemma4_kv_inject_tokens: exceeds Pmax"
  else .ok
    (toks.zipIdx.flatMap (fun (tok, i) =>
      [.arm (embed tok), .feed [tok], .tick true (fs i)]) ++
    if atten then [.attenuate s.dpos toks.length] else [])

/-- The room check is the one of the single-token prefill, made per frame. -/
def gemma4KvInjectSeq (frames : List X) (ph : T) (fs : Script) :
    Except String (List (Op T X R)) :=
  if frames.isEmpty then .error "gemma4_kv_inject_seq: bad args"
  else .ok (frames.zipIdx.flatMap fun (frame, i) =>
    [.arm frame, .room "gemma4_kv_prefill: exceeds Pmax", .feed [ph], .tick true (fs i)])

def gemma4KvReplay (ep : Episode R) (npos : Int) (zero : Option R) :
    Except String (List (Op T X R)) :=
  if npos ≤ 0 then .error "gemma4_kv_replay: bad args"
  else if (g.pmax : Int) < s.dpos + npos then .error "gemma4_kv_replay: exceeds Pmax"
  else if 0 < g.ringW ∧ (g.jmax : Int) < (s.dpos - s.commitPos : Nat) + npos then
    .error "gemma4_kv_replay: ring journal depth exceeded (commit before replay)"
  else match ep.mfErr with
    | some text => .error text
    | none =>
        if (ep.positions : Int) < npos then .error "kv_replay: episode shorter than npos"
        else match ep.kvErr with
          | some text => .error text
          | none => .ok ((List.range npos.toNat).map fun p =>
              .put fun l => zero.getD (ep.row l p))

def gemma4KvAblateRows (base : Nat) (pos : List Nat) : Except String (List (Op T X R)) :=
  .ok [.ablate base pos]

def gemma4KvReadGlobalQ (tok : T) (f : Option Fault) : Except String (List (Op T X R)) :=
  if g.pmax ≤ s.dpos + 1 then .error "gemma4_kv_read_global_q: exceeds Pmax"
  else .ok [.feed [tok], .peek f]

def gemma4KvByteexactSet (on : Bool) : Except String (List (Op T X R)) :=
  .ok [.byteexact on]

end Verbs

/-- A call of a verb, with what the device does to its steps. -/
inductive Call (T X R : Type*) where
  | prefill (toks : List T) (fs : Script)
  | decode (nGen : Int) (fs : Script)
  | decodeLogits (tok : T) (f : Option Fault)
  | decodeBatch (toks : List T) (fs : Script)
  | rewind (delta : Int)
  | commit
  | reset
  | resetCold
  | prefillBatched (toks : List T) (decline : Option String)
  | injectTokens (toks : List T) (atten : Bool) (fs : Script)
  | injectSeq (frames : List X) (ph : T) (fs : Script)
  | replay (ep : Episode R) (npos : Int) (zero : Bool)
  | ablateRows (base : Nat) (pos : List Nat)
  | readGlobalQ (tok : T) (f : Option Fault)
  | byteexactSet (on : Bool)

def Call.isPeek : Call T X R → Bool
  | .readGlobalQ _ _ => true
  | _ => false

/-- A batched prefill the environment refuses, whatever the cache. -/
def Call.declined : Call T X R → Bool
  | .prefillBatched _ (some _) => true
  | _ => false

/-- The call switches the byte-exact mode. -/
def Call.setsMode : Call T X R → Bool
  | .byteexactSet _ => true
  | _ => false

section Calls

variable (K : Kernels T X R) (g : Geometry)

def Call.queue (s : Session T X R) : Call T X R → Except String (List (Op T X R))
  | .prefill toks fs => gemma4KvPrefill g s toks fs
  | .decode nGen fs => gemma4KvDecode g s nGen fs
  | .decodeLogits tok f => gemma4KvDecodeLogits g s tok f
  | .decodeBatch toks fs => gemma4KvDecodeBatch g s toks fs
  | .rewind delta => gemma4KvRewind g s delta
  | .commit => gemma4KvCommit
  | .reset => gemma4KvReset
  | .resetCold => gemma4KvResetCold
  | .prefillBatched toks decline => gemma4KvPrefillBatched g s toks decline
  | .injectTokens toks atten fs => gemma4KvInjectTokens g s K.embed toks atten fs
  | .injectSeq frames ph fs => gemma4KvInjectSeq frames ph fs
  | .replay ep npos zero => gemma4KvReplay g s ep npos (if zero then some K.zero else none)
  | .ablateRows base pos => gemma4KvAblateRows base pos
  | .readGlobalQ tok f => gemma4KvReadGlobalQ g s tok f
  | .byteexactSet on => gemma4KvByteexactSet on

/-- The whole call: the checks, then the queue. -/
def Call.exec (c : Call T X R) (s : Session T X R) : Outcome T X R :=
  match c.queue K g s with
  | .error text => ⟨some text, s, []⟩
  | .ok ops => runOps K g ops s

end Calls

/-- Rows that name their position: kernels for concrete runs. -/
def posKernels (tok : T) : Kernels T Unit Nat where
  embed _ := ()
  ple _ _ x := x
  kvRow _ _ pos _ := pos
  layer _ _ _ x _ := x
  argmax _ _ := tok
  batchRow _ _ _ p := p
  attenuate _ r := r
  zero := 0

/-- A single sliding-window layer, the smallest geometry with a ring. -/
def soloGeometry (sw pmax ringW jmax : Nat) (hj : 0 < jmax) (hw : ringW ≤ pmax) :
    Geometry where
  nl := 1
  period := 2
  kvfs := 1
  sw := sw
  pmax := pmax
  ringW := ringW
  jmax := jmax
  jmax_pos := hj
  ringW_le := hw
  shared_type l h1 h2 := by omega

/-- The model of one sliding layer is one `gemma4_kv_open` accepts, whatever the
window and the ring. -/
theorem gemma4KvOpen_solo (sw pmax ringW jmax : Nat) (hj : 0 < jmax) (hw : ringW ≤ pmax)
    (hp : 0 < pmax) (hc : (⟨1, 2, 1, sw⟩ : Config).SharedType) :
    gemma4KvOpen ⟨1, 2, 1, sw⟩ hc (some ringW) (some jmax) pmax =
      .ok (soloGeometry sw pmax ringW jmax hj hw) := by
  have hpos : ¬(pmax : Int) ≤ 0 := by omega
  have hring : ¬((ringW : Int) < 0 ∨ (pmax : Int) < ringW) := by omega
  have hjmax : ¬(jmax : Int) < 1 := by omega
  simp only [gemma4KvOpen, hpos, if_false, Option.getD_some, hring, hjmax, Int.toNat_natCast]
  rfl

end ShannonPrime.Kv
