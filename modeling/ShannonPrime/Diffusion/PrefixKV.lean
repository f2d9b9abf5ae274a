import ShannonPrime.Diffusion.Prompt

/-!
The pass that computes the canvas rows only. Behind a cache that holds the prompt rows of
every owner's K/V it is the full pass on the canvas, whatever the rows it does not compute
hold.
-/

namespace ShannonPrime.Diffusion

namespace Model

variable {R H F : Type} (m : Model R H F)

/-- The cached rows are the prompt rows of the K/V of a full pass. -/
def Cached (m : Model R H F) (full : Pass R) (st₀ : Residual R) (cached : Nat → Rows R × Rows R) :
    Prop :=
  ∀ L st kv, L < m.nLayers → L < m.kvfs → m.layers full st₀ L = some st →
    m.useKV full L st = some kv → SameKV (· < full.promptRows) kv (cached L)

theorem attend_congr {L P n : Nat} (q : R) {kv kv' : Rows R × Rows R} (hkv : SameKV (· < n) kv kv')
    (t : Nat) : m.attend L P n q kv.1 kv.2 t = m.attend L P n q kv'.1 kv'.2 t := by
  have hscore : ∀ h s, s < n → m.score L h P q kv.1 t s = m.score L h P q kv'.1 t s := by
    intro h s hs
    rw [score, score, (hkv s hs).1]
  have hmax : ∀ h, m.rowMax (m.score L h P q kv.1 t) n = m.rowMax (m.score L h P q kv'.1 t) n := by
    intro h
    apply List.foldl_ext
    intro mx s hs
    rw [hscore h s (List.mem_range.mp hs)]
  have hsum : ∀ h mx,
      m.rowSum (m.score L h P q kv.1 t) mx n = m.rowSum (m.score L h P q kv'.1 t) mx n := by
    intro h mx
    apply List.foldl_ext
    intro sum s hs
    rw [hscore h s (List.mem_range.mp hs)]
  unfold attend headOut
  congr 1
  apply List.map_congr_left
  intro h _
  dsimp only
  rw [hmax, hsum]
  congr 1
  apply List.foldl_ext
  intro acc s hs
  have hlt := List.mem_range.mp hs
  rw [hscore h s hlt, (hkv s hlt).2]

variable {leftover leftover' : Buf → Nat → Rows R} {tokens : List Int}
  {cached : Nat → Rows R × Rows R}

/-- A step of the canvas: the rows behind the prompt agree, and so do all rows of the K/V,
those of the prompt through the cache. -/
theorem canvas_layer {st st' : Residual R} {L : Nat} (hL : L < m.nLayers)
    {st₀ : Residual R} (hst₀ : m.layers (m.fullPass leftover tokens) st₀ L = some st)
    (hst : AgreeOn (fun t => m.promptRows tokens.length ≤ t ∧ t < tokens.length)
      (· < tokens.length) st st')
    (hcached : m.Cached (m.fullPass leftover tokens) st₀ cached) :
    Option.Rel (AgreeOn (fun t => m.promptRows tokens.length ≤ t ∧ t < tokens.length)
        (· < tokens.length))
      (m.layer (m.fullPass leftover tokens) L st)
      (m.layer (m.fastPass leftover' cached tokens) L st') := by
  have huse := m.useKV_agree (m.fullPass leftover tokens) (m.fastPass leftover' cached tokens) L hst
    (by
      intro howner s hs
      have hkv : m.useKV (m.fullPass leftover tokens) L st =
          some (m.ownKV (m.fullPass leftover tokens) L st.x) := by
        rw [useKV, if_pos howner]
      rcases Nat.lt_or_ge s (m.promptRows tokens.length) with hprompt | hcanvas
      · have hold := hcached L st _ hL howner hst₀ hkv s hprompt
        simpa [ownKV, fastPass, hprompt] using hold
      · obtain ⟨hk, hv⟩ := m.freshKV_row (m.fullPass leftover tokens) L st.x (Nat.zero_le s)
        obtain ⟨hk', hv'⟩ := m.freshKV_row (m.fastPass leftover' cached tokens) L st'.x hcanvas
        rw [hst.x s ⟨hcanvas, hs⟩] at hk hv
        simpa [ownKV, fullPass, fastPass, Nat.not_lt.mpr hcanvas] using
          And.intro (hk.trans hk'.symm) (hv.trans hv'.symm))
  apply m.layer_agree (m.fullPass leftover tokens) (m.fastPass leftover' cached tokens) L rfl rfl _
    hst huse
  · intro kv kv' _ _ hsame t _ q
    exact m.attend_congr q hsame t
  · intro t ht
    exact ⟨Nat.zero_le t, ht.1, ht.2⟩

theorem canvas_layers (leftover' : Buf → Nat → Rows R) {st₀ : Residual R} {L : Nat} (hL : L ≤ m.nLayers)
    (hkv : ∀ l, st₀.kv l = none)
    (hcached : m.Cached (m.fullPass leftover tokens) st₀ cached) :
    Option.Rel (AgreeOn (fun t => m.promptRows tokens.length ≤ t ∧ t < tokens.length)
        (· < tokens.length))
      (m.layers (m.fullPass leftover tokens) st₀ L)
      (m.layers (m.fastPass leftover' cached tokens) st₀ L) := by
  induction L with
  | zero =>
      apply Option.Rel.some
      constructor
      · intro t _
        rfl
      · intro l
        rw [hkv l]
        exact .none
  | succ L ih =>
      unfold layers
      apply rel_bind (ih (by omega))
      intro mid mid' hout _ hmid
      exact m.canvas_layer hL hout hmid hcached

/-- Behind the right cache the canvas logits are those of the full pass. -/
theorem canvas_logits (leftover' : Buf → Nat → Rows R) {prev : Option (PrevLogits R F)}
    {out : Rows R}
    (hcached : m.Cached (m.fullPass leftover tokens) (m.start tokens prev) cached)
    (hout : m.forward (m.fullPass leftover tokens) tokens prev = some out) :
    ∃ st, m.layers (m.fastPass leftover' cached tokens) (m.start tokens prev) m.nLayers = some st ∧
      ∀ t, m.promptRows tokens.length ≤ t → t < tokens.length → m.logits st t = out t := by
  unfold forward at hout
  split at hout
  case isFalse => cases hout
  obtain ⟨st, hst, rfl⟩ := Option.map_eq_some_iff.mp hout
  have hrel := m.canvas_layers leftover' le_rfl (fun _ => rfl) hcached
  rw [hst] at hrel
  obtain ⟨st', hst', hagree⟩ := rel_some hrel
  refine ⟨st', hst', ?_⟩
  intro t hP ht
  rw [logits, logits, hagree.x t ⟨hP, ht⟩]

/-- The prompt K/V of one canvas serves another one. -/
theorem cached_of_neutral {tokens' : List Int} {prev prev' : Option (PrevLogits R F)}
    (hlen : tokens.length = tokens'.length)
    (hprompt : tokens.take (m.promptRows tokens.length) = tokens'.take (m.promptRows tokens.length))
    (hV : m.NeutralRun (m.fullPass leftover tokens) (m.start tokens prev))
    (hV' : m.NeutralRun (m.fullPass leftover' tokens') (m.start tokens' prev'))
    (hcached : m.Cached (m.fullPass leftover tokens) (m.start tokens prev) cached) :
    m.Cached (m.fullPass leftover' tokens') (m.start tokens' prev') cached := by
  intro L st' kv' hL howner hst' hkv' s hs
  rw [fullPass, ← hlen] at hs
  have hrel := m.prompt_layers hlen (m.start_agree prev prev' hlen hprompt) hV hV'
    (Nat.le_of_lt hL)
  rw [hst'] at hrel
  obtain ⟨st, hst, hagree⟩ := rel_some_right hrel
  have huse := m.prompt_useKV leftover leftover' tokens tokens' L hagree
  rw [hkv'] at huse
  obtain ⟨kv, hkv, hsame⟩ := rel_some_right huse
  obtain ⟨hk, hv⟩ := hsame s hs
  rw [← hk, ← hv]
  exact hcached L st kv hL howner hst hkv s hs

end Model

end ShannonPrime.Diffusion

/-!
The prefix-KV cache over a run of forwards. The key of the cache is published before the
layers fill its buffers, a buffer that could not be allocated stays null, and a later call
with the key takes the cache as it is. A failing call of CUDA leaves its error behind: the
next check of the last error reports it, also in a later forward.
-/

namespace ShannonPrime.Diffusion

/-- `dg_pkv_hash` -/
def pkvHash (tokens : List Int) : BitVec 64 :=
  tokens.foldl (fun h t => (h ^^^ (BitVec.ofInt 32 t).setWidth 64) * 1099511628211#64)
    1469598103934665603#64

/-! ### What fails -/

/-- A failure that ends the forward; one of CUDA stays its last error. -/
inductive Fault where
  | host | device

/-- A buffer of the cache that is not allocated, or not copied to: it holds something. -/
inductive SaveFault (R : Type) where
  | alloc
  | copy (held : Rows R)

/-- The failures of a layer, in the order of its operations. Some copies and uploads are
not checked; the forward goes on with what it has. -/
structure LayerFaults (R : Type) where
  norm : Option Fault
  projections : Option Fault
  store : Option (Rows R × Rows R)
  saveK : Option (SaveFault R)
  saveV : Option (SaveFault R)
  output : Option Fault
  dense : Option Fault
  routing : Option (Rows R)
  gather : Option Fault
  experts : Option Fault
  scale : Option (Rows R)

structure Faults (R : Type) where
  setup : Option Fault
  /-- The tables of the cache are not allocated. -/
  tables : Bool
  layer : Nat → LayerFaults R
  norm : Option Fault
  head : Option Fault

def Faults.none {R : Type} : Faults R where
  setup := .none
  tables := false
  layer := fun _ =>
    ⟨.none, .none, .none, .none, .none, .none, .none, .none, .none, .none, .none⟩
  norm := .none
  head := .none

/-! ### The cache -/

/-- A buffer of the cache. The source does not know whether it is sound: filled with what
was computed before any operation had failed. -/
structure Saved (R : Type) where
  rows : Rows R
  sound : Bool

/-- `g_pkv_m`, `g_pkv_P`, `g_pkv_NL`, `g_pkv_h` -/
structure Key (ι : Type) where
  model : ι
  promptRows : Nat
  nLayers : Nat
  hash : BitVec 64
  deriving DecidableEq

/-- The cache; of a buffer only the prompt rows are read. -/
structure Cache (ι R : Type) where
  key : Key ι
  K : Nat → Option (Saved R)
  V : Nat → Option (Saved R)

structure State (ι R : Type) where
  cache : Option (Cache ι R)
  /-- The last error of CUDA has not been read yet. -/
  pending : Bool

def State.init {ι R : Type} : State ι R := ⟨none, false⟩

structure Call (ι R F : Type) where
  model : ι
  tokens : List Int
  prev : Option (PrevLogits R F)
  /-- `SP_DG_PACKED`: the matrix products check the last error. -/
  packed : Bool
  /-- The slices of the experts are packed too. -/
  packedExperts : Bool
  leftover : Buf → Nat → Rows R
  /-- What the prompt rows hold that a copy from a null buffer leaves. -/
  unread : Nat → Rows R × Rows R
  faults : Faults R

/-! ### A forward -/

/-- A forward on its way through the layers. -/
structure Walk (ι R : Type) where
  st : Residual R
  cache : Option (Cache ι R)
  pending : Bool
  sound : Bool

section Walk

variable {ι R H F : Type}

def Walk.stopIf (w : Walk ι R) : Option Fault → Except (Walk ι R) (Walk ι R)
  | none => .ok w
  | some .host => .error w
  | some .device => .error { w with pending := true }

/-- `cudaGetLastError` in the packed products -/
def Walk.check (packed : Bool) (w : Walk ι R) : Except (Walk ι R) (Walk ι R) :=
  if packed && w.pending then .error { w with pending := false } else .ok w

/-- An operation nobody checks. -/
def Walk.unchecked (failed : Bool) (w : Walk ι R) : Walk ι R :=
  { w with pending := w.pending || failed, sound := w.sound && !failed }

def SaveFault.apply (sound : Bool) (rows : Rows R) : Option (SaveFault R) → Option (Saved R)
  | none => some ⟨rows, sound⟩
  | some .alloc => none
  | some (.copy held) => some ⟨held, false⟩

def Walk.save (w : Walk ι R) (f : LayerFaults R) (L : Nat) (kv : Rows R × Rows R) : Walk ι R :=
  { w with
    cache := w.cache.map fun c =>
      { c with
        K := Function.update c.K L (SaveFault.apply w.sound kv.1 f.saveK)
        V := Function.update c.V L (SaveFault.apply w.sound kv.2 f.saveV) }
    pending := w.pending || f.saveK.isSome || f.saveV.isSome }

/-- A buffer of the layer is null. -/
def Cache.missing (c : Cache ι R) (L : Nat) : Bool := (c.K L).isNone || (c.V L).isNone

/-- The rows a fast pass splices in. -/
def Cache.rows (c : Cache ι R) (unread : Nat → Rows R × Rows R) (L : Nat) : Rows R × Rows R :=
  (((c.K L).map Saved.rows).getD (unread L).1, ((c.V L).map Saved.rows).getD (unread L).2)

/-- How a forward runs. -/
structure Plan (ι R : Type) where
  pass : Pass R
  /-- `pkv_on && !pkv_hit` -/
  saving : Bool
  cache : Option (Cache ι R)

namespace Model

variable (m : Model R H F)

/-- The K/V store of a layer: the copies of an owner, from the cache in a fast pass, and the
save. -/
def storeKV (m : Model R H F) (plan : Plan ι R) (f : LayerFaults R) (L : Nat)
    (kv : Rows R × Rows R) (w : Walk ι R) : (Rows R × Rows R) × Walk ι R :=
  if L < m.kvfs then
    let null := plan.pass.prefixKV.isSome && w.cache.any fun c => c.missing L
    let w := w.unchecked (f.store.isSome || null)
    let kv := f.store.getD kv
    (kv, if plan.saving then w.save f L kv else w)
  else (kv, w)

/-- The rest of a layer, from the attention on. -/
def restOfLayer (m : Model R H F) (plan : Plan ι R) (call : Call ι R F) (L : Nat)
    (kv : Rows R × Rows R) (w : Walk ι R) : Except (Walk ι R) (Walk ι R) := do
  let f := call.faults.layer L
  let w ← w.stopIf f.output
  let w ← w.check call.packed
  let w ← w.stopIf f.dense
  let w := w.unchecked f.routing.isSome
  let w ← w.stopIf f.gather
  let w ← w.check call.packedExperts
  let w ← w.stopIf f.experts
  let w := w.unchecked f.scale.isSome
  let st := m.layerOn plan.pass L w.st kv
  return { w with st := { st with x := (f.scale.or f.routing).getD st.x } }

def walkLayer (m : Model R H F) (plan : Plan ι R) (call : Call ι R F) (L : Nat)
    (w : Walk ι R) : Except (Walk ι R) (Walk ι R) := do
  let f := call.faults.layer L
  let w ← w.stopIf f.norm
  let w ← w.check call.packed
  let w ← w.stopIf f.projections
  match m.useKV plan.pass L w.st with
  | none => .error w
  | some kv =>
      let stored := m.storeKV plan f L kv w
      m.restOfLayer plan call L stored.1 stored.2

def walk (m : Model R H F) (plan : Plan ι R) (call : Call ι R F) (w : Walk ι R) :
    Nat → Except (Walk ι R) (Walk ι R)
  | 0 => .ok w
  | L + 1 => do m.walkLayer plan call L (← m.walk plan call w L)

/-- The output norm, the head, and the check of the last error. -/
def finish (call : Call ι R F) (w : Walk ι R) : Except (Walk ι R) (Walk ι R) := do
  let w ← w.stopIf call.faults.norm
  let w ← w.check call.packed
  let w ← w.stopIf call.faults.head
  w.check true

end Model

/-! ### A run of forwards -/

variable [DecidableEq ι] (models : ι → Model R H F)

def Call.rows (models : ι → Model R H F) (call : Call ι R F) : Nat :=
  (models call.model).promptRows call.tokens.length

def Call.key (models : ι → Model R H F) (call : Call ι R F) : Key ι :=
  ⟨call.model, call.rows models, (models call.model).nLayers,
    pkvHash (call.tokens.take (call.rows models))⟩

def Call.full (models : ι → Model R H F) (call : Call ι R F) : Pass R :=
  (models call.model).fullPass call.leftover call.tokens

def Call.start (models : ι → Model R H F) (call : Call ι R F) : Residual R :=
  (models call.model).start call.tokens call.prev

/-- The key is published, and the layers are to fill the buffers. -/
def Call.fill (models : ι → Model R H F) (call : Call ι R F) : Plan ι R :=
  ⟨call.full models, true, some ⟨call.key models, fun _ => none, fun _ => none⟩⟩

/-- `pkv_hit` -/
def hit (models : ι → Model R H F) (s : State ι R) (call : Call ι R F) : Option (Cache ι R) :=
  if 0 < call.rows models then s.cache.filter fun c => c.key == call.key models else none

def plan (models : ι → Model R H F) (s : State ι R) (call : Call ι R F) : Plan ι R :=
  match hit models s call with
  | some c =>
      ⟨(models call.model).fastPass call.leftover (c.rows call.unread) call.tokens, false, some c⟩
  | none =>
      if call.rows models = 0 then ⟨call.full models, false, s.cache⟩
      else if call.faults.tables then ⟨call.full models, false, none⟩
      else call.fill models

/-- `dg_forward_impl` with the prefix-KV cache on. -/
def dgForward (models : ι → Model R H F) (s : State ι R) (call : Call ι R F) :
    State ι R × Option (Rows R) :=
  let m := models call.model
  if !m.accepts call.tokens then (s, none)
  else
    match call.faults.setup with
    | some .host => (s, none)
    | some .device => ({ s with pending := true }, none)
    | none =>
        let p := plan models s call
        match m.walk p call ⟨call.start models, p.cache, s.pending, true⟩ m.nLayers >>=
            Model.finish call with
        | .error w => (⟨w.cache, w.pending⟩, none)
        | .ok w => (⟨w.cache, w.pending⟩, some (m.logits w.st))

def runCalls (models : ι → Model R H F) (calls : List (Call ι R F)) : State ι R :=
  calls.foldl (fun s call => (dgForward models s call).1) State.init

end Walk

end ShannonPrime.Diffusion
