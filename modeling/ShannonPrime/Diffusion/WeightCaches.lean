import ShannonPrime.Diffusion.PrefixKV

/-!
The process-wide caches of a DiffusionGemma forward. Of a tensor only its owner is kept, the
loaded model it belongs to: what a forward uses is the owners of everything it computes
with. The caches are keyed by the address of the arena's tensor (the reservoir), by the name
of the tensor (the resident device tensors), by the name and the first row (the prefetched
slices) and by the address of the model (the token embedding and the prefix K/V).
-/

namespace ShannonPrime.Diffusion

/-- A load of a model; no two loads make the same. -/
abbrev Instance := Nat

abbrev Addr := Nat

/-- The residency options of the process. -/
structure Options where
  /-- `SP_DG_RESERVOIR` -/
  reservoir : Bool
  /-- `SP_DG_PACKED` -/
  packed : Bool
  /-- `SP_DG_WCACHE` -/
  wcache : Bool
  /-- `SP_DG_ASYNC` -/
  async : Bool
  /-- `SP_DG_ASYNC_NOGU` -/
  noGateUp : Bool
  /-- `SP_DG_PREFIXKV` -/
  prefixKV : Bool

/-- A loaded model, with its address and those of its arena's tensors. -/
structure Loaded extends Config where
  id : Instance
  addr : Addr
  arena : List (String × Addr)
  nEmbd : Nat
  nFfExp : Nat
  tokenEmbd : String
  head : String
  /-- The slices of the tensor are OK_Q4B. -/
  packable : String → Bool

/-- `sp_arena_find` -/
def Loaded.find (m : Loaded) (name : String) : Option Addr := m.arena.lookup name

/-! ### The caches -/

structure Caches where
  /-- `dg_res_tab` -/
  reservoir : List (Addr × Instance)
  /-- `dg_wc_tab` -/
  wcache : List (String × Instance)
  /-- `dg_pf`: the valid slots; 0 and 1 for gate_up, 2 and 3 for down. -/
  slots : Nat → Option (String × Instance)
  /-- `dg_pf_rr` -/
  turn : Nat → Nat
  /-- `g_dg_sc_embed_key` and `g_dg_sc_embed` -/
  embed : Option (Addr × Instance)
  /-- The key of the prefix K/V, and the owners its K and V are derived from. -/
  kv : Option (Key Addr × (Nat → Bool → Option (List Instance)))

def Caches.init : Caches := ⟨[], [], fun _ => none, fun _ => 0, none, none⟩

/-- What the allocator and the budgets decide at one operation. -/
structure Luck where
  /-- No operation fails that the forward checks. -/
  ok : Bool
  clone : Bool
  insert : Bool
  fetch : Bool
  /-- The buffer of K, and that of V. -/
  save : Bool → Bool

/-- `pkv_on` and `pkv_hit` -/
inductive KVMode where
  | off | hit | miss

/-- A forward under way. -/
structure Running where
  caches : Caches
  uses : List Instance
  mode : KVMode

section Operations

variable (o : Options) (m : Loaded) (luck : Luck)

/-- `dg_resident_pt`: the owner of the rows, and the reservoir after it. -/
def Caches.residentPt (c : Caches) (o : Options) (m : Loaded) (luck : Luck) (at_ : Addr) :
    Instance × Caches :=
  if o.reservoir then
    match c.reservoir.lookup at_ with
    | some owner => (owner, c)
    | none =>
        (m.id, if luck.clone then { c with reservoir := c.reservoir ++ [(at_, m.id)] } else c)
  else (m.id, c)

/-- `dg_wcache_lookup` -/
def Caches.resident (c : Caches) (o : Options) (name : String) : Option Instance :=
  if o.wcache then c.wcache.lookup name else none

/-- `dg_wcache_insert` -/
def Caches.insert (c : Caches) (o : Options) (m : Loaded) (luck : Luck) (name : String) : Caches :=
  if o.wcache && luck.insert then { c with wcache := c.wcache ++ [(name, m.id)] } else c

def Caches.holds (c : Caches) (key : String) (slot : Nat) : Bool :=
  (c.slots slot).any fun s => s.1 == key

/-- `dg_pf_consume` -/
def Caches.consume (c : Caches) (o : Options) (key : String) : Option (Instance × Caches) :=
  if o.async then
    ([0, 1, 2, 3].find? (c.holds key)).bind fun slot =>
      (c.slots slot).map fun s => (s.2, { c with slots := Function.update c.slots slot none })
  else none

inductive Op where
  /-- `dg_dequant_resident_rows` -/
  | rows (name : String)
  /-- `dg_gemm_packed`, or the f32 upload -/
  | product (name : String)
  /-- `dg_gemm_packed_rows`, or the f32 upload -/
  | slice (name : String) (r0 : Nat)
  /-- `dg_prefetch_rows`; the kind is 0 for gate_up and 1 for down. -/
  | prefetch (name : String) (r0 kind : Nat)
  /-- The token embedding of `dg_self_cond` -/
  | embed
  | openKV (key : Key Addr)
  /-- The splice or the save of a layer -/
  | layerKV (L : Nat)

def Running.take (r : Running) (owner : Instance) (c : Caches) : Running :=
  { r with caches := c, uses := owner :: r.uses }

def Running.rows (r : Running) (o : Options) (m : Loaded) (luck : Luck) (name : String) :
    Option Running :=
  (m.find name).map fun at_ =>
    let got := r.caches.residentPt o m luck at_
    r.take got.1 got.2

def Running.product (r : Running) (o : Options) (m : Loaded) (luck : Luck) (name : String) :
    Option Running :=
  if o.packed then
    match r.caches.resident o name with
    | some owner => some (r.take owner r.caches)
    | none => (m.find name).map fun _ => r.take m.id (r.caches.insert o m luck name)
  else r.rows o m luck name

def sliceKey (name : String) (r0 : Nat) : String := s!"{name}#{r0}"

def Running.slice (r : Running) (o : Options) (m : Loaded) (luck : Luck) (name : String)
    (r0 : Nat) : Option Running :=
  let key := sliceKey name r0
  if o.packed then
    match r.caches.resident o key with
    | some owner => some (r.take owner r.caches)
    | none =>
        match r.caches.consume o key with
        | some (owner, c) => some (r.take owner c)
        | none =>
            if m.packable name then
              (m.find name).map fun _ => r.take m.id (r.caches.insert o m luck key)
            else r.rows o m luck name
  else r.rows o m luck name

def Caches.prefetch (c : Caches) (o : Options) (m : Loaded) (luck : Luck) (name : String)
    (r0 kind : Nat) : Caches :=
  if o.async && (m.find name).isSome && m.packable name then
    let slot := 2 * kind + c.turn kind % 2
    let c := { c with turn := Function.update c.turn kind (c.turn kind + 1) }
    if (c.slots slot).isSome || !luck.fetch then c
    else { c with slots := Function.update c.slots slot (some (sliceKey name r0, m.id)) }
  else c

/-- The cached embedding of this address, or one made from the arena. -/
def Running.embed (r : Running) (o : Options) (m : Loaded) (luck : Luck) : Running × Bool :=
  match r.caches.embed.filter fun e => e.1 == m.addr with
  | some e => (r.take e.2 r.caches, luck.ok)
  | none =>
      let r := { r with caches := { r.caches with embed := none } }
      match m.find m.tokenEmbd with
      | none => (r, false)
      | some at_ =>
          let got := r.caches.residentPt o m luck at_
          if luck.ok then (r.take got.1 { got.2 with embed := some (m.addr, got.1) }, true)
          else (r.take got.1 got.2, false)

def Running.openKV (r : Running) (luck : Luck) (key : Key Addr) : Running :=
  match r.caches.kv.filter fun e => e.1 == key with
  | some _ => { r with mode := .hit }
  | none =>
      -- without the tables the cache stays off
      if luck.ok then
        { r with
          caches := { r.caches with kv := some (key, fun _ _ => none) }
          mode := .miss }
      else { r with caches := { r.caches with kv := none }, mode := .off }

def Running.layerKV (r : Running) (luck : Luck) (L : Nat) : Running :=
  match r.mode, r.caches.kv with
  | .hit, some (_, owners) =>
      { r with uses := (owners L false).getD [] ++ (owners L true).getD [] ++ r.uses }
  | .miss, some (key, owners) =>
      let saved := fun v => if luck.save v then some r.uses else none
      { r with caches := { r.caches with kv := some (key, Function.update owners L saved) } }
  | _, _ => r

/-- An operation of a forward, and whether the forward goes on. -/
def Op.exec (o : Options) (m : Loaded) (luck : Luck) (r : Running) : Op → Running × Bool
  | .rows name => ((r.rows o m luck name).getD r, luck.ok && (m.find name).isSome)
  | .product name => ((r.product o m luck name).getD r, luck.ok && (r.product o m luck name).isSome)
  | .slice name r0 => ((r.slice o m luck name r0).getD r, luck.ok && (r.slice o m luck name r0).isSome)
  | .prefetch name r0 kind =>
      ({ r with caches := r.caches.prefetch o m luck name r0 kind }, true)
  | .embed => r.embed o m luck
  | .openKV key => (r.openKV luck key, true)
  | .layerKV L => (r.layerKV luck L, luck.ok)

/-- The operations up to the first that fails. -/
def execAll (o : Options) (m : Loaded) : List (Op × Luck) → Running → Running
  | [], r => r
  | (op, luck) :: ops, r =>
      let next := op.exec o m luck r
      if next.2 then execAll o m ops next.1 else next.1

end Operations

/-! ### A forward -/

structure DgCall where
  tokens : List Int
  /-- There are logits of a previous step. -/
  prev : Bool
  /-- The experts of a layer that some token is routed to, in order. -/
  hits : Nat → List Nat
  luck : Nat → Luck

def blockName (L : Nat) (name : String) : String := s!"blk.{L}.{name}.weight"

/-- The gate_up slice of the next expert. -/
def gateUpAhead (o : Options) (m : Loaded) (L : Nat) (hits : List Nat) : List Op :=
  match hits with
  | e :: _ =>
      if o.noGateUp then []
      else [.prefetch (blockName L "ffn_gate_up_exps") (e * (m.nFfExp * 2)) 0]
  | [] => []

def expertOps (o : Options) (m : Loaded) (L : Nat) : List Nat → List Op
  | [] => []
  | e :: rest =>
      [.slice (blockName L "ffn_gate_up_exps") (e * (m.nFfExp * 2)),
        .prefetch (blockName L "ffn_down_exps") (e * m.nEmbd) 1,
        .slice (blockName L "ffn_down_exps") (e * m.nEmbd)] ++
      gateUpAhead o m L rest ++ expertOps o m L rest

def layerOps (o : Options) (m : Loaded) (L : Nat) (hits : List Nat) : List Op :=
  [.product (blockName L "attn_q")] ++
  (if L < m.kvfs then
    [.product (blockName L "attn_k")] ++
    (if m.hasV L then [.product (blockName L "attn_v")] else []) ++ [.layerKV L]
  else []) ++
  [.product (blockName L "attn_output"), .product (blockName L "ffn_gate"),
    .product (blockName L "ffn_up"), .product (blockName L "ffn_down")] ++
  gateUpAhead o m L hits ++ expertOps o m L hits

def kvKey (m : Loaded) (tokens : List Int) : Key Addr :=
  let P := m.promptRows tokens.length
  ⟨m.addr, P, m.nLayers, pkvHash (tokens.take P)⟩

def forwardOps (o : Options) (m : Loaded) (call : DgCall) : List Op :=
  if call.tokens.isEmpty then [] else
  call.tokens.map (fun _ => .rows m.tokenEmbd) ++
  (if call.prev then
    [.embed, .rows "self_cond_gate.weight", .rows "self_cond_up.weight",
      .rows "self_cond_down.weight"]
  else []) ++
  (if o.prefixKV && 0 < m.promptRows call.tokens.length then [.openKV (kvKey m call.tokens)]
  else []) ++
  (List.range m.nLayers).flatMap (fun L => layerOps o m L (call.hits L)) ++
  [.product m.head]

/-- The caches after a forward, and what it uses. -/
def Caches.forward (c : Caches) (o : Options) (m : Loaded) (call : DgCall) : Running :=
  execAll o m ((forwardOps o m call).zipIdx.map fun p => (p.1, call.luck p.2)) ⟨c, [], .off⟩

/-! ### A run of the process -/

inductive Event where
  | load (m : Loaded)
  | forward (id : Instance) (call : DgCall)
  /-- `sp_cuda_model_release` -/
  | release (id : Instance)
  | free (id : Instance)
  /-- `dg_sc_embed_release` -/
  | releaseEmbed
  /-- `dg_prefixkv_release` -/
  | releasePrefixKV

structure World where
  caches : Caches
  /-- The models in memory; one is marked if it was released after its last forward. -/
  live : List (Loaded × Bool)
  /-- The model of the last forward since a release. -/
  busy : Option Instance
  count : Nat

def World.init : World := ⟨Caches.init, [], none, 0⟩

def World.model (w : World) (id : Instance) : Option Loaded :=
  (w.live.find? fun p => p.1.id == id).map Prod.fst

def mark (live : List (Loaded × Bool)) (id : Instance) (released : Bool) : List (Loaded × Bool) :=
  live.map fun p => if p.1.id = id then (p.1, released) else p

/-- `sp_cuda_model_release` -/
def Caches.release (c : Caches) : Caches :=
  { c with reservoir := [], wcache := [], slots := fun _ => none }

/-- An event, and what it uses. -/
def World.step (o : Options) (w : World) : Event → World × List Instance
  | .load m => ({ w with live := (m, false) :: w.live, count := w.count + 1 }, [])
  | .forward id call =>
      match w.model id with
      | none => (w, [])
      | some m =>
          let r := w.caches.forward o m call
          ({ w with caches := r.caches, live := mark w.live id false, busy := some id }, r.uses)
  | .release id =>
      ({ w with caches := w.caches.release, live := mark w.live id true, busy := none }, [])
  | .free id => ({ w with live := w.live.filter fun p => p.1.id != id }, [])
  | .releaseEmbed => ({ w with caches := { w.caches with embed := none } }, [])
  | .releasePrefixKV => ({ w with caches := { w.caches with kv := none } }, [])

def Loaded.tensors (m : Loaded) : List Addr := m.arena.map Prod.snd

/-- What the callers keep to: a load makes a new model in memory no other model has, and a
model is freed only after a release that no forward on it followed. -/
def World.Allowed (w : World) : Event → Prop
  | .load m => m.id = w.count ∧ ∀ p ∈ w.live, p.1.addr ≠ m.addr ∧ ∀ a ∈ m.tensors, a ∉ p.1.tensors
  | .free id => ∀ p ∈ w.live, p.1.id = id → p.2 = true
  | _ => True

/-- The resident device tensors and the prefetched slices are in use. -/
def Options.named (o : Options) : Bool := o.packed && (o.wcache || o.async)

/-- Where the caches are keyed by name, no other model has run since the last release, and
no cache is left under the address of a new model. -/
def World.Careful (o : Options) (w : World) : Event → Prop
  | .load m =>
      (∀ e ∈ w.caches.embed, e.1 ≠ m.addr) ∧ ∀ e ∈ w.caches.kv, e.1.model ≠ m.addr
  | .forward id _ => o.named = true → w.busy = none ∨ w.busy = some id
  | _ => True

instance (w : World) : (e : Event) → Decidable (w.Allowed e)
  | .load m => inferInstanceAs (Decidable (m.id = w.count ∧
      ∀ p ∈ w.live, p.1.addr ≠ m.addr ∧ ∀ a ∈ m.tensors, a ∉ p.1.tensors))
  | .free id => inferInstanceAs (Decidable (∀ p ∈ w.live, p.1.id = id → p.2 = true))
  | .forward .. | .release _ | .releaseEmbed | .releasePrefixKV => isTrue trivial

instance (o : Options) (w : World) : (e : Event) → Decidable (w.Careful o e)
  | .load m => inferInstanceAs (Decidable ((∀ e ∈ w.caches.embed, e.1 ≠ m.addr) ∧
      ∀ e ∈ w.caches.kv, e.1.model ≠ m.addr))
  | .forward id _ =>
      inferInstanceAs (Decidable (o.named = true → w.busy = none ∨ w.busy = some id))
  | .release _ | .free _ | .releaseEmbed | .releasePrefixKV => isTrue trivial

/-- A condition holds at each event of a run. -/
def World.Along (o : Options) (P : World → Event → Prop) (w : World) : List Event → Prop
  | [] => True
  | e :: es => P w e ∧ (w.step o e).1.Along o P es

instance decidableAlong (o : Options) (P : World → Event → Prop)
    [decP : ∀ w e, Decidable (P w e)] (w : World) : (events : List Event) →
      Decidable (w.Along o P events)
  | [] => isTrue trivial
  | e :: es =>
      match decP w e, decidableAlong o P (w.step o e).1 es with
      | isTrue h, isTrue h' => isTrue ⟨h, h'⟩
      | isFalse h, _ => isFalse fun hall => h hall.1
      | _, isFalse h' => isFalse fun hall => h' hall.2

/-- Each forward of a run uses what its own model owns. -/
def World.UsesOwn (o : Options) (w : World) : List Event → Prop :=
  w.Along o fun w e => ∀ id call, e = .forward id call → ∀ owner ∈ (w.step o e).2, owner = id

end ShannonPrime.Diffusion
