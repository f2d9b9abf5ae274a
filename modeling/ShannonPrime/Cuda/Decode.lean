import Mathlib.Logic.Function.Basic
import Mathlib.Data.List.Range

/-!
`qwen3_decode_cuda` with its two generate loops. Both put kernel launches on a stream;
the graph branch captures the launches of one step, which does not execute them, and
replays what it captured. A launch argument that depends on the position is either a
value the host computed or read from the device scalar `dpos`. Kernels are functions of
their inputs, and an access outside the sequence or the cache is a fault.
-/

namespace ShannonPrime.Cuda

variable {V : Type*}

/-- The device vectors of one decode. -/
inductive Buf where
  | dx | dnx | dq | dk | dv | dao | dap | dg | dup | ddn | dlog
  deriving DecidableEq

inductive Weight where
  | attnNorm (layer : Nat) | wq (layer : Nat) | wk (layer : Nat) | wv (layer : Nat)
  | qNorm (layer : Nat) | kNorm (layer : Nat) | wo (layer : Nat)
  | ffnNorm (layer : Nat) | wgate (layer : Nat) | wup (layer : Nat) | wdown (layer : Nat)
  | outNorm | head
  deriving DecidableEq

/-- What the kernels compute. `scale` is the product with `1.0f` in `k_embed_scale`;
`rope` is given the vector it turns, which fixes its head count, and a position. -/
structure Kernels (V : Type*) where
  embd : Int → V
  scale : V → V
  scale_one : ∀ x, scale x = x
  rmsnorm : Weight → V → V
  mm : Weight → V → V
  rmsnormHead : Weight → V → V
  rope : Buf → V → Nat → V
  attn : V → List (V × V) → V
  add : V → V → V
  siluMul : V → V → V
  argmax : V → Int

structure Device (V : Type*) where
  buf : Buf → V
  kc : Nat → Nat → V
  vc : Nat → Nat → V
  dseq : Nat → Int
  dpos : Nat

/-- A kernel launch or device copy, with the arguments frozen into it. -/
inductive Launch where
  | embedScale (pos : Nat)
  | embedAt
  | rmsnorm (w : Weight) (src dst : Buf)
  | mm (w : Weight) (src dst : Buf)
  | rmsnormHead (w : Weight) (b : Buf)
  | ropeAt (b : Buf) (p0 : Nat)
  | ropeDyn (b : Buf)
  | copyKv (layer pos : Nat)
  | kvStore (layer : Nat)
  | attnDecode (layer ctx : Nat)
  | attnDecodeDyn (layer : Nat)
  | add (dst src : Buf)
  | siluMul (dst src : Buf)
  | argmax (out : Nat)
  | argmaxAt
  | incrPos
  deriving DecidableEq

namespace Device

def set (d : Device V) (b : Buf) (x : V) : Device V :=
  { d with buf := Function.update d.buf b x }

def rows (d : Device V) (layer ctx : Nat) : List (V × V) :=
  (List.range ctx).map fun s => (d.kc layer s, d.vc layer s)

/-- The current key and value go into the cache. -/
def store (d : Device V) (layer pos : Nat) : Device V :=
  { d with
    kc := Function.update d.kc layer (Function.update (d.kc layer) pos (d.buf .dk))
    vc := Function.update d.vc layer (Function.update (d.vc layer) pos (d.buf .dv)) }

def put (d : Device V) (i : Nat) (tok : Int) : Device V :=
  { d with dseq := Function.update d.dseq i tok }

end Device

variable (K : Kernels V) (P : Nat)

/-- One launch on a device whose sequence and cache have `P` positions. -/
def Launch.run (d : Device V) : Launch → Option (Device V)
  | .embedScale pos => if pos < P then some (d.set .dx (K.scale (K.embd (d.dseq pos)))) else none
  | .embedAt => if d.dpos < P then some (d.set .dx (K.embd (d.dseq d.dpos))) else none
  | .rmsnorm w src dst => some (d.set dst (K.rmsnorm w (d.buf src)))
  | .mm w src dst => some (d.set dst (K.mm w (d.buf src)))
  | .rmsnormHead w b => some (d.set b (K.rmsnormHead w (d.buf b)))
  | .ropeAt b p0 => some (d.set b (K.rope b (d.buf b) p0))
  | .ropeDyn b => some (d.set b (K.rope b (d.buf b) d.dpos))
  | .copyKv layer pos => if pos < P then some (d.store layer pos) else none
  | .kvStore layer => if d.dpos < P then some (d.store layer d.dpos) else none
  | .attnDecode layer ctx =>
      if ctx ≤ P then some (d.set .dao (K.attn (d.buf .dq) (d.rows layer ctx))) else none
  | .attnDecodeDyn layer =>
      if d.dpos + 1 ≤ P then some (d.set .dao (K.attn (d.buf .dq) (d.rows layer (d.dpos + 1))))
      else none
  | .add dst src => some (d.set dst (K.add (d.buf dst) (d.buf src)))
  | .siluMul dst src => some (d.set dst (K.siluMul (d.buf dst) (d.buf src)))
  | .argmax out => if out < P then some (d.put out (K.argmax (d.buf .dlog))) else none
  | .argmaxAt =>
      if d.dpos + 1 < P then some (d.put (d.dpos + 1) (K.argmax (d.buf .dlog))) else none
  | .incrPos => some { d with dpos := d.dpos + 1 }

def runAll (d : Device V) : List Launch → Option (Device V)
  | [] => some d
  | l :: rest => (l.run K P d).bind fun d => runAll d rest

/-! ### The launches of a step -/

/-- The matmuls and norms around a layer's attention, which both branches share. -/
def projections (layer : Nat) : List Launch :=
  [.rmsnorm (.attnNorm layer) .dx .dnx, .mm (.wq layer) .dnx .dq, .mm (.wk layer) .dnx .dk,
    .mm (.wv layer) .dnx .dv, .rmsnormHead (.qNorm layer) .dq, .rmsnormHead (.kNorm layer) .dk]

def feedForward (layer : Nat) : List Launch :=
  [.mm (.wo layer) .dao .dap, .add .dx .dap, .rmsnorm (.ffnNorm layer) .dx .dnx,
    .mm (.wgate layer) .dnx .dg, .mm (.wup layer) .dnx .dup, .siluMul .dg .dup,
    .mm (.wdown layer) .dg .ddn, .add .dx .ddn]

/-- A layer at the host's position. -/
def layerLaunches (pos layer : Nat) : List Launch :=
  projections layer ++
    [.ropeAt .dq pos, .ropeAt .dk pos, .copyKv layer pos, .attnDecode layer (pos + 1)] ++
    feedForward layer

/-- A layer at the device's position. -/
def layerCaptured (layer : Nat) : List Launch :=
  projections layer ++ [.ropeDyn .dq, .ropeDyn .dk, .kvStore layer, .attnDecodeDyn layer] ++
    feedForward layer

variable (nl : Nat)

/-- Embed the token at `pos` and pass it through the layers. -/
def tokenLaunches (pos : Nat) : List Launch :=
  .embedScale pos :: (List.range nl).flatMap (layerLaunches pos)

def headLaunches (pos : Nat) : List Launch :=
  [.rmsnorm .outNorm .dx .dnx, .mm .head .dnx .dlog, .argmax (pos + 1)]

/-- What the host launches between begin and end of the capture. -/
def generateLaunches : List Launch :=
  .embedAt :: ((List.range nl).flatMap layerCaptured ++
    [.rmsnorm .outNorm .dx .dnx, .mm .head .dnx .dlog, .argmaxAt, .incrPos])

/-! ### The stream -/

/-- The stream executes what is launched on it, or records it while it captures. -/
structure Stream (V : Type*) where
  dev : Device V
  capture : Option (List Launch)

namespace Stream

def launch (s : Stream V) (l : Launch) : Option (Stream V) :=
  match s.capture with
  | some graph => some { s with capture := some (graph ++ [l]) }
  | none => (l.run K P s.dev).map fun dev => { s with dev := dev }

def launchAll (s : Stream V) : List Launch → Option (Stream V)
  | [] => some s
  | l :: rest => (s.launch K P l).bind fun s => launchAll s rest

def beginCapture (s : Stream V) : Stream V := { s with capture := some [] }

/-- The captured graph, empty if there was no capture. -/
def endCapture (s : Stream V) : Stream V × List Launch :=
  ({ s with capture := none }, s.capture.getD [])

end Stream

/-! ### The two branches -/

/-- `eos_id>=0` and the token just written, read back by the host, is it. -/
def stopsAt (eosId : Int) (d : Device V) (i : Nat) : Bool := decide (0 ≤ eosId) && d.dseq i == eosId

/-- `count` rounds of the per-step loop from `pos`: the stream and the length so far. -/
def stepLoop (nPrompt : Nat) (eosId : Int) :
    Nat → Nat → Stream V → Nat → Option (Stream V × Nat)
  | 0, _, s, n => some (s, n)
  | count + 1, pos, s, n =>
      (s.launchAll K P (tokenLaunches nl pos)).bind fun s =>
        if pos < nPrompt - 1 then stepLoop nPrompt eosId count (pos + 1) s n
        else
          (s.launchAll K P (headLaunches pos)).bind fun s =>
            if stopsAt eosId s.dev (pos + 1) then some (s, pos + 2)
            else stepLoop nPrompt eosId count (pos + 1) s (pos + 2)

/-- The prompt but for its last token, without head and argmax. -/
def ingest : Nat → Nat → Stream V → Option (Stream V)
  | 0, _, s => some s
  | count + 1, pos, s => (s.launchAll K P (tokenLaunches nl pos)).bind (ingest count (pos + 1))

/-- `count` launches of the graph from the `g`-th on. -/
def replayLoop (graph : List Launch) (nPrompt : Nat) (eosId : Int) :
    Nat → Nat → Stream V → Nat → Option (Stream V × Nat)
  | 0, _, s, n => some (s, n)
  | count + 1, g, s, _ =>
      (s.launchAll K P graph).bind fun s =>
        let n := nPrompt + g + 1
        if stopsAt eosId s.dev (n - 1) then some (s, n)
        else replayLoop graph nPrompt eosId count (g + 1) s n

def graphBranch (nPrompt nGen : Nat) (eosId : Int) (s : Stream V) : Option (Stream V × Nat) :=
  (ingest K P nl (nPrompt - 1) 0 s).bind fun s =>
    let s := { s with dev := { s.dev with dpos := nPrompt - 1 } }
    (s.beginCapture.launchAll K P (generateLaunches nl)).bind fun s =>
      let (s, graph) := s.endCapture
      replayLoop K P graph nPrompt eosId nGen 0 s nPrompt

/-- `qwen3_decode_cuda` on the buffers it has allocated, whose contents are arbitrary:
the final sequence and its length. `useGraph` is `SP_CUDA_DECODE_GRAPH`. -/
def decode (useGraph : Bool) (nPrompt nGen : Nat) (eosId : Int) (mem : Device V)
    (seq : Nat → Int) : Option ((Nat → Int) × Nat) :=
  let size := nPrompt + nGen
  let dev := { mem with dseq := fun i => if i < nPrompt then seq i else mem.dseq i }
  let out :=
    if useGraph && decide (size * 4 ≤ 48 * 1024) && decide (0 < nGen) then
      graphBranch K size nl nPrompt nGen eosId ⟨dev, none⟩
    else stepLoop K size nl nPrompt eosId (size - 1) 0 ⟨dev, none⟩ nPrompt
  out.bind fun (s, n) =>
    if n ≤ size then some (fun i => if i < n then s.dev.dseq i else seq i, n) else none

/-! ### The stream executes or records -/

section Streams

variable {K} {P}

theorem runAll_append (d : Device V) (ls ls' : List Launch) :
    runAll K P d (ls ++ ls') = (runAll K P d ls).bind fun d => runAll K P d ls' := by
  induction ls generalizing d with
  | nil => rfl
  | cons l rest ih =>
      simp only [List.cons_append, runAll, Option.bind_assoc]
      congr 1
      funext d
      exact ih d

/-- Outside a capture the launches are executed. -/
theorem Stream.launchAll_execute (d : Device V) (ls : List Launch) :
    (Stream.mk d none).launchAll K P ls = (runAll K P d ls).map fun d => ⟨d, none⟩ := by
  induction ls generalizing d with
  | nil => rfl
  | cons l rest ih =>
      simp only [launchAll, launch, runAll]
      cases l.run K P d with
      | none => rfl
      | some d => exact ih d

/-- In a capture they are recorded, and the device stays as it is. -/
theorem Stream.launchAll_record (d : Device V) (graph ls : List Launch) :
    (Stream.mk d (some graph)).launchAll K P ls = some ⟨d, some (graph ++ ls)⟩ := by
  induction ls generalizing graph with
  | nil => simp [launchAll]
  | cons l rest ih => simp [launchAll, launch, ih]

end Streams

/-! ### The device position against the host's -/

/-- The launch the host would have made at position `pos`. -/
def Launch.freeze (pos : Nat) : Launch → Launch
  | .embedAt => .embedScale pos
  | .ropeDyn b => .ropeAt b pos
  | .kvStore layer => .copyKv layer pos
  | .attnDecodeDyn layer => .attnDecode layer (pos + 1)
  | .argmaxAt => .argmax (pos + 1)
  | l => l

section Freeze

variable {K} {P} {nl} {pos : Nat}

theorem Launch.run_freeze {d : Device V} (hpos : d.dpos = pos) (l : Launch) :
    (l.freeze pos).run K P d = l.run K P d := by
  subst hpos
  cases l <;> simp [freeze, run, K.scale_one]

theorem Launch.run_dpos {d e : Device V} {l : Launch} (hl : l ≠ .incrPos)
    (h : l.run K P d = some e) : e.dpos = d.dpos := by
  cases l
  case incrPos => exact absurd rfl hl
  all_goals
    simp only [run, Option.ite_none_right_eq_some, Option.some.injEq] at h
    obtain ⟨_, rfl⟩ := h
    rfl

/-- While nothing advances the device position, device reads of it and host values
come to the same. -/
theorem runAll_freeze {d : Device V} (hpos : d.dpos = pos) {ls : List Launch}
    (hls : .incrPos ∉ ls) : runAll K P d (ls.map (Launch.freeze pos)) = runAll K P d ls := by
  induction ls generalizing d with
  | nil => rfl
  | cons l rest ih =>
      simp only [List.mem_cons, not_or] at hls
      simp only [List.map_cons, runAll, Launch.run_freeze hpos]
      cases hrun : l.run K P d with
      | none => rfl
      | some e => exact ih ((Launch.run_dpos (Ne.symm hls.1) hrun).trans hpos) hls.2

theorem layerCaptured_freeze (layer : Nat) :
    (layerCaptured layer).map (Launch.freeze pos) = layerLaunches pos layer := rfl

theorem layerCaptured_still (layer : Nat) : .incrPos ∉ layerCaptured layer := by
  simp [layerCaptured, projections, feedForward]

/-- The captured launches but the last, frozen at a position, are those of a per-step
round there. -/
theorem generateLaunches_freeze (nl pos : Nat) :
    ∃ ls, generateLaunches nl = ls ++ [.incrPos] ∧ .incrPos ∉ ls ∧
      ls.map (Launch.freeze pos) = tokenLaunches nl pos ++ headLaunches pos := by
  refine ⟨.embedAt :: ((List.range nl).flatMap layerCaptured ++
    [.rmsnorm .outNorm .dx .dnx, .mm .head .dnx .dlog, .argmaxAt]), ?_, ?_, ?_⟩
  · simp [generateLaunches]
  · simp [layerCaptured_still]
  · simp [tokenLaunches, headLaunches, Launch.freeze, List.map_flatMap, layerCaptured_freeze]

end Freeze

/-! ### One step on two devices -/

namespace Kernels

/-- The key and value of a layer, and its output over the rows before them. -/
def key (layer pos : Nat) (x : V) : V :=
  K.rope .dk (K.rmsnormHead (.kNorm layer)
    (K.mm (.wk layer) (K.rmsnorm (.attnNorm layer) x))) pos

def value (layer : Nat) (x : V) : V := K.mm (.wv layer) (K.rmsnorm (.attnNorm layer) x)

def query (layer pos : Nat) (x : V) : V :=
  K.rope .dq (K.rmsnormHead (.qNorm layer)
    (K.mm (.wq layer) (K.rmsnorm (.attnNorm layer) x))) pos

def ffn (layer : Nat) (x : V) : V :=
  let nx := K.rmsnorm (.ffnNorm layer) x
  K.add x (K.mm (.wdown layer) (K.siluMul (K.mm (.wgate layer) nx) (K.mm (.wup layer) nx)))

def layerOut (layer pos : Nat) (x : V) (rows : List (V × V)) : V :=
  K.ffn layer (K.add x (K.mm (.wo layer)
    (K.attn (K.query layer pos x) (rows ++ [(K.key layer pos x, K.value layer x)]))))

end Kernels

section Twins

variable {K} {P} {nl} {pos : Nat}

theorem Device.set_buf (d : Device V) (b b' : Buf) (x : V) :
    (d.set b x).buf b' = if b' = b then x else d.buf b' := by
  simp [set, Function.update_apply]

theorem Device.rows_store (d : Device V) (layer pos : Nat) :
    (d.store layer pos).rows layer (pos + 1) =
      d.rows layer pos ++ [(d.buf .dk, d.buf .dv)] := by
  simp only [rows, store, List.range_succ, List.map_append, List.map_cons, List.map_nil,
    Function.update_self]
  congr 1
  apply List.map_congr_left
  intro s hs
  have hne : s ≠ pos := Nat.ne_of_lt (List.mem_range.mp hs)
  simp [Function.update_of_ne hne]

/-- What a layer does to the device. -/
theorem layer_run (hpos : pos < P) (d : Device V) (layer : Nat) :
    ∃ e, runAll K P d (layerLaunches pos layer) = some e ∧
      e.buf .dx = K.layerOut layer pos (d.buf .dx) (d.rows layer pos) ∧
      e.kc = Function.update d.kc layer
        (Function.update (d.kc layer) pos (K.key layer pos (d.buf .dx))) ∧
      e.vc = Function.update d.vc layer
        (Function.update (d.vc layer) pos (K.value layer (d.buf .dx))) ∧
      e.dseq = d.dseq ∧ e.dpos = d.dpos := by
  simp only [layerLaunches, projections, feedForward, List.cons_append, List.nil_append, runAll,
    Launch.run, Option.bind_some, if_pos hpos, if_pos (Nat.succ_le_of_lt hpos)]
  refine ⟨_, rfl, ?_, rfl, rfl, rfl, rfl⟩
  have hrows : ∀ (d : Device V) (b : Buf) (x : V), (d.set b x).rows layer pos = d.rows layer pos :=
    fun _ _ _ => rfl
  have hstore : ∀ (d : Device V) (b : Buf), (d.store layer pos).buf b = d.buf b := fun _ _ => rfl
  simp [Device.set_buf, Device.rows_store, hrows, hstore, Kernels.layerOut, Kernels.ffn,
    Kernels.query, Kernels.key, Kernels.value]

/-- Two devices agree on the tokens below `n` and on the cache rows below `c`. What
else their memory holds is left over from before. -/
structure Agree (nl n c : Nat) (d d' : Device V) : Prop where
  dseq : ∀ i < n, d.dseq i = d'.dseq i
  cached : ∀ layer < nl, ∀ s < c, d.kc layer s = d'.kc layer s ∧ d.vc layer s = d'.vc layer s

/-- In the middle of a step at `pos`: the rows of the layers done are in as well, and the
hidden states agree. -/
structure Midway (nl n pos : Nat) (done : List Nat) (d d' : Device V) : Prop where
  agree : Agree nl n pos d d'
  current : ∀ layer ∈ done, d.kc layer pos = d'.kc layer pos ∧ d.vc layer pos = d'.vc layer pos
  hidden : d.buf .dx = d'.buf .dx

variable {n : Nat} {d d' : Device V}

theorem Agree.rows (h : Agree nl n pos d d') {layer : Nat} (hlayer : layer < nl) :
    d.rows layer pos = d'.rows layer pos := by
  apply List.map_congr_left
  intro s hs
  obtain ⟨hk, hv⟩ := h.cached layer hlayer s (List.mem_range.mp hs)
  rw [hk, hv]

theorem Midway.layer (hpos : pos < P) {done : List Nat} (h : Midway nl n pos done d d')
    {layer : Nat} (hlayer : layer < nl) :
    ∃ e e', runAll K P d (layerLaunches pos layer) = some e ∧
      runAll K P d' (layerLaunches pos layer) = some e' ∧
      Midway nl n pos (done ++ [layer]) e e' ∧ e.dpos = d.dpos ∧ e'.dpos = d'.dpos := by
  obtain ⟨e, hrun, hx, hk, hv, hseq, hdpos⟩ := layer_run (K := K) hpos d layer
  obtain ⟨e', hrun', hx', hk', hv', hseq', hdpos'⟩ := layer_run (K := K) hpos d' layer
  refine ⟨e, e', hrun, hrun', ?_, hdpos, hdpos'⟩
  have hrows : ∀ l s, (d.kc l s = d'.kc l s ∧ d.vc l s = d'.vc l s) →
      e.kc l s = e'.kc l s ∧ e.vc l s = e'.vc l s := by
    rintro l s ⟨hkc, hvc⟩
    simp only [hk, hk', hv, hv', h.hidden, Function.update_apply]
    constructor
    · split
      · subst l
        simp only [Function.update_apply, hkc]
      · exact hkc
    · split
      · subst l
        simp only [Function.update_apply, hvc]
      · exact hvc
  constructor
  · constructor
    · rw [hseq, hseq']
      exact h.agree.dseq
    · intro l hl s hs
      exact hrows l s (h.agree.cached l hl s hs)
  · intro l hl
    rcases List.mem_append.mp hl with hdone | hnew
    · exact hrows l pos (h.current l hdone)
    · obtain rfl := List.mem_singleton.mp hnew
      simp [hk, hk', hv, hv', h.hidden]
  · rw [hx, hx', h.hidden, h.agree.rows hlayer]

theorem Midway.layers (hpos : pos < P) {done : List Nat} (layers : List Nat)
    (h : Midway nl n pos done d d')
    (hlayers : ∀ layer ∈ layers, layer < nl) :
    ∃ e e', runAll K P d (layers.flatMap (layerLaunches pos)) = some e ∧
      runAll K P d' (layers.flatMap (layerLaunches pos)) = some e' ∧
      Midway nl n pos (done ++ layers) e e' ∧ e.dpos = d.dpos ∧ e'.dpos = d'.dpos := by
  induction layers generalizing done d d' with
  | nil => exact ⟨d, d', rfl, rfl, by simpa using h, rfl, rfl⟩
  | cons layer rest ih =>
      obtain ⟨e, e', hrun, hrun', hmid, hdpos, hdpos'⟩ :=
        h.layer (K := K) hpos (hlayers layer (by simp))
      obtain ⟨t, t', hrest, hrest', hend, htpos, htpos'⟩ :=
        ih hmid fun l hl => hlayers l (by simp [hl])
      refine ⟨t, t', ?_, ?_, by simpa using hend, htpos.trans hdpos, htpos'.trans hdpos'⟩
      · simp [runAll_append, hrun, hrest]
      · simp [runAll_append, hrun', hrest']

/-- A token goes through the layers of both devices alike. -/
theorem Agree.token (hpos : pos < P) (hn : pos < n) (h : Agree nl n pos d d') :
    ∃ e e', runAll K P d (tokenLaunches nl pos) = some e ∧
      runAll K P d' (tokenLaunches nl pos) = some e' ∧
      Agree nl n (pos + 1) e e' ∧ e.buf .dx = e'.buf .dx ∧
      e.dpos = d.dpos ∧ e'.dpos = d'.dpos := by
  have hstart : Midway nl n pos [] (d.set .dx (K.scale (K.embd (d.dseq pos))))
      (d'.set .dx (K.scale (K.embd (d'.dseq pos)))) := by
    refine ⟨⟨h.dseq, h.cached⟩, by simp, ?_⟩
    simp [Device.set_buf, h.dseq pos hn]
  obtain ⟨e, e', hrun, hrun', hend, hdpos, hdpos'⟩ :=
    hstart.layers (K := K) hpos (List.range nl) (by simp)
  refine ⟨e, e', ?_, ?_, ?_, hend.hidden, hdpos, hdpos'⟩
  · simpa [tokenLaunches, runAll, Launch.run, hpos] using hrun
  · simpa [tokenLaunches, runAll, Launch.run, hpos] using hrun'
  · refine ⟨hend.agree.dseq, ?_⟩
    intro layer hlayer s hs
    rcases Nat.lt_succ_iff_lt_or_eq.mp hs with hlt | rfl
    · exact hend.agree.cached layer hlayer s hlt
    · exact hend.current layer (by simpa using hlayer)

/-- The head writes the same next token on both. -/
theorem Agree.head (hpos : pos + 1 < P) (h : Agree nl (pos + 1) (pos + 1) d d')
    (hx : d.buf .dx = d'.buf .dx) :
    ∃ e e', runAll K P d (headLaunches pos) = some e ∧
      runAll K P d' (headLaunches pos) = some e' ∧
      Agree nl (pos + 2) (pos + 1) e e' ∧ e.dpos = d.dpos ∧ e'.dpos = d'.dpos := by
  simp only [headLaunches, runAll, Launch.run, Option.bind_some, if_pos hpos]
  refine ⟨_, _, rfl, rfl, ⟨?_, h.cached⟩, rfl, rfl⟩
  intro i hi
  simp only [Device.put, Device.set_buf, Function.update_apply, hx]
  split
  · rfl
  · exact h.dseq i (by omega)

/-- A round of the per-step loop and a launch of the captured graph, from devices that
agree: the graph's own position is where the loop's is. -/
theorem Agree.generate (hpos : pos + 1 < P) (h : Agree nl (pos + 1) pos d d')
    (hdpos : d'.dpos = pos) :
    ∃ e e', runAll K P d (tokenLaunches nl pos ++ headLaunches pos) = some e ∧
      runAll K P d' (generateLaunches nl) = some e' ∧
      Agree nl (pos + 2) (pos + 1) e e' ∧ e'.dpos = pos + 1 := by
  obtain ⟨t, t', hrun, hrun', htoken, hx, -, htpos⟩ :=
    h.token (K := K) (Nat.lt_of_succ_lt hpos) (Nat.lt_succ_self pos)
  obtain ⟨e, e', hhead, hhead', hend, -, hepos⟩ := htoken.head (K := K) hpos hx
  obtain ⟨ls, hgraph, hstill, hfrozen⟩ := generateLaunches_freeze nl pos
  have hdyn : runAll K P d' ls = some e' := by
    rw [← runAll_freeze hdpos hstill, hfrozen, runAll_append, hrun']
    exact hhead'
  refine ⟨e, { e' with dpos := e'.dpos + 1 }, ?_, ?_, ⟨hend.dseq, hend.cached⟩, ?_⟩
  · rw [runAll_append, hrun]
    exact hhead
  · rw [hgraph, runAll_append, hdyn]
    rfl
  · simp [hepos, htpos, hdpos]

end Twins

/-! ### The two loops -/

section Loops

variable {P} {nPrompt : Nat} (eosId : Int)

/-- From the last token of the prompt on, the two loops stay in step. -/
theorem stepLoop_replayLoop (count g : Nat) (d d' : Device V)
    (hcount : nPrompt + g + count = P) (hpos : d'.dpos + 1 = nPrompt + g)
    (h : Agree nl (nPrompt + g) (nPrompt + g - 1) d d') :
    ∃ e e' n, stepLoop K P nl nPrompt eosId count (nPrompt + g - 1) ⟨d, none⟩ (nPrompt + g) =
        some (⟨e, none⟩, n) ∧
      replayLoop K P (generateLaunches nl) nPrompt eosId count g ⟨d', none⟩ (nPrompt + g) =
        some (⟨e', none⟩, n) ∧
      n ≤ P ∧ ∀ i < n, e.dseq i = e'.dseq i := by
  induction count generalizing g d d' with
  | zero => exact ⟨d, d', nPrompt + g, rfl, rfl, by omega, h.dseq⟩
  | succ count ih =>
      obtain ⟨pos, hat⟩ : ∃ pos, nPrompt + g = pos + 1 := ⟨d'.dpos, hpos.symm⟩
      have hround : nPrompt + (g + 1) = pos + 2 := by omega
      rw [hat, Nat.add_sub_cancel] at h
      obtain ⟨e, e', hrun, hrun', hagree, hdpos⟩ :=
        h.generate (K := K) (P := P) (by omega) (by omega)
      rw [runAll_append] at hrun
      obtain ⟨t, htoken, hhead⟩ := Option.bind_eq_some_iff.mp hrun
      have hstop : stopsAt eosId e (pos + 1) = stopsAt eosId e' (pos + 1) := by
        simp [stopsAt, hagree.dseq (pos + 1) (by omega)]
      have hlate : ¬pos < nPrompt - 1 := by omega
      simp only [stepLoop, replayLoop, Stream.launchAll_execute, hat, Nat.add_sub_cancel, htoken,
        hhead, hrun', Option.map_some, Option.bind_some, if_neg hlate, hstop]
      split
      · exact ⟨e, e', pos + 2, rfl, rfl, by omega, hagree.dseq⟩
      · have hrest := ih (g + 1) e e' (by omega) (by omega) (by
          rw [hround]
          exact hagree)
        rw [hround] at hrest
        exact hrest

/-- The prompt goes in alike in both, up to its last token. -/
theorem ingest_agree (count pos : Nat) (d d' : Device V) (hlast : pos + count + 1 = nPrompt)
    (hP : nPrompt ≤ P) (h : Agree nl nPrompt pos d d') (rest : Nat) :
    ∃ e e', stepLoop K P nl nPrompt eosId (count + rest) pos ⟨d, none⟩ nPrompt =
        stepLoop K P nl nPrompt eosId rest (nPrompt - 1) ⟨e, none⟩ nPrompt ∧
      ingest K P nl count pos ⟨d', none⟩ = some ⟨e', none⟩ ∧
      Agree nl nPrompt (nPrompt - 1) e e' := by
  induction count generalizing pos d d' with
  | zero =>
      obtain rfl : pos = nPrompt - 1 := by omega
      exact ⟨d, d', by rw [Nat.zero_add], rfl, h⟩
  | succ count ih =>
      obtain ⟨t, t', hrun, hrun', hagree, -⟩ := h.token (K := K) (P := P) (by omega) (by omega)
      obtain ⟨e, e', hsteps, hingest, hend⟩ := ih (pos + 1) t t' (by omega) hagree
      have hearly : pos < nPrompt - 1 := by omega
      refine ⟨e, e', ?_, ?_, hend⟩
      · rw [Nat.add_right_comm, stepLoop]
        simp only [Stream.launchAll_execute, hrun, Option.map_some, Option.bind_some,
          if_pos hearly]
        exact hsteps
      · simp only [ingest, Stream.launchAll_execute, hrun', Option.map_some, Option.bind_some]
        exact hingest

/-- The two branches from devices that hold the same prompt. -/
theorem stepLoop_graphBranch (nGen : Nat) (hprompt : 1 ≤ nPrompt) (d d' : Device V)
    (h : ∀ i < nPrompt, d.dseq i = d'.dseq i) :
    ∃ e e' n, stepLoop K (nPrompt + nGen) nl nPrompt eosId (nPrompt + nGen - 1) 0 ⟨d, none⟩
        nPrompt = some (⟨e, none⟩, n) ∧
      graphBranch K (nPrompt + nGen) nl nPrompt nGen eosId ⟨d', none⟩ = some (⟨e', none⟩, n) ∧
      n ≤ nPrompt + nGen ∧ ∀ i < n, e.dseq i = e'.dseq i := by
  have hstart : Agree nl nPrompt 0 d d' := ⟨h, by intro layer _ s hs; omega⟩
  have hcount : nPrompt + nGen - 1 = (nPrompt - 1) + nGen := by omega
  obtain ⟨t, t', hsteps, hingest, hagree⟩ := ingest_agree K nl eosId (nPrompt - 1) 0 d d'
    (by omega) (Nat.le_add_right nPrompt nGen) hstart nGen
  obtain ⟨e, e', n, hloop, hreplay, hn, hseq⟩ := stepLoop_replayLoop K nl eosId (P := nPrompt + nGen)
    nGen 0 t { t' with dpos := nPrompt - 1 } rfl (Nat.sub_add_cancel hprompt)
    ⟨hagree.dseq, hagree.cached⟩
  refine ⟨e, e', n, ?_, ?_, hn, hseq⟩
  · rw [hcount, hsteps]
    exact hloop
  · simp only [graphBranch, hingest, Option.bind_some, Stream.beginCapture,
      Stream.launchAll_record, List.nil_append, Stream.endCapture, Option.getD_some]
    exact hreplay

end Loops

/-- Whatever the device memory held before, the captured-graph branch and the per-step
branch end without a fault, with the same sequence and the same length. A fault would be
an access at or beyond `nPrompt + nGen`. -/
theorem decode_graph_eq_steps (nPrompt nGen : Nat) (hprompt : 1 ≤ nPrompt) (eosId : Int)
    (mem mem' : Device V) (seq : Nat → Int) :
    ∃ out, decode K nl false nPrompt nGen eosId mem seq = some out ∧
      decode K nl true nPrompt nGen eosId mem' seq = some out := by
  -- both against a graph run on the second memory
  obtain ⟨e, e', n, hsteps, hgraph, hn, hseq⟩ := stepLoop_graphBranch K nl eosId nGen hprompt
    { mem with dseq := fun i => if i < nPrompt then seq i else mem.dseq i }
    { mem' with dseq := fun i => if i < nPrompt then seq i else mem'.dseq i }
    (by intro i hi; simp [hi])
  obtain ⟨t, t', n', hsteps', hgraph', -, hseq'⟩ := stepLoop_graphBranch K nl eosId nGen hprompt
    { mem' with dseq := fun i => if i < nPrompt then seq i else mem'.dseq i }
    { mem' with dseq := fun i => if i < nPrompt then seq i else mem'.dseq i }
    (by intro i hi; rfl)
  obtain ⟨rfl, rfl⟩ : e' = t' ∧ n = n' := by
    rw [hgraph] at hgraph'
    simpa using hgraph'
  refine ⟨(fun i => if i < n then e'.dseq i else seq i, n), ?_, ?_⟩
  · simp only [decode, Bool.false_and, Bool.false_eq_true, if_false, hsteps, Option.bind_some,
      if_pos hn]
    congr 2
    funext i
    split
    case isTrue hi => exact hseq i hi
    case isFalse => rfl
  · simp only [decode, Bool.true_and]
    split
    · simp only [hgraph, Option.bind_some, if_pos hn]
    · simp only [hsteps', Option.bind_some, if_pos hn]
      congr 2
      funext i
      split
      case isTrue hi => exact hseq' i hi
      case isFalse => rfl

/-- Kernels on numbers, whose attention sees every row. -/
def sumKernels : Kernels Int where
  embd tok := tok
  scale x := x
  scale_one _ := rfl
  rmsnorm _ x := x
  mm _ x := x
  rmsnormHead _ x := x
  rope _ x pos := x + pos
  attn q rows := rows.foldl (fun acc row => acc + row.1 * row.2) q
  add x y := x + y
  siluMul x y := x * y
  argmax x := x % 11

/-- Two layers, a prompt of two tokens, four more to generate, and memory that differs. -/
theorem decode_graph_eq_steps_sum :
    ∃ out, decode sumKernels 2 false 2 4 5 ⟨fun _ => 7, fun _ _ => 8, fun _ _ => 9, fun _ => 10, 11⟩
        (fun i => i) = some out ∧
      decode sumKernels 2 true 2 4 5 ⟨fun _ => 0, fun _ _ => 1, fun _ _ => 2, fun _ => 3, 4⟩
        (fun i => i) = some out :=
  decode_graph_eq_steps sumKernels 2 2 4 (by decide) 5 _ _ _

end ShannonPrime.Cuda
