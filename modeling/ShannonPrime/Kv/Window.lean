import Mathlib.Algebra.GroupWithZero.Nat
import ShannonPrime.Kv.Run
import ShannonPrime.Kv.Linked

/-!
The ring against the full cache. Both run the same prefills and decodes from an
empty cache; the ring keeps position `p` of a sliding-window layer at slot
`p % ringW`, the full cache at slot `p`. The reads agree for all kernels
exactly when the ring is wide enough for the window, which `gemma4_kv_open`
does not check, or the run is too short to wrap.
-/

namespace ShannonPrime.Kv

/-- A call that feeds the model, on a healthy device. -/
inductive Feed (T : Type*) where
  | prefill (toks : List T)
  | decode (nGen : Int)
  | decodeLogits (tok : T)
  | decodeBatch (toks : List T)

variable {T X R : Type*}

namespace Feed

def call : Feed T → Call T X R
  | .prefill toks => .prefill toks noFaults
  | .decode nGen => .decode nGen noFaults
  | .decodeLogits tok => .decodeLogits tok none
  | .decodeBatch toks => .decodeBatch toks noFaults

/-- The positions an accepted call writes. -/
def positions : Feed T → Nat
  | .prefill toks => toks.length
  | .decode nGen => nGen.toNat
  | .decodeLogits _ => 1
  | .decodeBatch toks => toks.length

/-- The checks of the call at position `dpos`. -/
def accepts (pmax dpos : Nat) : Feed T → Bool
  | .prefill toks => !toks.isEmpty && decide (dpos + toks.length ≤ pmax)
  | .decode nGen => decide (0 ≤ nGen) && decide (dpos + nGen.toNat < pmax)
  | .decodeLogits _ => decide (dpos + 1 < pmax)
  | .decodeBatch toks => !toks.isEmpty && decide (dpos + toks.length < pmax)

def ops : Feed T → List (Op T X R)
  | .prefill toks => .feed toks :: prefillTicks toks.length noFaults
  | .decode nGen => (List.range nGen.toNat).map fun _ => .tick true none
  | .decodeLogits tok => [.feed [tok], .tick true none]
  | .decodeBatch toks => toks.zipIdx.flatMap fun (tok, _) => [.feed [tok], .tick true none]

/-- The positions of a whole run. -/
def total (feeds : List (Feed T)) : Nat := (feeds.map positions).sum

/-- Every call of the run is accepted where it is made. -/
def allAccepted (pmax : Nat) : Nat → List (Feed T) → Bool
  | _, [] => true
  | dpos, c :: rest => c.accepts pmax dpos && allAccepted pmax (dpos + c.positions) rest

theorem queue_eq (K : Kernels T X R) (g : Geometry) (s : Session T X R) (c : Feed T)
    (hacc : c.accepts g.pmax s.dpos = true) :
    (c.call : Call T X R).queue K g s = .ok c.ops := by
  cases c with
  | prefill toks =>
      simp only [accepts, Bool.and_eq_true, decide_eq_true_eq, Bool.not_eq_true'] at hacc
      simp [call, ops, Call.queue, gemma4KvPrefill, hacc.1, hacc.2]
  | decode nGen =>
      simp only [accepts, Bool.and_eq_true, decide_eq_true_eq] at hacc
      have h1 : ¬nGen < 0 := by omega
      have h2 : ¬(g.pmax : Int) ≤ s.dpos + nGen := by omega
      simp [call, ops, Call.queue, gemma4KvDecode, h1, h2, noFaults]
  | decodeLogits tok =>
      simp only [accepts, decide_eq_true_eq] at hacc
      have h1 : ¬g.pmax ≤ s.dpos + 1 := by omega
      simp [call, ops, Call.queue, gemma4KvDecodeLogits, h1]
  | decodeBatch toks =>
      simp only [accepts, Bool.and_eq_true, decide_eq_true_eq, Bool.not_eq_true'] at hacc
      have h1 : ¬g.pmax ≤ s.dpos + toks.length := by omega
      simp [call, ops, Call.queue, gemma4KvDecodeBatch, hacc.1, h1, noFaults]

end Feed

/-- Token copies and steps on a healthy device. -/
def Op.isHealthy : Op T X R → Bool
  | .feed _ => true
  | .tick _ f => f.isNone
  | _ => false

def Op.ticks : Op T X R → Nat
  | .tick _ _ => 1
  | _ => 0

theorem Feed.ops_healthy (c : Feed T) :
    ∀ op ∈ (c.ops : List (Op T X R)), op.isHealthy = true := by
  intro op hop
  cases c with
  | prefill toks =>
      rcases List.mem_cons.mp hop with rfl | hop
      · rfl
      · obtain ⟨i, _, rfl⟩ := List.mem_map.mp hop
        rfl
  | decode nGen =>
      obtain ⟨i, _, rfl⟩ := List.mem_map.mp hop
      rfl
  | decodeLogits tok =>
      simp only [ops, List.mem_cons, List.not_mem_nil, or_false] at hop
      rcases hop with rfl | rfl <;> rfl
  | decodeBatch toks =>
      obtain ⟨⟨tok, i⟩, _, hop⟩ := List.mem_flatMap.mp hop
      simp only [List.mem_cons, List.not_mem_nil, or_false] at hop
      rcases hop with rfl | rfl <;> rfl

theorem Feed.ops_ticks (c : Feed T) :
    ((c.ops : List (Op T X R)).map Op.ticks).sum = c.positions := by
  cases c with
  | prefill toks => simp [ops, positions, prefillTicks, Op.ticks, Function.comp_def]
  | decode nGen => simp [ops, positions, Op.ticks]
  | decodeLogits tok => simp [ops, positions, Op.ticks]
  | decodeBatch toks =>
      have hmap : ∀ l : List (T × Nat), ((l.flatMap fun (tok, _) =>
          ([.feed [tok], .tick true none] : List (Op T X R))).map Op.ticks).sum = l.length := by
        intro l
        induction l with
        | nil => rfl
        | cons entry rest ih =>
            simp only [List.flatMap_cons, List.map_append, List.sum_append, ih,
              List.length_cons]
            simp [Op.ticks]
            omega
      simp [ops, positions, hmap]

/-- The same session laid out without a ring. -/
def Geometry.full (g : Geometry) : Geometry :=
  { g with ringW := 0, ringW_le := Nat.zero_le _ }

theorem Geometry.full_layers (g : Geometry) : SameLayers g g.full := ⟨rfl, rfl, rfl, rfl⟩

theorem Geometry.full_slot (g : Geometry) (l p : Nat) : g.full.slot l p = p := by
  simp [Geometry.slot, Geometry.isRinged, Geometry.full]

section Healthy

variable (K : Kernels T X R) (g : Geometry)

theorem tick_healthy (head : Bool) (s : Session T X R) : (tick K g head none s).err = none := by
  have hstep := g4KvStep_err K g head none s (fun _ _ => rfl)
  simp [tick, hstep, Fault.atSync]

/-- A healthy operation returns 0 and moves by its ticks. -/
theorem healthy_op (op : Op T X R) (hop : op.isHealthy = true) (s : Session T X R) :
    (runOp K g op s).err = none ∧ (runOp K g op s).session.dpos = s.dpos + op.ticks := by
  cases op <;> simp only [Op.isHealthy, Bool.false_eq_true, Option.isNone_iff_eq_none] at hop
  case feed toks => exact ⟨rfl, rfl⟩
  case tick head f =>
    subst hop
    have hok := tick_healthy K g head s
    obtain ⟨row, dseq, hsession, _⟩ := tick_effect K g head none s hok
    refine ⟨hok, ?_⟩
    simp [runOp, hsession, Session.advance, Session.withSeq, Op.ticks]

theorem healthy_ops (ops : List (Op T X R)) (hops : ∀ op ∈ ops, op.isHealthy = true)
    (s : Session T X R) :
    (runOps K g ops s).err = none ∧
      (runOps K g ops s).session.dpos = s.dpos + (ops.map Op.ticks).sum := by
  induction ops generalizing s with
  | nil => exact ⟨rfl, rfl⟩
  | cons op rest ih =>
      obtain ⟨herr, hdpos⟩ := healthy_op K g op (hops op (by simp)) s
      obtain ⟨herr', hdpos'⟩ := ih (fun op' hop' => hops op' (List.mem_cons_of_mem _ hop'))
        (runOp K g op s).session
      simp only [runOps, herr, List.map_cons, List.sum_cons]
      exact ⟨herr', by rw [hdpos', hdpos]; omega⟩

/-- An accepted feed returns 0 and writes its positions. -/
theorem Feed.exec_ok (c : Feed T) (s : Session T X R)
    (hacc : c.accepts g.pmax s.dpos = true) :
    c.call.exec K g s = runOps K g c.ops s ∧
      (runOps K g c.ops s).session.dpos = s.dpos + c.positions := by
  have hops := healthy_ops K g c.ops c.ops_healthy s
  rw [Feed.ops_ticks] at hops
  exact ⟨by simp only [Call.exec, c.queue_eq K g s hacc], hops.2⟩

end Healthy

/-- Position `p` of a ringed layer, while the ring still holds it, against slot
`p` of the full cache. -/
def ringLinks (g : Geometry) (dpos : Nat) : Links := fun l q q' =>
  ∃ p, p < dpos ∧ (g.isRinged l = true → dpos ≤ p + g.ringW) ∧ q = g.slot l p ∧ q' = p

/-- Two runs of the same feeds, one on the ring and one on the full cache. Every
session the ring has passed through holds, at the slots the ring has not yet
overwritten, the rows of the full cache. -/
structure RingSim (g : Geometry) (w w' : Watch T X R) : Prop where
  linked : Linked g (ringLinks g w.session.dpos) w.session w'.session
  dseq : w'.session.dseq = w.session.dseq
  inj : w.session.inj = none
  inj' : w'.session.inj = none
  passed : ∀ v ∈ w.session :: w.past, v.dpos ≤ w.session.dpos ∧
    ∀ l, g.isOwner l → ∀ p, p < v.dpos → (g.isRinged l = true → v.dpos ≤ p + g.ringW) →
      v.kv l (g.slot l p) = w'.session.kv l p

/-- The first `n` positions never need a slot the ring has given away: no ring,
a ring as wide as the window, a run that does not wrap, or no sliding layer. -/
def Geometry.Suffices (g : Geometry) (n : Nat) : Prop :=
  g.ringW = 0 ∨ g.sw ≤ g.ringW ∨ n ≤ g.ringW ∨ ∀ l, l < g.nl → g.isGlobal l = true

theorem Geometry.Suffices.mono {g : Geometry} {m n : Nat} (h : g.Suffices n) (hle : m ≤ n) :
    g.Suffices m := by
  rcases h with h | h | h | h
  · exact Or.inl h
  · exact Or.inr (Or.inl h)
  · exact Or.inr (Or.inr (Or.inl (by omega)))
  · exact Or.inr (Or.inr (Or.inr h))

section Refinement

variable (K : Kernels T X R) {g : Geometry}

/-- The links a step keeps: those of the slots it does not overwrite. -/
def stepLinks (g : Geometry) (dpos : Nat) : Links := fun l q q' =>
  ∃ p, p < dpos ∧ (g.isRinged l = true → dpos < p + g.ringW) ∧ q = g.slot l p ∧ q' = p

theorem stepLinks_fit {dpos : Nat} (hcov : g.Suffices (dpos + 1)) :
    (stepLinks g dpos).Fit g g.full dpos := by
  constructor
  · rintro l q q' ⟨p, hp, hroom, hq, hq'⟩
    rw [hq, hq', g.full_slot]
    constructor
    · intro heq
      by_cases hringed : g.isRinged l = true
      · have hlt := hroom hringed
        simp only [Geometry.slot, hringed, if_true] at heq
        have hmod : (dpos - p) % g.ringW = 0 := Nat.sub_mod_eq_zero_of_mod_eq heq.symm
        rw [Nat.mod_eq_of_lt (by omega)] at hmod
        omega
      · simpa [Geometry.slot, hringed] using heq
    · intro heq
      rw [heq]
  · intro l hl p hp hne
    obtain ⟨hle, hwin⟩ := g.mem_window.mp hp
    refine Or.inl ⟨p, by omega, ?_, (g.slot_source hl p).symm, g.full_slot l p⟩
    intro hringed
    have hclass := (g.source_spec hl).2.2
    simp only [Geometry.isRinged, Bool.and_eq_true, decide_eq_true_eq, hclass,
      Bool.not_eq_true'] at hringed
    have hin := hwin hringed.2
    rcases hcov with h0 | hsw | hshort | hall
    · omega
    · omega
    · omega
    · simp [hall l hl] at hringed

/-- One healthy operation on both caches. -/
theorem RingSim.op {w w' : Watch T X R} (h : RingSim g w w') (op : Op T X R)
    (hop : op.isHealthy = true) (hcov : 0 < op.ticks → g.Suffices (w.session.dpos + 1)) :
    (runOp K g op w.session).reads = (runOp K g.full op w'.session).reads ∧
      RingSim g (w.op K g op) (w'.op K g.full op) := by
  cases op <;> simp only [Op.isHealthy, Bool.false_eq_true, Option.isNone_iff_eq_none] at hop
  case feed toks =>
    refine ⟨rfl, ⟨⟨h.linked.dpos, h.linked.bxOn, h.linked.rows⟩, ?_, h.inj, h.inj', ?_⟩⟩
    · simp only [Watch.op, runOp, Session.feed, h.dseq, h.linked.dpos]
    · intro v hv
      rcases List.mem_cons.mp hv with rfl | hv
      · exact h.passed w.session (by simp)
      · exact h.passed v hv
  case tick head f =>
    subst hop
    have hok := tick_healthy K g head w.session
    have hok' := tick_healthy K g.full head w'.session
    obtain ⟨row, dseq, hsession, _⟩ := tick_effect K g head none w.session hok
    obtain ⟨row', dseq', hsession', _⟩ := tick_effect K g.full head none w'.session hok'
    have hdpos : (tick K g head none w.session).session.dpos = w.session.dpos + 1 := by
      simp [hsession, Session.advance, Session.withSeq]
    have hfull : ∀ l p, p < w.session.dpos →
        (tick K g.full head none w'.session).session.kv l p = w'.session.kv l p := by
      intro l p hp
      have hne : p ≠ w'.session.dpos := by rw [h.linked.dpos]; omega
      simp [hsession', Session.advance, Session.withSeq, record_kv, g.full_slot, hne]
    have hweak : Linked g (stepLinks g w.session.dpos) w.session w'.session := by
      refine ⟨h.linked.dpos, h.linked.bxOn, fun l howner q q' hlink => ?_⟩
      obtain ⟨p, hp, hroom, hq, hq'⟩ := hlink
      exact h.linked.rows l howner q q'
        ⟨p, hp, fun hringed => Nat.le_of_lt (hroom hringed), hq, hq'⟩
    obtain ⟨_, hreads, _, hseq, hdone⟩ := tick_linked K g.full_layers head none w.session
      w'.session (stepLinks_fit (hcov (by simp [Op.ticks]))) hweak (by rw [h.dseq])
      (by rw [h.inj, h.inj'])
    obtain ⟨hstored, _⟩ := hdone (g4KvStep_err K g head none w.session (fun _ _ => rfl))
    have hlinked : Linked g (ringLinks g (w.session.dpos + 1))
        (tick K g head none w.session).session (tick K g.full head none w'.session).session := by
      refine ⟨hstored.dpos, hstored.bxOn, fun l howner q q' hlink => ?_⟩
      obtain ⟨p, hp, hroom, hq, hq'⟩ := hlink
      refine hstored.rows l howner q q' ?_
      by_cases hlive : p = w.session.dpos
      · simp only [Geometry.isOwner, decide_eq_true_eq] at howner
        exact Or.inr ⟨howner.2, by rw [hq, hlive], by rw [hq', hlive, g.full_slot]⟩
      · exact Or.inl ⟨p, by omega, fun hringed => by have := hroom hringed; omega, hq, hq'⟩
    refine ⟨hreads, ?_, ?_, ?_, ?_, ?_⟩
    · simp only [Watch.op, runOp, hdpos]
      exact hlinked
    · exact funext fun q => (hseq q (by rw [h.dseq])).symm
    · simp [Watch.op, runOp, hsession, Session.advance, Session.withSeq, Session.disarm]
    · simp [Watch.op, runOp, hsession', Session.advance, Session.withSeq, Session.disarm]
    · intro v hv
      simp only [Watch.op, runOp] at hv ⊢
      rw [hdpos]
      rcases List.mem_cons.mp hv with rfl | hv
      · rw [hdpos]
        exact ⟨Nat.le_refl _, fun l howner p hp hroom =>
          hlinked.rows l howner _ _ ⟨p, hp, hroom, rfl, rfl⟩⟩
      · obtain ⟨hle, hrows⟩ := h.passed v hv
        refine ⟨by omega, fun l howner p hp hroom => ?_⟩
        rw [hfull l p (by omega)]
        exact hrows l howner p hp hroom

theorem RingSim.ops {w w' : Watch T X R} (h : RingSim g w w') (ops : List (Op T X R))
    (hops : ∀ op ∈ ops, op.isHealthy = true)
    (hcov : g.Suffices (w.session.dpos + (ops.map Op.ticks).sum)) :
    (runOps K g ops w.session).reads = (runOps K g.full ops w'.session).reads ∧
      RingSim g (w.ops K g ops) (w'.ops K g.full ops) := by
  induction ops generalizing w w' with
  | nil => exact ⟨rfl, h⟩
  | cons op rest ih =>
      have hop := hops op (by simp)
      simp only [List.map_cons, List.sum_cons] at hcov
      obtain ⟨hreads, hnext⟩ := h.op K op hop (fun hpos => hcov.mono (by omega))
      obtain ⟨herr, hdpos⟩ := healthy_op K g op hop w.session
      obtain ⟨herr', _⟩ := healthy_op K g.full op hop w'.session
      obtain ⟨hreads', hrest⟩ := ih hnext
        (fun op' hop' => hops op' (List.mem_cons_of_mem _ hop'))
        (by simp only [Watch.op, hdpos]; rw [Nat.add_assoc]; exact hcov)
      simp only [runOps, Watch.ops, herr, herr']
      exact ⟨congrArg₂ _ hreads hreads', hrest⟩

/-- A call of a watched run, when it is an accepted feed. -/
theorem Feed.call_eq (g : Geometry) (c : Feed T) (w : Watch T X R)
    (hacc : c.accepts g.pmax w.session.dpos = true) :
    w.call K g c.call = w.ops K g c.ops ∧
      (w.ops K g c.ops).session.dpos = w.session.dpos + c.positions := by
  refine ⟨by simp only [Watch.call, c.queue_eq K g w.session hacc], ?_⟩
  rw [Watch.ops_session]
  exact (c.exec_ok K g w.session hacc).2

theorem RingSim.run (feeds : List (Feed T)) {w w' : Watch T X R} (h : RingSim g w w')
    (hacc : Feed.allAccepted g.pmax w.session.dpos feeds = true)
    (hcov : g.Suffices (w.session.dpos + Feed.total feeds)) :
    runReads K g (feeds.map Feed.call) w.session =
        runReads K g.full (feeds.map Feed.call) w'.session ∧
      RingSim g (w.run K g (feeds.map Feed.call)) (w'.run K g.full (feeds.map Feed.call)) := by
  induction feeds generalizing w w' with
  | nil => exact ⟨rfl, h⟩
  | cons c rest ih =>
      simp only [Feed.allAccepted, Bool.and_eq_true] at hacc
      have hacc' : c.accepts g.full.pmax w'.session.dpos = true := by
        rw [h.linked.dpos]; exact hacc.1
      simp only [Feed.total, List.map_cons, List.sum_cons] at hcov
      obtain ⟨hcall, hdpos⟩ := c.call_eq K g w hacc.1
      obtain ⟨hcall', _⟩ := c.call_eq K g.full w' hacc'
      obtain ⟨hreads, hnext⟩ := h.ops K c.ops c.ops_healthy
        (by rw [Feed.ops_ticks]; exact hcov.mono (by omega))
      obtain ⟨hreads', hrest⟩ := ih hnext (by rw [hdpos]; exact hacc.2)
        (by rw [hdpos, Nat.add_assoc]; exact hcov)
      simp only [List.map_cons, runReads, Watch.run, List.foldl_cons] at hreads' hrest ⊢
      rw [hcall, hcall', (c.exec_ok K g w.session hacc.1).1,
        (c.exec_ok K g.full w'.session hacc').1, ← Watch.ops_session, ← Watch.ops_session]
      exact ⟨congrArg₂ _ hreads hreads', hrest⟩

/-- The invariant rule for a run of feeds. -/
theorem Feed.run_invariant (g : Geometry) (P : Watch T X R → Prop)
    (hop : ∀ op : Op T X R, op.isHealthy = true → ∀ w, P w → P (w.op K g op))
    (feeds : List (Feed T)) (w : Watch T X R)
    (hacc : Feed.allAccepted g.pmax w.session.dpos feeds = true) (hw : P w) :
    P (w.run K g (feeds.map Feed.call)) ∧
      (w.run K g (feeds.map Feed.call)).session.dpos = w.session.dpos + Feed.total feeds := by
  induction feeds generalizing w with
  | nil => exact ⟨hw, rfl⟩
  | cons c rest ih =>
      simp only [Feed.allAccepted, Bool.and_eq_true] at hacc
      obtain ⟨hcall, hdpos⟩ := c.call_eq K g w hacc.1
      have hP : P (w.ops K g c.ops) := Watch.ops_invariant K g P c.ops
        (fun op hmem w' hw' _ => hop op (c.ops_healthy op hmem) w' hw') w
        (healthy_ops K g c.ops c.ops_healthy w.session).1 hw
      obtain ⟨hrest, htotal⟩ := ih (w.ops K g c.ops) (by rw [hdpos]; exact hacc.2) hP
      simp only [Watch.run, List.map_cons, List.foldl_cons] at hrest htotal ⊢
      rw [hcall]
      refine ⟨hrest, ?_⟩
      rw [htotal, hdpos, Feed.total, Feed.total, List.map_cons, List.sum_cons, Nat.add_assoc]

/-- The ring run reads what the full run reads, step by step and layer by layer,
and every session on the way holds, at slot `p % ringW`, the row of each
position `p` of the last window. The full cache never overwrites a row in such a
run, so its slot `p` is the row computed for `p`. -/
structure RingExact (g : Geometry) (cs : List (Call T X R)) (w : Watch T X R) : Prop where
  reads : runReads K g cs w.session = runReads K g.full cs w.session
  slots : ∀ v ∈ (w.run K g cs).session :: (w.run K g cs).past,
    ∀ l, l < g.nl → g.isGlobal l = false → ∀ p, p < v.dpos → v.dpos ≤ p + g.sw →
      v.kv (g.source l) (g.slot l p) = (w.run K g.full cs).session.kv (g.source l) p

theorem ringExact_of_suffices (feeds : List (Feed T)) (dseq : Nat → T)
    (kv jkv : Nat → Nat → R) (hacc : Feed.allAccepted g.pmax 0 feeds = true)
    (hcov : g.Suffices (Feed.total feeds)) :
    RingExact K g (feeds.map Feed.call) (Watch.opened dseq kv jkv : Watch T X R) := by
  have hstart : RingSim g (Watch.opened dseq kv jkv : Watch T X R)
      (Watch.opened dseq kv jkv) := by
    refine ⟨⟨rfl, rfl, ?_⟩, rfl, rfl, rfl, ?_⟩
    · rintro l _ q q' ⟨p, hp, _⟩
      exact absurd hp (Nat.not_lt_zero p)
    · intro v hv
      rw [List.mem_singleton.mp hv]
      exact ⟨Nat.le_refl _, fun l _ p hp => absurd hp (Nat.not_lt_zero p)⟩
  obtain ⟨hreads, hsim⟩ := hstart.run K feeds hacc (by simpa using hcov)
  obtain ⟨_, hdpos⟩ := Feed.run_invariant K g (fun _ => True) (fun _ _ _ _ => trivial) feeds
    (Watch.opened dseq kv jkv) hacc trivial
  refine ⟨hreads, ?_⟩
  intro v hv l hl hlocal p hp hwin
  obtain ⟨hle, hrows⟩ := hsim.passed v hv
  obtain ⟨howner, _, hclass⟩ := g.source_spec hl
  have hslot := hrows (g.source l) howner p hp ?_
  · rw [g.slot_source hl] at hslot
    exact hslot
  · intro hringed
    have hring : 0 < g.ringW := by
      simp only [Geometry.isRinged, Bool.and_eq_true, decide_eq_true_eq] at hringed
      exact hringed.1
    rw [Watch.opened_dpos, Nat.zero_add] at hdpos
    rcases hcov with h0 | hsw | hshort | hall
    · omega
    · omega
    · rw [hdpos] at hle
      omega
    · simp [hall l hl] at hlocal

end Refinement

section Necessity

variable {g : Geometry}

/-- A tick of the position-naming kernels stores the position. -/
theorem posKernels_tick (tok : T) (head : Bool) (s : Session T Unit Nat) {l : Nat}
    (howner : g.isOwner l = true) (q : Nat) :
    (tick (posKernels tok) g head none s).session.dpos = s.dpos + 1 ∧
    (tick (posKernels tok) g head none s).session.kv l q =
      if q = g.slot l s.dpos then s.dpos else s.kv l q := by
  obtain ⟨row, dseq, hsession, hrow, _, hown⟩ :=
    tick_effect (posKernels tok) g head none s (tick_healthy (posKernels tok) g head s)
  obtain ⟨r, hr⟩ := Option.isSome_iff_exists.mp ((hrow l).trans howner)
  obtain ⟨_, hpos⟩ := hown l r hr
  refine ⟨by simp [hsession, Session.advance, Session.withSeq], ?_⟩
  simp only [hsession, Session.advance, Session.withSeq, record_kv, slide_dpos, disarm_dpos, hr,
    Option.getD_some, hpos, slide_kv, disarm_kv]
  rfl

/-- Slot 0 of a ring goes to position `ringW`. -/
theorem ring_overwrites (tok : T) {o : Nat} (howner : g.isOwner o = true)
    (hringed : g.isRinged o = true) (op : Op T Unit Nat) (hop : op.isHealthy = true)
    (w : Watch T Unit Nat)
    (h : g.ringW < w.session.dpos →
      ∃ v ∈ w.session :: w.past, v.dpos = g.ringW + 1 ∧ v.kv o 0 = g.ringW) :
    g.ringW < (w.op (posKernels tok) g op).session.dpos →
      ∃ v ∈ (w.op (posKernels tok) g op).session :: (w.op (posKernels tok) g op).past,
        v.dpos = g.ringW + 1 ∧ v.kv o 0 = g.ringW := by
  intro hpast
  cases op <;> simp only [Op.isHealthy, Bool.false_eq_true, Option.isNone_iff_eq_none] at hop
  case feed toks =>
    obtain ⟨v, hv, hrow⟩ := h hpast
    exact ⟨v, List.mem_cons_of_mem _ hv, hrow⟩
  case tick head f =>
    subst hop
    obtain ⟨hdpos, hkv⟩ := posKernels_tick tok head w.session howner 0
    simp only [Watch.op, runOp] at hpast ⊢
    rw [hdpos] at hpast
    by_cases hnow : w.session.dpos = g.ringW
    · refine ⟨_, List.mem_cons_self, by rw [hdpos, hnow], ?_⟩
      rw [hkv, hnow]
      simp [Geometry.slot, hringed]
    · obtain ⟨v, hv, hrow⟩ := h (by omega)
      exact ⟨v, List.mem_cons_of_mem _ hv, hrow⟩

/-- The full cache keeps every position at its own slot. -/
theorem full_keeps (tok : T) {o : Nat} (howner : g.isOwner o = true) (op : Op T Unit Nat)
    (hop : op.isHealthy = true) (w : Watch T Unit Nat)
    (h : ∀ p, p < w.session.dpos → w.session.kv o p = p) :
    ∀ p, p < (w.op (posKernels tok) g.full op).session.dpos →
      (w.op (posKernels tok) g.full op).session.kv o p = p := by
  cases op <;> simp only [Op.isHealthy, Bool.false_eq_true, Option.isNone_iff_eq_none] at hop
  case feed toks => exact h
  case tick head f =>
    subst hop
    have howner' : g.full.isOwner o = true := howner
    intro p hp
    obtain ⟨hdpos, hkv⟩ := posKernels_tick tok head w.session howner' p
    simp only [Watch.op, runOp] at hp ⊢
    rw [hdpos] at hp
    rw [hkv, g.full_slot]
    split
    case isTrue hlive => exact hlive.symm
    case isFalse hlive => exact h p (by omega)

/-- For every geometry `gemma4_kv_open` accepts and every accepted run of feeds
from an empty cache: the ring reads what the full cache reads, whatever the
kernels, exactly when the ring suffices for the run. -/
theorem ring_reads_exact_iff [Inhabited T] (g : Geometry) (feeds : List (Feed T))
    (hacc : Feed.allAccepted g.pmax 0 feeds = true) :
    (∀ (X R : Type) (K : Kernels T X R) (dseq : Nat → T) (kv jkv : Nat → Nat → R),
      RingExact K g (feeds.map Feed.call) (Watch.opened dseq kv jkv)) ↔
    g.Suffices (Feed.total feeds) := by
  constructor
  · intro hexact
    by_contra hcov
    simp only [Geometry.Suffices, not_or, not_forall, Bool.not_eq_true] at hcov
    obtain ⟨hring, hsw, hlong, l, hl, hlocal⟩ := hcov
    obtain ⟨howner, _, hclass⟩ := g.source_spec hl
    have hringed : g.isRinged (g.source l) = true := by
      simp only [Geometry.isRinged, hclass, hlocal, Bool.not_false, Bool.and_true,
        decide_eq_true_eq]
      omega
    have hslots := (hexact Unit Nat (posKernels default) (fun _ => default)
      (fun _ _ => 0) (fun _ _ => 0)).slots
    obtain ⟨hold, hdpos⟩ := Feed.run_invariant (posKernels default) g _
      (fun op hop w => ring_overwrites default howner hringed op hop w) feeds
      (Watch.opened (fun _ => default) (fun _ _ => 0) (fun _ _ => 0)) hacc
      (fun hpos => absurd hpos (Nat.not_lt_zero _))
    obtain ⟨hkeep, hdpos'⟩ := Feed.run_invariant (posKernels default) g.full _
      (fun op hop w => full_keeps default howner op hop w) feeds
      (Watch.opened (fun _ => default) (fun _ _ => 0) (fun _ _ => 0)) hacc
      (fun p hp => absurd hp (Nat.not_lt_zero _))
    rw [Watch.opened_dpos, Nat.zero_add] at hdpos hdpos'
    obtain ⟨v, hv, hvpos, hvrow⟩ := hold (by omega)
    have hslot := hslots v hv l hl hlocal 0 (by omega) (by omega)
    rw [hkeep 0 (by omega)] at hslot
    simp only [Geometry.slot, Nat.zero_mod, ite_self] at hslot
    omega
  · intro hcov X R K dseq kv jkv
    exact ringExact_of_suffices K feeds dseq kv jkv hacc hcov

end Necessity

/-- Three tokens through a ring of four with a window of two. -/
theorem ring_reads_exact_wide :
    RingExact (posKernels 7) (soloGeometry 2 8 4 4 (by decide) (by decide))
      ([Feed.prefill [7, 7, 7], Feed.decode 2].map Feed.call)
      (Watch.opened (fun _ => 0) (fun _ _ => 100) (fun _ _ => 200)) :=
  (ring_reads_exact_iff (soloGeometry 2 8 4 4 (by decide) (by decide))
    [Feed.prefill [7, 7, 7], Feed.decode 2] (by decide)).mpr
    (Or.inr (Or.inl (by decide))) Unit Nat (posKernels 7) (fun _ => 0) (fun _ _ => 100)
    (fun _ _ => 200)

/-- A window of four on a ring of two, which `gemma4_kv_open` accepts: after three
tokens the last attention reads the rows of positions 2, 1, 2 where the full
cache reads 0, 1, 2. -/
theorem narrow_ring_reads_wrong :
    let g := soloGeometry 4 8 2 4 (by decide) (by decide)
    let w := (Watch.opened (fun _ => 0) (fun _ _ => 100) (fun _ _ => 200) : Watch Nat Unit Nat)
    let cs := [Feed.prefill [7, 7, 7]].map Feed.call
    (∀ hc, gemma4KvOpen ⟨1, 2, 1, 4⟩ hc (some 2) (some 4) 8 = .ok g) ∧
      Feed.allAccepted g.pmax 0 [Feed.prefill [7, 7, 7]] = true ∧
      (runReads (posKernels 7) g cs w.session).getLast? = some [2, 1, 2] ∧
      (runReads (posKernels 7) g.full cs w.session).getLast? = some [0, 1, 2] ∧
      ¬RingExact (posKernels 7) g cs w := by
  intro g w cs
  have hring : (runReads (posKernels 7) g cs w.session).getLast? = some [2, 1, 2] := by
    decide
  have hfull : (runReads (posKernels 7) g.full cs w.session).getLast? = some [0, 1, 2] := by
    decide
  refine ⟨fun hc => ?_, by decide, hring, hfull, ?_⟩
  · exact gemma4KvOpen_solo 4 8 2 4 (by decide) (by decide) (by decide) hc
  · intro hexact
    rw [hexact.reads, hfull] at hring
    exact absurd hring (by decide)

end ShannonPrime.Kv
