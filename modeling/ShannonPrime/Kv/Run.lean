import ShannonPrime.Kv.Step

/-!
Runs of calls, watched. The watch keeps the sessions the run has passed through
and the fence: the position down to which the journal entries still belong to
their positions. The fence moves up with a commit, a reset, a batched fill and
an automatic slide, since a slide moves `commitPos` and leaves the entries in
place; a rewind below it takes it down.
-/

namespace ShannonPrime.Kv

variable {T X R : Type*}

/-- A session under observation: `past` holds the earlier sessions, the newest
first. -/
structure Watch (T X R : Type*) where
  session : Session T X R
  fence : Nat
  past : List (Session T X R)

/-- The watch over a session just opened. -/
def Watch.opened (dseq : Nat → T) (kv jkv : Nat → Nat → R) : Watch T X R :=
  ⟨Session.opened dseq kv jkv, 0, []⟩

@[simp] theorem Watch.opened_dpos (dseq : Nat → T) (kv jkv : Nat → Nat → R) :
    (Watch.opened dseq kv jkv : Watch T X R).session.dpos = 0 := rfl

/-- The fence after an operation on `s`. -/
def fenceAfter (g : Geometry) (s : Session T X R) (fence : Nat) : Op T X R → Nat
  | .tick _ _ => if s.slides g then s.dpos else fence
  | .peek _ => if s.slides g then s.dpos else fence
  | .undo d => min fence (s.dpos - d)
  | .commit => s.dpos
  | .reset => 0
  | .resetCold => 0
  | .sink toks => toks.length
  | _ => fence

/-- The last session, the present one included, that stood at position `q`. -/
def Watch.lastAt (w : Watch T X R) (q : Nat) : Option (Session T X R) :=
  (w.session :: w.past).find? fun s => s.dpos == q

/-- A guard of a verb, read backwards from its success. -/
theorem ite_error_eq_ok {ε α : Type*} {p : Prop} [Decidable p] {e : ε}
    {x : Except ε α} {y : α} :
    (if p then .error e else x) = .ok y ↔ ¬p ∧ x = .ok y := by
  by_cases hp : p <;> simp [hp]

/-- The operations that need no check of their own. -/
def Op.isPlain : Op T X R → Bool
  | .undo _ | .put _ | .sink _ => false
  | _ => true

/-- The operations of the forward verbs, undo apart. -/
def Op.isForward : Op T X R → Bool
  | .feed _ | .tick _ _ | .commit | .reset => true
  | _ => false

/-- The verbs of the journal contract. -/
def Call.isForward : Call T X R → Bool
  | .prefill _ _ | .decode _ _ | .decodeLogits _ _ | .decodeBatch _ _ => true
  | .rewind _ | .commit | .reset => true
  | _ => false

/-- The verbs that queue only plain operations. -/
def Call.isPlain : Call T X R → Bool
  | .rewind _ | .replay _ _ _ | .prefillBatched _ _ => false
  | _ => true

/-- Switching the byte-exact mode is left to the daemon's turns. -/
def Op.setsMode : Op T X R → Bool
  | .byteexact _ => true
  | _ => false

/-- The operations that change rows only by stepping the model, or not at all. -/
def Op.mints : Op T X R → Bool
  | .feed _ | .arm _ | .tick _ _ | .room _ | .peek _ | .commit | .reset | .resetCold => true
  | _ => false

/-- The verbs that change rows only by stepping the model, or not at all. -/
def Call.mints : Call T X R → Bool
  | .prefill _ _ | .decode _ _ | .decodeLogits _ _ | .decodeBatch _ _ => true
  | .injectTokens _ atten _ => !atten
  | .injectSeq _ _ _ | .readGlobalQ _ _ | .commit | .reset | .resetCold => true
  | _ => false

section Queues

variable (K : Kernels T X R) (g : Geometry)

/-- What a plain verb queues, verb by verb. -/
theorem plain_queue (s : Session T X R) (c : Call T X R) (hc : c.isPlain = true)
    (ops : List (Op T X R)) (hqueue : c.queue K g s = .ok ops) :
    ∀ op ∈ ops, op.isPlain = true ∧ (c.isForward = true → op.isForward = true) ∧
      (c.setsMode = false → op.setsMode = false) ∧ (c.mints = true → op.mints = true) := by
  cases c <;> simp only [Call.isPlain, Bool.false_eq_true] at hc <;>
    simp only [Call.queue, gemma4KvPrefill, gemma4KvDecode, gemma4KvDecodeLogits,
      gemma4KvDecodeBatch, gemma4KvCommit, gemma4KvReset, gemma4KvResetCold,
      gemma4KvInjectTokens, gemma4KvInjectSeq, gemma4KvAblateRows, gemma4KvReadGlobalQ,
      gemma4KvByteexactSet, ite_error_eq_ok, Except.ok.injEq] at hqueue
  case prefill toks fs =>
    obtain ⟨_, _, rfl⟩ := hqueue
    intro op hop
    rcases List.mem_cons.mp hop with rfl | hop
    · exact ⟨rfl, fun _ => rfl, fun _ => rfl, fun _ => rfl⟩
    · obtain ⟨i, _, rfl⟩ := List.mem_map.mp hop
      exact ⟨rfl, fun _ => rfl, fun _ => rfl, fun _ => rfl⟩
  case decode nGen fs =>
    obtain ⟨_, _, rfl⟩ := hqueue
    intro op hop
    obtain ⟨i, _, rfl⟩ := List.mem_map.mp hop
    exact ⟨rfl, fun _ => rfl, fun _ => rfl, fun _ => rfl⟩
  case decodeLogits tok f =>
    obtain ⟨_, rfl⟩ := hqueue
    simp [Op.isPlain, Op.isForward, Op.setsMode, Op.mints]
  case decodeBatch toks fs =>
    obtain ⟨_, _, rfl⟩ := hqueue
    intro op hop
    obtain ⟨⟨tok, i⟩, _, hop⟩ := List.mem_flatMap.mp hop
    simp only [List.mem_cons, List.not_mem_nil, or_false] at hop
    rcases hop with rfl | rfl <;> exact ⟨rfl, fun _ => rfl, fun _ => rfl, fun _ => rfl⟩
  case injectTokens toks atten fs =>
    obtain ⟨_, _, rfl⟩ := hqueue
    intro op hop
    rcases List.mem_append.mp hop with hop | hop
    · obtain ⟨⟨tok, i⟩, _, hop⟩ := List.mem_flatMap.mp hop
      simp only [List.mem_cons, List.not_mem_nil, or_false] at hop
      rcases hop with rfl | rfl | rfl <;>
        exact ⟨rfl, by simp [Call.isForward], fun _ => rfl, fun _ => rfl⟩
    · cases atten <;> simp at hop
      subst hop
      exact ⟨rfl, by simp [Call.isForward], fun _ => rfl, by simp [Call.mints]⟩
  case injectSeq frames ph fs =>
    obtain ⟨_, rfl⟩ := hqueue
    intro op hop
    obtain ⟨⟨frame, i⟩, _, hop⟩ := List.mem_flatMap.mp hop
    simp only [List.mem_cons, List.not_mem_nil, or_false] at hop
    rcases hop with rfl | rfl | rfl | rfl <;>
      exact ⟨rfl, by simp [Call.isForward], fun _ => rfl, fun _ => rfl⟩
  case readGlobalQ tok f =>
    obtain ⟨_, rfl⟩ := hqueue
    simp [Op.isPlain, Call.isForward, Op.setsMode, Op.mints]
  all_goals
    subst hqueue
    simp [Op.isPlain, Op.isForward, Op.setsMode, Op.mints, Call.isForward, Call.setsMode,
      Call.mints]

/-- What an accepted rewind has checked. -/
theorem gemma4KvRewind_ok (s : Session T X R) (delta : Int) (ops : List (Op T X R))
    (h : gemma4KvRewind g s delta = .ok ops) :
    ops = [.undo delta.toNat] ∧ delta.toNat ≤ s.dpos ∧
      (0 < g.ringW → delta.toNat ≤ s.dpos - s.commitPos) := by
  simp only [gemma4KvRewind, ite_error_eq_ok, Except.ok.injEq] at h
  obtain ⟨hdelta, hspan, rfl⟩ := h
  exact ⟨rfl, by omega, by omega⟩

/-- An accepted replay writes `npos` positions, and a ring has room for them. -/
theorem gemma4KvReplay_ok (s : Session T X R) (ep : Episode R) (npos : Int)
    (zero : Option R) (ops : List (Op T X R))
    (h : gemma4KvReplay g s ep npos zero = .ok ops) :
    ∃ row : Nat → Nat → R, ops = (List.range npos.toNat).map (fun p => .put (row p)) ∧
      0 < npos ∧ s.dpos + npos.toNat ≤ g.pmax ∧
      (0 < g.ringW → s.dpos - s.commitPos + npos.toNat ≤ g.jmax) := by
  simp only [gemma4KvReplay, ite_error_eq_ok] at h
  obtain ⟨hpos, hroom, hjournal, h⟩ := h
  cases hmf : ep.mfErr with
  | some text => simp [hmf] at h
  | none =>
      simp only [hmf, ite_error_eq_ok] at h
      obtain ⟨_, h⟩ := h
      cases hkv : ep.kvErr with
      | some text => simp [hkv] at h
      | none =>
          simp only [hkv, Except.ok.injEq] at h
          exact ⟨fun p l => zero.getD (ep.row l p), h.symm, by omega, by omega, by omega⟩

theorem gemma4KvPrefillBatched_ok (s : Session T X R) (toks : List T)
    (decline : Option String) (ops : List (Op T X R))
    (h : gemma4KvPrefillBatched g s toks decline = .ok ops) :
    ops = [.sink toks] ∧ s.dpos = 0 ∧ toks ≠ [] ∧ toks.length ≤ g.pmax := by
  simp only [gemma4KvPrefillBatched, ite_error_eq_ok] at h
  obtain ⟨hempty, hcold, hroom, h⟩ := h
  cases decline with
  | some text => simp at h
  | none =>
      simp only [Except.ok.injEq] at h
      exact ⟨h.symm, by omega, by simpa using hempty, by omega⟩

theorem prefillBatched_declined (s : Session T X R) (toks : List T) (text : String) :
    ∃ text', gemma4KvPrefillBatched (X := X) (R := R) g s toks (some text) = .error text' := by
  simp only [gemma4KvPrefillBatched]
  split
  · exact ⟨_, rfl⟩
  · split
    · exact ⟨_, rfl⟩
    · split <;> exact ⟨_, rfl⟩

end Queues

section Mode

variable (K : Kernels T X R) (g : Geometry)

theorem runOp_bxOn (op : Op T X R) (hop : op.setsMode = false) (s : Session T X R) :
    (runOp K g op s).session.bxOn = s.bxOn := by
  cases op with
  | tick head f =>
      obtain ⟨row, dseq, hsession, _⟩ := g4KvStep_effect K g head f s
      simp only [runOp, tick]
      cases (g4KvStep K g head f s).err <;>
        simp [hsession, Session.advance, Session.withSeq]
  | peek f =>
      obtain ⟨row, dseq, hsession, _⟩ := g4KvStep_effect K g false f s
      simp only [runOp, peek]
      cases (g4KvStep K g false f s).err <;> simp [hsession, Session.withSeq]
  | byteexact on => simp [Op.setsMode] at hop
  | _ => rfl

theorem runOps_bxOn (ops : List (Op T X R)) (hops : ∀ op ∈ ops, op.setsMode = false)
    (s : Session T X R) : (runOps K g ops s).session.bxOn = s.bxOn := by
  induction ops generalizing s with
  | nil => rfl
  | cons op rest ih =>
      have hone := runOp_bxOn K g op (hops op (by simp)) s
      simp only [runOps]
      cases herr : (runOp K g op s).err with
      | some text => exact hone
      | none => exact (ih (fun op' hop' => hops op' (List.mem_cons_of_mem _ hop')) _).trans hone

/-- Only the switch of the mode changes the mode. -/
theorem Call.exec_bxOn (c : Call T X R) (hc : c.setsMode = false) (s : Session T X R) :
    (c.exec K g s).session.bxOn = s.bxOn := by
  unfold Call.exec
  cases hqueue : c.queue K g s with
  | error text => rfl
  | ok ops =>
      refine runOps_bxOn K g ops ?_ s
      cases hplain : c.isPlain with
      | true =>
          intro op hop
          exact (plain_queue K g s c hplain ops hqueue op hop).2.2.1 hc
      | false =>
          cases c <;> simp only [Call.isPlain, Bool.true_eq_false] at hplain
          case rewind delta =>
            obtain ⟨rfl, _⟩ := gemma4KvRewind_ok g s delta ops hqueue
            simp [Op.setsMode]
          case prefillBatched toks decline =>
            obtain ⟨rfl, _⟩ := gemma4KvPrefillBatched_ok g s toks decline ops hqueue
            simp [Op.setsMode]
          case replay ep npos zero =>
            obtain ⟨row, rfl, _⟩ := gemma4KvReplay_ok g s ep npos _ ops hqueue
            simp [Op.setsMode]

end Mode

section Watching

variable (K : Kernels T X R) (g : Geometry)

def Watch.op (w : Watch T X R) (op : Op T X R) : Watch T X R :=
  ⟨(runOp K g op w.session).session, fenceAfter g w.session w.fence op,
    w.session :: w.past⟩

/-- The queue of one call, up to its first failure. -/
def Watch.ops (w : Watch T X R) : List (Op T X R) → Watch T X R
  | [] => w
  | op :: rest =>
      match (runOp K g op w.session).err with
      | some _ => w.op K g op
      | none => (w.op K g op).ops rest

def Watch.call (w : Watch T X R) (c : Call T X R) : Watch T X R :=
  match c.queue K g w.session with
  | .error _ => w
  | .ok ops => w.ops K g ops

def Watch.run (w : Watch T X R) (cs : List (Call T X R)) : Watch T X R :=
  cs.foldl (Watch.call K g) w

def Call.isRewind : Call T X R → Bool
  | .rewind _ => true
  | _ => false

/-- Every call of the run returns 0, or is a rewind. -/
def accepted : List (Call T X R) → Session T X R → Bool
  | [], _ => true
  | c :: rest, s =>
      ((c.exec K g s).err.isNone || c.isRewind) && accepted rest (c.exec K g s).session

/-- The rows every attention of a run reads, in order: `nl` lists a step. -/
def runReads : List (Call T X R) → Session T X R → List (List R)
  | [], _ => []
  | c :: rest, s => (c.exec K g s).reads ++ runReads rest (c.exec K g s).session

/-- Watching does not change what the queue does. -/
theorem Watch.ops_session (w : Watch T X R) (ops : List (Op T X R)) :
    (w.ops K g ops).session = (runOps K g ops w.session).session := by
  induction ops generalizing w with
  | nil => rfl
  | cons op rest ih =>
      simp only [Watch.ops, runOps]
      cases herr : (runOp K g op w.session).err with
      | some text => rfl
      | none => exact ih (w.op K g op)

theorem Watch.call_session (w : Watch T X R) (c : Call T X R) :
    (w.call K g c).session = (c.exec K g w.session).session := by
  unfold Watch.call Call.exec
  cases c.queue K g w.session with
  | error text => rfl
  | ok ops => exact w.ops_session K g ops

/-- A queue that returns 0 runs each of its operations without a failure. -/
theorem runOps_cons_ok (op : Op T X R) (rest : List (Op T X R)) (s : Session T X R)
    (hok : (runOps K g (op :: rest) s).err = none) :
    (runOp K g op s).err = none ∧
      (runOps K g rest (runOp K g op s).session).err = none := by
  simp only [runOps] at hok
  cases herr : (runOp K g op s).err with
  | some text => simp [herr] at hok
  | none =>
      simp only [herr] at hok
      exact ⟨rfl, hok⟩

theorem runOps_cons_session (op : Op T X R) (rest : List (Op T X R)) (s : Session T X R)
    (hok : (runOp K g op s).err = none) :
    (runOps K g (op :: rest) s).session = (runOps K g rest (runOp K g op s).session).session := by
  simp only [runOps, hok]

/-- The invariant rule for a queue that returns 0: every operation of it keeps
the invariant. -/
theorem Watch.ops_invariant (P : Watch T X R → Prop) (ops : List (Op T X R))
    (hop : ∀ op ∈ ops, ∀ w, P w → (runOp K g op w.session).err = none → P (w.op K g op))
    (w : Watch T X R) (hok : (runOps K g ops w.session).err = none) (hw : P w) :
    P (w.ops K g ops) := by
  induction ops generalizing w with
  | nil => exact hw
  | cons op rest ih =>
      obtain ⟨herr, hrest⟩ := runOps_cons_ok K g op rest w.session hok
      simp only [Watch.ops, herr]
      exact ih (fun op' hop' => hop op' (List.mem_cons_of_mem _ hop')) (w.op K g op) hrest
        (hop op (by simp) w hw herr)

/-- The invariant rule for a run: every call of it that returns 0 keeps the
invariant, and a refused rewind changes nothing. -/
theorem Watch.run_invariant (P : Watch T X R → Prop) (cs : List (Call T X R))
    (hcall : ∀ c ∈ cs, ∀ w, P w → ∀ ops, c.queue K g w.session = .ok ops →
      (runOps K g ops w.session).err = none → P (w.ops K g ops))
    (w : Watch T X R) (hacc : accepted K g cs w.session = true) (hw : P w) :
    P (w.run K g cs) := by
  induction cs generalizing w with
  | nil => exact hw
  | cons c rest ih =>
      simp only [accepted, Bool.and_eq_true] at hacc
      refine ih (fun c' hc' => hcall c' (List.mem_cons_of_mem _ hc')) (w.call K g c)
        (by rw [Watch.call_session]; exact hacc.2) ?_
      have hexec := hacc.1
      unfold Watch.call
      cases hqueue : c.queue K g w.session with
      | error text => exact hw
      | ok ops =>
          refine hcall c (by simp) w hw ops hqueue ?_
          simp only [Call.exec, hqueue, Bool.or_eq_true, Option.isNone_iff_eq_none] at hexec
          rcases hexec with hok | hrewind
          · exact hok
          · cases c <;> simp only [Call.isRewind, Bool.false_eq_true] at hrewind
            rw [(gemma4KvRewind_ok g w.session _ ops hqueue).1]
            rfl

end Watching

end ShannonPrime.Kv
