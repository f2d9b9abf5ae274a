import ShannonPrime.Lib.Runs

/-!
The worker pool of the Hexagon skeleton. A dispatch writes a descriptor, resets `done`,
raises `seqn` and runs its half of the rows, while the worker thread, which has its own
HVX lock, runs the other half and raises `done`. The two threads are interleaved at the
level of their loads and stores of the shared pool; a futex wait is a load that is tried
again.
-/

namespace ShannonPrime.Hexagon

/-- A descriptor: of the half kernel, which the DDR and the VTCM paths share, or of the
tile kernel. -/
inductive Job (α β : Type*) where
  | half (d : α)
  | tile (d : β)

/-- `hx_job_kind_t` -/
inductive JobKind where
  | none
  | v3Half
  | v5TileHalf
  deriving DecidableEq

def Job.kind {α β : Type*} : Job α β → JobKind
  | .half _ => .v3Half
  | .tile _ => .v5TileHalf

/-- The rows `[0, m_half)` are the worker's, the rest the handler's. -/
inductive Side where
  | worker
  | handler
  deriving DecidableEq

/-- Where the handler is: the next access it makes. -/
inductive HandlerPc where
  | idle
  | storeKind
  | resetDone
  | bumpSeqn
  | compute
  | waitDone
  | storeKilled
  | bumpKilled
  | join
  deriving DecidableEq

/-- Where the worker is: the next access it makes. -/
inductive WorkerPc where
  | absent
  | lock
  | storeError
  | storeDone
  | loadKilled
  | loadSeqn
  | recheckKilled
  | loadKind
  | loadDesc (kind : JobKind)
  | run
  | addDone
  | exited
  deriving DecidableEq

/-- `hx_worker_pool_t` with the two threads. `args` is the job of the handler's call,
`prevSeqn` and `running` are the worker's locals. `log` and `returned` are no state of the
source: the halves executed since the call's descriptor was written, and what the last
successful dispatch was for and had in the log. -/
structure Pool (α β : Type*) where
  initDone : Bool
  initError : Bool
  seqn : BitVec 32
  done : BitVec 32
  killed : Bool
  jobKind : JobKind
  desc : Option α
  tileDesc : Option β
  handler : HandlerPc
  args : Option (Job α β)
  worker : WorkerPc
  prevSeqn : BitVec 32
  running : Option (Job α β)
  log : List (Side × Option (Job α β))
  returned : Option (Option (Job α β) × List (Side × Option (Job α β)))

/-- `call` and `close` enter a dispatch and `hx_worker_pool_shutdown`, `handler` and
`worker` are the next access of a thread. `created` is the outcome of creating the worker
thread where the call tries to, `lockOk` that of its HVX lock. -/
inductive PoolEvent (α β : Type*) where
  | call (job : Job α β) (created : Bool)
  | close
  | handler
  | worker (lockOk : Bool)

variable {α β : Type*}

namespace Pool

def init : Pool α β where
  initDone := false
  initError := false
  seqn := 0
  done := 0
  killed := false
  jobKind := .none
  desc := none
  tileDesc := none
  handler := .idle
  args := none
  worker := .absent
  prevSeqn := 0
  running := none
  log := []
  returned := none

/-- `hx_worker_pool_ensure`. While no worker exists nobody else looks at the pool. -/
def ensure (s : Pool α β) (created : Bool) : Bool × Pool α β :=
  if s.initDone then (true, s)
  else if s.initError then (false, s)
  else if created then
    (true, { s with seqn := 0, done := 0, killed := false, worker := .lock, initDone := true })
  else (false, { s with seqn := 0, done := 0, killed := false, initError := true })

/-- The descriptor fields of a call. -/
def storeDesc (s : Pool α β) : Job α β → Pool α β
  | .half d => { s with desc := some d }
  | .tile d => { s with tileDesc := some d }

/-- A dispatch up to its descriptor; without a worker it falls back to one thread. -/
def call (s : Pool α β) (job : Job α β) (created : Bool) : Pool α β :=
  let s := { s with returned := none }
  match s.ensure created with
  | (false, s) => s
  | (true, s) => { s.storeDesc job with args := some job, log := [], handler := .storeKind }

/-- The next access of the handler. -/
def handlerStep (s : Pool α β) : Pool α β :=
  match s.handler with
  | .idle => s
  | .storeKind =>
      { s with jobKind := (s.args.map Job.kind).getD .none, handler := .resetDone }
  | .resetDone => { s with done := 0, handler := .bumpSeqn }
  | .bumpSeqn => { s with seqn := s.seqn + 1, handler := .compute }
  | .compute => { s with log := s.log ++ [(.handler, s.args)], handler := .waitDone }
  | .waitDone =>
      if s.done = 0 then s else { s with returned := some (s.args, s.log), handler := .idle }
  | .storeKilled => { s with killed := true, handler := .bumpKilled }
  | .bumpKilled => { s with seqn := s.seqn + 1, handler := .join }
  | .join =>
      if s.worker = .exited then
        { s with initDone := false, initError := false, handler := .idle }
      else s

/-- The next access of `hx_worker_main`. -/
def workerStep (s : Pool α β) (lockOk : Bool) : Pool α β :=
  match s.worker with
  | .absent => s
  | .lock =>
      if lockOk then { s with prevSeqn := 0, worker := .loadKilled }
      else { s with worker := .storeError }
  | .storeError => { s with initError := true, worker := .storeDone }
  | .storeDone => { s with done := 1, worker := .exited }
  | .loadKilled => { s with worker := if s.killed then .exited else .loadSeqn }
  | .loadSeqn =>
      if s.seqn = s.prevSeqn then { s with worker := .loadKilled }
      else { s with prevSeqn := s.seqn, worker := .recheckKilled }
  | .recheckKilled => { s with worker := if s.killed then .exited else .loadKind }
  | .loadKind => { s with worker := .loadDesc s.jobKind }
  | .loadDesc k =>
      { s with
        running := if k = .v5TileHalf then s.tileDesc.map .tile else s.desc.map .half
        worker := .run }
  | .run => { s with log := s.log ++ [(.worker, s.running)], worker := .addDone }
  | .addDone => { s with done := s.done + 1, worker := .loadKilled }
  | .exited => s

def step (s : Pool α β) : PoolEvent α β → Pool α β
  | .call job created => if s.handler = .idle then s.call job created else s
  | .close =>
      if s.handler = .idle ∧ s.initDone then { s with handler := .storeKilled } else s
  | .handler => s.handlerStep
  | .worker lockOk => s.workerStep lockOk

/-- When a dispatch returned success, both halves of its own descriptor were executed,
each once, and nothing else. -/
def NoWorkLost (s : Pool α β) : Prop :=
  ∀ args log, s.returned = some (args, log) →
    log.Perm [(.worker, args), (.handler, args)]

/-- The condition on a step: a worker whose HVX lock failed does not store `done` while a
dispatch is between its reset of `done` and the end of its wait. -/
def NoFailureSignal (s : Pool α β) : PoolEvent α β → Prop
  | .worker _ =>
      s.worker = .storeDone →
        s.handler ≠ .bumpSeqn ∧ s.handler ≠ .compute ∧ s.handler ≠ .waitDone
  | _ => True

/-! ### The invariant -/

/-- The worker has nothing to do. -/
def Quiet (s : Pool α β) : Prop :=
  match s.worker with
  | .lock => s.seqn = 0
  | .loadKilled | .loadSeqn => s.prevSeqn = s.seqn
  | .storeError | .storeDone | .exited => True
  | _ => False

/-- The descriptor in memory is the call's. -/
def DescHeld (s : Pool α β) : Prop :=
  match s.args with
  | some (.half d) => s.desc = some d
  | some (.tile d) => s.tileDesc = some d
  | none => False

def KindHeld (s : Pool α β) : Prop := s.args.map Job.kind = some s.jobKind

/-- A raised `seqn`: the worker has not begun, is at it, or is done; `own` is what the
handler has in the log. -/
def Working (s : Pool α β) (own : List (Side × Option (Job α β))) : Prop :=
  match s.worker with
  | .absent => False
  | .lock => s.seqn ≠ 0 ∧ s.done = 0 ∧ s.log = own
  | .storeError | .storeDone | .exited => s.done = 0 ∧ s.log = own
  | .loadKilled | .loadSeqn =>
      (s.prevSeqn ≠ s.seqn ∧ s.done = 0 ∧ s.log = own) ∨
        (s.prevSeqn = s.seqn ∧ s.log.Perm ((.worker, s.args) :: own))
  | .recheckKilled | .loadKind => s.prevSeqn = s.seqn ∧ s.done = 0 ∧ s.log = own
  | .loadDesc k => s.prevSeqn = s.seqn ∧ s.done = 0 ∧ s.log = own ∧ k = s.jobKind
  | .run => s.prevSeqn = s.seqn ∧ s.done = 0 ∧ s.log = own ∧ s.running = s.args
  | .addDone => s.prevSeqn = s.seqn ∧ s.done = 0 ∧ s.log.Perm ((.worker, s.args) :: own)

/-- The worker leaves without another job. -/
def Leaving (s : Pool α β) : Prop :=
  match s.worker with
  | .lock | .storeError | .storeDone | .loadKilled | .loadSeqn | .recheckKilled | .exited => True
  | _ => False

/-- What holds where the handler is. -/
def AtPc (s : Pool α β) : Prop :=
  match s.handler with
  | .idle =>
      (s.initDone = false ∧ (s.worker = .absent ∨ s.worker = .exited)) ∨
        (s.initDone = true ∧ s.killed = false ∧ s.Quiet)
  | .storeKind => s.killed = false ∧ s.Quiet ∧ s.DescHeld ∧ s.log = []
  | .resetDone => s.killed = false ∧ s.Quiet ∧ s.DescHeld ∧ s.KindHeld ∧ s.log = []
  | .bumpSeqn =>
      s.killed = false ∧ s.Quiet ∧ s.DescHeld ∧ s.KindHeld ∧ s.log = [] ∧ s.done = 0
  | .compute => s.killed = false ∧ s.DescHeld ∧ s.KindHeld ∧ s.Working []
  | .waitDone => s.killed = false ∧ s.DescHeld ∧ s.KindHeld ∧ s.Working [(.handler, s.args)]
  | .storeKilled => s.killed = false ∧ s.Quiet
  | .bumpKilled => s.killed = true ∧ s.Quiet
  | .join => s.killed = true ∧ s.Leaving

structure Inv (s : Pool α β) : Prop where
  atPc : s.AtPc
  initDone : s.handler ≠ .idle → s.initDone = true
  noWorkLost : s.NoWorkLost

theorem inv_init : (init : Pool α β).Inv := by
  constructor
  · exact Or.inl ⟨rfl, Or.inl rfl⟩
  · intro h
    exact absurd rfl h
  · intro args log h
    cases h

/-! ### The worker's step -/

section WorkerStep

variable (s : Pool α β) (lockOk : Bool)

/-- The worker touches neither the handler nor what the handler writes. -/
theorem workerStep_frame :
    (s.workerStep lockOk).handler = s.handler ∧ (s.workerStep lockOk).args = s.args ∧
      (s.workerStep lockOk).killed = s.killed ∧ (s.workerStep lockOk).jobKind = s.jobKind ∧
      (s.workerStep lockOk).desc = s.desc ∧ (s.workerStep lockOk).tileDesc = s.tileDesc ∧
      (s.workerStep lockOk).initDone = s.initDone ∧ (s.workerStep lockOk).seqn = s.seqn ∧
      (s.workerStep lockOk).returned = s.returned := by
  unfold workerStep
  split <;> (try split) <;> exact ⟨rfl, rfl, rfl, rfl, rfl, rfl, rfl, rfl, rfl⟩

end WorkerStep

section Worker

variable {s : Pool α β} {lockOk : Bool} {own : List (Side × Option (Job α β))}

/-- A worker with nothing to do finds nothing to do; its only store is that of a failed
lock. -/
theorem Quiet.worker (h : s.Quiet) (lockOk : Bool) :
    (s.workerStep lockOk).Quiet ∧ (s.workerStep lockOk).log = s.log ∧
      (s.worker ≠ .storeDone → (s.workerStep lockOk).done = s.done) := by
  unfold Quiet at h
  cases hw : s.worker <;> rw [hw] at h <;> dsimp only at h
  case lock =>
    unfold workerStep
    rw [hw]
    dsimp only
    split
    · exact ⟨h.symm, rfl, fun _ => rfl⟩
    · exact ⟨trivial, rfl, fun _ => rfl⟩
  case storeError =>
    unfold workerStep
    rw [hw]
    exact ⟨trivial, rfl, fun _ => rfl⟩
  case storeDone =>
    unfold workerStep
    rw [hw]
    exact ⟨trivial, rfl, fun hne => absurd rfl hne⟩
  case loadKilled =>
    unfold workerStep
    rw [hw]
    dsimp only
    refine ⟨?_, rfl, fun _ => rfl⟩
    unfold Quiet
    dsimp only
    cases s.killed
    · exact h
    · trivial
  case loadSeqn =>
    unfold workerStep
    rw [hw]
    dsimp only
    rw [if_pos h.symm]
    exact ⟨h, rfl, fun _ => rfl⟩
  case exited =>
    unfold workerStep
    rw [hw]
    refine ⟨?_, rfl, fun _ => rfl⟩
    unfold Quiet
    rw [hw]
    trivial

/-- The worker takes up the raised `seqn` and does its half of the call's job. -/
theorem Working.worker (h : s.Working own) (hkilled : s.killed = false) (hdesc : s.DescHeld)
    (hkind : s.KindHeld) (hsignal : s.worker ≠ .storeDone) :
    (s.workerStep lockOk).Working own := by
  unfold Working at h
  unfold workerStep
  cases hw : s.worker <;> rw [hw] at h <;> dsimp only at h ⊢
  case lock =>
    split
    · exact Or.inl ⟨h.1.symm, h.2⟩
    · exact h.2
  case storeError => exact h
  case storeDone => exact absurd hw hsignal
  case loadKilled =>
    rw [hkilled]
    exact h
  case loadSeqn =>
    rcases h with ⟨hne, hidle⟩ | ⟨heq, hperm⟩
    · rw [if_neg (Ne.symm hne)]
      exact ⟨rfl, hidle⟩
    · rw [if_pos heq.symm]
      exact Or.inr ⟨heq, hperm⟩
  case recheckKilled =>
    rw [hkilled]
    exact h
  case loadKind => exact ⟨h.1, h.2.1, h.2.2, rfl⟩
  case loadDesc k =>
    obtain ⟨hseqn, hdone, hlog, rfl⟩ := h
    refine ⟨hseqn, hdone, hlog, ?_⟩
    unfold DescHeld at hdesc
    unfold KindHeld at hkind
    dsimp only
    cases hargs : s.args with
    | none => rw [hargs] at hdesc; cases hdesc
    | some job =>
        rw [hargs] at hdesc hkind
        have hjob : job.kind = s.jobKind := by simpa using hkind
        rw [← hjob]
        cases job with
        | half d =>
            dsimp only at hdesc
            rw [hdesc]
            rfl
        | tile d =>
            dsimp only at hdesc
            rw [hdesc]
            rfl
  case run =>
    obtain ⟨hseqn, hdone, hlog, hrunning⟩ := h
    refine ⟨hseqn, hdone, ?_⟩
    dsimp only
    rw [hlog, hrunning]
    exact List.perm_append_singleton _ _
  case addDone => exact Or.inr ⟨h.1, h.2.2⟩
  case exited =>
    unfold Working
    rw [hw]
    exact h

theorem Leaving.worker (h : s.Leaving) (hkilled : s.killed = true) :
    (s.workerStep lockOk).Leaving := by
  unfold Leaving at h
  unfold workerStep
  cases hw : s.worker <;> rw [hw] at h <;> dsimp only at h ⊢
  case lock => split <;> trivial
  case storeError => trivial
  case storeDone => trivial
  case loadKilled =>
    rw [hkilled]
    trivial
  case loadSeqn => split <;> trivial
  case recheckKilled =>
    rw [hkilled]
    trivial
  case exited =>
    unfold Leaving
    rw [hw]
    trivial

theorem Inv.worker (h : s.Inv) (hcondition : NoFailureSignal s (.worker lockOk)) :
    (s.workerStep lockOk).Inv := by
  obtain ⟨hhandler, hargs, hkilled, hkind, hdesc, htile, hinit, hseqn, hreturned⟩ :=
    workerStep_frame s lockOk
  constructor
  · have hat := h.atPc
    have hdescHeld : s.DescHeld → (s.workerStep lockOk).DescHeld := by
      unfold DescHeld
      rw [hargs, hdesc, htile]
      exact id
    have hkindHeld : s.KindHeld → (s.workerStep lockOk).KindHeld := by
      unfold KindHeld
      rw [hargs, hkind]
      exact id
    unfold AtPc at hat ⊢
    rw [hhandler]
    cases hpc : s.handler <;> rw [hpc] at hat <;> dsimp only at hat ⊢ <;>
      simp only [hkilled, hinit, hargs]
    case idle =>
      rcases hat with ⟨hoff, hgone⟩ | ⟨hon, halive, hquiet⟩
      · have hsame : s.workerStep lockOk = s := by
          unfold workerStep
          rcases hgone with hw | hw <;> rw [hw]
        rw [hsame]
        exact Or.inl ⟨hoff, hgone⟩
      · exact Or.inr ⟨hon, halive, (hquiet.worker lockOk).1⟩
    case storeKind =>
      obtain ⟨hquiet, hlog, -⟩ := hat.2.1.worker lockOk
      exact ⟨hat.1, hquiet, hdescHeld hat.2.2.1, hlog.trans hat.2.2.2⟩
    case resetDone =>
      obtain ⟨hquiet, hlog, -⟩ := hat.2.1.worker lockOk
      exact ⟨hat.1, hquiet, hdescHeld hat.2.2.1, hkindHeld hat.2.2.2.1,
        hlog.trans hat.2.2.2.2⟩
    case bumpSeqn =>
      obtain ⟨hquiet, hlog, hdone⟩ := hat.2.1.worker lockOk
      have hne : s.worker ≠ .storeDone := fun hw => (hcondition hw).1 hpc
      exact ⟨hat.1, hquiet, hdescHeld hat.2.2.1, hkindHeld hat.2.2.2.1,
        hlog.trans hat.2.2.2.2.1, (hdone hne).trans hat.2.2.2.2.2⟩
    case compute =>
      have hne : s.worker ≠ .storeDone := fun hw => (hcondition hw).2.1 hpc
      exact ⟨hat.1, hdescHeld hat.2.1, hkindHeld hat.2.2.1,
        hat.2.2.2.worker hat.1 hat.2.1 hat.2.2.1 hne⟩
    case waitDone =>
      have hne : s.worker ≠ .storeDone := fun hw => (hcondition hw).2.2 hpc
      exact ⟨hat.1, hdescHeld hat.2.1, hkindHeld hat.2.2.1,
        hat.2.2.2.worker hat.1 hat.2.1 hat.2.2.1 hne⟩
    case storeKilled => exact ⟨hat.1, (hat.2.worker lockOk).1⟩
    case bumpKilled => exact ⟨hat.1, (hat.2.worker lockOk).1⟩
    case join => exact ⟨hat.1, hat.2.worker hat.1⟩
  · rw [hhandler, hinit]
    exact h.initDone
  · unfold NoWorkLost
    rw [hreturned]
    exact h.noWorkLost

end Worker

section Handler

variable {s : Pool α β}

/-- A raised `seqn` is one the worker has not seen. -/
theorem Quiet.raise (h : s.Quiet) (hdone : s.done = 0) (hlog : s.log = []) :
    Working { s with seqn := s.seqn + 1, handler := .compute } [] := by
  have hne : s.seqn + 1 ≠ s.seqn := by
    intro heq
    simp at heq
  unfold Quiet at h
  unfold Working
  cases hw : s.worker <;> rw [hw] at h <;> dsimp only at h ⊢
  case lock =>
    rw [h] at hne ⊢
    exact ⟨hne, hdone, hlog⟩
  case storeError => exact ⟨hdone, hlog⟩
  case storeDone => exact ⟨hdone, hlog⟩
  case exited => exact ⟨hdone, hlog⟩
  case loadKilled =>
    rw [h]
    exact Or.inl ⟨hne.symm, hdone, hlog⟩
  case loadSeqn =>
    rw [h]
    exact Or.inl ⟨hne.symm, hdone, hlog⟩

/-- The handler's half joins the log. -/
theorem Working.compute (h : s.Working []) :
    Working { s with log := s.log ++ [(.handler, s.args)], handler := .waitDone }
      [(.handler, s.args)] := by
  have hnil : s.log = [] → s.log ++ [(Side.handler, s.args)] = [(.handler, s.args)] := by
    intro hlog
    rw [hlog]
    rfl
  have hone : s.log.Perm [(Side.worker, s.args)] →
      (s.log ++ [(Side.handler, s.args)]).Perm [(.worker, s.args), (.handler, s.args)] :=
    fun hperm => hperm.append_right _
  unfold Working at h ⊢
  cases hw : s.worker <;> rw [hw] at h <;> dsimp only at h ⊢
  case lock => exact ⟨h.1, h.2.1, hnil h.2.2⟩
  case storeError => exact ⟨h.1, hnil h.2⟩
  case storeDone => exact ⟨h.1, hnil h.2⟩
  case exited => exact ⟨h.1, hnil h.2⟩
  case loadKilled =>
    rcases h with ⟨hne, hdone, hlog⟩ | ⟨heq, hperm⟩
    · exact Or.inl ⟨hne, hdone, hnil hlog⟩
    · exact Or.inr ⟨heq, hone hperm⟩
  case loadSeqn =>
    rcases h with ⟨hne, hdone, hlog⟩ | ⟨heq, hperm⟩
    · exact Or.inl ⟨hne, hdone, hnil hlog⟩
    · exact Or.inr ⟨heq, hone hperm⟩
  case recheckKilled => exact ⟨h.1, h.2.1, hnil h.2.2⟩
  case loadKind => exact ⟨h.1, h.2.1, hnil h.2.2⟩
  case loadDesc k => exact ⟨h.1, h.2.1, hnil h.2.2.1, h.2.2.2⟩
  case run => exact ⟨h.1, h.2.1, hnil h.2.2.1, h.2.2.2⟩
  case addDone => exact ⟨h.1, h.2.1, hone h.2.2⟩

/-- When `done` is raised the worker is through: its half is in the log, and it has
nothing to do. -/
theorem Working.finished {own : List (Side × Option (Job α β))} (h : s.Working own)
    (hdone : s.done ≠ 0) : s.log.Perm ((.worker, s.args) :: own) ∧ s.Quiet := by
  unfold Working at h
  unfold Quiet
  cases hw : s.worker <;> rw [hw] at h <;> dsimp only at h ⊢
  case lock => exact absurd h.2.1 hdone
  case storeError => exact absurd h.1 hdone
  case storeDone => exact absurd h.1 hdone
  case exited => exact absurd h.1 hdone
  case loadKilled =>
    rcases h with ⟨-, hzero, -⟩ | ⟨heq, hperm⟩
    · exact absurd hzero hdone
    · exact ⟨hperm, heq⟩
  case loadSeqn =>
    rcases h with ⟨-, hzero, -⟩ | ⟨heq, hperm⟩
    · exact absurd hzero hdone
    · exact ⟨hperm, heq⟩
  all_goals exact absurd h.2.1 hdone

theorem Quiet.leaving (h : s.Quiet) : s.Leaving := by
  unfold Quiet at h
  unfold Leaving
  cases hw : s.worker <;> rw [hw] at h <;> dsimp only at h ⊢

theorem Inv.handler (h : s.Inv) : s.handlerStep.Inv := by
  have hat := h.atPc
  have hon := h.initDone
  have hkept := h.noWorkLost
  unfold AtPc at hat
  unfold handlerStep
  cases hpc : s.handler <;> rw [hpc] at hat hon <;> dsimp only at hat ⊢
  case idle => exact h
  case storeKind =>
    obtain ⟨hkilled, hquiet, hdesc, hlog⟩ := hat
    refine ⟨⟨hkilled, hquiet, hdesc, ?_, hlog⟩, fun _ => hon (by decide), hkept⟩
    unfold DescHeld at hdesc
    unfold KindHeld
    cases hargs : s.args with
    | none => rw [hargs] at hdesc; cases hdesc
    | some job => rfl
  case resetDone =>
    obtain ⟨hkilled, hquiet, hdesc, hkind, hlog⟩ := hat
    exact ⟨⟨hkilled, hquiet, hdesc, hkind, hlog, rfl⟩, fun _ => hon (by decide), hkept⟩
  case bumpSeqn =>
    obtain ⟨hkilled, hquiet, hdesc, hkind, hlog, hdone⟩ := hat
    exact ⟨⟨hkilled, hdesc, hkind, hquiet.raise hdone hlog⟩, fun _ => hon (by decide), hkept⟩
  case compute =>
    obtain ⟨hkilled, hdesc, hkind, hworking⟩ := hat
    exact ⟨⟨hkilled, hdesc, hkind, hworking.compute⟩, fun _ => hon (by decide), hkept⟩
  case waitDone =>
    obtain ⟨hkilled, hdesc, hkind, hworking⟩ := hat
    split
    · exact h
    · rename_i hdone
      obtain ⟨hperm, hquiet⟩ := hworking.finished hdone
      refine ⟨Or.inr ⟨hon (by decide), hkilled, hquiet⟩, fun hne => absurd rfl hne, ?_⟩
      rintro args log ⟨⟩
      exact hperm
  case storeKilled => exact ⟨⟨rfl, hat.2⟩, fun _ => hon (by decide), hkept⟩
  case bumpKilled =>
    exact ⟨⟨hat.1, hat.2.leaving⟩, fun _ => hon (by decide), hkept⟩
  case join =>
    split
    · rename_i hexited
      exact ⟨Or.inl ⟨rfl, Or.inr hexited⟩, fun hne => absurd rfl hne, hkept⟩
    · exact h

/-- After `hx_worker_pool_ensure` has found or made a worker, it has nothing to do. -/
theorem ensure_spec (created : Bool) (hpc : s.handler = .idle) (hat : s.AtPc) :
    (s.ensure created).2.handler = .idle ∧ (s.ensure created).2.returned = s.returned ∧
      (s.ensure created).2.AtPc ∧
      ((s.ensure created).1 = true → (s.ensure created).2.initDone = true ∧
        (s.ensure created).2.killed = false ∧ (s.ensure created).2.Quiet) := by
  have hidle := hat
  unfold AtPc at hidle
  rw [hpc] at hidle
  dsimp only at hidle
  unfold ensure
  split
  · rename_i hon
    rcases hidle with ⟨hoff, -⟩ | hready
    · rw [hoff] at hon
      cases hon
    · exact ⟨hpc, rfl, hat, fun _ => hready⟩
  · rename_i hoff
    have hgone : s.worker = .absent ∨ s.worker = .exited := by
      rcases hidle with ⟨-, hgone⟩ | ⟨hon, -⟩
      · exact hgone
      · exact absurd hon hoff
    split
    · exact ⟨hpc, rfl, hat, fun hfalse => by cases hfalse⟩
    · split
      · refine ⟨hpc, rfl, ?_, fun _ => ⟨rfl, rfl, rfl⟩⟩
        unfold AtPc
        dsimp only
        rw [hpc]
        exact Or.inr ⟨rfl, rfl, rfl⟩
      · refine ⟨hpc, rfl, ?_, fun hfalse => by cases hfalse⟩
        unfold AtPc
        dsimp only
        rw [hpc]
        exact Or.inl ⟨by simpa using hoff, hgone⟩

theorem Inv.call (h : s.Inv) (hpc : s.handler = .idle) (job : Job α β) (created : Bool) :
    (s.call job created).Inv := by
  have hat : AtPc { s with returned := none } := h.atPc
  obtain ⟨hpc', hreturned, hat', hready⟩ :=
    ensure_spec (s := { s with returned := none }) created hpc hat
  unfold Pool.call
  dsimp only
  generalize ensure { s with returned := none } created = r at *
  obtain ⟨ok, s'⟩ := r
  dsimp only at *
  have hcleared : ∀ s'' : Pool α β, s''.returned = none → s''.NoWorkLost := by
    intro s'' hnone args log hlog
    rw [hnone] at hlog
    cases hlog
  cases ok with
  | false => exact ⟨hat', fun hne => absurd hpc' hne, hcleared s' hreturned⟩
  | true =>
      obtain ⟨hon, hkilled, hquiet⟩ := hready rfl
      cases job with
      | half d =>
          exact ⟨⟨hkilled, hquiet, rfl, rfl⟩, fun _ => hon, hcleared _ hreturned⟩
      | tile d =>
          exact ⟨⟨hkilled, hquiet, rfl, rfl⟩, fun _ => hon, hcleared _ hreturned⟩

theorem Inv.step (h : s.Inv) (e : PoolEvent α β) (hcondition : NoFailureSignal s e) :
    (s.step e).Inv := by
  cases e with
  | call job created =>
      simp only [Pool.step]
      split
      · rename_i hpc
        exact h.call hpc job created
      · exact h
  | close =>
      simp only [Pool.step]
      split
      · rename_i hready
        obtain ⟨hpc, hon⟩ := hready
        have hat := h.atPc
        unfold AtPc at hat
        rw [hpc] at hat
        rcases hat with ⟨hoff, -⟩ | ⟨-, hkilled, hquiet⟩
        · rw [hoff] at hon
          cases hon
        · exact ⟨⟨hkilled, hquiet⟩, fun _ => hon, h.noWorkLost⟩
      · exact h
  | handler => exact h.handler
  | worker lockOk => exact h.worker hcondition

end Handler

/-- In every run in which a failed lock is not signalled into a dispatch, a dispatch that
returns success has had both halves of its own descriptor executed, each once. -/
theorem noWorkLost_of_noFailureSignal (events : List (PoolEvent α β))
    (h : Runs.Each step NoFailureSignal init events) :
    Runs.Always step NoWorkLost init events := by
  have hinv : Runs.Always step Inv init events :=
    h.always inv_init fun s e hs hcondition => hs.step e hcondition
  intro before hbefore
  exact (hinv before hbefore).noWorkLost

/-- The worker's lock fails while the handler is in its own half of the first dispatch. -/
def failedLock : List (PoolEvent Nat Nat) :=
  [.call (.half 7) true, .handler, .handler, .handler, .worker false, .worker false,
    .worker false, .handler, .handler]

/-- The dispatch returns success with the worker's half never executed. -/
theorem failedLock_losesWork : ¬ Runs.Always step NoWorkLost init failedLock := by
  intro h
  have hreturned : (Runs.after step init failedLock).returned =
      some (some (.half 7), [(.handler, some (.half 7))]) := rfl
  have hperm := h.last _ _ hreturned
  exact absurd hperm.length_eq (by decide)

/-- A dispatch with a worker whose lock succeeds. -/
theorem noWorkLost_lockOk :
    Runs.Always step NoWorkLost init
      ([.call (.half 7) true, .handler, .handler, .handler, .worker true, .handler] :
        List (PoolEvent Nat Nat)) := by
  apply noWorkLost_of_noFailureSignal
  simp only [Runs.each_cons]
  refine ⟨trivial, trivial, trivial, trivial, ?_, trivial, Runs.each_nil⟩
  intro hsignal
  cases hsignal

end Pool

end ShannonPrime.Hexagon
