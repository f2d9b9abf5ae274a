import ShannonPrime.Kv.Resident

/-!
A chat turn on the resident cache, from the byte-exact switch to the update of the
committed tokens, and runs of turns. The recall stage is here the list of calls it
makes on the cache; sampling, the text it streams and the memory it keeps are inputs.
A turn that returns early leaves the cache where it stands and the committed tokens
as they were.
-/

namespace ShannonPrime.Daemon

open Kv

variable {T X R : Type*}

/-- The environment switches of a turn: `SP_PERSIST_KV` is not `0`, `SP_B3_DISPOSER`
is set, the others are `1`. -/
structure Env where
  persistKv : Bool
  decide : Bool
  forget : Bool
  b4Nightshift : Bool
  persistB4 : Bool
  b3Judge : Bool
  b3Disposer : Bool
  int2 : Bool
  prefillBatch : Bool

/-- Calls made on the cache in the course of a turn. Only the turn itself switches the
mode. -/
structure Pass (T X R : Type*) where
  calls : List (Call T X R)
  keepsMode : ∀ c ∈ calls, c.setsMode = false

/-- The recall stage: whether an episode was delivered, and the token synthesis then
starts from. -/
structure RecallPass (T X R : Type*) extends Pass T X R where
  recalled : Bool
  synLast : Option T

structure ReplayRequest (R : Type*) where
  dir : String
  npos : Int
  ep : Kv.Episode R

/-- What becomes of the text of a token. -/
inductive Push where
  | sent
  | gone
  | stopped
  deriving DecidableEq

/-- One iteration of the decode loop: the sampled token, whether it ends the turn. -/
structure Iteration (T : Type*) where
  next : T
  ends : Bool
  push : Push
  fault : Option Fault

/-- A request, with what sampling, the client and the device do in the course of it.
`loop` has `max_tokens` iterations. -/
structure Turn (T X R : Type*) where
  tokens : List T
  byteexact : Bool
  replay : Option (ReplayRequest R)
  singleEntry : Bool
  injectFrames : Option (List X)
  ragged : Bool
  injectPh : T
  autoRecall : Bool
  decline : Option String
  headFaults : Script
  framesFaults : Script
  recallPass : RecallPass T X R
  symbolicDecline : Bool
  synFault : Option Fault
  thoughts : List (X × Script)
  loop : List (Iteration T)
  consolidate : Pass T X R

/-- The daemon between turns: the resident cache and `KV_COMMITTED`. -/
structure Server (T X R : Type*) where
  session : Session T X R
  committed : List T

/-- The cache in the course of a turn, with the rows its attentions have read. -/
structure Lane (T X R : Type*) where
  session : Session T X R
  reads : List (List R)

namespace Lane

variable (K : Kernels T X R) (g : Geometry)

/-- A call whose result is ignored. -/
def after (a : Lane T X R) (c : Call T X R) : Lane T X R :=
  let out := c.exec K g a.session
  ⟨out.session, a.reads ++ out.reads⟩

/-- A call whose failure ends the turn. -/
def call (a : Lane T X R) (c : Call T X R) : Except (Lane T X R) (Lane T X R) :=
  match (c.exec K g a.session).err with
  | some _ => .error (a.after K g c)
  | none => .ok (a.after K g c)

def pass (a : Lane T X R) (p : Pass T X R) : Lane T X R := p.calls.foldl (after K g) a

end Lane

/-- The rewind that prefix reuse allows. -/
def rewindBound : Nat := 32

/-- The length of the common prefix, up to `maxp`. -/
def commonPrefix [DecidableEq T] : Nat → List T → List T → Nat
  | maxp + 1, a :: as, b :: bs => if a = b then commonPrefix maxp as bs + 1 else 0
  | _, _, _ => 0

namespace Turn

section Stages

variable (K : Kernels T X R) (g : Geometry) (e : Env) (t : Turn T X R)

def persists : Bool :=
  e.persistKv && t.replay.isNone && !t.singleEntry && t.injectFrames.isNone && !e.decide &&
    !e.forget && (!e.b4Nightshift || e.persistB4) && !e.b3Judge && !e.b3Disposer && !e.int2

/-- The prefix of the committed tokens the turn reuses. -/
def reusable [DecidableEq T] (srv : Server T X R) : Option Nat :=
  let cl := srv.committed.length
  if t.persists e && decide (1 ≤ cl) && srv.session.dpos == cl then
    let lcp := commonPrefix (min cl (t.tokens.length - 1)) t.tokens srv.committed
    if 1 ≤ lcp ∧ lcp < t.tokens.length ∧ cl - lcp ≤ rewindBound then some lcp else none
  else none

/-- Rewind the tokens that are not reused, or reset. -/
def settle [DecidableEq T] (srv : Server T X R) (a : Lane T X R) :
    Except (Lane T X R) (Lane T X R) :=
  match t.reusable e srv with
  | some lcp =>
      if lcp < srv.committed.length then
        a.call K g (.rewind ((srv.committed.length - lcp : Nat) : Int))
      else .ok a
  | none => if 0 < a.session.dpos then a.call K g .reset else .ok a

/-- The prompt but for its last token and the reused prefix. -/
def head (prefillFrom : Nat) : List T := t.tokens.dropLast.drop prefillFrom

def wantsBatch (prefillFrom : Nat) : Bool :=
  !t.singleEntry && prefillFrom == 0 && decide (64 < (t.head prefillFrom).length) &&
    e.prefillBatch

/-- A batched prefill that is refused falls through to the stepwise one. -/
def ingest (prefillFrom : Nat) (a : Lane T X R) : Except (Lane T X R) (Lane T X R) :=
  let head := t.head prefillFrom
  if head.isEmpty then .ok a
  else
    let batched := if t.wantsBatch e prefillFrom then
      a.call K g (.prefillBatched head t.decline) else .error a
    match batched with
    | .ok a' => .ok a'
    | .error a' => a'.call K g (if t.singleEntry then .injectTokens head false t.headFaults
        else .prefill head t.headFaults)

/-- The residual frames of the request. -/
def mount (a : Lane T X R) : Except (Lane T X R) (Lane T X R) :=
  match t.injectFrames with
  | none => .ok a
  | some frames =>
      if frames.isEmpty then .ok a
      else if t.ragged then .error a
      else a.call K g (.injectSeq frames t.injectPh t.framesFaults)

def recalls : Bool := t.autoRecall && t.replay.isNone

def recallStage (a : Lane T X R) : Lane T X R :=
  if t.recalls then a.pass K g t.recallPass.toPass else a

/-- The episode replay of the request. -/
def attach (a : Lane T X R) : Except (Lane T X R) (Lane T X R) :=
  match t.replay with
  | none => .ok a
  | some r =>
      if r.dir ≠ "" ∧ 0 < r.npos then a.call K g (.replay r.ep r.npos false) else .ok a

/-- The cache when the prompt head is in. -/
def filled [DecidableEq T] (srv : Server T X R) (a : Lane T X R) :
    Except (Lane T X R) (Lane T X R) :=
  (t.settle K g e srv a).bind (t.ingest K g e ((t.reusable e srv).getD 0))

/-- The cache when synthesis starts. -/
def started [DecidableEq T] (srv : Server T X R) (a : Lane T X R) :
    Except (Lane T X R) (Lane T X R) :=
  ((t.filled K g e srv a).bind (t.mount K g)).bind fun a => t.attach K g (t.recallStage K g a)

def synLast (last : T) : T := if t.recalls then t.recallPass.synLast.getD last else last

/-- The continuous thoughts, up to one that fails. -/
def think : List (X × Script) → Lane T X R → Lane T X R
  | [], a => a
  | (frame, fs) :: rest, a =>
      match a.call K g (.injectSeq [frame] t.injectPh fs) with
      | .error a' => a'
      | .ok a' => think rest a'

/-- The decode loop, with the tokens it lists as committed: each is listed before it is
decoded, and a client that is gone ends the turn. -/
def stream : List (Iteration T) → Lane T X R → Except (Lane T X R) (Lane T X R × List T)
  | [], a => .ok (a, [])
  | i :: rest, a =>
      if i.ends then .ok (a, [])
      else match i.push with
        | .gone => .error a
        | .stopped => .ok (a, [])
        | .sent =>
            match a.call K g (.decodeLogits i.next i.fault) with
            | .error a' => .ok (a', [i.next])
            | .ok a' =>
                match stream rest a' with
                | .error a'' => .error a''
                | .ok (a'', gen) => .ok (a'', i.next :: gen)

/-- Synthesis, or the symbolic answer that takes its place. -/
def synthesize (last : T) (a : Lane T X R) : Except (Lane T X R) (Lane T X R × List T) :=
  if t.symbolicDecline then .error (a.after K g .resetCold)
  else (a.call K g (.decodeLogits (t.synLast last) t.synFault)).bind fun a =>
    stream K g t.loop (t.think K g t.thoughts a)

/-- An episode was delivered: the cache is not the conversation's. -/
def recalled : Bool := t.recalls && t.recallPass.recalled

def enter (a : Lane T X R) : Lane T X R :=
  if t.byteexact then a.after K g (.byteexactSet true) else a

def leave (a : Lane T X R) : Lane T X R :=
  if t.byteexact then a.after K g (.byteexactSet false) else a

/-- The turn on an open session: what it returns with, and the committed tokens when it
gets as far. -/
def body [DecidableEq T] (srv : Server T X R) (last : T) :
    Except (Lane T X R) (Lane T X R × List T) :=
  (t.started K g e srv (t.enter K g ⟨srv.session, []⟩)).bind (t.synthesize K g last)

/-- `run_kvdecode_chat`, with the rows its attentions read. -/
def serve [DecidableEq T] (srv : Server T X R) : Server T X R × List (List R) :=
  match t.tokens.getLast? with
  | none => (srv, [])
  | some last =>
      match t.body K g e srv last with
      | .error a => (⟨(t.leave K g a).session, srv.committed⟩, a.reads)
      | .ok (a, gen) =>
          let a := if e.decide then a.pass K g t.consolidate else a
          (⟨(t.leave K g a).session,
            if t.persists e then if t.recalled then [] else t.tokens ++ gen
            else srv.committed⟩, a.reads)

end Stages

end Turn

/-! ### What a turn keeps -/

/-- The lane a stage ends with, whether the turn goes on or not. -/
def Settles (P : Lane T X R → Prop) : Except (Lane T X R) (Lane T X R) → Prop
  | .ok a => P a
  | .error a => P a

def Ends (P : Lane T X R → Prop) : Except (Lane T X R) (Lane T X R × List T) → Prop
  | .ok (a, _) => P a
  | .error a => P a

theorem bind_eq_ok {ε α β : Type*} {x : Except ε α} {f : α → Except ε β} {y : β}
    (h : x.bind f = .ok y) : ∃ a, x = .ok a ∧ f a = .ok y := by
  cases x with
  | error err => simp [Except.bind] at h
  | ok a => exact ⟨a, rfl, h⟩

section Keeping

variable {K : Kernels T X R} {g : Geometry} {P : Lane T X R → Prop}

/-- The session a turn works on: the server's, in the turn's mode. -/
theorem Turn.enter_session (t : Turn T X R) {srv : Server T X R} (hmode : srv.session.bxOn = false) :
    (t.enter K g ⟨srv.session, []⟩).session = srv.session.inMode t.byteexact := by
  unfold Turn.enter
  cases hbx : t.byteexact with
  | true => rfl
  | false =>
      simp only [Bool.false_eq_true, if_false, Session.inMode]
      rw [← hmode]

/-- Leaving changes the mode alone. -/
theorem Turn.leave_session (t : Turn T X R) (a : Lane T X R) (on : Bool) :
    (t.leave K g a).session.inMode on = a.session.inMode on := by
  unfold Turn.leave
  split <;> rfl

theorem Lane.call_ok {a a' : Lane T X R} {c : Call T X R} (h : a.call K g c = .ok a') :
    (c.exec K g a.session).err = none ∧ a' = a.after K g c := by
  unfold Lane.call at h
  cases herr : (c.exec K g a.session).err with
  | some text => simp [herr] at h
  | none =>
      simp only [herr, Except.ok.injEq] at h
      exact ⟨rfl, h.symm⟩

theorem Lane.call_error {a a' : Lane T X R} {c : Call T X R} (h : a.call K g c = .error a') :
    (c.exec K g a.session).err ≠ none ∧ a' = a.after K g c := by
  unfold Lane.call at h
  cases herr : (c.exec K g a.session).err with
  | none => simp [herr] at h
  | some text =>
      simp only [herr, Except.error.injEq] at h
      exact ⟨by simp, h.symm⟩

theorem Lane.call_settles {a : Lane T X R} {c : Call T X R} (h : P (a.after K g c)) :
    Settles P (a.call K g c) := by
  cases hcall : a.call K g c with
  | ok a' => rw [(Lane.call_ok hcall).2] at *; exact h
  | error a' => rw [(Lane.call_error hcall).2] at *; exact h

theorem Settles.bind {x : Except (Lane T X R) (Lane T X R)}
    {f : Lane T X R → Except (Lane T X R) (Lane T X R)} (hx : Settles P x)
    (hf : ∀ a, P a → Settles P (f a)) : Settles P (x.bind f) := by
  cases x with
  | ok a => exact hf a hx
  | error a => exact hx

theorem Settles.bind_ends {x : Except (Lane T X R) (Lane T X R)}
    {f : Lane T X R → Except (Lane T X R) (Lane T X R × List T)} (hx : Settles P x)
    (hf : ∀ a, P a → Ends P (f a)) : Ends P (x.bind f) := by
  cases x with
  | ok a => exact hf a hx
  | error a => exact hx

/-- The calls a turn may make after its cache is settled with the first `n` tokens all
satisfy `allowed`. -/
structure Turn.Makes (e : Env) (t : Turn T X R) (n : Nat) (allowed : Call T X R → Bool) :
    Prop where
  minting : ∀ c, c.mints = true → allowed c = true
  batch : t.wantsBatch e n = true → allowed (.prefillBatched (t.head n) t.decline) = true
  recalling : t.recalls = true → ∀ c ∈ t.recallPass.calls, allowed c = true
  replay : ∀ r, t.replay = some r → r.dir ≠ "" → 0 < r.npos →
    allowed (.replay r.ep r.npos false) = true

variable {e : Env} {t : Turn T X R} {n : Nat} {allowed : Call T X R → Bool}

theorem Lane.pass_keeps (hstep : ∀ a c, allowed c = true → P a → P (a.after K g c))
    (p : Pass T X R) (hp : ∀ c ∈ p.calls, allowed c = true) (a : Lane T X R) (ha : P a) :
    P (a.pass K g p) := by
  unfold Lane.pass
  generalize p.calls = calls at hp
  induction calls generalizing a with
  | nil => exact ha
  | cons c rest ih =>
      exact ih (a.after K g c) (hstep a c (hp c (by simp)) ha)
        fun c' hc' => hp c' (List.mem_cons_of_mem _ hc')

theorem Turn.ingest_keeps (hstep : ∀ a c, allowed c = true → P a → P (a.after K g c))
    (hmakes : t.Makes e n allowed) (a : Lane T X R) (ha : P a) :
    Settles P (t.ingest K g e n a) := by
  have hlast : ∀ a, P a → Settles P (a.call K g (if t.singleEntry then
      .injectTokens (t.head n) false t.headFaults else .prefill (t.head n) t.headFaults)) := by
    intro a ha
    refine Lane.call_settles (hstep _ _ (hmakes.minting _ ?_) ha)
    split <;> rfl
  unfold ingest
  dsimp only
  split
  case isTrue => exact ha
  case isFalse =>
    cases hbatch : t.wantsBatch e n with
    | false => exact hlast a ha
    | true =>
        have hdone : Settles P (a.call K g (.prefillBatched (t.head n) t.decline)) :=
          Lane.call_settles (hstep _ _ (hmakes.batch hbatch) ha)
        simp only [if_true]
        cases hcall : a.call K g (.prefillBatched (t.head n) t.decline) with
        | ok a' => rw [hcall] at hdone; exact hdone
        | error a' => rw [hcall] at hdone; exact hlast a' hdone

theorem Turn.started_keeps [DecidableEq T]
    (hstep : ∀ a c, allowed c = true → P a → P (a.after K g c)) (srv : Server T X R)
    (hmakes : t.Makes e ((t.reusable e srv).getD 0) allowed) (a : Lane T X R)
    (hsettle : Settles P (t.settle K g e srv a)) :
    Settles P (t.started K g e srv a) := by
  refine Settles.bind (Settles.bind (hsettle.bind (t.ingest_keeps hstep hmakes)) ?_) ?_
  · intro a ha
    unfold mount
    split
    · exact ha
    · split
      · exact ha
      · split
        · exact ha
        · exact Lane.call_settles (hstep _ _ (hmakes.minting _ rfl) ha)
  · intro a ha
    have hrecall : P (t.recallStage K g a) := by
      unfold recallStage
      split
      case isTrue hrecalls => exact Lane.pass_keeps hstep _ (hmakes.recalling hrecalls) a ha
      case isFalse => exact ha
    unfold attach
    cases hreplay : t.replay with
    | none => exact hrecall
    | some r =>
        dsimp only
        split
        case isTrue hr =>
          exact Lane.call_settles (hstep _ _ (hmakes.replay r hreplay hr.1 hr.2) hrecall)
        case isFalse => exact hrecall

theorem Turn.think_keeps (hstep : ∀ a c, allowed c = true → P a → P (a.after K g c))
    (hmakes : t.Makes e n allowed) (thoughts : List (X × Script)) (a : Lane T X R) (ha : P a) :
    P (t.think K g thoughts a) := by
  induction thoughts generalizing a with
  | nil => exact ha
  | cons thought rest ih =>
      have hdone := hstep a (.injectSeq [thought.1] t.injectPh thought.2)
        (hmakes.minting _ rfl) ha
      simp only [think]
      cases hcall : a.call K g (.injectSeq [thought.1] t.injectPh thought.2) with
      | error a' =>
          rw [← (Lane.call_error hcall).2] at hdone
          exact hdone
      | ok a' =>
          rw [← (Lane.call_ok hcall).2] at hdone
          exact ih a' hdone

theorem Turn.stream_keeps (hstep : ∀ a c, allowed c = true → P a → P (a.after K g c))
    (hmakes : t.Makes e n allowed) (loop : List (Iteration T)) (a : Lane T X R) (ha : P a) :
    Ends P (stream K g loop a) := by
  induction loop generalizing a with
  | nil => exact ha
  | cons i rest ih =>
      have hdone := hstep a (.decodeLogits i.next i.fault) (hmakes.minting _ rfl) ha
      simp only [stream]
      split
      · exact ha
      · cases i.push with
        | gone => exact ha
        | stopped => exact ha
        | sent =>
            dsimp only
            cases hcall : a.call K g (.decodeLogits i.next i.fault) with
            | error a' =>
                rw [← (Lane.call_error hcall).2] at hdone
                exact hdone
            | ok a' =>
                rw [← (Lane.call_ok hcall).2] at hdone
                have hrest := ih a' hdone
                dsimp only
                cases hstream : stream K g rest a' with
                | error a'' => rw [hstream] at hrest; exact hrest
                | ok out => rw [hstream] at hrest; exact hrest

/-- The invariant rule for a turn: what settling establishes and every call it may make
keeps holds at its end. -/
theorem Turn.body_keeps [DecidableEq T]
    (hstep : ∀ a c, allowed c = true → P a → P (a.after K g c)) (srv : Server T X R)
    (hmakes : t.Makes e ((t.reusable e srv).getD 0) allowed) (last : T)
    (hsettle : Settles P (t.settle K g e srv (t.enter K g ⟨srv.session, []⟩))) :
    Ends P (t.body K g e srv last) := by
  refine (t.started_keeps hstep srv hmakes _ hsettle).bind_ends ?_
  intro a ha
  unfold synthesize
  split
  · exact hstep a .resetCold (hmakes.minting _ rfl) ha
  · refine Settles.bind_ends (Lane.call_settles (hstep _ _ (hmakes.minting _ rfl) ha)) ?_
    intro a' ha'
    exact Turn.stream_keeps hstep hmakes _ _ (t.think_keeps hstep hmakes _ _ ha')

end Keeping

/-- Rows that name their mode, position and token: kernels for concrete turns. -/
def tokenKernels : Kernels Nat Nat Nat where
  embed tok := tok
  ple _ _ x := x
  kvRow on _ pos x := (if on then 1000 else 0) + 10 * x + pos
  layer _ _ _ x _ := x
  argmax _ _ := 0
  batchRow _ _ _ _ := 0
  attenuate _ r := r
  zero := 0

/-- One sliding-window layer of eight positions without a ring. -/
def plainGeometry : Geometry := soloGeometry 8 16 0 64 (by decide) (by decide)

/-- Nothing set but the default prefix reuse. -/
def plainEnv : Env := ⟨true, false, false, false, false, false, false, false, false⟩

/-- A request without recall. -/
def chatTurn (byteexact : Bool) (tokens : List Nat) (loop : List (Iteration Nat)) :
    Turn Nat Nat Nat where
  tokens := tokens
  byteexact := byteexact
  replay := none
  singleEntry := false
  injectFrames := none
  ragged := false
  injectPh := 0
  autoRecall := false
  decline := none
  headFaults := noFaults
  framesFaults := noFaults
  recallPass := ⟨⟨[], by simp⟩, false, none⟩
  symbolicDecline := false
  synFault := none
  thoughts := []
  loop := loop
  consolidate := ⟨[], by simp⟩

end ShannonPrime.Daemon
