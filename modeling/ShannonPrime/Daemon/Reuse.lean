import ShannonPrime.Daemon.Turn

/-!
Prefix reuse across turns. `KV_COMMITTED` is compared with the cache by length only,
so it matters which turn wrote it last and what has happened to the cache since. The
ledger keeps that history beside the server; when it says that the committed tokens
are fresh, the cache holds exactly them.
-/

namespace ShannonPrime.Daemon

open Kv

variable {T X R : Type*}

/-- `fresh`: the last turn that got past settling the cache reached its update of the
committed tokens, and apart from the prefill and the decoding it only peeked. `exact`
is its mode, and from `floor` on the ring's journal is as the steps wrote it. -/
structure Ledger where
  fresh : Bool
  exact : Bool
  floor : Nat

section CommonPrefix

variable [DecidableEq T]

theorem commonPrefix_le (maxp : Nat) (as bs : List T) :
    commonPrefix maxp as bs ≤ maxp ∧ commonPrefix maxp as bs ≤ bs.length := by
  induction maxp generalizing as bs with
  | zero => simp [commonPrefix]
  | succ maxp ih =>
      cases as with
      | nil => simp [commonPrefix]
      | cons a as =>
          cases bs with
          | nil => simp [commonPrefix]
          | cons b bs =>
              have := ih as bs
              simp only [commonPrefix, List.length_cons]
              split <;> omega

theorem commonPrefix_take (maxp : Nat) (as bs : List T) :
    as.take (commonPrefix maxp as bs) = bs.take (commonPrefix maxp as bs) := by
  induction maxp generalizing as bs with
  | zero => simp [commonPrefix]
  | succ maxp ih =>
      cases as with
      | nil => simp [commonPrefix]
      | cons a as =>
          cases bs with
          | nil => simp [commonPrefix]
          | cons b bs =>
              simp only [commonPrefix]
              split
              case isTrue heq => simp [heq, ih as bs]
              case isFalse => simp

end CommonPrefix

namespace Turn

variable [DecidableEq T] (K : Kernels T X R) (g : Geometry) (e : Env) (t : Turn T X R)

/-- Besides the prefill and the decoding the turn only peeks. -/
def quiet : Bool :=
  t.thoughts.isEmpty &&
    (!t.recalls || (t.recallPass.synLast.isNone && t.recallPass.calls.all Call.isPeek))

/-- The reused prefix, if any, is fresh, of the turn's own mode, and can be rewound to:
on a ring the rewind stays where the journal can be trusted, all of it while it has not
slid and one entry after that. -/
def sound (lg : Ledger) (srv : Server T X R) : Bool :=
  match t.reusable e srv with
  | none => true
  | some lcp => lg.fresh && lg.exact == t.byteexact &&
      (lcp == srv.committed.length || g.ringW == 0 ||
        (decide (lg.floor ≤ lcp) &&
          (srv.session.commitPos == 0 || decide (srv.committed.length ≤ lcp + 1))))

/-- The turn leaves exactly its own tokens in the cache. -/
def clean (srv : Server T X R) : Bool :=
  srv.session.inj.isNone && t.quiet &&
    !(t.wantsBatch e ((t.reusable e srv).getD 0) && t.decline.isNone)

def settledFloor (lg : Ledger) (srv : Server T X R) : Nat :=
  match t.reusable e srv with
  | none => 0
  | some lcp =>
      if lcp = srv.committed.length then lg.floor
      else if srv.session.commitPos = 0 then min lg.floor lcp else lcp

/-- A peek costs the entry of its position. -/
def nextFloor (lg : Ledger) (srv : Server T X R) : Nat :=
  if t.recalls && !t.recallPass.calls.isEmpty then t.tokens.length else t.settledFloor e lg srv

/-- The ledger after the turn. A turn without tokens and one whose rewind is refused
change nothing. -/
def nextLedger (srv : Server T X R) (lg : Ledger) : Ledger :=
  match t.tokens.getLast? with
  | none => lg
  | some last =>
      match t.settle K g e srv (t.enter K g ⟨srv.session, []⟩) with
      | .error _ => lg
      | .ok _ =>
          match t.body K g e srv last with
          | .error _ => { lg with fresh := false }
          | .ok _ => ⟨t.persists e && t.clean e srv && !t.recalled && t.sound g e lg srv,
              t.byteexact, t.nextFloor e lg srv⟩

/-- When the turn takes the reuse path, the cache is the one a reset and a prefill of
the committed tokens would leave, and then, when the prompt head is in, the one of a
prefill of the turn's own tokens but the last. A recall stage that only peeks leaves
it so until synthesis starts. -/
def ReusesSoundly (srv : Server T X R) : Prop :=
  let a := t.enter K g ⟨srv.session, []⟩
  (t.reusable e srv).isSome = true →
    a.session.SameCache g (a.session.refilled K g srv.committed) ∧
    (∀ a', t.filled K g e srv a = .ok a' →
      a'.session.SameCache g (a'.session.refilled K g t.tokens.dropLast)) ∧
    (t.quiet = true → ∀ a', t.started K g e srv a = .ok a' →
      a'.session.SameCache g (a'.session.refilled K g t.tokens.dropLast))

end Turn

/-- The daemon started on a session just opened. -/
def Server.opened (dseq : Nat → T) (kv jkv : Nat → Nat → R) : Server T X R :=
  ⟨Session.opened dseq kv jkv, []⟩

def Ledger.opened : Ledger := ⟨false, false, 0⟩

section Kept

variable (K : Kernels T X R) (g : Geometry)

/-- What the ledger stands for. -/
structure Kept (b : Session T X R) (srv : Server T X R) (lg : Ledger) : Prop where
  mode : srv.session.bxOn = false
  spanning : Spanning g srv.session
  held : lg.fresh = true → srv.session.dpos = srv.committed.length →
    Tracks K g b lg.exact srv.committed lg.floor (srv.session.inMode lg.exact) ∧
      srv.committed.length ≤ g.pmax

variable {K} {g} {b : Session T X R}

theorem Kept.opened (dseq : Nat → T) (kv jkv : Nat → Nat → R) :
    Kept K g b (Server.opened dseq kv jkv) Ledger.opened where
  mode := rfl
  spanning _ := Nat.le_refl _
  held hfresh := by simp [Ledger.opened] at hfresh

end Kept

section Stages

variable {K : Kernels T X R} {g : Geometry} {e : Env} {t : Turn T X R} {b : Session T X R}

/-- The prefill adds what is missing of the prompt but its last token. -/
theorem Turn.ingest_tracks {n floor : Nat} {a a' : Lane T X R} (hn : n < t.tokens.length)
    (hsingle : t.singleEntry = false)
    (hstep : (t.wantsBatch e n && t.decline.isNone) = false)
    (h : Tracks K g b t.byteexact (t.tokens.take n) floor a.session)
    (hroom : (t.tokens.take n).length ≤ g.pmax) (hingest : t.ingest K g e n a = .ok a') :
    Tracks K g b t.byteexact t.tokens.dropLast floor a'.session ∧
      t.tokens.dropLast.length ≤ g.pmax := by
  have hprompt : t.tokens.take n ++ t.head n = t.tokens.dropLast := by
    unfold head
    rw [show t.tokens.take n = t.tokens.dropLast.take n by
      rw [List.dropLast_eq_take, List.take_take, Nat.min_eq_left (by omega)]]
    exact List.take_append_drop n _
  unfold ingest at hingest
  dsimp only at hingest
  split at hingest
  case isTrue hempty =>
    simp only [Except.ok.injEq] at hingest
    rw [List.isEmpty_iff] at hempty
    rw [hempty, List.append_nil] at hprompt
    rw [← hprompt, ← hingest]
    exact ⟨h, hroom⟩
  case isFalse hsome =>
    -- a batched prefill that is wanted is refused, and the cache is as before
    obtain ⟨a₀, hsession, hcall⟩ : ∃ a₀ : Lane T X R, a₀.session = a.session ∧
        a₀.call K g (.prefill (t.head n) t.headFaults) = .ok a' := by
      cases hbatch : t.wantsBatch e n with
      | false =>
          simp only [hbatch, hsingle, Bool.false_eq_true, if_false] at hingest
          exact ⟨a, rfl, hingest⟩
      | true =>
          cases hdecline : t.decline with
          | none => simp [hbatch, hdecline] at hstep
          | some text =>
              simp only [hbatch, hsingle, hdecline, if_true, Bool.false_eq_true, if_false] at hingest
              obtain ⟨text', hqueue⟩ := prefillBatched_declined g a.session (t.head n) text
              cases hcall : a.call K g (.prefillBatched (t.head n) (some text)) with
              | ok a₁ =>
                  have hok := (Lane.call_ok hcall).1
                  simp [Call.exec, Call.queue, hqueue] at hok
              | error a₁ =>
                  rw [hcall] at hingest
                  refine ⟨a₁, ?_, hingest⟩
                  rw [(Lane.call_error hcall).2]
                  simp [Lane.after, Call.exec, Call.queue, hqueue]
    obtain ⟨hok, rfl⟩ := Lane.call_ok hcall
    rw [← hsession] at h
    have hdone := h.prefill (t.head n) t.headFaults hok
    rw [hprompt] at hdone
    exact hdone

theorem Turn.pass_tracks {b : Session T X R} {on : Bool} {toks : List T} {floor : Nat}
    {a : Lane T X R} (p : Pass T X R) (hp : p.calls.all Call.isPeek = true)
    (h : Tracks K g b on toks floor a.session) :
    Tracks K g b on toks (if p.calls.isEmpty then floor else toks.length + 1)
      (a.pass K g p).session := by
  unfold Lane.pass
  generalize p.calls = calls at hp ⊢
  induction calls generalizing a floor with
  | nil => exact h
  | cons c rest ih =>
      simp only [List.all_cons, Bool.and_eq_true] at hp
      cases c <;> simp only [Call.isPeek, Bool.false_eq_true, false_and] at hp
      case readGlobalQ tok f =>
        have hpeek := h.peek tok f
        rw [h.dpos] at hpeek
        have hdone := ih (a := a.after K g (.readGlobalQ tok f)) hpeek hp.2
        simpa using hdone

/-- A quiet recall stage keeps the prompt where it is. -/
theorem Turn.recallStage_tracks {floor : Nat} {a : Lane T X R} (hquiet : t.quiet = true)
    (hlen : 0 < t.tokens.length)
    (h : Tracks K g b t.byteexact t.tokens.dropLast floor a.session) :
    Tracks K g b t.byteexact t.tokens.dropLast
      (if t.recalls && !t.recallPass.calls.isEmpty then t.tokens.length else floor)
      (t.recallStage K g a).session := by
  unfold recallStage
  cases hrecalls : t.recalls with
  | false => simpa using h
  | true =>
      simp only [quiet, hrecalls, Bool.not_true, Bool.false_or, Bool.and_eq_true] at hquiet
      have hpass := Turn.pass_tracks t.recallPass.toPass hquiet.2.2 h
      rw [List.length_dropLast, Nat.sub_add_cancel hlen] at hpass
      cases hcalls : t.recallPass.calls.isEmpty <;> simpa [hcalls] using hpass

/-- The decode loop lists what it decodes. When its last step has not moved the
position, the list is one longer than the cache. -/
theorem Turn.stream_tracks {on : Bool} {toks : List T} {floor : Nat} (loop : List (Iteration T))
    {a a' : Lane T X R} {gen : List T} (h : Tracks K g b on toks floor a.session)
    (hroom : toks.length ≤ g.pmax) (hstream : stream K g loop a = .ok (a', gen))
    (hat : a'.session.dpos = (toks ++ gen).length) :
    Tracks K g b on (toks ++ gen) floor a'.session ∧ (toks ++ gen).length ≤ g.pmax := by
  induction loop generalizing a toks gen with
  | nil =>
      simp only [stream, Except.ok.injEq, Prod.mk.injEq] at hstream
      obtain ⟨rfl, rfl⟩ := hstream
      simpa using ⟨h, hroom⟩
  | cons i rest ih =>
      have hdone : a'.session = a.session ∧ gen = [] →
          Tracks K g b on (toks ++ gen) floor a'.session ∧ (toks ++ gen).length ≤ g.pmax := by
        rintro ⟨hsame, rfl⟩
        rw [hsame]
        simpa using ⟨h, hroom⟩
      simp only [stream] at hstream
      split at hstream
      · simp only [Except.ok.injEq, Prod.mk.injEq] at hstream
        exact hdone ⟨by rw [hstream.1], hstream.2.symm⟩
      · cases hpush : i.push with
        | gone => simp [hpush] at hstream
        | stopped =>
            simp only [hpush, Except.ok.injEq, Prod.mk.injEq] at hstream
            exact hdone ⟨by rw [hstream.1], hstream.2.symm⟩
        | sent =>
            simp only [hpush] at hstream
            cases hcall : a.call K g (.decodeLogits i.next i.fault) with
            | error a₁ =>
                simp only [hcall, Except.ok.injEq, Prod.mk.injEq] at hstream
                obtain ⟨rfl, rfl⟩ := hstream
                rw [(Lane.call_error hcall).2] at hat ⊢
                refine h.decodeLogits i.next i.fault ?_
                intro hstay
                rw [List.length_append, List.length_singleton, ← h.dpos] at hat
                change _ = _ at hat
                simp only [Lane.after] at hat
                omega
            | ok a₁ =>
                obtain ⟨hok, rfl⟩ := Lane.call_ok hcall
                have hmoved := decodeLogits_ok K g i.next i.fault a.session hok
                obtain ⟨hnext, hroom'⟩ := h.decodeLogits i.next i.fault (by omega)
                simp only [hcall] at hstream
                cases hrest : stream K g rest (a.after K g (.decodeLogits i.next i.fault)) with
                | error a'' => simp [hrest] at hstream
                | ok out =>
                    obtain ⟨a'', gen'⟩ := out
                    simp only [hrest, Except.ok.injEq, Prod.mk.injEq] at hstream
                    obtain ⟨rfl, rfl⟩ := hstream
                    rw [List.append_cons] at hat ⊢
                    exact ih hnext hroom' hrest hat

theorem Turn.persists_spec (h : t.persists e = true) :
    t.replay = none ∧ t.singleEntry = false ∧ t.injectFrames = none ∧ e.decide = false := by
  simp only [Turn.persists, Bool.and_eq_true, Option.isNone_iff_eq_none, Bool.not_eq_true'] at h
  obtain ⟨⟨⟨⟨⟨⟨⟨⟨⟨_, hreplay⟩, hsingle⟩, hframes⟩, hdecide⟩, _⟩, _⟩, _⟩, _⟩, _⟩ := h
  exact ⟨hreplay, hsingle, hframes, hdecide⟩

/-- Every turn makes calls that leave the mode alone, whatever it does. -/
theorem Turn.makes_modeless (t : Turn T X R) (n : Nat) :
    t.Makes e n fun c => !c.setsMode where
  minting c hc := by cases c <;> simp [Call.mints, Call.setsMode] at hc ⊢
  batch _ := rfl
  recalling _ c hc := by simp [t.recallPass.keepsMode c hc]
  replay _ _ _ _ := rfl

end Stages

section Runs

variable [DecidableEq T] (K : Kernels T X R) (g : Geometry) (e : Env)

/-- The server and the ledger after a run of turns. -/
def history (turns : List (Turn T X R)) (srv : Server T X R) (lg : Ledger) :
    Server T X R × Ledger :=
  turns.foldl (fun state t => ((t.serve K g e state.1).1, t.nextLedger K g e state.1 state.2))
    (srv, lg)

variable {K} {g} {e} {t : Turn T X R} {b : Session T X R} {srv : Server T X R} {lg : Ledger}

theorem Turn.reusable_spec {lcp : Nat} (h : t.reusable e srv = some lcp) :
    t.persists e = true ∧ srv.session.dpos = srv.committed.length ∧ 1 ≤ lcp ∧
      lcp < t.tokens.length ∧ lcp ≤ srv.committed.length ∧
      t.tokens.take lcp = srv.committed.take lcp := by
  simp only [Turn.reusable] at h
  split at h
  case isFalse => simp at h
  case isTrue hguard =>
    simp only [Bool.and_eq_true, decide_eq_true_eq, beq_iff_eq] at hguard
    split at h
    case isFalse => simp at h
    case isTrue hlcp =>
      simp only [Option.some.injEq] at h
      subst h
      exact ⟨hguard.1.1, hguard.2, hlcp.1, hlcp.2.1, (commonPrefix_le _ _ _).2,
        commonPrefix_take _ _ _⟩

/-- A turn about to reuse a prefix finds exactly the committed tokens. -/
theorem Turn.enter_tracks (hkept : Kept K g b srv lg) (hsound : t.sound g e lg srv = true)
    {lcp : Nat} (hreuse : t.reusable e srv = some lcp) :
    Tracks K g b t.byteexact srv.committed lg.floor (t.enter K g ⟨srv.session, []⟩).session ∧
      srv.committed.length ≤ g.pmax := by
  obtain ⟨_, hat, _⟩ := Turn.reusable_spec hreuse
  simp only [sound, hreuse, Bool.and_eq_true, beq_iff_eq] at hsound
  have hheld := hkept.held hsound.1.1 hat
  rw [hsound.1.2] at hheld
  rw [t.enter_session hkept.mode]
  exact hheld

/-- The cache when it is settled holds the part of the prompt that is reused. -/
theorem Turn.settle_tracks (hkept : Kept K g b srv lg) (hsound : t.sound g e lg srv = true)
    (hidle : srv.session.inj = none) {a : Lane T X R}
    (hsettle : t.settle K g e srv (t.enter K g ⟨srv.session, []⟩) = .ok a) :
    Tracks K g b t.byteexact (t.tokens.take ((t.reusable e srv).getD 0))
        (t.settledFloor e lg srv) a.session ∧
      (t.tokens.take ((t.reusable e srv).getD 0)).length ≤ g.pmax := by
  have hsession := t.enter_session (K := K) (g := g) hkept.mode
  unfold settle at hsettle
  unfold settledFloor
  cases hreuse : t.reusable e srv with
  | none =>
      simp only [hreuse] at hsettle
      simp only [Option.getD_none, List.take_zero]
      refine ⟨?_, Nat.zero_le _⟩
      split at hsettle
      case isTrue =>
        rw [(Lane.call_ok hsettle).2]
        refine Tracks.reset ?_ ?_ <;> rw [hsession]
        · rfl
        · exact hidle
      case isFalse hcold =>
        simp only [Except.ok.injEq] at hsettle
        rw [← hsettle]
        have hdpos : srv.session.dpos = 0 := by
          rw [hsession] at hcold
          exact Nat.eq_zero_of_not_pos hcold
        rw [hsession]
        refine Tracks.cold hdpos ?_ rfl hidle
        intro hw
        have := hkept.spanning hw
        change srv.session.commitPos = 0
        omega
  | some lcp =>
      obtain ⟨hheld, hroom⟩ := Turn.enter_tracks hkept hsound hreuse
      obtain ⟨_, hat, _, _, hle, htake⟩ := Turn.reusable_spec hreuse
      simp only [hreuse] at hsettle
      simp only [Option.getD_some]
      rw [htake]
      refine ⟨?_, by rw [List.length_take]; omega⟩
      split at hsettle
      case isTrue hdrop =>
        obtain ⟨hok, rfl⟩ := Lane.call_ok hsettle
        have hdpos : (t.enter K g ⟨srv.session, []⟩).session.dpos = srv.committed.length := hheld.dpos
        have hcommit : (t.enter K g ⟨srv.session, []⟩).session.commitPos = srv.session.commitPos := by
          rw [hsession]
          rfl
        have hrewound := hheld.rewind (srv.committed.length - lcp) (by omega) (by
          intro hw
          simp only [sound, hreuse, Bool.and_eq_true, Bool.or_eq_true, beq_iff_eq,
            decide_eq_true_eq] at hsound
          rw [hdpos, hcommit]
          rcases hsound.2 with (hsame | hplain) | ⟨hfloor, hspan⟩
          · omega
          · omega
          · exact ⟨by omega, by omega⟩) hok
        rw [hdpos, hcommit, Nat.sub_sub_self hle] at hrewound
        rw [if_neg (by omega)]
        exact hrewound
      case isFalse hkeep =>
        simp only [Except.ok.injEq] at hsettle
        have hall : lcp = srv.committed.length := by omega
        rw [if_pos hall, hall, List.take_length, ← hsettle]
        exact hheld

/-- The cache when the prompt head is in. -/
theorem Turn.filled_tracks (hkept : Kept K g b srv lg) (hsound : t.sound g e lg srv = true)
    (hidle : srv.session.inj = none) (hlen : 0 < t.tokens.length) (hsingle : t.singleEntry = false)
    (hstep : (t.wantsBatch e ((t.reusable e srv).getD 0) && t.decline.isNone) = false)
    {a : Lane T X R} (hfilled : t.filled K g e srv (t.enter K g ⟨srv.session, []⟩) = .ok a) :
    Tracks K g b t.byteexact t.tokens.dropLast (t.settledFloor e lg srv) a.session ∧
      t.tokens.dropLast.length ≤ g.pmax := by
  obtain ⟨a₀, hsettle, hingest⟩ := bind_eq_ok hfilled
  obtain ⟨hsettled, hroom⟩ := Turn.settle_tracks hkept hsound hidle hsettle
  refine Turn.ingest_tracks ?_ hsingle hstep hsettled hroom hingest
  cases hreuse : t.reusable e srv with
  | none => exact hlen
  | some lcp => exact (Turn.reusable_spec hreuse).2.2.2.1

/-- The cache when synthesis starts, after a quiet recall stage. -/
theorem Turn.started_tracks (hpersists : t.persists e = true) (hquiet : t.quiet = true)
    (hlen : 0 < t.tokens.length) {floor : Nat}
    (hfilled : ∀ a, t.filled K g e srv (t.enter K g ⟨srv.session, []⟩) = .ok a →
      Tracks K g b t.byteexact t.tokens.dropLast floor a.session ∧
        t.tokens.dropLast.length ≤ g.pmax)
    {a : Lane T X R} (hstarted : t.started K g e srv (t.enter K g ⟨srv.session, []⟩) = .ok a) :
    Tracks K g b t.byteexact t.tokens.dropLast
        (if t.recalls && !t.recallPass.calls.isEmpty then t.tokens.length else floor) a.session ∧
      t.tokens.dropLast.length ≤ g.pmax := by
  obtain ⟨hreplay, _, hframes, _⟩ := Turn.persists_spec hpersists
  obtain ⟨a₁, hmount, hattach⟩ := bind_eq_ok hstarted
  obtain ⟨a₀, hfill, hmounted⟩ := bind_eq_ok hmount
  simp only [mount, hframes, Except.ok.injEq] at hmounted
  simp only [attach, hreplay, Except.ok.injEq] at hattach
  subst hmounted hattach
  obtain ⟨htracks, hroom⟩ := hfilled a₀ hfill
  exact ⟨Turn.recallStage_tracks hquiet hlen htracks, hroom⟩

/-- The cache when a clean turn updates the committed tokens. -/
theorem Turn.body_tracks (hkept : Kept K g b srv lg) (hsound : t.sound g e lg srv = true)
    (hpersists : t.persists e = true) (hclean : t.clean e srv = true) {last : T}
    (hlast : t.tokens.getLast? = some last) {a : Lane T X R} {gen : List T}
    (hbody : t.body K g e srv last = .ok (a, gen))
    (hat : a.session.dpos = (t.tokens ++ gen).length) :
    Tracks K g b t.byteexact (t.tokens ++ gen) (t.nextFloor e lg srv) a.session ∧
      (t.tokens ++ gen).length ≤ g.pmax := by
  simp only [clean, Bool.and_eq_true, Option.isNone_iff_eq_none, Bool.not_eq_true'] at hclean
  obtain ⟨⟨hidle, hquiet⟩, hstep⟩ := hclean
  obtain ⟨_, hsingle, _, _⟩ := Turn.persists_spec hpersists
  have hprompt : t.tokens.dropLast ++ [last] = t.tokens := List.dropLast_append_getLast? last hlast
  have hlen : 0 < t.tokens.length := by
    rw [← hprompt]
    simp
  obtain ⟨a₀, hstarted, hsyn⟩ := bind_eq_ok hbody
  obtain ⟨htracks, _⟩ := Turn.started_tracks hpersists hquiet hlen
    (fun a₁ hfilled => Turn.filled_tracks hkept hsound hidle hlen hsingle hstep hfilled) hstarted
  have hquiet' := hquiet
  simp only [quiet, Bool.and_eq_true, Bool.or_eq_true, Bool.not_eq_true', List.isEmpty_iff,
    Option.isNone_iff_eq_none] at hquiet'
  have hsynLast : t.synLast last = last := by
    unfold synLast
    cases hrecalls : t.recalls with
    | false => rfl
    | true => simp [(hquiet'.2.resolve_left (by simp [hrecalls])).1]
  unfold synthesize at hsyn
  split at hsyn
  case isTrue => simp at hsyn
  case isFalse =>
    obtain ⟨a₁, hcall, hstream⟩ := bind_eq_ok hsyn
    obtain ⟨hok, rfl⟩ := Lane.call_ok hcall
    rw [hsynLast] at hstream hok
    have hmoved := decodeLogits_ok K g last t.synFault a₀.session hok
    obtain ⟨hnext, hroom⟩ := htracks.decodeLogits last t.synFault (by omega)
    rw [hprompt] at hnext hroom
    rw [hquiet'.1] at hstream
    refine Turn.stream_tracks (a := a₀.after K g (.decodeLogits last t.synFault)) t.loop ?_ hroom
      hstream hat
    exact hnext

/-- A settling that ends the turn has changed nothing. -/
theorem Turn.settle_error {a a' : Lane T X R} (h : t.settle K g e srv a = .error a') :
    a'.session = a.session := by
  unfold settle at h
  cases hreuse : t.reusable e srv with
  | none =>
      simp only [hreuse] at h
      split at h
      · exact absurd rfl (Lane.call_error h).1
      · simp at h
  | some lcp =>
      simp only [hreuse] at h
      split at h
      · obtain ⟨hfails, rfl⟩ := Lane.call_error h
        simp only [Lane.after]
        cases hqueue : (Call.rewind ((srv.committed.length - lcp : Nat) : Int) :
            Call T X R).queue K g a.session with
        | error text => simp [Call.exec, hqueue]
        | ok ops =>
            obtain ⟨rfl, _⟩ := gemma4KvRewind_ok g a.session _ ops hqueue
            exact absurd (by simp [Call.exec, hqueue, runOps, runOp]) hfails
      · simp at h

/-- Between turns the mode is off, and the journal starts below the live position. -/
theorem Turn.serve_spanning (hmode : srv.session.bxOn = false) (hspan : Spanning g srv.session)
    (t : Turn T X R) :
    (t.serve K g e srv).1.session.bxOn = false ∧ Spanning g (t.serve K g e srv).1.session := by
  let P : Lane T X R → Prop := fun a => a.session.bxOn = t.byteexact ∧ Spanning g a.session
  have hstep : ∀ a c, (!c.setsMode) = true → P a → P (a.after K g c) := by
    intro a c hc ha
    exact ⟨(Call.exec_bxOn K g c (by simpa using hc) a.session).trans ha.1, ha.2.call K c⟩
  have henter : P (t.enter K g ⟨srv.session, []⟩) := by
    simp only [P]
    rw [t.enter_session hmode]
    exact ⟨rfl, hspan⟩
  have hsettle : Settles P (t.settle K g e srv (t.enter K g ⟨srv.session, []⟩)) := by
    unfold settle
    split
    · split
      · exact Lane.call_settles (hstep _ _ rfl henter)
      · exact henter
    · split
      · exact Lane.call_settles (hstep _ _ rfl henter)
      · exact henter
  have hleave : ∀ a, P a → (t.leave K g a).session.bxOn = false ∧
      Spanning g (t.leave K g a).session := by
    intro a ha
    unfold leave
    split
    case isTrue => exact ⟨rfl, ha.2⟩
    case isFalse hoff => exact ⟨by rw [ha.1]; simpa using hoff, ha.2⟩
  unfold serve
  cases hlast : t.tokens.getLast? with
  | none => exact ⟨hmode, hspan⟩
  | some last =>
      have hbody := Turn.body_keeps hstep srv (t.makes_modeless _) last hsettle
      dsimp only
      cases hdone : t.body K g e srv last with
      | error a =>
          rw [hdone] at hbody
          exact hleave a hbody
      | ok out =>
          rw [hdone] at hbody
          dsimp only
          split
          · refine hleave _ (Lane.pass_keeps hstep t.consolidate ?_ out.1 hbody)
            intro c hc
            simp [t.consolidate.keepsMode c hc]
          · exact hleave _ hbody

/-- A turn whose rewind is refused changes nothing. -/
theorem Turn.serve_refused (hmode : srv.session.bxOn = false) {last : T} {a : Lane T X R}
    (hlast : t.tokens.getLast? = some last)
    (hsettle : t.settle K g e srv (t.enter K g ⟨srv.session, []⟩) = .error a) :
    (t.serve K g e srv).1.committed = srv.committed ∧
      ∀ on, (t.serve K g e srv).1.session.inMode on = srv.session.inMode on := by
  have hbody : t.body K g e srv last = .error a := by
    simp [body, started, filled, hsettle, Except.bind]
  simp only [serve, hlast, hbody, true_and]
  intro on
  rw [t.leave_session, Turn.settle_error hsettle, t.enter_session hmode]
  rfl

/-- A turn keeps what the ledger stands for. -/
theorem Kept.serve (h : Kept K g b srv lg) (t : Turn T X R) :
    Kept K g b (t.serve K g e srv).1 (t.nextLedger K g e srv lg) := by
  obtain ⟨hmode, hspan⟩ := Turn.serve_spanning (K := K) (e := e) h.mode h.spanning t
  refine ⟨hmode, hspan, ?_⟩
  unfold Turn.nextLedger
  cases hlast : t.tokens.getLast? with
  | none =>
      simp only [Turn.serve, hlast]
      exact h.held
  | some last =>
      dsimp only
      cases hsettle : t.settle K g e srv (t.enter K g ⟨srv.session, []⟩) with
      | error a =>
          obtain ⟨hcommitted, hsame⟩ := Turn.serve_refused h.mode hlast hsettle
          intro hfresh hat
          rw [hcommitted] at hat ⊢
          rw [hsame]
          exact h.held hfresh ((congrArg Session.dpos (hsame false)).symm.trans hat)
      | ok a₀ =>
          dsimp only
          cases hbody : t.body K g e srv last with
          | error a => simp
          | ok out =>
              obtain ⟨a, gen⟩ := out
              intro hfresh hat
              simp only [Bool.and_eq_true, Bool.not_eq_true'] at hfresh
              obtain ⟨⟨⟨hpersists, hclean⟩, hplain⟩, hsound⟩ := hfresh
              obtain ⟨_, _, _, hdecide⟩ := Turn.persists_spec hpersists
              simp only [Turn.serve, hlast, hbody, hdecide, hpersists, hplain, Bool.false_eq_true,
                if_false, if_true] at hat ⊢
              have hdpos := congrArg Session.dpos (t.leave_session (K := K) (g := g) a false)
              obtain ⟨htracks, hroom⟩ := Turn.body_tracks h hsound hpersists hclean hlast hbody
                (hdpos.symm.trans hat)
              have hsame : a.session.inMode t.byteexact = a.session := by
                rw [← htracks.mode]
                rfl
              rw [t.leave_session, hsame]
              exact ⟨htracks, hroom⟩

theorem Kept.history (h : Kept K g b srv lg) (turns : List (Turn T X R)) :
    Kept K g b (history K g e turns srv lg).1 (history K g e turns srv lg).2 := by
  induction turns generalizing srv lg with
  | nil => exact h
  | cons t rest ih => exact ih (h.serve t)

variable (K) (g) (e)

/-- Prefix reuse is sound wherever the ledger vouches for it. After any run of turns, a
turn that is about to reuse a prefix which is fresh, of its own mode and within the
trusted journal works on the cache that a reset and a prefill would give it. -/
theorem persist_reuse_sound (dseq : Nat → T) (kv jkv : Nat → Nat → R) (turns : List (Turn T X R))
    (t : Turn T X R) :
    let state := Daemon.history K g e turns (Server.opened dseq kv jkv) Ledger.opened
    t.sound g e state.2 state.1 = true → t.ReusesSoundly K g e state.1 := by
  intro state hsound
  have hkept : Kept K g (Session.opened dseq kv jkv) state.1 state.2 :=
    (Kept.opened dseq kv jkv).history turns
  intro hreuse
  obtain ⟨lcp, hlcp⟩ := Option.isSome_iff_exists.mp hreuse
  obtain ⟨hentered, hroom⟩ := Turn.enter_tracks hkept hsound hlcp
  obtain ⟨hpersists, _, hpos, hlt, _⟩ := Turn.reusable_spec hlcp
  obtain ⟨_, hsingle, _, _⟩ := Turn.persists_spec hpersists
  have hidle : state.1.session.inj = none := by
    have hnone := hentered.idle
    rwa [t.enter_session hkept.mode] at hnone
  have hstep : (t.wantsBatch e ((t.reusable e state.1).getD 0) && t.decline.isNone) = false := by
    have hwarm : lcp ≠ 0 := by omega
    simp [Turn.wantsBatch, hlcp, hwarm]
  have hfilled : ∀ a, t.filled K g e state.1 (t.enter K g ⟨state.1.session, []⟩) = .ok a →
      Tracks K g (Session.opened dseq kv jkv) t.byteexact t.tokens.dropLast
          (t.settledFloor e state.2 state.1) a.session ∧ t.tokens.dropLast.length ≤ g.pmax :=
    fun a hfill => Turn.filled_tracks hkept hsound hidle (by omega) hsingle hstep hfill
  refine ⟨hentered.sameCache hroom, ?_, ?_⟩
  · intro a hfill
    obtain ⟨htracks, hroom'⟩ := hfilled a hfill
    exact htracks.sameCache hroom'
  · intro hquiet a hstarted
    obtain ⟨htracks, hroom'⟩ := Turn.started_tracks hpersists hquiet (by omega) hfilled hstarted
    exact htracks.sameCache hroom'

end Runs

/-- A turn on `1, 2` answers `3`; the next prompt extends `1, 2, 3` and reuses all of it. -/
theorem persist_reuse_sound_appended :
    let A := chatTurn true [1, 2] [⟨3, false, .sent, none⟩, ⟨0, true, .sent, none⟩]
    let C := chatTurn true [1, 2, 3, 9] [⟨0, true, .sent, none⟩]
    let state := history tokenKernels plainGeometry plainEnv [A]
      (Server.opened (fun _ => 0) (fun _ _ => 5) (fun _ _ => 6)) Ledger.opened
    C.reusable plainEnv state.1 = some 3 ∧
      C.ReusesSoundly tokenKernels plainGeometry plainEnv state.1 := by
  intro A C state
  refine ⟨by decide, ?_⟩
  exact persist_reuse_sound tokenKernels plainGeometry plainEnv (fun _ => 0) (fun _ _ => 5)
    (fun _ _ => 6) [A] C (by decide)

/-- Between the two turns the client of a third, on `5, 6, 7`, is gone before its first
text: three positions again, and `KV_COMMITTED` still says `1, 2, 3`. The prompt on
`1, 2, 3, 9` then reuses the rows of `5, 6, 7`. -/
theorem stale_prefix_reused :
    let A := chatTurn true [1, 2] [⟨3, false, .sent, none⟩, ⟨0, true, .sent, none⟩]
    let B := chatTurn true [5, 6, 7] [⟨8, false, .gone, none⟩]
    let C := chatTurn true [1, 2, 3, 9] [⟨0, true, .sent, none⟩]
    let state := history tokenKernels plainGeometry plainEnv [A, B]
      (Server.opened (fun _ => 0) (fun _ _ => 5) (fun _ _ => 6)) Ledger.opened
    state.1.committed = [1, 2, 3] ∧ C.reusable plainEnv state.1 = some 3 ∧
      ¬C.ReusesSoundly tokenKernels plainGeometry plainEnv state.1 := by
  intro A B C state
  refine ⟨by decide, by decide, ?_⟩
  intro h
  obtain ⟨_, hrows⟩ := (h (by decide)).1
  exact absurd (hrows 0 (by decide) 0 (by decide) (by decide)) (by decide)

end ShannonPrime.Daemon
