import ShannonPrime.Daemon.Reuse
import ShannonPrime.Kv.Exact

/-!
The byte-exact mode across turns. It is a switch of the request, while the cache
outlives the request: prefix reuse hands a byte-exact turn the rows of the turns before,
in whatever mode they were computed, and the batched prefill computes float rows.
-/

namespace ShannonPrime.Daemon

open Kv

variable {T X R : Type*}

namespace Turn

variable [DecidableEq T] (K : Kernels T X R) (g : Geometry) (e : Env) (t : Turn T X R)

/-- The turn mints its own rows stepwise, and those it reuses are byte-exact: every turn
that made them was (`pure`), and a rewind to them crosses no ring; or the reuse is sound. -/
def unmixed (lg : Ledger) (pure : Bool) (srv : Server T X R) : Bool :=
  !(t.wantsBatch e ((t.reusable e srv).getD 0) && t.decline.isNone) &&
    (t.replay.all fun r => r.dir == "" || r.npos ≤ 0) &&
    (!t.recalls || t.recallPass.calls.all Call.mints) &&
    (!e.decide || t.consolidate.calls.all Call.mints) &&
    (match t.reusable e srv with
      | none => true
      | some lcp => (pure && (lcp == srv.committed.length || g.ringW == 0)) || t.sound g e lg srv)

/-- Whether every resident row is byte-exact after the turn. -/
def nextPure (srv : Server T X R) (lg : Ledger) (pure : Bool) : Bool :=
  match t.tokens.getLast? with
  | none => pure
  | some _ =>
      match t.settle K g e srv (t.enter K g ⟨srv.session, []⟩) with
      | .error _ => pure
      | .ok _ => t.byteexact && t.unmixed g e lg pure srv

end Turn

section Runs

variable [DecidableEq T] (K : Kernels T X R) (g : Geometry) (e : Env)

/-- A run of turns with its ledger, and whether the rows are all byte-exact. -/
def modeHistory (turns : List (Turn T X R)) (state : (Server T X R × Ledger) × Bool) :
    (Server T X R × Ledger) × Bool :=
  turns.foldl (fun state t =>
    (((t.serve K g e state.1.1).1, t.nextLedger K g e state.1.1 state.1.2),
      t.nextPure K g e state.1.1 state.1.2 state.2)) state

variable {K} {g} {e} {t : Turn T X R} {b : Session T X R} {srv : Server T X R} {lg : Ledger}
  {pure : Bool}

/-- A byte-exact turn settles on byte-exact rows and has attended to nothing yet. -/
theorem Turn.settle_exact (hkept : Kept K g b srv lg)
    (hpure : pure = true → RowsExact K g srv.session) (hbx : t.byteexact = true)
    (hunmixed : t.unmixed g e lg pure srv = true) :
    Settles (fun a => AllExact K g a.session ∧ ReadsExact K a.reads)
      (t.settle K g e srv (t.enter K g ⟨srv.session, []⟩)) := by
  have hsession := t.enter_session (K := K) (g := g) hkept.mode
  rw [hbx] at hsession
  have hreads : (t.enter K g ⟨srv.session, []⟩).reads = [] := by
    unfold enter
    split <;> rfl
  have hnone : ReadsExact K ([] : List (List R)) := by
    intro rows hrows
    simp at hrows
  have hmode : (t.enter K g ⟨srv.session, []⟩).session.bxOn = true := by rw [hsession]; rfl
  simp only [unmixed, Bool.and_eq_true] at hunmixed
  have hreuse := hunmixed.2
  unfold settle
  cases hlcp : t.reusable e srv with
  | none =>
      dsimp only
      split
      case isTrue =>
        refine Lane.call_settles ⟨.cold hmode rfl, ?_⟩
        change ReadsExact K ((t.enter K g ⟨srv.session, []⟩).reads ++ [])
        rw [hreads]
        exact hnone
      case isFalse hcold => exact ⟨.cold hmode (by omega), by rw [hreads]; exact hnone⟩
  | some lcp =>
      simp only [hlcp] at hreuse
      -- the rows on entry, and those a rewind leaves
      have hrows : RowsExact K g (t.enter K g ⟨srv.session, []⟩).session := by
        rcases Bool.or_eq_true _ _ ▸ hreuse with huniform | hsound
        · rw [hsession]
          exact hpure (Bool.and_eq_true _ _ ▸ huniform).1
        · have htracks := (Turn.enter_tracks hkept hsound hlcp).1
          rw [hbx] at htracks
          exact htracks.rowsExact
      dsimp only
      split
      case isFalse => exact ⟨⟨hmode, hrows⟩, by rw [hreads]; exact hnone⟩
      case isTrue hdrop =>
        have hkeep : AllExact K g ((t.enter K g ⟨srv.session, []⟩).after K g
            (.rewind ((srv.committed.length - lcp : Nat) : Int))).session := by
          refine ⟨(Call.exec_bxOn K g _ rfl _).trans hmode, ?_⟩
          rcases (rewind_exec (K := K) (g := g) ((srv.committed.length - lcp : Nat) : Int)
            (t.enter K g ⟨srv.session, []⟩).session).1 with hsame | ⟨hok, hundo⟩
          · simp only [Lane.after, hsame]
            exact hrows
          · rcases Bool.or_eq_true _ _ ▸ hreuse with huniform | hsound
            · simp only [Bool.and_eq_true, Bool.or_eq_true, beq_iff_eq] at huniform
              simp only [Lane.after, hundo]
              exact hrows.undo (by omega) _
            · have hidle : srv.session.inj = none := by
                have hnone := (Turn.enter_tracks hkept hsound hlcp).1.idle
                rwa [hsession] at hnone
              have hsettle : t.settle K g e srv (t.enter K g ⟨srv.session, []⟩) =
                  .ok ((t.enter K g ⟨srv.session, []⟩).after K g
                    (.rewind ((srv.committed.length - lcp : Nat) : Int))) := by
                simp only [settle, hlcp, if_pos hdrop, Lane.call, hok]
              have htracks := (Turn.settle_tracks hkept hsound hidle hsettle).1
              rw [hbx] at htracks
              exact htracks.rowsExact
        refine Lane.call_settles ⟨hkeep, ?_⟩
        simp only [Lane.after, hreads, (rewind_exec _ _).2, List.append_nil]
        exact hnone

/-- The calls of a byte-exact turn after settling only mint, or are refused. -/
theorem Turn.makes_minting (hunmixed : t.unmixed g e lg pure srv = true) :
    t.Makes e ((t.reusable e srv).getD 0) fun c => c.mints || c.declined := by
  simp only [unmixed, Bool.and_eq_true, Bool.or_eq_true, Bool.not_eq_true',
    Bool.and_eq_false_iff, List.all_eq_true] at hunmixed
  obtain ⟨⟨⟨⟨hbatch, hreplay⟩, hrecall⟩, _⟩, _⟩ := hunmixed
  constructor
  · intro c hc
    simp [hc]
  · intro hwants
    cases hdecline : t.decline with
    | none => simp [hwants, hdecline] at hbatch
    | some text => rfl
  · intro hrecalls c hc
    simp [hrecall.resolve_left (by simp [hrecalls]) c hc]
  · intro r hr hdir hnpos
    simp only [hr, Option.all_some, Bool.or_eq_true, beq_iff_eq, decide_eq_true_eq] at hreplay
    rcases hreplay with hempty | hle
    · exact absurd hempty hdir
    · omega

/-- A byte-exact turn that mixes nothing in attends to byte-exact rows alone, and leaves
byte-exact rows. -/
theorem Turn.serve_exact (hkept : Kept K g b srv lg)
    (hpure : pure = true → RowsExact K g srv.session) (hbx : t.byteexact = true)
    (hunmixed : t.unmixed g e lg pure srv = true) :
    ReadsExact K (t.serve K g e srv).2 ∧
      (t.tokens ≠ [] → RowsExact K g (t.serve K g e srv).1.session) := by
  let P : Lane T X R → Prop := fun a => AllExact K g a.session ∧ ReadsExact K a.reads
  have hstep : ∀ a c, (c.mints || c.declined) = true → P a → P (a.after K g c) := by
    intro a c hc ha
    rcases Bool.or_eq_true _ _ ▸ hc with hmints | hdeclined
    · obtain ⟨hreads, hall⟩ := Call.exec_exact c hmints a.session ha.1
      exact ⟨hall, ha.2.append hreads⟩
    · cases c with
      | prefillBatched toks decline =>
          cases decline with
          | none => simp [Call.declined] at hdeclined
          | some text =>
              obtain ⟨text', hqueue⟩ := prefillBatched_declined (X := X) (R := R) g a.session toks text
              simp only [P, Lane.after, Call.exec, Call.queue, hqueue, List.append_nil]
              exact ha
      | _ => simp [Call.declined] at hdeclined
  have hleave : ∀ a, P a → RowsExact K g (t.leave K g a).session ∧
      ReadsExact K a.reads := by
    intro a ha
    refine ⟨?_, ha.2⟩
    unfold leave
    split
    · exact ha.1.rows
    · exact ha.1.rows
  unfold serve
  cases hlast : t.tokens.getLast? with
  | none =>
      refine ⟨by intro rows hrows; simp at hrows, ?_⟩
      intro hne
      exact absurd (List.getLast?_eq_none_iff.mp hlast) hne
  | some last =>
      have hbody := Turn.body_keeps hstep srv (Turn.makes_minting hunmixed) last
        (Turn.settle_exact hkept hpure hbx hunmixed)
      dsimp only
      cases hdone : t.body K g e srv last with
      | error a =>
          rw [hdone] at hbody
          exact ⟨(hleave a hbody).2, fun _ => (hleave a hbody).1⟩
      | ok out =>
          rw [hdone] at hbody
          simp only [unmixed, Bool.and_eq_true, Bool.or_eq_true, Bool.not_eq_true',
            List.all_eq_true] at hunmixed
          have hdecide := hunmixed.1.2
          dsimp only
          split
          case isTrue hon =>
            have hpass : P (out.1.pass K g t.consolidate) := by
              refine Lane.pass_keeps hstep t.consolidate ?_ out.1 hbody
              intro c hc
              simp [hdecide.resolve_left (by simp [hon]) c hc]
            exact ⟨(hleave _ hpass).2, fun _ => (hleave _ hpass).1⟩
          case isFalse => exact ⟨(hleave _ hbody).2, fun _ => (hleave _ hbody).1⟩

theorem modeHistory_kept (turns : List (Turn T X R)) (hkept : Kept K g b srv lg)
    (hpure : pure = true → RowsExact K g srv.session) :
    let state := modeHistory K g e turns ((srv, lg), pure)
    Kept K g b state.1.1 state.1.2 ∧ (state.2 = true → RowsExact K g state.1.1.session) := by
  induction turns generalizing srv lg pure with
  | nil => exact ⟨hkept, hpure⟩
  | cons t rest ih =>
      refine ih (hkept.serve t) ?_
      intro hnext
      simp only [Turn.nextPure] at hnext
      cases hlast : t.tokens.getLast? with
      | none =>
          simp only [hlast] at hnext
          simp only [Turn.serve, hlast]
          exact hpure hnext
      | some last =>
          simp only [hlast] at hnext
          cases hsettle : t.settle K g e srv (t.enter K g ⟨srv.session, []⟩) with
          | error a =>
              simp only [hsettle] at hnext
              have hsame := (Turn.serve_refused hkept.mode hlast hsettle).2 false
              have hrows : RowsExact K g ((t.serve K g e srv).1.session.inMode false) := by
                rw [hsame]
                exact hpure hnext
              exact hrows
          | ok a =>
              simp only [hsettle, Bool.and_eq_true] at hnext
              refine (Turn.serve_exact hkept hpure hnext.1 hnext.2).2 ?_
              rintro hempty
              simp [hempty] at hlast

variable (K) (g) (e)

/-- After any run of turns, a byte-exact turn that mixes nothing in attends to rows that
were computed in byte-exact mode and to no others. -/
theorem byteexact_reads_exact (dseq : Nat → T) (kv jkv : Nat → Nat → R)
    (turns : List (Turn T X R)) (t : Turn T X R) (hbx : t.byteexact = true) :
    let state := modeHistory K g e turns ((Server.opened dseq kv jkv, Ledger.opened), true)
    t.unmixed g e state.1.2 state.2 state.1.1 = true →
      ReadsExact K (t.serve K g e state.1.1).2 := by
  intro state hunmixed
  have hnorows : RowsExact K g (Server.opened (X := X) dseq kv jkv).session := by
    intro l _ p hp
    exact absurd hp (Nat.not_lt_zero p)
  obtain ⟨hkept, hpure⟩ := modeHistory_kept (K := K) (g := g) (e := e)
    (b := Session.opened dseq kv jkv) turns (Kept.opened dseq kv jkv) (fun _ => hnorows)
  exact (Turn.serve_exact hkept hpure hbx hunmixed).1

end Runs

/-- The second of two byte-exact turns reuses the rows of the first. -/
theorem byteexact_reads_exact_appended :
    let A := chatTurn true [1, 2] [⟨3, false, .sent, none⟩, ⟨0, true, .sent, none⟩]
    let C := chatTurn true [1, 2, 3, 9] [⟨0, true, .sent, none⟩]
    let state := modeHistory tokenKernels plainGeometry plainEnv [A]
      ((Server.opened (fun _ => 0) (fun _ _ => 5) (fun _ _ => 6), Ledger.opened), true)
    C.reusable plainEnv state.1.1 = some 3 ∧
      ReadsExact tokenKernels (C.serve tokenKernels plainGeometry plainEnv state.1.1).2 := by
  intro A C state
  refine ⟨by decide, ?_⟩
  exact byteexact_reads_exact tokenKernels plainGeometry plainEnv (fun _ => 0) (fun _ _ => 5)
    (fun _ _ => 6) [A] C rfl (by decide)

/-- The first turn is not byte-exact, and the second, which is, reuses its rows: it
attends to the float row of token `1`. -/
theorem byteexact_reads_float :
    let A := chatTurn false [1, 2] [⟨3, false, .sent, none⟩, ⟨0, true, .sent, none⟩]
    let C := chatTurn true [1, 2, 3, 9] [⟨0, true, .sent, none⟩]
    let srv := (A.serve tokenKernels plainGeometry plainEnv
      (Server.opened (fun _ => 0) (fun _ _ => 5) (fun _ _ => 6))).1
    C.reusable plainEnv srv = some 3 ∧
      ¬ReadsExact tokenKernels (C.serve tokenKernels plainGeometry plainEnv srv).2 := by
  intro A C srv
  refine ⟨by decide, ?_⟩
  intro h
  have hread : ∃ rows ∈ (C.serve tokenKernels plainGeometry plainEnv srv).2, 10 ∈ rows := by
    decide
  obtain ⟨rows, hrows, hmem⟩ := hread
  obtain ⟨l, p, x, hrow⟩ := h rows hrows 10 hmem
  simp only [tokenKernels, if_true] at hrow
  omega

end ShannonPrime.Daemon
