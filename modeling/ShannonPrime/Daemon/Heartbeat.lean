import ShannonPrime.Daemon.Reuse
import ShannonPrime.Kv.Context

/-!
The latent-interceptor heartbeat (`eagle_accept.rs`): the contract prefix of the first two
events is prefilled once, each event appends what follows the prefix, taps the latent and
rewinds. The oracle beside it evaluates every event from an empty cache.
-/

namespace ShannonPrime.Daemon

open Kv

variable {T X R B : Type*}

/-- A line of the tape, with what the device does to its steps. -/
structure Event (B : Type*) where
  body : B
  prefill : Script
  decode : Option Fault

/-- An event with the token ids of its frame. -/
structure Framed (T : Type*) where
  ids : List T
  prefill : Script
  decode : Option Fault

/-- A reported tick: what the latent was tapped over, and the probe's action. -/
structure Tick (T : Type*) where
  context : List T
  action : Nat
  deriving DecidableEq, Repr

/-- The events that frame, in order. -/
def framed (frame : B → Option (List T)) (events : List (Event B)) : List (Framed T) :=
  events.filterMap fun e => (frame e.body).map fun ids => ⟨ids, e.prefill, e.decode⟩

section Loops

variable (K : Kernels T X R) (g : Geometry) (act : List T → Nat)

/-- One turn of the loop of `run_li_heartbeat`. -/
def heartbeatTick (lcp : Nat) (s : Session T X R) (e : Framed T) :
    Session T X R × Option (Tick T) :=
  let np := e.ids.length
  if np ≤ lcp then (s, none)
  else
    let delta := Call.prefill ((e.ids.take (np - 1)).drop lcp) e.prefill
    let out := delta.exec K g s
    match out.err, e.ids.getLast? with
    | none, some last =>
        let dec := (Call.decodeLogits last e.decode).exec K g out.session
        match dec.err with
        | some _ => (dec.session, none)
        | none =>
            let tick := ⟨dec.session.context, act dec.session.context⟩
            (((Call.rewind (np - lcp)).exec K g dec.session).session, some tick)
    | _, _ => (out.session, none)

def heartbeatTicks (lcp : Nat) : Session T X R → List (Framed T) → List (Option (Tick T))
  | _, [] => []
  | s, e :: rest =>
      let out := heartbeatTick K g act lcp s e
      out.2 :: heartbeatTicks lcp out.1 rest

/-- `run_li_heartbeat`, from the session just opened; `contract` is what the device does to
the prefill of the prefix. -/
def runLiHeartbeat [DecidableEq T] (frame : B → Option (List T)) (events : List (Event B))
    (contract : Script) (s : Session T X R) : Except String (List (Option (Tick T))) :=
  if events.length < 2 then .error "li_heartbeat: need >=2 events"
  else
    match framed frame events with
    | first :: second :: rest =>
        let lcp := commonPrefix (min first.ids.length second.ids.length) first.ids second.ids
        let reset := (Call.reset.exec K g s).session
        let out := (Call.prefill (first.ids.take lcp) contract).exec K g reset
        match out.err with
        | some _ => .error "li_heartbeat: contract prefill"
        | none => .ok (heartbeatTicks K g act lcp out.session (first :: second :: rest))
    | _ => .error "index out of bounds"

/-- One turn of the loop of `run_li_oracle`, up to the action. -/
def oracleTick (s : Session T X R) (e : Framed T) : Session T X R × Option (Tick T) :=
  let np := e.ids.length
  if np < 2 ∨ np ≥ 512 then (s, none)
  else
    let reset := (Call.reset.exec K g s).session
    let out := (Call.prefill (e.ids.take (np - 1)) e.prefill).exec K g reset
    match out.err, e.ids.getLast? with
    | none, some last =>
        let dec := (Call.decodeLogits last e.decode).exec K g out.session
        match dec.err with
        | some _ => (dec.session, none)
        | none => (dec.session, some ⟨dec.session.context, act dec.session.context⟩)
    | _, _ => (out.session, none)

def oracleTicks : Session T X R → List (Framed T) → List (Option (Tick T))
  | _, [] => []
  | s, e :: rest =>
      let out := oracleTick K g act s e
      out.2 :: oracleTicks out.1 rest

/-- `run_li_oracle`, from the session just opened. -/
def runLiOracle (frame : B → Option (List T)) (events : List (Event B)) (s : Session T X R) :
    Except String (List (Option (Tick T))) :=
  if events.isEmpty then .error "li_oracle: no events"
  else .ok (oracleTicks K g act s (framed frame events))

end Loops

end ShannonPrime.Daemon

/-!
When the heartbeat reports what the oracle does. A turn appends to whatever the cache
holds, so it reports in the event's own context when the cache holds the prefix and the
event starts with it; and it leaves the prefix behind unless it stops between its first
step and its rewind.
-/

namespace ShannonPrime.Daemon

open Kv

variable {T X R B : Type*}

/-- The device fails none of the steps that the event's turn takes behind `lcp` tokens. -/
structure Unfailed (g : Geometry) (lcp : Nat) (e : Framed T) : Prop where
  prefill : ∀ j, j < e.ids.length - 1 - lcp →
    Fault.passes g (j + 1 == e.ids.length - 1 - lcp) (e.prefill j) = true
  decode : Fault.passes g true e.decode = true

/-- What the turn of an event leaves in the cache is what it found there, `lcp` tokens. -/
def Spared (g : Geometry) (lcp : Nat) (e : Framed T) : Prop :=
  e.ids.length ≤ lcp + 1 ∨ g.pmax + 1 < e.ids.length ∨
    Fault.halts g (1 == e.ids.length - 1 - lcp) (e.prefill 0) = true ∨
    (Unfailed g lcp e ∧ e.ids.length < g.pmax ∧
      (g.ringW = 0 ∨ e.ids.length - lcp ≤ g.jmax))

/-- The event starts with the prefix and goes on for two tokens or more, within the cache. -/
structure Served (g : Geometry) (lead : List T) (e : Framed T) : Prop where
  shares : e.ids.take lead.length = lead
  more : lead.length + 2 ≤ e.ids.length
  fits : e.ids.length < g.pmax

/-- The tick of an evaluation from scratch. -/
def Framed.evaluated (act : List T → Nat) (e : Framed T) : Tick T := ⟨e.ids, act e.ids⟩

/-- The tokens of a turn: all but the last, behind the prefix, then the last. -/
theorem delta_last (lcp : Nat) {ids : List T} (h : lcp + 1 ≤ ids.length) :
    ∃ last, ids.getLast? = some last ∧
      (ids.take (ids.length - 1)).drop lcp ++ [last] = ids.drop lcp := by
  have hne : ids ≠ [] := by
    intro hnil
    simp [hnil] at h
  refine ⟨ids.getLast hne, List.getLast?_eq_some_getLast hne, ?_⟩
  have hlen : lcp ≤ (ids.take (ids.length - 1)).length := by
    rw [List.length_take]
    omega
  rw [← List.drop_append_of_le_length hlen, ← List.dropLast_eq_take,
    List.dropLast_append_getLast]

/-! One turn -/

section Turn

variable (K : Kernels T X R) (g : Geometry) (act : List T → Nat) (lcp : Nat) {s : Session T X R}
  {e : Framed T}

theorem heartbeatTick_idle
    (h : e.ids.length ≤ lcp + 1 ∨ g.pmax < s.dpos + (e.ids.length - 1 - lcp)) :
    heartbeatTick K g act lcp s e = (s, none) := by
  have hrefused : ((e.ids.take (e.ids.length - 1)).drop lcp = []) ∨
      g.pmax < s.dpos + ((e.ids.take (e.ids.length - 1)).drop lcp).length := by
    rcases h with hshort | hfull
    · left
      apply List.drop_eq_nil_of_le
      rw [List.length_take]
      omega
    · right
      rw [List.length_drop, List.length_take]
      omega
  obtain ⟨herr, hsession⟩ := prefill_refused K g e.prefill hrefused
  simp only [heartbeatTick]
  split
  · rfl
  · split
    · rename_i hok _
      exact absurd hok herr
    · rw [hsession]

/-- What the prefill of a turn that starts leaves. -/
theorem heartbeatTick_prefill (hb : Based g s) (hlong : lcp + 2 ≤ e.ids.length)
    (hstart : s.dpos + (e.ids.length - 1 - lcp) ≤ g.pmax) {toks : List T}
    (htoks : toks = (e.ids.take (e.ids.length - 1)).drop lcp) :
    toks.length = e.ids.length - 1 - lcp ∧
      Stepped g (s.feed toks) ((Call.prefill toks e.prefill).exec K g s).session toks.length
        (((Call.prefill toks e.prefill).exec K g s).err = none) ∧
      (((Call.prefill toks e.prefill).exec K g s).err = none ↔
        ∀ j, j < toks.length → Fault.passes g (j + 1 == toks.length) (e.prefill j) = true) ∧
      if Fault.halts g (1 == toks.length) (e.prefill 0) then
        ((Call.prefill toks e.prefill).exec K g s).session.dpos = s.dpos
      else s.dpos < ((Call.prefill toks e.prefill).exec K g s).session.dpos := by
  have hlen : toks.length = e.ids.length - 1 - lcp := by
    rw [htoks, List.length_drop, List.length_take]
    omega
  have hne : toks ≠ [] := by
    intro hnil
    rw [hnil, List.length_nil] at hlen
    omega
  exact ⟨hlen, prefill_stepped K g e.prefill hb hne (by omega)⟩

/-- A turn none of whose steps fails. -/
theorem heartbeatTick_done (hb : Based g s) (hlong : lcp + 2 ≤ e.ids.length)
    (hroom : s.dpos + (e.ids.length - lcp) < g.pmax) (hu : Unfailed g lcp e) :
    Based g (heartbeatTick K g act lcp s e).1 ∧
      (heartbeatTick K g act lcp s e).2 =
        some ⟨s.context ++ e.ids.drop lcp, act (s.context ++ e.ids.drop lcp)⟩ ∧
      if g.ringW = 0 ∨ e.ids.length - lcp ≤ g.jmax then
        (heartbeatTick K g act lcp s e).1.context = s.context
      else (heartbeatTick K g act lcp s e).1.dpos = s.dpos + (e.ids.length - lcp) := by
  obtain ⟨last, hlast, hids⟩ := delta_last lcp (by omega : lcp + 1 ≤ e.ids.length)
  obtain ⟨toks, htoks⟩ : ∃ toks, toks = (e.ids.take (e.ids.length - 1)).drop lcp := ⟨_, rfl⟩
  obtain ⟨hlen, hpre, hok, _⟩ := heartbeatTick_prefill K g lcp hb hlong (by omega) htoks
  rw [← htoks] at hids
  generalize hout : (Call.prefill toks e.prefill).exec K g s = out at hpre hok
  have hnone : out.err = none := hok.mpr (by rw [hlen]; exact hu.prefill)
  obtain ⟨hdpos, hcommit⟩ := hpre.all hnone
  have hcontext := hpre.context g hnone
  have hfed : (s.feed toks).dpos = s.dpos := rfl
  obtain ⟨hdec, hdecok⟩ := decodeLogits_stepped K g last e.decode hpre.based
    (by rw [hdpos, hfed]; omega)
  generalize hdecode : (Call.decodeLogits last e.decode).exec K g out.session = dec at hdec hdecok
  have hdone : dec.err = none := hdecok.mpr hu.decode
  obtain ⟨hdpos', hcommit'⟩ := hdec.all hdone
  have hcontext' : dec.session.context = s.context ++ e.ids.drop lcp := by
    rw [hdec.context g hdone, hcontext, List.append_assoc, hids]
  have hfed' : (out.session.feed [last]).dpos = out.session.dpos := rfl
  have hlcp : ¬e.ids.length ≤ lcp := by omega
  have htick : heartbeatTick K g act lcp s e =
      (((Call.rewind (e.ids.length - lcp : Nat)).exec K g dec.session).session,
        some ⟨dec.session.context, act dec.session.context⟩) := by
    have hdelta : ((e.ids.length - lcp : Nat) : Int) = (e.ids.length : Int) - lcp := by omega
    rw [hdelta]
    simp only [heartbeatTick, if_neg hlcp, ← htoks, hout, hnone, hlast, hdecode, hdone]
  have hend : dec.session.dpos = s.dpos + (e.ids.length - lcp) := by
    rw [hdpos', hfed', hdpos, hfed]
    omega
  have hbase : dec.session.commitPos =
      if 0 < g.ringW then max s.commitPos (s.dpos + (e.ids.length - lcp) - g.jmax)
      else s.commitPos := by
    have hkeep : (s.feed toks).commitPos = s.commitPos := rfl
    have hkeep' : (out.session.feed [last]).commitPos = out.session.commitPos := rfl
    rw [hcommit', baseAt, hkeep', hcommit, baseAt, hkeep, hfed', hdpos, hfed]
    split <;> omega
  have hlow := hb.low
  rw [htick]
  dsimp only
  rw [hcontext', rewind_session K g (by omega)]
  by_cases hreach : g.ringW = 0 ∨ e.ids.length - lcp ≤ g.jmax
  · have hundo : ¬(0 < g.ringW ∧
        dec.session.dpos - dec.session.commitPos < e.ids.length - lcp) := by
      rintro ⟨hring, hlt⟩
      rw [if_pos hring] at hbase
      omega
    rw [if_neg hundo, if_pos hreach]
    refine ⟨⟨?_, ?_⟩, rfl, ?_⟩
    · simp only [Session.undo]
      rw [hend, hbase]
      split <;> omega
    · intro hring
      have hspan := hb.span hring
      rw [if_pos hring] at hbase
      simp only [Session.undo]
      omega
    · rw [undo_context, hcontext', hend, Nat.add_sub_cancel, ← context_length s,
        List.take_left']
      rfl
  · have hrefused : 0 < g.ringW ∧
        dec.session.dpos - dec.session.commitPos < e.ids.length - lcp := by
      have hring : 0 < g.ringW := by omega
      rw [if_pos hring] at hbase
      exact ⟨hring, by omega⟩
    rw [if_pos hrefused, if_neg hreach]
    exact ⟨hdec.based, rfl, hend⟩

/-- A turn that starts and fails a step, or has no room for its last token. -/
theorem heartbeatTick_stuck (hb : Based g s) (hlong : lcp + 2 ≤ e.ids.length)
    (hstart : s.dpos + (e.ids.length - 1 - lcp) ≤ g.pmax)
    (hnot : Unfailed g lcp e → g.pmax ≤ s.dpos + (e.ids.length - lcp)) :
    Based g (heartbeatTick K g act lcp s e).1 ∧
      (heartbeatTick K g act lcp s e).2 = none ∧
      if Fault.halts g (1 == e.ids.length - 1 - lcp) (e.prefill 0) then
        (heartbeatTick K g act lcp s e).1.context = s.context
      else s.dpos < (heartbeatTick K g act lcp s e).1.dpos := by
  obtain ⟨last, hlast, _⟩ := delta_last lcp (by omega : lcp + 1 ≤ e.ids.length)
  obtain ⟨toks, htoks⟩ : ∃ toks, toks = (e.ids.take (e.ids.length - 1)).drop lcp := ⟨_, rfl⟩
  obtain ⟨hlen, hpre, hok, hfirst⟩ := heartbeatTick_prefill K g lcp hb hlong hstart htoks
  rw [← hlen]
  generalize hout : (Call.prefill toks e.prefill).exec K g s = out at hpre hok hfirst
  have hlcp : ¬e.ids.length ≤ lcp := by omega
  cases herr : out.err with
  | some text =>
      have htick : heartbeatTick K g act lcp s e = (out.session, none) := by
        simp only [heartbeatTick, if_neg hlcp, ← htoks, hout, herr]
      rw [htick]
      refine ⟨hpre.based, rfl, ?_⟩
      split
      · rename_i hhalts
        rw [if_pos hhalts] at hfirst
        exact hpre.context_of_back g hfirst
      · rename_i hmoves
        rw [if_neg hmoves] at hfirst
        exact hfirst
  | none =>
      have hpasses := hok.mp herr
      have hmoves := halts_of_passes (hpasses 0 (by omega))
      rw [Nat.zero_add] at hmoves
      obtain ⟨hdpos, _⟩ := hpre.all herr
      have hfed : (s.feed toks).dpos = s.dpos := rfl
      have hexec := decodeLogits_exec K g last e.decode out.session
      have hdec : ((Call.decodeLogits last e.decode).exec K g out.session).err ≠ none ∧
          Based g ((Call.decodeLogits last e.decode).exec K g out.session).session ∧
          out.session.dpos ≤
            ((Call.decodeLogits last e.decode).exec K g out.session).session.dpos := by
        by_cases hroom : out.session.dpos + 1 < g.pmax
        · obtain ⟨hstepped, hdecok⟩ := decodeLogits_stepped K g last e.decode hpre.based hroom
          refine ⟨fun hnone => ?_, hstepped.based, hstepped.forward⟩
          have hu : Unfailed g lcp e := ⟨by rw [← hlen]; exact hpasses, hdecok.mp hnone⟩
          have hfull := hnot hu
          omega
        · rw [if_neg hroom] at hexec
          rw [hexec.2]
          exact ⟨hexec.1, hpre.based, Nat.le_refl _⟩
      generalize hdecode : (Call.decodeLogits last e.decode).exec K g out.session = dec at hdec
      have htick : heartbeatTick K g act lcp s e = (dec.session, none) := by
        cases hfail : dec.err with
        | none => exact absurd hfail hdec.1
        | some text =>
            simp only [heartbeatTick, if_neg hlcp, ← htoks, hout, herr, hlast, hdecode, hfail]
      rw [htick, hmoves]
      refine ⟨hdec.2.1, rfl, ?_⟩
      simp only [Bool.false_eq_true, if_false]
      omega

/-- A turn reports when nothing stops it, and then over what it found and its own tokens. -/
theorem heartbeatTick_reports (hb : Based g s) (t : Tick T) :
    (heartbeatTick K g act lcp s e).2 = some t ↔
      (lcp + 2 ≤ e.ids.length ∧ s.dpos + (e.ids.length - lcp) < g.pmax ∧ Unfailed g lcp e) ∧
        t = ⟨s.context ++ e.ids.drop lcp, act (s.context ++ e.ids.drop lcp)⟩ := by
  by_cases hidle : e.ids.length ≤ lcp + 1 ∨ g.pmax < s.dpos + (e.ids.length - 1 - lcp)
  · rw [heartbeatTick_idle K g act lcp hidle]
    constructor
    · intro hnone
      cases hnone
    · rintro ⟨⟨hlong, hroom, _⟩, _⟩
      omega
  · have hlong : lcp + 2 ≤ e.ids.length := by omega
    by_cases hruns : Unfailed g lcp e ∧ s.dpos + (e.ids.length - lcp) < g.pmax
    · obtain ⟨_, hreport, _⟩ := heartbeatTick_done K g act lcp hb hlong hruns.2 hruns.1
      rw [hreport, Option.some_inj]
      constructor
      · intro ht
        exact ⟨⟨hlong, hruns.2, hruns.1⟩, ht.symm⟩
      · intro ht
        exact ht.2.symm
    · obtain ⟨_, hreport, _⟩ := heartbeatTick_stuck K g act lcp hb hlong (by omega)
        (fun hu => Nat.le_of_not_lt fun hroom => hruns ⟨hu, hroom⟩)
      rw [hreport]
      constructor
      · intro hnone
        cases hnone
      · rintro ⟨⟨_, hroom, hu⟩, _⟩
        exact absurd ⟨hu, hroom⟩ hruns

/-- No turn gives back tokens it did not append. -/
theorem heartbeatTick_forward (hb : Based g s) :
    Based g (heartbeatTick K g act lcp s e).1 ∧
      s.dpos ≤ (heartbeatTick K g act lcp s e).1.dpos := by
  have hkeep : ∀ s' : Session T X R, s'.context = s.context → s.dpos ≤ s'.dpos := by
    intro s' hcontext
    have hlen := congrArg List.length hcontext
    rw [context_length, context_length] at hlen
    omega
  by_cases hidle : e.ids.length ≤ lcp + 1 ∨ g.pmax < s.dpos + (e.ids.length - 1 - lcp)
  · rw [heartbeatTick_idle K g act lcp hidle]
    exact ⟨hb, Nat.le_refl _⟩
  · have hlong : lcp + 2 ≤ e.ids.length := by omega
    by_cases hruns : Unfailed g lcp e ∧ s.dpos + (e.ids.length - lcp) < g.pmax
    · obtain ⟨hbased, _, hleaves⟩ := heartbeatTick_done K g act lcp hb hlong hruns.2 hruns.1
      refine ⟨hbased, ?_⟩
      split at hleaves
      · exact hkeep _ hleaves
      · omega
    · obtain ⟨hbased, _, hleaves⟩ := heartbeatTick_stuck K g act lcp hb hlong (by omega)
        (fun hu => Nat.le_of_not_lt fun hroom => hruns ⟨hu, hroom⟩)
      refine ⟨hbased, ?_⟩
      split at hleaves
      · exact hkeep _ hleaves
      · omega

/-- Over the prefix, a turn leaves the prefix exactly when it is spared. -/
theorem heartbeatTick_spared (hb : Based g s) (hat : s.dpos = lcp) :
    (Spared g lcp e → (heartbeatTick K g act lcp s e).1.context = s.context) ∧
      (¬Spared g lcp e → lcp < (heartbeatTick K g act lcp s e).1.dpos) := by
  by_cases hidle : e.ids.length ≤ lcp + 1 ∨ g.pmax < s.dpos + (e.ids.length - 1 - lcp)
  · rw [heartbeatTick_idle K g act lcp hidle]
    refine ⟨fun _ => rfl, fun hnot => absurd ?_ hnot⟩
    rcases Nat.lt_or_ge (lcp + 1) e.ids.length with hlong | hshort
    · exact Or.inr (Or.inl (by omega))
    · exact Or.inl hshort
  · have hlong : lcp + 2 ≤ e.ids.length := by omega
    by_cases hruns : Unfailed g lcp e ∧ s.dpos + (e.ids.length - lcp) < g.pmax
    · obtain ⟨_, _, hleaves⟩ := heartbeatTick_done K g act lcp hb hlong hruns.2 hruns.1
      have hmoves := halts_of_passes (hruns.1.prefill 0 (by omega))
      rw [Nat.zero_add] at hmoves
      have hspared : Spared g lcp e ↔ g.ringW = 0 ∨ e.ids.length - lcp ≤ g.jmax := by
        constructor
        · intro h
          rcases h with hshort | hfull | hhalts | ⟨_, _, hreach⟩
          · omega
          · omega
          · rw [hmoves] at hhalts
            cases hhalts
          · exact hreach
        · intro hreach
          exact Or.inr (Or.inr (Or.inr ⟨hruns.1, by omega, hreach⟩))
      constructor
      · intro hs
        rw [if_pos (hspared.mp hs)] at hleaves
        exact hleaves
      · intro hs
        rw [if_neg (fun hreach => hs (hspared.mpr hreach))] at hleaves
        omega
    · obtain ⟨_, _, hleaves⟩ := heartbeatTick_stuck K g act lcp hb hlong (by omega)
        (fun hu => Nat.le_of_not_lt fun hroom => hruns ⟨hu, hroom⟩)
      have hspared : Spared g lcp e ↔
          Fault.halts g (1 == e.ids.length - 1 - lcp) (e.prefill 0) = true := by
        constructor
        · intro h
          rcases h with hshort | hfull | hhalts | ⟨hu, hfits, _⟩
          · omega
          · omega
          · exact hhalts
          · exact absurd ⟨hu, by omega⟩ hruns
        · intro hhalts
          exact Or.inr (Or.inr (Or.inl hhalts))
      constructor
      · intro hs
        rw [if_pos (hspared.mp hs)] at hleaves
        exact hleaves
      · intro hs
        rw [if_neg (fun hhalts => hs (hspared.mpr hhalts))] at hleaves
        omega

end Turn

/-! The loop -/

section Loop

variable (K : Kernels T X R) (g : Geometry) (act : List T → Nat)

/-- What the loop reports for an event is its evaluation from scratch. -/
def ReportsAll (lcp : Nat) (s : Session T X R) (evs : List (Framed T)) : Prop :=
  ∀ (i : Nat) (e : Framed T), evs[i]? = some e → Unfailed g lcp e →
    (heartbeatTicks K g act lcp s evs)[i]? = some (some (e.evaluated act))

/-- Every event that does not fail is served, and the ones before it are spared. -/
def ServedAll (lead : List T) (evs : List (Framed T)) : Prop :=
  ∀ (i : Nat) (e : Framed T), evs[i]? = some e → Unfailed g lead.length e →
    Served g lead e ∧ ∀ (k : Nat) (f : Framed T), k < i → evs[k]? = some f → Spared g lead.length f

/-- Behind tokens that are not the prefix nothing is reported as it should be. -/
theorem heartbeatTicks_poisoned {lcp : Nat} {s : Session T X R} (hb : Based g s)
    (hpast : lcp < s.dpos) (evs : List (Framed T)) {i : Nat} {e : Framed T}
    (he : evs[i]? = some e) :
    (heartbeatTicks K g act lcp s evs)[i]? ≠ some (some (e.evaluated act)) := by
  induction evs generalizing i s with
  | nil => simp at he
  | cons f rest ih =>
      obtain ⟨hbased, hforward⟩ := heartbeatTick_forward K g act lcp (e := f) hb
      cases i with
      | zero =>
          simp only [List.getElem?_cons_zero, Option.some.injEq] at he
          subst he
          simp only [heartbeatTicks, List.getElem?_cons_zero, ne_eq, Option.some.injEq]
          intro hreport
          obtain ⟨⟨hlong, _, _⟩, htick⟩ :=
            (heartbeatTick_reports K g act lcp hb (f.evaluated act)).mp hreport
          have hcontext : f.ids = s.context ++ f.ids.drop lcp := congrArg Tick.context htick
          have hlen := congrArg List.length hcontext
          rw [List.length_append, context_length, List.length_drop] at hlen
          omega
      | succ i =>
          rw [List.getElem?_cons_succ] at he
          simp only [heartbeatTicks, List.getElem?_cons_succ]
          exact ih hbased (by omega) he

/-- The action reported is the one of the context reported. -/
theorem heartbeatTicks_action (lcp : Nat) {s : Session T X R} (hb : Based g s)
    (evs : List (Framed T)) {i : Nat} {t : Tick T}
    (ht : (heartbeatTicks K g act lcp s evs)[i]? = some (some t)) : t.action = act t.context := by
  induction evs generalizing i s with
  | nil => simp [heartbeatTicks] at ht
  | cons f rest ih =>
      cases i with
      | zero =>
          simp only [heartbeatTicks, List.getElem?_cons_zero, Option.some.injEq] at ht
          rw [((heartbeatTick_reports K g act lcp hb t).mp ht).2]
      | succ i =>
          simp only [heartbeatTicks, List.getElem?_cons_succ] at ht
          exact ih (heartbeatTick_forward K g act lcp hb).1 ht

/-- From the prefix on, the loop reports every event right exactly when each is served behind
spared ones. -/
theorem reportsAll_iff {lead : List T} {s : Session T X R} (hb : Based g s)
    (hat : s.context = lead) (evs : List (Framed T)) :
    ReportsAll K g act lead.length s evs ↔ ServedAll g lead evs := by
  induction evs generalizing s with
  | nil => simp [ReportsAll, ServedAll]
  | cons e rest ih =>
      have hdpos : s.dpos = lead.length := by
        rw [← hat, context_length]
      obtain ⟨hbased, _⟩ := heartbeatTick_forward K g act lead.length (e := e) hb
      obtain ⟨hkept, hleft⟩ := heartbeatTick_spared K g act lead.length (e := e) hb hdpos
      have hhead : Unfailed g lead.length e →
          ((heartbeatTick K g act lead.length s e).2 = some (e.evaluated act) ↔
            Served g lead e) := by
        intro hu
        rw [heartbeatTick_reports K g act lead.length hb]
        constructor
        · rintro ⟨⟨hlong, hroom, _⟩, htick⟩
          have hcontext : e.ids = lead ++ e.ids.drop lead.length := by
            rw [← hat]
            rw [← hat] at htick
            exact congrArg Tick.context htick
          refine ⟨?_, hlong, by omega⟩
          rw [hcontext, List.take_left']
          rfl
        · intro hserved
          have hmore := hserved.more
          have hfits := hserved.fits
          refine ⟨⟨hmore, by omega, hu⟩, ?_⟩
          have hids : lead ++ e.ids.drop lead.length = e.ids := by
            have hcut := List.take_append_drop lead.length e.ids
            rw [hserved.shares] at hcut
            exact hcut
          rw [hat, hids, Framed.evaluated]
      have hnone : ¬Spared g lead.length e →
          (ReportsAll K g act lead.length (heartbeatTick K g act lead.length s e).1 rest ↔
            ∀ (i : Nat) (f : Framed T), rest[i]? = some f → ¬Unfailed g lead.length f) := by
        intro hs
        constructor
        · intro hall i f hf hu
          exact heartbeatTicks_poisoned K g act hbased (hleft hs) rest hf (hall i f hf hu)
        · intro hall i f hf hu
          exact absurd hu (hall i f hf)
      constructor
      · intro hall i f hf hu
        cases i with
        | zero =>
            simp only [List.getElem?_cons_zero, Option.some.injEq] at hf
            subst hf
            have hreport := hall 0 e (by simp) hu
            simp only [heartbeatTicks, List.getElem?_cons_zero, Option.some.injEq] at hreport
            exact ⟨(hhead hu).mp hreport, fun k _ hk _ => absurd hk (Nat.not_lt_zero k)⟩
        | succ i =>
            rw [List.getElem?_cons_succ] at hf
            have htail : ReportsAll K g act lead.length
                (heartbeatTick K g act lead.length s e).1 rest := fun j f hf hu => by
              have hreport := hall (j + 1) f (by simpa using hf) hu
              simpa only [heartbeatTicks, List.getElem?_cons_succ] using hreport
            have hs : Spared g lead.length e := by
              by_contra hs
              exact (hnone hs).mp htail i f hf hu
            obtain ⟨hserved, hbefore⟩ := (ih hbased ((hkept hs).trans hat)).mp htail i f hf hu
            refine ⟨hserved, fun k f' hk hf' => ?_⟩
            cases k with
            | zero =>
                simp only [List.getElem?_cons_zero, Option.some.injEq] at hf'
                subst hf'
                exact hs
            | succ k => exact hbefore k f' (by omega) (by simpa using hf')
      · intro hall i f hf hu
        cases i with
        | zero =>
            simp only [List.getElem?_cons_zero, Option.some.injEq] at hf
            subst hf
            simp only [heartbeatTicks, List.getElem?_cons_zero, Option.some.injEq]
            exact (hhead hu).mpr (hall 0 e (by simp) hu).1
        | succ i =>
            have hs : Spared g lead.length e :=
              (hall (i + 1) f hf hu).2 0 e (Nat.succ_pos i) (by simp)
            have htail : ServedAll g lead rest := fun j f hf hu => by
              obtain ⟨hserved, hbefore⟩ := hall (j + 1) f (by simpa using hf) hu
              exact ⟨hserved, fun k f' hk hf' =>
                hbefore (k + 1) f' (by omega) (by simpa using hf')⟩
            rw [List.getElem?_cons_succ] at hf
            simp only [heartbeatTicks, List.getElem?_cons_succ]
            exact (ih hbased ((hkept hs).trans hat)).mpr htail i f hf hu

end Loop

/-- The device fails no step of the event. -/
def Event.healthy (e : Event B) : Event B := ⟨e.body, noFaults, none⟩

def Framed.healthy (e : Framed T) : Framed T := ⟨e.ids, noFaults, none⟩

theorem framed_healthy (frame : B → Option (List T)) (events : List (Event B)) :
    framed frame (events.map Event.healthy) = (framed frame events).map Framed.healthy := by
  rw [framed, framed, List.filterMap_map, List.map_filterMap]
  congr 1
  funext e
  simp only [Function.comp, Option.map_map]
  rfl

theorem passes_noFault (g : Geometry) (head : Bool) : Fault.passes g head none = true := rfl

section Oracle

variable (K : Kernels T X R) (g : Geometry) (act : List T → Nat)

theorem reset_session (s : Session T X R) :
    (Call.reset.exec K g s).session.context = [] ∧ Based g (Call.reset.exec K g s).session := by
  have hexec : (Call.reset.exec K g s).session = s.reset := rfl
  rw [hexec]
  exact ⟨rfl, ⟨Nat.le_refl 0, fun _ => Nat.zero_le _⟩⟩

/-- An evaluation from scratch that no step fails reports the event's own context. -/
theorem oracleTick_healthy (hp : g.pmax = 512) (s : Session T X R) (e : Framed T)
    (htwo : 2 ≤ e.ids.length) (hfits : e.ids.length < 512) :
    (oracleTick K g act s e.healthy).2 = some (e.evaluated act) := by
  obtain ⟨hempty, hb⟩ := reset_session K g s
  have hdpos : (Call.reset.exec K g s).session.dpos = 0 := rfl
  have hskip : ¬(e.ids.length < 2 ∨ e.ids.length ≥ 512) := by omega
  obtain ⟨last, hlast, hids⟩ := delta_last 0 (by omega : 0 + 1 ≤ e.ids.length)
  rw [List.drop_zero, List.drop_zero] at hids
  have hlen : (e.ids.take (e.ids.length - 1)).length = e.ids.length - 1 := by
    rw [List.length_take]
    omega
  have hne : e.ids.take (e.ids.length - 1) ≠ [] := by
    intro hnil
    rw [hnil, List.length_nil] at hlen
    omega
  obtain ⟨hpre, hok, _⟩ := prefill_stepped K g noFaults hb hne (by omega)
  generalize hout : (Call.prefill (e.ids.take (e.ids.length - 1)) noFaults).exec K g
    (Call.reset.exec K g s).session = out at hpre hok
  have hnone : out.err = none := hok.mpr fun _ _ => passes_noFault g _
  obtain ⟨hend, _⟩ := hpre.all hnone
  have hfed : ((Call.reset.exec K g s).session.feed
      (e.ids.take (e.ids.length - 1))).dpos = 0 := hdpos
  obtain ⟨hdec, hdecok⟩ := decodeLogits_stepped K g last none hpre.based
    (by rw [hend, hfed]; omega)
  generalize hdecode : (Call.decodeLogits last none).exec K g out.session = dec at hdec hdecok
  have hdone : dec.err = none := hdecok.mpr (passes_noFault g true)
  have hcontext : dec.session.context = e.ids := by
    rw [hdec.context g hdone, hpre.context g hnone, hempty, List.nil_append, hids]
  simp only [oracleTick, Framed.healthy, if_neg hskip, hout, hnone, hlast, hdecode, hdone,
    hcontext, Framed.evaluated]

theorem oracleTicks_healthy (hp : g.pmax = 512) (s : Session T X R) (evs : List (Framed T))
    {i : Nat} {e : Framed T} (he : evs[i]? = some e) (htwo : 2 ≤ e.ids.length)
    (hfits : e.ids.length < 512) :
    (oracleTicks K g act s (evs.map Framed.healthy))[i]? = some (some (e.evaluated act)) := by
  induction evs generalizing i s with
  | nil => simp at he
  | cons f rest ih =>
      cases i with
      | zero =>
          simp only [List.getElem?_cons_zero, Option.some.injEq] at he
          subst he
          simp only [List.map_cons, oracleTicks, List.getElem?_cons_zero,
            oracleTick_healthy K g act hp s f htwo hfits]
      | succ i =>
          rw [List.getElem?_cons_succ] at he
          simp only [List.map_cons, oracleTicks, List.getElem?_cons_succ]
          exact ih _ he

end Oracle

/-! The two runs -/

/-- The tokens of the first event that the second one starts with too. -/
def contractPrefix [DecidableEq T] : List (Framed T) → List T
  | first :: second :: _ =>
      first.ids.take
        (commonPrefix (min first.ids.length second.ids.length) first.ids second.ids)
  | _ => []

/-- The prefill of the contract prefix returns 0. -/
structure ContractPasses (g : Geometry) (lead : List T) (contract : Script) : Prop where
  starts : lead ≠ []
  fits : lead.length ≤ g.pmax
  passes : ∀ j, j < lead.length → Fault.passes g (j + 1 == lead.length) (contract j) = true

section Runs

variable [DecidableEq T] (K : Kernels T X R) (g : Geometry) (act : List T → Nat)
  (frame : B → Option (List T)) (events : List (Event B)) (contract : Script)

/-- The heartbeat runs, and reports of every event that no step of its own fails what the
oracle reports of it, evaluated over the event's own ids. -/
def HeartbeatAgrees (s s' : Session T X R) : Prop :=
  ∃ ticks oracle, runLiHeartbeat K g act frame events contract s = .ok ticks ∧
    runLiOracle K g act frame (events.map Event.healthy) s' = .ok oracle ∧
    ∀ (i : Nat) (e : Framed T), (framed frame events)[i]? = some e →
      Unfailed g (contractPrefix (framed frame events)).length e →
      ∃ t, ticks[i]? = some (some t) ∧ t.context = e.ids ∧ oracle[i]? = some (some t)

/-- The run up to its loop. -/
theorem runLiHeartbeat_eq (htwo : 2 ≤ (framed frame events).length) (s : Session T X R) :
    (ContractPasses g (contractPrefix (framed frame events)) contract →
      ∃ s₀ : Session T X R, Based g s₀ ∧ s₀.context = contractPrefix (framed frame events) ∧
        runLiHeartbeat K g act frame events contract s =
          .ok (heartbeatTicks K g act (contractPrefix (framed frame events)).length s₀
            (framed frame events))) ∧
      (¬ContractPasses g (contractPrefix (framed frame events)) contract →
        runLiHeartbeat K g act frame events contract s =
          .error "li_heartbeat: contract prefill") := by
  have hmany : ¬events.length < 2 := by
    have hle : (framed frame events).length ≤ events.length := List.length_filterMap_le _ _
    omega
  obtain ⟨first, second, rest, hframed⟩ :
      ∃ first second rest, framed frame events = first :: second :: rest := by
    cases hevs : framed frame events with
    | nil => simp [hevs] at htwo
    | cons first rest =>
        cases rest with
        | nil => simp [hevs] at htwo
        | cons second rest => exact ⟨first, second, rest, rfl⟩
  have hlcp : commonPrefix (min first.ids.length second.ids.length) first.ids second.ids =
      (contractPrefix (framed frame events)).length := by
    have hle := (commonPrefix_le (min first.ids.length second.ids.length) first.ids second.ids).1
    rw [hframed, contractPrefix, List.length_take]
    omega
  have hlead : first.ids.take (contractPrefix (framed frame events)).length =
      contractPrefix (framed frame events) := by
    rw [← hlcp, hframed, contractPrefix]
  obtain ⟨hempty, hb⟩ := reset_session K g s
  have hzero : (Call.reset.exec K g s).session.dpos = 0 := rfl
  generalize hl : contractPrefix (framed frame events) = lead at hlcp hlead
  have hrun : runLiHeartbeat K g act frame events contract s =
      ((Call.prefill lead contract).exec K g (Call.reset.exec K g s).session).err.elim
        (.ok (heartbeatTicks K g act lead.length
          ((Call.prefill lead contract).exec K g (Call.reset.exec K g s).session).session
          (framed frame events)))
        fun _ => .error "li_heartbeat: contract prefill" := by
    have hsplit : runLiHeartbeat K g act frame events contract s = _ := if_neg hmany
    rw [hsplit, hframed]
    dsimp only
    rw [hlcp, hlead]
    cases ((Call.prefill lead contract).exec K g (Call.reset.exec K g s).session).err <;> rfl
  rw [hrun]
  by_cases hstarts : lead ≠ [] ∧ lead.length ≤ g.pmax
  · obtain ⟨hpre, hok, _⟩ := prefill_stepped K g contract hb hstarts.1 (by omega)
    constructor
    · intro hpasses
      have hnone := hok.mpr hpasses.passes
      refine ⟨_, hpre.based, ?_, by rw [hnone, Option.elim_none]⟩
      rw [hpre.context g hnone, hempty, List.nil_append]
    · intro hnot
      cases herr : ((Call.prefill lead contract).exec K g
          (Call.reset.exec K g s).session).err with
      | some text => rfl
      | none => exact absurd ⟨hstarts.1, hstarts.2, hok.mp herr⟩ hnot
  · constructor
    · intro hpasses
      exact absurd ⟨hpasses.starts, hpasses.fits⟩ hstarts
    · intro _
      have hrefused : lead = [] ∨
          g.pmax < (Call.reset.exec K g s).session.dpos + lead.length := by
        by_contra hnot
        rw [hzero] at hnot
        exact hstarts ⟨fun hnil => hnot (Or.inl hnil), by omega⟩
      obtain ⟨herr, _⟩ := prefill_refused K g contract hrefused
      cases hout : ((Call.prefill lead contract).exec K g
          (Call.reset.exec K g s).session).err with
      | some text => rfl
      | none => exact absurd hout herr

end Runs

/-- Over a tape of two framed events or more the heartbeat agrees with the oracle exactly when
the contract prefill returns 0 and every event that does not fail starts with the contract
prefix, goes on for two tokens or more, fits, and comes behind events that leave the prefix. -/
theorem heartbeat_agrees_iff [DecidableEq T] (K : Kernels T X R) (g : Geometry)
    (act : List T → Nat) (frame : B → Option (List T)) (events : List (Event B))
    (contract : Script) (s s' : Session T X R) (hp : g.pmax = 512)
    (htwo : 2 ≤ (framed frame events).length) :
    HeartbeatAgrees K g act frame events contract s s' ↔
      ContractPasses g (contractPrefix (framed frame events)) contract ∧
        ServedAll g (contractPrefix (framed frame events)) (framed frame events) := by
  obtain ⟨hruns, hfails⟩ := runLiHeartbeat_eq K g act frame events contract htwo s
  have hsome : ¬events.isEmpty = true := by
    intro hempty
    rw [List.isEmpty_iff.mp hempty] at htwo
    simp [framed] at htwo
  have horacle : runLiOracle K g act frame (events.map Event.healthy) s' =
      .ok (oracleTicks K g act s' ((framed frame events).map Framed.healthy)) := by
    have hsome' : ¬(events.map (Event.healthy (B := B))).isEmpty = true := by simpa using hsome
    rw [runLiOracle, if_neg hsome', framed_healthy]
  constructor
  · rintro ⟨ticks, oracle, hticks, _, hall⟩
    have hpasses : ContractPasses g (contractPrefix (framed frame events)) contract := by
      by_contra hnot
      rw [hfails hnot] at hticks
      cases hticks
    obtain ⟨s₀, hb, hat, hrun⟩ := hruns hpasses
    rw [hrun, Except.ok.injEq] at hticks
    refine ⟨hpasses, (reportsAll_iff K g act hb hat _).mp fun i e he hu => ?_⟩
    obtain ⟨t, hreport, hcontext, _⟩ := hall i e he hu
    rw [← hticks] at hreport
    rw [hreport, Option.some_inj, Option.some_inj]
    have hact := heartbeatTicks_action K g act _ hb _ hreport
    rw [hcontext] at hact
    cases t
    exact congrArg₂ Tick.mk hcontext hact
  · rintro ⟨hpasses, hserved⟩
    obtain ⟨s₀, hb, hat, hrun⟩ := hruns hpasses
    refine ⟨_, _, hrun, horacle, fun i e he hu => ?_⟩
    have hmore := (hserved i e he hu).1.more
    have hfits := (hserved i e he hu).1.fits
    exact ⟨e.evaluated act, (reportsAll_iff K g act hb hat _).mpr hserved i e he hu, rfl,
      oracleTicks_healthy K g act hp s' _ he (by omega) (by omega)⟩

/-- A tape of healthy events, given by their ids. -/
def healthyTape (tape : List (List Nat)) : List (Event (List Nat)) :=
  tape.map fun ids => ⟨ids, noFaults, none⟩

/-- The session `gemma4_kv_open` returns for 512 positions, without a ring. -/
def heartbeatGeometry : Geometry := soloGeometry 512 512 0 1 Nat.one_pos (Nat.zero_le 512)

theorem heartbeat_agrees_shared :
    HeartbeatAgrees (posKernels 0) heartbeatGeometry List.sum some
      (healthyTape [[1, 2, 3, 4], [1, 2, 5, 6], [1, 2, 7, 8]]) noFaults
      (Session.opened (fun _ => 0) (fun _ _ => 0) fun _ _ => 0)
      (Session.opened (fun _ => 0) (fun _ _ => 0) fun _ _ => 0) := by
  rw [heartbeat_agrees_iff _ _ _ _ _ _ _ _ rfl (by decide)]
  refine ⟨⟨by decide, by decide, fun _ _ => rfl⟩, fun i e he hu => ?_⟩
  have hspared : ∀ (k : Nat) (f : Framed Nat),
      (framed some (healthyTape [[1, 2, 3, 4], [1, 2, 5, 6], [1, 2, 7, 8]]))[k]? = some f →
        f.ids.length = 4 ∧ f.ids.take 2 = [1, 2] ∧ f.prefill = noFaults ∧ f.decode = none := by
    intro k f hf
    match k with
    | 0 | 1 | 2 =>
        cases hf
        exact ⟨rfl, rfl, rfl, rfl⟩
    | k + 3 => cases hf
  obtain ⟨hlen, hshares, _, _⟩ := hspared i e he
  refine ⟨⟨hshares, ?_, ?_⟩, fun k f _ hf => ?_⟩
  · rw [hlen]
    decide
  · rw [hlen]
    decide
  · obtain ⟨hlen, _, hprefill, hdecode⟩ := hspared k f hf
    refine Or.inr (Or.inr (Or.inr ⟨⟨fun _ _ => ?_, ?_⟩, ?_, Or.inl rfl⟩))
    · rw [hprefill]
      rfl
    · rw [hdecode]
      rfl
    · rw [hlen]
      decide

/-- The third event shares one token with the first two, which share two: it is evaluated
behind the second one's. -/
theorem heartbeat_foreign_prefix :
    ¬HeartbeatAgrees (posKernels 0) heartbeatGeometry List.sum some
      (healthyTape [[1, 2, 3, 4], [1, 2, 5, 6], [1, 7, 8, 9]]) noFaults
      (Session.opened (fun _ => 0) (fun _ _ => 0) fun _ _ => 0)
      (Session.opened (fun _ => 0) (fun _ _ => 0) fun _ _ => 0) := by
  rintro ⟨ticks, oracle, hticks, _, hall⟩
  have hrun : runLiHeartbeat (posKernels 0) heartbeatGeometry List.sum some
      (healthyTape [[1, 2, 3, 4], [1, 2, 5, 6], [1, 7, 8, 9]]) noFaults
      (Session.opened (fun _ => 0) (fun _ _ => 0) fun _ _ => 0) =
      .ok [some ⟨[1, 2, 3, 4], 10⟩, some ⟨[1, 2, 5, 6], 14⟩, some ⟨[1, 2, 8, 9], 20⟩] := rfl
  rw [hrun, Except.ok.injEq] at hticks
  obtain ⟨t, ht, hcontext, _⟩ := hall 2 ⟨[1, 7, 8, 9], noFaults, none⟩ rfl
    ⟨fun _ _ => rfl, rfl⟩
  rw [← hticks] at ht
  cases ht
  exact absurd hcontext (by decide)

end ShannonPrime.Daemon
