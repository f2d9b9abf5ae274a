import ShannonPrime.Lib.Runs

/-!
The inference flag. A chat or dialogue request stores `true` and holds a guard that
stores `false` when it is dropped, however the request ends; the mining loop and the
idle reconciler read the flag before they begin work. The flag does not count, so an
overlap of requests matters. In the qwen36 lane a chat request runs without a guard,
and a dialogue request panics on the absent session before it has one.
-/

namespace ShannonPrime.Daemon

inductive Handler where
  | chat
  | dialogue
  deriving DecidableEq

/-- How a request ends. The guard is moved into the blocking closure and dropped with
it in every case. -/
inductive Ending where
  | done
  | error
  | disconnected
  | panicked
  deriving DecidableEq

/-- The loops that work in the background. -/
inductive Background where
  | mining
  | reconciler
  deriving DecidableEq

structure Request where
  id : Nat
  handler : Handler
  guarded : Bool
  deriving DecidableEq

inductive Activity where
  | start (id : Nat) (handler : Handler)
  | finish (id : Nat) (ending : Ending)
  | poll (loop : Background)
  deriving DecidableEq

/-- `active` is the flag, `inFlight` the requests between their start and their end, and
`begun` the background work begun so far, with the requests it began under. -/
structure Inference where
  active : Bool
  inFlight : List Request
  begun : List (Background × List Request)
  deriving DecidableEq

namespace Inference

def idle : Inference := ⟨false, [], []⟩

/-- Requests are told apart by their ids, so a second start of an id in flight is none. -/
def holds (s : Inference) (id : Nat) : Bool := s.inFlight.any fun r => r.id == id

/-- Whether the handler gets as far as the flag, and with a guard. -/
def admits (qwen36 : Bool) : Handler → Option Bool
  | .chat => some !qwen36
  | .dialogue => if qwen36 then none else some true

/-- One event, in a daemon that serves the qwen36 lane or not. -/
def step (qwen36 : Bool) (s : Inference) : Activity → Inference
  | .start id handler =>
      if s.holds id then s
      else
        match admits qwen36 handler with
        | none => s
        | some guarded =>
            { s with
              active := s.active || guarded
              inFlight := s.inFlight ++ [⟨id, handler, guarded⟩] }
  | .finish id _ =>
      let ended := s.inFlight.filter fun r => r.id == id
      { s with
        active := s.active && !ended.any Request.guarded
        inFlight := s.inFlight.filter fun r => r.id != id }
  | .poll loop => if s.active then s else { s with begun := s.begun ++ [(loop, s.inFlight)] }

/-- The flag says whether a request is in flight. -/
def Accurate (s : Inference) : Prop := s.active = true ↔ s.inFlight ≠ []

/-- The event neither ends a request while another is in flight nor starts one that
takes no guard. -/
def Undisturbed (qwen36 : Bool) (s : Inference) : Activity → Prop
  | .start id handler => s.holds id = true ∨ admits qwen36 handler ≠ some false
  | .finish id _ => s.holds id = true → ∀ r ∈ s.inFlight, r.id = id
  | .poll _ => True

/-- Guards are taken outside the qwen36 lane, and the flag is only ever set there. -/
structure Lawful (qwen36 : Bool) (s : Inference) : Prop where
  guarded : ∀ r ∈ s.inFlight, r.guarded = !qwen36
  clear : s.inFlight = [] → s.active = false
  unset : qwen36 = true → s.active = false

variable {qwen36 : Bool} {s : Inference}

theorem holds_iff {id : Nat} : s.holds id = true ↔ ∃ r ∈ s.inFlight, r.id = id := by
  simp [holds]

theorem admits_guarded {handler : Handler} {guarded : Bool}
    (h : admits qwen36 handler = some guarded) : guarded = !qwen36 := by
  cases handler with
  | chat => simpa [admits] using h.symm
  | dialogue => cases qwen36 <;> simp_all [admits]

/-- What ends with an id that is in flight has a guard outside the qwen36 lane. -/
theorem Lawful.ended (h : Lawful qwen36 s) {id : Nat} (hid : s.holds id = true) :
    (s.inFlight.filter fun r => r.id == id).any Request.guarded = !qwen36 := by
  obtain ⟨r, hr, hrid⟩ := holds_iff.mp hid
  cases hq : qwen36 with
  | false =>
      simp only [Bool.not_false, List.any_eq_true, List.mem_filter, beq_iff_eq]
      exact ⟨r, ⟨hr, hrid⟩, by simp [h.guarded r hr, hq]⟩
  | true =>
      simp only [Bool.not_true, List.any_eq_false, List.mem_filter, beq_iff_eq]
      rintro r' ⟨hr', _⟩
      simp [h.guarded r' hr', hq]

theorem ended_nil {id : Nat} (hid : s.holds id = false) :
    (s.inFlight.filter fun r => r.id == id) = [] ∧
      (s.inFlight.filter fun r => r.id != id) = s.inFlight := by
  have hne : ∀ r ∈ s.inFlight, r.id ≠ id := by
    intro r hr hrid
    rw [holds_iff.mpr ⟨r, hr, hrid⟩] at hid
    cases hid
  constructor
  · simpa [List.filter_eq_nil_iff] using hne
  · simpa [List.filter_eq_self] using hne

theorem Lawful.step (h : Lawful qwen36 s) (a : Activity) : Lawful qwen36 (s.step qwen36 a) := by
  cases a with
  | start id handler =>
      simp only [Inference.step]
      split
      case isTrue => exact h
      case isFalse =>
        cases hadmits : admits qwen36 handler with
        | none => exact h
        | some guarded =>
            have hguarded := admits_guarded hadmits
            constructor
            · intro r hr
              rcases List.mem_append.mp hr with hold | hnew
              · exact h.guarded r hold
              · rw [List.mem_singleton.mp hnew]
                exact hguarded
            · simp
            · intro hq
              simp [h.unset hq, hguarded, hq]
  | finish id ending =>
      constructor
      · intro r hr
        exact h.guarded r (List.mem_of_mem_filter hr)
      · intro hnil
        cases hid : s.holds id with
        | true =>
            simp only [Inference.step, h.ended hid]
            cases hq : qwen36 with
            | false => simp
            | true => simp [h.unset hq]
        | false =>
            have hsame := ended_nil hid
            simp only [Inference.step, hsame.2] at hnil
            simp [Inference.step, h.clear hnil]
      · intro hq
        simp [Inference.step, h.unset hq]
  | poll loop =>
      simp only [Inference.step]
      split
      · exact h
      · exact ⟨h.guarded, h.clear, h.unset⟩

/-- An event keeps the flag accurate exactly when it is undisturbed. -/
theorem Accurate.step_iff (hl : Lawful qwen36 s) (h : s.Accurate) (a : Activity) :
    (s.step qwen36 a).Accurate ↔ Undisturbed qwen36 s a := by
  cases a with
  | start id handler =>
      simp only [Inference.step, Undisturbed]
      split
      case isTrue hid => simp [h, hid]
      case isFalse hid =>
        cases hadmits : admits qwen36 handler with
        | none => simp [h]
        | some guarded =>
            have hguarded := admits_guarded hadmits
            cases guarded with
            | true => simp [Accurate]
            | false =>
                have hq : qwen36 = true := by simpa using hguarded
                simp [Accurate, hl.unset hq, hid]
  | finish id ending =>
      cases hid : s.holds id with
      | false =>
          have hsame := ended_nil hid
          have hstep : (s.step qwen36 (.finish id ending)).Accurate ↔ s.Accurate := by
            simp [Accurate, Inference.step, hsame]
          simp [hstep, h, Undisturbed, hid]
      | true =>
          have hq : qwen36 = false := by
            cases hq : qwen36 with
            | false => rfl
            | true =>
                obtain ⟨r, hr, _⟩ := holds_iff.mp hid
                have hactive := h.mpr (List.ne_nil_of_mem hr)
                rw [hl.unset hq] at hactive
                cases hactive
          have hnil : s.inFlight.filter (fun r => r.id != id) = [] ↔
              ∀ r ∈ s.inFlight, r.id = id := by
            simp [List.filter_eq_nil_iff]
          simp [Accurate, Inference.step, hl.ended hid, hq, Undisturbed, hid]
  | poll loop =>
      simp only [Inference.step]
      split
      · simp [h, Undisturbed]
      · simpa [Accurate, Undisturbed] using h

theorem idle_lawful : Lawful qwen36 idle := ⟨by simp [idle], fun _ => rfl, fun _ => rfl⟩

theorem idle_accurate : idle.Accurate := by simp [Accurate, idle]

end Inference

open Inference Runs

/-- The flag says throughout a run whether a request is in flight, exactly when no
request of the run ends while another is in flight, or runs without a guard. -/
theorem inference_active_iff (qwen36 : Bool) (events : List Activity) :
    Always (Inference.step qwen36) Accurate idle events ↔
      Each (Inference.step qwen36) (Undisturbed qwen36) idle events :=
  always_iff_each idle_lawful (fun _ a h => h.step a) idle_accurate
    (fun _ a hl h => h.step_iff hl a)

/-- In such a run no background work begins under a request. -/
theorem background_begins_idle {qwen36 : Bool} {events : List Activity}
    (h : Each (Inference.step qwen36) (Undisturbed qwen36) idle events) :
    ∀ b ∈ (after (Inference.step qwen36) idle events).begun, b.2 = [] := by
  have hkept : Always (Inference.step qwen36)
      (fun s => (Lawful qwen36 s ∧ s.Accurate) ∧ ∀ b ∈ s.begun, b.2 = []) idle events := by
    refine h.always ⟨⟨idle_lawful, idle_accurate⟩, by simp [idle]⟩ ?_
    rintro s a ⟨⟨hl, haccurate⟩, hbegun⟩ hundisturbed
    refine ⟨⟨hl.step a, (haccurate.step_iff hl a).mpr hundisturbed⟩, ?_⟩
    cases a with
    | start id handler =>
        simp only [Inference.step]
        split
        · exact hbegun
        · split <;> exact hbegun
    | finish id ending => exact hbegun
    | poll loop =>
        simp only [Inference.step]
        split
        case isTrue => exact hbegun
        case isFalse hclear =>
          have hnone : s.inFlight = [] := by
            by_contra hne
            exact hclear (haccurate.mpr hne)
          intro b hb
          rcases List.mem_append.mp hb with hold | hnew
          · exact hbegun b hold
          · rw [List.mem_singleton.mp hnew]
            exact hnone
  exact hkept.last.2

/-- Two chat requests overlap and the client of the first is gone: the flag is clear
while the second still runs, and the mining loop begins a batch under it. -/
theorem inference_active_overlap_clear :
    let events : List Activity :=
      [.start 0 .chat, .start 1 .chat, .finish 0 .disconnected, .poll .mining]
    ¬Always (Inference.step false) Accurate idle events ∧
      (after (Inference.step false) idle events).begun = [(.mining, [⟨1, .chat, true⟩])] := by
  intro events
  constructor
  · intro h
    have hlast := h.last
    simp [Accurate, events, after, Inference.step, idle, holds, admits] at hlast
  · decide

end ShannonPrime.Daemon
