import Mathlib.Data.List.Infix

/-!
Runs of a total step function, looked at in every state they pass through. `Always`
is a property of the states, `Each` a condition on the steps and the states they are
taken in; the rules go from the second to the first.
-/

namespace ShannonPrime.Runs

variable {S E : Type*}

section Rules

variable (step : S → E → S)

/-- The state after a run. -/
def after (s : S) (events : List E) : S := events.foldl step s

/-- The property holds in every state the run passes through. -/
def Always (P : S → Prop) (s : S) (events : List E) : Prop :=
  ∀ before, before <+: events → P (after step s before)

/-- The condition holds at every step of the run. -/
def Each (Q : S → E → Prop) (s : S) (events : List E) : Prop :=
  ∀ before e, before ++ [e] <+: events → Q (after step s before) e

end Rules

variable {step : S → E → S} {P W : S → Prop} {Q : S → E → Prop} {s : S} {events : List E}

@[simp] theorem after_nil : after step s [] = s := rfl

@[simp] theorem after_concat (e : E) :
    after step s (events ++ [e]) = step (after step s events) e := by
  simp [after]

theorem after_append (events' : List E) :
    after step s (events ++ events') = after step (after step s events) events' :=
  List.foldl_append

theorem always_nil : Always step P s [] ↔ P s := by
  constructor
  · intro h
    exact h [] (List.prefix_refl _)
  · intro h before hbefore
    rw [List.prefix_nil.mp hbefore]
    exact h

theorem always_concat (e : E) :
    Always step P s (events ++ [e]) ↔
      Always step P s events ∧ P (step (after step s events) e) := by
  constructor
  · intro h
    constructor
    · intro before hbefore
      exact h before (hbefore.trans (List.prefix_append _ _))
    · simpa using h _ (List.prefix_refl _)
  · rintro ⟨h, hlast⟩ before hbefore
    rcases List.prefix_concat_iff.mp hbefore with rfl | hearlier
    · simpa using hlast
    · exact h before hearlier

theorem each_nil : Each step Q s [] := by
  intro before e hbefore
  simp at hbefore

theorem each_concat (e : E) :
    Each step Q s (events ++ [e]) ↔ Each step Q s events ∧ Q (after step s events) e := by
  constructor
  · intro h
    constructor
    · intro before e' hbefore
      exact h before e' (hbefore.trans (List.prefix_append _ _))
    · exact h events e (List.prefix_refl _)
  · rintro ⟨h, hlast⟩ before e' hbefore
    rcases List.prefix_concat_iff.mp hbefore with heq | hearlier
    · obtain ⟨rfl, he⟩ := List.append_inj' heq rfl
      obtain rfl : e' = e := by simpa using he
      exact hlast
    · exact h before e' hearlier

/-- The steps of a run, from the first one on. -/
theorem each_cons (e : E) :
    Each step Q s (e :: events) ↔ Q s e ∧ Each step Q (step s e) events := by
  constructor
  · intro h
    constructor
    · exact h [] e (List.cons_prefix_cons.mpr ⟨rfl, List.nil_prefix⟩)
    · intro before e' hbefore
      exact h (e :: before) e' (List.cons_prefix_cons.mpr ⟨rfl, hbefore⟩)
  · rintro ⟨hfirst, hrest⟩ before e' hbefore
    cases before with
    | nil =>
        obtain ⟨rfl, -⟩ := List.cons_prefix_cons.mp hbefore
        exact hfirst
    | cons b before =>
        obtain ⟨rfl, hlater⟩ := List.cons_prefix_cons.mp hbefore
        exact hrest before e' hlater

theorem each_append {events' : List E} :
    Each step Q s (events ++ events') ↔
      Each step Q s events ∧ Each step Q (after step s events) events' := by
  induction events generalizing s with
  | nil => simp [each_nil]
  | cons e events ih =>
      rw [List.cons_append, each_cons, each_cons, ih, and_assoc]
      rfl

/-- The final state is one the run passes through. -/
theorem Always.last (h : Always step P s events) : P (after step s events) :=
  h events (List.prefix_refl _)

/-- The invariant rule. -/
theorem always_of_step (hinit : P s) (hstep : ∀ s e, P s → P (step s e)) :
    Always step P s events := by
  induction events using List.reverseRecOn with
  | nil => exact always_nil.mpr hinit
  | append_singleton events e ih => exact (always_concat e).mpr ⟨ih, hstep _ _ ih.last⟩

/-- A property that a step keeps when its condition is met holds throughout a run whose
steps all meet it. -/
theorem Each.always (h : Each step Q s events) (hinit : P s)
    (hstep : ∀ s e, P s → Q s e → P (step s e)) : Always step P s events := by
  induction events using List.reverseRecOn with
  | nil => exact always_nil.mpr hinit
  | append_singleton events e ih =>
      obtain ⟨hearlier, hlast⟩ := (each_concat e).mp h
      exact (always_concat e).mpr ⟨ih hearlier, hstep _ _ (ih hearlier).last hlast⟩

/-- Where a step keeps the property exactly when its condition is met, in the states
that satisfy the invariant `W`, a run has the property exactly when each of its steps
meets the condition. -/
theorem always_iff_each (hW : W s) (hWstep : ∀ s e, W s → W (step s e)) (hinit : P s)
    (hstep : ∀ s e, W s → P s → (P (step s e) ↔ Q s e)) :
    Always step P s events ↔ Each step Q s events := by
  induction events using List.reverseRecOn with
  | nil => exact iff_of_true (always_nil.mpr hinit) each_nil
  | append_singleton events e ih =>
      have hinv : W (after step s events) := (always_of_step hW hWstep).last
      rw [always_concat, each_concat, ← ih]
      constructor
      · rintro ⟨h, hlast⟩
        exact ⟨h, (hstep _ _ hinv h.last).mp hlast⟩
      · rintro ⟨h, hlast⟩
        exact ⟨h, (hstep _ _ hinv h.last).mpr hlast⟩

end ShannonPrime.Runs
