import Mathlib.Tactic.Common

/-!
Code over a state that may give up with a code, leaving the state as it is by then, and may go
wrong. A specification of it says that it does not go wrong, and what holds of the state where it
ends and where it gives up.
-/

namespace ShannonPrime

universe u

/-- None where the code goes wrong. -/
def Exits (ε σ α : Type u) : Type u := σ → Option (Except ε α × σ)

namespace Exits

variable {ε σ α β : Type u}

instance : Monad (Exits ε σ) where
  pure a := fun s => some (.ok a, s)
  bind c f := fun s =>
    match c s with
    | none => none
    | some (.error e, s') => some (.error e, s')
    | some (.ok a, s') => f a s'

theorem bind_at (c : Exits ε σ α) (f : α → Exits ε σ β) (s : σ) :
    (c >>= f) s = match c s with
      | none => none
      | some (.error e, s') => some (.error e, s')
      | some (.ok a, s') => f a s' := rfl

theorem bind_ok {c : Exits ε σ α} {s s' : σ} {a : α} (h : c s = some (.ok a, s'))
    (f : α → Exits ε σ β) : (c >>= f) s = f a s' := by
  rw [bind_at, h]

theorem bind_error {c : Exits ε σ α} {s s' : σ} {e : ε} (h : c s = some (.error e, s'))
    (f : α → Exits ε σ β) : (c >>= f) s = some (.error e, s') := by
  rw [bind_at, h]

theorem bind_ended {c : Exits ε σ α} {f : α → Exits ε σ β} {s s' : σ} {b : β}
    (h : (c >>= f) s = some (.ok b, s')) :
    ∃ a s₁, c s = some (.ok a, s₁) ∧ f a s₁ = some (.ok b, s') := by
  rw [bind_at] at h
  cases hrun : c s with
  | none =>
      rw [hrun] at h
      cases h
  | some out =>
      rw [hrun] at h
      obtain ⟨r, s₁⟩ := out
      cases r with
      | error e => cases h
      | ok a => exact ⟨a, s₁, rfl, h⟩

/-- Three parts of a program may be grouped either way. -/
theorem bind_group {γ : Type u} (c : Exits ε σ α) (f : α → Exits ε σ β) (g : β → Exits ε σ γ) :
    c >>= f >>= g = c >>= fun a => f a >>= g := by
  funext s
  rw [bind_at, bind_at, bind_at]
  match c s with
  | none => rfl
  | some (.error e, s') => rfl
  | some (.ok a, s') => rfl

def get : Exits ε σ σ := fun s => some (.ok s, s)

def modify (f : σ → σ) : Exits ε σ PUnit := fun s => some (.ok ⟨⟩, f s)

def exit (e : ε) : Exits ε σ α := fun s => some (.error e, s)

def require (p : σ → Bool) : Exits ε σ PUnit := fun s => if p s then some (.ok ⟨⟩, s) else none

theorem get_at (s : σ) : (get : Exits ε σ σ) s = some (.ok s, s) := rfl

theorem modify_at (f : σ → σ) (s : σ) : (modify f : Exits ε σ PUnit) s = some (.ok ⟨⟩, f s) := rfl

theorem require_at {p : σ → Bool} {s : σ} (hp : p s = true) :
    (require p : Exits ε σ PUnit) s = some (.ok ⟨⟩, s) := if_pos hp

/-- `Q` where the code ends, `X` where it gives up. -/
def Ends (Q : α → σ → Prop) (X : σ → Prop) (s : σ) : Except ε α → Prop
  | .ok a => Q a s
  | .error _ => X s

/-- From a state with `P` the code does not go wrong; it ends with `Q`, or it gives up with `X`. -/
def Keeps (P : σ → Prop) (c : Exits ε σ α) (Q : α → σ → Prop) (X : σ → Prop) : Prop :=
  ∀ s, P s → ∃ r s', c s = some (r, s') ∧ Ends Q X s' r

variable {P P' I : σ → Prop} {Q Q' : α → σ → Prop} {R : β → σ → Prop} {X X' : σ → Prop}

theorem keeps_pure {a : α} (h : ∀ s, P s → Q a s) : Keeps P (pure a : Exits ε σ α) Q X :=
  fun s hs => ⟨.ok a, s, rfl, h s hs⟩

theorem keeps_modify {f : σ → σ} {Q : PUnit → σ → Prop} (h : ∀ s, P s → Q ⟨⟩ (f s)) :
    Keeps P (modify f : Exits ε σ PUnit) Q X :=
  fun s hs => ⟨.ok ⟨⟩, f s, rfl, h s hs⟩

theorem keeps_exit {e : ε} (h : ∀ s, P s → X s) : Keeps P (exit e : Exits ε σ α) Q X :=
  fun s hs => ⟨.error e, s, rfl, h s hs⟩

theorem keeps_require {p : σ → Bool} {Q : PUnit → σ → Prop} (hp : ∀ s, P s → p s = true)
    (h : ∀ s, P s → Q ⟨⟩ s) : Keeps P (require p : Exits ε σ PUnit) Q X :=
  fun s hs => ⟨.ok ⟨⟩, s, if_pos (hp s hs), h s hs⟩

theorem keeps_bind {c : Exits ε σ α} {f : α → Exits ε σ β} (hc : Keeps P c Q X)
    (hf : ∀ a, Keeps (Q a) (f a) R X) : Keeps P (c >>= f) R X := by
  intro s hs
  obtain ⟨r, s', hrun, hr⟩ := hc s hs
  rw [bind_at, hrun]
  cases r with
  | error e => exact ⟨.error e, s', rfl, hr⟩
  | ok a => exact hf a s' hr

theorem Keeps.weaken {c : Exits ε σ α} (h : Keeps P c Q X) (hP : ∀ s, P' s → P s)
    (hQ : ∀ a s, Q a s → Q' a s) (hX : ∀ s, X s → X' s) : Keeps P' c Q' X' := by
  intro s hs
  obtain ⟨r, s', hrun, hr⟩ := h s (hP s hs)
  refine ⟨r, s', hrun, ?_⟩
  cases r with
  | error e => exact hX s' hr
  | ok a => exact hQ a s' hr

theorem Keeps.pre {c : Exits ε σ α} (h : Keeps P c Q X) (hP : ∀ s, P' s → P s) :
    Keeps P' c Q X := h.weaken hP (fun _ _ hq => hq) fun _ hx => hx

theorem Keeps.post {c : Exits ε σ α} (h : Keeps P c Q X) (hQ : ∀ a s, Q a s → Q' a s) :
    Keeps P c Q' X := h.weaken (fun _ hp => hp) hQ fun _ hx => hx

/-- What is said of the state before the code may depend on that state. -/
theorem keeps_of_state {c : Exits ε σ α} (h : ∀ s, P s → Keeps (· = s) c Q X) :
    Keeps P c Q X := fun s hs => h s hs s rfl

theorem keeps_at {s s' : σ} {c : Exits ε σ α} {r : Except ε α} (hrun : c s = some (r, s'))
    (hr : Ends Q X s' r) : Keeps (· = s) c Q X := by
  rintro _ rfl
  exact ⟨r, s', hrun, hr⟩

theorem keeps_get_bind {s : σ} {f : σ → Exits ε σ β} (h : Keeps (· = s) (f s) R X) :
    Keeps (· = s) (get >>= f) R X := by
  intro s' hs
  rw [hs]
  exact h s rfl

/-- A loop whose body keeps `I`. -/
theorem keeps_forM {l : List β} {f : β → Exits ε σ PUnit}
    (h : ∀ b ∈ l, Keeps I (f b) (fun _ => I) X) : Keeps I (l.forM f) (fun _ => I) X := by
  induction l with
  | nil => exact keeps_pure fun s hs => hs
  | cons b l ih =>
      exact keeps_bind (h b List.mem_cons_self) fun _ =>
        ih fun b' hb' => h b' (List.mem_cons_of_mem _ hb')

/-- A body comes after bodies that have ended, so that what their ending shows may be used. -/
theorem keeps_forM_reached {l : List β} {f : β → Exits ε σ PUnit} (Passed : β → Prop)
    (hpassed : ∀ b s s', f b s = some (.ok ⟨⟩, s') → Passed b)
    (h : ∀ l₁ b l₂, l = l₁ ++ b :: l₂ → (∀ b' ∈ l₁, Passed b') →
      Keeps I (f b) (fun _ => I) X) : Keeps I (l.forM f) (fun _ => I) X := by
  induction l with
  | nil => exact keeps_pure fun s hs => hs
  | cons b l ih =>
      intro s hs
      have hfirst : Keeps I (f b) (fun _ => I) X := h [] b l rfl fun _ hb' => nomatch hb'
      obtain ⟨r, s', hrun, hr⟩ := hfirst s hs
      cases r with
      | error e => exact ⟨.error e, s', bind_error hrun _, hr⟩
      | ok a =>
          have hb : Passed b := hpassed b s s' hrun
          have htail : Keeps I (l.forM f) (fun _ => I) X := ih fun l₁ b' l₂ hl hbefore =>
            h (b :: l₁) b' l₂ (by rw [hl, List.cons_append]) fun b'' hb'' => by
              rcases List.mem_cons.mp hb'' with rfl | hin
              · exact hb
              · exact hbefore b'' hin
          obtain ⟨r', s'', hrest, hr'⟩ := htail s' hr
          exact ⟨r', s'', (bind_ok hrun _).trans hrest, hr'⟩

end Exits

end ShannonPrime
