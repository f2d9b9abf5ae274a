import Mathlib.Data.List.Basic
import Mathlib.Data.List.Forall2

/-!
Lists of fallible results, and fallible loops over a list: when the results are all there,
what one that is there says of each of them, and that only the elements matter.
-/

namespace ShannonPrime.Traverse

variable {α β : Type*} {f : α → Option β} {g : α → β} {l : List α}

theorem mapM_eq_some (h : ∀ x ∈ l, f x = some (g x)) : l.mapM f = some (l.map g) := by
  induction l with
  | nil => rfl
  | cons x l ih =>
      rw [List.mapM_cons, h x List.mem_cons_self, ih fun y hy => h y (List.mem_cons_of_mem _ hy)]
      rfl

theorem mapM_mem {r : List β} (h : l.mapM f = some r) : ∀ x ∈ l, ∃ y, f x = some y := by
  induction l generalizing r with
  | nil => simp
  | cons x l ih =>
      rw [List.mapM_cons] at h
      obtain ⟨y, hy, h⟩ := Option.bind_eq_some_iff.mp h
      obtain ⟨ys, hys, -⟩ := Option.bind_eq_some_iff.mp h
      intro x' hx'
      rcases List.mem_cons.mp hx' with rfl | hrest
      · exact ⟨y, hy⟩
      · exact ih hys x' hrest

/-- Every element goes with its result. -/
theorem mapM_zip {r : List β} (h : l.mapM f = some r) : ∀ p ∈ l.zip r, f p.1 = some p.2 := by
  induction l generalizing r with
  | nil => simp
  | cons x l ih =>
      rw [List.mapM_cons] at h
      obtain ⟨y, hy, h⟩ := Option.bind_eq_some_iff.mp h
      obtain ⟨ys, hys, hr⟩ := Option.bind_eq_some_iff.mp h
      cases hr
      intro p hp
      rcases List.mem_cons.mp hp with rfl | hrest
      · exact hy
      · exact ih hys p hrest

/-- The results stand in a relation to the elements when each is there and does. -/
theorem mapM_forall₂ {P : α → β → Prop} :
    (∃ r, l.mapM f = some r ∧ List.Forall₂ P l r) ↔ ∀ x ∈ l, ∃ y, f x = some y ∧ P x y := by
  induction l with
  | nil =>
      constructor
      · rintro - x hx
        exact absurd hx List.not_mem_nil
      · intro _
        exact ⟨[], rfl, List.Forall₂.nil⟩
  | cons x l ih =>
      rw [List.forall_mem_cons, ← ih]
      constructor
      · rintro ⟨r, h, hall⟩
        rw [List.mapM_cons] at h
        obtain ⟨y, hy, h⟩ := Option.bind_eq_some_iff.mp h
        obtain ⟨ys, hys, hr⟩ := Option.bind_eq_some_iff.mp h
        cases hr
        obtain ⟨hhead, htail⟩ := List.forall₂_cons.mp hall
        exact ⟨⟨y, hy, hhead⟩, ys, hys, htail⟩
      · rintro ⟨⟨y, hy, hhead⟩, ys, hys, htail⟩
        refine ⟨y :: ys, ?_, List.Forall₂.cons hhead htail⟩
        rw [List.mapM_cons, hy, hys]
        rfl

theorem mapM_all {P : β → Prop} (h : ∀ x ∈ l, ∃ y, f x = some y ∧ P y) :
    ∃ r, l.mapM f = some r ∧ r.length = l.length ∧ ∀ y ∈ r, P y := by
  obtain ⟨r, hr, hall⟩ := mapM_forall₂.mpr h
  have hlength := hall.length_eq
  refine ⟨r, hr, hlength.symm, fun y hy => ?_⟩
  obtain ⟨i, hi, rfl⟩ := List.mem_iff_getElem.mp hy
  exact hall.get (by omega) hi

theorem mapM_congr {f' : α → Option β} (h : ∀ x ∈ l, f x = f' x) : l.mapM f = l.mapM f' := by
  induction l with
  | nil => rfl
  | cons x l ih =>
      rw [List.mapM_cons, List.mapM_cons, h x List.mem_cons_self,
        ih fun y hy => h y (List.mem_cons_of_mem _ hy)]

/-- A loop none of whose steps fails is the loop without failures. -/
theorem foldlM_eq_some {step : β → α → Option β} {step' : β → α → β}
    (h : ∀ s, ∀ x ∈ l, step s x = some (step' s x)) (s : β) :
    l.foldlM step s = some (l.foldl step' s) := by
  induction l generalizing s with
  | nil => rfl
  | cons x l ih =>
      rw [List.foldlM_cons, h s x List.mem_cons_self]
      exact ih (fun t y hy => h t y (List.mem_cons_of_mem _ hy)) (step' s x)

theorem foldlM_isSome {step : β → α → Option β} (h : ∀ s, ∀ x ∈ l, ∃ s', step s x = some s')
    (s : β) : ∃ s', l.foldlM step s = some s' := by
  induction l generalizing s with
  | nil => exact ⟨s, rfl⟩
  | cons x l ih =>
      obtain ⟨s', hs'⟩ := h s x List.mem_cons_self
      rw [List.foldlM_cons, hs']
      exact ih (fun t y hy => h t y (List.mem_cons_of_mem _ hy)) s'

/-- A loop with an element at which its step always fails. -/
theorem foldlM_eq_none {step : β → α → Option β} {x : α} (hx : x ∈ l) (h : ∀ s, step s x = none)
    (s : β) : l.foldlM step s = none := by
  induction l generalizing s with
  | nil => exact absurd hx List.not_mem_nil
  | cons y l ih =>
      rw [List.foldlM_cons]
      rcases List.mem_cons.mp hx with rfl | hrest
      · rw [h s]
        rfl
      · cases step s y with
        | none => rfl
        | some s' => exact ih hrest s'

theorem foldlM_congr {step step' : β → α → Option β} (h : ∀ s, ∀ x ∈ l, step s x = step' s x)
    (s : β) : l.foldlM step s = l.foldlM step' s := by
  induction l generalizing s with
  | nil => rfl
  | cons x l ih =>
      rw [List.foldlM_cons, List.foldlM_cons, h s x List.mem_cons_self]
      exact congrArg _ (funext fun s' => ih (fun t y hy => h t y (List.mem_cons_of_mem _ hy)) s')

/-- A loop that computes something of each element and goes on with it. -/
theorem foldlM_mapM {γ : Type*} {step : γ → β → Option γ} {r : List β} (h : l.mapM f = some r)
    (s : γ) : l.foldlM (fun s x => (f x).bind (step s)) s = r.foldlM step s := by
  induction l generalizing r s with
  | nil =>
      obtain rfl : [] = r := Option.some.inj h
      rfl
  | cons x l ih =>
      rw [List.mapM_cons] at h
      obtain ⟨y, hy, h⟩ := Option.bind_eq_some_iff.mp h
      obtain ⟨ys, hys, hr⟩ := Option.bind_eq_some_iff.mp h
      cases hr
      rw [List.foldlM_cons, List.foldlM_cons, hy, Option.bind_some]
      exact congrArg _ (funext fun s' => ih hys s')

end ShannonPrime.Traverse
