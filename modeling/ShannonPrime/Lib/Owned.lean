import Mathlib.Data.List.Basic
import Mathlib.Data.List.Nodup
import Mathlib.Logic.Function.Basic

/-!
Slots that own allocations: what is outstanding is what the slots own, every allocation owned
once. Taking a fresh allocation into an empty slot and giving one back keep this.
-/

namespace ShannonPrime.Ownership

variable {K A : Type*} [DecidableEq K]

/-- The outstanding allocations are those of the slots, one each. -/
structure Owned (slots : K → Option A) (held : List A) : Prop where
  nodup : held.Nodup
  held_iff : ∀ a, a ∈ held ↔ ∃ k, slots k = some a
  single : ∀ k k' a, slots k = some a → slots k' = some a → k = k'

namespace Owned

variable {slots : K → Option A} {held : List A} {k : K} {a : A}

omit [DecidableEq K] in
theorem empty : Owned (fun _ : K => (none : Option A)) [] where
  nodup := List.nodup_nil
  held_iff a := by simp
  single k k' a h := by cases h

omit [DecidableEq K] in
theorem mem_held (h : Owned slots held) (hk : slots k = some a) : a ∈ held :=
  (h.held_iff a).mpr ⟨k, hk⟩

theorem acquire (h : Owned slots held) (hk : slots k = none) (ha : a ∉ held) :
    Owned (Function.update slots k (some a)) (a :: held) := by
  have hother : ∀ k', slots k' ≠ some a := fun k' hk' => ha (h.mem_held hk')
  constructor
  case nodup => exact List.nodup_cons.mpr ⟨ha, h.nodup⟩
  case held_iff =>
    intro b
    rw [List.mem_cons, h.held_iff]
    constructor
    · rintro (rfl | ⟨k', hk'⟩)
      · exact ⟨k, Function.update_self ..⟩
      · have hne : k' ≠ k := by
          rintro rfl
          rw [hk] at hk'
          cases hk'
        exact ⟨k', by rw [Function.update_of_ne hne, hk']⟩
    · rintro ⟨k', hk'⟩
      rcases eq_or_ne k' k with rfl | hne
      · rw [Function.update_self] at hk'
        exact Or.inl (Option.some.inj hk').symm
      · rw [Function.update_of_ne hne] at hk'
        exact Or.inr ⟨k', hk'⟩
  case single =>
    intro k₁ k₂ b h₁ h₂
    rcases eq_or_ne k₁ k with rfl | hne₁
    · rcases eq_or_ne k₂ k₁ with rfl | hne₂
      · rfl
      · rw [Function.update_self] at h₁
        rw [Function.update_of_ne hne₂, ← h₁] at h₂
        exact absurd h₂ (hother k₂)
    · rw [Function.update_of_ne hne₁] at h₁
      rcases eq_or_ne k₂ k with rfl | hne₂
      · rw [Function.update_self] at h₂
        rw [← h₂] at h₁
        exact absurd h₁ (hother k₁)
      · rw [Function.update_of_ne hne₂] at h₂
        exact h.single k₁ k₂ b h₁ h₂

theorem release [DecidableEq A] (h : Owned slots held) (hk : slots k = some a) :
    Owned (Function.update slots k none) (held.erase a) := by
  constructor
  case nodup => exact h.nodup.erase a
  case held_iff =>
    intro b
    rw [h.nodup.mem_erase_iff, h.held_iff]
    constructor
    · rintro ⟨hb, k', hk'⟩
      have hne : k' ≠ k := by
        rintro rfl
        rw [hk] at hk'
        exact hb (Option.some.inj hk').symm
      exact ⟨k', by rw [Function.update_of_ne hne, hk']⟩
    · rintro ⟨k', hk'⟩
      rcases eq_or_ne k' k with rfl | hne
      · rw [Function.update_self] at hk'
        cases hk'
      · rw [Function.update_of_ne hne] at hk'
        refine ⟨?_, k', hk'⟩
        rintro rfl
        exact hne (h.single k' k b hk' hk)
  case single =>
    intro k₁ k₂ b h₁ h₂
    rcases eq_or_ne k₁ k with rfl | hne₁
    · rw [Function.update_self] at h₁
      cases h₁
    · rcases eq_or_ne k₂ k with rfl | hne₂
      · rw [Function.update_self] at h₂
        cases h₂
      · rw [Function.update_of_ne hne₁] at h₁
        rw [Function.update_of_ne hne₂] at h₂
        exact h.single k₁ k₂ b h₁ h₂

end Owned

end ShannonPrime.Ownership
