import Mathlib.Data.List.Perm.Basic

/-!
Shuffling in place by trading places, over any source of draws.
-/

namespace ShannonPrime.Shuffle

variable {σ α : Type*}

/-- Two elements trade places; there is no result where one of the places is not there. -/
def swapAt (xs : List α) (i j : Nat) : Option (List α) :=
  if i < xs.length ∧ j < xs.length then some (xs.swap i j) else none

/-- The element at `i` trades places with one that is drawn. -/
def step (draw : σ → Nat → Nat × σ) (p : σ × List α) (i : Nat) : Option (σ × List α) :=
  let drawn := draw p.1 i
  (swapAt p.2 i drawn.1).map (drawn.2, ·)

theorem step_perm {draw : σ → Nat → Nat × σ} (hdraw : ∀ s i, (draw s i).1 ≤ i) {p : σ × List α}
    {i : Nat} (hi : i < p.2.length) : ∃ q, step draw p i = some q ∧ q.2.Perm p.2 := by
  have hj := hdraw p.1 i
  refine ⟨((draw p.1 i).2, p.2.swap i (draw p.1 i).1), ?_, List.swap_perm _ _ _⟩
  rw [step, swapAt, if_pos ⟨hi, by omega⟩]
  rfl

/-- Whatever is drawn, the shuffled list is a permutation. -/
theorem shuffle_perm {draw : σ → Nat → Nat × σ} (hdraw : ∀ s i, (draw s i).1 ≤ i) {is : List Nat}
    {p : σ × List α} (his : ∀ i ∈ is, i < p.2.length) :
    ∃ q, is.foldlM (step draw) p = some q ∧ q.2.Perm p.2 := by
  induction is generalizing p with
  | nil => exact ⟨p, rfl, List.Perm.refl _⟩
  | cons i is ih =>
      obtain ⟨p', hstep, hperm⟩ := step_perm hdraw (his i List.mem_cons_self)
      have hrest : ∀ i ∈ is, i < p'.2.length := fun i hi => by
        rw [hperm.length_eq]
        exact his i (List.mem_cons_of_mem _ hi)
      obtain ⟨q, hrun, hperm'⟩ := ih hrest
      refine ⟨q, ?_, hperm'.trans hperm⟩
      rw [List.foldlM_cons, hstep]
      exact hrun

end ShannonPrime.Shuffle
