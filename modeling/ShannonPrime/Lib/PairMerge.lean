import Mathlib.Data.Prod.Lex
import ShannonPrime.Lib.BinaryHeap

/-!
Repeated merging of neighbours. The plain procedure looks in each round for the neighbours
of the least rank, the leftmost of them, and merges them. The fast one keeps the symbols in
an array with links and the neighbours in a heap; an entry that is outdated stays in the heap
and is passed over when it comes out.
-/

namespace ShannonPrime.PairMerge

open BinaryHeap

variable {σ κ τ : Type*}

/-! ## The plain procedure -/

/-- A symbol of two lists is one of the first or of the second. -/
theorem append_eq_append_cons {α : Type*} {l₁ l₂ pre post : List α} {x : α}
    (h : l₁ ++ l₂ = pre ++ x :: post) :
    (∃ c, l₁ = pre ++ x :: c ∧ post = c ++ l₂) ∨ ∃ c, pre = l₁ ++ c ∧ l₂ = c ++ x :: post := by
  rcases List.append_eq_append_iff.mp h with hright | ⟨c, hl₁, hc⟩
  · exact Or.inr hright
  · rcases List.append_eq_cons_iff.mp hc.symm with ⟨rfl, hl₂⟩ | ⟨c', rfl, hpost⟩
    · rw [List.append_nil] at hl₁
      exact Or.inr ⟨[], by rw [hl₁, List.append_nil], hl₂⟩
    · exact Or.inl ⟨c', hl₁, hpost⟩

section Plain

variable {rank : σ → σ → Option κ} {join : σ → σ → κ → σ} {l : List σ} {k : κ} {i : Nat}

/-- Two neighbours with a rank at a position. -/
def RankedAt (rank : σ → σ → Option κ) (l : List σ) (i : Nat) (k : κ) : Prop :=
  ∃ a b, l[i]? = some a ∧ l[i + 1]? = some b ∧ rank a b = some k

theorem rankedAt_succ {a : σ} : RankedAt rank (a :: l) (i + 1) k ↔ RankedAt rank l i k := by
  simp only [RankedAt, List.getElem?_cons_succ]

theorem rankedAt_zero {a b : σ} : RankedAt rank (a :: b :: l) 0 k ↔ rank a b = some k := by
  constructor
  · rintro ⟨a', b', ha, hb, hrank⟩
    cases ha
    cases hb
    exact hrank
  · intro hrank
    exact ⟨a, b, rfl, rfl, hrank⟩

theorem not_rankedAt_short (hshort : l.length < 2) : ¬RankedAt rank l i k := by
  rintro ⟨a, b, -, hb, -⟩
  have hlt := (List.getElem?_eq_some_iff.mp hb).1
  omega

/-- The neighbours at a position become one. -/
def mergeAt (join : σ → σ → κ → σ) (k : κ) : Nat → List σ → List σ
  | 0, a :: b :: rest => join a b k :: rest
  | i + 1, a :: rest => a :: mergeAt join k i rest
  | _, l => l

theorem mergeAt_split (pre post : List σ) (a b : σ) :
    mergeAt join k pre.length (pre ++ a :: b :: post) = pre ++ join a b k :: post := by
  induction pre with
  | nil => rfl
  | cons c pre ih =>
      rw [List.cons_append, List.length_cons, mergeAt, ih, List.cons_append]

theorem exists_split {l : List σ} {i : Nat} {a b : σ} (ha : l[i]? = some a)
    (hb : l[i + 1]? = some b) : ∃ pre post, l = pre ++ a :: b :: post ∧ pre.length = i := by
  obtain ⟨hi, rfl⟩ := List.getElem?_eq_some_iff.mp ha
  obtain ⟨hi', rfl⟩ := List.getElem?_eq_some_iff.mp hb
  refine ⟨l.take i, l.drop (i + 2), ?_, List.length_take_of_le hi.le⟩
  rw [← List.drop_eq_getElem_cons hi', ← List.drop_eq_getElem_cons hi, List.take_append_drop]

theorem RankedAt.length_merge (join : σ → σ → κ → σ) (h : RankedAt rank l i k) :
    (mergeAt join k i l).length + 1 = l.length := by
  obtain ⟨a, b, ha, hb, -⟩ := h
  obtain ⟨pre, post, rfl, rfl⟩ := exists_split ha hb
  rw [mergeAt_split]
  simp only [List.length_append, List.length_cons]
  omega

theorem RankedAt.within {u s w : List σ} (h : RankedAt rank s i k) :
    RankedAt rank (u ++ s ++ w) (u.length + i) k := by
  obtain ⟨a, b, ha, hb, hrank⟩ := h
  have hget : ∀ {j : Nat} {x : σ}, s[j]? = some x → (u ++ s ++ w)[u.length + j]? = some x := by
    intro j x hx
    have hlt := (List.getElem?_eq_some_iff.mp hx).1
    rw [List.append_assoc, List.getElem?_append_right (Nat.le_add_right _ _),
      Nat.add_sub_cancel_left, List.getElem?_append_left hlt, hx]
  exact ⟨a, b, hget ha, hget hb, hrank⟩

variable [LinearOrder κ]

/-- The least rank of two neighbours and the first position that has it. -/
def best (rank : σ → σ → Option κ) : List σ → Option (κ × Nat)
  | a :: b :: rest =>
      match rank a b, best rank (b :: rest) with
      | none, later => later.map fun r => (r.1, r.2 + 1)
      | some k, none => some (k, 0)
      | some k, some (k', i) => if k' < k then some (k', i + 1) else some (k, 0)
  | _ => none

/-- At most `fuel` rounds. -/
def naive (rank : σ → σ → Option κ) (join : σ → σ → κ → σ) : Nat → List σ → List σ
  | 0, l => l
  | fuel + 1, l =>
      match best rank l with
      | none => l
      | some (k, i) => naive rank join fuel (mergeAt join k i l)

theorem best_eq_none (h : best rank l = none) : ∀ i k, ¬RankedAt rank l i k := by
  induction l with
  | nil => exact fun i k => not_rankedAt_short (by simp)
  | cons a l ih =>
      cases l with
      | nil => exact fun i k => not_rankedAt_short (by simp)
      | cons b rest =>
          rw [best] at h
          cases hrank : rank a b with
          | some k' =>
              rw [hrank] at h
              cases hlater : best rank (b :: rest) with
              | none =>
                  rw [hlater] at h
                  cases h
              | some r =>
                  rw [hlater] at h
                  dsimp only at h
                  split at h <;> cases h
          | none =>
              rw [hrank] at h
              have hlater := ih (Option.map_eq_none_iff.mp h)
              intro i k
              cases i with
              | zero =>
                  rw [rankedAt_zero, hrank]
                  exact Option.some_ne_none k ∘ Eq.symm
              | succ i =>
                  rw [rankedAt_succ]
                  exact hlater i k

/-- No neighbours have a smaller rank, and none of the same rank stand further left. -/
def LeastAt (rank : σ → σ → Option κ) (l : List σ) (i : Nat) (k : κ) : Prop :=
  RankedAt rank l i k ∧
    ∀ j k', RankedAt rank l j k' → k < k' ∨ (k = k' ∧ i ≤ j)

theorem LeastAt.zero {a b : σ} (hrank : rank a b = some k)
    (hlater : ∀ j k', RankedAt rank (b :: l) j k' → k ≤ k') : LeastAt rank (a :: b :: l) 0 k := by
  refine ⟨rankedAt_zero.mpr hrank, fun j k' hj => ?_⟩
  cases j with
  | zero =>
      rw [rankedAt_zero, hrank] at hj
      exact Or.inr ⟨Option.some_inj.mp hj, le_refl _⟩
  | succ j =>
      rcases (hlater j k' (rankedAt_succ.mp hj)).lt_or_eq with hlt | heq
      · exact Or.inl hlt
      · exact Or.inr ⟨heq, Nat.zero_le _⟩

theorem LeastAt.succ {a b : σ} (h : LeastAt rank (b :: l) i k)
    (hfirst : ∀ k', rank a b = some k' → k < k') : LeastAt rank (a :: b :: l) (i + 1) k := by
  refine ⟨rankedAt_succ.mpr h.1, fun j k' hj => ?_⟩
  cases j with
  | zero => exact Or.inl (hfirst k' (rankedAt_zero.mp hj))
  | succ j =>
      rcases h.2 j k' (rankedAt_succ.mp hj) with hlt | ⟨heq, hle⟩
      · exact Or.inl hlt
      · exact Or.inr ⟨heq, Nat.succ_le_succ hle⟩

/-- Neighbours that are the least of a list are the least of a part that has them. -/
theorem LeastAt.within {u s w : List σ} (h : LeastAt rank (u ++ s ++ w) (u.length + i) k)
    (hs : RankedAt rank s i k) : LeastAt rank s i k := by
  refine ⟨hs, fun j k' hj => ?_⟩
  rcases h.2 _ k' hj.within with hlt | ⟨heq, hle⟩
  · exact Or.inl hlt
  · exact Or.inr ⟨heq, Nat.le_of_add_le_add_left hle⟩

theorem best_eq_some (h : best rank l = some (k, i)) : LeastAt rank l i k := by
  induction l generalizing k i with
  | nil => cases h
  | cons a l ih =>
      cases l with
      | nil => cases h
      | cons b rest =>
          rw [best] at h
          cases hlater : best rank (b :: rest) with
          | none =>
              have hnone := best_eq_none hlater
              cases hrank : rank a b with
              | none =>
                  rw [hrank, hlater] at h
                  cases h
              | some k' =>
                  rw [hrank, hlater] at h
                  cases h
                  exact .zero hrank fun j k' hj => absurd hj (hnone j k')
          | some r =>
              obtain ⟨k₁, i₁⟩ := r
              have hleast := ih hlater
              cases hrank : rank a b with
              | none =>
                  rw [hrank, hlater] at h
                  cases h
                  apply hleast.succ
                  intro k' hk'
                  rw [hrank] at hk'
                  cases hk'
              | some k' =>
                  rw [hrank, hlater] at h
                  dsimp only at h
                  split at h
                  · rename_i hlt
                    cases h
                    apply hleast.succ
                    intro k'' hk''
                    rw [hrank] at hk''
                    cases hk''
                    exact hlt
                  · rename_i hnot
                    cases h
                    refine .zero hrank fun j k'' hj => ?_
                    rcases hleast.2 j k'' hj with hlt | ⟨heq, -⟩
                    · exact (not_lt.mp hnot).trans hlt.le
                    · rw [← heq]
                      exact not_lt.mp hnot

/-- The choice of the plain procedure is the only least one. -/
theorem LeastAt.best (h : LeastAt rank l i k) : best rank l = some (k, i) := by
  cases hbest : PairMerge.best rank l with
  | none => exact absurd h.1 (best_eq_none hbest i k)
  | some r =>
      obtain ⟨k', i'⟩ := r
      have h' := best_eq_some hbest
      rcases h.2 i' k' h'.1 with hlt | ⟨rfl, hle⟩
      · rcases h'.2 i k h.1 with hlt' | ⟨rfl, -⟩
        · exact absurd hlt' hlt.asymm
        · exact absurd hlt (lt_irrefl _)
      · rcases h'.2 i k h.1 with hlt' | ⟨-, hle'⟩
        · exact absurd hlt' (lt_irrefl _)
        · rw [Nat.le_antisymm hle hle']

/-- The choice among what the symbols stand for. -/
theorem best_map {ρ : Type*} (f : ρ → σ) (l : List ρ) :
    PairMerge.best rank (l.map f) = PairMerge.best (fun a b => rank (f a) (f b)) l := by
  induction l with
  | nil => rfl
  | cons a l ih =>
      cases l with
      | nil => rfl
      | cons b l =>
          rw [List.map_cons, List.map_cons, PairMerge.best, PairMerge.best, ← List.map_cons, ih]

theorem naive_of_best_none (fuel : Nat) (h : best rank l = none) : naive rank join fuel l = l := by
  cases fuel with
  | zero => rfl
  | succ fuel => rw [naive, h]

/-- Merges of the least neighbours, until there are none with a rank. -/
inductive Merged (rank : σ → σ → Option κ) (join : σ → σ → κ → σ) : List σ → List σ → Prop where
  | done {l : List σ} : (∀ i k, ¬RankedAt rank l i k) → Merged rank join l l
  | merge {l l' : List σ} {i : Nat} {k : κ} : LeastAt rank l i k →
      Merged rank join (mergeAt join k i l) l' → Merged rank join l l'

/-- With a round for each symbol the plain procedure comes to its end. -/
theorem naive_merged {fuel : Nat} (hfuel : l.length ≤ fuel) :
    Merged rank join l (naive rank join fuel l) := by
  induction fuel generalizing l with
  | zero =>
      rw [List.length_eq_zero_iff.mp (Nat.le_zero.mp hfuel)]
      exact .done fun i k => not_rankedAt_short (by simp)
  | succ fuel ih =>
      rw [naive]
      cases hbest : best rank l with
      | none => exact .done (best_eq_none hbest)
      | some r =>
          obtain ⟨k, i⟩ := r
          have hleast := best_eq_some hbest
          have hlen := hleast.1.length_merge join
          exact .merge hleast (ih (by omega))

/-- What is left was there before, or is the join of two neighbours with a rank. -/
theorem Merged.mem {l l' : List σ} (h : Merged rank join l l') {x : σ} (hx : x ∈ l') :
    x ∈ l ∨ ∃ a b k, rank a b = some k ∧ x = join a b k := by
  induction h with
  | done _ => exact Or.inl hx
  | merge hleast _ ih =>
      obtain ⟨⟨a, b, ha, hb, hrank⟩, -⟩ := hleast
      obtain ⟨pre, post, rfl, rfl⟩ := exists_split ha hb
      rcases ih hx with hmem | hjoin
      · rw [mergeAt_split, List.mem_append, List.mem_cons] at hmem
        rcases hmem with hpre | rfl | hpost
        · exact Or.inl (List.mem_append_left _ hpre)
        · exact Or.inr ⟨a, b, _, hrank, rfl⟩
        · apply Or.inl
          exact List.mem_append_right _ (List.mem_cons_of_mem a (List.mem_cons_of_mem b hpost))
      · exact Or.inr hjoin

/-- What is left comes of a part of the list, whose own merges leave just that. -/
theorem Merged.segment {l l' : List σ} (h : Merged rank join l l') {x : σ} (hx : x ∈ l') :
    ∃ u s w, l = u ++ s ++ w ∧ Merged rank join s [x] := by
  induction h with
  | done _ =>
      obtain ⟨u, w, rfl⟩ := List.append_of_mem hx
      exact ⟨u, [x], w, (List.append_assoc u [x] w).symm,
        .done fun i k => not_rankedAt_short Nat.one_lt_two⟩
  | @merge l l' i k hleast _ ih =>
      obtain ⟨a, b, ha, hb, hrank⟩ := hleast.1
      obtain ⟨pre, post, rfl, rfl⟩ := exists_split ha hb
      obtain ⟨u, s, w, hsplit, hmerged⟩ := ih hx
      rw [mergeAt_split] at hsplit
      rcases append_eq_append_cons hsplit.symm with ⟨c, hus, rfl⟩ | ⟨c, rfl, rfl⟩
      · rcases append_eq_append_cons hus with ⟨c', rfl, rfl⟩ | ⟨c', rfl, rfl⟩
        · refine ⟨pre ++ a :: b :: c', s, w, ?_, hmerged⟩
          simp only [List.append_assoc, List.cons_append]
        · -- the pair is inside of the part
          refine ⟨u, c' ++ a :: b :: c, w, ?_, .merge (i := c'.length) (k := k) ?_ ?_⟩
          · simp only [List.append_assoc, List.cons_append]
          · have hranked : RankedAt rank (c' ++ a :: b :: c) c'.length k := by
              refine ⟨a, b, ?_, ?_, hrank⟩
              · rw [List.getElem?_append_right (Nat.le_refl _), Nat.sub_self]
                rfl
              · rw [List.getElem?_append_right (Nat.le_add_right _ 1), Nat.add_sub_cancel_left]
                rfl
            apply LeastAt.within (u := u) (w := w) _ hranked
            rw [List.length_append] at hleast
            simpa only [List.append_assoc, List.cons_append] using hleast
          · rwa [mergeAt_split]
      · exact ⟨u, s, c ++ a :: b :: post, List.append_assoc .., hmerged⟩

/-- Joining strings leaves what they are together. -/
theorem Merged.flatten {α : Type*} {rank : List α → List α → Option κ} {l l' : List (List α)}
    (h : Merged rank (fun a b _ => a ++ b) l l') : l'.flatten = l.flatten := by
  induction h with
  | done _ => rfl
  | merge hleast _ ih =>
      obtain ⟨⟨a, b, ha, hb, -⟩, -⟩ := hleast
      obtain ⟨pre, post, rfl, rfl⟩ := exists_split ha hb
      rw [ih, mergeAt_split]
      simp only [List.flatten_append, List.flatten_cons, List.append_assoc]

/-- Merges of strings that stand for other strings are merges of those. -/
theorem Merged.lift {α β : Type*} {rank : List α → List α → Option κ} {f : List β → List α}
    (hf : ∀ x y, f (x ++ y) = f x ++ f y) {l l' : List (List α)}
    (h : Merged rank (fun a b _ => a ++ b) l l') {ws : List (List β)} (hws : ws.map f = l) :
    ∃ ws' : List (List β), ws'.map f = l' ∧ ws'.flatten = ws.flatten := by
  induction h generalizing ws with
  | done _ => exact ⟨ws, hws, rfl⟩
  | merge hleast _ ih =>
      obtain ⟨⟨a, b, ha, hb, -⟩, -⟩ := hleast
      obtain ⟨pre, post, rfl, rfl⟩ := exists_split ha hb
      obtain ⟨wpre, wrest, rfl, hpre, hrest⟩ := List.map_eq_append_iff.mp hws
      obtain ⟨wa, wrest', rfl, rfl, hrest'⟩ := List.map_eq_cons_iff.mp hrest
      obtain ⟨wb, wpost, rfl, rfl, rfl⟩ := List.map_eq_cons_iff.mp hrest'
      rw [mergeAt_split] at ih
      obtain ⟨ws', hmap, hflat⟩ := @ih (wpre ++ (wa ++ wb) :: wpost) (by
        rw [List.map_append, List.map_cons, hpre, hf])
      refine ⟨ws', hmap, hflat.trans ?_⟩
      simp only [List.flatten_append, List.flatten_cons, List.append_assoc]

/-- The merges have one outcome only. -/
theorem Merged.unique {l₁ l₂ : List σ} (h₁ : Merged rank join l l₁)
    (h₂ : Merged rank join l l₂) : l₁ = l₂ := by
  induction h₁ with
  | done hnone =>
      cases h₂ with
      | done _ => rfl
      | merge hleast _ => exact absurd hleast.1 (hnone _ _)
  | merge hleast _ ih =>
      cases h₂ with
      | done hnone => exact absurd hleast.1 (hnone _ _)
      | merge hleast' hrest =>
          have hsame := hleast.best.symm.trans hleast'.best
          rw [Option.some_inj, Prod.mk.injEq] at hsame
          rw [← hsame.1, ← hsame.2] at hrest
          exact ih hrest

end Plain

end ShannonPrime.PairMerge
