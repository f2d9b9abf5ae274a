import Mathlib.Data.List.Sort
import Mathlib.Data.List.Induction
import Mathlib.Order.Bounds.Basic
import Mathlib.Order.WithBot
import Mathlib.Tactic.Push
import ShannonPrime.Lib.Traverse

/-!
The best entry of a list and the score of the runner-up. `TopTwo` says which
entry and which score these are, and determines both. Its rules for one more
entry at either end are what a scan from the left, or an insertion sort from the
right, needs.
-/

namespace ShannonPrime.Ranking

variable {α F : Type*}

/-- The scores that occur in a list. -/
def scores (score : α → F) (l : List α) : Set F := {y | ∃ x ∈ l, score x = y}

@[simp]
theorem scores_nil (score : α → F) : scores score [] = ∅ := by
  simp [scores]

@[simp]
theorem scores_cons (score : α → F) (x : α) (l : List α) :
    scores score (x :: l) = insert (score x) (scores score l) := by
  ext y
  simp [scores, eq_comm]

theorem scores_perm {score : α → F} {l l' : List α} (h : l.Perm l') :
    scores score l = scores score l' := by
  ext y
  simp [scores, h.mem_iff]

theorem scores_map {β : Type*} (score : β → F) (f : α → β) (l : List α) :
    scores score (l.map f) = scores (score ∘ f) l := by
  ext y
  simp only [scores, List.mem_map, exists_exists_and_eq_and, Function.comp_apply]

variable [LinearOrder F]

theorem exists_isLUB_scores [OrderBot F] (score : α → F) (l : List α) :
    ∃ s, IsLUB (scores score l) s := by
  induction l with
  | nil => exact ⟨⊥, by simp⟩
  | cons x l ih =>
      obtain ⟨s, hs⟩ := ih
      exact ⟨score x ⊔ s, by simpa using hs.insert (score x)⟩

/-- `e` is the first entry of greatest score, cut out between `before` and
`after`. -/
structure TopAt (score : α → F) (l before : List α) (e : α) (after : List α) : Prop where
  split : l = before ++ e :: after
  lower : ∀ x ∈ before, score x < score e
  bounded : ∀ x ∈ after, score x ≤ score e

namespace TopAt

variable {score : α → F} {l before after : List α} {e : α}

theorem unique {before' after' : List α} {e' : α}
    (h : TopAt score l before e after) (h' : TopAt score l before' e' after') :
    before = before' ∧ e = e' ∧ after = after' := by
  have hsplit := h.split.symm.trans h'.split
  obtain ⟨gap, hbefore, hrest⟩ | ⟨gap, hbefore, hrest⟩ := List.append_eq_append_iff.mp hsplit
  · cases gap with
    | nil => simp_all
    | cons x gap =>
        -- `e` comes before `e'` and is therefore smaller, yet `e'` comes after `e`
        obtain ⟨rfl, hafter⟩ := List.cons.inj hrest
        have hlt : score e < score e' := h'.lower e (by simp [hbefore])
        have hle : score e' ≤ score e := h.bounded e' (by simp [hafter])
        exact absurd hlt (not_lt.mpr hle)
  · cases gap with
    | nil => simp_all
    | cons x gap =>
        obtain ⟨rfl, hafter⟩ := List.cons.inj hrest
        have hlt : score e' < score e := h.lower e' (by simp [hbefore])
        have hle : score e ≤ score e' := h'.bounded e (by simp [hafter])
        exact absurd hlt (not_lt.mpr hle)

theorem isGreatest (h : TopAt score l before e after) :
    IsGreatest (scores score l) (score e) := by
  constructor
  · exact ⟨e, by simp [h.split], rfl⟩
  · rintro _ ⟨x, hx, rfl⟩
    rw [h.split, List.mem_append, List.mem_cons] at hx
    obtain hbefore | rfl | hafter := hx
    · exact (h.lower x hbefore).le
    · exact le_refl _
    · exact h.bounded x hafter

/-- Removing other entries does not change the best one. -/
theorem filter (h : TopAt score l before e after) {p : α → Bool} (hp : p e = true) :
    TopAt score (l.filter p) (before.filter p) e (after.filter p) := by
  constructor
  · rw [h.split, List.filter_append, List.filter_cons_of_pos hp]
  · intro x hx
    exact h.lower x (List.mem_of_mem_filter hx)
  · intro x hx
    exact h.bounded x (List.mem_of_mem_filter hx)

end TopAt

/-- `e` is the first entry of greatest score, and `s` the least upper bound of
the other scores. -/
def TopTwo (score : α → F) (l : List α) (e : α) (s : F) : Prop :=
  ∃ before after, TopAt score l before e after ∧ IsLUB (scores score (before ++ after)) s

namespace TopTwo

variable {score : α → F} {l : List α} {e x : α} {s : F}

theorem unique {e' : α} {s' : F} (h : TopTwo score l e s) (h' : TopTwo score l e' s') :
    e = e' ∧ s = s' := by
  obtain ⟨before, after, htop, hs⟩ := h
  obtain ⟨before', after', htop', hs'⟩ := h'
  obtain ⟨rfl, rfl, rfl⟩ := htop.unique htop'
  exact ⟨rfl, hs.unique hs'⟩

theorem mem (h : TopTwo score l e s) : e ∈ l := by
  obtain ⟨before, after, htop, _⟩ := h
  simp [htop.split]

theorem isGreatest (h : TopTwo score l e s) : IsGreatest (scores score l) (score e) := by
  obtain ⟨before, after, htop, _⟩ := h
  exact htop.isGreatest

/-- One more entry at the end that does not beat the best. -/
theorem snoc_keep (h : TopTwo score l e s) (hx : score x ≤ score e) :
    TopTwo score (l ++ [x]) e (score x ⊔ s) := by
  obtain ⟨before, after, htop, hs⟩ := h
  refine ⟨before, after ++ [x], ⟨by simp [htop.split], htop.lower, ?_⟩, ?_⟩
  · intro y hy
    rcases List.mem_append.mp hy with hafter | hlast
    · exact htop.bounded y hafter
    · rw [List.mem_singleton.mp hlast]
      exact hx
  · have hperm : (before ++ (after ++ [x])).Perm (x :: (before ++ after)) := by
      rw [← List.append_assoc]
      exact List.perm_append_singleton x (before ++ after)
    rw [scores_perm hperm, scores_cons]
    exact hs.insert (score x)

/-- One more entry at the end that beats the best, which becomes the runner-up. -/
theorem snoc_beat (h : TopTwo score l e s) (hx : score e < score x) :
    TopTwo score (l ++ [x]) x (score e) := by
  have hgreatest := h.isGreatest
  refine ⟨l, [], ⟨rfl, ?_, by simp⟩, ?_⟩
  · intro y hy
    exact (hgreatest.2 ⟨y, hy, rfl⟩).trans_lt hx
  · rw [List.append_nil]
    exact hgreatest.isLUB

/-- One more entry at the front that no other beats; the best becomes the
runner-up. -/
theorem cons_beat (h : TopTwo score l e s) (hx : score e ≤ score x) :
    TopTwo score (x :: l) x (score e) := by
  have hgreatest := h.isGreatest
  refine ⟨[], l, ⟨rfl, by simp, ?_⟩, hgreatest.isLUB⟩
  intro y hy
  exact (hgreatest.2 ⟨y, hy, rfl⟩).trans hx

/-- One more entry at the front that the best beats. -/
theorem cons_keep (h : TopTwo score l e s) (hx : score x < score e) :
    TopTwo score (x :: l) e (score x ⊔ s) := by
  obtain ⟨before, after, htop, hs⟩ := h
  refine ⟨x :: before, after, ⟨by simp [htop.split], ?_, htop.bounded⟩, ?_⟩
  · intro y hy
    rcases List.mem_cons.mp hy with rfl | hbefore
    · exact hx
    · exact htop.lower y hbefore
  · rw [List.cons_append, scores_cons]
    exact hs.insert (score x)

theorem map {β : Type*} {score : β → F} (f : α → β) (h : TopTwo (score ∘ f) l e s) :
    TopTwo score (l.map f) (f e) s := by
  obtain ⟨before, after, htop, hs⟩ := h
  refine ⟨before.map f, after.map f, ⟨by simp [htop.split], ?_, ?_⟩, ?_⟩
  · simpa using htop.lower
  · simpa using htop.bounded
  · rw [← List.map_append, scores_map]
    exact hs

theorem singleton [OrderBot F] (score : α → F) (x : α) : TopTwo score [x] x ⊥ :=
  ⟨[], [], ⟨rfl, by simp, by simp⟩, by simp⟩

/-- The runner-up does not depend on the order of the entries. -/
theorem score_of_perm {l' : List α} {s' : F} (h : TopTwo score l e s) (h' : TopTwo score l' e s')
    (hl : l.Perm l') : s = s' := by
  obtain ⟨before, after, htop, hs⟩ := h
  obtain ⟨before', after', htop', hs'⟩ := h'
  rw [htop.split, htop'.split] at hl
  have hothers : (e :: (before ++ after)).Perm (e :: (before' ++ after')) :=
    List.perm_middle.symm.trans (hl.trans List.perm_middle)
  rw [scores_perm hothers.cons_inv] at hs
  exact hs.unique hs'

/-- Removing other entries keeps the best one. -/
theorem filter [OrderBot F] (h : TopTwo score l e s) {p : α → Bool} (hp : p e = true) :
    ∃ s', TopTwo score (l.filter p) e s' := by
  obtain ⟨before, after, htop, _⟩ := h
  obtain ⟨s', hs'⟩ := exists_isLUB_scores score (before.filter p ++ after.filter p)
  exact ⟨s', _, _, htop.filter hp, hs'⟩

end TopTwo

/-- Sorting by descending score; entries of equal score keep their order. -/
def ranked (score : α → F) (l : List α) : List α :=
  l.insertionSort (fun a b => score b ≤ score a)

/-- The first two of the ranked list. -/
theorem ranked_topTwo [OrderBot F] (score : α → F) (l : List α) (hl : l ≠ []) :
    ∃ e rest, ranked score l = e :: rest ∧
      TopTwo score l e ((rest.head?.map score).getD ⊥) := by
  induction l with
  | nil => exact absurd rfl hl
  | cons x l ih =>
      cases l with
      | nil => exact ⟨x, [], rfl, TopTwo.singleton score x⟩
      | cons y l =>
          obtain ⟨e, rest, hrank, htop⟩ := ih (by simp)
          have hstep : ranked score (x :: y :: l) =
              (ranked score (y :: l)).orderedInsert (fun a b => score b ≤ score a) x := rfl
          rw [hstep, hrank, List.orderedInsert_cons]
          split
          case isTrue hx => exact ⟨x, e :: rest, rfl, htop.cons_beat hx⟩
          case isFalse hx =>
            refine ⟨e, _, rfl, ?_⟩
            have hkeep := htop.cons_keep (not_le.mp hx)
            cases rest with
            | nil => simpa using hkeep
            | cons z rest =>
                rw [List.orderedInsert_cons]
                split
                case isTrue hz => simpa [sup_eq_left.mpr hz] using hkeep
                case isFalse hz => simpa [sup_eq_right.mpr (not_le.mp hz).le] using hkeep

/-- A scan that keeps the best entry with its score, and the runner-up's score. -/
def scanStep (score : α → F) (state : Option (F × α) × F) (x : α) : Option (F × α) × F :=
  let c := score x
  match state.1 with
  | some (b, e) =>
      if c ≤ b then (some (b, e), if state.2 < c then c else state.2)
      else (some (c, x), b)
  | none => (some (c, x), state.2)

/-- One pass finds the best entry and the runner-up's score. -/
theorem scan_topTwo [OrderBot F] (score : α → F) (l : List α) (hl : l ≠ []) :
    ∃ e s, l.foldl (scanStep score) (none, ⊥) = (some (score e, e), s) ∧
      TopTwo score l e s := by
  induction l using List.reverseRecOn with
  | nil => exact absurd rfl hl
  | append_singleton l x ih =>
      rw [List.foldl_append, List.foldl_cons, List.foldl_nil]
      rcases l.eq_nil_or_concat with rfl | ⟨_, _, hne⟩
      · exact ⟨x, ⊥, rfl, TopTwo.singleton score x⟩
      · obtain ⟨e, s, hscan, htop⟩ := ih (by simp [hne])
        rw [hscan]
        rcases le_or_gt (score x) (score e) with hx | hx
        · refine ⟨e, score x ⊔ s, ?_, htop.snoc_keep hx⟩
          simp only [scanStep, hx, if_true]
          split
          case isTrue hs => rw [sup_eq_left.mpr hs.le]
          case isFalse hs => rw [sup_eq_right.mpr (not_lt.mp hs)]
        · refine ⟨x, score e, ?_, htop.snoc_beat hx⟩
          simp only [scanStep, not_le.mpr hx, if_false]

/-! ### A scan above a floor -/

/-- A scan that keeps the first best of the entries above what it has so far. -/
def bestStep (score : α → F) (state : WithBot F × Option α) (x : α) : WithBot F × Option α :=
  if state.1 < score x then (score x, some x) else state

def bestAbove (score : α → F) (floor : WithBot F) (l : List α) : Option α :=
  (l.foldl (bestStep score) (floor, none)).2

/-- What the scan holds: nothing while no entry is above the floor, else the first
entry of greatest score. -/
theorem bestAbove_scan (score : α → F) (floor : WithBot F) (l : List α) :
    (l.foldl (bestStep score) (floor, none) = (floor, none) ∧
        ∀ x ∈ l, (score x : WithBot F) ≤ floor) ∨
      ∃ before e after, TopAt score l before e after ∧ floor < score e ∧
        l.foldl (bestStep score) (floor, none) = ((score e : WithBot F), some e) := by
  induction l using List.reverseRecOn with
  | nil => exact .inl ⟨rfl, by simp⟩
  | append_singleton l x ih =>
      rw [List.foldl_append, List.foldl_cons, List.foldl_nil]
      obtain ⟨hscan, hlow⟩ | ⟨before, e, after, htop, hfloor, hscan⟩ := ih
      · rw [hscan]
        rcases lt_or_ge floor (score x : WithBot F) with hx | hx
        · refine .inr ⟨l, x, [], ⟨rfl, ?_, by simp⟩, hx, if_pos hx⟩
          intro y hy
          exact WithBot.coe_lt_coe.mp ((hlow y hy).trans_lt hx)
        · refine .inl ⟨if_neg (not_lt.mpr hx), ?_⟩
          intro y hy
          rcases List.mem_append.mp hy with hy | hy
          · exact hlow y hy
          · rw [List.mem_singleton.mp hy]
            exact hx
      · rw [hscan]
        have hmax := htop.isGreatest
        rcases lt_or_ge (score e) (score x) with hx | hx
        · refine .inr ⟨l, x, [], ⟨rfl, ?_, by simp⟩, hfloor.trans (WithBot.coe_lt_coe.mpr hx),
            if_pos (WithBot.coe_lt_coe.mpr hx)⟩
          intro y hy
          exact (hmax.2 ⟨y, hy, rfl⟩).trans_lt hx
        · refine .inr ⟨before, e, after ++ [x], ⟨by simp [htop.split], htop.lower, ?_⟩, hfloor,
            if_neg (not_lt.mpr (WithBot.coe_le_coe.mpr hx))⟩
          intro y hy
          rcases List.mem_append.mp hy with hy | hy
          · exact htop.bounded y hy
          · rw [List.mem_singleton.mp hy]
            exact hx

theorem bestAbove_eq_some_iff (score : α → F) (floor : WithBot F) (l : List α) (e : α) :
    bestAbove score floor l = some e ↔
      ∃ before after, TopAt score l before e after ∧ floor < score e := by
  obtain ⟨hscan, hlow⟩ | ⟨before, e', after, htop, hfloor, hscan⟩ := bestAbove_scan score floor l
  · simp only [bestAbove, hscan]
    constructor
    · intro h
      cases h
    · rintro ⟨before, after, htop, hfloor⟩
      have hle := hlow e (by simp [htop.split])
      exact absurd hfloor (not_lt.mpr hle)
  · simp only [bestAbove, hscan, Option.some.injEq]
    constructor
    · rintro rfl
      exact ⟨before, after, htop, hfloor⟩
    · rintro ⟨before', after', htop', _⟩
      exact (htop.unique htop').2.1

/-- Entries compete for being chosen: the first best of those above the floor wins, and
is then admitted or not. -/
structure Contest (α F : Type*) where
  pool : List α
  score : α → F
  floor : WithBot F
  admits : α → Bool

namespace Contest

variable (c : Contest α F)

def winner : Option α := (bestAbove c.score c.floor c.pool).filter c.admits

/-- Another entry is preferred to `e`, which stands between `before` and `after`. -/
def Outscored (before : List α) (e : α) (after : List α) : Prop :=
  (∃ x ∈ before, c.score e ≤ c.score x) ∨ ∃ x ∈ after, c.score e < c.score x

/-- Every admissible entry above the floor that lacks `p` is outscored. -/
def Spares (p : α → Prop) : Prop :=
  ∀ before e after, c.pool = before ++ e :: after → ¬ p e → c.floor < c.score e →
    c.admits e = true → c.Outscored before e after

theorem topAt_iff {before after : List α} {e : α} (hpool : c.pool = before ++ e :: after) :
    TopAt c.score c.pool before e after ↔ ¬ c.Outscored before e after := by
  unfold Outscored
  push Not
  constructor
  · intro htop
    exact ⟨htop.lower, htop.bounded⟩
  · rintro ⟨hlower, hbounded⟩
    exact ⟨hpool, hlower, hbounded⟩

/-- The winner has `p` exactly when the contest spares `p`. -/
theorem winner_iff (p : α → Prop) : (∀ e, c.winner = some e → p e) ↔ c.Spares p := by
  simp only [winner, Option.filter_eq_some_iff, bestAbove_eq_some_iff]
  constructor
  · intro h before e after hpool hp hfloor hadmits
    by_contra hout
    exact hp (h e ⟨⟨before, after, (c.topAt_iff hpool).mpr hout, hfloor⟩, hadmits⟩)
  · rintro h e ⟨⟨before, after, htop, hfloor⟩, hadmits⟩
    by_contra hp
    exact (c.topAt_iff htop.split).mp htop (h before e after htop.split hp hfloor hadmits)

end Contest

/-! ### Places in the ranking -/

/-- How many entries go before `e`, which stands between `before` and `after`. -/
def preferred (score : α → F) (before : List α) (e : α) (after : List α) : Nat :=
  before.countP (fun x => score e ≤ score x) + after.countP (fun x => score e < score x)

/-- Inserting shifts what the inserted entry beats by one place. -/
theorem orderedInsert_getElem? (score : α → F) (x e : α) (s : List α)
    (hs : s.Pairwise fun a b => score b ≤ score a) (k : Nat) :
    (s.orderedInsert (fun a b => score b ≤ score a) x)[k]? = some e ↔
      (e = x ∧ k = s.countP fun y => score x < score y) ∨
        ∃ j, s[j]? = some e ∧ k = j + if score e ≤ score x then 1 else 0 := by
  induction s generalizing k with
  | nil =>
      cases k with
      | zero => simp [eq_comm]
      | succ k => simp
  | cons y s ih =>
      obtain ⟨hy, hs⟩ := List.pairwise_cons.mp hs
      rw [List.orderedInsert_cons]
      split
      case isTrue hxy =>
        have hle : ∀ z ∈ y :: s, score z ≤ score x := by
          intro z hz
          rcases List.mem_cons.mp hz with rfl | hz
          · exact hxy
          · exact (hy z hz).trans hxy
        have hcount : ((y :: s).countP fun z => decide (score x < score z)) = 0 := by
          rw [List.countP_eq_zero]
          intro z hz
          simpa using hle z hz
        rw [hcount]
        cases k with
        | zero =>
            constructor
            · intro hk
              exact .inl ⟨(Option.some.inj hk).symm, rfl⟩
            · rintro (⟨rfl, _⟩ | ⟨j, hj, hk⟩)
              · rfl
              · rw [if_pos (hle e (List.mem_of_getElem? hj))] at hk
                omega
        | succ k =>
            rw [List.getElem?_cons_succ]
            constructor
            · intro hk
              exact .inr ⟨k, hk, by rw [if_pos (hle e (List.mem_of_getElem? hk))]⟩
            · rintro (⟨_, hk⟩ | ⟨j, hj, hk⟩)
              · cases hk
              · rw [if_pos (hle e (List.mem_of_getElem? hj)), Nat.succ.injEq] at hk
                rw [hk]
                exact hj
      case isFalse hxy =>
        have hlt := not_le.mp hxy
        rw [List.countP_cons_of_pos (by simpa using hlt)]
        cases k with
        | zero =>
            constructor
            · intro hk
              obtain rfl := Option.some.inj hk
              exact .inr ⟨0, rfl, by rw [if_neg hxy]⟩
            · rintro (⟨_, hk⟩ | ⟨j, hj, hk⟩)
              · cases hk
              · have hj0 : j = 0 := by omega
                rw [hj0] at hj
                exact hj
        | succ k =>
            rw [List.getElem?_cons_succ, ih hs k]
            constructor
            · rintro (⟨rfl, hk⟩ | ⟨j, hj, hk⟩)
              · exact .inl ⟨rfl, by rw [hk]⟩
              · exact .inr ⟨j + 1, hj, by omega⟩
            · rintro (⟨rfl, hk⟩ | ⟨j, hj, hk⟩)
              · exact .inl ⟨rfl, by omega⟩
              · cases j with
                | zero =>
                    obtain rfl := Option.some.inj hj
                    rw [if_neg hxy] at hk
                    cases hk
                | succ j => exact .inr ⟨j, hj, by omega⟩

theorem ranked_map {β : Type*} (score : β → F) (f : α → β) (l : List α) :
    ranked score (l.map f) = (ranked (score ∘ f) l).map f := by
  unfold ranked
  symm
  apply List.map_insertionSort
  intro a _ b _
  rfl

theorem ranked_perm (score : α → F) (l : List α) : (ranked score l).Perm l :=
  List.perm_insertionSort _ l

theorem ranked_pairwise (score : α → F) (l : List α) :
    (ranked score l).Pairwise fun a b => score b ≤ score a := by
  have : IsTrans α fun a b => score b ≤ score a := ⟨fun _ _ _ hab hbc => hbc.trans hab⟩
  have : Std.Total fun a b : α => score b ≤ score a := ⟨fun a b => le_total (score b) (score a)⟩
  exact List.pairwise_insertionSort _ l

/-- The place an entry takes is the number of those preferred to it. -/
theorem ranked_getElem? (score : α → F) (l : List α) (k : Nat) (e : α) :
    (ranked score l)[k]? = some e ↔
      ∃ before after, l = before ++ e :: after ∧ k = preferred score before e after := by
  induction l generalizing k with
  | nil => simp [ranked]
  | cons x l ih =>
      have hstep : ranked score (x :: l) =
          (ranked score l).orderedInsert (fun a b => score b ≤ score a) x := rfl
      rw [hstep, orderedInsert_getElem? score x e _ (ranked_pairwise score l),
        (ranked_perm score l).countP_eq]
      simp only [ih]
      constructor
      · rintro (⟨rfl, hk⟩ | ⟨j, ⟨before, after, rfl, hj⟩, hk⟩)
        · exact ⟨[], l, rfl, by simp [preferred, hk]⟩
        · refine ⟨x :: before, after, rfl, ?_⟩
          rw [hk, hj, preferred, preferred, List.countP_cons]
          simp only [decide_eq_true_eq]
          omega
      · rintro ⟨before, after, hl, hk⟩
        cases before with
        | nil =>
            obtain ⟨rfl, rfl⟩ := List.cons.inj hl
            exact .inl ⟨rfl, by simpa [preferred] using hk⟩
        | cons y before =>
            obtain ⟨rfl, rfl⟩ := List.cons.inj hl
            refine .inr ⟨_, ⟨before, after, rfl, rfl⟩, ?_⟩
            rw [hk, preferred, preferred, List.countP_cons]
            simp only [decide_eq_true_eq]
            omega

/-- The first `n` of the ranking are as good as the rest. -/
theorem ranked_take_drop (score : α → F) (l : List α) (n : Nat) :
    ∀ x ∈ (ranked score l).take n, ∀ y ∈ (ranked score l).drop n, score y ≤ score x := by
  have hsorted := ranked_pairwise score l
  rw [← List.take_append_drop n (ranked score l), List.pairwise_append] at hsorted
  exact hsorted.2.2

/-- Ranking the places by the score found there ranks the entries. -/
theorem ranked_places (score : α → F) (l : List α) (n : Nat) :
    ((ranked Prod.snd (l.zipIdx.map fun p => (p.2, score p.1))).take n).mapM (fun p => l[p.1]?) =
      some ((ranked score l).take n) := by
  have hentries :
      (ranked (fun p : α × Nat => score p.1) l.zipIdx).map Prod.fst = ranked score l := by
    have hmap := ranked_map score Prod.fst l.zipIdx
    rw [List.zipIdx_map_fst] at hmap
    exact hmap.symm
  rw [ranked_map, ← List.map_take, List.mapM_map, ← hentries, ← List.map_take]
  apply Traverse.mapM_eq_some
  rintro ⟨x, i⟩ hp
  have hmem := (ranked_perm _ _).mem_iff.mp (List.mem_of_mem_take hp)
  exact List.mem_zipIdx_iff_getElem?.mp hmem

theorem filter_orderedInsert (score : α → F) (p : α → Bool) (x : α) (s : List α)
    (hs : s.Pairwise fun a b => score b ≤ score a) :
    (s.orderedInsert (fun a b => score b ≤ score a) x).filter p =
      if p x then (s.filter p).orderedInsert (fun a b => score b ≤ score a) x
      else s.filter p := by
  induction s with
  | nil => cases hp : p x <;> simp [hp]
  | cons y s ih =>
      obtain ⟨hy, hs⟩ := List.pairwise_cons.mp hs
      rw [List.orderedInsert_cons]
      split
      case isTrue hxy =>
        rw [List.filter_cons]
        split
        case isFalse => rfl
        case isTrue =>
          -- the head of the filtered list, if any, is one of the entries `x` goes before
          cases hrest : (y :: s).filter p with
          | nil => rfl
          | cons z rest =>
              have hz : z ∈ y :: s := by
                apply List.mem_of_mem_filter (p := p)
                rw [hrest]
                exact List.mem_cons_self
              have hzx : score z ≤ score x := by
                rcases List.mem_cons.mp hz with rfl | hz
                · exact hxy
                · exact (hy z hz).trans hxy
              rw [List.orderedInsert_cons, if_pos hzx]
      case isFalse hxy =>
        rw [List.filter_cons, ih hs, List.filter_cons]
        cases p y with
        | false => rfl
        | true =>
            cases p x with
            | false => rfl
            | true => simp [hxy]

theorem ranked_filter (score : α → F) (p : α → Bool) (l : List α) :
    (ranked score l).filter p = ranked score (l.filter p) := by
  induction l with
  | nil => rfl
  | cons x l ih =>
      have hstep : ranked score (x :: l) =
          (ranked score l).orderedInsert (fun a b => score b ≤ score a) x := rfl
      rw [hstep, filter_orderedInsert score p x _ (ranked_pairwise score l), ih, List.filter_cons]
      split
      case isTrue => rfl
      case isFalse => rfl

theorem ranked_head? (score : α → F) (l : List α) :
    (ranked score l).head? = bestAbove score ⊥ l := by
  rcases eq_or_ne l [] with rfl | hl
  · rfl
  · rw [List.head?_eq_getElem?]
    obtain ⟨hscan, hlow⟩ | ⟨before, e, after, htop, hfloor, hscan⟩ := bestAbove_scan score ⊥ l
    · obtain ⟨x, hx⟩ := List.exists_mem_of_ne_nil l hl
      exact absurd (hlow x hx) (by simp)
    · rw [bestAbove, hscan]
      apply (ranked_getElem? score l 0 e).mpr
      refine ⟨before, after, htop.split, ?_⟩
      symm
      rw [preferred, Nat.add_eq_zero_iff, List.countP_eq_zero, List.countP_eq_zero]
      constructor
      · intro x hx
        simpa using htop.lower x hx
      · intro x hx
        simpa using htop.bounded x hx

/-- The first of the ranking with a property is the best of those that have it. -/
theorem ranked_find? (score : α → F) (p : α → Bool) (l : List α) :
    (ranked score l).find? p = bestAbove score ⊥ (l.filter p) := by
  rw [← List.head?_filter, ranked_filter, ranked_head?]

/-- The first `n` of the ranking are the entries with fewer than `n` preferred ones. -/
theorem mem_take_ranked_iff (score : α → F) (l : List α) (n : Nat) (e : α) :
    e ∈ (ranked score l).take n ↔
      ∃ before after, l = before ++ e :: after ∧ preferred score before e after < n := by
  rw [List.mem_iff_getElem?]
  simp only [List.getElem?_take]
  constructor
  · rintro ⟨k, hk⟩
    split at hk
    case isTrue hlt =>
      obtain ⟨before, after, hl, rfl⟩ := (ranked_getElem? score l k e).mp hk
      exact ⟨before, after, hl, hlt⟩
    case isFalse => cases hk
  · rintro ⟨before, after, hl, hlt⟩
    refine ⟨preferred score before e after, ?_⟩
    rw [if_pos hlt]
    exact (ranked_getElem? score l _ e).mpr ⟨before, after, hl, rfl⟩

end ShannonPrime.Ranking
