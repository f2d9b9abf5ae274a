import Mathlib.Data.List.Nodup
import Mathlib.Data.List.Perm.Subperm
import Mathlib.Data.List.ProdSigma
import ShannonPrime.Recall.Lifecycle

/-!
How the judge's working set is put together, with the list each member comes from. The
last live episodes are always in it; the rest of the pool is cold, and joins it whole where
there is room, else by its score. The set is then shuffled, and tags are drawn for it from
a shuffled pool. No step compares members, so an episode kept in both lists is shown twice.
-/

namespace ShannonPrime.Recall

open Ranking

variable {F : Type} [LinearOrder F] [OrderBot F]
variable (A : Arith F)

namespace Stage

variable (t : Stage F)

/-! ### The candidates -/

section

omit [LinearOrder F] [OrderBot F]

/-- The registry and the nightshift episodes; the mark tells which are live. -/
def marked (t : Stage F) : List (Stored F × Bool) :=
  t.registry.map (·, false) ++ t.nightshift.map (·, true)

/-- The conversation's tail: the last live episodes. -/
def liveTail (t : Stage F) : List (Stored F × Bool) :=
  (t.nightshift.drop (t.nightshift.length - t.rkeep)).map (·, true)

def coldPool (t : Stage F) : List (Stored F × Bool) :=
  t.registry.map (·, false) ++
    (t.nightshift.take (t.nightshift.length - t.rkeep)).map (·, true)

/-- The places in the cold pool are sorted by score, and the first looked up. -/
def rescue {S : Type} [LinearOrder S] (t : Stage F) (score : Stored F → S) :
    Option (List (Stored F × Bool)) :=
  let scored := ranked Prod.snd (t.coldPool.zipIdx.map fun p => (p.2, score p.1.1))
  (scored.take t.salienceSlots).mapM fun p => t.coldPool[p.1]?

end

/-- The working set before the shuffle. -/
def cands : Option (List (Stored F × Bool)) :=
  if t.coldPool.length ≤ t.salienceSlots then some (t.liveTail ++ t.coldPool)
  else if 0 < t.salienceSlots then
    if t.judgeL5 && !t.query.vec.isEmpty then (t.rescue (t.coldScore A)).map (t.liveTail ++ ·)
    else
      match t.judgeWc, t.querySig with
      | some wc, _ => (t.rescue wc).map (t.liveTail ++ ·)
      | none, some sig => (t.rescue fun ep => agree sig ep.sig).map (t.liveTail ++ ·)
      -- the prompt's keys could not be read: only the live tail is shown
      | none, none => some t.liveTail
  else some t.liveTail

/-- No signal scores the cold pool. -/
def scoreless (t : Stage F) : Bool :=
  !(t.judgeL5 && !t.query.vec.isEmpty) && t.judgeWc.isNone && t.querySig.isNone

/-- By the signal in use, `y` is no better than `x`. -/
def NoBetter (y x : Stored F) : Prop :=
  if t.judgeL5 && !t.query.vec.isEmpty then t.coldScore A y ≤ t.coldScore A x
  else
    match t.judgeWc, t.querySig with
    | some wc, _ => wc y ≤ wc x
    | none, some sig => agree sig y.sig ≤ agree sig x.sig
    | none, none => True

end Stage

/-! ### The tags -/

/-- `CONS` -/
def consonants : List Char := "BCDFGHJKLMNPQRSTVWXZ".toList

/-- `DIG` -/
def digits : List Char := "0123456789".toList

/-- The tags there are: a consonant, a digit and a consonant. -/
def tagCodes : List (List Char) :=
  consonants.flatMap fun a => digits.flatMap fun d => consonants.map fun c => [a, d, c]

/-- The pool in the order it is drawn in. The shuffle of `n` members comes first and draws
`n - 1` numbers. -/
def tagPool (query : List Char) (n : Nat) : List (List Char) :=
  shuffleFrom (tagCodes.length - 1) (xorshift^[n - 1] (querySeed query)) tagCodes

/-- The tags of `n` members, `pool[slot % pool.len()]` for each slot. -/
def drawn {α : Type} (pool : List α) (n : Nat) : Option (List α) :=
  (List.range n).mapM fun slot => pool[slot % pool.length]?

def tags (query : List Char) (n : Nat) : Option (List (List Char)) := drawn (tagPool query n) n

/-- The working set as the judge reads it, and the tags of its members. -/
def Stage.shown (t : Stage F) (query : List Char) :
    Option (List (Stored F × Bool) × List (List Char)) :=
  (t.cands A).bind fun cands =>
    (tags query cands.length).map fun tags => (shuffle query cands, tags)

theorem swapAt_map {α β : Type} (f : α → β) (l : List α) (i j : Nat) :
    swapAt (l.map f) i j = (swapAt l i j).map f := by
  unfold swapAt
  rw [List.getElem?_map, List.getElem?_map]
  cases l[i]? with
  | none => rfl
  | some a =>
      cases l[j]? with
      | none => rfl
      | some b => simp only [Option.map_some, List.map_set]

theorem shuffleFrom_map {α β : Type} (f : α → β) (i : Nat) (seed : UInt64) (l : List α) :
    shuffleFrom i seed (l.map f) = (shuffleFrom i seed l).map f := by
  induction i generalizing seed l with
  | zero => rfl
  | succ i ih =>
      rw [shuffleFrom, shuffleFrom, swapAt_map]
      exact ih _ _

theorem shuffle_map {α β : Type} (f : α → β) (query : List Char) (l : List α) :
    shuffle query (l.map f) = (shuffle query l).map f := by
  rw [shuffle, List.length_map, shuffleFrom_map]
  rfl

theorem tagCodes_eq_map :
    tagCodes = (consonants ×ˢ digits ×ˢ consonants).map fun p => [p.1, p.2.1, p.2.2] := by
  simp only [tagCodes, SProd.sprod, List.product, List.map_flatMap, List.map_map]
  rfl

theorem tagCodes_length : tagCodes.length = 4000 := by
  rw [tagCodes_eq_map, List.length_map, List.length_product, List.length_product]
  rfl

theorem tagCodes_nodup : tagCodes.Nodup := by
  rw [tagCodes_eq_map]
  apply List.Nodup.map
  · rintro ⟨a, d, c⟩ ⟨a', d', c'⟩ h
    simpa using h
  · have hconsonants : consonants.Nodup := by decide
    have hdigits : digits.Nodup := by decide
    exact hconsonants.product (hdigits.product hconsonants)

theorem tagPool_perm (query : List Char) (n : Nat) : (tagPool query n).Perm tagCodes :=
  shuffleFrom_perm _ _ _

/-- What is drawn from a pool without repetitions has none until the pool is used up. -/
theorem drawn_spec {α : Type} {pool : List α} (hpool : pool.Nodup) (hne : 0 < pool.length)
    (n : Nat) : ∃ ts, drawn pool n = some ts ∧ ts.length = n ∧ (∀ t ∈ ts, t ∈ pool) ∧
      (n ≤ pool.length → ts.Nodup) := by
  have hslot : ∀ slot, slot % pool.length < pool.length := fun slot => Nat.mod_lt slot hne
  refine ⟨(List.range n).map fun slot => pool.get ⟨slot % pool.length, hslot slot⟩, ?_, ?_, ?_, ?_⟩
  · apply Traverse.mapM_eq_some
    intro slot _
    exact List.getElem?_eq_getElem (hslot slot)
  · rw [List.length_map, List.length_range]
  · intro tag htag
    obtain ⟨slot, _, rfl⟩ := List.mem_map.mp htag
    exact List.get_mem pool _
  · intro hn
    apply List.Nodup.map_on _ List.nodup_range
    intro i hi j hj hij
    have hplace : i % pool.length = j % pool.length := congrArg Fin.val (hpool.get_inj_iff.mp hij)
    rw [List.mem_range] at hi hj
    rwa [Nat.mod_eq_of_lt (by omega), Nat.mod_eq_of_lt (by omega)] at hplace

theorem tags_spec (query : List Char) (n : Nat) :
    ∃ ts, tags query n = some ts ∧ ts.length = n ∧ (∀ t ∈ ts, t ∈ tagCodes) ∧
      (n ≤ 4000 → ts.Nodup) := by
  have hperm := tagPool_perm query n
  have hlength : (tagPool query n).length = 4000 := hperm.length_eq.trans tagCodes_length
  obtain ⟨ts, hts, hn, hmem, hnodup⟩ :=
    drawn_spec (hperm.nodup_iff.mpr tagCodes_nodup) (by omega) n
  rw [hlength] at hnodup
  exact ⟨ts, hts, hn, fun tag htag => hperm.mem_iff.mp (hmem tag htag), hnodup⟩

namespace Stage

variable (t : Stage F)

/-! ### The count -/

section

omit [LinearOrder F] [OrderBot F]

theorem rkeep_le_live : t.rkeep ≤ t.nightshift.length :=
  (Nat.min_le_right _ _).trans (Nat.min_le_right _ _)

theorem liveTail_length : t.liveTail.length = t.rkeep := by
  have hlive := t.rkeep_le_live
  rw [liveTail, List.length_map, List.length_drop]
  omega

theorem coldPool_length :
    t.coldPool.length = t.registry.length + (t.nightshift.length - t.rkeep) := by
  rw [coldPool, List.length_append, List.length_map, List.length_map, List.length_take]
  omega

theorem salienceSlots_eq : t.salienceSlots = t.judgeK - t.rkeep := by
  have hlive := t.rkeep_le_live
  rw [salienceSlots, recent, List.length_drop]
  omega

theorem liveTail_coldPool_perm : (t.liveTail ++ t.coldPool).Perm t.marked := by
  have hnight : (t.nightshift.map (·, true) : List (Stored F × Bool)) =
      (t.nightshift.take (t.nightshift.length - t.rkeep)).map (·, true) ++ t.liveTail := by
    rw [liveTail, ← List.map_append, List.take_append_drop]
  rw [marked, coldPool, hnight, ← List.append_assoc (t.registry.map (·, false))]
  exact List.perm_append_comm

theorem marked_map_fst : t.marked.map Prod.fst = t.pool := by
  rw [marked, List.map_append, List.map_map, List.map_map]
  simp only [Function.comp_def, List.map_id']
  rfl

theorem rescue_eq {S : Type} [LinearOrder S] (score : Stored F → S) :
    t.rescue score =
      some ((ranked (fun c : Stored F × Bool => score c.1) t.coldPool).take t.salienceSlots) :=
  ranked_places (fun c : Stored F × Bool => score c.1) t.coldPool t.salienceSlots

end

/-! ### The assembly -/

/-- `chosen` of the cold pool joins the last live episodes, and `left` stays out. -/
structure Assembled (cands chosen left : List (Stored F × Bool)) : Prop where
  tail : cands = (t.nightshift.drop
    (t.nightshift.length - min t.judgeR (min t.judgeK t.nightshift.length))).map (·, true) ++ chosen
  pool : (cands ++ left).Perm t.marked
  best : ∀ x ∈ chosen, ∀ y ∈ left, t.NoBetter A y.1 x.1
  count : cands.length =
    if t.scoreless = true ∧ t.judgeK < t.registry.length + t.nightshift.length then
      min t.judgeR (min t.judgeK t.nightshift.length)
    else min t.judgeK (t.registry.length + t.nightshift.length)
  distinct : t.pool.Nodup → (cands.map Prod.fst).Nodup

/-- A tail of `r` of the `n` live episodes, and what joins it of the `g` others and the older
ones. -/
theorem count_of_room {r n g k : Nat} (hlive : r ≤ n) (hroom : r ≤ k) (scoreless : Bool) :
    (r + if g + (n - r) ≤ k - r then g + (n - r) else if scoreless = true then 0 else k - r) =
      if scoreless = true ∧ k < g + n then r else min k (g + n) := by
  cases scoreless with
  | false =>
      simp only [Bool.false_eq_true, false_and, if_false]
      split_ifs <;> omega
  | true =>
      simp only [true_and, if_true]
      split_ifs <;> omega

/-- A split of the cold pool that is as large as there is room for assembles the set. -/
theorem assembled_of_split {chosen left : List (Stored F × Bool)}
    (hpool : (chosen ++ left).Perm t.coldPool)
    (hbest : ∀ x ∈ chosen, ∀ y ∈ left, t.NoBetter A y.1 x.1)
    (hcount : chosen.length =
      if t.coldPool.length ≤ t.salienceSlots then t.coldPool.length
      else if t.scoreless = true then 0 else t.salienceSlots) :
    t.Assembled A (t.liveTail ++ chosen) chosen left := by
  have hperm : (t.liveTail ++ chosen ++ left).Perm t.marked := by
    rw [List.append_assoc]
    exact (hpool.append_left t.liveTail).trans t.liveTail_coldPool_perm
  refine ⟨rfl, hperm, hbest, ?_, fun hnodup => ?_⟩
  · have hlive := t.rkeep_le_live
    have hroom : t.rkeep ≤ t.judgeK := (Nat.min_le_right _ _).trans (Nat.min_le_left _ _)
    change _ = if _ then t.rkeep else _
    rw [List.length_append, t.liveTail_length, hcount, t.coldPool_length, t.salienceSlots_eq]
    exact count_of_room hlive hroom t.scoreless
  · have hshown : ((t.liveTail ++ chosen ++ left).map Prod.fst).Nodup := by
      rw [(hperm.map Prod.fst).nodup_iff, t.marked_map_fst]
      exact hnodup
    rw [List.map_append] at hshown
    exact hshown.of_append_left

/-- The first of a ranked cold pool are a split of it. -/
theorem assembled_take {S : Type} [LinearOrder S] (score : Stored F → S)
    (hscore : ∀ x y, score y ≤ score x → t.NoBetter A y x) (hscored : t.scoreless = false)
    (hcold : ¬ t.coldPool.length ≤ t.salienceSlots) :
    ∃ chosen left, (t.rescue score).map (t.liveTail ++ ·) = some (t.liveTail ++ chosen) ∧
      t.Assembled A (t.liveTail ++ chosen) chosen left := by
  have hranked := ranked_perm (fun c : Stored F × Bool => score c.1) t.coldPool
  refine ⟨_, (ranked (fun c : Stored F × Bool => score c.1) t.coldPool).drop t.salienceSlots,
    by rw [t.rescue_eq]; rfl, t.assembled_of_split A ?_ ?_ ?_⟩
  · rw [List.take_append_drop]
    exact hranked
  · intro x hx y hy
    exact hscore x.1 y.1 (ranked_take_drop _ _ _ x hx y hy)
  · rw [if_neg hcold, if_neg (by simp [hscored]), List.length_take, hranked.length_eq]
    omega

theorem cands_assembled :
    ∃ cands chosen left, t.cands A = some cands ∧ t.Assembled A cands chosen left := by
  by_cases hcold : t.coldPool.length ≤ t.salienceSlots
  · -- there is room for the whole cold pool
    refine ⟨_, t.coldPool, [], if_pos hcold, t.assembled_of_split A ?_ ?_ ?_⟩
    · rw [List.append_nil]
    · intro x _ y hy
      exact absurd hy List.not_mem_nil
    · rw [if_pos hcold]
  · have hbare : (t.scoreless = true ∨ t.salienceSlots = 0) →
        t.Assembled A (t.liveTail ++ []) [] t.coldPool := by
      intro h
      have hpool : ([] ++ t.coldPool).Perm t.coldPool := List.Perm.refl _
      refine t.assembled_of_split A hpool ?_ ?_
      · intro x hx
        exact absurd hx List.not_mem_nil
      · rw [if_neg hcold]
        rcases h with h | h
        · rw [if_pos h]
          rfl
        · rw [h, ite_self]
          rfl
    unfold cands
    rw [if_neg hcold]
    split
    case isFalse hslots =>
      have h := hbare (.inr (Nat.eq_zero_of_not_pos hslots))
      rw [List.append_nil] at h
      exact ⟨_, _, _, rfl, h⟩
    case isTrue =>
      split
      case isTrue hl5 =>
        obtain ⟨chosen, left, heq, h⟩ := t.assembled_take A (t.coldScore A)
          (fun x y hxy => by rw [NoBetter, if_pos hl5]; exact hxy)
          (by rw [scoreless, hl5]; rfl) hcold
        exact ⟨_, chosen, left, heq, h⟩
      case isFalse hl5 =>
        split
        case h_1 wc hwc =>
          obtain ⟨chosen, left, heq, h⟩ := t.assembled_take A wc
            (fun x y hxy => by rw [NoBetter, if_neg hl5, hwc]; exact hxy)
            (by rw [scoreless, hwc]; simp) hcold
          exact ⟨_, chosen, left, heq, h⟩
        case h_2 sig hwc hsig =>
          obtain ⟨chosen, left, heq, h⟩ := t.assembled_take A (fun ep => agree sig ep.sig)
            (fun x y hxy => by rw [NoBetter, if_neg hl5, hwc, hsig]; exact hxy)
            (by rw [scoreless, hsig]; simp) hcold
          exact ⟨_, chosen, left, heq, h⟩
        case h_3 hwc hsig =>
          have hscoreless : t.scoreless = true := by
            rw [scoreless, hwc, hsig, Bool.eq_false_iff.mpr hl5]
            rfl
          have h := hbare (.inl hscoreless)
          rw [List.append_nil] at h
          exact ⟨_, _, _, rfl, h⟩

/-- Without the marks this is the working set. -/
theorem cands_episodes : (t.cands A).map (·.map Prod.fst) = some (t.workingSet A) := by
  have htail : t.liveTail.map Prod.fst = t.recent := by
    rw [liveTail, List.map_map]
    exact List.map_id _
  have hpool : t.coldPool.map Prod.fst = t.cold := by
    rw [coldPool, List.map_append, List.map_map, List.map_map]
    exact congrArg₂ (· ++ ·) (List.map_id _) (List.map_id _)
  have hlength : t.coldPool.length = t.cold.length := by
    rw [← hpool, List.length_map]
  have hrescue : ∀ {S : Type} [LinearOrder S] (score : Stored F → S),
      ((t.rescue score).map (t.liveTail ++ ·)).map (·.map Prod.fst) =
        some (t.recent ++ (ranked score t.cold).take t.salienceSlots) := by
    intro S _ score
    rw [t.rescue_eq, Option.map_some, Option.map_some, List.map_append, htail, List.map_take,
      ← hpool, ranked_map]
    rfl
  unfold cands workingSet
  rw [hlength]
  split
  case isTrue => rw [Option.map_some, List.map_append, htail, hpool]
  case isFalse =>
    split
    case isFalse => rw [Option.map_some, htail, List.append_nil]
    case isTrue =>
      unfold shortlist
      split
      case isTrue => exact hrescue _
      case isFalse =>
        cases t.judgeWc with
        | some wc => exact hrescue wc
        | none =>
            cases t.querySig with
            | some sig => exact hrescue fun ep => agree sig ep.sig
            | none => rw [Option.map_some, htail, List.append_nil]

/-! ### What the judge reads -/

/-- The set in another order, with a tag for each member. -/
structure Labelled (cands shown : List (Stored F × Bool)) (tags : List (List Char)) : Prop where
  members : shown.Perm cands
  count : tags.length = shown.length
  distinct : shown.length ≤ 4000 → tags.Nodup

/-- The judge names a slot of what it reads. -/
theorem shown_episodes (query : List Char) :
    (t.shown A query).map (·.1.map Prod.fst) = some (shuffle query (t.workingSet A)) := by
  obtain ⟨cands, hcands, hset⟩ := Option.map_eq_some_iff.mp (t.cands_episodes A)
  obtain ⟨ts, hts, _⟩ := tags_spec query cands.length
  rw [shown, hcands, Option.bind_some, hts, Option.map_some, Option.map_some, ← hset, shuffle_map]

/-- The working set is as large as it can be and made of different entries of the lists;
the last live ones are among them, and the others are the best of the rest. -/
theorem judge_shown (query : List Char) :
    ∃ cands chosen left shown tags, t.cands A = some cands ∧ t.Assembled A cands chosen left ∧
      t.shown A query = some (shown, tags) ∧ Labelled cands shown tags := by
  obtain ⟨cands, chosen, left, hcands, hassembled⟩ := t.cands_assembled A
  obtain ⟨ts, hts, hlength, _, hnodup⟩ := tags_spec query cands.length
  have hperm := shuffle_perm query cands
  refine ⟨cands, chosen, left, shuffle query cands, ts, hcands, hassembled, ?_, hperm, ?_, ?_⟩
  · rw [shown, hcands, Option.bind_some, hts]
    rfl
  · rw [hlength, hperm.length_eq]
  · rw [hperm.length_eq]
    exact hnodup

end Stage

/-! ### An episode in both lists -/

/-- The nightshift holds an episode of the registry, and there is room for two. -/
def overlapping : Stage (WithBot (WithTop Int)) :=
  { codeStage [oldRecord, newRecord] with nightshift := [oldRecord], judgeK := 2, judgeR := 1 }

theorem shown_twice :
    ¬ (∀ (t : Stage (WithBot (WithTop Int))) cands, t.cands thousandths = some cands →
        (cands.map Prod.fst).Nodup) ∧
      ¬ ∀ (t : Stage (WithBot (WithTop Int))) cands, t.cands thousandths = some cands →
        (cands.map Prod.fst).dedup.length = min t.judgeK t.pool.dedup.length := by
  have hcands : overlapping.cands thousandths = some [(oldRecord, true), (oldRecord, false)] := by
    decide +kernel
  constructor
  · intro h
    have hnodup := h overlapping _ hcands
    simp at hnodup
  · intro h
    have hcount := h overlapping _ hcands
    revert hcount
    decide +kernel

end ShannonPrime.Recall
