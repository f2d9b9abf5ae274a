import ShannonPrime.Recall.Selectors

/-!
When the selectors leave superseded episodes alone. The inline branch always does. The
others have no lifecycle filter: they deliver a superseded episode exactly when it wins
the contest they hold, or, for the judge, when it may be what the judge is shown.
-/

namespace ShannonPrime.Recall

open Ranking

variable {F : Type} [LinearOrder F] [OrderBot F] [OrderTop F]
variable (A : Arith F) (u : Unicode)

def Stored.Current (ep : Stored F) : Prop := ep.lifecycle = 0

namespace Stage

variable (t : Stage F)

/-! ### The working set of the judge -/

section

omit [OrderTop F]

/-- Fewer cold episodes than there are slots are preferred to this one. -/
def Leads {S : Type} [LinearOrder S] (t : Stage F) (score : Stored F → S) (ep : Stored F) : Prop :=
  ∃ before after, t.cold = before ++ ep :: after ∧
    preferred score before ep after < t.salienceSlots

def Shortlisted (ep : Stored F) : Prop :=
  if t.judgeL5 && !t.query.vec.isEmpty then t.Leads (t.coldScore A) ep
  else
    match t.judgeWc, t.querySig with
    | some wc, _ => t.Leads wc ep
    | none, some sig => t.Leads (fun ep => agree sig ep.sig) ep
    | none, none => False

/-- The episode may be what the judge picks: it is recent, or cold and there is room for
all of these or for this one. -/
def Shown (ep : Stored F) : Prop :=
  ep ∈ t.recent ∨ (if t.cold.length ≤ t.salienceSlots then ep ∈ t.cold else t.Shortlisted A ep)

omit [LinearOrder F] [OrderBot F] in
theorem mem_take_cold_iff {S : Type} [LinearOrder S] (score : Stored F → S) (ep : Stored F) :
    ep ∈ (ranked score t.cold).take t.salienceSlots ↔ t.Leads score ep :=
  mem_take_ranked_iff score t.cold t.salienceSlots ep

theorem mem_shortlist_iff (ep : Stored F) : ep ∈ t.shortlist A ↔ t.Shortlisted A ep := by
  unfold shortlist Shortlisted
  split
  case isTrue => exact t.mem_take_cold_iff (t.coldScore A) ep
  case isFalse =>
    cases t.judgeWc with
    | some wc => exact t.mem_take_cold_iff wc ep
    | none =>
        cases t.querySig with
        | some sig => exact t.mem_take_cold_iff (fun ep => agree sig ep.sig) ep
        | none => simp

theorem shortlist_nil (h : t.salienceSlots = 0) : t.shortlist A = [] := by
  unfold shortlist
  rw [h]
  split
  case isTrue => rfl
  case isFalse => split <;> rfl

theorem mem_workingSet_iff (ep : Stored F) : ep ∈ t.workingSet A ↔ t.Shown A ep := by
  unfold workingSet Shown
  rw [List.mem_append, ← mem_shortlist_iff]
  split
  case isTrue => rfl
  case isFalse =>
    split
    case isTrue => rfl
    case isFalse hslots => rw [t.shortlist_nil A (Nat.eq_zero_of_not_pos hslots)]

/-- Each member of the working set is under some tag. -/
theorem judge_all (query : List Char) (p : Stored F → Prop) :
    (∀ slot : Option Nat, ∀ ep, slot.bind ((shuffle query (t.workingSet A))[·]?) = some ep → p ep) ↔
      ∀ ep, t.Shown A ep → p ep := by
  simp only [← mem_workingSet_iff]
  constructor
  · intro h ep hep
    obtain ⟨slot, hslot⟩ :=
      List.mem_iff_getElem?.mp ((shuffle_perm query (t.workingSet A)).mem_iff.mpr hep)
    exact h (some slot) ep hslot
  · intro h slot ep hslot
    cases slot with
    | none => cases hslot
    | some slot =>
        apply h
        exact (shuffle_perm query (t.workingSet A)).mem_iff.mp (List.mem_of_getElem? hslot)

end

/-! ### The condition -/

section

omit [OrderTop F]

/-- Whatever the judge picks, the delivery is current: the closest episode of all, if
there is one to deliver, is never a superseded one, or the judge is shown none. -/
def JudgeSpares : Prop :=
  trim (t.rawUser.getD []) = [] ∨ (∀ ep, ¬ t.Shown A ep) ∨
    if t.judgeL5 && !t.query.vec.isEmpty then
      (t.targetContest A).Spares Stored.Current ∧
        ((t.targetContest A).Spares (fun _ => False) → ∀ ep, t.Shown A ep → ep.Current)
    else ∀ ep, t.Shown A ep → ep.Current

end

def SpineSpares : Prop :=
  (∀ head ∈ t.head, (t.headContest A u head).Spares Stored.Current) ∧
    ((∀ head ∈ t.head, ∀ ep ∈ t.pool, head.score ep ≤ head.rejectFloor) →
      t.turn.asksNothing u = true ∨ (t.l5Contest A u).Spares Stored.Current)

/-- No superseded episode comes out first where it would be delivered. -/
def Spares : Selector → Prop
  | .inline => True
  | .wc => t.wcContest.Spares Stored.Current
  | .jaccard => ∀ ruser ∈ t.user, (t.jaccardContest A u ruser).Spares Stored.Current
  | .int2 => t.int2Contest.Spares fun p => p.2.Current
  | .judge => t.JudgeSpares A
  | .spine => t.SpineSpares A u

/-! ### Each selector -/

theorem inline_current (haudit : t.audit = false) (r : Replies) (ep : Stored F)
    (hep : t.choose A u r .inline = some ep) : ep.Current := by
  simp only [choose, Option.map_eq_some_iff, Option.filter_eq_some_iff] at hep
  obtain ⟨d, ⟨hd, _⟩, rfl⟩ := hep
  obtain ⟨_, hactive⟩ := t.dispatch_active A u hd
  simpa [Inline.active, haudit, Stored.Current] using hactive

omit [OrderTop F] in
theorem l5Best_iff (p : Stored F → Prop) (hl5 : (t.judgeL5 && !t.query.vec.isEmpty) = true) :
    (∀ ep, t.l5Best A = some ep → p ep) ↔ (t.targetContest A).Spares p := by
  rw [l5Best, if_pos hl5]
  exact (t.targetContest A).winner_iff p

omit [OrderTop F] in
theorem judgeChoice_iff :
    (∀ r ep, t.judgeChoice A r = some ep → ep.Current) ↔ t.JudgeSpares A := by
  unfold JudgeSpares judgeChoice
  dsimp only
  by_cases hquery : trim (t.rawUser.getD []) = []
  · simp [hquery]
  · simp only [List.isEmpty_iff, hquery, if_false, false_or, Option.map_eq_some_iff]
    have hall : (∀ (r : Replies) (ep : Stored F),
        (∃ a, r.judge.bind ((shuffle (trim (t.rawUser.getD [])) (t.workingSet A))[·]?) = some a ∧
          (t.l5Best A).getD a = ep) → ep.Current) ↔
        ∀ ep, t.Shown A ep → ((t.l5Best A).getD ep).Current := by
      rw [← t.judge_all A (trim (t.rawUser.getD [])) fun ep => ((t.l5Best A).getD ep).Current]
      constructor
      · intro h slot ep hslot
        exact h ⟨none, none, slot⟩ _ ⟨ep, hslot, rfl⟩
      · rintro h r _ ⟨ep, hslot, rfl⟩
        exact h r.judge ep hslot
    rw [hall]
    split
    case isFalse hl5 =>
      rw [l5Best, if_neg hl5]
      simp only [Option.getD_none]
      constructor
      · exact Or.inr
      · rintro (hnone | h)
        · intro ep hep
          exact absurd hep (hnone ep)
        · exact h
    case isTrue hl5 =>
      rw [← t.l5Best_iff A _ hl5, ← t.l5Best_iff A _ hl5]
      cases t.l5Best A with
      | none => simp; tauto
      | some best =>
          simp only [Option.getD_some, Option.some.injEq, forall_eq']
          constructor
          · intro h
            by_cases hshown : ∃ ep, t.Shown A ep
            · obtain ⟨ep, hep⟩ := hshown
              exact .inr ⟨h ep hep, False.elim⟩
            · exact .inl (not_exists.mp hshown)
          · rintro (hnone | ⟨hbest, _⟩) ep hep
            · exact absurd hep (hnone ep)
            · exact hbest

theorem l5Choice_iff :
    (∀ ep, t.l5Choice A u = some ep → ep.Current) ↔
      t.turn.asksNothing u = true ∨ (t.l5Contest A u).Spares Stored.Current := by
  unfold l5Choice
  split
  case isTrue hasks => simp [hasks]
  case isFalse hasks =>
    rw [(t.l5Contest A u).winner_iff]
    simp [hasks]

theorem spineChoice_iff :
    (∀ ep, t.spineChoice A u = some ep → ep.Current) ↔ t.SpineSpares A u := by
  unfold spineChoice SpineSpares
  cases t.head with
  | none => simp [t.l5Choice_iff A u]
  | some head =>
      simp only [Option.mem_def, Option.some.injEq, forall_eq']
      have hfires : t.headFires head = false ↔ ∀ ep ∈ t.pool, head.score ep ≤ head.rejectFloor := by
        simp [headFires]
      rw [← hfires]
      cases hcase : t.headFires head with
      | true =>
          simp only [if_true, Bool.true_eq_false, false_implies, and_true]
          exact (t.headContest A u head).winner_iff Stored.Current
      | false =>
          have hidle : (t.headContest A u head).Spares Stored.Current := by
            intro before ep after hpool _ hfloor _
            have hmem : ep ∈ t.pool := by
              change t.pool = _ at hpool
              simp [hpool]
            exact absurd (WithBot.coe_lt_coe.mp hfloor) (not_lt.mpr (hfires.mp hcase ep hmem))
          simp only [Bool.false_eq_true, if_false, hidle, true_and, true_implies]
          exact t.l5Choice_iff A u

/-- Unless superseded episodes are asked for, a selector delivers only current ones exactly
when no superseded episode comes out first. -/
theorem choose_current_iff (haudit : t.audit = false) (s : Selector) :
    (∀ r ep, t.choose A u r s = some ep → ep.lifecycle = 0) ↔ t.Spares A u s := by
  have hreply : ∀ o : Option (Stored F),
      ((∀ _ : Replies, ∀ ep, o = some ep → ep.lifecycle = 0) ↔ ∀ ep, o = some ep → ep.Current) := by
    intro o
    exact ⟨fun h => h ⟨none, none, none⟩, fun h _ => h⟩
  cases s with
  | inline => exact iff_true_intro fun r ep => t.inline_current A u haudit r ep
  | wc => exact (hreply _).trans (t.wcContest.winner_iff Stored.Current)
  | jaccard =>
      refine (hreply _).trans ?_
      simp only [Spares]
      cases t.user with
      | none => simp
      | some ruser => simpa using (t.jaccardContest A u ruser).winner_iff Stored.Current
  | int2 =>
      refine (hreply _).trans (Iff.trans ?_ (t.int2Contest.winner_iff fun p => p.2.Current))
      cases t.int2Contest.winner with
      | none => simp
      | some p => simp
  | judge => exact t.judgeChoice_iff A
  | spine => exact (hreply _).trans (t.spineChoice_iff A u)

end Stage

/-! ### A fact and its correction -/

def oldRecord : Stored (WithBot (WithTop Int)) :=
  ⟨⟨"old", "the code is 1111".toList, List.replicate HD 1, 1⟩, 0, none⟩

def newRecord : Stored (WithBot (WithTop Int)) :=
  ⟨⟨"new", "the code is 2222".toList, List.replicate HD 1, 0⟩, 0, none⟩

/-- A query that every record matches alike. -/
def codeStage (registry : List (Stored (WithBot (WithTop Int)))) :
    Stage (WithBot (WithTop Int)) where
  rawUser := some "what is the code?".toList
  query := supersededTurn.query
  registry := registry
  nightshift := []
  qonly := true
  tauL5 := some (some (some 300))
  tauMargin := some 0
  attrTau := some (some (some 500))
  attrGate := true
  audit := false
  canonEps := some 0
  rerankEps := some 0
  memPolicy := false
  prompt := "systemecho".toList
  framing := .systemEcho
  wc _ := some (some 2000)
  s0 := some (some 1000)
  tauJaccard := some (some (some 150))
  horizon := 20
  collapse _ := some (some (some (-20000)))
  tauInt2 := some (some (some (-8000)))
  head := none
  judgeK := 20
  judgeR := 8
  judgeL5 := true
  judgeWc := none
  querySig := some 0

/-- The code was corrected, and the superseded record comes first: every selector but the
inline one delivers it. -/
theorem corrected_delivered (s : Selector) :
    ((codeStage [oldRecord, newRecord]).choose thousandths asciiText ⟨none, none, some 0⟩ s).map
      (·.name) = some (if s = .inline then "new" else "old") := by
  cases s <;> decide +kernel

theorem superseded_chosen :
    ¬ ∀ (t : Stage (WithBot (WithTop Int))) (s : Selector) (r : Replies)
      (ep : Stored (WithBot (WithTop Int))), t.audit = false →
      t.choose thousandths asciiText r s = some ep → ep.lifecycle = 0 := by
  intro h
  have hold : ((codeStage [oldRecord, newRecord]).choose thousandths asciiText
      ⟨none, none, some 0⟩ .jaccard).map (·.lifecycle) = some 1 := by
    decide
  obtain ⟨ep, hep, hone⟩ := Option.map_eq_some_iff.mp hold
  have hzero := h _ .jaccard _ ep rfl hep
  rw [hone] at hzero
  cases hzero

/-- Without the superseded record the overlap delivers the correction. -/
theorem correction_chosen : (codeStage [newRecord]).audit = false ∧
    ∀ r ep, (codeStage [newRecord]).choose thousandths asciiText r .jaccard = some ep →
      ep.lifecycle = 0 := by
  constructor
  · rfl
  apply ((codeStage [newRecord]).choose_current_iff thousandths asciiText rfl .jaccard).mpr
  rintro ruser _ before ep after hpool hsuperseded _ _
  have hmem : ep ∈ [newRecord] := by
    change [newRecord] = _ at hpool
    simp [hpool]
  obtain rfl := List.mem_singleton.mp hmem
  exact absurd rfl hsuperseded

end ShannonPrime.Recall
