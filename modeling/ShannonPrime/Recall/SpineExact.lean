import ShannonPrime.Recall.Select

/-!
What the live pipeline decides, over all numbers that a 32-bit float can be. A cosine of a key from
disk and a threshold from the environment may be no number (`none`): every comparison with it
fails, so that it passes a test that is made by refusing what is less, and it takes the place of
the best candidate in the scan. Where this makes no difference the decision is the recall of the
first candidate of greatest cosine.
-/

namespace ShannonPrime.Recall

open Ranking

variable {F : Type} [LinearOrder F]

/-- `a < b` -/
def below (a b : Option F) : Bool := a.any fun x => b.any (x < ·)

/-- `a <= b` -/
def atMost (a b : Option F) : Bool := a.any fun x => b.any (x ≤ ·)

/-- What the deciders read. -/
structure Footprint (F : Type) where
  rawUser : List Char
  l5Query : List (Option F)
  registry : List (Episode (Option F))
  nightshift : List (Episode (Option F))
  interrogative : Bool
  qonly : Bool
  tauL5 : Option F
  tauMargin : Option F
  attrTau : Option F
  attrGate : Bool
  framing : Delivery

namespace Footprint

variable [OrderBot F] [OrderTop F] (A : Arith F) (u : Unicode)
  (cosine : List (Option F) → List (Option F) → Option F) (fp : Footprint F)

/-- `cos512`; the cosine of two vectors of one length is a parameter. -/
def cos (a b : List (Option F)) : Option F :=
  if a.length ≠ b.length ∨ a = [] then some ⊥ else cosine a b

def candidates (fp : Footprint F) : List (Episode (Option F)) := fp.registry ++ fp.nightshift

def scanStep (score : Episode (Option F) → Option F)
    (state : Option (Option F × Episode (Option F)) × Option F) (ep : Episode (Option F)) :
    Option (Option F × Episode (Option F)) × Option F :=
  let c := score ep
  match state.1 with
  | some (b, e) =>
      if atMost c b then (some (b, e), if below state.2 c then c else state.2)
      else (some (c, ep), b)
  | none => (some (c, ep), state.2)

/-- `if second.is_finite() { bcos - second } else { INFINITY }` -/
def margin (bcos second : Option F) : Option F :=
  match second with
  | some s => if s ≠ ⊥ ∧ s ≠ ⊤ then bcos.map (A.sub · s) else some ⊤
  | none => some ⊤

/-- `(bcos * 1000.0) as u32` -/
def scoreMilli (bcos : Option F) : Nat := (bcos.map A.milli).getD 0

/-- `L5Recall` -/
def l5Recall (current : LatentDecision) : LatentDecision :=
  match current with
  | .pass =>
      if fp.qonly && !fp.interrogative then current
      else if fp.l5Query.length ≠ HD then current
      else
        match fp.candidates.foldl (fun state ep =>
            if ep.l5key.length ≠ HD then state
            else scanStep (fun ep => cos cosine fp.l5Query ep.l5key) state ep)
          (none, some ⊥) with
        | (none, _) => current
        | (some (bcos, ep), second) =>
            if below bcos fp.tauL5 then current
            else if below (some A.zero) fp.tauMargin &&
                below (margin A bcos second) fp.tauMargin then current
            else .deliver ⟨ep.name, ep.text, scoreMilli A bcos⟩ fp.framing
  | _ => current

/-- `AttrGate` -/
def attrGateRefine (current : LatentDecision) : LatentDecision :=
  if !fp.attrGate then current
  else
    match current with
    | .deliver episode _ =>
        if atMost fp.attrTau (some (attrAbsentRatio A u fp.rawUser episode.text)) &&
            queryHasEntityToken u fp.rawUser then .decline declineMessage
        else current
    | _ => current

/-- `decide(live_pipeline())`, which stops at a terminal decision. -/
def decideLive : LatentDecision :=
  [fp.l5Recall A cosine, fp.attrGateRefine A u].foldl
    (fun decision refine => if decision.isTerminal then decision else refine decision) .pass

/-! ### What it is said to decide -/

def score (ep : Episode (Option F)) : Option F := cos cosine fp.l5Query ep.l5key

/-- The candidates that have a key. -/
def keyed (fp : Footprint F) : List (Episode (Option F)) :=
  fp.candidates.filter fun ep => ep.l5key.length == HD

/-- The score, where it is a number. -/
def rating (ep : Episode (Option F)) : F := (fp.score cosine ep).getD ⊥

/-- All cosines are numbers, `e` is the first of greatest cosine and `s` the greatest of the
others. -/
def Chosen (e : Episode (Option F)) (s : F) : Prop :=
  (∀ x ∈ fp.keyed, (fp.score cosine x).isSome = true) ∧ TopTwo (fp.rating cosine) fp.keyed e s

/-- The statement veto and the query that could not be read. -/
def silent (fp : Footprint F) : Bool := (fp.qonly && !fp.interrogative) || fp.l5Query.length != HD

/-- The score is at least the threshold, and the difference to the second reaches the margin, which
is off up to zero. -/
def Clears (e : Episode (Option F)) (s : F) : Prop :=
  atMost fp.tauL5 (some (fp.rating cosine e)) = true ∧
    (atMost fp.tauMargin (some A.zero) = true ∨
      atMost fp.tauMargin (some (marginOf A (fp.rating cosine e) s)) = true)

/-- The attribute-force rule. -/
def forced (text : List Char) : Bool :=
  fp.attrGate && (atMost fp.attrTau (some (attrAbsentRatio A u fp.rawUser text)) &&
    queryHasEntityToken u fp.rawUser)

/-- `e` is to be recalled. -/
def Recalls (e : Episode (Option F)) : Prop :=
  fp.silent = false ∧ ∃ s, fp.Chosen cosine e s ∧ fp.Clears A cosine e s

def ref (e : Episode (Option F)) : EpisodeRef := ⟨e.name, e.text, scoreMilli A (fp.score cosine e)⟩

/-- The decision is to deliver what is recalled, to decline where that is forced, and else to
pass. -/
structure Means (d : LatentDecision) : Prop where
  deliver : ∀ r framing, d = .deliver r framing ↔ ∃ e, fp.Recalls A cosine e ∧
    fp.forced A u e.text = false ∧ r = fp.ref A cosine e ∧ framing = fp.framing
  decline : ∀ message, d = .decline message ↔ ∃ e, fp.Recalls A cosine e ∧
    fp.forced A u e.text = true ∧ message = declineMessage
  pass : d = .pass ↔ ¬∃ e, fp.Recalls A cosine e

def reordered (fp : Footprint F) (registry nightshift : List (Episode (Option F))) :
    Footprint F :=
  { fp with registry := registry, nightshift := nightshift }

/-- The same candidates in another order, in which the first of greatest cosine is the same. -/
structure Reorders (registry nightshift : List (Episode (Option F))) : Prop where
  perm : (fp.reordered registry nightshift).keyed.Perm fp.keyed
  first : ∃ e s s', fp.Chosen cosine e s ∧ (fp.reordered registry nightshift).Chosen cosine e s'

def OrderFree : Prop :=
  ∀ registry nightshift, fp.Reorders cosine registry nightshift →
    (fp.reordered registry nightshift).decideLive A u cosine = fp.decideLive A u cosine

/-- The gates hold back a best score of `b` with `s` as the second. -/
def held (b s : Option F) : Bool :=
  below b fp.tauL5 || (below (some A.zero) fp.tauMargin && below (margin A b s) fp.tauMargin)

/-- Where that is what is decided. Where cosines are no numbers, the candidates after the last of
these compete, and the best of them has to be held back; the first of them has no second. -/
inductive Sound : Prop where
  | silent : fp.silent = true → Sound
  | empty : fp.keyed = [] → Sound
  | numbers (e : Episode (Option F)) (s : F) : fp.Chosen cosine e s →
      fp.held A (some (fp.rating cosine e)) (some s) = true ∨
        (fp.tauL5.isSome = true ∧ fp.tauMargin.isSome = true) → Sound
  | after (before : List (Episode (Option F))) (x h : Episode (Option F))
      (r : List (Episode (Option F))) (e : Episode (Option F)) (s : F) :
      fp.keyed = before ++ x :: h :: r → fp.score cosine x = none →
      (∀ y ∈ h :: r, (fp.score cosine y).isSome = true) →
      TopTwo (fp.rating cosine) (h :: r) e s →
      fp.held A (some (fp.rating cosine e))
        (if ∀ y ∈ r, fp.rating cosine y ≤ fp.rating cosine h then none else some s) = true → Sound

/-! ### The decision in terms of the scan -/

def found (fp : Footprint F) : Option (Option F × Episode (Option F)) × Option F :=
  fp.keyed.foldl (scanStep (fp.score cosine)) (none, some ⊥)

omit [OrderTop F] in
theorem foldl_candidates (state : Option (Option F × Episode (Option F)) × Option F) :
    fp.candidates.foldl (fun state ep =>
        if ep.l5key.length ≠ HD then state
        else scanStep (fun ep => cos cosine fp.l5Query ep.l5key) state ep) state =
      fp.keyed.foldl (scanStep (fp.score cosine)) state := by
  rw [keyed, List.foldl_filter]
  congr 1
  funext state ep
  simp only [beq_iff_eq, ite_not]
  rfl

theorem l5Recall_pass :
    fp.l5Recall A cosine .pass =
      if fp.silent then .pass
      else match fp.found cosine with
        | (none, _) => .pass
        | (some (b, e), s) =>
            if fp.held A b s then .pass
            else .deliver ⟨e.name, e.text, scoreMilli A b⟩ fp.framing := by
  unfold l5Recall
  rw [foldl_candidates, ← found]
  dsimp only
  cases hskip : fp.qonly && !fp.interrogative with
  | true => simp [silent, hskip]
  | false =>
      rcases eq_or_ne fp.l5Query.length HD with hlen | hlen
      · have hsilent : fp.silent = false := by simp [silent, hskip, hlen]
        rw [hsilent]
        simp only [hlen, Bool.false_eq_true, if_false, ne_eq, not_true_eq_false]
        rcases fp.found cosine with ⟨_ | ⟨b, e⟩, s⟩
        · rfl
        · dsimp only
          rw [held]
          cases hbelow : below b fp.tauL5 with
          | true => rfl
          | false => rfl
      · have hsilent : fp.silent = true := by simp [silent, hlen]
        simp [hsilent, hlen]

omit [OrderBot F] [OrderTop F] in
theorem attrGateRefine_deliver (e : Episode (Option F)) (milli : Nat) (framing : Delivery) :
    fp.attrGateRefine A u (.deliver ⟨e.name, e.text, milli⟩ framing) =
      if fp.forced A u e.text then .decline declineMessage
      else .deliver ⟨e.name, e.text, milli⟩ framing := by
  unfold attrGateRefine forced
  cases fp.attrGate with
  | true => rfl
  | false => rfl

/-- The decision in these terms. -/
theorem decideLive_eq :
    fp.decideLive A u cosine =
      if fp.silent then .pass
      else match fp.found cosine with
        | (none, _) => .pass
        | (some (b, e), s) =>
            if fp.held A b s then .pass
            else if fp.forced A u e.text then .decline declineMessage
            else .deliver ⟨e.name, e.text, scoreMilli A b⟩ fp.framing := by
  have hpass : fp.attrGateRefine A u .pass = .pass := by
    simp [attrGateRefine]
  have hfold : ∀ d, d.isTerminal = false → fp.l5Recall A cosine .pass = d →
      fp.decideLive A u cosine = fp.attrGateRefine A u d := by
    rintro d hd rfl
    have hrun : fp.decideLive A u cosine = if (fp.l5Recall A cosine .pass).isTerminal then
        fp.l5Recall A cosine .pass else fp.attrGateRefine A u (fp.l5Recall A cosine .pass) := rfl
    rw [hrun, hd, if_neg Bool.false_ne_true]
  have hrecall := fp.l5Recall_pass A cosine
  cases hsilent : fp.silent with
  | true =>
      rw [hsilent, if_pos rfl] at hrecall
      rw [hfold .pass rfl hrecall, hpass, if_pos rfl]
  | false =>
      rw [hsilent, if_neg Bool.false_ne_true] at hrecall
      rw [if_neg Bool.false_ne_true]
      rcases hfound : fp.found cosine with ⟨_ | ⟨b, e⟩, s⟩
      · rw [hfound] at hrecall
        rw [hfold .pass rfl hrecall, hpass]
      · rw [hfound] at hrecall
        dsimp only at hrecall ⊢
        split at hrecall
        case isTrue hheld => rw [hfold .pass rfl hrecall, hpass, if_pos hheld]
        case isFalse hheld =>
          rw [hfold _ rfl hrecall, attrGateRefine_deliver, if_neg hheld]

/-- No gate holds back what is no number. -/
theorem held_none (s : Option F) : fp.held A none s = false := by
  have hmargin : below (margin A none s) fp.tauMargin = false := by
    unfold margin
    cases s with
    | none => cases fp.tauMargin <;> simp [below]
    | some s =>
        dsimp only
        split
        case isTrue => rfl
        case isFalse => cases fp.tauMargin <;> simp [below]
  have hbelow : below none fp.tauL5 = false := rfl
  rw [held, hbelow, hmargin, Bool.and_false, Bool.or_false]

/-! ### What the scan finds -/

/-- A state of the scan over numbers. -/
def numbers (state : Option (F × Episode (Option F)) × F) :
    Option (Option F × Episode (Option F)) × Option F :=
  (state.1.map fun best => (some best.1, best.2), some state.2)

variable {fp}

omit [OrderTop F] in
theorem score_eq {x : Episode (Option F)} (hx : (fp.score cosine x).isSome = true) :
    fp.score cosine x = some (fp.rating cosine x) := by
  obtain ⟨c, hc⟩ := Option.isSome_iff_exists.mp hx
  rw [rating, hc, Option.getD_some]

omit [OrderTop F] in
theorem scanStep_number (state : Option (F × Episode (Option F)) × F) {x : Episode (Option F)}
    (hx : (fp.score cosine x).isSome = true) :
    scanStep (fp.score cosine) (numbers state) x =
      numbers (Ranking.scanStep (fp.rating cosine) state x) := by
  obtain ⟨best, second⟩ := state
  cases best with
  | none => simp [scanStep, Ranking.scanStep, numbers, score_eq cosine hx]
  | some best =>
      simp only [scanStep, Ranking.scanStep, numbers, Option.map_some, score_eq cosine hx]
      rcases le_or_gt (fp.rating cosine x) best.1 with hle | hgt
      · have hkeep : atMost (some (fp.rating cosine x)) (some best.1) = true := by
          simp [atMost, hle]
        rw [if_pos hkeep, if_pos hle]
        rcases lt_or_ge second (fp.rating cosine x) with hlt | hge
        · simp [below, hlt]
        · simp [below, not_lt.mpr hge]
      · simp [atMost, not_le.mpr hgt]

omit [OrderTop F] in
/-- Over numbers the scan finds the best and the runner-up. -/
theorem scan_numbers {l : List (Episode (Option F))} (hl : l ≠ [])
    (hnum : ∀ x ∈ l, (fp.score cosine x).isSome = true) :
    ∃ e s, l.foldl (scanStep (fp.score cosine)) (none, some ⊥) =
        (some (some (fp.rating cosine e), e), some s) ∧ TopTwo (fp.rating cosine) l e s := by
  have hfold : ∀ l : List (Episode (Option F)),
      (∀ x ∈ l, (fp.score cosine x).isSome = true) → ∀ state,
      l.foldl (scanStep (fp.score cosine)) (numbers state) =
        numbers (l.foldl (Ranking.scanStep (fp.rating cosine)) state) := by
    intro l
    induction l with
    | nil =>
        intro _ state
        rfl
    | cons x l ih =>
        intro hnum state
        obtain ⟨hx, hrest⟩ := List.forall_mem_cons.mp hnum
        rw [List.foldl_cons, List.foldl_cons, scanStep_number cosine state hx, ih hrest]
  obtain ⟨e, s, hscan, htop⟩ := scan_topTwo (fp.rating cosine) l hl
  refine ⟨e, s, ?_, htop⟩
  have hstart := hfold l hnum (none, ⊥)
  rw [hscan] at hstart
  exact hstart

omit [OrderTop F] in
/-- What is no number becomes the best, whatever the best was. -/
theorem scanStep_noNumber (state : Option (Option F × Episode (Option F)) × Option F)
    {x : Episode (Option F)} (hx : fp.score cosine x = none) :
    ∃ s, scanStep (fp.score cosine) state x = (some (none, x), s) := by
  obtain ⟨best, second⟩ := state
  cases best with
  | none => exact ⟨second, by rw [scanStep, hx]⟩
  | some best => exact ⟨best.1, by simp [scanStep, hx, atMost]⟩

omit [OrderTop F] in
/-- From there the scan finds the best of what follows; the second is no number until the
candidate that follows directly is beaten. -/
theorem scan_after (x h : Episode (Option F)) (s : Option F) (r : List (Episode (Option F)))
    (hnum : ∀ y ∈ h :: r, (fp.score cosine y).isSome = true) :
    ∃ e t, TopTwo (fp.rating cosine) (h :: r) e t ∧
      (h :: r).foldl (scanStep (fp.score cosine)) (some (none, x), s) =
        (some (some (fp.rating cosine e), e),
          if ∀ y ∈ r, fp.rating cosine y ≤ fp.rating cosine h then none else some t) := by
  induction r using List.reverseRecOn with
  | nil =>
      have hh := score_eq cosine (hnum h List.mem_cons_self)
      refine ⟨h, ⊥, TopTwo.singleton _ h, ?_⟩
      simp [scanStep, hh, atMost]
  | append_singleton r y ih =>
      have hy := score_eq cosine (hnum y (by simp))
      obtain ⟨e, t, htop, hfold⟩ := ih (fun z hz => hnum z (by
        rcases List.mem_cons.mp hz with rfl | hz
        · exact List.mem_cons_self
        · simp [hz]))
      have hmax := htop.isGreatest
      have hhead : fp.rating cosine h ≤ fp.rating cosine e :=
        hmax.2 ⟨h, List.mem_cons_self, rfl⟩
      rw [← List.cons_append, List.foldl_append, hfold, List.foldl_cons, List.foldl_nil]
      rcases le_or_gt (fp.rating cosine y) (fp.rating cosine e) with hle | hgt
      · refine ⟨e, _, htop.snoc_keep hle, ?_⟩
        have hkeep : atMost (some (fp.rating cosine y)) (some (fp.rating cosine e)) = true := by
          simp [atMost, hle]
        have hsame : (∀ z ∈ r ++ [y], fp.rating cosine z ≤ fp.rating cosine h) ↔
            ∀ z ∈ r, fp.rating cosine z ≤ fp.rating cosine h := by
          constructor
          · intro hall z hz
            exact hall z (List.mem_append_left [y] hz)
          · intro hall z hz
            rcases List.mem_append.mp hz with hz | hz
            · exact hall z hz
            · rw [List.mem_singleton.mp hz]
              rcases List.mem_cons.mp htop.mem with rfl | he
              · exact hle
              · exact hle.trans (hall e he)
        rw [if_congr hsame rfl rfl]
        simp only [scanStep, hy, hkeep, if_true]
        split
        case isTrue => rfl
        case isFalse =>
          rcases lt_or_ge t (fp.rating cosine y) with hlt | hge
          · simp [below, hlt, sup_eq_left.mpr hlt.le]
          · simp [below, not_lt.mpr hge, sup_eq_right.mpr hge]
      · refine ⟨y, _, htop.snoc_beat hgt, ?_⟩
        have hbeat : atMost (some (fp.rating cosine y)) (some (fp.rating cosine e)) = false := by
          simp [atMost, hgt]
        have hhigh : ¬∀ z ∈ r ++ [y], fp.rating cosine z ≤ fp.rating cosine h := by
          intro hall
          exact absurd (hall y (by simp)) (not_le.mpr (hhead.trans_lt hgt))
        rw [if_neg hhigh]
        simp only [scanStep, hy, hbeat, Bool.false_eq_true, if_false]

omit [LinearOrder F] [OrderBot F] [OrderTop F] in
/-- Either all cosines are numbers, or one is the last that is not. -/
theorem numbers_or_last (score : Episode (Option F) → Option F) (l : List (Episode (Option F))) :
    (∀ x ∈ l, (score x).isSome = true) ∨ ∃ before x after, l = before ++ x :: after ∧
      score x = none ∧ ∀ y ∈ after, (score y).isSome = true := by
  induction l with
  | nil => exact .inl (by simp)
  | cons x l ih =>
      obtain hall | ⟨before, y, after, rfl, hy, hafter⟩ := ih
      · cases hx : score x with
        | none => exact .inr ⟨[], x, l, rfl, hx, hall⟩
        | some c => exact .inl (by simpa [hx] using hall)
      · exact .inr ⟨x :: before, y, after, rfl, hy, hafter⟩

omit [LinearOrder F] [OrderBot F] [OrderTop F] in
theorem last_unique {score : Episode (Option F) → Option F}
    {before before' after after' : List (Episode (Option F))} {x x' : Episode (Option F)}
    (h : before ++ x :: after = before' ++ x' :: after') (hx : score x = none)
    (hx' : score x' = none) (hafter : ∀ y ∈ after, (score y).isSome = true)
    (hafter' : ∀ y ∈ after', (score y).isSome = true) : after = after' := by
  obtain ⟨gap, hbefore, hrest⟩ | ⟨gap, hbefore, hrest⟩ := List.append_eq_append_iff.mp h
  · cases gap with
    | nil => exact (List.cons.inj hrest).2
    | cons y gap =>
        have hsome := hafter x' (by simp [(List.cons.inj hrest).2])
        rw [hx'] at hsome
        cases hsome
  · cases gap with
    | nil => exact (List.cons.inj hrest).2.symm
    | cons y gap =>
        have hsome := hafter' x (by simp [(List.cons.inj hrest).2])
        rw [hx] at hsome
        cases hsome

omit [OrderTop F] in
theorem found_numbers (hne : fp.keyed ≠ [])
    (hnum : ∀ x ∈ fp.keyed, (fp.score cosine x).isSome = true) :
    ∃ e s, fp.found cosine = (some (some (fp.rating cosine e), e), some s) ∧
      fp.Chosen cosine e s := by
  obtain ⟨e, s, hscan, htop⟩ := scan_numbers cosine hne hnum
  exact ⟨e, s, hscan, hnum, htop⟩

omit [OrderTop F] in
theorem Chosen.found {e : Episode (Option F)} {s : F} (h : fp.Chosen cosine e s) :
    fp.found cosine = (some (some (fp.rating cosine e), e), some s) := by
  obtain ⟨e', s', hfound, hchosen⟩ := found_numbers cosine (List.ne_nil_of_mem h.2.mem) h.1
  obtain ⟨rfl, rfl⟩ := h.2.unique hchosen.2
  exact hfound

omit [OrderTop F] in
/-- Candidates after the last one whose cosine is no number. -/
theorem found_after {before after : List (Episode (Option F))} {x : Episode (Option F)}
    (hkeyed : fp.keyed = before ++ x :: after) (hx : fp.score cosine x = none) :
    ∃ s, fp.found cosine =
      after.foldl (scanStep (fp.score cosine)) (some (none, x), s) := by
  obtain ⟨s, hstep⟩ := scanStep_noNumber cosine
    (before.foldl (scanStep (fp.score cosine)) (none, some ⊥)) hx
  refine ⟨s, ?_⟩
  rw [Footprint.found, hkeyed, List.foldl_append, List.foldl_cons, hstep]

/-! ### What is recalled -/

theorem margin_some (b s : F) : margin A (some b) (some s) = some (marginOf A b s) := by
  simp only [margin, marginOf, Option.map_some]
  split <;> rfl

omit [OrderBot F] [OrderTop F] in
/-- What is not less than a number reaches it. -/
theorem atMost_iff (t : Option F) (b : F) :
    atMost t (some b) = true ↔ t.isSome = true ∧ below (some b) t = false := by
  cases t with
  | none => simp [atMost]
  | some t => simp [atMost, below]

theorem clears_iff (e : Episode (Option F)) (s : F) :
    fp.Clears A cosine e s ↔ fp.held A (some (fp.rating cosine e)) (some s) = false ∧
      fp.tauL5.isSome = true ∧ fp.tauMargin.isSome = true := by
  rw [Clears, held, margin_some, atMost_iff, atMost_iff, atMost_iff, Bool.or_eq_false_iff,
    Bool.and_eq_false_iff]
  tauto

theorem Recalls.unique {e e' : Episode (Option F)} (h : fp.Recalls A cosine e)
    (h' : fp.Recalls A cosine e') : e = e' := by
  obtain ⟨_, s, hchosen, _⟩ := h
  obtain ⟨_, s', hchosen', _⟩ := h'
  exact (hchosen.2.unique hchosen'.2).1

theorem means_pass (h : ∀ e, ¬fp.Recalls A cosine e) : fp.Means A u cosine .pass := by
  constructor
  · simp [h]
  · simp [h]
  · simp [h]

/-- What is done with a candidate that is recalled. -/
theorem means_recalls {e : Episode (Option F)} (h : fp.Recalls A cosine e) :
    fp.Means A u cosine (if fp.forced A u e.text then .decline declineMessage
      else .deliver (fp.ref A cosine e) fp.framing) := by
  have honly : ∀ e', fp.Recalls A cosine e' ↔ e' = e := by
    intro e'
    constructor
    · intro h'
      exact h'.unique A cosine h
    · rintro rfl
      exact h
  cases hforced : fp.forced A u e.text with
  | true =>
      constructor
      · simp [honly, hforced]
      · intro message
        simp only [honly, exists_eq_left, hforced, if_true, true_and, LatentDecision.decline.injEq]
        exact eq_comm
      · simp [honly]
  | false =>
      constructor
      · intro r framing
        simp only [honly, exists_eq_left, hforced, Bool.false_eq_true, if_false, true_and,
          LatentDecision.deliver.injEq]
        exact and_congr eq_comm eq_comm
      · simp [honly, hforced]
      · simp [honly]

/-- Nothing is recalled where a cosine is no number. -/
theorem not_recalls {x : Episode (Option F)} (hmem : x ∈ fp.keyed)
    (hx : fp.score cosine x = none) (e : Episode (Option F)) : ¬fp.Recalls A cosine e := by
  rintro ⟨_, _, ⟨hnum, _⟩, _⟩
  have hsome := hnum x hmem
  rw [hx] at hsome
  cases hsome

theorem Chosen.recalls_iff {e e' : Episode (Option F)} {s : F} (h : fp.Chosen cosine e s)
    (hsilent : fp.silent = false) :
    fp.Recalls A cosine e' ↔ e' = e ∧ fp.Clears A cosine e s := by
  constructor
  · rintro ⟨_, s', hchosen, hclears⟩
    obtain ⟨rfl, rfl⟩ := hchosen.2.unique h.2
    exact ⟨rfl, hclears⟩
  · rintro ⟨rfl, hclears⟩
    exact ⟨hsilent, s, h, hclears⟩

theorem Chosen.decideLive {e : Episode (Option F)} {s : F} (h : fp.Chosen cosine e s)
    (hsilent : fp.silent = false) :
    fp.decideLive A u cosine =
      if fp.held A (some (fp.rating cosine e)) (some s) then .pass
      else if fp.forced A u e.text then .decline declineMessage
      else .deliver (fp.ref A cosine e) fp.framing := by
  rw [decideLive_eq, hsilent, if_neg Bool.false_ne_true, h.found]
  dsimp only
  rw [ref, score_eq cosine (h.1 e h.2.mem)]

theorem recite_ne_pass (c : Bool) (message : String) (r : EpisodeRef) (framing : Delivery) :
    (if c then LatentDecision.decline message else .deliver r framing) ≠ .pass := by
  split <;> simp

/-- Where all cosines are numbers. -/
theorem Chosen.means_iff {e : Episode (Option F)} {s : F} (h : fp.Chosen cosine e s)
    (hsilent : fp.silent = false) :
    fp.Means A u cosine (fp.decideLive A u cosine) ↔ fp.Sound A cosine := by
  rw [h.decideLive A u cosine hsilent]
  cases hheld : fp.held A (some (fp.rating cosine e)) (some s) with
  | true =>
      have hnone : ∀ e', ¬fp.Recalls A cosine e' := by
        intro e' he'
        have hclears := ((h.recalls_iff A cosine hsilent).mp he').2
        rw [clears_iff, hheld] at hclears
        cases hclears.1
      rw [if_pos rfl]
      exact ⟨fun _ => .numbers e s h (.inl hheld), fun _ => means_pass A u cosine hnone⟩
  | false =>
      rw [if_neg Bool.false_ne_true]
      constructor
      · intro hmeans
        have hrecalled : ∃ e', fp.Recalls A cosine e' := by
          by_contra hnone
          exact recite_ne_pass _ _ _ _ (hmeans.pass.mpr hnone)
        obtain ⟨e', he'⟩ := hrecalled
        have hclears := ((h.recalls_iff A cosine hsilent).mp he').2
        exact .numbers e s h (.inr ((clears_iff A cosine e s).mp hclears).2)
      · intro hsound
        have hsettings : fp.tauL5.isSome = true ∧ fp.tauMargin.isSome = true := by
          cases hsound with
          | silent hquiet =>
              rw [hsilent] at hquiet
              cases hquiet
          | empty hnil =>
              have hmem := h.2.mem
              rw [hnil] at hmem
              cases hmem
          | numbers e' s' h' hcase =>
              obtain ⟨rfl, rfl⟩ := h.2.unique h'.2
              rw [hheld] at hcase
              exact hcase.resolve_left Bool.false_ne_true
          | after before x y r e' s' hkeyed hx =>
              have hsome := h.1 x (by simp [hkeyed])
              rw [hx] at hsome
              cases hsome
        have hclears := (clears_iff A cosine e s).mpr ⟨hheld, hsettings⟩
        exact means_recalls A u cosine ((h.recalls_iff A cosine hsilent).mpr ⟨rfl, hclears⟩)

/-- Where `x` is the last candidate whose cosine is no number, only what follows matters. -/
theorem sound_iff_of_last {before after : List (Episode (Option F))} {x : Episode (Option F)}
    (hsilent : fp.silent = false) (hkeyed : fp.keyed = before ++ x :: after)
    (hx : fp.score cosine x = none) (hafter : ∀ y ∈ after, (fp.score cosine y).isSome = true) :
    fp.Sound A cosine ↔ ∃ h r e s, after = h :: r ∧ TopTwo (fp.rating cosine) (h :: r) e s ∧
      fp.held A (some (fp.rating cosine e))
        (if ∀ y ∈ r, fp.rating cosine y ≤ fp.rating cosine h then none else some s) = true := by
  constructor
  · intro hsound
    cases hsound with
    | silent hquiet =>
        rw [hsilent] at hquiet
        cases hquiet
    | empty hnil =>
        rw [hnil] at hkeyed
        simp at hkeyed
    | numbers e s h =>
        have hsome := h.1 x (by simp [hkeyed])
        rw [hx] at hsome
        cases hsome
    | after before' x' h r e s hkeyed' hx' hafter' htop hheld =>
        exact ⟨h, r, e, s, last_unique (hkeyed.symm.trans hkeyed') hx hx' hafter hafter', htop,
          hheld⟩
  · rintro ⟨h, r, e, s, rfl, htop, hheld⟩
    exact .after before x h r e s hkeyed hx hafter htop hheld

/-- Where `x` is the last candidate whose cosine is no number. -/
theorem means_iff_of_last {before after : List (Episode (Option F))} {x : Episode (Option F)}
    (hsilent : fp.silent = false) (hkeyed : fp.keyed = before ++ x :: after)
    (hx : fp.score cosine x = none) (hafter : ∀ y ∈ after, (fp.score cosine y).isSome = true) :
    fp.Means A u cosine (fp.decideLive A u cosine) ↔ fp.Sound A cosine := by
  have hmem : x ∈ fp.keyed := by simp [hkeyed]
  have hnone := not_recalls A cosine hmem hx
  have hmeans : fp.Means A u cosine (fp.decideLive A u cosine) ↔
      fp.decideLive A u cosine = .pass := by
    constructor
    · intro hmeans
      apply hmeans.pass.mpr
      rintro ⟨e, he⟩
      exact hnone e he
    · intro hpass
      rw [hpass]
      exact means_pass A u cosine hnone
  obtain ⟨s, hfound⟩ := found_after cosine hkeyed hx
  rw [hmeans, sound_iff_of_last A cosine hsilent hkeyed hx hafter, decideLive_eq, hsilent,
    if_neg Bool.false_ne_true, hfound]
  cases after with
  | nil =>
      rw [List.foldl_nil]
      dsimp only
      rw [held_none, if_neg Bool.false_ne_true]
      constructor
      · intro hpass
        exact absurd hpass (recite_ne_pass _ _ _ _)
      · rintro ⟨_, _, _, _, hcons, _⟩
        cases hcons
  | cons h r =>
      obtain ⟨e, t, htop, hscan⟩ := scan_after cosine x h s r hafter
      rw [hscan]
      dsimp only
      constructor
      · intro hpass
        refine ⟨h, r, e, t, rfl, htop, ?_⟩
        by_contra hheld
        rw [if_neg hheld] at hpass
        exact recite_ne_pass _ _ _ _ hpass
      · rintro ⟨h', r', e', t', hcons, htop', hheld⟩
        obtain ⟨rfl, rfl⟩ := List.cons.inj hcons
        obtain ⟨rfl, rfl⟩ := htop.unique htop'
        exact if_pos hheld

theorem orderFree : fp.OrderFree A u cosine := by
  rintro registry nightshift ⟨hperm, e, s, s', h, h'⟩
  have hrating : (fp.reordered registry nightshift).rating cosine = fp.rating cosine := rfl
  obtain rfl : s = s' := h.2.score_of_perm h'.2 hperm.symm
  cases hsilent : fp.silent with
  | true =>
      have hsilent' : (fp.reordered registry nightshift).silent = true := hsilent
      rw [decideLive_eq, decideLive_eq, hsilent, hsilent', if_pos rfl, if_pos rfl]
  | false =>
      rw [h.decideLive A u cosine hsilent, h'.decideLive A u cosine hsilent]
      rfl

/-- The live pipeline decides as it should, whatever the order of the candidates, in exactly these
cases. -/
theorem live_means_iff :
    fp.Means A u cosine (fp.decideLive A u cosine) ∧ fp.OrderFree A u cosine ↔
      fp.Sound A cosine := by
  rw [and_iff_left (orderFree A u cosine)]
  cases hsilent : fp.silent with
  | true =>
      have hnone : ∀ e, ¬fp.Recalls A cosine e := by
        rintro e ⟨hheard, _⟩
        rw [hsilent] at hheard
        cases hheard
      have hmeans := means_pass A u cosine hnone
      rw [decideLive_eq, hsilent, if_pos rfl]
      exact ⟨fun _ => .silent hsilent, fun _ => hmeans⟩
  | false =>
      rcases eq_or_ne fp.keyed [] with hnil | hne
      · have hnone : ∀ e, ¬fp.Recalls A cosine e := by
          rintro e ⟨_, s, hchosen, _⟩
          have hmem := hchosen.2.mem
          rw [hnil] at hmem
          cases hmem
        have hfound : fp.found cosine = (none, some ⊥) := by rw [Footprint.found, hnil]; rfl
        have hmeans := means_pass A u cosine hnone
        rw [decideLive_eq, hsilent, if_neg Bool.false_ne_true, hfound]
        exact ⟨fun _ => .empty hnil, fun _ => hmeans⟩
      · obtain hnum | ⟨before, x, after, hkeyed, hx, hafter⟩ :=
          numbers_or_last (fp.score cosine) fp.keyed
        · obtain ⟨e, s, _, hchosen⟩ := found_numbers cosine hne hnum
          exact hchosen.means_iff A u cosine hsilent
        · exact means_iff_of_last A u cosine hsilent hkeyed hx hafter

/-- One record that matches the query, and a threshold that is no number. -/
def unbounded : Footprint (WithBot (WithTop Int)) where
  rawUser := "what is the code?".toList
  l5Query := List.replicate HD (some 1)
  registry := [⟨"new", "the code is 2222".toList, List.replicate HD (some 1), 0⟩]
  nightshift := []
  interrogative := true
  qonly := true
  tauL5 := none
  tauMargin := some 0
  attrTau := some (some (some 500))
  attrGate := true
  framing := .systemEcho

/-- Equal or orthogonal unit vectors. -/
def sameOrNot (a b : List (Option (WithBot (WithTop Int)))) : Option (WithBot (WithTop Int)) :=
  if a = b then some (some (some 1000)) else some 0

/-- The record is delivered although no score reaches the threshold. -/
theorem unbounded_not_met :
    ¬(unbounded.Means thousandths asciiText sameOrNot
        (unbounded.decideLive thousandths asciiText sameOrNot) ∧
      unbounded.OrderFree thousandths asciiText sameOrNot) := by
  rintro ⟨hmeans, _⟩
  have hdecision : unbounded.decideLive thousandths asciiText sameOrNot =
      .deliver ⟨"new", "the code is 2222".toList, 1000⟩ .systemEcho := by
    decide +kernel
  obtain ⟨e, ⟨_, s, _, hreached, _⟩, _⟩ := (hmeans.deliver _ _).mp hdecision
  cases hreached

end Footprint

end ShannonPrime.Recall
