import ShannonPrime.Recall.Inline

/-!
The selectors of the chat route, each with the episode it would deliver: the W_c head, the
word overlap, the ablation gate, the generative judge, the inline cosine branch and the
spine with its optional head. Only the inline branch looks at the lifecycle. The scores of
the heads, the ablation's collapses and the slot the judge names are inputs.
-/

namespace ShannonPrime.Recall

open Ranking

/-- `R_BITS` less the Hamming distance. -/
def agree (a b : Memory.Sig) : Nat :=
  (List.range 256).countP fun i => a.getLsbD i == b.getLsbD i

structure LatentHead (F : Type) where
  score : Stored F → F
  rejectFloor : F

structure Stage (F : Type) extends Inline F where
  framing : Delivery
  wc : Stored F → F
  s0 : F
  tauJaccard : Option F
  /-- `SP_INT2_W` -/
  horizon : Nat
  /-- The collapse measured for a candidate, by its place; none when it was skipped. -/
  collapse : Nat → Option F
  tauInt2 : Option F
  head : Option (LatentHead F)
  /-- `SP_B3_JUDGE_K` -/
  judgeK : Nat
  /-- `SP_B3_JUDGE_R` -/
  judgeR : Nat
  judgeL5 : Bool
  judgeWc : Option (Stored F → F)
  /-- The signature of the prompt's keys, unless they could not be read. -/
  querySig : Option Memory.Sig

inductive Selector where
  | inline | wc | jaccard | int2 | judge | spine
  deriving DecidableEq

variable {F : Type} [LinearOrder F] [OrderBot F] [OrderTop F]
variable (A : Arith F) (u : Unicode)

/-! ### The spine with its head -/

def headStep (head : LatentHead F) (best : Option (F × Stored F)) (ep : Stored F) :
    Option (F × Stored F) :=
  let s := head.score ep
  if head.rejectFloor < s && best.all (·.1 < s) then some (s, ep) else best

def HeadSelector.refine (head : LatentHead F) (candidates : List (Stored F)) : Decider F :=
  fun view current =>
    match current with
    | .pass =>
        match candidates.foldl (headStep head) none with
        | some (s, ep) => .deliver ⟨ep.name, ep.text, A.milli (max s A.zero)⟩ view.framing
        | none => current
    | _ => current

namespace Stage

variable (t : Stage F)

def turn (t : Stage F) : Turn F := t.toInline.toTurn t.framing

def buildPipeline : List (Decider F) :=
  (t.head.map fun head => HeadSelector.refine A head t.pool).toList ++ livePipeline A u

def spine : Verdict := (decide (t.turn.view u) (t.buildPipeline A u)).verdict

/-! ### What each selector delivers -/

def wcContest : Contest (Stored F) F where
  pool := t.pool
  score := t.wc
  floor := (⊥ : F)
  admits ep := t.s0 < t.wc ep

def jaccardContest (ruser : List Char) : Contest (Stored F) F where
  pool := t.pool
  score ep := Memory.tokenOverlap A (u.toLowercase ruser) ep.text
  floor := A.zero
  admits ep :=
    t.tauJaccard.any (· ≤ Memory.tokenOverlap A (u.toLowercase ruser) ep.text) &&
      !ep.text.isEmpty

/-- The candidates of the ablation gate: the registry and the last of the nightshift
episodes. -/
def bounded (t : Stage F) : List (Stored F) :=
  t.registry ++ t.nightshift.drop (t.nightshift.length - t.horizon)

def probed (t : Stage F) : List (F × Stored F) :=
  t.bounded.zipIdx.filterMap fun (ep, i) => (t.collapse i).map fun c => (c, ep)

def int2Contest : Contest (F × Stored F) Fᵒᵈ where
  pool := t.probed
  score p := OrderDual.toDual p.1
  floor := ⊥
  admits p := t.tauInt2.any (p.1 < ·)

def keyed (t : Stage F) : List (Stored F) := t.pool.filter fun ep => ep.l5key.length == HD

def headContest (head : LatentHead F) : Contest (Stored F) F where
  pool := t.pool
  score := head.score
  floor := head.rejectFloor
  admits ep := !t.turn.unanswered A u ep.toEpisode

def l5Contest : Contest (Stored F) F where
  pool := t.keyed
  score := t.score A
  floor := ⊥
  admits ep :=
    !(t.tauL5.any (t.score A ep < ·) || t.turn.ambiguous A t.turn.keyed ep.toEpisode) &&
      !t.turn.unanswered A u ep.toEpisode

/-- The head has a candidate above its floor. -/
def headFires (head : LatentHead F) : Bool := t.pool.any fun ep => head.rejectFloor < head.score ep

def l5Choice : Option (Stored F) :=
  if t.turn.asksNothing u then none else (t.l5Contest A u).winner

def spineChoice : Option (Stored F) :=
  match t.head with
  | none => t.l5Choice A u
  | some head =>
      if t.headFires head then (t.headContest A u head).winner else t.l5Choice A u

/-! #### The judge -/

def rkeep (t : Stage F) : Nat := min t.judgeR (min t.judgeK t.nightshift.length)

def recent (t : Stage F) : List (Stored F) :=
  t.nightshift.drop (t.nightshift.length - t.rkeep)

def cold (t : Stage F) : List (Stored F) :=
  t.registry ++ t.nightshift.take (t.nightshift.length - t.rkeep)

def salienceSlots (t : Stage F) : Nat := t.judgeK - t.recent.length

def coldScore (ep : Stored F) : F :=
  if ep.l5key.length = HD then t.score A ep else ⊥

def shortlist : List (Stored F) :=
  if t.judgeL5 && !t.query.vec.isEmpty then
    (ranked (t.coldScore A) t.cold).take t.salienceSlots
  else
    match t.judgeWc, t.querySig with
    | some wc, _ => (ranked wc t.cold).take t.salienceSlots
    | none, some sig => (ranked (fun ep => agree sig ep.sig) t.cold).take t.salienceSlots
    | none, none => []

def workingSet : List (Stored F) :=
  t.recent ++
    if t.cold.length ≤ t.salienceSlots then t.cold
    else if 0 < t.salienceSlots then t.shortlist A
    else []

/-- The delivery target of a judge that passes: the closest episode of all. -/
def targetContest : Contest (Stored F) F where
  pool := t.keyed
  score := t.score A
  floor := (⊥ : F)
  admits ep := !(trim ep.text).isEmpty

def l5Best : Option (Stored F) :=
  if t.judgeL5 && !t.query.vec.isEmpty then (t.targetContest A).winner else none

def judgeChoice (r : Replies) : Option (Stored F) :=
  let query := trim (t.rawUser.getD [])
  if query.isEmpty then none
  else
    (r.judge.bind ((shuffle query (t.workingSet A))[·]?)).map fun ep => (t.l5Best A).getD ep

/-- The episode a selector chooses for delivery. -/
def choose (r : Replies) : Selector → Option (Stored F)
  | .inline => ((t.dispatch A u r).filter fun d => d.decision == .deliver).map (·.ep)
  | .wc => t.wcContest.winner
  | .jaccard => t.user.bind fun ruser => (t.jaccardContest A u ruser).winner
  | .int2 => t.int2Contest.winner.map Prod.snd
  | .judge => t.judgeChoice A r
  | .spine => t.spineChoice A u

end Stage


/-! ### The spine delivers what it chooses -/

omit [OrderBot F] [OrderTop F] in
theorem headStep_scan (head : LatentHead F) (l : List (Stored F)) :
    l.foldl (headStep head) none =
      (bestAbove head.score head.rejectFloor l).map fun ep => (head.score ep, ep) := by
  -- the running best of both scans: nothing yet, or an episode above the floor
  have hrun : ∀ (l : List (Stored F)) (best : Option (Stored F)),
      (∀ ep ∈ best, head.rejectFloor < head.score ep) →
      l.foldl (headStep head) (best.map fun ep => (head.score ep, ep)) =
        ((l.foldl (bestStep head.score)
          ((best.elim (head.rejectFloor : WithBot F) fun ep => (head.score ep : WithBot F)),
            best)).2).map fun ep => (head.score ep, ep) := by
    intro l
    induction l with
    | nil => intro best _; rfl
    | cons x l ih =>
        intro best hbest
        rw [List.foldl_cons, List.foldl_cons]
        cases best with
        | none =>
            rcases lt_or_ge head.rejectFloor (head.score x) with hx | hx
            · have hstep : headStep head none x = some (head.score x, x) := by
                simp [headStep, hx]
              have hbs : bestStep head.score ((head.rejectFloor : WithBot F), none) x =
                  ((head.score x : WithBot F), some x) := if_pos (WithBot.coe_lt_coe.mpr hx)
              simpa [hstep, hbs] using ih (some x) (by simpa using hx)
            · have hstep : headStep head none x = none := by
                simp [headStep, not_lt.mpr hx]
              have hbs : bestStep head.score ((head.rejectFloor : WithBot F), none) x =
                  ((head.rejectFloor : WithBot F), none) :=
                if_neg (not_lt.mpr (WithBot.coe_le_coe.mpr hx))
              simpa [hstep, hbs] using ih none (by simp)
        | some ep =>
            have hep : head.rejectFloor < head.score ep := hbest ep rfl
            rcases lt_or_ge (head.score ep) (head.score x) with hx | hx
            · have hstep : headStep head (some (head.score ep, ep)) x =
                  some (head.score x, x) := by
                simp [headStep, hx, hep.trans hx]
              have hbs : bestStep head.score ((head.score ep : WithBot F), some ep) x =
                  ((head.score x : WithBot F), some x) := if_pos (WithBot.coe_lt_coe.mpr hx)
              simpa [hstep, hbs] using ih (some x) (by simpa using hep.trans hx)
            · have hstep : headStep head (some (head.score ep, ep)) x =
                  some (head.score ep, ep) := by
                simp [headStep, not_lt.mpr hx]
              have hbs : bestStep head.score ((head.score ep : WithBot F), some ep) x =
                  ((head.score ep : WithBot F), some ep) :=
                if_neg (not_lt.mpr (WithBot.coe_le_coe.mpr hx))
              simpa [hstep, hbs] using ih (some ep) (by simpa using hep)
  exact hrun l none (by simp)

omit [OrderBot F] [OrderTop F] in
/-- What the attribute gate makes of a delivery of the episode's text. -/
theorem AttrGate.refine_deliver (t : Turn F) (ref : EpisodeRef) (framing : Delivery)
    (ep : Episode F) (hep : ref.text = ep.text) :
    (AttrGate.refine A u (t.view u) (.deliver ref framing)).verdict =
      if t.unanswered A u ep then .decline declineMessage else .deliver ref := by
  change LatentDecision.verdict (if (!t.attrGate) = true then _
    else if (t.attrTau.any (· ≤ attrAbsentRatio A u t.user ref.text) &&
      queryHasEntityToken u t.user) = true then _ else _) = _
  rw [hep]
  unfold Turn.unanswered
  cases t.attrGate with
  | false => rfl
  | true =>
      simp only [Bool.not_true, Bool.true_and, Bool.false_eq_true, if_false]
      split <;> rfl

namespace Stage

variable (t : Stage F)

omit [OrderBot F] [OrderTop F] in
theorem headFires_iff (head : LatentHead F) :
    t.headFires head = true ↔ ∃ ep, bestAbove head.score head.rejectFloor t.pool = some ep := by
  simp only [headFires, List.any_eq_true, decide_eq_true_eq]
  obtain ⟨hscan, hlow⟩ | ⟨before, e, after, htop, hfloor, hscan⟩ :=
    bestAbove_scan head.score head.rejectFloor t.pool
  · simp only [bestAbove, hscan]
    constructor
    · rintro ⟨ep, hep, hlt⟩
      exact absurd (WithBot.coe_le_coe.mp (hlow ep hep)) (not_le.mpr hlt)
    · rintro ⟨ep, hep⟩
      cases hep
  · simp only [bestAbove, hscan]
    constructor
    · intro _
      exact ⟨e, rfl⟩
    · intro _
      exact ⟨e, by simp [htop.split], WithBot.coe_lt_coe.mp hfloor⟩

omit [OrderTop F] in
/-- The first closest episode, found by sorting or by a scan. -/
theorem turn_best : t.turn.best A t.turn.keyed =
    (bestAbove (t.score A) ⊥ t.keyed).map Stored.toEpisode := by
  have hkeyed : t.turn.keyed = t.keyed.map Stored.toEpisode := by
    simp only [Turn.keyed, keyed, turn, Inline.toTurn, Inline.pool, ← List.map_append,
      List.filter_map]
    rfl
  rw [Turn.best, hkeyed, ranked_map, List.head?_map, ranked_head?]
  rfl

/-- What a delivered episode is reported as. -/
def spineRef (ep : Stored F) : EpisodeRef :=
  ⟨ep.name, ep.text, A.milli (match t.head with
    | some head => if t.headFires head then max (head.score ep) A.zero else t.score A ep
    | none => t.score A ep)⟩

/-- The spine without a head that fires. -/
theorem turn_spine : t.turn.spine A u =
    if t.turn.asksNothing u then .pass
    else match bestAbove (t.score A) ⊥ t.keyed with
      | none => .pass
      | some ep =>
          if t.tauL5.any (t.score A ep < ·) || t.turn.ambiguous A t.turn.keyed ep.toEpisode then
            .pass
          else if t.turn.unanswered A u ep.toEpisode then .decline declineMessage
          else .deliver ⟨ep.name, ep.text, A.milli (t.score A ep)⟩ := by
  rw [t.turn.spine_eq A u, t.turn_best A]
  split
  case isTrue => rfl
  case isFalse =>
    cases bestAbove (t.score A) ⊥ t.keyed with
    | none => rfl
    | some ep => rfl

theorem l5Choice_deliver (ref : EpisodeRef) :
    t.turn.spine A u = .deliver ref ↔
      ∃ ep, t.l5Choice A u = some ep ∧ ref = ⟨ep.name, ep.text, A.milli (t.score A ep)⟩ := by
  rw [t.turn_spine A u, l5Choice, Contest.winner]
  change _ ↔ ∃ ep, (if t.turn.asksNothing u = true then none
    else (bestAbove (t.score A) ⊥ t.keyed).filter _) = some ep ∧ _
  split
  case isTrue => simp
  case isFalse =>
    cases bestAbove (t.score A) ⊥ t.keyed with
    | none => simp
    | some ep =>
        simp only [Option.filter_some, l5Contest]
        split
        case isTrue hheld => simp [hheld]
        case isFalse hheld =>
          rw [Bool.eq_false_iff.mpr hheld]
          cases t.turn.unanswered A u ep.toEpisode with
          | true => simp
          | false => simp [eq_comm]

theorem spine_deliver_iff (ref : EpisodeRef) :
    t.spine A u = .deliver ref ↔
      ∃ ep, t.spineChoice A u = some ep ∧ ref = t.spineRef A ep := by
  unfold spine buildPipeline spineChoice spineRef
  cases t.head with
  | none => exact t.l5Choice_deliver A u ref
  | some head =>
      have hfold : ∀ d, d.isTerminal = false →
          HeadSelector.refine A head t.pool (t.turn.view u) .pass = d →
          decide (t.turn.view u) (HeadSelector.refine A head t.pool :: livePipeline A u) =
            decideFrom (t.turn.view u) d (livePipeline A u) := by
        rintro d hd rfl
        simp only [decide, decideFrom, LatentDecision.isTerminal, Bool.false_eq_true, if_false]
      change (decide (t.turn.view u)
        (HeadSelector.refine A head t.pool :: livePipeline A u)).verdict = _ ↔ _
      cases hbest : bestAbove head.score head.rejectFloor t.pool with
      | none =>
          have hfires : t.headFires head = false := by
            apply Bool.eq_false_iff.mpr
            rw [Ne, headFires_iff, hbest]
            simp
          have hrefine : HeadSelector.refine A head t.pool (t.turn.view u) .pass = .pass := by
            simp only [HeadSelector.refine, headStep_scan, hbest, Option.map_none]
          rw [hfold .pass rfl hrefine]
          simp only [hfires, Bool.false_eq_true, if_false]
          exact t.l5Choice_deliver A u ref
      | some ep =>
          have hfires : t.headFires head = true := (t.headFires_iff head).mpr ⟨ep, hbest⟩
          have hrefine : HeadSelector.refine A head t.pool (t.turn.view u) .pass =
              .deliver ⟨ep.name, ep.text, A.milli (max (head.score ep) A.zero)⟩ t.framing := by
            simp only [HeadSelector.refine, headStep_scan, hbest, Option.map_some]
            rfl
          rw [hfold _ rfl hrefine]
          simp only [hfires, if_true]
          have hgate := AttrGate.refine_deliver A u t.turn
            ⟨ep.name, ep.text, A.milli (max (head.score ep) A.zero)⟩ t.framing ep.toEpisode rfl
          have hlive : ∀ ref, decideFrom (t.turn.view u) (.deliver ref t.framing) (livePipeline A u) =
              AttrGate.refine A u (t.turn.view u) (.deliver ref t.framing) := by
            intro ref
            simp only [livePipeline, decideFrom, LatentDecision.isTerminal, L5Recall.refine,
              Bool.false_eq_true, if_false]
          rw [hlive, hgate, Contest.winner]
          change _ ↔ ∃ ep', (bestAbove head.score head.rejectFloor t.pool).filter _ = some ep' ∧ _
          rw [hbest]
          simp only [Option.filter_some, headContest]
          cases t.turn.unanswered A u ep.toEpisode with
          | true => simp
          | false => simp [eq_comm]

end Stage

end ShannonPrime.Recall
