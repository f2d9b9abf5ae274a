import Mathlib.Algebra.Ring.Int.Defs
import Mathlib.Algebra.Order.Monoid.Unbundled.WithTop
import Mathlib.Data.Int.Order.Basic
import ShannonPrime.Lib.Ranking
import ShannonPrime.Recall.Text

/-!
The recall decision, made twice in the daemon: by the spine's live pipeline (a
fold of deciders over a view) and by the recall branch written inline in the chat
route. Both are translated here on the same inputs, with the rewriting, rerank,
strict and per-entry policy options off.

The order `F` stands for the `f32` values other than NaN; `⊥` and `⊤` are the
infinities. A threshold read from the environment may be NaN (`none`), and no
comparison with it holds.
-/

namespace ShannonPrime.Recall

open Ranking

/-- The head dimension of the global layers. -/
def HD : Nat := 512

/-- The `f32` operations the order says nothing about. -/
structure Arith (F : Type) where
  zero : F
  sub : F → F → F
  /-- `a as f32 / b as f32` -/
  ratio : Nat → Nat → F
  /-- The cosine of two vectors of one length. -/
  cosine : List F → List F → F
  /-- `(x * 1000.0) as u32` -/
  milli : F → Nat

structure Episode (F : Type) where
  name : String
  text : List Char
  l5key : List F
  /-- 0 is active, 1 is superseded. -/
  lifecycle : Nat
  deriving DecidableEq

inductive Delivery where
  | systemEcho | system | sandwich | factEcho | recite
  deriving DecidableEq

structure EpisodeRef where
  name : String
  text : List Char
  scoreMilli : Nat
  deriving DecidableEq

inductive LatentDecision where
  | pass
  | deliver (episode : EpisodeRef) (framing : Delivery)
  | decline (message : String)
  | route (target : Nat)
  deriving DecidableEq

def LatentDecision.isTerminal : LatentDecision → Bool
  | .decline _ => true
  | .route _ => true
  | _ => false

/-- What the chat turn does about recall. -/
inductive Verdict where
  | pass
  | deliver (episode : EpisodeRef)
  | decline (message : String)
  deriving DecidableEq

/-- The executor treats a `Route` that reaches it as `Pass`. -/
def LatentDecision.verdict : LatentDecision → Verdict
  | .pass => .pass
  | .deliver episode _ => .deliver episode
  | .decline message => .decline message
  | .route _ => .pass

def declineMessage : String :=
  "I have a record for that entity, but it does not include that specific detail."

/-- The live query's embedding: `l5_query_embed` gives `HD` numbers, or none when
the read failed. -/
structure L5Query (F : Type) where
  vec : List F
  sized : vec = [] ∨ vec.length = HD

/-- What a chat turn's recall depends on: the user's text, the query read from the
cache, the episodes and the settings. -/
structure Turn (F : Type) where
  rawUser : Option (List Char)
  query : L5Query F
  registry : List (Episode F)
  nightshift : List (Episode F)
  qonly : Bool
  tauL5 : Option F
  tauMargin : Option F
  attrTau : Option F
  attrGate : Bool
  audit : Bool
  framing : Delivery

structure LatentView (F : Type) where
  rawUser : List Char
  l5Query : List F
  registry : List (Episode F)
  nightshift : List (Episode F)
  interrogative : Bool
  qonly : Bool
  tauL5 : Option F
  tauMargin : Option F
  attrTau : Option F
  attrGate : Bool
  framing : Delivery

def LatentView.candidates {F : Type} (view : LatentView F) : List (Episode F) :=
  view.registry ++ view.nightshift

abbrev Decider (F : Type) := LatentView F → LatentDecision → LatentDecision

variable {F : Type} [LinearOrder F] [OrderBot F] [OrderTop F]
variable (A : Arith F) (u : Unicode)

def cos512 (a b : List F) : F :=
  if a.length ≠ b.length ∨ a = [] then ⊥ else A.cosine a b

def attrAbsentRatio (query fact : List Char) : F :=
  if (salient u query).isEmpty then A.zero
  else A.ratio (absentWords u query fact).length (salient u query).length

/-- `if second.is_finite() { best - second } else { INFINITY }`. -/
def marginOf (best second : F) : F :=
  if second ≠ ⊥ ∧ second ≠ ⊤ then A.sub best second else ⊤

/-- `tau_margin > 0.0 && margin < tau_margin`. -/
def marginSkips (tauMargin : Option F) (margin : F) : Bool :=
  tauMargin.any fun t => A.zero < t && margin < t

/-! ### The spine -/

def l5Scan (view : LatentView F) (state : Option (F × Episode F) × F) (ep : Episode F) :
    Option (F × Episode F) × F :=
  if ep.l5key.length ≠ HD then state
  else scanStep (fun ep => cos512 A view.l5Query ep.l5key) state ep

def L5Recall.refine : Decider F := fun view current =>
  match current with
  | .pass =>
      if view.qonly && !view.interrogative then current
      else if view.l5Query.length ≠ HD then current
      else
        match view.candidates.foldl (l5Scan A view) (none, ⊥) with
        | (none, _) => current
        | (some (bcos, ep), second) =>
            if view.tauL5.any (bcos < ·) then current
            else if marginSkips A view.tauMargin (marginOf A bcos second) then current
            else .deliver ⟨ep.name, ep.text, A.milli bcos⟩ view.framing
  | _ => current

def AttrGate.refine : Decider F := fun view current =>
  if !view.attrGate then current
  else
    match current with
    | .deliver episode _ =>
        let absent := attrAbsentRatio A u view.rawUser episode.text
        if view.attrTau.any (· ≤ absent) && queryHasEntityToken u view.rawUser then
          .decline declineMessage
        else current
    | _ => current

def livePipeline : List (Decider F) := [L5Recall.refine A, AttrGate.refine A u]

/-- The fold over the deciders, which stops at a terminal decision. -/
def decideFrom (view : LatentView F) : LatentDecision → List (Decider F) → LatentDecision
  | decision, [] => decision
  | decision, d :: deciders =>
      if decision.isTerminal then decision
      else decideFrom view (d view decision) deciders

def decide (view : LatentView F) (deciders : List (Decider F)) : LatentDecision :=
  decideFrom view .pass deciders

/-- The view the chat route builds for the spine. -/
def Turn.view (t : Turn F) : LatentView F :=
  let ruser := t.rawUser.getD []
  { rawUser := ruser
    l5Query := t.query.vec
    registry := t.registry
    nightshift := t.nightshift
    interrogative := isInterrogative u ruser
    qonly := t.qonly
    tauL5 := t.tauL5
    tauMargin := t.tauMargin
    attrTau := t.attrTau
    attrGate := t.attrGate
    framing := t.framing }

def Turn.spine (t : Turn F) : Verdict := (decide (t.view u) (livePipeline A u)).verdict

/-! ### The inline branch -/

/-- `SP_RECALL_AUDIT` keeps the superseded episodes. -/
def Turn.active (t : Turn F) (ep : Episode F) : Bool := ep.lifecycle == 0 || t.audit

def Turn.scored (t : Turn F) : List (F × String × List Char) :=
  (((t.registry ++ t.nightshift).filter fun ep => ep.l5key.length == HD).filter t.active).map
    fun ep => (cos512 A t.query.vec ep.l5key, ep.name, ep.text)

def Turn.inline (t : Turn F) : Verdict :=
  match (t.rawUser.map trim).filter fun s => !s.isEmpty with
  | none => .pass
  | some ruser =>
      if t.qonly && !isInterrogative u ruser then .pass
      else if t.query.vec.isEmpty then .pass
      else
        let scored := ranked Prod.fst (t.scored A)
        let (bcos, bname, btext) := scored.head?.getD (⊥, "", [])
        let bcos2 := (scored.tail.head?.map Prod.fst).getD ⊥
        let margin := marginOf A bcos bcos2
        if t.tauL5.any (· ≤ bcos) && !btext.isEmpty then
          let absent := if t.attrGate then attrAbsentRatio A u ruser btext else A.zero
          if t.attrGate && t.attrTau.any (· ≤ absent) && queryHasEntityToken u ruser then
            .decline declineMessage
          else if marginSkips A t.tauMargin margin then .pass
          else .deliver ⟨bname, btext, A.milli bcos⟩
        else .pass

/-! ### What the two decisions turn on -/

namespace Turn

variable (t : Turn F)

/-- The user's text as the spine sees it. -/
def user (t : Turn F) : List Char := t.rawUser.getD []

def score (ep : Episode F) : F := cos512 A t.query.vec ep.l5key

/-- The spine's candidates. -/
def keyed (t : Turn F) : List (Episode F) :=
  (t.registry ++ t.nightshift).filter fun ep => ep.l5key.length == HD

/-- The inline branch's candidates. -/
def live (t : Turn F) : List (Episode F) := t.keyed.filter t.active

/-- The first candidate of greatest score. -/
def best (pool : List (Episode F)) : Option (Episode F) := (ranked (t.score A) pool).head?

/-- The second greatest score. -/
def runnerUp (pool : List (Episode F)) : F :=
  ((ranked (t.score A) pool).tail.head?.map (t.score A)).getD ⊥

/-- The margin gate holds the pool's best candidate back. -/
def ambiguous (pool : List (Episode F)) (ep : Episode F) : Bool :=
  marginSkips A t.tauMargin (marginOf A (t.score A ep) (t.runnerUp A pool))

/-- The attribute gate: the user names an entity and asks for what the episode does
not state. -/
def unanswered (ep : Episode F) : Bool :=
  t.attrGate && (t.attrTau.any (· ≤ attrAbsentRatio A u t.user ep.text) &&
    queryHasEntityToken u t.user)

/-- Both stages pass without looking at a candidate. -/
def asksNothing (t : Turn F) : Bool :=
  (t.qonly && !isInterrogative u t.user) || t.query.vec.isEmpty

def ref (ep : Episode F) : EpisodeRef := ⟨ep.name, ep.text, A.milli (t.score A ep)⟩

end Turn

omit [OrderTop F] in
theorem Turn.best_nil (t : Turn F) : t.best A [] = none := rfl

omit [OrderTop F] in
theorem Turn.best_topTwo (t : Turn F) {pool : List (Episode F)} (hpool : pool ≠ []) :
    ∃ e, t.best A pool = some e ∧ TopTwo (t.score A) pool e (t.runnerUp A pool) := by
  obtain ⟨e, rest, hranked, htop⟩ := ranked_topTwo (t.score A) pool hpool
  refine ⟨e, by simp [best, hranked], ?_⟩
  simpa [runnerUp, hranked] using htop

omit [OrderTop F] in
/-- An active best candidate is also the best of the active ones. -/
theorem Turn.best_live (t : Turn F) {e : Episode F} (hbest : t.best A t.keyed = some e)
    (hactive : t.active e = true) : t.best A t.live = some e := by
  have hkeyed : t.keyed ≠ [] := by
    intro hnil
    rw [hnil, best_nil] at hbest
    cases hbest
  obtain ⟨e', he', htop⟩ := t.best_topTwo A hkeyed
  obtain rfl : e = e' := Option.some.inj (hbest.symm.trans he')
  obtain ⟨s, hlive⟩ := htop.filter hactive
  obtain ⟨e', he', htop'⟩ := t.best_topTwo A (List.ne_nil_of_mem hlive.mem)
  rw [Turn.live, he', (htop'.unique hlive).1]

omit [OrderTop F] in
theorem Turn.scored_map (t : Turn F) :
    t.scored A = t.live.map fun ep => (t.score A ep, ep.name, ep.text) := rfl

omit [OrderTop F] in
theorem Turn.foldl_l5Scan (t : Turn F) (state : Option (F × Episode F) × F) :
    (t.view u).candidates.foldl (l5Scan A (t.view u)) state =
      t.keyed.foldl (scanStep (t.score A)) state := by
  rw [Turn.keyed, List.foldl_filter]
  congr 1
  funext state ep
  simp only [l5Scan, beq_iff_eq, ite_not]
  rfl

theorem Turn.l5Recall_refine (t : Turn F) :
    L5Recall.refine A (t.view u) .pass =
      if t.asksNothing u then .pass
      else match t.best A t.keyed with
        | none => .pass
        | some e =>
            if t.tauL5.any (t.score A e < ·) || t.ambiguous A t.keyed e then .pass
            else .deliver (t.ref A e) t.framing := by
  have hquery : t.query.vec.isEmpty = true ↔ t.query.vec.length ≠ HD := by
    rcases t.query.sized with hnil | hlen
    · simp [hnil, HD]
    · have hne : t.query.vec ≠ [] := by
        intro hnil
        simp [hnil, HD] at hlen
      simp [hlen, hne]
  unfold L5Recall.refine
  rw [t.foldl_l5Scan A u]
  change (if (t.qonly && !isInterrogative u t.user) = true then _
    else if t.query.vec.length ≠ HD then _ else _) = _
  by_cases hskip : (t.qonly && !isInterrogative u t.user) = true
  · simp [asksNothing, hskip]
  by_cases hlen : t.query.vec.length ≠ HD
  · simp [asksNothing, hquery.mpr hlen, hlen]
  have hasks : t.asksNothing u = false := by
    rw [← hquery] at hlen
    simp only [asksNothing, Bool.eq_false_iff.mpr hskip, Bool.eq_false_iff.mpr hlen,
      Bool.or_false]
  rw [if_neg hskip, if_neg hlen, hasks, if_neg (by simp)]
  rcases eq_or_ne t.keyed [] with hnil | hne
  · rw [hnil]
    rfl
  · obtain ⟨e, s, hscan, htop⟩ := scan_topTwo (t.score A) t.keyed hne
    obtain ⟨e', hbest, htop'⟩ := t.best_topTwo A hne
    obtain ⟨rfl, rfl⟩ := htop.unique htop'
    rw [hscan, hbest]
    change (if t.tauL5.any (t.score A e < ·) = true then _
      else if t.ambiguous A t.keyed e = true then _ else _) = _
    by_cases hbelow : t.tauL5.any (t.score A e < ·) = true
    · simp [hbelow]
    · by_cases hambiguous : t.ambiguous A t.keyed e = true
      · simp [hambiguous]
      · simp only [hbelow, hambiguous, Bool.or_self, if_false, Bool.false_eq_true]
        rfl

/-- The spine's decision in these terms. -/
theorem Turn.spine_eq (t : Turn F) :
    t.spine A u =
      if t.asksNothing u then .pass
      else match t.best A t.keyed with
        | none => .pass
        | some e =>
            if t.tauL5.any (t.score A e < ·) || t.ambiguous A t.keyed e then .pass
            else if t.unanswered A u e then .decline declineMessage
            else .deliver (t.ref A e) := by
  have hpass : AttrGate.refine A u (t.view u) .pass = .pass := by
    simp [AttrGate.refine]
  have hdeliver : ∀ e, (AttrGate.refine A u (t.view u) (.deliver (t.ref A e) t.framing)).verdict =
      if t.unanswered A u e then .decline declineMessage else .deliver (t.ref A e) := by
    intro e
    change LatentDecision.verdict (if (!t.attrGate) = true then _
      else if (t.attrTau.any (· ≤ attrAbsentRatio A u t.user e.text) &&
        queryHasEntityToken u t.user) = true then _ else _) = _
    unfold unanswered
    cases t.attrGate with
    | false => rfl
    | true =>
        simp only [Bool.not_true, Bool.true_and, Bool.false_eq_true, if_false]
        split <;> rfl
  have hfold : ∀ d, d.isTerminal = false → L5Recall.refine A (t.view u) .pass = d →
      t.spine A u = (AttrGate.refine A u (t.view u) d).verdict := by
    rintro d hd rfl
    simp only [spine, decide, livePipeline, decideFrom, hd, if_false, Bool.false_eq_true]
    rfl
  have hrecall := t.l5Recall_refine A u
  split at hrecall
  case isTrue hasks => rw [hfold .pass rfl hrecall, hpass, if_pos hasks, LatentDecision.verdict]
  case isFalse hasks =>
    rw [if_neg hasks]
    cases hbest : t.best A t.keyed with
    | none =>
        rw [hbest] at hrecall
        rw [hfold .pass rfl hrecall, hpass, LatentDecision.verdict]
    | some e =>
        rw [hbest] at hrecall
        dsimp only at hrecall ⊢
        split at hrecall
        case isTrue hheld =>
          rw [hfold .pass rfl hrecall, hpass, if_pos hheld, LatentDecision.verdict]
        case isFalse hheld => rw [hfold _ rfl hrecall, hdeliver, if_neg hheld]

omit [OrderTop F] in
/-- The inline branch's sorted list starts with the best active candidate. -/
theorem Turn.scored_ranked (t : Turn F) (hlive : t.live ≠ []) :
    ∃ e, t.best A t.live = some e ∧
      (ranked Prod.fst (t.scored A)).head? = some (t.score A e, e.name, e.text) ∧
      ((ranked Prod.fst (t.scored A)).tail.head?.map Prod.fst).getD ⊥ = t.runnerUp A t.live := by
  obtain ⟨e, hbest, htop⟩ := t.best_topTwo A hlive
  have hmap : TopTwo Prod.fst (t.scored A) (t.score A e, e.name, e.text)
      (t.runnerUp A t.live) :=
    TopTwo.map (fun ep : Episode F => (t.score A ep, ep.name, ep.text)) htop
  obtain ⟨first, rest, hranked, hfirst⟩ :=
    ranked_topTwo Prod.fst (t.scored A) (List.ne_nil_of_mem hmap.mem)
  obtain ⟨rfl, hsecond⟩ := hfirst.unique hmap
  exact ⟨e, hbest, by rw [hranked]; rfl, by rw [hranked]; exact hsecond⟩

/-- The inline branch's decision in these terms. -/
theorem Turn.inline_eq (t : Turn F) :
    t.inline A u =
      if (trim t.user).isEmpty || t.asksNothing u then .pass
      else match t.best A t.live with
        | none => .pass
        | some e =>
            if t.tauL5.any (· ≤ t.score A e) && !e.text.isEmpty then
              if t.unanswered A u e then .decline declineMessage
              else if t.ambiguous A t.live e then .pass
              else .deliver (t.ref A e)
            else .pass := by
  unfold inline
  cases hraw : t.rawUser with
  | none => simp [user, hraw, trim]
  | some raw =>
      have huser : t.user = raw := by simp [user, hraw]
      by_cases hblank : (trim raw).isEmpty = true
      · simp [huser, hblank, Option.filter]
      have hfilter : (Option.map trim (some raw)).filter (fun s => !s.isEmpty) =
          some (trim raw) := by
        simp [Option.filter, hblank]
      rw [hfilter, huser]
      simp only [isInterrogative_trim, queryHasEntityToken_trim]
      have habsent : ∀ fact, attrAbsentRatio A u (trim raw) fact = attrAbsentRatio A u raw fact := by
        intro fact
        simp only [attrAbsentRatio, salient_trim, absentWords_trim]
      simp only [habsent]
      by_cases hskip : (t.qonly && !isInterrogative u raw) = true
      · simp [asksNothing, huser, hskip]
      by_cases hquery : t.query.vec.isEmpty = true
      · simp only [asksNothing, hquery, Bool.or_true, if_true, ite_self]
      have hasks : ((trim raw).isEmpty || t.asksNothing u) = false := by
        simp only [asksNothing, huser, Bool.eq_false_iff.mpr hblank, Bool.eq_false_iff.mpr hskip,
          Bool.eq_false_iff.mpr hquery, Bool.or_self]
      rw [if_neg hskip, if_neg hquery]
      simp only [hasks, Bool.false_eq_true, if_false]
      rcases eq_or_ne t.live [] with hnil | hne
      · have hscored : t.scored A = [] := by rw [scored_map, hnil, List.map_nil]
        rw [hscored, hnil, best_nil]
        simp [ranked]
      · obtain ⟨e, hbest, hhead, hsecond⟩ := t.scored_ranked A hne
        rw [hbest]
        simp only [hhead, hsecond, Option.getD_some]
        have hforce : (t.attrGate && t.attrTau.any
            (· ≤ if t.attrGate then attrAbsentRatio A u raw e.text else A.zero) &&
              queryHasEntityToken u raw) = t.unanswered A u e := by
          unfold unanswered
          rw [huser]
          cases t.attrGate with
          | false => rfl
          | true => simp
        simp only [hforce]
        rfl

/-- The spine recalls its best candidate `e`. -/
def Turn.clears (t : Turn F) (e : Episode F) : Bool :=
  !(t.tauL5.any (t.score A e < ·) || t.ambiguous A t.keyed e)

/-- The inline branch recalls its best candidate `e`: there is a user text, the
threshold is a number that the score reaches, the episode has a text, and either
the attribute gate declines or the margin among the active episodes is wide. -/
def Turn.answers (t : Turn F) (e : Episode F) : Bool :=
  !(trim t.user).isEmpty && (t.tauL5.any (· ≤ t.score A e) && !e.text.isEmpty) &&
    (t.unanswered A u e || !t.ambiguous A t.live e)

/-- Two candidates give one answer: both are declined, or both are delivered with one
name, text and score. -/
def Turn.SameRecall (t : Turn F) (e e' : Episode F) : Prop :=
  t.unanswered A u e = t.unanswered A u e' ∧
    (t.unanswered A u e = true ∨ t.ref A e = t.ref A e')

/-- Where the two decisions agree. -/
def Turn.Concurs (t : Turn F) : Prop :=
  t.asksNothing u = true ∨ ∀ e, t.best A t.keyed = some e →
    if t.active e = true then
      t.tauL5.any (t.score A e < ·) = false →
        (t.ambiguous A t.keyed e = false ↔
          trim t.user ≠ [] ∧ t.tauL5 ≠ none ∧ e.text ≠ [] ∧
            (t.unanswered A u e = true ∨ t.ambiguous A t.live e = false))
    else match t.best A t.live with
      | none => t.clears A e = false
      | some e' => t.clears A e = t.answers A u e' ∧
          (t.clears A e = true → t.SameRecall A u e e')

omit [OrderTop F] in
/-- A best candidate that is not below the threshold reaches it unless it is NaN. -/
theorem Turn.reached_iff (t : Turn F) (e : Episode F)
    (h : t.tauL5.any (t.score A e < ·) = false) :
    t.tauL5.any (· ≤ t.score A e) = true ↔ t.tauL5 ≠ none := by
  cases htau : t.tauL5 with
  | none => simp
  | some tau => simpa [htau] using h

omit [OrderTop F] in
theorem Turn.reached_false (t : Turn F) (e : Episode F)
    (h : t.tauL5.any (t.score A e < ·) = true) : t.tauL5.any (· ≤ t.score A e) = false := by
  cases htau : t.tauL5 with
  | none => simp
  | some tau => simpa [htau] using h

/-- What a turn that recalls `e` does. -/
def Turn.recite (t : Turn F) (e : Episode F) : Verdict :=
  if t.unanswered A u e then .decline declineMessage else .deliver (t.ref A e)

omit [OrderTop F] in
theorem Turn.recite_ne_pass (t : Turn F) (e : Episode F) : t.recite A u e ≠ .pass := by
  unfold recite
  split <;> simp

omit [OrderTop F] in
theorem Turn.sameRecall_iff (t : Turn F) (e e' : Episode F) :
    t.recite A u e = t.recite A u e' ↔ t.SameRecall A u e e' := by
  unfold recite SameRecall
  cases t.unanswered A u e <;> cases t.unanswered A u e' <;> simp

theorem Turn.spine_best (t : Turn F) {e : Episode F} (hasks : t.asksNothing u = false)
    (hbest : t.best A t.keyed = some e) :
    t.spine A u = if t.clears A e then t.recite A u e else .pass := by
  rw [spine_eq, hasks, hbest]
  by_cases hheld : (t.tauL5.any (t.score A e < ·) || t.ambiguous A t.keyed e) = true
  · simp only [Bool.false_eq_true, if_false, clears, hheld, if_true, Bool.not_true]
  · simp only [Bool.false_eq_true, if_false, clears, hheld, Bool.not_false, if_true, recite]

theorem Turn.inline_best (t : Turn F) {e : Episode F} (hasks : t.asksNothing u = false)
    (hbest : t.best A t.live = some e) :
    t.inline A u = if t.answers A u e then t.recite A u e else .pass := by
  rw [inline_eq, hasks, hbest, Bool.or_false]
  by_cases hblank : (trim t.user).isEmpty = true
  · simp only [answers, hblank, if_true, Bool.not_true, Bool.false_and, Bool.false_eq_true,
      if_false]
  by_cases hreached : (t.tauL5.any (· ≤ t.score A e) && !e.text.isEmpty) = true
  · by_cases hforce : t.unanswered A u e = true
    · simp [answers, recite, hblank, hreached, hforce]
    · by_cases hheld : t.ambiguous A t.live e = true
      · simp [answers, hblank, hreached, hforce, hheld]
      · simp [answers, recite, hblank, hreached, hforce, hheld]
  · simp only [answers, hblank, hreached, if_false, Bool.and_false, Bool.false_and,
      Bool.false_eq_true]

/-- Two stages that recall or pass agree when both pass, or both recall the same. -/
theorem recall_or_pass_eq_iff {c a : Bool} {r r' : Verdict} (hr : r ≠ .pass) (hr' : r' ≠ .pass) :
    (if c then r else .pass) = (if a then r' else .pass) ↔ c = a ∧ (c = true → r = r') := by
  cases c <;> cases a <;> simp [hr, hr'.symm]

/-- With an active best candidate both stages look at that candidate, through
different gates. -/
theorem Turn.clears_eq_answers_iff (t : Turn F) (e : Episode F) :
    t.clears A e = t.answers A u e ↔
      (t.tauL5.any (t.score A e < ·) = false →
        (t.ambiguous A t.keyed e = false ↔
          trim t.user ≠ [] ∧ t.tauL5 ≠ none ∧ e.text ≠ [] ∧
            (t.unanswered A u e = true ∨ t.ambiguous A t.live e = false))) := by
  unfold clears answers
  cases hbelow : t.tauL5.any (t.score A e < ·) with
  | true => simp [t.reached_false A e hbelow]
  | false =>
      rw [← t.reached_iff A e hbelow, Bool.eq_iff_iff]
      simp only [Bool.false_or, Bool.not_eq_true', Bool.and_eq_true, Bool.or_eq_true,
        List.isEmpty_eq_false_iff, true_implies, ne_eq, and_assoc]

/-- The spine and the inline branch decide alike on exactly the turns of `Concurs`:
those that look at no candidate, those whose best candidate is active and passes the
gates of both or of neither, and those whose best candidate is superseded without
that making a difference. -/
theorem spine_eq_inline_iff (t : Turn F) : t.spine A u = t.inline A u ↔ t.Concurs A u := by
  unfold Turn.Concurs
  cases hasks : t.asksNothing u with
  | true => simp [t.spine_eq A u, t.inline_eq A u, hasks]
  | false =>
      simp only [Bool.false_eq_true, false_or]
      cases hbest : t.best A t.keyed with
      | none =>
          have hlive : t.live = [] := by
            by_contra hne
            obtain ⟨e, he⟩ := List.exists_mem_of_ne_nil _ hne
            have hkeyed := List.ne_nil_of_mem (List.mem_of_mem_filter he)
            obtain ⟨e', he', _⟩ := t.best_topTwo A hkeyed
            rw [hbest] at he'
            cases he'
          simp [t.spine_eq A u, t.inline_eq A u, hasks, hbest, hlive, t.best_nil A]
      | some e =>
          rw [t.spine_best A u hasks hbest]
          simp only [Option.some.injEq, forall_eq']
          by_cases hactive : t.active e = true
          · rw [if_pos hactive, t.inline_best A u hasks (t.best_live A hbest hactive),
              recall_or_pass_eq_iff (t.recite_ne_pass A u e) (t.recite_ne_pass A u e),
              t.clears_eq_answers_iff A u e]
            simp
          · rw [if_neg hactive]
            cases hlive : t.best A t.live with
            | none =>
                have hpass : t.inline A u = .pass := by
                  simp [t.inline_eq A u, hlive]
                rw [hpass]
                simp [t.recite_ne_pass A u e]
            | some e' =>
                rw [t.inline_best A u hasks hlive,
                  recall_or_pass_eq_iff (t.recite_ne_pass A u e) (t.recite_ne_pass A u e'),
                  t.sameRecall_iff]

/-! ### A superseded record -/

/-- Texts of ASCII characters. -/
def asciiText : Unicode where
  isAlphanumeric c :=
    isAsciiDigit c || (0x41 ≤ c.toNat && c.toNat ≤ 0x5A) || (0x61 ≤ c.toNat && c.toNat ≤ 0x7A)
  toLowercase s := s.map fun c =>
    if 0x41 ≤ c.toNat && c.toNat ≤ 0x5A then Char.ofNat (c.toNat + 0x20) else c
  white_not_alphanumeric c hc := by
    simp only [isWhitespace, isAsciiDigit, Bool.or_eq_true, Bool.and_eq_true, decide_eq_true_eq,
      beq_iff_eq, Bool.or_eq_false_iff, Bool.and_eq_false_iff, decide_eq_false_iff_not] at hc ⊢
    omega
  toLowercase_white a w b hw := by
    have hcase : ¬(0x41 ≤ w.toNat ∧ w.toNat ≤ 0x5A) := by
      simp only [isWhitespace, Bool.or_eq_true, Bool.and_eq_true, decide_eq_true_eq,
        beq_iff_eq] at hw
      omega
    simp [hcase]
  toLowercase_nil := rfl

/-- Thousandths with infinities; the cosine of unit vectors that are equal or
orthogonal. -/
def thousandths : Arith (WithBot (WithTop Int)) where
  zero := 0
  sub a b := match a, b with
    | some (some x), some (some y) => some (some (x - y))
    | _, _ => ⊤
  ratio a b := some (some ((1000 * a / b : Nat) : Int))
  cosine a b := if a = b then some (some 1000) else 0
  milli x := match x with
    | some (some x) => x.toNat
    | _ => 0

/-- A query that two records match: the superseded one and the one that replaced
it. -/
def supersededTurn : Turn (WithBot (WithTop Int)) where
  rawUser := some "what is the code?".toList
  query := ⟨List.replicate HD 1, .inr (List.length_replicate ..)⟩
  registry :=
    [⟨"old", "the code is 1111".toList, List.replicate HD 1, 1⟩,
      ⟨"new", "the code is 2222".toList, List.replicate HD 1, 0⟩]
  nightshift := []
  qonly := true
  tauL5 := some (some (some 300))
  tauMargin := some 0
  attrTau := some (some (some 500))
  attrGate := true
  audit := false
  framing := .systemEcho

/-- The spine delivers the superseded record, the inline branch its replacement. -/
theorem supersededTurn_verdicts :
    supersededTurn.spine thousandths asciiText =
        .deliver ⟨"old", "the code is 1111".toList, 1000⟩ ∧
      supersededTurn.inline thousandths asciiText =
        .deliver ⟨"new", "the code is 2222".toList, 1000⟩ := by
  decide +kernel

theorem superseded_spine_ne_inline :
    ¬ ∀ t : Turn (WithBot (WithTop Int)), t.spine thousandths asciiText =
      t.inline thousandths asciiText := by
  intro h
  have hold := supersededTurn_verdicts.1
  rw [h supersededTurn, supersededTurn_verdicts.2] at hold
  exact absurd hold (by decide)

end ShannonPrime.Recall
