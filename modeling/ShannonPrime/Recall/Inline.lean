import ShannonPrime.Memory.Store

/-!
The recall branch written inline in the chat route, with all of its options: the two
side passes that may move the choice away from the closest episode (the rewrite of the
query and the rerank of the first three), and the policy stored with an episode, which
may take the place of the settings. What the model answers in a side pass is an input.
With the options off this is the branch of the recall decision.
-/

namespace ShannonPrime.Recall

open Ranking

/-- An episode with what governs its delivery. -/
structure Stored (F : Type) extends Episode F where
  sig : Memory.Sig
  policy : Option Memory.MemPolicy
  deriving DecidableEq

/-- What the model answers in the side passes of a turn; none when the pass fails. -/
structure Replies where
  canon : Option (List Char)
  /-- The letter named, counted from A. -/
  rerank : Option Nat
  /-- The slot of the tag named. -/
  judge : Option Nat

structure Inline (F : Type) where
  rawUser : Option (List Char)
  query : L5Query F
  registry : List (Stored F)
  nightshift : List (Stored F)
  qonly : Bool
  tauL5 : Option F
  tauMargin : Option F
  attrTau : Option F
  attrGate : Bool
  audit : Bool
  canonEps : Option F
  rerankEps : Option F
  memPolicy : Bool
  /-- `SP_RECALL_L5_PROMPT` -/
  prompt : List Char

inductive Decision where
  | decline (message : List Char)
  | marginSkip
  | deliver
  deriving DecidableEq

/-- The episode that came through the threshold, and what is done with it. -/
structure Dispatch (F : Type) where
  cos : F
  margin : F
  ep : Stored F
  policy : Option Memory.MemPolicy
  decision : Decision
  deriving DecidableEq

/-! ### Canonical names -/

def canonStop : List (List Char) :=
  ["the", "is", "are", "was", "were", "what", "which", "who", "whom", "whose",
    "of", "for", "and", "or", "does", "do", "did", "how", "many", "much", "that",
    "this", "its", "with", "by", "from", "have", "has", "had", "been", "be",
    "as", "not", "now", "question", "rewritten", "reply", "answer"].map String.toList

/-- `canon.trim().lines().next().unwrap_or("").trim()` -/
def canonName (reply : List Char) : List Char := trim ((trim reply).takeWhile (· ≠ '\n'))

section Canon

variable (u : Unicode)

def canonToks (s : List Char) : List (List Char) :=
  (words u (u.toLowercase s)).filter fun w => 3 ≤ byteLen w

def canonOverlap (canon fact : List Char) : Nat :=
  ((canonToks u canon).filter fun w => !canonStop.contains w).countP fun w =>
    (canonToks u fact).any fun f =>
      f == w || (4 ≤ byteLen w && w.isPrefixOf f) || (4 ≤ byteLen f && f.isPrefixOf w)

end Canon

/-! ### The shuffle -/

def xorshift (seed : UInt64) : UInt64 :=
  let seed := seed ^^^ (seed <<< 13)
  let seed := seed ^^^ (seed >>> 7)
  seed ^^^ (seed <<< 17)

/-- The FNV-1a hash of the query's bytes, which seeds the shuffle. -/
def querySeed (query : List Char) : UInt64 :=
  let seed := (query.flatMap String.utf8EncodeChar).foldl
    (fun seed b => (seed ^^^ b.toUInt64) * 0x100000001b3) 0xcbf29ce484222325
  if seed = 0 then 0x9e3779b97f4a7c15 else seed

def swapAt {α : Type} (l : List α) (i j : Nat) : List α :=
  match l[i]?, l[j]? with
  | some a, some b => (l.set i b).set j a
  | _, _ => l

/-- Fisher–Yates from index `i` down to 1. -/
def shuffleFrom {α : Type} : Nat → UInt64 → List α → List α
  | 0, _, l => l
  | i + 1, seed, l =>
      let r := xorshift seed
      shuffleFrom i r (swapAt l (i + 1) (r.toNat % (i + 2)))

def shuffle {α : Type} (query : List Char) (l : List α) : List α :=
  shuffleFrom (l.length - 1) (querySeed query) l

theorem swapAt_perm {α : Type} (l : List α) (i j : Nat) : (swapAt l i j).Perm l := by
  unfold swapAt
  split
  case h_1 a b ha hb =>
    obtain ⟨hi, rfl⟩ := List.getElem?_eq_some_iff.mp ha
    obtain ⟨hj, rfl⟩ := List.getElem?_eq_some_iff.mp hb
    exact List.set_set_perm hi hj
  case h_2 => rfl

theorem shuffleFrom_perm {α : Type} (i : Nat) (seed : UInt64) (l : List α) :
    (shuffleFrom i seed l).Perm l := by
  induction i generalizing seed l with
  | zero => rfl
  | succ i ih => exact (ih _ _).trans (swapAt_perm _ _ _)

theorem shuffle_perm {α : Type} (query : List Char) (l : List α) : (shuffle query l).Perm l :=
  shuffleFrom_perm _ _ l

/-! ### The branch -/

variable {F : Type} [LinearOrder F] [OrderBot F] [OrderTop F]
variable (A : Arith F) (u : Unicode)

namespace Inline

variable (t : Inline F)

/-- The registry and the nightshift episodes, in the order they are read. -/
def pool (t : Inline F) : List (Stored F) := t.registry ++ t.nightshift

/-- The user's text, if there is one. -/
def user (t : Inline F) : Option (List Char) :=
  (t.rawUser.map trim).filter fun s => !s.isEmpty

def active (t : Inline F) (ep : Stored F) : Bool := ep.lifecycle == 0 || t.audit

def score (ep : Stored F) : F := cos512 A t.query.vec ep.l5key

def scored : List (F × Stored F) :=
  ((t.pool.filter fun ep => ep.l5key.length == HD).filter t.active).map fun ep =>
    (t.score A ep, ep)

/-- The condition of a side pass: the margin is below its bound, and the choice would be
delivered and has a rival. -/
def wavers (eps : Option F) (margin : F) (best : F × Stored F) (n : Nat) : Bool :=
  eps.any (fun e => A.zero < e && margin < e) && t.tauL5.any (· ≤ best.1) && 2 ≤ n

/-- The rewrite moves the choice to the first of the top five that shares most words with
the name. -/
def canonSwitch (margin : F) (reply : Option (List Char)) (top : F × Stored F)
    (rest : List (F × Stored F)) : F × Stored F :=
  if t.wavers A t.canonEps margin top (rest.length + 1) then
    match (reply.map canonName).filter fun s => !s.isEmpty with
    | none => top
    | some canon =>
        (rest.take 4).foldl
          (fun best s =>
            if canonOverlap u canon best.2.text < canonOverlap u canon s.2.text then s else best)
          top
  else top

/-- The rerank moves the choice to the episode under the letter, unless that is the
closest one. -/
def rerankSwitch (ruser : List Char) (margin : F) (reply : Option Nat)
    (scored : List (F × Stored F)) (best : F × Stored F) : F × Stored F :=
  if t.wavers A t.rerankEps margin best scored.length then
    let perm := shuffle ruser (List.range (min scored.length 3))
    match reply.bind (perm[·]?) with
    | some i => if i ≠ 0 then scored[i]?.getD best else best
    | none => best
  else best

/-- The policy of the first of the ranked episodes that has the name. -/
def policyOf (t : Inline F) (scored : List (F × Stored F)) (name : String) :
    Option Memory.MemPolicy :=
  if t.memPolicy then (scored.find? fun s => s.2.name == name).bind (·.2.policy) else none

def decision (ruser : List Char) (margin : F) (policy : Option Memory.MemPolicy)
    (ep : Stored F) : Decision :=
  let policySecret := policy.any fun p => p.delivery == "attr-gate-strict".toList
  let attrGate := policySecret || policy.any (fun p => p.declineWhen.any fun w =>
    w == "attribute-absent".toList || w == "zero-inference".toList) || t.attrGate
  let absent := if attrGate then attrAbsentRatio A u ruser ep.text else A.zero
  if attrGate && t.attrTau.any (· ≤ absent) && (policySecret || queryHasEntityToken u ruser) then
    .decline ((policy.map (·.declineMessage)).getD declineMessage.toList)
  else if marginSkips A t.tauMargin margin then .marginSkip
  else .deliver

/-- The choice after both side passes. -/
def choice (r : Replies) (ruser : List Char) (margin : F) (top : F × Stored F)
    (rest : List (F × Stored F)) : F × Stored F :=
  t.rerankSwitch A ruser margin r.rerank (top :: rest)
    (t.canonSwitch A u margin r.canon top rest)

/-- What the branch does; none is a turn it leaves alone. -/
def dispatch (r : Replies) : Option (Dispatch F) :=
  match t.user with
  | none => none
  | some ruser =>
      if t.qonly && !isInterrogative u ruser then none
      else if t.query.vec.isEmpty then none
      else
        match ranked Prod.fst (t.scored A) with
        | [] => none
        | top :: rest =>
            let margin := marginOf A top.1 ((rest.head?.map Prod.fst).getD ⊥)
            let best := t.choice A u r ruser margin top rest
            let policy := t.policyOf (top :: rest) best.2.name
            if t.tauL5.any (· ≤ best.1) && !best.2.text.isEmpty then
              some ⟨best.1, margin, best.2, policy, t.decision A u ruser margin policy best.2⟩
            else none

/-! ### What is chosen -/

section

omit [OrderBot F] [OrderTop F]

theorem canonSwitch_mem (margin : F) (reply : Option (List Char)) (top : F × Stored F)
    (rest : List (F × Stored F)) : t.canonSwitch A u margin reply top rest ∈ top :: rest := by
  unfold canonSwitch
  split
  case isFalse => exact List.mem_cons_self
  case isTrue =>
    split
    case h_1 => exact List.mem_cons_self
    case h_2 canon _ =>
      have hfold : ∀ (l : List (F × Stored F)) (best : F × Stored F),
          l.foldl (fun best s => if canonOverlap u canon best.2.text <
            canonOverlap u canon s.2.text then s else best) best ∈ best :: l := by
        intro l
        induction l with
        | nil => simp
        | cons s l ih =>
            intro best
            rw [List.foldl_cons]
            split
            case isTrue => exact List.mem_cons_of_mem _ (ih s)
            case isFalse =>
              rcases List.mem_cons.mp (ih best) with h | h
              · rw [h]
                exact List.mem_cons_self
              · exact List.mem_cons_of_mem _ (List.mem_cons_of_mem _ h)
      rcases List.mem_cons.mp (hfold (rest.take 4) top) with h | h
      · rw [h]
        exact List.mem_cons_self
      · exact List.mem_cons_of_mem _ (List.mem_of_mem_take h)

theorem rerankSwitch_mem (ruser : List Char) (margin : F) (reply : Option Nat)
    (scored : List (F × Stored F)) (best : F × Stored F) (hbest : best ∈ scored) :
    t.rerankSwitch A ruser margin reply scored best ∈ scored := by
  unfold rerankSwitch
  split
  case isFalse => exact hbest
  case isTrue =>
    dsimp only
    split
    case h_2 => exact hbest
    case h_1 i _ =>
      split
      case isFalse => exact hbest
      case isTrue =>
        cases hi : scored[i]? with
        | none => exact hbest
        | some s => exact List.mem_of_getElem? hi

/-- The side passes choose among the ranked episodes. -/
theorem choice_mem (r : Replies) (ruser : List Char) (margin : F) (top : F × Stored F)
    (rest : List (F × Stored F)) : t.choice A u r ruser margin top rest ∈ top :: rest :=
  t.rerankSwitch_mem A ruser margin r.rerank _ _ (t.canonSwitch_mem A u margin r.canon top rest)

end

omit [OrderTop F] in
theorem mem_scored {s : F × Stored F} (hs : s ∈ t.scored A) :
    s.2 ∈ t.pool ∧ s.2.l5key.length = HD ∧ t.active s.2 = true ∧ s.1 = t.score A s.2 := by
  simp only [scored, List.mem_map, List.mem_filter, beq_iff_eq] at hs
  obtain ⟨ep, ⟨⟨hpool, hkey⟩, hactive⟩, rfl⟩ := hs
  exact ⟨hpool, hkey, hactive, rfl⟩

/-- What a dispatch says about the turn. -/
theorem dispatch_eq_some {r : Replies} {d : Dispatch F} (hd : t.dispatch A u r = some d) :
    ∃ ruser top rest, t.user = some ruser ∧ ranked Prod.fst (t.scored A) = top :: rest ∧
      (d.cos, d.ep) = t.choice A u r ruser d.margin top rest ∧
      t.tauL5.any (· ≤ d.cos) = true ∧ d.ep.text ≠ [] ∧
      d.policy = t.policyOf (top :: rest) d.ep.name ∧
      d.decision = t.decision A u ruser d.margin d.policy d.ep := by
  unfold dispatch at hd
  split at hd
  case h_1 => cases hd
  case h_2 ruser huser =>
    split at hd
    case isTrue => cases hd
    case isFalse =>
      split at hd
      case isTrue => cases hd
      case isFalse =>
        split at hd
        case h_1 => cases hd
        case h_2 top rest hranked =>
          dsimp only at hd
          split at hd
          case isFalse => cases hd
          case isTrue hpass =>
            obtain rfl := Option.some.inj hd
            simp only [Bool.and_eq_true, Bool.not_eq_true', List.isEmpty_eq_false_iff] at hpass
            exact ⟨ruser, top, rest, huser, hranked, rfl, hpass.1, hpass.2, rfl, rfl⟩

/-- The branch dispatches an episode of the pool that the lifecycle filter lets through. -/
theorem dispatch_active {r : Replies} {d : Dispatch F} (hd : t.dispatch A u r = some d) :
    d.ep ∈ t.pool ∧ t.active d.ep = true := by
  obtain ⟨ruser, top, rest, _, hranked, hchoice, _⟩ := t.dispatch_eq_some A u hd
  have hmem : (d.cos, d.ep) ∈ top :: rest := by
    rw [hchoice]
    exact t.choice_mem A u r ruser d.margin top rest
  rw [← hranked] at hmem
  obtain ⟨hpool, _, hactive, _⟩ := t.mem_scored A ((ranked_perm _ _).mem_iff.mp hmem)
  exact ⟨hpool, hactive⟩

/-! ### With the options off -/

def toTurn (t : Inline F) (framing : Delivery) : Turn F where
  rawUser := t.rawUser
  query := t.query
  registry := t.registry.map Stored.toEpisode
  nightshift := t.nightshift.map Stored.toEpisode
  qonly := t.qonly
  tauL5 := t.tauL5
  tauMargin := t.tauMargin
  attrTau := t.attrTau
  attrGate := t.attrGate
  audit := t.audit
  framing := framing

end Inline

def Decision.verdict (ref : EpisodeRef) : Decision → Verdict
  | .decline message => .decline (String.ofList message)
  | .marginSkip => .pass
  | .deliver => .deliver ref

def Dispatch.verdict (d : Dispatch F) : Verdict :=
  d.decision.verdict ⟨d.ep.name, d.ep.text, A.milli d.cos⟩

namespace Inline

variable (t : Inline F)

omit [OrderTop F] in
theorem toTurn_scored (framing : Delivery) :
    (t.toTurn framing).scored A = (t.scored A).map fun s => (s.1, s.2.name, s.2.text) := by
  simp only [Turn.scored, scored, toTurn, pool, ← List.map_append, List.filter_map, List.map_map]
  rfl

omit [OrderTop F] [OrderBot F] in
theorem wavers_off {eps : Option F} (heps : eps.any (A.zero < ·) = false) (margin : F)
    (best : F × Stored F) (n : Nat) : t.wavers A eps margin best n = false := by
  cases eps with
  | none => rfl
  | some e =>
      simp only [Option.any_some, decide_eq_false_iff_not] at heps
      simp [wavers, heps]

/-- With the side passes and the policies off, the branch decides as the one that has no
such options. -/
theorem dispatch_verdict (r : Replies) (framing : Delivery)
    (hcanon : t.canonEps.any (A.zero < ·) = false)
    (hrerank : t.rerankEps.any (A.zero < ·) = false) (hpolicy : t.memPolicy = false) :
    ((t.dispatch A u r).map fun d => d.verdict A).getD .pass = (t.toTurn framing).inline A u := by
  have hchoice : ∀ ruser margin top rest, t.choice A u r ruser margin top rest = top := by
    intro ruser margin top rest
    simp only [choice, canonSwitch, rerankSwitch, t.wavers_off A hcanon, t.wavers_off A hrerank,
      Bool.false_eq_true, if_false]
  have hpol : ∀ scored name, t.policyOf scored name = none := by
    intro scored name
    rw [policyOf, hpolicy]
    rfl
  have hscored : ranked Prod.fst ((t.toTurn framing).scored A) =
      (ranked Prod.fst (t.scored A)).map fun s => (s.1, s.2.name, s.2.text) := by
    rw [toTurn_scored, ranked_map]
    rfl
  unfold dispatch Turn.inline
  rw [hscored]
  change _ = match t.user with | none => _ | some ruser => _
  cases t.user with
  | none => rfl
  | some ruser =>
      change Option.getD (Option.map _ (if (t.qonly && !isInterrogative u ruser) = true then _
        else if t.query.vec.isEmpty = true then _ else _)) _ =
        if (t.qonly && !isInterrogative u ruser) = true then _
        else if t.query.vec.isEmpty = true then _ else _
      split
      case isTrue => rfl
      case isFalse =>
        split
        case isTrue => rfl
        case isFalse =>
          cases ranked Prod.fst (t.scored A) with
          | nil => simp
          | cons top rest =>
              simp only [hchoice, hpol, List.map_cons, List.head?_cons, Option.getD_some,
                List.tail_cons, List.head?_map, Option.map_map, Function.comp_def]
              change Option.getD (Option.map _ (if (t.tauL5.any (· ≤ top.1) &&
                !top.2.text.isEmpty) = true then _ else _)) _ =
                  if (t.tauL5.any (· ≤ top.1) && !top.2.text.isEmpty) = true then _ else _
              split
              case isFalse => rfl
              case isTrue =>
                simp only [Option.map_some, Option.getD_some, Dispatch.verdict, decision,
                  Option.any_none, Bool.false_or, Option.map_none, Option.getD_none,
                  apply_ite (Decision.verdict _)]
                simp only [Decision.verdict, String.ofList_toList]
                rfl

end Inline

end ShannonPrime.Recall
