import ShannonPrime.Recall.Lifecycle

/-!
What the recall stage of a chat turn leaves in the resident cache, which holds the turn's prompt
when the stage begins. The stage resets the cache to ask the model something aside and to deliver
an episode as text, and it replays episodes on trial. Only the judge puts the prompt back.
-/

namespace ShannonPrime.Recall

open Ranking

/-- What a position of the cache holds. -/
inductive Cell where
  | token (t : Int)
  /-- A position of a replayed episode. -/
  | memory (name : String) (i : Nat)
  /-- A token injected with less weight. -/
  | faint (t : Int)
  | zeroed
  deriving DecidableEq

def cellsOf (toks : List Int) : List Cell := toks.map .token

/-- `kv::rewind` -/
def rewind (n : Nat) (cells : List Cell) : List Cell := cells.take (cells.length - n)

/-- `kv::replay` -/
def replay (name : String) (npos : Nat) (cells : List Cell) : List Cell :=
  cells ++ (List.range npos).map (Cell.memory name)

/-- `kv::ablate`: the rows of an episode at `base`. -/
def ablate (base : Nat) (targets : List Nat) (cells : List Cell) : List Cell :=
  cells.mapIdx fun i c => if base ≤ i ∧ i - base ∈ targets then .zeroed else c

/-- `kv::prefill`: the position at which it fails, if it does. -/
def prefill (toks : List Int) (fault : Option Nat) (cells : List Cell) : List Cell × Bool :=
  match fault with
  | none => (cells ++ cellsOf toks, true)
  | some k => (cells ++ cellsOf (toks.take k), false)

/-! ### Trials -/

/-- An episode on trial: whether it was replayed, the tokens of the first leg that were decoded,
and how many of them were in the second. -/
structure Probe where
  name : String
  npos : Nat
  replayed : Bool
  fed : List Int
  targets : List Nat
  /-- The second replay of a trial without ablation. -/
  zeroReplayed : Bool
  again : Nat

namespace Probe

variable (p : Probe)

/-- The trial of the ablation gates (`SP_INT2`, `SP_B3_DISPOSER=2`). -/
def ablation (anchor : Nat) (cells : List Cell) : List Cell :=
  if !p.replayed then cells
  else
    let cells := rewind p.fed.length (replay p.name p.npos cells ++ cellsOf p.fed)
    if p.fed = [] then rewind p.npos cells
    else
      let lpa := p.fed.take p.again
      rewind (lpa.length + p.npos) (ablate anchor p.targets cells ++ cellsOf lpa)

/-- The trial of `SP_B3_DISPOSER=1`, with an episode of zeros for the second leg. -/
def continuation (cells : List Cell) : List Cell :=
  if !p.replayed then cells
  else
    let cells := rewind (p.fed.length + p.npos) (replay p.name p.npos cells ++ cellsOf p.fed)
    if p.fed = [] ∨ !p.zeroReplayed then cells
    else
      let lpz := p.fed.take p.again
      rewind (lpz.length + p.npos) (cells ++ List.replicate p.npos .zeroed ++ cellsOf lpz)

end Probe

/-! ### The turn -/

/-- The prompts that are prefilled in the stage beside the turn's own. -/
inductive Pass where
  | wc | jaccard | canon | rerank | l5 | judge | judged | spine
  deriving DecidableEq

/-- What the calls of a turn come back with. -/
structure Calls where
  /-- `apply_template_ids` -/
  template : Pass → Option (List Int)
  fault : Pass → Option Nat
  /-- The tokens decoded in a side pass. -/
  answered : Pass → List Int
  /-- The prefill of the turn's own prompt after the judge, and after a delivery of the judge's that
  failed. -/
  restore : Option Nat
  fallback : Option Nat
  /-- `kv::inject_tokens_atten` -/
  inject : Option Nat
  /-- Whether `kv::replay` of an episode succeeds. -/
  replays : String → Bool

inductive Disposer where
  | off | continuation | ablation
  deriving DecidableEq

structure ChatTurn (F : Type) extends Stage F where
  autoRecall : Bool
  /-- A registry is loaded. -/
  loaded : Bool
  promptHead : List Int
  promptLast : Int
  spineOn : Bool
  l5On : Bool
  int2On : Bool
  /-- `SP_B3_WC` names a head that loads. -/
  wcOn : Bool
  wcText : Bool
  jaccardOn : Bool
  judgeOn : Bool
  disposer : Disposer
  /-- The read of the query that the scan needs has not failed. -/
  readQ : Bool
  /-- `ep.tokens`, of a live episode. -/
  tokens : Stored F → Option (List Int)
  npos : Stored F → Nat
  probes : List Probe
  /-- The episode that the disposer authorizes, or without one that clears `SP_B3_TAU_QK`. -/
  authorized : Option (Stored F)

/-- The cache, the token that synthesis starts from, and what the stage has decided. -/
structure Resident where
  cells : List Cell
  synLast : Int
  recalled : Option String
  symbolicDecline : Option (List Char)
  deriving DecidableEq

namespace Calls

variable (c : Calls)

/-- The tokens of a pass, where there are two or more. -/
def prompt (p : Pass) : Option (List Int) := (c.template p).filter fun toks => 2 ≤ toks.length

/-- A question to the model on the side. -/
def side (p : Pass) (s : Resident) : Resident :=
  match c.prompt p with
  | none => s
  | some toks =>
      let (cells, ok) := prefill toks.dropLast (c.fault p) []
      { s with cells := if ok then cells ++ cellsOf (c.answered p) else cells }

/-- The answer is of use where the question was prefilled. -/
def answer {α : Type} (p : Pass) (reply : Option α) : Option α :=
  if (c.prompt p).isSome ∧ c.fault p = none then reply else none

/-- The text of an episode in context. -/
def deliver (p : Pass) (name : String) (s : Resident) : Resident :=
  match c.prompt p with
  | none => s
  | some toks =>
      let (cells, ok) := prefill toks.dropLast (c.fault p) []
      if ok then { s with cells := cells, synLast := toks.getLastD 0, recalled := some name }
      else { s with cells := cells }

end Calls

variable {F : Type} [LinearOrder F] [OrderBot F] [OrderTop F]
variable (A : Arith F) (u : Unicode)

namespace ChatTurn

variable (t : ChatTurn F) (c : Calls) (r : Replies)

/-- The replies as the stage comes to see them. -/
def replies : Replies where
  canon := c.answer .canon r.canon
  rerank := c.answer .rerank r.rerank
  judge := r.judge

def replayed (ep : Stored F) (s : Resident) : Resident :=
  if c.replays ep.name then
    { s with cells := replay ep.name (t.npos ep) s.cells, recalled := some ep.name }
  else s

/-- The trials one after another. -/
def trials (d : Disposer) (anchor : Nat) (cells : List Cell) : List Cell :=
  t.probes.foldl
    (fun cells p =>
      match d with
      | .off => cells
      | .continuation => p.continuation cells
      | .ablation => p.ablation anchor cells)
    cells

def int2 (s : Resident) : Resident :=
  let s := { s with cells := t.trials .ablation s.cells.length s.cells }
  match t.int2Contest.winner with
  | none => s
  | some (_, ep) => t.replayed c ep s

def wcStage (s : Resident) : Resident :=
  if !t.wcOn then s
  else
    match t.wcContest.winner with
    | none => s
    | some ep =>
        match t.tokens ep with
        | some toks =>
            match c.inject with
            | none => { s with
                cells := s.cells ++ toks.map .faint
                recalled := some ep.name }
            | some k => { s with cells := s.cells ++ (toks.take k).map .faint }
        | none => if t.wcText && t.rawUser.isSome then c.deliver .wc ep.name s else t.replayed c ep s

def jaccardStage (s : Resident) : Resident :=
  if s.recalled.isSome || !t.jaccardOn then s
  else
    match t.user.bind fun ruser => (t.jaccardContest A u ruser).winner with
    | none => s
    | some ep => c.deliver .jaccard ep.name s

/-- The passes in which the choice is made, and what is done with it. -/
def l5Stage (s : Resident) : Resident :=
  if s.recalled.isSome || !t.l5On then s
  else
    match t.user with
    | none => s
    | some ruser =>
        if t.qonly && !isInterrogative u ruser then s
        else if t.query.vec.isEmpty then s
        else
          match ranked Prod.fst (t.scored A) with
          | [] => s
          | top :: rest =>
              let margin := marginOf A top.1 ((rest.head?.map Prod.fst).getD ⊥)
              let s := if t.wavers A t.canonEps margin top (rest.length + 1) then c.side .canon s
                else s
              let best := t.canonSwitch A u margin (replies c r).canon top rest
              let s := if t.wavers A t.rerankEps margin best (rest.length + 1) then
                  c.side .rerank s
                else s
              match t.dispatch A u (replies c r) with
              | none => s
              | some d =>
                  match d.decision with
                  | .decline message => { s with
                      symbolicDecline := some message
                      recalled := some d.ep.name }
                  | .marginSkip => s
                  | .deliver => c.deliver .l5 d.ep.name s

/-- The judge's question, after which the prompt is put back, and the delivery of its pick. -/
def judgeStage (s : Resident) : Resident :=
  if s.recalled.isSome || !t.judgeOn then s
  else if (trim (t.rawUser.getD [])).isEmpty then s
  else
    match c.prompt .judge with
    | none => s
    | some _ =>
        let s := { s with cells := (prefill t.promptHead c.restore []).1 }
        match t.judgeChoice A r with
        | none => s
        | some ep =>
            match c.prompt .judged with
            | none => s
            | some toks =>
                let (cells, ok) := prefill toks.dropLast (c.fault .judged) []
                if ok then { s with
                  cells := cells
                  synLast := toks.getLastD 0
                  recalled := some ep.name }
                else { s with cells := (prefill t.promptHead c.fallback []).1 }

def dispose (s : Resident) : Resident :=
  let s := { s with cells := t.trials t.disposer s.cells.length s.cells }
  match t.authorized with
  | none => s
  | some ep => t.replayed c ep s

def inline (s : Resident) : Resident :=
  if !t.readQ then s
  else if t.int2On then t.int2 c s
  else t.dispose c (t.judgeStage A c r (t.l5Stage A u c r (t.jaccardStage A u c (t.wcStage c s))))

def spineStage (s : Resident) : Resident :=
  match t.spine A u with
  | .pass => s
  | .decline message => { s with symbolicDecline := some message.toList }
  | .deliver ref => c.deliver .spine ref.name s

def start : Resident := ⟨cellsOf t.promptHead, t.promptLast, none, none⟩

/-- The recall stage, of a turn that names no episode itself. -/
def recallStage : Resident :=
  if !t.autoRecall || !t.loaded || t.promptHead.isEmpty then t.start
  else if t.spineOn && t.l5On then t.spineStage A u c t.start
  else t.inline A u c r t.start

end ChatTurn

/-! ### The condition -/

/-- Neither a delivery nor a decline. -/
def Resident.Undecided (s : Resident) : Prop := s.recalled = none ∧ s.symbolicDecline = none

/-- The turn's own prompt, ready for its last token. -/
def Resident.Clean (t : ChatTurn F) (s : Resident) : Prop :=
  s.cells = cellsOf t.promptHead ∧ s.synLast = t.promptLast

namespace Calls

variable (c : Calls)

/-- A delivery that resets the cache goes through. -/
def Spares (p : Pass) : Prop := ∀ toks, c.prompt p = some toks → c.fault p = none

/-- What a pass has left in the cache. -/
def left (p : Pass) (toks : List Int) : List Int :=
  match c.fault p with
  | none => toks.dropLast ++ c.answered p
  | some k => toks.dropLast.take k

/-- No pass leaves the tokens of the turn's own prompt by chance. -/
def Foreign (promptHead : List Int) : Prop :=
  ∀ p toks, c.prompt p = some toks → c.left p toks ≠ promptHead

end Calls

namespace ChatTurn

variable (t : ChatTurn F) (c : Calls) (r : Replies)

/-- A question is asked in the choice of an episode. -/
def asks (p : Pass) : Bool :=
  match t.user with
  | none => false
  | some ruser =>
      if t.qonly && !isInterrogative u ruser then false
      else if t.query.vec.isEmpty then false
      else
        match ranked Prod.fst (t.scored A) with
        | [] => false
        | top :: rest =>
            let margin := marginOf A top.1 ((rest.head?.map Prod.fst).getD ⊥)
            match p with
            | .canon => t.wavers A t.canonEps margin top (rest.length + 1)
            | .rerank =>
                t.wavers A t.rerankEps margin
                  (t.canonSwitch A u margin (replies c r).canon top rest) (rest.length + 1)
            | _ => false

/-- An injection that fails has not begun, and a delivery as text goes through. -/
def WcKeeps : Prop :=
  t.wcOn = true → ∀ ep, t.wcContest.winner = some ep →
    match t.tokens ep with
    | some toks => ∀ k, c.inject = some k → toks.take k = []
    | none => t.wcText = true → t.rawUser.isSome = true → c.Spares .wc

def JaccardKeeps : Prop :=
  t.jaccardOn = true → (t.user.bind fun ruser => (t.jaccardContest A u ruser).winner) ≠ none →
    c.Spares .jaccard

/-- No question is put to the model, and a delivery goes through. -/
def L5Keeps : Prop :=
  t.l5On = true → (t.asks A u c r .canon = true → c.prompt .canon = none) ∧
    (t.asks A u c r .rerank = true → c.prompt .rerank = none) ∧
      ∀ d, t.dispatch A u (replies c r) = some d → d.decision = .deliver → c.Spares .l5

/-- The judge is asked. -/
def judges : Bool :=
  t.judgeOn && !(trim (t.rawUser.getD [])).isEmpty && (c.prompt .judge).isSome

/-- The prompt is put back as a whole. -/
def JudgeKeeps : Prop :=
  ∀ k, (if (t.judgeChoice A r).isSome ∧ (c.prompt .judged).isSome then c.fallback else c.restore) =
    some k → t.promptHead.length ≤ k

/-- The ways in which a turn without recall keeps its prompt. -/
def Kept : Prop :=
  t.autoRecall = false ∨ t.loaded = false ∨ t.promptHead = [] ∨
    if t.spineOn && t.l5On then ∀ ref, t.spine A u = .deliver ref → c.Spares .spine
    else t.readQ = false ∨ t.int2On = true ∨
      if t.judges c then t.JudgeKeeps A c r
      else t.WcKeeps c ∧ t.JaccardKeeps A u c ∧ t.L5Keeps A u c r

end ChatTurn

/-! ### Trials leave nothing -/

theorem rewind_append (cells l : List Cell) : rewind l.length (cells ++ l) = cells := by
  rw [rewind, List.length_append, Nat.add_sub_cancel, List.take_left']
  rfl

theorem length_replay (name : String) (npos : Nat) (cells : List Cell) :
    (replay name npos cells).length = cells.length + npos := by
  rw [replay, List.length_append, List.length_map, List.length_range]

theorem length_cellsOf (toks : List Int) : (cellsOf toks).length = toks.length := List.length_map _

theorem rewind_after {cells l : List Cell} {n : Nat} (hn : l.length = n) :
    rewind n (cells ++ l) = cells := hn ▸ rewind_append cells l

theorem take_ablate {base n : Nat} (hbase : n ≤ base) (targets : List Nat) (cells : List Cell) :
    (ablate base targets cells).take n = cells.take n := by
  apply List.ext_getElem?
  intro i
  rw [List.getElem?_take, List.getElem?_take, ablate, List.getElem?_mapIdx]
  split
  · rename_i hi
    have hout : ¬ (base ≤ i ∧ i - base ∈ targets) := fun h => by omega
    simp only [if_neg hout, Option.map_id']
  · rfl

/-- The rewinds of a trial take back what it wrote, the zeroed rows of the episode included. -/
theorem Probe.ablation_eq (p : Probe) (cells : List Cell) :
    p.ablation cells.length cells = cells := by
  rw [Probe.ablation]
  split
  · rfl
  · simp only [rewind_after (length_cellsOf p.fed)]
    split
    · exact rewind_after (by rw [List.length_map, List.length_range])
    · have hlen : (ablate cells.length p.targets (replay p.name p.npos cells) ++
          cellsOf (p.fed.take p.again)).length - ((p.fed.take p.again).length + p.npos) =
          cells.length := by
        rw [List.length_append, length_cellsOf, ablate, List.length_mapIdx, length_replay]
        omega
      have hshort : cells.length ≤
          (ablate cells.length p.targets (replay p.name p.npos cells)).length := by
        rw [ablate, List.length_mapIdx, length_replay]
        omega
      rw [rewind, hlen, List.take_append_of_le_length hshort, take_ablate (le_refl _), replay,
        List.take_left]

theorem Probe.continuation_eq (p : Probe) (cells : List Cell) : p.continuation cells = cells := by
  have hleg : ∀ episode : List Cell, episode.length = p.npos → ∀ toks : List Int,
      rewind (toks.length + p.npos) (cells ++ episode ++ cellsOf toks) = cells := by
    intro episode hepisode toks
    rw [List.append_assoc]
    apply rewind_after
    rw [List.length_append, length_cellsOf, hepisode, Nat.add_comm]
  have hfirst := hleg ((List.range p.npos).map (Cell.memory p.name))
    (by rw [List.length_map, List.length_range]) p.fed
  rw [Probe.continuation]
  split
  · rfl
  · simp only [replay, hfirst]
    split
    · rfl
    · exact hleg (List.replicate p.npos .zeroed) List.length_replicate _

omit [LinearOrder F] [OrderBot F] [OrderTop F] in
theorem ChatTurn.trials_eq (t : ChatTurn F) (d : Disposer) (cells : List Cell) :
    t.trials d cells.length cells = cells := by
  rw [ChatTurn.trials]
  induction t.probes with
  | nil => rfl
  | cons p probes ih =>
      rw [List.foldl_cons]
      cases d with
      | off => exact ih
      | continuation => simp only [p.continuation_eq] at ih ⊢; exact ih
      | ablation => simp only [p.ablation_eq] at ih ⊢; exact ih

/-! ### One stage after another -/

/-- A stage that decides nothing leaves the token where synthesis starts, and the cache exactly
under a condition: otherwise what is there is not the prompt. -/
structure Keeps (c : Calls) (promptHead : List Int) (keeps : Prop) (s s' : Resident) : Prop where
  before : s.Undecided
  synLast : s'.synLast = s.synLast
  kept : keeps → s'.cells = s.cells
  lost : c.Foreign promptHead → ¬ keeps → s'.cells ≠ cellsOf promptHead

theorem Keeps.same {c : Calls} {promptHead : List Int} {keeps : Prop} {s s' : Resident} (hs : s'.Undecided)
    (h : s' = s) (hkeeps : keeps) : Keeps c promptHead keeps s s' := by
  subst h
  exact ⟨hs, rfl, fun _ => rfl, fun _ h => absurd hkeeps h⟩

theorem Keeps.trans {c : Calls} {promptHead : List Int} {p q : Prop} {s s' s'' : Resident}
    (h : Keeps c promptHead p s s') (h' : Keeps c promptHead q s' s'') :
    Keeps c promptHead (p ∧ q) s s'' := by
  refine ⟨h.before, h'.synLast.trans h.synLast, fun hpq => ?_, fun hforeign hpq => ?_⟩
  · exact (h'.kept hpq.2).trans (h.kept hpq.1)
  · by_cases hq : q
    · rw [h'.kept hq]
      exact h.lost hforeign fun hp => hpq ⟨hp, hq⟩
    · exact h'.lost hforeign hq

theorem Keeps.congr {c : Calls} {promptHead : List Int} {p q : Prop} {s s' : Resident}
    (hpq : p ↔ q) (h : Keeps c promptHead p s s') :
    Keeps c promptHead q s s' :=
  ⟨h.before, h.synLast, fun hq => h.kept (hpq.mpr hq), fun hf hq => h.lost hf fun hp => hq (hpq.mp hp)⟩

theorem cellsOf_injective {a b : List Int} (h : cellsOf a = cellsOf b) : a = b :=
  List.map_injective_iff.mpr (fun _ _ h => Cell.token.inj h) h

section

variable {c : Calls} {s : Resident} {p : Pass}

/-- What a side pass leaves instead of the prompt. -/
theorem Calls.side_cells {toks : List Int} (hprompt : c.prompt p = some toks) :
    (c.side p s).cells = cellsOf (c.left p toks) := by
  rw [Calls.side, hprompt, Calls.left]
  cases c.fault p with
  | none => exact List.map_append.symm
  | some k => rfl

theorem Calls.side_keeps (promptHead : List Int) (hs : s.Undecided) :
    Keeps c promptHead (c.prompt p = none) s (c.side p s) := by
  cases hprompt : c.prompt p with
  | none =>
      have hside : c.side p s = s := by rw [Calls.side, hprompt]
      rw [hside]
      exact Keeps.same hs rfl rfl
  | some toks =>
      have hcells := c.side_cells (s := s) hprompt
      refine ⟨hs, ?_, fun h => absurd h (Option.some_ne_none toks),
        fun hforeign _ hclean => ?_⟩
      · rw [Calls.side, hprompt]
      · exact hforeign p toks hprompt (cellsOf_injective (hcells.symm.trans hclean))

/-- A delivery that decides nothing has failed, or has not begun. -/
theorem Calls.deliver_keeps (promptHead : List Int) {name : String}
    (hs : (c.deliver p name s).Undecided) :
    Keeps c promptHead (c.Spares p) s (c.deliver p name s) := by
  cases hprompt : c.prompt p with
  | none =>
      have hdeliver : c.deliver p name s = s := by rw [Calls.deliver, hprompt]
      rw [hdeliver] at hs ⊢
      exact Keeps.same hs rfl fun toks htoks => nomatch hprompt.symm.trans htoks
  | some toks =>
      cases hfault : c.fault p with
      | none =>
          have hrecalled : (c.deliver p name s).recalled = some name := by
            rw [Calls.deliver, hprompt, hfault]
            rfl
          exact nomatch hrecalled.symm.trans hs.1
      | some k =>
          have hdeliver : c.deliver p name s =
              { s with cells := cellsOf (c.left p toks) } := by
            rw [Calls.deliver, hprompt, Calls.left, hfault]
            rfl
          rw [hdeliver] at hs ⊢
          refine ⟨hs, rfl, fun h => ?_, fun hforeign _ hclean => ?_⟩
          · exact nomatch hfault.symm.trans (h toks hprompt)
          · exact hforeign p toks hprompt (cellsOf_injective hclean)

end

namespace ChatTurn

variable {t : ChatTurn F} {c : Calls} {r : Replies} {s : Resident}

omit [LinearOrder F] [OrderBot F] [OrderTop F] in
/-- A replay that decides nothing has failed. -/
theorem replayed_eq {ep : Stored F} (hs : (t.replayed c ep s).Undecided) :
    t.replayed c ep s = s := by
  rw [replayed] at hs ⊢
  split at hs
  · exact nomatch hs.1
  · rename_i hfails
    exact if_neg hfails

omit [OrderBot F] [OrderTop F] in
theorem int2_eq (hs : (t.int2 c s).Undecided) : t.int2 c s = s := by
  simp only [int2, t.trials_eq] at hs ⊢
  cases hwinner : t.int2Contest.winner with
  | none => rfl
  | some best =>
      rw [hwinner] at hs
      exact replayed_eq hs

omit [LinearOrder F] [OrderBot F] [OrderTop F] in
theorem dispose_eq (hs : (t.dispose c s).Undecided) : t.dispose c s = s := by
  simp only [dispose, t.trials_eq] at hs ⊢
  cases hauthorized : t.authorized with
  | none => rfl
  | some ep =>
      rw [hauthorized] at hs
      exact replayed_eq hs

omit [OrderTop F] in
theorem wcStage_keeps (hs : (t.wcStage c s).Undecided) :
    Keeps c t.promptHead (t.WcKeeps c) s (t.wcStage c s) := by
  cases hon : t.wcOn with
  | false => exact Keeps.same hs (by simp [wcStage, hon]) fun h => absurd (hon ▸ h) Bool.false_ne_true
  | true =>
      cases hwinner : t.wcContest.winner with
      | none => exact Keeps.same hs (by simp [wcStage, hon, hwinner]) fun _ _ h => nomatch hwinner ▸ h
      | some ep =>
          have hkeeps : t.WcKeeps c ↔
              match t.tokens ep with
              | some toks => ∀ k, c.inject = some k → toks.take k = []
              | none => t.wcText = true → t.rawUser.isSome = true → c.Spares .wc := by
            constructor
            · exact fun h => h hon ep hwinner
            · intro h _ ep' hep'
              obtain rfl := Option.some.inj (hwinner.symm.trans hep')
              exact h
          apply Keeps.congr hkeeps.symm
          cases htokens : t.tokens ep with
          | some toks =>
              cases hinject : c.inject with
              | none =>
                  have hrecalled : (t.wcStage c s).recalled = some ep.name := by
                    simp [wcStage, hon, hwinner, htokens, hinject]
                  exact nomatch hrecalled.symm.trans hs.1
              | some k =>
                  have hstage : t.wcStage c s =
                      { s with cells := s.cells ++ (toks.take k).map .faint } := by
                    simp [wcStage, hon, hwinner, htokens, hinject]
                  rw [hstage] at hs ⊢
                  refine ⟨hs, rfl, fun h => ?_, fun _ h hclean => h fun k' hk' => ?_⟩
                  · simp [h k rfl]
                  · obtain rfl := Option.some.inj hk'
                    -- an injected token is never one of a prompt
                    apply List.eq_nil_iff_forall_not_mem.mpr
                    intro x hx
                    have hcell : Cell.faint x ∈ cellsOf t.promptHead := by
                      rw [← hclean]
                      exact List.mem_append_right _ (List.mem_map_of_mem hx)
                    obtain ⟨y, _, hy⟩ := List.mem_map.mp hcell
                    cases hy
          | none =>
              by_cases htext : (t.wcText && t.rawUser.isSome) = true
              · have hstage : t.wcStage c s = c.deliver .wc ep.name s := by
                  simp [wcStage, hon, hwinner, htokens, htext]
                rw [hstage] at hs ⊢
                simp only [Bool.and_eq_true] at htext
                exact (Calls.deliver_keeps t.promptHead hs).congr
                  ⟨fun h _ _ => h, fun h => h htext.1 htext.2⟩
              · have hstage : t.wcStage c s = t.replayed c ep s := by
                  simp only [wcStage, hon, hwinner, htokens, if_neg htext]
                  rfl
                rw [hstage] at hs ⊢
                simp only [Bool.and_eq_true] at htext
                exact Keeps.same hs (replayed_eq hs) fun h h' => absurd ⟨h, h'⟩ htext

omit [OrderBot F] [OrderTop F] in
theorem jaccardStage_keeps (hs : (t.jaccardStage A u c s).Undecided) :
    Keeps c t.promptHead (t.JaccardKeeps A u c) s (t.jaccardStage A u c s) := by
  cases hrecalled : s.recalled with
  | some name =>
      have hstage : t.jaccardStage A u c s = s := by simp [jaccardStage, hrecalled]
      rw [hstage] at hs
      exact nomatch hrecalled.symm.trans hs.1
  | none =>
      cases hon : t.jaccardOn with
      | false =>
          exact Keeps.same hs (by simp [jaccardStage, hon]) fun h =>
            absurd (hon ▸ h) Bool.false_ne_true
      | true =>
          cases hwinner : t.user.bind fun ruser => (t.jaccardContest A u ruser).winner with
          | none =>
              exact Keeps.same hs (by simp only [jaccardStage, hwinner, ite_self]) fun _ h =>
                absurd hwinner h
          | some ep =>
              have hstage : t.jaccardStage A u c s = c.deliver .jaccard ep.name s := by
                simp [jaccardStage, hrecalled, hon, hwinner]
              rw [hstage] at hs ⊢
              refine (Calls.deliver_keeps t.promptHead hs).congr ⟨fun h _ _ => h, fun h => h hon ?_⟩
              rw [hwinner]
              exact Option.some_ne_none ep

/-- A question of the choice, where it is asked. -/
def asked (t : ChatTurn F) (c : Calls) (r : Replies) (p : Pass) (s : Resident) : Resident :=
  if t.asks A u c r p then c.side p s else s

/-- The questions first, then what the branch dispatches. -/
theorem l5Stage_eq (hopen : s.recalled = none) (hon : t.l5On = true) :
    t.l5Stage A u c r s =
      match t.dispatch A u (replies c r) with
      | none => t.asked A u c r .rerank (t.asked A u c r .canon s)
      | some d =>
          match d.decision with
          | .decline message => { t.asked A u c r .rerank (t.asked A u c r .canon s) with
              symbolicDecline := some message
              recalled := some d.ep.name }
          | .marginSkip => t.asked A u c r .rerank (t.asked A u c r .canon s)
          | .deliver => c.deliver .l5 d.ep.name (t.asked A u c r .rerank (t.asked A u c r .canon s)) := by
  have hskip : (s.recalled.isSome || !t.l5On) = false := by simp [hopen, hon]
  rw [l5Stage, hskip]
  generalize hd : t.dispatch A u (replies c r) = d
  simp only [asked, asks]
  cases huser : t.user with
  | none =>
      rw [Inline.dispatch, huser] at hd
      subst hd
      rfl
  | some ruser =>
      simp only [Inline.dispatch, huser] at hd
      by_cases hquiet : (t.qonly && !isInterrogative u ruser) = true
      · rw [if_pos hquiet] at hd
        subst hd
        simp [hquiet]
      · rw [if_neg hquiet] at hd
        by_cases hempty : t.query.vec.isEmpty = true
        · rw [if_pos hempty] at hd
          subst hd
          simp [hquiet, hempty]
        · cases hranked : ranked Prod.fst (t.scored A) with
          | nil =>
              simp only [if_neg hempty, hranked] at hd
              subst hd
              simp [hquiet, hempty]
          | cons top rest => simp only [hquiet, hempty, if_false, Bool.false_eq_true]

theorem asked_keeps (p : Pass) (hs : s.Undecided) :
    Keeps c t.promptHead (t.asks A u c r p = true → c.prompt p = none) s (t.asked A u c r p s) := by
  rw [asked]
  split
  · rename_i hasks
    exact (Calls.side_keeps t.promptHead hs).congr ⟨fun h _ => h, fun h => h hasks⟩
  · rename_i hasks
    exact Keeps.same hs rfl fun h => absurd h hasks

/-- A question decides nothing. -/
theorem asked_undecided (p : Pass) :
    (t.asked A u c r p s).recalled = s.recalled ∧
      (t.asked A u c r p s).symbolicDecline = s.symbolicDecline := by
  rw [asked]
  split
  · rw [Calls.side]
    split <;> exact ⟨rfl, rfl⟩
  · exact ⟨rfl, rfl⟩

theorem l5Stage_keeps (hs : (t.l5Stage A u c r s).Undecided) :
    Keeps c t.promptHead (t.L5Keeps A u c r) s (t.l5Stage A u c r s) := by
  cases hrecalled : s.recalled with
  | some name =>
      have hstage : t.l5Stage A u c r s = s := by simp [l5Stage, hrecalled]
      rw [hstage] at hs
      exact nomatch hrecalled.symm.trans hs.1
  | none =>
      cases hon : t.l5On with
      | false =>
          exact Keeps.same hs (by simp [l5Stage, hon]) fun h => absurd (hon ▸ h) Bool.false_ne_true
      | true =>
          have hstage := t.l5Stage_eq A u (c := c) (r := r) hrecalled hon
          have hside : ∀ s', (t.asked A u c r .rerank (t.asked A u c r .canon s)).Undecided →
              Keeps c t.promptHead (∀ d, t.dispatch A u (replies c r) = some d →
                d.decision = .deliver → c.Spares .l5)
                (t.asked A u c r .rerank (t.asked A u c r .canon s)) s' →
              Keeps c t.promptHead (t.L5Keeps A u c r) s s' := by
            intro s' hasked hlast
            have hrerank := asked_undecided A u (t := t) (c := c) (r := r)
              (s := t.asked A u c r .canon s) .rerank
            have hcanon := asked_undecided A u (t := t) (c := c) (r := r) (s := s) .canon
            have hfirst : (t.asked A u c r .canon s).Undecided :=
              ⟨hrerank.1.symm.trans hasked.1, hrerank.2.symm.trans hasked.2⟩
            have hstart : s.Undecided :=
              ⟨hcanon.1.symm.trans hfirst.1, hcanon.2.symm.trans hfirst.2⟩
            refine (((asked_keeps A u .canon hstart).trans
              (asked_keeps A u .rerank hfirst)).trans hlast).congr ?_
            rw [L5Keeps, and_assoc]
            exact ⟨fun h _ => h, fun h => h hon⟩
          rw [hstage] at hs ⊢
          cases hd : t.dispatch A u (replies c r) with
          | none =>
              rw [hd] at hs
              exact hside _ hs (Keeps.same hs rfl fun _ h => nomatch hd.symm.trans h)
          | some d =>
              simp only [hd] at hs ⊢
              cases hdecision : d.decision with
              | decline message =>
                  rw [hdecision] at hs
                  exact nomatch hs.1
              | marginSkip =>
                  simp only [hdecision] at hs ⊢
                  refine hside _ hs (Keeps.same hs rfl fun d' hd' hdeliver => ?_)
                  obtain rfl := Option.some.inj (hd.symm.trans hd')
                  exact nomatch hdecision.symm.trans hdeliver
              | deliver =>
                  simp only [hdecision] at hs ⊢
                  have hkeeps := Calls.deliver_keeps t.promptHead hs
                  refine hside _ hkeeps.before (hkeeps.congr ⟨fun h _ _ _ => h, fun h => ?_⟩)
                  exact h d hd hdecision

/-! ### The judge -/

theorem prefill_iff (toks : List Int) (fault : Option Nat) :
    (prefill toks fault []).1 = cellsOf toks ↔ ∀ k, fault = some k → toks.length ≤ k := by
  cases fault with
  | none => simp [prefill]
  | some k =>
      simp only [prefill, List.nil_append, Option.some.injEq, forall_eq']
      constructor
      · intro h
        have hlen := congrArg List.length (cellsOf_injective h)
        rw [List.length_take] at hlen
        omega
      · intro h
        rw [List.take_of_length_le h]

omit [OrderTop F] in
theorem judgeStage_unasked (hasks : t.judges c = false) : t.judgeStage A c r s = s := by
  rw [judgeStage]
  split
  · rfl
  · rename_i hrun
    split
    · rfl
    · rename_i hquery
      cases hprompt : c.prompt .judge with
      | none => rfl
      | some toks =>
          simp only [Bool.or_eq_true, Bool.not_eq_true', not_or] at hrun
          simp [judges, hrun, hquery, hprompt] at hasks

omit [OrderTop F] in
/-- A judge that is asked puts the prompt back, whatever was there. -/
theorem judgeStage_asked (hasks : t.judges c = true) (hs : (t.judgeStage A c r s).Undecided) :
    s.Undecided ∧ (t.judgeStage A c r s).synLast = s.synLast ∧
      ((t.judgeStage A c r s).cells = cellsOf t.promptHead ↔ t.JudgeKeeps A c r) := by
  obtain ⟨⟨hon, hquery⟩, hprompt⟩ : (t.judgeOn = true ∧
      (trim (t.rawUser.getD [])).isEmpty = false) ∧ (c.prompt .judge).isSome = true := by
    simpa [judges] using hasks
  obtain ⟨jtoks, hprompt⟩ := Option.isSome_iff_exists.mp hprompt
  cases hrecalled : s.recalled with
  | some name =>
      have hstage : t.judgeStage A c r s = s := by simp [judgeStage, hrecalled]
      rw [hstage] at hs
      exact nomatch hrecalled.symm.trans hs.1
  | none =>
      have hrestored : ∀ fault,
          t.judgeStage A c r s = { s with cells := (prefill t.promptHead fault []).1 } →
          (t.JudgeKeeps A c r ↔ ∀ k, fault = some k → t.promptHead.length ≤ k) →
          s.Undecided ∧ (t.judgeStage A c r s).synLast = s.synLast ∧
            ((t.judgeStage A c r s).cells = cellsOf t.promptHead ↔ t.JudgeKeeps A c r) := by
        intro fault hstage hkeeps
        rw [hstage] at hs ⊢
        exact ⟨⟨hrecalled, hs.2⟩, rfl, (prefill_iff t.promptHead fault).trans hkeeps.symm⟩
      cases hchoice : t.judgeChoice A r with
      | none =>
          apply hrestored c.restore
          · simp [judgeStage, hrecalled, hon, hquery, hprompt, hchoice]
          · simp [JudgeKeeps, hchoice]
      | some ep =>
          cases hjudged : c.prompt .judged with
          | none =>
              apply hrestored c.restore
              · simp [judgeStage, hrecalled, hon, hquery, hprompt, hchoice, hjudged]
              · simp [JudgeKeeps, hjudged]
          | some toks =>
              cases hfault : c.fault .judged with
              | none =>
                  have hdelivered : (t.judgeStage A c r s).recalled = some ep.name := by
                    simp [judgeStage, hrecalled, hon, hquery, hprompt, hchoice, hjudged, hfault,
                      prefill]
                  exact nomatch hdelivered.symm.trans hs.1
              | some k =>
                  apply hrestored c.fallback
                  · simp [judgeStage, hrecalled, hon, hquery, hprompt, hchoice, hjudged, hfault,
                      prefill]
                  · simp [JudgeKeeps, hchoice, hjudged]

/-! ### The turn -/

/-- The stages before the judge, one after the other. -/
theorem delivered_keeps
    (hs : (t.l5Stage A u c r (t.jaccardStage A u c (t.wcStage c s))).Undecided) :
    Keeps c t.promptHead (t.WcKeeps c ∧ t.JaccardKeeps A u c ∧ t.L5Keeps A u c r) s
      (t.l5Stage A u c r (t.jaccardStage A u c (t.wcStage c s))) := by
  have hl5 := l5Stage_keeps A u hs
  have hjaccard := jaccardStage_keeps A u hl5.before
  have hwc := wcStage_keeps hjaccard.before
  exact ((hwc.trans hjaccard).trans hl5).congr and_assoc

theorem spineStage_keeps (hs : (t.spineStage A u c s).Undecided) :
    Keeps c t.promptHead (∀ ref, t.spine A u = .deliver ref → c.Spares .spine) s
      (t.spineStage A u c s) := by
  cases hspine : t.spine A u with
  | pass =>
      have hstage : t.spineStage A u c s = s := by rw [spineStage, hspine]
      exact Keeps.same hs hstage fun ref h => nomatch h
  | decline message =>
      rw [spineStage, hspine] at hs
      exact nomatch hs.2
  | deliver ref =>
      have hstage : t.spineStage A u c s = c.deliver .spine ref.name s := by
        rw [spineStage, hspine]
      rw [hstage] at hs ⊢
      exact (Calls.deliver_keeps t.promptHead hs).congr ⟨fun h _ _ => h, fun h => h ref rfl⟩

omit [LinearOrder F] [OrderBot F] [OrderTop F] in
theorem keeps_clean {keeps : Prop} (hs : s.Clean t) {s' : Resident}
    (h : Keeps c t.promptHead keeps s s') :
    (keeps → s'.Clean t) ∧ (c.Foreign t.promptHead → s'.Clean t → keeps) := by
  refine ⟨fun hkeeps => ⟨(h.kept hkeeps).trans hs.1, h.synLast.trans hs.2⟩, ?_⟩
  intro hforeign hclean
  by_contra hlost
  exact h.lost hforeign hlost hclean.1

theorem inline_clean (hclean : s.Clean t) (hs : (t.inline A u c r s).Undecided) :
    ((t.readQ = false ∨ t.int2On = true ∨ if t.judges c then t.JudgeKeeps A c r
        else t.WcKeeps c ∧ t.JaccardKeeps A u c ∧ t.L5Keeps A u c r) →
      (t.inline A u c r s).Clean t) ∧
    (c.Foreign t.promptHead → (t.inline A u c r s).Clean t →
      t.readQ = false ∨ t.int2On = true ∨ if t.judges c then t.JudgeKeeps A c r
        else t.WcKeeps c ∧ t.JaccardKeeps A u c ∧ t.L5Keeps A u c r) := by
  cases hread : t.readQ with
  | false =>
      have hinline : t.inline A u c r s = s := by simp [inline, hread]
      rw [hinline]
      exact ⟨fun _ => hclean, fun _ _ => .inl rfl⟩
  | true =>
      cases hint2 : t.int2On with
      | true =>
          have hinline : t.inline A u c r s = t.int2 c s := by simp [inline, hread, hint2]
          rw [hinline] at hs ⊢
          rw [int2_eq hs]
          exact ⟨fun _ => hclean, fun _ _ => .inr (.inl rfl)⟩
      | false =>
          have hinline : t.inline A u c r s = t.dispose c (t.judgeStage A c r
              (t.l5Stage A u c r (t.jaccardStage A u c (t.wcStage c s)))) := by
            simp [inline, hread, hint2]
          rw [hinline] at hs ⊢
          have hdispose := dispose_eq hs
          rw [hdispose] at hs ⊢
          simp only [Bool.true_eq_false, Bool.false_eq_true, false_or]
          cases hjudges : t.judges c with
          | false =>
              rw [judgeStage_unasked A hjudges] at hs ⊢
              exact keeps_clean hclean (delivered_keeps A u hs)
          | true =>
              obtain ⟨hbefore, hlast, hcells⟩ := judgeStage_asked A hjudges hs
              -- the judge leaves the token of the stages before it
              have hsynLast := hlast.trans
                ((delivered_keeps A u hbefore).synLast.trans hclean.2)
              exact ⟨fun h => ⟨hcells.mpr h, hsynLast⟩, fun _ h => hcells.mp h.1⟩

end ChatTurn

/-! ### Two records that the query matches alike -/

/-- Every prompt is templated and prefilled. -/
def plainCalls : Calls where
  template _ := some [2, 7, 8]
  fault _ := none
  answered _ := [8]
  restore := none
  fallback := none
  inject := none
  replays _ := true

/-- The margin is too small to deliver, and smaller than the bound given to the rerank. -/
def tiedTurn (rerankEps : Int) : ChatTurn (WithBot (WithTop Int)) where
  toStage := { codeStage [oldRecord, newRecord] with
    audit := true
    tauMargin := some (some (some 100))
    rerankEps := some (some (some rerankEps)) }
  autoRecall := true
  loaded := true
  promptHead := [2, 3, 5]
  promptLast := 6
  spineOn := false
  l5On := true
  int2On := false
  wcOn := false
  wcText := false
  jaccardOn := false
  judgeOn := false
  disposer := .off
  readQ := true
  tokens _ := none
  npos _ := 0
  probes := []
  authorized := none

end ShannonPrime.Recall
