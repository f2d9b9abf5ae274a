import ShannonPrime.Recall.Inline

/-!
The telemetry of a chat turn. Only the inline branch writes records: one for what it
decides about the episode it dispatches, and one at the end of a turn that answers from a
delivered episode. Query and answer are hashed when the class found for the episode is
`private-secret`; the class is looked up by name, and only with the policies on.
Timestamps and timings are left out.
-/

namespace ShannonPrime.Recall

open Ranking

def privateSecret : List Char := "private-secret".toList

/-- Stored with the class `private-secret`. -/
def Stored.secret {F : Type} (ep : Stored F) : Bool :=
  ep.policy.any fun p => p.memClass == privateSecret

/-- A text in a record. -/
inductive Shown where
  | clear (text : List Char)
  | hashed (hash : UInt64)
  deriving DecidableEq

structure RecallRecord (F : Type) where
  query : Shown
  redacted : Bool
  fired : Bool
  entry : String
  memClass : List Char
  cos : F
  /-- None stands for the -1 of an infinite margin. -/
  margin : Option F
  delivery : List Char
  decision : String
  deriving DecidableEq

structure TurnRecord where
  query : Shown
  redacted : Bool
  entry : String
  memClass : List Char
  output : Shown
  outLen : Nat
  /-- The answer uses a salient word of the fact. -/
  obeyed : Bool
  deriving DecidableEq

inductive Record (F : Type) where
  | recalled (record : RecallRecord F)
  | turn (record : TurnRecord)
  deriving DecidableEq

/-- The record contains the text of the query or of the answer. -/
def Record.reveals {F : Type} (query : List Char) (answer : Option (List Char)) :
    Record F → Prop
  | .recalled record => record.query = .clear query
  | .turn record => record.query = .clear query ∨ ∃ a ∈ answer, record.output = .clear a

structure Telemetry (F : Type) extends Inline F where
  /-- `SP_TELEMETRY` is 1. -/
  telemetry : Bool
  /-- The hasher of the standard library. -/
  hash : List Char → UInt64
  /-- The inline branch runs. -/
  inlineRuns : Bool
  /-- The framed prompt of a delivery was prefilled. -/
  prefilled : Bool
  /-- The answer, of a turn that comes to its end. -/
  answer : Option (List Char)
  /-- What the other selectors of the turn choose, and the name they leave as recalled. -/
  others : List (Stored F)
  renamed : Option String

variable {F : Type} [LinearOrder F] [OrderBot F] [OrderTop F]
variable (A : Arith F) (u : Unicode)

namespace Telemetry

variable (t : Telemetry F)

def shown (t : Telemetry F) (secret : Bool) (text : List Char) : Shown :=
  if secret then .hashed (t.hash text) else .clear text

def classOf (policy : Option Memory.MemPolicy) : List Char :=
  (policy.map (·.memClass)).getD "-".toList

/-- `telem_emit_recall` -/
def emitRecall (query : List Char) (entry : String) (memClass : List Char) (cos margin : F)
    (delivery : List Char) (decision : String) : List (Record F) :=
  if !t.telemetry then []
  else
    let secret := memClass == privateSecret
    [.recalled
      { query := t.shown secret query
        redacted := secret
        fired := decision == "deliver" || decision == "decline"
        entry := entry
        memClass := memClass
        cos := cos
        margin := if margin ≠ ⊥ ∧ margin ≠ ⊤ then some margin else none
        delivery := delivery
        decision := decision }]

/-- The check of an answer against the fact it was given. -/
def obeyed (output fact : List Char) : Bool :=
  let sal := ((fact.splitOnP fun c => !u.isAlphanumeric c).filter fun w => 4 ≤ byteLen w).map
    u.toLowercase
  sal.isEmpty || sal.any fun w => Memory.containsText w (u.toLowercase output)

/-- `telem_emit_turn` -/
def emitTurn (query : List Char) (entry : String) (memClass output fact : List Char)
    (secret : Bool) : List (Record F) :=
  if !t.telemetry then []
  else
    [.turn
      { query := t.shown secret query
        redacted := secret
        entry := entry
        memClass := memClass
        output := t.shown secret output
        outLen := output.length
        obeyed := obeyed u output fact }]

/-- The mode of a delivery: the policy's, or that of the settings. -/
def deliveryMode (policy : Option Memory.MemPolicy) : List Char :=
  match policy with
  | some p => if p.delivery = "attr-gate-strict".toList then "recite".toList else p.delivery
  | none => t.prompt

def dispatched (r : Replies) : Option (Dispatch F) :=
  if t.inlineRuns then t.dispatch A u r else none

/-- The records of what the inline branch does with an episode. -/
def dispatchRecords (ruser : List Char) (d : Dispatch F) : List (Record F) :=
  let mode := t.deliveryMode d.policy
  match d.decision with
  | .decline _ =>
      t.emitRecall ruser d.ep.name (classOf d.policy) d.cos d.margin "attr-gate-strict".toList
        "decline"
  | .marginSkip =>
      t.emitRecall ruser d.ep.name (classOf d.policy) d.cos d.margin mode "margin-skip"
  | .deliver =>
      if t.prefilled then
        t.emitRecall ruser d.ep.name (classOf d.policy) d.cos d.margin mode "deliver" ++
          match t.answer with
          | some answer =>
              t.emitTurn u ruser (t.renamed.getD d.ep.name) (classOf d.policy) answer d.ep.text
                (d.policy.any fun p => p.memClass == privateSecret)
          | none => []
      else []

/-- All records of the turn. -/
def records (r : Replies) : List (Record F) :=
  match t.user, t.dispatched A u r with
  | some ruser, some d => t.dispatchRecords u ruser d
  | _, _ => []

/-- The episodes the turn selects. -/
def selected (r : Replies) : List (Stored F) :=
  ((t.dispatched A u r).map (·.ep)).toList ++ t.others

/-- A query or an answer of the turn stands in a record. -/
def Leaks (r : Replies) : Prop :=
  ∃ record ∈ t.records A u r, ∃ ruser ∈ t.user, record.reveals ruser t.answer

/-! ### When nothing leaks -/

/-- The policies are looked up, and the closest live episode of this name is secret. -/
def Classified (name : String) : Prop :=
  t.memPolicy = true ∧ ∃ before s after,
    TopAt Prod.fst ((t.scored A).filter fun s => s.2.name == name) before s after ∧
      s.2.secret = true

/-- The branch keeps silent about what it dispatches: the delivery failed. -/
def Silent (d : Dispatch F) : Prop := d.decision = .deliver ∧ t.prefilled = false

/-- No record carries a text: telemetry is off, or the branch dispatches nothing, is
silent about it, or finds the secret class. -/
def Guarded (r : Replies) : Prop :=
  t.telemetry = false ∨ t.inlineRuns = false ∨
    ∀ d, t.dispatch A u r = some d → t.Silent d ∨ t.Classified A d.ep.name

omit [OrderTop F] in
theorem policyOf_secret_iff (name : String) :
    (t.policyOf (ranked Prod.fst (t.scored A)) name).any (fun p => p.memClass == privateSecret) =
      true ↔ t.Classified A name := by
  unfold Inline.policyOf Classified
  cases t.memPolicy with
  | false => simp
  | true =>
      simp only [if_true, ranked_find?, true_and]
      constructor
      · intro h
        cases hbest : bestAbove Prod.fst ⊥ ((t.scored A).filter fun s => s.2.name == name) with
        | none =>
            rw [hbest] at h
            cases h
        | some s =>
            rw [hbest] at h
            obtain ⟨before, after, htop, _⟩ := (bestAbove_eq_some_iff _ _ _ _).mp hbest
            exact ⟨before, s, after, htop, h⟩
      · rintro ⟨before, s, after, htop, hsecret⟩
        have hbest := (bestAbove_eq_some_iff Prod.fst ⊥ _ s).mpr
          ⟨before, after, htop, WithBot.bot_lt_coe _⟩
        rw [hbest]
        exact hsecret

theorem classOf_secret (policy : Option Memory.MemPolicy) :
    (classOf policy == privateSecret) = policy.any fun p => p.memClass == privateSecret := by
  cases policy with
  | none => decide
  | some p => rfl

omit [LinearOrder F] [OrderBot F] [OrderTop F] in
theorem shown_clear_iff (secret : Bool) (text : List Char) :
    t.shown secret text = .clear text ↔ secret = false := by
  cases secret with
  | false => simp [shown]
  | true => simp [shown]

/-- A recall record, if one is written, shows the query unless the class is secret. -/
theorem emitRecall_reveals (ruser : List Char)
    (answer : Option (List Char)) (entry : String) (memClass : List Char) (cos margin : F)
    (delivery : List Char) (decision : String) :
    (∃ record ∈ t.emitRecall ruser entry memClass cos margin delivery decision,
        record.reveals ruser answer) ↔
      t.telemetry = true ∧ (memClass == privateSecret) = false := by
  unfold emitRecall
  cases t.telemetry with
  | false => simp
  | true => simp [Record.reveals, shown_clear_iff]

omit [LinearOrder F] [OrderBot F] [OrderTop F] in
theorem emitTurn_reveals (ruser : List Char) (answer : Option (List Char)) (entry : String)
    (memClass output fact : List Char) (secret : Bool)
    (hleak : ∃ record ∈ t.emitTurn u ruser entry memClass output fact secret,
      record.reveals ruser answer) : t.telemetry = true ∧ secret = false := by
  unfold emitTurn at hleak
  cases htel : t.telemetry with
  | false => simp [htel] at hleak
  | true =>
      simp only [htel, Bool.not_true, Bool.false_eq_true, if_false, List.mem_singleton,
        exists_eq_left, Record.reveals, shown_clear_iff] at hleak
      obtain hquery | ⟨a, _, hout⟩ := hleak
      · exact ⟨rfl, hquery⟩
      · cases secret with
        | false => exact ⟨rfl, rfl⟩
        | true => cases hout

theorem dispatchRecords_reveals (ruser : List Char) (d : Dispatch F) :
    (∃ record ∈ t.dispatchRecords u ruser d, record.reveals ruser t.answer) ↔
      t.telemetry = true ∧ ¬ t.Silent d ∧
        d.policy.any (fun p => p.memClass == privateSecret) = false := by
  unfold dispatchRecords Silent
  dsimp only
  cases d.decision with
  | decline message =>
      rw [emitRecall_reveals, classOf_secret]
      simp
  | marginSkip =>
      rw [emitRecall_reveals, classOf_secret]
      simp
  | deliver =>
      cases t.prefilled with
      | false => simp
      | true =>
          simp only [if_true, List.mem_append, or_and_right, exists_or, emitRecall_reveals,
            classOf_secret]
          constructor
          · rintro (⟨htel, hclass⟩ | hturn)
            · exact ⟨htel, by simp, hclass⟩
            · cases hanswer : t.answer with
              | none =>
                  rw [hanswer] at hturn
                  simp at hturn
              | some answer =>
                  rw [hanswer] at hturn
                  obtain ⟨htel, hclass⟩ := t.emitTurn_reveals u _ _ _ _ _ _ _ hturn
                  exact ⟨htel, by simp, hclass⟩
          · rintro ⟨htel, _, hclass⟩
            exact .inl ⟨htel, hclass⟩

theorem leaks_of_dispatched {r : Replies} {d : Dispatch F} (hd : t.dispatched A u r = some d) :
    t.Leaks A u r ↔ t.telemetry = true ∧ ¬ t.Silent d ∧ ¬ t.Classified A d.ep.name := by
  have hdispatch : t.dispatch A u r = some d := by
    unfold dispatched at hd
    split at hd
    case isTrue => exact hd
    case isFalse => cases hd
  obtain ⟨ruser, top, rest, huser, hranked, _, _, _, hpolicy, _⟩ := t.dispatch_eq_some A u hdispatch
  rw [← t.policyOf_secret_iff A, hranked, ← hpolicy, Bool.not_eq_true,
    ← t.dispatchRecords_reveals u ruser d]
  unfold Leaks records
  rw [huser, hd]
  simp

/-- A text of the turn stands in a record exactly when the turn is not guarded. -/
theorem not_leaks_iff (r : Replies) : ¬ t.Leaks A u r ↔ t.Guarded A u r := by
  have hnone : t.dispatched A u r = none → ¬ t.Leaks A u r := by
    rintro hnone ⟨record, hrecord, _⟩
    unfold records at hrecord
    rw [hnone] at hrecord
    cases huser : t.user <;> simp [huser] at hrecord
  unfold Guarded
  cases hruns : t.inlineRuns with
  | false =>
      have hd : t.dispatched A u r = none := by
        simp [dispatched, hruns]
      simp [hnone hd]
  | true =>
      have hrun : t.dispatched A u r = t.dispatch A u r := by
        simp [dispatched, hruns]
      cases hdispatch : t.dispatch A u r with
      | none => simp [hnone (hrun.trans hdispatch)]
      | some d =>
          rw [t.leaks_of_dispatched A u (hrun.trans hdispatch)]
          simp only [Bool.true_eq_false, false_or, Option.some.injEq, forall_eq', not_and, not_not]
          cases t.telemetry with
          | false => simp
          | true =>
              simp only [true_implies, Bool.true_eq_false, false_or]
              tauto

/-- A turn that selects a private secret keeps its texts out of the telemetry exactly when
it is guarded. -/
theorem secret_kept_iff (r : Replies) :
    ((∃ ep ∈ t.selected A u r, ep.secret = true) → ¬ t.Leaks A u r) ↔
      ((∃ ep ∈ t.selected A u r, ep.secret = true) → t.Guarded A u r) := by
  rw [t.not_leaks_iff A u r]

end Telemetry

/-! ### A secret without the policies -/

/-- A secret that answers the query, delivered with the policies off. -/
def vaultTurn : Telemetry (WithBot (WithTop Int)) where
  rawUser := some "who designed the vault?".toList
  query := supersededTurn.query
  registry :=
    [⟨⟨"vault", "the vault was designed by Ada".toList, List.replicate HD 1, 0⟩, 0,
      some (Memory.MemPolicy.fromClass privateSecret)⟩]
  nightshift := []
  qonly := true
  tauL5 := some (some (some 300))
  tauMargin := some 0
  attrTau := some (some (some 500))
  attrGate := false
  audit := false
  canonEps := some 0
  rerankEps := some 0
  memPolicy := false
  prompt := "systemecho".toList
  telemetry := true
  hash _ := 0
  inlineRuns := true
  prefilled := true
  answer := some "Ada.".toList
  others := []
  renamed := none

theorem vaultTurn_turn_record :
    .turn
      { query := .clear "who designed the vault?".toList
        redacted := false
        entry := "vault"
        memClass := "-".toList
        output := .clear "Ada.".toList
        outLen := 4
        obeyed := false } ∈ vaultTurn.records thousandths asciiText ⟨none, none, none⟩ := by
  decide +kernel

theorem secret_in_the_clear :
    ¬ ∀ (t : Telemetry (WithBot (WithTop Int))) (r : Replies),
      (∃ ep ∈ t.selected thousandths asciiText r, ep.secret = true) →
        ¬ t.Leaks thousandths asciiText r := by
  intro h
  apply h vaultTurn ⟨none, none, none⟩
  · have hsecret : (vaultTurn.selected thousandths asciiText ⟨none, none, none⟩).any (·.secret) =
        true := by
      decide +kernel
    simpa using hsecret
  · exact ⟨_, vaultTurn_turn_record, "who designed the vault?".toList, by decide, .inl rfl⟩

end ShannonPrime.Recall
