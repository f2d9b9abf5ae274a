import Mathlib.Data.List.Basic
import Mathlib.Data.List.Infix

/-!
Speculative decoding. A session is its token history; the logits it returns are
a function of that history, `decode_step` appends a token or refuses, and
`rewind` drops tokens or refuses. The target's greedy stream is the reference:
whatever the draft proposes, the emitted tokens are a prefix of it and the two
sessions end every iteration with one history.
-/

namespace ShannonPrime.Spec

/-- A deterministic model behind a session. -/
structure Model (L : Type) where
  logits : List Int → List L
  decodeErr : List Int → Int → Option String
  rewindErr : List Int → Nat → Option String

variable {L : Type}

namespace Model

variable (m : Model L)

def decodeStep (history : List Int) (token : Int) : Except String (List L × List Int) :=
  match m.decodeErr history token with
  | some e => .error e
  | none => .ok (m.logits (history ++ [token]), history ++ [token])

def rewind (history : List Int) (n : Nat) : Except String (List Int) :=
  match m.rewindErr history n with
  | some e => .error e
  | none => .ok (history.take (history.length - n))

/-- `spec_step` rewinds only when there is something to drop. -/
def rewindBy (history : List Int) (n : Nat) : Except String (List Int) :=
  if 0 < n then m.rewind history n else .ok history

end Model

/-- `SpecResult`, with the histories the two sessions are left with. -/
structure SpecResult (L : Type) where
  accepted : List Int
  nextTargetLogits : List L
  nextDraftLogits : Option (List L)
  target : List Int
  draft : List Int

/-- The verification loop's state when it stops; `rejected` is the index of the
first draft token the target does not pick. -/
structure Verified (L : Type) where
  accepted : List Int
  tLogits : List L
  target : List Int
  rejected : Option Nat

section Step

variable (cmp : L → L → Ordering)

/-- The last maximal index, as `max_by` picks it; 0 when there is none. `cmp` is
`partial_cmp` with incomparable values made equal. -/
def argmax (logits : List L) : Int :=
  match logits.zipIdx with
  | [] => 0
  | x :: rest =>
      (rest.foldl (fun best y => if cmp best.1 y.1 = .gt then best else y) x).2

/-- Phase 1 after the first token: `n` decodes of the draft, each followed by its
own argmax. -/
def draftLoop (d : Model L) : Nat → Int → List Int → Except String (List Int × List Int)
  | 0, _, history => .ok ([], history)
  | n + 1, last, history => do
      let (dLogits, history') ← d.decodeStep history last
      let tok := argmax cmp dLogits
      let (rest, history'') ← draftLoop d n tok history'
      .ok (tok :: rest, history'')

/-- Phase 2: the target takes draft tokens while they are its own argmax. -/
def verifyLoop (t : Model L) :
    List Int → Nat → List L → List Int → List Int → Except String (Verified L)
  | [], _, tLogits, target, accepted => .ok ⟨accepted, tLogits, target, none⟩
  | draftTok :: rest, kIdx, tLogits, target, accepted =>
      if argmax cmp tLogits = draftTok then do
        let (tLogits', target') ← t.decodeStep target draftTok
        verifyLoop t rest (kIdx + 1) tLogits' target' (accepted ++ [draftTok])
      else .ok ⟨accepted, tLogits, target, some kIdx⟩

/-- `spec_step`. -/
def specStep (t d : Model L) (k : Nat) (target draft : List Int)
    (targetLogits draftLogits : List L) : Except String (SpecResult L) := do
  let first := argmax cmp draftLogits
  let (rest, draft') ← draftLoop cmp d (k - 1) first draft
  let v ← verifyLoop cmp t (first :: rest) 0 targetLogits target []
  match v.rejected with
  | some kIdx =>
      let draft'' ← d.rewindBy draft' (k - 1 - kIdx)
      .ok ⟨v.accepted, v.tLogits, none, v.target, draft''⟩
  | none =>
      let (dLogits, draft'') ← d.decodeStep draft' ((first :: rest).getLast (by simp))
      .ok ⟨v.accepted, v.tLogits, some dLogits, v.target, draft''⟩

/-- What the caller's loop carries between iterations. -/
structure Loop (L : Type) where
  emitted : List Int
  target : List Int
  draft : List Int
  targetLogits : List L
  draftLogits : List L

/-- One iteration of the caller: on a rejection the target's own token is decoded
into both sessions. -/
def iteration (t d : Model L) (k : Nat) (s : Loop L) : Except String (Loop L) := do
  let r ← specStep cmp t d k s.target s.draft s.targetLogits s.draftLogits
  match r.nextDraftLogits with
  | some dLogits =>
      .ok ⟨s.emitted ++ r.accepted, r.target, r.draft, r.nextTargetLogits, dLogits⟩
  | none =>
      let corrected := argmax cmp r.nextTargetLogits
      let (tLogits, target) ← t.decodeStep r.target corrected
      let (dLogits, draft) ← d.decodeStep r.draft corrected
      .ok ⟨s.emitted ++ r.accepted ++ [corrected], target, draft, tLogits, dLogits⟩

def iterations (t d : Model L) (k : Nat) : Nat → Loop L → Except String (Loop L)
  | 0, s => .ok s
  | n + 1, s => do
      let s' ← iteration cmp t d k s
      iterations t d k n s'

/-- Both sessions prefilled with the prompt. -/
def Loop.start (t d : Model L) (prompt : List Int) : Loop L :=
  ⟨[], prompt, prompt, t.logits prompt, d.logits prompt⟩

/-- The target's own greedy stream: `n` tokens after `history`. -/
def greedy (m : Model L) : List Int → Nat → List Int
  | _, 0 => []
  | history, n + 1 =>
      let tok := argmax cmp (m.logits history)
      tok :: greedy m (history ++ [tok]) n

end Step

theorem bind_eq_ok {ε α β : Type} {x : Except ε α} {f : α → Except ε β} {b : β} :
    (x >>= f) = .ok b ↔ ∃ a, x = .ok a ∧ f a = .ok b := by
  cases x with
  | error e => simp [bind, Except.bind]
  | ok a => simp [bind, Except.bind]

theorem decodeStep_ok {m : Model L} {history : List Int} {token : Int}
    {out : List L × List Int} (h : m.decodeStep history token = .ok out) :
    out = (m.logits (history ++ [token]), history ++ [token]) := by
  unfold Model.decodeStep at h
  split at h
  · simp at h
  · exact (Except.ok.inj h).symm

theorem rewindBy_ok {m : Model L} {history out : List Int} {n : Nat}
    (h : m.rewindBy history n = .ok out) : out = history.take (history.length - n) := by
  unfold Model.rewindBy Model.rewind at h
  split at h
  case isTrue =>
    split at h
    · simp at h
    · exact (Except.ok.inj h).symm
  case isFalse hzero =>
    obtain rfl : n = 0 := by omega
    simpa using (Except.ok.inj h).symm

section Greedy

variable (cmp : L → L → Ordering)

/-- A greedy stream continues from the history its first part has made. -/
theorem greedy_add (m : Model L) (history : List Int) (a b : Nat) :
    greedy cmp m history (a + b) =
      greedy cmp m history a ++ greedy cmp m (history ++ greedy cmp m history a) b := by
  induction a generalizing history with
  | zero => simp [greedy]
  | succ a ih =>
      rw [Nat.succ_add]
      simp only [greedy, List.cons_append, ih]
      simp

theorem greedy_one (m : Model L) (history : List Int) :
    greedy cmp m history 1 = [argmax cmp (m.logits history)] := rfl

end Greedy

section Phases

variable {cmp : L → L → Ordering}

/-- The draft ends with all its proposals but the last in its history. -/
theorem draftLoop_ok {d : Model L} {n : Nat} {last : Int} {history : List Int}
    {rest history' : List Int} (h : draftLoop cmp d n last history = .ok (rest, history')) :
    rest.length = n ∧ history' = history ++ (last :: rest).take n := by
  induction n generalizing last history rest history' with
  | zero =>
      simp only [draftLoop, Except.ok.injEq, Prod.mk.injEq] at h
      simp [← h.1, ← h.2]
  | succ n ih =>
      simp only [draftLoop, bind_eq_ok] at h
      obtain ⟨⟨dLogits, history₁⟩, hdecode, ⟨⟨rest₁, history₂⟩, hrest, heq⟩⟩ := h
      simp only [Except.ok.injEq, Prod.mk.injEq] at heq
      obtain ⟨rfl, rfl⟩ := heq
      have hhistory := decodeStep_ok hdecode
      simp only [Prod.mk.injEq] at hhistory
      obtain ⟨hlen, hfinal⟩ := ih hrest
      refine ⟨by simp [hlen], ?_⟩
      rw [hfinal, hhistory.2]
      simp

/-- The target accepts a prefix of the proposals, and that prefix is its own
greedy stream. -/
theorem verifyLoop_ok {t : Model L} {toks : List Int} {kIdx : Nat} {tLogits : List L}
    {target accepted : List Int} {v : Verified L} (hlogits : tLogits = t.logits target)
    (h : verifyLoop cmp t toks kIdx tLogits target accepted = .ok v) :
    ∃ m, m ≤ toks.length ∧ v.accepted = accepted ++ toks.take m ∧
      v.target = target ++ toks.take m ∧ v.tLogits = t.logits v.target ∧
      toks.take m = greedy cmp t target m ∧
      (v.rejected = none → m = toks.length) ∧
      (∀ i, v.rejected = some i → i = kIdx + m ∧ m < toks.length) := by
  induction toks generalizing kIdx tLogits target accepted with
  | nil =>
      simp only [verifyLoop, Except.ok.injEq] at h
      subst h
      exact ⟨0, by simp [hlogits, greedy]⟩
  | cons draftTok rest ih =>
      simp only [verifyLoop] at h
      split at h
      case isTrue hpick =>
        simp only [bind_eq_ok] at h
        obtain ⟨⟨tLogits', target'⟩, hdecode, hrest⟩ := h
        have hstep := decodeStep_ok hdecode
        simp only [Prod.mk.injEq] at hstep
        obtain ⟨rfl, rfl⟩ := hstep
        obtain ⟨m, hle, hacc, htarget, htl, hgreedy, hnone, hsome⟩ := ih rfl hrest
        refine ⟨m + 1, by simpa using hle, ?_, ?_, htl, ?_, ?_, ?_⟩
        · simp [hacc]
        · simp [htarget]
        · rw [List.take_succ_cons, hgreedy, greedy, ← hlogits, hpick]
        · intro hfull
          simp [hnone hfull]
        · intro i hi
          obtain ⟨hidx, hlt⟩ := hsome i hi
          exact ⟨by omega, by simpa using hlt⟩
      case isFalse =>
        simp only [Except.ok.injEq] at h
        subst h
        exact ⟨0, by simp [hlogits, greedy]⟩

/-- A successful `spec_step` from equal histories: the accepted tokens are the
target's greedy stream, and both sessions stand right after them. -/
theorem specStep_ok {t d : Model L} {k : Nat} (hk : 1 ≤ k) {history : List Int}
    {draftLogits : List L} {r : SpecResult L}
    (h : specStep cmp t d k history history (t.logits history) draftLogits = .ok r) :
    r.accepted = greedy cmp t history r.accepted.length ∧ r.accepted.length ≤ k ∧
      r.target = history ++ r.accepted ∧ r.draft = history ++ r.accepted ∧
      r.nextTargetLogits = t.logits r.target ∧
      (∀ dLogits, r.nextDraftLogits = some dLogits →
        dLogits = d.logits r.draft ∧ r.accepted.length = k) := by
  simp only [specStep, bind_eq_ok] at h
  obtain ⟨⟨rest, draft'⟩, hdraft, v, hverify, h⟩ := h
  dsimp only at hverify h
  obtain ⟨hlen, hdraft'⟩ := draftLoop_ok hdraft
  obtain ⟨m, hle, hacc, htarget, htl, hgreedy, hnone, hsome⟩ := verifyLoop_ok rfl hverify
  have htoks : (argmax cmp draftLogits :: rest).length = k := by
    simp only [List.length_cons, hlen]
    omega
  simp only [List.nil_append] at hacc
  have hm : v.accepted.length = m := by
    rw [hacc, List.length_take, htoks]
    omega
  have hstream : v.accepted = greedy cmp t history v.accepted.length := by
    rw [hm, hacc, hgreedy]
  have hbound : v.accepted.length ≤ k := by omega
  have htake : ∀ n, m + n = k - 1 → draft'.take (draft'.length - n) = history ++ v.accepted := by
    intro n hn
    have hlength : draft'.length = history.length + (k - 1) := by
      rw [hdraft', List.length_append, List.length_take, htoks]
      omega
    have hdrop : draft'.length - n = history.length + m := by omega
    rw [hdrop, hdraft', hacc, List.take_length_add_append, List.take_take]
    congr 2
    omega
  cases hrej : v.rejected with
  | some kIdx =>
      obtain ⟨hidx, hlt⟩ := hsome kIdx hrej
      simp only [hrej, bind_eq_ok] at h
      obtain ⟨draft'', hrewind, hr⟩ := h
      cases hr
      refine ⟨hstream, hbound, by rw [htarget, hacc], ?_, htl, by simp⟩
      rw [rewindBy_ok hrewind]
      exact htake _ (by omega)
  | none =>
      have hfull := hnone hrej
      simp only [hrej, bind_eq_ok] at h
      obtain ⟨⟨dLogits, draft''⟩, hdecode, hr⟩ := h
      cases hr
      have hstep := decodeStep_ok hdecode
      simp only [Prod.mk.injEq] at hstep
      have hlast : draft' ++ [(argmax cmp draftLogits :: rest).getLast (by simp)] =
          history ++ v.accepted := by
        have hbefore : (argmax cmp draftLogits :: rest).take (k - 1) =
            (argmax cmp draftLogits :: rest).dropLast := by
          rw [List.dropLast_eq_take, htoks]
        rw [hdraft', hbefore, hacc, hfull, List.take_length, List.append_assoc,
          List.dropLast_append_getLast]
      refine ⟨hstream, hbound, by rw [htarget, hacc], hstep.2.trans hlast, htl, ?_⟩
      intro dl hdl
      simp only [Option.some.injEq] at hdl
      exact ⟨by rw [← hdl, hstep.1, ← hstep.2], by show v.accepted.length = k; omega⟩

/-- What holds between the caller's iterations. -/
structure Aligned (cmp : L → L → Ordering) (t d : Model L) (prompt : List Int) (s : Loop L) :
    Prop where
  stream : s.emitted = greedy cmp t prompt s.emitted.length
  target : s.target = prompt ++ s.emitted
  draft : s.draft = s.target
  targetLogits : s.targetLogits = t.logits s.target
  draftLogits : s.draftLogits = d.logits s.draft

theorem Aligned.start (cmp : L → L → Ordering) (t d : Model L) (prompt : List Int) :
    Aligned cmp t d prompt (Loop.start t d prompt) :=
  ⟨rfl, by simp [Loop.start], rfl, rfl, rfl⟩

/-- One iteration keeps the alignment and emits at least one token. -/
theorem Aligned.iteration {t d : Model L} {k : Nat} (hk : 1 ≤ k) {prompt : List Int}
    {s s' : Loop L} (hs : Aligned cmp t d prompt s) (h : iteration cmp t d k s = .ok s') :
    Aligned cmp t d prompt s' ∧ s.emitted.length + 1 ≤ s'.emitted.length := by
  simp only [Spec.iteration, bind_eq_ok] at h
  obtain ⟨r, hstep, h⟩ := h
  rw [hs.draft, hs.targetLogits] at hstep
  obtain ⟨hstream, _, htarget, hdraft, htl, hdl⟩ := specStep_ok hk hstep
  have haccepted : s.emitted ++ r.accepted =
      greedy cmp t prompt (s.emitted ++ r.accepted).length := by
    rw [List.length_append, greedy_add, ← hs.stream, ← hs.target, ← hstream]
  have hafter : r.target = prompt ++ (s.emitted ++ r.accepted) := by
    rw [htarget, hs.target, List.append_assoc]
  cases hnext : r.nextDraftLogits with
  | some dLogits =>
      obtain ⟨hlogits, hfull⟩ := hdl dLogits hnext
      simp only [hnext, Except.ok.injEq] at h
      subst h
      refine ⟨⟨haccepted, hafter, by rw [hdraft, htarget], htl, hlogits⟩, ?_⟩
      simp only [List.length_append]
      omega
  | none =>
      simp only [hnext, bind_eq_ok] at h
      obtain ⟨⟨tLogits, target⟩, hdecodeT, ⟨dLogits, draft⟩, hdecodeD, heq⟩ := h
      cases heq
      have hT := decodeStep_ok hdecodeT
      have hD := decodeStep_ok hdecodeD
      simp only [Prod.mk.injEq] at hT hD
      refine ⟨⟨?_, ?_, ?_, ?_, ?_⟩, ?_⟩
      · simp only
        rw [List.length_append, greedy_add, ← haccepted, ← hafter, List.length_singleton,
          greedy_one, ← htl]
      · simp only
        rw [hT.2, hafter, List.append_assoc]
      · simp only
        rw [hD.2, hT.2, hdraft, htarget]
      · simp only
        rw [hT.1, hT.2]
      · simp only
        rw [hD.1, hD.2]
      · simp only [List.length_append, List.length_singleton]
        omega

theorem Aligned.iterations {t d : Model L} {k : Nat} (hk : 1 ≤ k) {prompt : List Int} (n : Nat)
    {s s' : Loop L} (hs : Aligned cmp t d prompt s) (h : iterations cmp t d k n s = .ok s') :
    Aligned cmp t d prompt s' ∧ s.emitted.length + n ≤ s'.emitted.length := by
  induction n generalizing s with
  | zero =>
      simp only [Spec.iterations, Except.ok.injEq] at h
      subst h
      exact ⟨hs, Nat.le_refl _⟩
  | succ n ih =>
      simp only [Spec.iterations, bind_eq_ok] at h
      obtain ⟨s₁, hone, hrest⟩ := h
      obtain ⟨hs₁, hgrow⟩ := hs.iteration hk hone
      obtain ⟨hs', hgrow'⟩ := ih hs₁ hrest
      exact ⟨hs', by omega⟩

/-- Speculative decoding is greedy decoding. After any number of iterations from
any prompt, the tokens emitted are the first of the target's greedy stream, at
least one for each iteration, and both sessions hold the prompt and these
tokens; and a successful `spec_step` from there moves both sessions by exactly
the accepted tokens, which continue that stream. -/
theorem spec_stream_eq_greedy (cmp : L → L → Ordering) (t d : Model L) (k : Nat) (hk : 1 ≤ k)
    (prompt : List Int) (n : Nat) (s : Loop L)
    (hrun : Spec.iterations cmp t d k n (Loop.start t d prompt) = .ok s) :
    s.emitted = greedy cmp t prompt s.emitted.length ∧ n ≤ s.emitted.length ∧
      s.target = prompt ++ s.emitted ∧ s.draft = s.target ∧
      ∀ r, specStep cmp t d k s.target s.draft s.targetLogits s.draftLogits = .ok r →
        r.target = s.target ++ r.accepted ∧ r.draft = r.target ∧
        s.emitted ++ r.accepted =
          greedy cmp t prompt (s.emitted.length + r.accepted.length) := by
  obtain ⟨hs, hgrow⟩ := (Aligned.start cmp t d prompt).iterations hk n hrun
  refine ⟨hs.stream, by simpa [Loop.start] using hgrow, hs.target, hs.draft, ?_⟩
  intro r hstep
  rw [hs.draft, hs.targetLogits] at hstep
  obtain ⟨hstream, _, htarget, hdraft, _, _⟩ := specStep_ok hk hstep
  refine ⟨htarget, by rw [hdraft, htarget], ?_⟩
  rw [greedy_add, ← hs.stream, ← hs.target, ← hstream]

end Phases

/-- Two models that never refuse: the target counts the history modulo 3, the draft
modulo 2. -/
def countingModel (n : Nat) : Model Nat where
  logits history := (List.range 3).map fun i => if i = history.length % n then 1 else 0
  decodeErr _ _ := none
  rewindErr _ _ := none

/-- Five iterations of four draft tokens, the last with two of them accepted. -/
theorem spec_stream_counting :
    let t := countingModel 3
    let d := countingModel 2
    let s : Loop Nat := ⟨[2, 0, 1, 2, 0, 1, 2], [5, 5, 2, 0, 1, 2, 0, 1, 2],
      [5, 5, 2, 0, 1, 2, 0, 1, 2], [1, 0, 0], [0, 1, 0]⟩
    s.emitted = greedy compare t [5, 5] s.emitted.length ∧ 5 ≤ s.emitted.length ∧
      s.target = [5, 5] ++ s.emitted ∧ s.draft = s.target ∧
      ∀ r, specStep compare t d 4 s.target s.draft s.targetLogits s.draftLogits = .ok r →
        r.target = s.target ++ r.accepted ∧ r.draft = r.target ∧
        s.emitted ++ r.accepted =
          greedy compare t [5, 5] (s.emitted.length + r.accepted.length) :=
  spec_stream_eq_greedy compare (countingModel 3) (countingModel 2) 4 (by decide) [5, 5] 5 _
    (by rfl)

end ShannonPrime.Spec
