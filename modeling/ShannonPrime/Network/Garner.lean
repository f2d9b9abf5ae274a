import Mathlib.Data.UInt
import Mathlib.Logic.Function.Basic
import Mathlib.Data.List.Nodup
import ShannonPrime.Lib.Runs

/-!
The recombination of residue blocks (`run_garner_loop`). Each block is handled by a task of
its own: it stores the residues in the pending entry of its sequence and sees in the same
step whether both primes are there; the task that sees both takes the entry out and
recombines. The recombination itself is a parameter; it is absent when `ntt_init` refuses
the size.
-/

namespace ShannonPrime.Network

open Runs

/-- `ResidueBlock` with the fields of its header that are read. -/
structure ResidueBlock where
  seqId : UInt64
  tokenPos : UInt32
  layerId : UInt32
  primeSelector : UInt8
  residues : List UInt32

structure PendingBlock where
  q1 : Option (List UInt32)
  q2 : Option (List UInt32)
  tokenPos : UInt32
  layerId : UInt32

structure GarnerResult where
  seqId : UInt64
  tokenPos : UInt32
  layerId : UInt32
  coeffs : List Int
  deriving DecidableEq

namespace ResidueBlock

variable (b : ResidueBlock)

/-- The block is the residue of the first prime. -/
def isQ1 : Bool := b.primeSelector == 0

/-- What a block is of: its sequence and its prime. -/
def key : UInt64 × Bool := (b.seqId, b.isQ1)

/-- The entry that `or_insert_with` makes. -/
def newEntry : PendingBlock := ⟨none, none, b.tokenPos, b.layerId⟩

def store (entry : PendingBlock) : PendingBlock :=
  if b.isQ1 then { entry with q1 := some b.residues } else { entry with q2 := some b.residues }

end ResidueBlock

def PendingBlock.both (entry : PendingBlock) : Bool := entry.q1.isSome && entry.q2.isSome

/-- How far the task of a block is: the block received, both residues seen, the result about
to be sent, at its end. -/
inductive Phase where
  | received
  | bothArrived
  | sending (r : GarnerResult)
  | finished

structure StreamTask where
  block : ResidueBlock
  phase : Phase

structure GarnerLoop where
  pending : UInt64 → Option PendingBlock
  task : Nat → Option StreamTask
  results : List GarnerResult

/-- The atomic steps, of any task in any order. -/
inductive GarnerStep where
  | receive (t : Nat) (b : ResidueBlock)
  | insert (t : Nat)
  | remove (t : Nat)
  | send (t : Nat)

namespace GarnerLoop

def init : GarnerLoop := ⟨fun _ => none, fun _ => none, []⟩

def setTask (s : GarnerLoop) (t : Nat) (b : ResidueBlock) (p : Phase) : GarnerLoop :=
  { s with task := Function.update s.task t (some ⟨b, p⟩) }

def setPending (s : GarnerLoop) (seq : UInt64) (entry : Option PendingBlock) : GarnerLoop :=
  { s with pending := Function.update s.pending seq entry }

section Step

variable (nttN : Nat) (crt : Option (List UInt32 → List UInt32 → List Int))

/-- What the task makes of the entry it has taken out. -/
def assemble (seq : UInt64) (entry : PendingBlock) : Option GarnerResult :=
  match entry.q1, entry.q2 with
  | some q1, some q2 =>
      if q1.length ≠ nttN ∨ q2.length ≠ nttN then none
      else crt.map fun recombine => ⟨seq, entry.tokenPos, entry.layerId, recombine q1 q2⟩
  | _, _ => none

/-- One step. One that its task cannot take now changes nothing. -/
def step (s : GarnerLoop) : GarnerStep → GarnerLoop
  | .receive t b => if (s.task t).isNone then s.setTask t b .received else s
  | .insert t =>
      match s.task t with
      | some ⟨b, .received⟩ =>
          let entry := b.store ((s.pending b.seqId).getD b.newEntry)
          (s.setPending b.seqId (some entry)).setTask t b
            (if entry.both then .bothArrived else .finished)
      | _ => s
  | .remove t =>
      match s.task t with
      | some ⟨b, .bothArrived⟩ =>
          match s.pending b.seqId with
          | none => s.setTask t b .finished
          | some entry =>
              (s.setPending b.seqId none).setTask t b
                ((assemble nttN crt b.seqId entry).elim .finished .sending)
      | _ => s
  | .send t =>
      match s.task t with
      | some ⟨b, .sending r⟩ => { s.setTask t b .finished with results := s.results ++ [r] }
      | _ => s

end Step

/-! What is known of one sequence -/

/-- How far the blocks of a sequence are: none stored, one stored by `t`, both stored (first
by `t`, then by `t'`), the entry taken out. -/
inductive Stage where
  | idle
  | half (t : Nat) (b : ResidueBlock)
  | full (t : Nat) (b : ResidueBlock) (t' : Nat) (b' : ResidueBlock)
  | taken (t : Nat) (b : ResidueBlock) (t' : Nat) (b' : ResidueBlock)

/-- The entry once both blocks are stored. -/
def joined (b b' : ResidueBlock) : PendingBlock := b'.store (b.store b.newEntry)

/-- The results of a sequence. -/
def resultsOf (s : GarnerLoop) (seq : UInt64) : List GarnerResult :=
  s.results.filter fun r => r.seqId = seq

section Describes

variable (nttN : Nat) (crt : Option (List UInt32 → List UInt32 → List Int))

/-- Two blocks of one sequence, one for each prime. -/
structure Pair (seq : UInt64) (b b' : ResidueBlock) : Prop where
  first : b.seqId = seq
  second : b'.seqId = seq
  primes : b.isQ1 ≠ b'.isQ1

def Describes (s : GarnerLoop) (seq : UInt64) : Stage → Prop
  | .idle => s.pending seq = none ∧ s.resultsOf seq = [] ∧
      ∀ u k, s.task u = some k → k.block.seqId = seq → k.phase = .received
  | .half t b => b.seqId = seq ∧ s.pending seq = some (b.store b.newEntry) ∧
      s.resultsOf seq = [] ∧ s.task t = some ⟨b, .finished⟩ ∧
      ∀ u k, u ≠ t → s.task u = some k → k.block.seqId = seq → k.phase = .received
  | .full t b t' b' => Pair seq b b' ∧ s.pending seq = some (joined b b') ∧
      s.resultsOf seq = [] ∧ s.task t = some ⟨b, .finished⟩ ∧ s.task t' = some ⟨b', .bothArrived⟩
  | .taken t b t' b' => Pair seq b b' ∧ s.pending seq = none ∧
      s.task t = some ⟨b, .finished⟩ ∧
      ((∃ r, assemble nttN crt seq (joined b b') = some r ∧ s.resultsOf seq = [] ∧
          s.task t' = some ⟨b', .sending r⟩) ∨
        (s.resultsOf seq = (assemble nttN crt seq (joined b b')).toList ∧
          s.task t' = some ⟨b', .finished⟩))

/-- No two tasks have a block of one sequence and prime. -/
def Distinct (s : GarnerLoop) : Prop :=
  ∀ u v k k', s.task u = some k → s.task v = some k' → k.block.key = k'.block.key → u = v

structure Inv (s : GarnerLoop) : Prop where
  distinct : s.Distinct
  stages : ∀ seq, ∃ stage, s.Describes nttN crt seq stage

/-- The two states do not differ in a sequence. -/
structure SameAt (seq : UInt64) (s s' : GarnerLoop) : Prop where
  pending : s'.pending seq = s.pending seq
  results : s'.resultsOf seq = s.resultsOf seq
  task : ∀ u k, k.block.seqId = seq → (s'.task u = some k ↔ s.task u = some k)

variable {nttN crt} {seq : UInt64} {s s' : GarnerLoop}

theorem SameAt.describes (h : SameAt seq s s') {stage : Stage}
    (hs : s.Describes nttN crt seq stage) : s'.Describes nttN crt seq stage := by
  obtain ⟨hpending, hresults, htask⟩ := h
  cases stage with
  | idle =>
      obtain ⟨hnone, hempty, hall⟩ := hs
      exact ⟨hpending.trans hnone, hresults.trans hempty,
        fun u k hk hseq => hall u k ((htask u k hseq).mp hk) hseq⟩
  | half t b =>
      obtain ⟨hb, hsome, hempty, ht, hall⟩ := hs
      exact ⟨hb, hpending.trans hsome, hresults.trans hempty, (htask t _ hb).mpr ht,
        fun u k hu hk hseq => hall u k hu ((htask u k hseq).mp hk) hseq⟩
  | full t b t' b' =>
      obtain ⟨hpair, hsome, hempty, ht, ht'⟩ := hs
      exact ⟨hpair, hpending.trans hsome, hresults.trans hempty, (htask t _ hpair.first).mpr ht,
        (htask t' _ hpair.second).mpr ht'⟩
  | taken t b t' b' =>
      obtain ⟨hpair, hnone, ht, hend⟩ := hs
      refine ⟨hpair, hpending.trans hnone, (htask t _ hpair.first).mpr ht, ?_⟩
      rcases hend with ⟨r, hr, hempty, ht'⟩ | ⟨hdone, ht'⟩
      · exact Or.inl ⟨r, hr, hresults.trans hempty, (htask t' _ hpair.second).mpr ht'⟩
      · exact Or.inr ⟨hresults.trans hdone, (htask t' _ hpair.second).mpr ht'⟩

/-- A step of a task leaves the other sequences alone. -/
theorem sameAt_of_task {t : Nat} {b : ResidueBlock} {p : Option Phase} {p' : Phase}
    {entry : Option PendingBlock}
    (hold : s.task t = p.map fun p => ⟨b, p⟩) (hne : b.seqId ≠ seq) :
    SameAt seq s ((s.setPending b.seqId entry).setTask t b p') := by
  refine ⟨Function.update_of_ne (Ne.symm hne) _ _, rfl, fun u k hk => ?_⟩
  by_cases hu : u = t
  · subst hu
    simp only [setTask, setPending, Function.update_self, Option.some_inj]
    constructor
    · intro heq
      subst heq
      exact absurd hk hne
    · intro heq
      rw [hold] at heq
      cases p with
      | none => cases heq
      | some p =>
          rw [Option.map_some, Option.some_inj] at heq
          subst heq
          exact absurd hk hne
  · simp only [setTask, setPending, Function.update_of_ne hu]

/-- A pair of a sequence leaves no room for the block of a third task. -/
theorem Distinct.eq_or_eq (hs : s.Distinct) {t t' u : Nat} {b b' : ResidueBlock} {p p' : Phase}
    (hpair : Pair seq b b') (ht : s.task t = some ⟨b, p⟩) (ht' : s.task t' = some ⟨b', p'⟩)
    {k : StreamTask} (hu : s.task u = some k) (hseq : k.block.seqId = seq) : u = t ∨ u = t' := by
  have hprimes := hpair.primes
  by_cases hrole : k.block.isQ1 = b.isQ1
  · left
    apply hs u t k _ hu ht
    simp only [ResidueBlock.key, hrole, hseq, hpair.first]
  · right
    apply hs u t' k _ hu ht'
    have hrole' : k.block.isQ1 = b'.isQ1 := by
      cases h : k.block.isQ1 <;> cases h₁ : b.isQ1 <;> cases h₂ : b'.isQ1 <;> simp_all
    simp only [ResidueBlock.key, hrole', hseq, hpair.second]

/-- Blocks of two tasks of one sequence are a pair. -/
theorem Distinct.pair (hs : s.Distinct) {t t' : Nat} {b b' : ResidueBlock} {p p' : Phase}
    (hne : t ≠ t') (ht : s.task t = some ⟨b, p⟩) (ht' : s.task t' = some ⟨b', p'⟩)
    (hb : b.seqId = seq) (hb' : b'.seqId = seq) : Pair seq b b' := by
  refine ⟨hb, hb', fun hrole => hne ?_⟩
  apply hs t t' _ _ ht ht'
  simp only [ResidueBlock.key, hrole, hb, hb']

end Describes

end GarnerLoop

namespace ResidueBlock

theorem both_store_newEntry (b : ResidueBlock) : (b.store b.newEntry).both = false := by
  cases h : b.isQ1 <;> simp [store, newEntry, PendingBlock.both, h]

end ResidueBlock

namespace GarnerLoop

theorem Pair.both_joined {seq : UInt64} {b b' : ResidueBlock} (h : Pair seq b b') :
    (joined b b').both = true := by
  have hprimes := h.primes
  cases hb : b.isQ1 <;> cases hb' : b'.isQ1 <;>
    simp_all [joined, ResidueBlock.store, ResidueBlock.newEntry, PendingBlock.both]

section Steps

variable {nttN : Nat} {crt : Option (List UInt32 → List UInt32 → List Int)}
variable {seq : UInt64} {s : GarnerLoop}

theorem seqId_of_assemble {entry : PendingBlock} {r : GarnerResult}
    (h : assemble nttN crt seq entry = some r) : r.seqId = seq := by
  unfold assemble at h
  split at h
  · split at h
    · cases h
    · obtain ⟨recombine, -, rfl⟩ := Option.map_eq_some_iff.mp h
      rfl
  · cases h

@[simp] theorem setTask_task_self (t : Nat) (b : ResidueBlock) (p : Phase) :
    (s.setTask t b p).task t = some ⟨b, p⟩ := Function.update_self _ _ _

theorem setTask_task_ne {t u : Nat} (h : u ≠ t) (b : ResidueBlock) (p : Phase) :
    (s.setTask t b p).task u = s.task u := Function.update_of_ne h _ _

@[simp] theorem setTask_pending (t : Nat) (b : ResidueBlock) (p : Phase) :
    (s.setTask t b p).pending = s.pending := rfl

@[simp] theorem setTask_resultsOf (t : Nat) (b : ResidueBlock) (p : Phase) :
    (s.setTask t b p).resultsOf seq = s.resultsOf seq := rfl

@[simp] theorem setPending_pending (seq : UInt64) (entry : Option PendingBlock) :
    (s.setPending seq entry).pending seq = entry := Function.update_self _ _ _

@[simp] theorem setPending_task (seq : UInt64) (entry : Option PendingBlock) :
    (s.setPending seq entry).task = s.task := rfl

@[simp] theorem setPending_resultsOf (seq' : UInt64) (entry : Option PendingBlock) :
    (s.setPending seq' entry).resultsOf seq = s.resultsOf seq := rfl

theorem setPending_self (seq : UInt64) : s.setPending seq (s.pending seq) = s := by
  simp only [setPending, Function.update_eq_self]

/-- A task changes its phase and not its block. -/
theorem Distinct.setTask (hs : s.Distinct) {t : Nat} {b : ResidueBlock} {p : Phase}
    (ht : s.task t = some ⟨b, p⟩) (p' : Phase) : (s.setTask t b p').Distinct := by
  have hblock : ∀ u k, (s.setTask t b p').task u = some k →
      ∃ k', s.task u = some k' ∧ k'.block = k.block := by
    intro u k hk
    by_cases hu : u = t
    · subst hu
      rw [setTask_task_self, Option.some_inj] at hk
      subst hk
      exact ⟨_, ht, rfl⟩
    · rw [setTask_task_ne hu] at hk
      exact ⟨k, hk, rfl⟩
  intro u v k k' hk hk' hkey
  obtain ⟨m, hm, hmk⟩ := hblock u k hk
  obtain ⟨m', hm', hmk'⟩ := hblock v k' hk'
  apply hs u v m m' hm hm'
  rw [hmk, hmk', hkey]

/-- After a step of a task only its own sequence is looked at anew. -/
theorem Inv.of_task (h : Inv nttN crt s) {t : Nat} {b : ResidueBlock} {p : Option Phase}
    {p' : Phase} {entry : Option PendingBlock} (ht : s.task t = p.map fun p => ⟨b, p⟩)
    (hdistinct : ((s.setPending b.seqId entry).setTask t b p').Distinct)
    (hstage : ∃ stage,
      ((s.setPending b.seqId entry).setTask t b p').Describes nttN crt b.seqId stage) :
    Inv nttN crt ((s.setPending b.seqId entry).setTask t b p') := by
  refine ⟨hdistinct, fun seq => ?_⟩
  by_cases hseq : b.seqId = seq
  · subst hseq
    exact hstage
  · obtain ⟨stage, hold⟩ := h.stages seq
    exact ⟨stage, (sameAt_of_task ht hseq).describes hold⟩

/-- No task has a block of this sequence and prime. -/
def Fresh (s : GarnerLoop) : GarnerStep → Prop
  | .receive _ b => ∀ u k, s.task u = some k → k.block.key ≠ b.key
  | _ => True

theorem Inv.receive (h : Inv nttN crt s) {t : Nat} {b : ResidueBlock} (ht : s.task t = none)
    (hfresh : s.Fresh (.receive t b)) : Inv nttN crt (s.setTask t b .received) := by
  have hkeep := setPending_self (s := s) b.seqId
  rw [← hkeep]
  have hdistinct : (s.setTask t b .received).Distinct := by
    intro u v k k' hk hk' hkey
    by_cases hu : u = t
    · by_cases hv : v = t
      · rw [hu, hv]
      · subst hu
        rw [setTask_task_self, Option.some_inj] at hk
        rw [setTask_task_ne hv] at hk'
        subst hk
        exact absurd hkey.symm (hfresh v k' hk')
    · rw [setTask_task_ne hu] at hk
      by_cases hv : v = t
      · subst hv
        rw [setTask_task_self, Option.some_inj] at hk'
        subst hk'
        exact absurd hkey (hfresh u k hk)
      · rw [setTask_task_ne hv] at hk'
        exact h.distinct u v k k' hk hk' hkey
  -- a pair of the sequence would have the block's key already
  have hnopair : ∀ {t₁ t₂ : Nat} {b₁ b₂ : ResidueBlock} {p₁ p₂ : Phase},
      Pair b.seqId b₁ b₂ → s.task t₁ = some ⟨b₁, p₁⟩ → s.task t₂ = some ⟨b₂, p₂⟩ → False := by
    intro t₁ t₂ b₁ b₂ p₁ p₂ hpair h₁ h₂
    have hne₁ : t₁ ≠ t := by
      rintro rfl
      rw [ht] at h₁
      cases h₁
    have hne₂ : t₂ ≠ t := by
      rintro rfl
      rw [ht] at h₂
      cases h₂
    have h₁' : (s.setTask t b .received).task t₁ = some ⟨b₁, p₁⟩ := by
      rw [setTask_task_ne hne₁, h₁]
    have h₂' : (s.setTask t b .received).task t₂ = some ⟨b₂, p₂⟩ := by
      rw [setTask_task_ne hne₂, h₂]
    rcases hdistinct.eq_or_eq hpair h₁' h₂' (setTask_task_self t b .received) rfl with h | h
    · exact hne₁ h.symm
    · exact hne₂ h.symm
  apply h.of_task (p := none) ht
  · rw [hkeep]
    exact hdistinct
  · rw [hkeep]
    obtain ⟨stage, hstage⟩ := h.stages b.seqId
    cases stage with
    | idle =>
        obtain ⟨hnone, hempty, hall⟩ := hstage
        refine ⟨.idle, hnone, hempty, fun u k hk hseq => ?_⟩
        by_cases hu : u = t
        · subst hu
          rw [setTask_task_self, Option.some_inj] at hk
          rw [← hk]
        · rw [setTask_task_ne hu] at hk
          exact hall u k hk hseq
    | half t₀ b₀ =>
        obtain ⟨hb₀, hsome, hempty, ht₀, hall⟩ := hstage
        have hne : t₀ ≠ t := by
          rintro rfl
          rw [ht] at ht₀
          cases ht₀
        refine ⟨.half t₀ b₀, hb₀, hsome, hempty, ?_, fun u k hu hk hseq => ?_⟩
        · rw [setTask_task_ne hne, ht₀]
        · by_cases hut : u = t
          · subst hut
            rw [setTask_task_self, Option.some_inj] at hk
            rw [← hk]
          · rw [setTask_task_ne hut] at hk
            exact hall u k hu hk hseq
    | full t₁ b₁ t₂ b₂ =>
        obtain ⟨hpair, -, -, h₁, h₂⟩ := hstage
        exact (hnopair hpair h₁ h₂).elim
    | taken t₁ b₁ t₂ b₂ =>
        obtain ⟨hpair, -, h₁, hend⟩ := hstage
        rcases hend with ⟨r, -, -, h₂⟩ | ⟨-, h₂⟩
        · exact (hnopair hpair h₁ h₂).elim
        · exact (hnopair hpair h₁ h₂).elim

theorem Inv.insert (h : Inv nttN crt s) {t : Nat} {b : ResidueBlock}
    (ht : s.task t = some ⟨b, .received⟩) :
    Inv nttN crt (s.step nttN crt (.insert t)) := by
  obtain ⟨stage, hstage⟩ := h.stages b.seqId
  simp only [step, ht]
  apply h.of_task (p := some .received) ht
  · exact Distinct.setTask (s := s.setPending _ _) h.distinct ht _
  cases stage with
  | idle =>
      obtain ⟨hnone, hempty, hall⟩ := hstage
      rw [hnone, Option.getD_none, b.both_store_newEntry]
      refine ⟨.half t b, rfl, ?_, hempty, ?_, fun u k hu hk hseq => ?_⟩
      · rw [setTask_pending, setPending_pending]
      · rw [setTask_task_self, if_neg Bool.false_ne_true]
      · rw [setTask_task_ne hu] at hk
        exact hall u k hk hseq
  | half t₀ b₀ =>
      obtain ⟨hb₀, hsome, hempty, ht₀, hall⟩ := hstage
      have hne : t₀ ≠ t := by
        rintro rfl
        rw [ht] at ht₀
        cases ht₀
      have hpair : Pair b.seqId b₀ b := h.distinct.pair hne ht₀ ht hb₀ rfl
      rw [hsome, Option.getD_some, ← joined, hpair.both_joined, if_pos rfl]
      refine ⟨.full t₀ b₀ t b, hpair, ?_, hempty, ?_, ?_⟩
      · rw [setTask_pending, setPending_pending]
      · rw [setTask_task_ne hne, setPending_task, ht₀]
      · rw [setTask_task_self]
  | full t₁ b₁ t₂ b₂ =>
      obtain ⟨hpair, -, -, h₁, h₂⟩ := hstage
      rcases h.distinct.eq_or_eq hpair h₁ h₂ ht rfl with rfl | rfl
      · rw [ht] at h₁
        cases h₁
      · rw [ht] at h₂
        cases h₂
  | taken t₁ b₁ t₂ b₂ =>
      obtain ⟨hpair, -, h₁, hend⟩ := hstage
      obtain ⟨p₂, h₂, hp₂⟩ : ∃ p₂, s.task t₂ = some ⟨b₂, p₂⟩ ∧ p₂ ≠ .received := by
        rcases hend with ⟨r, -, -, h₂⟩ | ⟨-, h₂⟩
        · exact ⟨_, h₂, fun heq => by cases heq⟩
        · exact ⟨_, h₂, fun heq => by cases heq⟩
      rcases h.distinct.eq_or_eq hpair h₁ h₂ ht rfl with rfl | rfl
      · rw [ht] at h₁
        cases h₁
      · rw [ht] at h₂
        cases h₂
        exact absurd rfl hp₂

/-- A task past the map has the second block of a pair. -/
theorem Inv.second_of_phase (h : Inv nttN crt s) {t : Nat} {b : ResidueBlock} {p : Phase}
    (ht : s.task t = some ⟨b, p⟩) (hreceived : p ≠ .received) (hfinished : p ≠ .finished) :
    (∃ t₁ b₁, s.Describes nttN crt b.seqId (.full t₁ b₁ t b)) ∨
      ∃ t₁ b₁, s.Describes nttN crt b.seqId (.taken t₁ b₁ t b) := by
  obtain ⟨stage, hstage⟩ := h.stages b.seqId
  have hsecond : ∀ {t₁ t₂ : Nat} {b₁ b₂ : ResidueBlock} {p₂ : Phase},
      Pair b.seqId b₁ b₂ → s.task t₁ = some ⟨b₁, .finished⟩ → s.task t₂ = some ⟨b₂, p₂⟩ →
        t₂ = t ∧ b₂ = b := by
    intro t₁ t₂ b₁ b₂ p₂ hpair h₁ h₂
    rcases h.distinct.eq_or_eq hpair h₁ h₂ ht rfl with rfl | rfl
    · rw [ht] at h₁
      cases h₁
      exact absurd rfl hfinished
    · rw [ht] at h₂
      cases h₂
      exact ⟨rfl, rfl⟩
  cases stage with
  | idle => exact absurd (hstage.2.2 t _ ht rfl) hreceived
  | half t₀ b₀ =>
      obtain ⟨-, -, -, ht₀, hall⟩ := hstage
      by_cases hu : t = t₀
      · subst hu
        rw [ht] at ht₀
        cases ht₀
        exact absurd rfl hfinished
      · exact absurd (hall t _ hu ht rfl) hreceived
  | full t₁ b₁ t₂ b₂ =>
      have hstage' := hstage
      obtain ⟨hpair, -, -, h₁, h₂⟩ := hstage'
      obtain ⟨rfl, rfl⟩ := hsecond hpair h₁ h₂
      exact Or.inl ⟨t₁, b₁, hstage⟩
  | taken t₁ b₁ t₂ b₂ =>
      have hstage' := hstage
      obtain ⟨hpair, -, h₁, hend⟩ := hstage'
      have hend' : ∃ p₂, s.task t₂ = some ⟨b₂, p₂⟩ := by
        rcases hend with ⟨r, -, -, h₂⟩ | ⟨-, h₂⟩
        · exact ⟨_, h₂⟩
        · exact ⟨_, h₂⟩
      obtain ⟨p₂, h₂⟩ := hend'
      obtain ⟨rfl, rfl⟩ := hsecond hpair h₁ h₂
      exact Or.inr ⟨t₁, b₁, hstage⟩

theorem Inv.remove (h : Inv nttN crt s) {t : Nat} {b : ResidueBlock}
    (ht : s.task t = some ⟨b, .bothArrived⟩) :
    Inv nttN crt (s.step nttN crt (.remove t)) := by
  rcases h.second_of_phase ht (fun heq => by cases heq) (fun heq => by cases heq) with
    ⟨t₁, b₁, hpair, hsome, hempty, h₁, -⟩ | ⟨t₁, b₁, -, -, -, hend⟩
  · have hne : t₁ ≠ t := by
      rintro rfl
      rw [ht] at h₁
      cases h₁
    simp only [step, ht, hsome]
    apply h.of_task (p := some .bothArrived) ht
    · exact Distinct.setTask (s := s.setPending _ _) h.distinct ht _
    · refine ⟨.taken t₁ b₁ t b, hpair, ?_, ?_, ?_⟩
      · rw [setTask_pending, setPending_pending]
      · rw [setTask_task_ne hne, setPending_task, h₁]
      · rw [setTask_resultsOf, setPending_resultsOf, setTask_task_self]
        cases hr : assemble nttN crt b.seqId (joined b₁ b) with
        | none => exact Or.inr ⟨hempty, rfl⟩
        | some r => exact Or.inl ⟨r, rfl, hempty, rfl⟩
  · rcases hend with ⟨r, -, -, h₂⟩ | ⟨-, h₂⟩
    · rw [ht] at h₂
      cases h₂
    · rw [ht] at h₂
      cases h₂

theorem Inv.send (h : Inv nttN crt s) {t : Nat} {b : ResidueBlock} {r : GarnerResult}
    (ht : s.task t = some ⟨b, .sending r⟩) :
    Inv nttN crt (s.step nttN crt (.send t)) := by
  rcases h.second_of_phase ht (fun heq => by cases heq) (fun heq => by cases heq) with
    ⟨t₁, b₁, -, -, -, -, h₂⟩ | ⟨t₁, b₁, hpair, hnone, h₁, hend⟩
  · rw [ht] at h₂
    cases h₂
  · obtain ⟨hr, hempty⟩ :
        assemble nttN crt b.seqId (joined b₁ b) = some r ∧ s.resultsOf b.seqId = [] := by
      rcases hend with ⟨r', hr', hempty, h₂⟩ | ⟨-, h₂⟩
      · rw [ht] at h₂
        cases h₂
        exact ⟨hr', hempty⟩
      · rw [ht] at h₂
        cases h₂
    have hseqr := seqId_of_assemble hr
    have hne : t₁ ≠ t := by
      rintro rfl
      rw [ht] at h₁
      cases h₁
    simp only [step, ht]
    refine ⟨h.distinct.setTask ht .finished, fun seq => ?_⟩
    by_cases hseq : b.seqId = seq
    · subst hseq
      refine ⟨.taken t₁ b₁ t b, hpair, hnone, ?_, Or.inr ⟨?_, ?_⟩⟩
      · exact (setTask_task_ne hne b .finished).trans h₁
      · rw [hr, Option.toList_some, resultsOf, List.filter_append]
        rw [resultsOf] at hempty
        rw [hempty]
        simp [hseqr]
      · exact setTask_task_self t b .finished
    · obtain ⟨stage, hold⟩ := h.stages seq
      have hsame : SameAt seq s ((s.setPending b.seqId (s.pending b.seqId)).setTask t b .finished) :=
        sameAt_of_task (p := some _) ht hseq
      rw [setPending_self] at hsame
      have hother : ¬ r.seqId = seq := fun heq => hseq (hseqr.symm.trans heq)
      have hsent : SameAt seq s
          { s.setTask t b .finished with results := s.results ++ [r] } := by
        refine ⟨rfl, ?_, hsame.task⟩
        rw [resultsOf, List.filter_append]
        simp [hother, resultsOf]
      exact ⟨stage, hsent.describes hold⟩

theorem inv_init : Inv nttN crt init :=
  ⟨fun u v k k' hk => (by cases hk), fun seq => ⟨.idle, rfl, rfl, fun u k hk => (by cases hk)⟩⟩

/-- The step lemma. -/
theorem inv_step (e : GarnerStep) (h : Inv nttN crt s) (hfresh : s.Fresh e) :
    Inv nttN crt (s.step nttN crt e) := by
  cases e with
  | receive t b =>
      cases ht : s.task t with
      | none => simpa only [step, ht, Option.isNone_none, if_true] using h.receive ht hfresh
      | some k => simpa [step, ht] using h
  | insert t =>
      match ht : s.task t with
      | some ⟨b, .received⟩ => exact h.insert ht
      | none | some ⟨b, .bothArrived⟩ | some ⟨b, .sending r⟩ | some ⟨b, .finished⟩ =>
          simpa only [step, ht] using h
  | remove t =>
      match ht : s.task t with
      | some ⟨b, .bothArrived⟩ => exact h.remove ht
      | none | some ⟨b, .received⟩ | some ⟨b, .sending r⟩ | some ⟨b, .finished⟩ =>
          simpa only [step, ht] using h
  | send t =>
      match ht : s.task t with
      | some ⟨b, .sending r⟩ => exact h.send ht
      | none | some ⟨b, .received⟩ | some ⟨b, .bothArrived⟩ | some ⟨b, .finished⟩ =>
          simpa only [step, ht] using h

end Steps

end GarnerLoop

end ShannonPrime.Network
