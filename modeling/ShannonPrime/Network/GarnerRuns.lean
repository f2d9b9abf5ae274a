import ShannonPrime.Network.Garner

/-!
Whole runs of the recombination loop. When no block is delivered twice, every sequence has
at most one result, made of its own two blocks with each prime in its place, and a pair
whose tasks are at their end has its result.
-/

namespace ShannonPrime.Network

open Runs

namespace GarnerLoop

section Runs

variable (nttN : Nat) (crt : Option (List UInt32 → List UInt32 → List Int))

/-- The block that a step delivers. -/
def delivered : GarnerStep → Option (UInt64 × Bool)
  | .receive _ b => some b.key
  | _ => none

variable {nttN crt} {events : List GarnerStep}

/-- A step brings no block that it does not deliver. -/
theorem key_mem_of_step {s : GarnerLoop} {e : GarnerStep} {u : Nat} {k : StreamTask}
    (hk : (s.step nttN crt e).task u = some k) :
    (∃ k', s.task u = some k' ∧ k'.block = k.block) ∨ delivered e = some k.block.key := by
  have hset : ∀ {s' : GarnerLoop} {t : Nat} {b : ResidueBlock} {p p' : Phase},
      s'.task = s.task → s.task t = some ⟨b, p⟩ → (s'.setTask t b p').task u = some k →
        ∃ k', s.task u = some k' ∧ k'.block = k.block := by
    intro s' t b p p' htask ht hk
    by_cases hu : u = t
    · subst hu
      rw [setTask_task_self, Option.some_inj] at hk
      subst hk
      exact ⟨_, ht, rfl⟩
    · rw [setTask_task_ne hu, htask] at hk
      exact ⟨k, hk, rfl⟩
  cases e with
  | receive t b =>
      simp only [step] at hk
      split at hk
      · by_cases hu : u = t
        · subst hu
          rw [setTask_task_self, Option.some_inj] at hk
          subst hk
          exact Or.inr rfl
        · rw [setTask_task_ne hu] at hk
          exact Or.inl ⟨k, hk, rfl⟩
      · exact Or.inl ⟨k, hk, rfl⟩
  | insert t =>
      left
      simp only [step] at hk
      split at hk
      · exact hset rfl ‹_› hk
      · exact ⟨k, hk, rfl⟩
  | remove t =>
      left
      simp only [step] at hk
      split at hk
      · split at hk
        · exact hset rfl ‹_› hk
        · exact hset rfl ‹_› hk
      · exact ⟨k, hk, rfl⟩
  | send t =>
      left
      simp only [step] at hk
      split at hk
      · exact hset rfl ‹_› hk
      · exact ⟨k, hk, rfl⟩

/-- The blocks of the tasks have been delivered. -/
theorem key_mem_delivered (events : List GarnerStep) {u : Nat} {k : StreamTask}
    (hk : (after (step nttN crt) init events).task u = some k) :
    k.block.key ∈ events.filterMap delivered := by
  induction events using List.reverseRecOn generalizing u k with
  | nil => cases hk
  | append_singleton events e ih =>
      rw [after_concat] at hk
      rw [List.filterMap_append, List.mem_append]
      rcases key_mem_of_step hk with ⟨k', hk', hblock⟩ | hnew
      · left
        rw [← hblock]
        exact ih hk'
      · right
        simp [hnew]

theorem each_fresh (honce : (events.filterMap delivered).Nodup) :
    Each (step nttN crt) Fresh init events := by
  intro before e hbefore
  have hsub : ((before ++ [e]).filterMap delivered).Nodup :=
    honce.sublist (hbefore.sublist.filterMap delivered)
  cases e with
  | receive t b =>
      intro u k hk hkey
      rw [List.filterMap_append] at hsub
      have hmem := key_mem_delivered before hk
      rw [hkey] at hmem
      exact List.disjoint_of_nodup_append hsub hmem (by simp [delivered])
  | insert t | remove t | send t => exact trivial

theorem inv_run (honce : (events.filterMap delivered).Nodup) :
    Inv nttN crt (after (step nttN crt) init events) :=
  ((each_fresh honce).always inv_init fun _ e h hfresh => inv_step e h hfresh).last

end Runs

section Recombined

variable (nttN : Nat) (crt : Option (List UInt32 → List UInt32 → List Int))

/-- The results are those of the pairs of blocks, each once. -/
structure Recombined (s : GarnerLoop) : Prop where
  once : ∀ seq, (s.resultsOf seq).length ≤ 1
  paired : ∀ r ∈ s.results, ∃ t₁ t₂ k₁ k₂, s.task t₁ = some k₁ ∧ s.task t₂ = some k₂ ∧
    k₁.block.key = (r.seqId, true) ∧ k₂.block.key = (r.seqId, false) ∧
    ∃ recombine, crt = some recombine ∧
      r.coeffs = recombine k₁.block.residues k₂.block.residues
  emitted : ∀ seq t₁ t₂ k₁ k₂, s.task t₁ = some k₁ → s.task t₂ = some k₂ →
    k₁.block.key = (seq, true) → k₂.block.key = (seq, false) →
    k₁.phase = .finished → k₂.phase = .finished →
    k₁.block.residues.length = nttN → k₂.block.residues.length = nttN → crt.isSome →
    ∃ r ∈ s.results, r.seqId = seq

variable {nttN crt} {seq : UInt64} {s : GarnerLoop}

/-- The entry of a pair has the residues of each prime in their place. -/
theorem Pair.joined_eq {b b' : ResidueBlock} (h : Pair seq b b') :
    (b.key = (seq, true) ∧ b'.key = (seq, false) ∧
        joined b b' = ⟨some b.residues, some b'.residues, b.tokenPos, b.layerId⟩) ∨
      (b'.key = (seq, true) ∧ b.key = (seq, false) ∧
        joined b b' = ⟨some b'.residues, some b.residues, b.tokenPos, b.layerId⟩) := by
  obtain ⟨rfl, hseq, hprimes⟩ := h
  cases hb : b.isQ1 with
  | true =>
      have hb' : b'.isQ1 = false := by
        rw [hb] at hprimes
        exact Bool.eq_false_iff.mpr (Ne.symm hprimes)
      left
      simp [ResidueBlock.key, joined, ResidueBlock.store, ResidueBlock.newEntry, hb, hb', hseq]
  | false =>
      have hb' : b'.isQ1 = true := by
        rw [hb] at hprimes
        exact Bool.eq_true_of_not_eq_false (Ne.symm hprimes)
      right
      simp [ResidueBlock.key, joined, ResidueBlock.store, ResidueBlock.newEntry, hb, hb', hseq]

theorem assemble_eq_some {q1 q2 : List UInt32} {pos : UInt32} {layer : UInt32}
    {r : GarnerResult} :
    assemble nttN crt seq ⟨some q1, some q2, pos, layer⟩ = some r ↔
      (q1.length = nttN ∧ q2.length = nttN) ∧
        ∃ recombine, crt = some recombine ∧ ⟨seq, pos, layer, recombine q1 q2⟩ = r := by
  simp only [assemble]
  split
  · rename_i hlen
    constructor
    · intro h
      cases h
    · rintro ⟨⟨h₁, h₂⟩, -⟩
      rcases hlen with h | h
      · exact absurd h₁ h
      · exact absurd h₂ h
  · rename_i hlen
    rw [not_or, not_not, not_not] at hlen
    rw [Option.map_eq_some_iff]
    exact (and_iff_right hlen).symm

theorem Inv.once (h : Inv nttN crt s) (seq : UInt64) : (s.resultsOf seq).length ≤ 1 := by
  obtain ⟨stage, hstage⟩ := h.stages seq
  cases stage with
  | idle => simp [hstage.2.1]
  | half t b => simp [hstage.2.2.1]
  | full t b t' b' => simp [hstage.2.2.1]
  | taken t b t' b' =>
      obtain ⟨-, -, -, ⟨r, -, hempty, -⟩ | ⟨hdone, -⟩⟩ := hstage
      · simp [hempty]
      · rw [hdone]
        exact Option.length_toList_le

/-- A result has come from a pair that has been taken out. -/
theorem Inv.of_result (h : Inv nttN crt s) {r : GarnerResult} (hr : r ∈ s.results) :
    ∃ t b t' b' p, Pair r.seqId b b' ∧ s.task t = some ⟨b, .finished⟩ ∧
      s.task t' = some ⟨b', p⟩ ∧ assemble nttN crt r.seqId (joined b b') = some r := by
  have hmem : r ∈ s.resultsOf r.seqId := List.mem_filter.mpr ⟨hr, by simp⟩
  obtain ⟨stage, hstage⟩ := h.stages r.seqId
  cases stage with
  | idle =>
      rw [hstage.2.1] at hmem
      cases hmem
  | half t b =>
      rw [hstage.2.2.1] at hmem
      cases hmem
  | full t b t' b' =>
      rw [hstage.2.2.1] at hmem
      cases hmem
  | taken t b t' b' =>
      obtain ⟨hpair, -, ht, ⟨r', -, hempty, -⟩ | ⟨hdone, ht'⟩⟩ := hstage
      · rw [hempty] at hmem
        cases hmem
      · rw [hdone, Option.mem_toList] at hmem
        exact ⟨t, b, t', b', .finished, hpair, ht, ht', hmem⟩

theorem Inv.paired (h : Inv nttN crt s) {r : GarnerResult} (hr : r ∈ s.results) :
    ∃ t₁ t₂ k₁ k₂, s.task t₁ = some k₁ ∧ s.task t₂ = some k₂ ∧
      k₁.block.key = (r.seqId, true) ∧ k₂.block.key = (r.seqId, false) ∧
      ∃ recombine, crt = some recombine ∧
        r.coeffs = recombine k₁.block.residues k₂.block.residues := by
  obtain ⟨t, b, t', b', p, hpair, ht, ht', hassemble⟩ := h.of_result hr
  rcases hpair.joined_eq with ⟨h₁, h₂, hjoined⟩ | ⟨h₁, h₂, hjoined⟩
  · rw [hjoined] at hassemble
    obtain ⟨-, recombine, hcrt, hr⟩ := assemble_eq_some.mp hassemble
    exact ⟨t, t', _, _, ht, ht', h₁, h₂, recombine, hcrt, by rw [← hr]⟩
  · rw [hjoined] at hassemble
    obtain ⟨-, recombine, hcrt, hr⟩ := assemble_eq_some.mp hassemble
    exact ⟨t', t, _, _, ht', ht, h₁, h₂, recombine, hcrt, by rw [← hr]⟩

/-- Two tasks of a sequence at their end have seen the entry taken out. -/
theorem Inv.taken_of_finished (h : Inv nttN crt s) {t₁ t₂ : Nat} {k₁ k₂ : StreamTask}
    (hne : t₁ ≠ t₂) (h₁ : s.task t₁ = some k₁) (h₂ : s.task t₂ = some k₂)
    (hseq₁ : k₁.block.seqId = seq) (hseq₂ : k₂.block.seqId = seq)
    (hp₁ : k₁.phase = .finished) (hp₂ : k₂.phase = .finished) :
    ∃ b b', ((b = k₁.block ∧ b' = k₂.block) ∨ (b = k₂.block ∧ b' = k₁.block)) ∧
      Pair seq b b' ∧ s.resultsOf seq = (assemble nttN crt seq (joined b b')).toList := by
  obtain ⟨stage, hstage⟩ := h.stages seq
  -- neither task can be one that waits
  have hlate : ∀ {t b p}, s.task t = some ⟨b, p⟩ → t = t₁ ∨ t = t₂ → p = .finished := by
    rintro t b p ht (rfl | rfl)
    · rw [h₁, Option.some_inj] at ht
      rw [ht] at hp₁
      exact hp₁
    · rw [h₂, Option.some_inj] at ht
      rw [ht] at hp₂
      exact hp₂
  -- two tasks of the sequence are the two of a pair
  have hsame : ∀ {t t' : Nat} {b b' : ResidueBlock} {p p' : Phase}, Pair seq b b' →
      s.task t = some ⟨b, p⟩ → s.task t' = some ⟨b', p'⟩ →
        (t = t₁ ∧ t' = t₂) ∨ (t = t₂ ∧ t' = t₁) := by
    intro t t' b b' p p' hpair ht ht'
    rcases h.distinct.eq_or_eq hpair ht ht' h₁ hseq₁ with rfl | rfl
    · rcases h.distinct.eq_or_eq hpair ht ht' h₂ hseq₂ with rfl | rfl
      · exact absurd rfl hne
      · exact Or.inl ⟨rfl, rfl⟩
    · rcases h.distinct.eq_or_eq hpair ht ht' h₂ hseq₂ with rfl | rfl
      · exact Or.inr ⟨rfl, rfl⟩
      · exact absurd rfl hne
  cases stage with
  | idle =>
      have hp := hstage.2.2 t₁ k₁ h₁ hseq₁
      rw [hp₁] at hp
      cases hp
  | half t b =>
      obtain ⟨-, -, -, -, hall⟩ := hstage
      by_cases hu : t₁ = t
      · have hp := hall t₂ k₂ (fun heq => hne (hu.trans heq.symm)) h₂ hseq₂
        rw [hp₂] at hp
        cases hp
      · have hp := hall t₁ k₁ hu h₁ hseq₁
        rw [hp₁] at hp
        cases hp
  | full t b t' b' =>
      obtain ⟨hpair, -, -, ht, ht'⟩ := hstage
      have hmem : t' = t₁ ∨ t' = t₂ := by
        rcases hsame hpair ht ht' with ⟨-, heq⟩ | ⟨-, heq⟩
        · exact Or.inr heq
        · exact Or.inl heq
      cases hlate ht' hmem
  | taken t b t' b' =>
      obtain ⟨hpair, -, ht, ⟨r, -, -, ht'⟩ | ⟨hdone, ht'⟩⟩ := hstage
      · have hmem : t' = t₁ ∨ t' = t₂ := by
          rcases hsame hpair ht ht' with ⟨-, heq⟩ | ⟨-, heq⟩
          · exact Or.inr heq
          · exact Or.inl heq
        cases hlate ht' hmem
      · refine ⟨b, b', ?_, hpair, hdone⟩
        rcases hsame hpair ht ht' with ⟨rfl, rfl⟩ | ⟨rfl, rfl⟩
        · rw [ht, Option.some_inj] at h₁
          rw [ht', Option.some_inj] at h₂
          rw [← h₁, ← h₂]
          exact Or.inl ⟨rfl, rfl⟩
        · rw [ht', Option.some_inj] at h₁
          rw [ht, Option.some_inj] at h₂
          rw [← h₁, ← h₂]
          exact Or.inr ⟨rfl, rfl⟩

theorem Inv.emitted (h : Inv nttN crt s) {t₁ t₂ : Nat} {k₁ k₂ : StreamTask}
    (h₁ : s.task t₁ = some k₁) (h₂ : s.task t₂ = some k₂)
    (hkey₁ : k₁.block.key = (seq, true)) (hkey₂ : k₂.block.key = (seq, false))
    (hp₁ : k₁.phase = .finished) (hp₂ : k₂.phase = .finished)
    (hlen₁ : k₁.block.residues.length = nttN) (hlen₂ : k₂.block.residues.length = nttN)
    (hcrt : crt.isSome) : ∃ r ∈ s.results, r.seqId = seq := by
  have hne : t₁ ≠ t₂ := by
    rintro rfl
    rw [h₁, Option.some_inj] at h₂
    rw [h₂, hkey₂] at hkey₁
    simp at hkey₁
  have hseq₁ : k₁.block.seqId = seq := (Prod.mk.inj hkey₁).1
  have hseq₂ : k₂.block.seqId = seq := (Prod.mk.inj hkey₂).1
  obtain ⟨b, b', hblocks, hpair, hdone⟩ :=
    h.taken_of_finished hne h₁ h₂ hseq₁ hseq₂ hp₁ hp₂
  have hlen : b.residues.length = nttN ∧ b'.residues.length = nttN := by
    rcases hblocks with ⟨rfl, rfl⟩ | ⟨rfl, rfl⟩
    · exact ⟨hlen₁, hlen₂⟩
    · exact ⟨hlen₂, hlen₁⟩
  obtain ⟨recombine, hrecombine⟩ := Option.isSome_iff_exists.mp hcrt
  obtain ⟨r, hr⟩ : ∃ r, assemble nttN crt seq (joined b b') = some r := by
    rcases hpair.joined_eq with ⟨-, -, hjoined⟩ | ⟨-, -, hjoined⟩
    · rw [hjoined]
      exact ⟨_, assemble_eq_some.mpr ⟨hlen, recombine, hrecombine, rfl⟩⟩
    · rw [hjoined]
      exact ⟨_, assemble_eq_some.mpr ⟨⟨hlen.2, hlen.1⟩, recombine, hrecombine, rfl⟩⟩
  have hmem : r ∈ s.resultsOf seq := by
    rw [hdone, hr]
    exact List.mem_singleton.mpr rfl
  exact ⟨r, (List.mem_filter.mp hmem).1, seqId_of_assemble hr⟩

/-- In any order of the tasks' steps, blocks delivered at most once give each sequence at
most one result, of its own two blocks, and a pair whose tasks are at their end has it. -/
theorem garner_recombines_once (nttN : Nat)
    (crt : Option (List UInt32 → List UInt32 → List Int)) (events : List GarnerStep)
    (honce : (events.filterMap delivered).Nodup) :
    Recombined nttN crt (after (step nttN crt) init events) :=
  have h := inv_run honce
  { once := h.once
    paired := fun _ hr => h.paired hr
    emitted := fun _ _ _ _ _ h₁ h₂ hkey₁ hkey₂ hp₁ hp₂ hlen₁ hlen₂ hcrt =>
      h.emitted h₁ h₂ hkey₁ hkey₂ hp₁ hp₂ hlen₁ hlen₂ hcrt }

end Recombined

/-- A block of residues zero. -/
def zeroBlock (seqId : UInt64) (primeSelector : UInt8) (n : Nat) : ResidueBlock :=
  ⟨seqId, 0, 0, primeSelector, List.replicate n 0⟩

/-- Two sequences whose tasks overlap; the second prime of the first comes before its
first. -/
theorem two_sequences_recombined :
    Recombined 128 (some fun q1 _ => q1.map fun _ => 0)
      (after (step 128 (some fun q1 _ => q1.map fun _ => 0)) init
        [.receive 0 (zeroBlock 5 1 128), .receive 1 (zeroBlock 6 0 128), .insert 1, .insert 0,
          .receive 2 (zeroBlock 5 0 128), .insert 2, .receive 3 (zeroBlock 6 1 128), .remove 2,
          .insert 3, .remove 3, .send 3, .send 2]) :=
  garner_recombines_once 128 _ _ (by decide)

/-- Two blocks of one length that is not the loop's: both tasks come to their end and there
is no result. -/
theorem short_pair_dropped :
    ∃ events : List GarnerStep, (events.filterMap delivered).Nodup ∧
      (∀ e ∈ events, ∀ t b, e = .receive t b → b.residues.length = 64) ∧
      ∃ s, s = after (step 128 (some fun q1 _ => q1.map fun _ => 0)) init events ∧
        (s.task 0).map StreamTask.phase = some .finished ∧
        (s.task 1).map StreamTask.phase = some .finished ∧ s.results = [] := by
  refine ⟨[.receive 0 (zeroBlock 5 0 64), .receive 1 (zeroBlock 5 1 64), .insert 0, .insert 1,
    .remove 1], by decide, ?_, _, rfl, rfl, rfl, rfl⟩
  intro e he t b heq
  subst heq
  simp only [List.mem_cons, GarnerStep.receive.injEq, reduceCtorEq, or_false,
    List.not_mem_nil] at he
  rcases he with ⟨-, rfl⟩ | ⟨-, rfl⟩
  · exact List.length_replicate
  · exact List.length_replicate

end GarnerLoop

end ShannonPrime.Network
