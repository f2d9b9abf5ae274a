import ShannonPrime.Lib.Argmax
import ShannonPrime.Daemon.Sampler

/-!
The greedy decoders. The dialogue's loop and the kernels of the decode step take the first of the
greatest logits, the sampler takes the last, and the kernel of the diffusion step the one whose
lane its tree prefers; the kernels know no logit at or below their start value. They select alike
just where these make no difference.
-/

namespace ShannonPrime.Daemon

open Argmax

/-- `dialogue::argmax` -/
def dialogueArgmax (logits : List F32) : Nat :=
  (logits.zipIdx.foldl (fun best x => if best.1.lt x.1 then x else best) (F32.negInf, 0)).2

/-- `-3.4e38f` -/
def lowest : F32 := ⟨0xFF7FC99E⟩

def logitAt (logits : List F32) (i : Nat) : F32 := logits.getD i F32.zero

/-- What a thread of a block of 256 finds. -/
def threadBest (x : Nat → F32) (n t : Nat) : F32 × Nat := scan F32.lt x n 256 n t (lowest, 0)

/-- Of two equal values the one of lower index beats the other. -/
def beatsIndex (b a : F32 × Nat) : Bool := a.1.lt b.1 || b.1.eq a.1 && b.2 < a.2

def kArgmax (logits : List F32) : Nat :=
  (halvings beatsIndex 8 (threadBest (logitAt logits) logits.length)).2

/-- The index is written behind the token at `dpos`. -/
def kArgmaxAt (logits : List F32) (dseq : List Nat) (dpos : Nat) : List Nat :=
  dseq.set (dpos + 1) (kArgmax logits)

/-- The argmax of `dg_sample_kernel`, in which `scale` multiplies by `inv_temp`. -/
def dgArgmax (scale : F32 → F32) (logits : List F32) : Nat :=
  (halvings (fun b a => a.1.lt b.1) 8
    (threadBest (fun v => scale (logitAt logits v)) logits.length)).2

/-! ## What each selects -/

theorem compares_lt : Compares F32.lt F32.rank fun x => x.isNaN = false :=
  ⟨F32.lt_iff_rank, fun h => (F32.lt_iff.mp h).2.1⟩

section Searches

variable {logits : List F32}

theorem isNaN_negInf : F32.negInf.isNaN = false := by decide

theorem isNaN_lowest : lowest.isNaN = false := by decide

theorem zipIdx_eq (logits : List F32) :
    logits.zipIdx = (List.range logits.length).map fun i => (logitAt logits i, i) := by
  apply List.ext_getElem
  · simp
  · intro i hi hi'
    rw [List.length_zipIdx] at hi
    simp [logitAt, List.getD_eq_getElem?_getD, List.getElem?_eq_getElem hi]

/-- The dialogue's loop finds the first of the greatest. -/
theorem dialogue_best (logits : List F32) :
    ∃ slot, Best F32.rank (logitAt logits) F32.negInf id (· < logits.length) slot ∧
      slot.2 = dialogueArgmax logits := by
  have hscan : ∀ m, Best F32.rank (logitAt logits) F32.negInf id (· < m)
      (((List.range m).map fun i => (logitAt logits i, i)).foldl
        (fun best x => if best.1.lt x.1 then x else best) (F32.negInf, 0)) ∧
      (((List.range m).map fun i => (logitAt logits i, i)).foldl
        (fun best x => if best.1.lt x.1 then x else best) (F32.negInf, 0)).1.isNaN = false := by
    intro m
    induction m with
    | zero => exact ⟨best_start _ _ _ _ fun j => Nat.not_lt_zero j, isNaN_negInf⟩
    | succ m ih =>
        obtain ⟨hbest, hnumber⟩ := ih
        rw [List.range_succ, List.map_append, List.foldl_append]
        obtain ⟨hstep, hnumber'⟩ := hbest.step compares_lt hnumber fun j hj => hj
        exact ⟨hstep.congr fun j => by omega, hnumber'⟩
  refine ⟨_, (hscan logits.length).1, ?_⟩
  rw [dialogueArgmax, zipIdx_eq]

/-- A step of the sampler's comparison goes on to what is not less. -/
theorem cmp_step {x y : F32} (hy : y.isNaN = false) :
    x.cmp y = .gt ↔ y.rank < x.rank := by
  rw [F32.cmp_eq_gt, F32.lt_iff_rank hy]

/-- The sampler finds the last of the greatest. -/
theorem sampler_last (hnumbers : ∀ i < logits.length, (logitAt logits i).isNaN = false)
    (hne : logits ≠ []) :
    ∃ i < logits.length, Spec.argmax F32.cmp logits = (i : Nat) ∧ ∀ j < logits.length,
      (logitAt logits j).rank ≤ (logitAt logits i).rank ∧
        ((logitAt logits j).rank = (logitAt logits i).rank → j ≤ i) := by
  have hscan : ∀ m < logits.length, ∃ i ≤ m,
      ((List.range m).map fun k => (logitAt logits (k + 1), k + 1)).foldl
        (fun best y => if best.1.cmp y.1 = .gt then best else y) (logitAt logits 0, 0) =
          (logitAt logits i, i) ∧
      ∀ j ≤ m, (logitAt logits j).rank ≤ (logitAt logits i).rank ∧
        ((logitAt logits j).rank = (logitAt logits i).rank → j ≤ i) := by
    intro m hm
    induction m with
    | zero =>
        refine ⟨0, Nat.le_refl 0, rfl, fun j hj => ?_⟩
        obtain rfl := Nat.le_zero.mp hj
        exact ⟨le_rfl, fun _ => le_rfl⟩
    | succ m ih =>
        obtain ⟨i, hi, hfold, hall⟩ := ih (Nat.lt_of_succ_lt hm)
        have hstep := cmp_step (x := logitAt logits i) (hnumbers (m + 1) hm)
        rw [List.range_succ, List.map_append, List.foldl_append, hfold, List.map_singleton,
          List.foldl_cons, List.foldl_nil]
        by_cases hover : (logitAt logits i).cmp (logitAt logits (m + 1)) = .gt
        · refine ⟨i, by omega, if_pos hover, fun j hj => ?_⟩
          rcases Nat.le_succ_iff.mp hj with hj | rfl
          · exact hall j hj
          · have hlt := hstep.mp hover
            exact ⟨hlt.le, fun heq => absurd heq hlt.ne⟩
        · have hle := le_of_not_gt fun hlt => hover (hstep.mpr hlt)
          refine ⟨m + 1, Nat.le_refl _, if_neg hover, fun j hj => ⟨?_, fun _ => hj⟩⟩
          rcases Nat.le_succ_iff.mp hj with hj | rfl
          · exact (hall j hj).1.trans hle
          · exact le_rfl
  obtain ⟨m, hm⟩ : ∃ m, logits.length = m + 1 :=
    ⟨logits.length - 1, by have := List.length_pos_iff.mpr hne; omega⟩
  obtain ⟨i, hi, hfold, hall⟩ := hscan m (by omega)
  refine ⟨i, by omega, ?_, fun j hj => hall j (by omega)⟩
  rw [Spec.argmax, zipIdx_eq, hm, List.range_succ_eq_map, List.map_cons, List.map_map]
  exact congrArg (fun p : F32 × Nat => (p.2 : Int)) hfold

theorem threadBest_number (x : Nat → F32) (n t : Nat) : (threadBest x n t).1.isNaN = false :=
  scan_number compares_lt isNaN_lowest

/-- Each thread finds the best of its lane. -/
theorem threads_lanes (x : Nat → F32) (n : Nat) :
    Lanes F32.rank x lowest n 8 (threadBest x n) := by
  intro t ht
  have hnone : ∀ j, ¬((j < n ∧ j % 256 = t % 256) ∧ j < t) := by
    rintro j ⟨⟨-, hmod⟩, hlt⟩
    omega
  have hscan := @scan_best _ _ _ F32.rank x lowest (lowest, 0) t n F32.lt
    (fun x => x.isNaN = false) compares_lt 256 n (by omega) (Nat.le_add_left n t)
    (best_start _ _ _ _ hnone) isNaN_lowest
  refine hscan.congr fun j => ?_
  have hwidth : 2 ^ 8 = 256 := rfl
  have hmod : t % 256 = t := Nat.mod_eq_of_lt ht
  rw [hwidth, hmod]

theorem beatsIndex_iff {a b : F32 × Nat} (ha : a.1.isNaN = false) (hb : b.1.isNaN = false) :
    beatsIndex b a = true ↔ a.1.rank < b.1.rank ∨ a.1.rank = b.1.rank ∧ b.2 < a.2 := by
  have heq : b.1.eq a.1 = true ↔ a.1.rank = b.1.rank := by
    rw [F32.rank_of_number ha, F32.rank_of_number hb, WithBot.coe_inj, F32.eq, ha, hb, Bool.not_false,
      Bool.true_and, Bool.true_and, beq_iff_eq]
    exact eq_comm
  rw [beatsIndex, Bool.or_eq_true, Bool.and_eq_true, F32.lt_iff_rank ha, heq, decide_eq_true_eq]

/-- The kernels of the decode step find the first of the greatest. -/
theorem kArgmax_best (logits : List F32) :
    ∃ slot, Best F32.rank (logitAt logits) lowest id (· < logits.length) slot ∧
      slot.2 = kArgmax logits := by
  have hbest := (threads_lanes (logitAt logits) logits.length).halvings_index
    (fun x : F32 => x.isNaN = false) (threadBest_number _ _) fun a b => beatsIndex_iff
  exact ⟨_, hbest, rfl⟩

/-- The place of an index in the order of the diffusion kernel's tree. -/
def lanePlace (j : Nat) : Nat ×ₗ Nat := toLex (rev 8 (j % 2 ^ 8), j)

/-- The index has the greatest of the products, the first in the order of the tree, or none of them
is above the start value and it is 0. -/
def Leads (scale : F32 → F32) (logits : List F32) (i : Nat) : Prop :=
  ∃ slot, Best F32.rank (fun v => scale (logitAt logits v)) lowest lanePlace (· < logits.length)
    slot ∧ slot.2 = i

theorem dgArgmax_leads (scale : F32 → F32) (logits : List F32) :
    Leads scale logits (dgArgmax scale logits) := by
  have hbest := (threads_lanes (fun v => scale (logitAt logits v)) logits.length).halvings_lane
    (fun x : F32 => x.isNaN = false) (threadBest_number _ _) fun _ _ ha _ => F32.lt_iff_rank ha
  exact ⟨_, hbest, rfl⟩

theorem Leads.unique {scale : F32 → F32} {i j : Nat} (h : Leads scale logits i)
    (h' : Leads scale logits j) : i = j := by
  obtain ⟨slot, hbest, rfl⟩ := h
  obtain ⟨slot', hbest', rfl⟩ := h'
  exact hbest.unique lane_injective hbest'

end Searches

/-! ## Where they agree -/

/-- All five select the index of the dialogue's loop. -/
structure Alike (scale : F32 → F32) (logits : List F32) : Prop where
  sampler : Spec.argmax F32.cmp logits = (dialogueArgmax logits : Nat)
  kernel : kArgmax logits = dialogueArgmax logits
  kernelAt : ∀ dseq dpos, dpos + 1 < dseq.length →
    (kArgmaxAt logits dseq dpos)[dpos + 1]? = some (dialogueArgmax logits)
  diffusion : dgArgmax scale logits = dialogueArgmax logits

/-- One logit is the greatest, the kernels' start value is not above it or it is the first, and its
product leads in the diffusion kernel. -/
def Decided (scale : F32 → F32) (logits : List F32) : Prop :=
  ∃ i < logits.length,
    (∀ j < logits.length, j ≠ i → (logitAt logits j).lt (logitAt logits i) = true) ∧
      (i = 0 ∨ lowest.lt (logitAt logits i) = true) ∧ Leads scale logits i

section Agreement

variable {scale : F32 → F32} {logits : List F32}

theorem number_of_finite (hfinite : ∀ x ∈ logits, x.isFinite = true) {i : Nat}
    (hi : i < logits.length) : F32.negInf.lt (logitAt logits i) = true ∧
      (logitAt logits i).isNaN = false := by
  have hmem : logitAt logits i ∈ logits := by
    rw [logitAt, List.getD_eq_getElem _ _ hi]
    exact List.getElem_mem hi
  exact ⟨F32.negInf_lt_of_isFinite (hfinite _ hmem), F32.isNaN_of_isFinite (hfinite _ hmem)⟩

/-- A search from below all finite numbers finds a greatest logit, and the first of them. -/
theorem dialogue_first (hfinite : ∀ x ∈ logits, x.isFinite = true) (hne : logits ≠ []) :
    dialogueArgmax logits < logits.length ∧ ∀ j < logits.length,
      (logitAt logits j).rank ≤ (logitAt logits (dialogueArgmax logits)).rank ∧
        ((logitAt logits j).rank = (logitAt logits (dialogueArgmax logits)).rank →
          dialogueArgmax logits ≤ j) := by
  obtain ⟨slot, hbest, hindex⟩ := dialogue_best logits
  rw [← hindex]
  have hpos := List.length_pos_iff.mpr hne
  rcases hbest with ⟨rfl, hnone⟩ | ⟨hin, hvalue, -, hall⟩
  · have habove := (F32.lt_iff_rank isNaN_negInf).mp (number_of_finite hfinite hpos).1
    exact absurd habove (hnone 0 hpos).not_gt
  · rw [hvalue] at hall
    exact ⟨hin, hall⟩

/-- The greedy decoders select alike exactly on the rows that are decided. -/
theorem decoders_alike_iff (scale : F32 → F32) (logits : List F32) (hne : logits ≠ [])
    (hfinite : ∀ x ∈ logits, x.isFinite = true) :
    Alike scale logits ↔ Decided scale logits := by
  obtain ⟨hin, hfirst⟩ := dialogue_first hfinite hne
  obtain ⟨last, hlast, hsampler, hall⟩ :=
    sampler_last (fun i hi => (number_of_finite hfinite hi).2) hne
  obtain ⟨slot, hbest, hkernel⟩ := kArgmax_best logits
  constructor
  · intro h
    obtain rfl : last = dialogueArgmax logits := Int.ofNat_inj.mp (hsampler.symm.trans h.sampler)
    refine ⟨dialogueArgmax logits, hin, fun j hj hother => ?_, ?_, ?_⟩
    · rw [F32.lt_iff_rank (number_of_finite hfinite hj).2]
      refine lt_of_le_of_ne (hfirst j hj).1 fun heq => hother ?_
      exact le_antisymm ((hall j hj).2 heq) ((hfirst j hj).2 heq)
    · rw [h.kernel] at hkernel
      rw [← hkernel]
      rcases hbest with ⟨rfl, -⟩ | ⟨-, hvalue, habove, -⟩
      · exact Or.inl rfl
      · rw [hvalue] at habove
        exact Or.inr ((F32.lt_iff_rank isNaN_lowest).mpr habove)
    · rw [← h.diffusion]
      exact dgArgmax_leads scale logits
  · rintro ⟨i, hi, hsingle, hstart, hleads⟩
    -- whatever has a greatest logit is `i`
    have honly : ∀ j < logits.length, (logitAt logits i).rank ≤ (logitAt logits j).rank → j = i := by
      intro j hj hle
      by_contra hother
      have hlt := (F32.lt_iff_rank (number_of_finite hfinite hj).2).mp (hsingle j hj hother)
      exact absurd hlt hle.not_gt
    have hdialogue : dialogueArgmax logits = i := honly _ hin (hfirst i hi).1
    have hk : kArgmax logits = i := by
      rw [← hkernel]
      rcases hbest with ⟨rfl, hnone⟩ | ⟨hseen, hvalue, -, hall'⟩
      · rcases hstart with rfl | habove
        · rfl
        · exact absurd ((F32.lt_iff_rank isNaN_lowest).mp habove) (hnone i hi).not_gt
      · rw [hvalue] at hall'
        exact honly _ hseen (hall' i hi).1
    refine ⟨?_, ?_, fun dseq dpos hdpos => ?_, ?_⟩
    · rw [hsampler, hdialogue, honly last hlast (hall i hi).1]
    · rw [hk, hdialogue]
    · rw [kArgmaxAt, List.getElem?_set_self hdpos, hk, hdialogue]
    · rw [hdialogue]
      exact (dgArgmax_leads scale logits).unique hleads

end Agreement

/-- Two logits of which the second is greater, and no scaling. -/
theorem decoders_alike_two : Alike id [F32.zero, one] ↔ Decided id [F32.zero, one] :=
  decoders_alike_iff id [F32.zero, one] (List.cons_ne_nil _ _) (by decide)

/-- Of two equal logits the dialogue's loop takes the first and the sampler the second. -/
theorem tie_not_alike : ¬Alike id [one, one] := fun h =>
  absurd h.sampler (by decide)

end ShannonPrime.Daemon
