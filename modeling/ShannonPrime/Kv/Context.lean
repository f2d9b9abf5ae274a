import ShannonPrime.Kv.Anchor

/-!
The tokens in the cache, and what the steps of a call do to them when the device fails one
of them: a failing layer leaves the position where it was, a failing sync comes after it
has moved.
-/

namespace ShannonPrime.Kv

variable {T X R : Type*}

/-- The tokens the next step attends to, in order. -/
def Session.context (s : Session T X R) : List T := (List.range s.dpos).map s.dseq

@[simp] theorem context_length (s : Session T X R) : s.context.length = s.dpos := by
  simp [Session.context]

/-- The fault stops the step before the position moves. -/
def Fault.halts (g : Geometry) (head : Bool) : Option Fault → Bool
  | some (.layer m _) => m < g.nl || (m == g.nl && head)
  | _ => false

/-- The step returns 0. -/
def Fault.passes (g : Geometry) (head : Bool) (f : Option Fault) : Bool :=
  !Fault.halts g head f && (Fault.atSync f).isNone

theorem halts_of_passes {g : Geometry} {head : Bool} {f : Option Fault}
    (h : Fault.passes g head f = true) : Fault.halts g head f = false := by
  rw [Fault.passes, Bool.and_eq_true] at h
  simpa using h.1

section Steps

variable (K : Kernels T X R) (g : Geometry)

theorem g4KvStep_err_iff (head : Bool) (f : Option Fault) (s : Session T X R) :
    (g4KvStep K g head f s).err = none ↔ Fault.halts g head f = false := by
  match f with
  | none => simp [Fault.halts, g4KvStep_err K g head none s fun _ _ => rfl]
  | some (.sync text) =>
      simp [Fault.halts, g4KvStep_err K g head (some (.sync text)) s fun _ _ => rfl]
  | some (.layer m text) =>
      have hfault := fun hlt => layerLoop_fault_err K g m text (List.range g.nl)
        (List.mem_range.mpr hlt) (s.disarm.slide g)
        (K.ple s.bxOn (s.dseq s.dpos) (s.inj.getD (K.embed (s.dseq s.dpos))))
      have hclear := fun (hge : g.nl ≤ m) => layerLoop_err K g (some (.layer m text))
        (List.range g.nl) (s.disarm.slide g)
        (K.ple s.bxOn (s.dseq s.dpos) (s.inj.getD (K.embed (s.dseq s.dpos))))
        (by rw [slide_dpos]; exact fun hring => slide_span_lt g s.disarm hring)
        (fun l hl => if_neg (by have := List.mem_range.mp hl; omega))
      rcases Nat.lt_or_ge m g.nl with hlt | hge
      · have herr := hfault hlt
        simp only [g4KvStep, Fault.halts, hlt, decide_true, Bool.true_or, Bool.true_eq_false,
          iff_false]
        cases hout : (layerLoop K g (some (.layer m text)) (List.range g.nl) (s.disarm.slide g)
          (K.ple s.bxOn (s.dseq s.dpos) (s.inj.getD (K.embed (s.dseq s.dpos))))).err with
        | some e => simp
        | none => exact absurd hout herr
      · have hnot : ¬m < g.nl := by omega
        simp only [g4KvStep, hclear hge, Fault.halts, hnot, decide_false, Bool.false_or]
        cases head with
        | false => simp
        | true =>
            rcases eq_or_ne m g.nl with rfl | hne
            · simp [Fault.atLayer]
            · simp [Fault.atLayer, hne]

/-- What a step does to the counters and to the tokens behind it. -/
theorem tick_counters (head : Bool) (f : Option Fault) (s : Session T X R) :
    ((tick K g head f s).err = none ↔ Fault.passes g head f = true) ∧
      (tick K g head f s).session.dpos = s.dpos + (if Fault.halts g head f then 0 else 1) ∧
      (tick K g head f s).session.commitPos = (s.slide g).commitPos ∧
      ∀ q, q ≠ s.dpos + 1 ∨ head = false → (tick K g head f s).session.dseq q = s.dseq q := by
  obtain ⟨row, dseq, hsession, _, _, hseq, _⟩ := g4KvStep_effect K g head f s
  obtain ⟨_, _, _, hcommit, _⟩ := tick_journal K g head f s
  have hiff := g4KvStep_err_iff K g head f s
  have hpast : ∀ q, q ≠ s.dpos + 1 ∨ head = false →
      (g4KvStep K g head f s).session.dseq q = s.dseq q := by
    intro q hq
    rw [hsession]
    exact hseq q hq
  have hpos : (g4KvStep K g head f s).session.dpos = s.dpos := by
    rw [hsession]
    simp [Session.withSeq]
  cases herr : (g4KvStep K g head f s).err with
  | some e =>
      have hhalts : Fault.halts g head f = true := by
        rw [herr] at hiff
        simpa using hiff
      have htick : tick K g head f s = g4KvStep K g head f s := by simp only [tick, herr]
      refine ⟨?_, ?_, hcommit, ?_⟩
      · simp [htick, herr, Fault.passes, hhalts]
      · rw [htick, hpos, hhalts]
        rfl
      · rw [htick]
        exact hpast
  | none =>
      have hmoves : Fault.halts g head f = false := hiff.mp herr
      have htick : tick K g head f s =
          ⟨Fault.atSync f, (g4KvStep K g head f s).session.advance,
            (g4KvStep K g head f s).reads⟩ := by simp only [tick, herr]
      refine ⟨?_, ?_, hcommit, ?_⟩
      · simp [htick, Fault.passes, hmoves]
      · rw [htick, hmoves]
        exact congrArg (· + 1) hpos
      · rw [htick]
        exact hpast

/-! The base of the journal -/

/-- The base lies at or behind the position, within the journal's depth when there is a ring. -/
structure Based (g : Geometry) (s : Session T X R) : Prop where
  low : s.commitPos ≤ s.dpos
  span : 0 < g.ringW → s.dpos - s.commitPos ≤ g.jmax

/-- The base a step at `s` leaves, when it leaves the position at `d`. -/
def baseAt (g : Geometry) (s : Session T X R) (d : Nat) : Nat :=
  if 0 < g.ringW then max s.commitPos (d - g.jmax) else s.commitPos

theorem slide_baseAt {s : Session T X R} (h : Based g s) :
    (s.slide g).commitPos = baseAt g s (s.dpos + 1) := by
  have hj := g.jmax_pos
  have hlow := h.low
  rw [slide_commitPos, baseAt]
  rcases Nat.eq_zero_or_pos g.ringW with hring | hring
  · have hnot : ¬s.slides g := fun hs => by
      have := hs.1
      omega
    rw [if_neg hnot, if_neg (by omega)]
  · have hspan := h.span hring
    rw [if_pos hring]
    split
    · rename_i hs
      have hfull := hs.2
      omega
    · rename_i hs
      have hfree : ¬g.jmax ≤ s.dpos - s.commitPos := fun hfull => hs ⟨hring, hfull⟩
      omega

/-- Steps keep the base. -/
theorem Based.tick {s : Session T X R} (h : Based g s) (head : Bool) (f : Option Fault) :
    Based g (Kv.tick K g head f s).session := by
  obtain ⟨_, hdpos, hcommit, _⟩ := tick_counters K g head f s
  have hj := g.jmax_pos
  have hlow := h.low
  rw [slide_baseAt g h, baseAt] at hcommit
  constructor
  · rw [hcommit, hdpos]
    split <;> split <;> omega
  · intro hring
    rw [hcommit, hdpos, if_pos hring]
    split <;> omega

/-! The steps of a prefill -/

/-- The ticks of a prefill of `n` tokens from index `i` on. -/
def ticksFrom (n i k : Nat) (fs : Script) : List (Op T X R) :=
  (List.range' i k).map fun j => .tick (j + 1 == n) (fs j)

/-- What steps in a row leave: the position never behind where it was, the tokens as they were
fed, and when all return 0 the position past all of them and the base with it. -/
structure Stepped (g : Geometry) (s s' : Session T X R) (k : Nat) (ok : Prop) : Prop where
  based : Based g s'
  forward : s.dpos ≤ s'.dpos
  dseq : ∀ q, q < s.dpos + k → s'.dseq q = s.dseq q
  all : ok → s'.dpos = s.dpos + k ∧ s'.commitPos = baseAt g s (s.dpos + k)

theorem ticksFrom_stepped {n i k : Nat} (hk : i + k ≤ n) (fs : Script) {s : Session T X R}
    (h : Based g s) :
    Stepped g s (runOps K g (ticksFrom n i k fs) s).session k
      ((runOps K g (ticksFrom n i k fs) s).err = none) := by
  induction k generalizing i s with
  | zero =>
      refine ⟨h, Nat.le_refl _, fun _ _ => rfl, fun _ => ⟨rfl, ?_⟩⟩
      have hlow := h.low
      rw [Nat.add_zero, baseAt]
      split
      · rename_i hring
        have hspan := h.span hring
        have hle : s.dpos - g.jmax ≤ s.commitPos := by omega
        exact (max_eq_left hle).symm
      · rfl
  | succ k ih =>
      obtain ⟨hpass, hdpos, hcommit, hseq⟩ := tick_counters K g (i + 1 == n) (fs i) s
      have hbased := h.tick K g (i + 1 == n) (fs i)
      rw [slide_baseAt g h] at hcommit
      have hlast : ∀ q, q < s.dpos + (k + 1) →
          (tick K g (i + 1 == n) (fs i) s).session.dseq q = s.dseq q := by
        intro q hq
        apply hseq
        cases hhead : (i + 1 == n) with
        | false => exact Or.inr rfl
        | true =>
            have hend : i + 1 = n := by simpa using hhead
            exact Or.inl (by omega)
      have hqueue : ticksFrom (T := T) (X := X) (R := R) n i (k + 1) fs =
          .tick (i + 1 == n) (fs i) :: ticksFrom n (i + 1) k fs := by
        simp [ticksFrom, List.range'_succ]
      rw [hqueue]
      simp only [runOps, runOp]
      cases herr : (tick K g (i + 1 == n) (fs i) s).err with
      | some e =>
          refine ⟨hbased, ?_, hlast, fun hok => by simp [herr] at hok⟩
          rw [hdpos]
          omega
      | none =>
          have hmoved := halts_of_passes (hpass.mp herr)
          rw [hmoved] at hdpos
          simp only [Bool.false_eq_true, if_false] at hdpos
          obtain ⟨hbased', hforward, hseq', hall⟩ := ih (i := i + 1) (by omega) hbased
          dsimp only
          refine ⟨hbased', by omega, fun q hq => ?_, fun hok => ?_⟩
          · rw [hseq' q (by omega), hlast q hq]
          · obtain ⟨hd, hc⟩ := hall hok
            refine ⟨by omega, ?_⟩
            rw [hc]
            simp only [baseAt, hcommit, hdpos]
            split <;> omega

/-- Whether a prefill's steps all return 0. -/
theorem ticksFrom_ok {n i k : Nat} (fs : Script) (s : Session T X R) :
    (runOps K g (ticksFrom n i k fs) s).err = none ↔
      ∀ j, j < k → Fault.passes g (i + j + 1 == n) (fs (i + j)) = true := by
  induction k generalizing i s with
  | zero => simp [ticksFrom, runOps]
  | succ k ih =>
      obtain ⟨hpass, _⟩ := tick_counters K g (i + 1 == n) (fs i) s
      have hqueue : ticksFrom (T := T) (X := X) (R := R) n i (k + 1) fs =
          .tick (i + 1 == n) (fs i) :: ticksFrom n (i + 1) k fs := by
        simp [ticksFrom, List.range'_succ]
      rw [hqueue]
      simp only [runOps, runOp]
      cases herr : (tick K g (i + 1 == n) (fs i) s).err with
      | some e =>
          simp only [herr, reduceCtorEq, false_iff, not_forall]
          refine ⟨0, Nat.succ_pos k, fun hpasses => ?_⟩
          rw [hpass.mpr hpasses] at herr
          cases herr
      | none =>
          rw [ih]
          constructor
          · intro hrest j hj
            cases j with
            | zero => exact hpass.mp herr
            | succ j =>
                have hat : i + (j + 1) = i + 1 + j := by omega
                rw [hat]
                exact hrest j (by omega)
          · intro hall j hj
            have hat : i + 1 + j = i + (j + 1) := by omega
            rw [hat]
            exact hall (j + 1) (by omega)

/-- The first step decides whether the position moves at all. -/
theorem ticksFrom_first {n i k : Nat} (hk : i + (k + 1) ≤ n) (fs : Script) {s : Session T X R}
    (h : Based g s) :
    if Fault.halts g (i + 1 == n) (fs i) then
      (runOps K g (ticksFrom n i (k + 1) fs) s).session.dpos = s.dpos
    else s.dpos < (runOps K g (ticksFrom n i (k + 1) fs) s).session.dpos := by
  obtain ⟨hpass, hdpos, _, _⟩ := tick_counters K g (i + 1 == n) (fs i) s
  have hqueue : ticksFrom (T := T) (X := X) (R := R) n i (k + 1) fs =
      .tick (i + 1 == n) (fs i) :: ticksFrom n (i + 1) k fs := by
    simp [ticksFrom, List.range'_succ]
  have hforward := (ticksFrom_stepped K g (n := n) (i := i + 1) (k := k) (by omega) fs
    (h.tick K g (i + 1 == n) (fs i))).forward
  rw [hqueue]
  simp only [runOps, runOp]
  cases herr : (tick K g (i + 1 == n) (fs i) s).err with
  | some e =>
      dsimp only
      split
      · rename_i hhalts
        rw [hdpos, if_pos hhalts, Nat.add_zero]
      · rename_i hmoves
        rw [hdpos, if_neg hmoves]
        exact Nat.lt_succ_self _
  | none =>
      have hmoves := halts_of_passes (hpass.mp herr)
      rw [hmoves] at hdpos ⊢
      simp only [Bool.false_eq_true, if_false] at hdpos ⊢
      omega

/-! The calls of a turn -/

theorem Based.feed {s : Session T X R} (h : Based g s) (toks : List T) :
    Based g (s.feed toks) :=
  ⟨h.low, h.span⟩

/-- Tokens fed and stepped over stand behind the ones already there. -/
theorem Stepped.context {s s' : Session T X R} {toks : List T} {ok : Prop}
    (h : Stepped g (s.feed toks) s' toks.length ok) (hok : ok) :
    s'.context = s.context ++ toks := by
  obtain ⟨hdpos, _⟩ := h.all hok
  have hstart : (s.feed toks).dpos = s.dpos := rfl
  rw [hstart] at hdpos
  apply List.ext_getElem
  · simp [hdpos]
  · intro q hq hq'
    have hlt : q < s.dpos + toks.length := by
      rw [context_length, hdpos] at hq
      exact hq
    have hseq := h.dseq q hlt
    simp only [Session.context, List.getElem_map, List.getElem_range]
    rw [hseq]
    rcases Nat.lt_or_ge q s.dpos with hold | hnew
    · rw [List.getElem_append_left (by simpa [Session.context] using hold)]
      simp [Session.feed, show ¬s.dpos ≤ q by omega]
    · have hin : q - s.dpos < toks.length := by omega
      rw [List.getElem_append_right (by simpa [Session.context] using hnew)]
      simp [Session.feed, hnew, hin]

/-- Tokens fed behind the position leave the ones before it. -/
theorem Stepped.context_of_back {s s' : Session T X R} {toks : List T} {ok : Prop}
    (h : Stepped g (s.feed toks) s' toks.length ok) (hback : s'.dpos = s.dpos) :
    s'.context = s.context := by
  simp only [Session.context, hback]
  apply List.map_congr_left
  intro q hq
  have hlt : q < s.dpos := List.mem_range.mp hq
  rw [h.dseq q (Nat.lt_of_lt_of_le hlt (Nat.le_add_right _ _))]
  simp [Session.feed, show ¬s.dpos ≤ q by omega]

/-- A prefill that starts steps over its tokens, as far as the device lets it. -/
theorem prefill_stepped {toks : List T} (fs : Script) {s : Session T X R} (h : Based g s)
    (hne : toks ≠ []) (hroom : s.dpos + toks.length ≤ g.pmax) :
    Stepped g (s.feed toks) ((Call.prefill toks fs).exec K g s).session toks.length
        (((Call.prefill toks fs).exec K g s).err = none) ∧
      (((Call.prefill toks fs).exec K g s).err = none ↔
        ∀ j, j < toks.length → Fault.passes g (j + 1 == toks.length) (fs j) = true) ∧
      if Fault.halts g (1 == toks.length) (fs 0) then
        ((Call.prefill toks fs).exec K g s).session.dpos = s.dpos
      else s.dpos < ((Call.prefill toks fs).exec K g s).session.dpos := by
  have hempty : ¬toks.isEmpty = true := by simpa using hne
  have hfits : ¬g.pmax < s.dpos + toks.length := by omega
  have hexec : ((Call.prefill toks fs).exec K g s).err =
        (runOps K g (ticksFrom toks.length 0 toks.length fs) (s.feed toks)).err ∧
      ((Call.prefill toks fs).exec K g s).session =
        (runOps K g (ticksFrom toks.length 0 toks.length fs) (s.feed toks)).session := by
    simp only [Call.exec, Call.queue, gemma4KvPrefill, if_neg hempty, if_neg hfits, runOps, runOp]
    rw [prefillTicks, ticksFrom, List.range_eq_range']
    exact ⟨rfl, rfl⟩
  rw [hexec.1, hexec.2]
  refine ⟨ticksFrom_stepped K g (by omega) fs (h.feed g toks), ?_, ?_⟩
  · rw [ticksFrom_ok]
    simp only [Nat.zero_add]
  · obtain ⟨k, hk⟩ : ∃ k, toks.length = k + 1 := by
      cases toks with
      | nil => exact absurd rfl hne
      | cons tok rest => exact ⟨rest.length, rfl⟩
    have hfirst := ticksFrom_first K g (n := toks.length) (i := 0) (k := k) (by omega) fs
      (h.feed g toks)
    rw [Nat.zero_add, ← hk] at hfirst
    exact hfirst

/-- One that does not start leaves the session alone. -/
theorem prefill_refused {toks : List T} (fs : Script) {s : Session T X R}
    (h : toks = [] ∨ g.pmax < s.dpos + toks.length) :
    ((Call.prefill toks fs).exec K g s).err ≠ none ∧
      ((Call.prefill toks fs).exec K g s).session = s := by
  have hqueue : ∃ text, gemma4KvPrefill (X := X) (R := R) g s toks fs = .error text := by
    rcases h with rfl | h
    · exact ⟨_, rfl⟩
    · by_cases hempty : toks.isEmpty = true
      · exact ⟨_, by rw [gemma4KvPrefill, if_pos hempty]⟩
      · exact ⟨_, by rw [gemma4KvPrefill, if_neg hempty, if_pos h]⟩
  obtain ⟨text, hqueue⟩ := hqueue
  simp [Call.exec, Call.queue, hqueue]

theorem decodeLogits_stepped (tok : T) (f : Option Fault) {s : Session T X R} (h : Based g s)
    (hroom : s.dpos + 1 < g.pmax) :
    Stepped g (s.feed [tok]) ((Call.decodeLogits tok f).exec K g s).session 1
        (((Call.decodeLogits tok f).exec K g s).err = none) ∧
      (((Call.decodeLogits tok f).exec K g s).err = none ↔ Fault.passes g true f = true) := by
  have hexec := decodeLogits_exec K g tok f s
  rw [if_pos hroom] at hexec
  have hone : runOps K g (ticksFrom 1 0 1 fun _ => f) (s.feed [tok]) =
      tick K g true f (s.feed [tok]) := by
    simp only [ticksFrom, List.range'_one, List.map_cons, List.map_nil, runOps, runOp]
    cases herr : (tick K g (0 + 1 == 1) f (s.feed [tok])).err with
    | some e => rfl
    | none => simp [← herr]
  have hstepped := ticksFrom_stepped K g (n := 1) (i := 0) (k := 1) (Nat.le_refl 1)
    (fun _ => f) (h.feed g [tok])
  rw [hone] at hstepped
  rw [hexec.1, hexec.2]
  exact ⟨hstepped, (tick_counters K g true f (s.feed [tok])).1⟩

/-- A rewind over what was appended: refused, and then without effect, when the journal does
not reach that far. -/
theorem rewind_session {n : Nat} {s : Session T X R} (hn : n ≤ s.dpos) :
    ((Call.rewind n).exec K g s).session =
      if 0 < g.ringW ∧ s.dpos - s.commitPos < n then s else s.undo g n := by
  have hsound : ¬((n : Int) < 0 ∨ (s.dpos : Int) < n) := by omega
  have hcross : (0 < g.ringW ∧ ((s.dpos - s.commitPos : Nat) : Int) < n) ↔
      0 < g.ringW ∧ s.dpos - s.commitPos < n := by
    rw [Int.ofNat_lt]
  by_cases hpast : 0 < g.ringW ∧ s.dpos - s.commitPos < n
  · simp only [Call.exec, Call.queue, gemma4KvRewind, if_neg hsound, hcross, if_pos hpast]
  · simp only [Call.exec, Call.queue, gemma4KvRewind, if_neg hsound, hcross, if_neg hpast]
    simp [runOps, runOp]

theorem undo_context (s : Session T X R) (n : Nat) :
    (s.undo g n).context = s.context.take (s.dpos - n) := by
  have hmin : min (s.dpos - n) s.dpos = s.dpos - n := by omega
  simp only [Session.context, Session.undo]
  rw [← List.map_take, List.take_range, hmin]

end Steps

end ShannonPrime.Kv
