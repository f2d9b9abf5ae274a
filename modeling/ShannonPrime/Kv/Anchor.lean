import ShannonPrime.Kv.Linked
import ShannonPrime.Kv.Run

/-!
Positions written above an anchor and taken back. What has to survive are the rows
that can be read from the anchor. On a ring a position may overwrite one of them;
the entry of the first position that does so holds it, as long as the journal does
not slide. When it may slide, the slots written must not be readable ones.
-/

namespace ShannonPrime.Kv

variable {T X R : Type*}

/-- Slot `q` of owner `l` holds a row that a step at position `a` would attend to. -/
def Geometry.readable (g : Geometry) (a l q : Nat) : Bool :=
  (List.range g.nl).any fun l' => g.source l' == l &&
    (g.window l' a).any fun p => p != a && q == g.slot l' p

/-- The ring slots of the `n` positions from `a` are none of the readable ones. -/
def Geometry.apart (g : Geometry) (a n : Nat) : Bool :=
  (List.range g.nl).all fun l => !(g.isOwner l && g.isRinged l) ||
    (List.range n).all fun i => !g.readable a l ((a + i) % g.ringW)

theorem Geometry.lt_nl_of_isOwner {g : Geometry} {l : Nat} (hl : g.isOwner l = true) :
    l < g.nl := by
  simp only [Geometry.isOwner, decide_eq_true_eq] at hl
  exact hl.2

theorem Geometry.apart_not_readable {g : Geometry} {a n l p : Nat} (h : g.apart a n = true)
    (howner : g.isOwner l = true) (hringed : g.isRinged l = true) (hlo : a ≤ p)
    (hhi : p < a + n) : g.readable a l (p % g.ringW) = false := by
  simp only [Geometry.apart, List.all_eq_true, List.mem_range, Bool.or_eq_true,
    Bool.not_eq_true'] at h
  rcases h l (Geometry.lt_nl_of_isOwner howner) with hno | hall
  · simp [howner, hringed] at hno
  · have hp := hall (p - a) (by omega)
    rwa [Nat.add_sub_cancel' hlo] at hp

/-- `t` shows the rows of `s` at every slot readable from position `a`. -/
def Session.SameReadable (g : Geometry) (a : Nat) (s t : Session T X R) : Prop :=
  ∀ l q, g.readable a l q = true → t.kv l q = s.kv l q

/-- `s` is `s₀` with some of the `n` positions above it written and journalled. Below
the anchor a full cache is as it was. A ring slot is looked at through the first
position above the anchor that has it: before that position the slot holds its old
row, after it the journal does. -/
structure Anchored (g : Geometry) (s₀ : Session T X R) (n : Nat) (s : Session T X R) :
    Prop where
  low : s₀.dpos ≤ s.dpos
  base : 0 < g.ringW → s.commitPos ≤ s₀.dpos
  steady : 0 < g.ringW → s.commitPos = s₀.commitPos ∨ g.apart s₀.dpos n = true
  plain : ∀ l, g.isOwner l → g.isRinged l = false → ∀ q < s₀.dpos, s.kv l q = s₀.kv l q
  written : ∀ l, g.isOwner l → g.isRinged l → ∀ p, s₀.dpos ≤ p → p < s₀.dpos + g.ringW →
    g.readable s₀.dpos l (p % g.ringW) → p < s.dpos →
    s.jkv l (p - s.commitPos) = s₀.kv l (p % g.ringW)
  unwritten : ∀ l, g.isOwner l → g.isRinged l → ∀ p, s.dpos ≤ p → p < s₀.dpos + g.ringW →
    g.readable s₀.dpos l (p % g.ringW) → s.kv l (p % g.ringW) = s₀.kv l (p % g.ringW)

namespace Anchored

variable {g : Geometry} {s₀ s : Session T X R} {n : Nat}

theorem refl (hspan : 0 < g.ringW → s₀.commitPos ≤ s₀.dpos) : Anchored g s₀ n s₀ where
  low := Nat.le_refl _
  base := hspan
  steady _ := Or.inl rfl
  plain _ _ _ _ _ := rfl
  written _ _ _ p hlo _ _ hlt := by omega
  unwritten _ _ _ _ _ _ _ := rfl

/-- Back at the anchor every readable row is the old one. -/
theorem sameReadable (h : Anchored g s₀ n s) (hback : s.dpos = s₀.dpos) :
    s₀.SameReadable g s₀.dpos s := by
  intro l q hread
  have hmem := hread
  simp only [Geometry.readable, List.any_eq_true, List.mem_range, Bool.and_eq_true, beq_iff_eq,
    bne_iff_ne] at hmem
  obtain ⟨l', hl', hsource, p, hp, hne, rfl⟩ := hmem
  obtain ⟨howner, _, _⟩ := g.source_spec hl'
  rw [hsource] at howner
  have hslot : g.slot l' p = g.slot l p := by rw [← hsource, g.slot_source hl']
  have hlt : p < s₀.dpos := by
    have := (g.mem_window.mp hp).1
    omega
  rw [hslot] at hread ⊢
  cases hringed : g.isRinged l with
  | false =>
      simp only [Geometry.slot, hringed, Bool.false_eq_true, if_false]
      exact h.plain l howner hringed p hlt
  | true =>
      simp only [Geometry.slot, hringed, if_true] at hread ⊢
      have hw : 0 < g.ringW := by
        simp only [Geometry.isRinged, Bool.and_eq_true, decide_eq_true_eq] at hringed
        exact hringed.1
      -- the first position from the anchor on with the slot of `p`
      obtain ⟨p', hlo, hhi, hsame⟩ : ∃ p', s₀.dpos ≤ p' ∧ p' < s₀.dpos + g.ringW ∧
          p' % g.ringW = p % g.ringW := by
        refine ⟨s₀.dpos + (p + (g.ringW - s₀.dpos % g.ringW)) % g.ringW, by omega, ?_, ?_⟩
        · have := Nat.mod_lt (p + (g.ringW - s₀.dpos % g.ringW)) hw
          omega
        · have hmod := Nat.mod_lt s₀.dpos hw
          have hdiv := Nat.div_add_mod s₀.dpos g.ringW
          rw [Nat.add_mod_mod]
          have hsum : s₀.dpos + (p + (g.ringW - s₀.dpos % g.ringW)) =
              p + g.ringW * (s₀.dpos / g.ringW + 1) := by
            rw [Nat.mul_add, Nat.mul_one]
            omega
          rw [hsum, Nat.add_mul_mod_self_left]
      rw [← hsame] at hread ⊢
      exact h.unwritten l howner hringed p' (by omega) hhi hread

/-- One position stored, at the old journal base or, when no readable slot is among
the `n` positions, at any base below the anchor. A store that does not advance must
leave a readable slot alone at its first position. -/
theorem store (h : Anchored g s₀ n s) (t : Session T X R) (row : Nat → Option R) (base : Nat)
    (hroom : s.dpos < s₀.dpos + n)
    (hbase : 0 < g.ringW → base = s.commitPos ∨ (base ≤ s₀.dpos ∧ g.apart s₀.dpos n = true))
    (hcommit : t.commitPos = base)
    (hkv : ∀ l q, t.kv l q =
      if q = g.slot l s.dpos then (row l).getD (s.kv l q) else s.kv l q)
    (hjkv : ∀ l j, t.jkv l j =
      if g.isRinged l ∧ (row l).isSome ∧ j = s.dpos - base then s.kv l (g.slot l s.dpos)
      else s.jkv l j)
    (hend : (t.dpos = s.dpos + 1 ∧ ∀ l, g.isOwner l → (row l).isSome) ∨
      (t.dpos = s.dpos ∧ ∀ l, g.isOwner l → g.isRinged l → s.dpos < s₀.dpos + g.ringW →
        g.readable s₀.dpos l (s.dpos % g.ringW) →
        t.kv l (s.dpos % g.ringW) = s.kv l (s.dpos % g.ringW))) :
    Anchored g s₀ n t := by
  have hlow := h.low
  have hslot : ∀ l, g.isRinged l = true → g.slot l s.dpos = s.dpos % g.ringW := by
    intro l hringed
    simp [Geometry.slot, hringed]
  have hring : ∀ l, g.isRinged l = true → 0 < g.ringW := by
    intro l hringed
    simp only [Geometry.isRinged, Bool.and_eq_true, decide_eq_true_eq] at hringed
    exact hringed.1
  constructor
  · omega
  · intro hw
    rw [hcommit]
    rcases hbase hw with heq | hapart
    · rw [heq]; exact h.base hw
    · exact hapart.1
  · intro hw
    rw [hcommit]
    rcases hbase hw with heq | hapart
    · rw [heq]; exact h.steady hw
    · exact Or.inr hapart.2
  · intro l howner hplain q hq
    have hne : q ≠ g.slot l s.dpos := by
      simp only [Geometry.slot, hplain, Bool.false_eq_true, if_false]
      omega
    rw [hkv, if_neg hne]
    exact h.plain l howner hplain q hq
  · intro l howner hringed p hlo hhi hread hlt
    rcases hbase (hring l hringed) with heq | ⟨_, hapart⟩
    · have hbelow := h.base (hring l hringed)
      rw [hjkv, hcommit, heq]
      by_cases hp : p = s.dpos
      · -- its own entry: the slot still held the old row
        rcases hend with ⟨_, hall⟩ | ⟨hstay, _⟩
        · rw [if_pos ⟨hringed, hall l howner, by rw [hp]⟩, hslot l hringed, hp]
          rw [hp] at hhi hread
          exact h.unwritten l howner hringed s.dpos (Nat.le_refl _) hhi hread
        · omega
      · have hentry : p - s.commitPos ≠ s.dpos - s.commitPos := by omega
        rw [if_neg fun hat => hentry hat.2.2]
        exact h.written l howner hringed p hlo hhi hread (by omega)
    · have hnot := Geometry.apart_not_readable hapart howner hringed hlo (p := p) (by omega)
      rw [hnot] at hread
      cases hread
  · intro l howner hringed p hle hhi hread
    have hold := h.unwritten l howner hringed p (by omega) hhi hread
    rw [← hold]
    by_cases hp : p = s.dpos
    · subst hp
      rcases hend with ⟨hnext, _⟩ | ⟨_, hfree⟩
      · omega
      · exact hfree l howner hringed hhi hread
    · rw [hkv, hslot l hringed, if_neg (ring_slot_ne (by omega) (by omega)).symm]

/-- Positions above the anchor taken back. -/
theorem undo (h : Anchored g s₀ n s) (d : Nat) (hd : s₀.dpos + d ≤ s.dpos) :
    Anchored g s₀ n (s.undo g d) := by
  have hdpos : (s.undo g d).dpos = s.dpos - d := rfl
  constructor
  · rw [hdpos]; omega
  · exact h.base
  · exact h.steady
  · intro l howner hplain q hq
    rw [undo_kv_plain hplain]
    exact h.plain l howner hplain q hq
  · intro l howner hringed p hlo hhi hread hlt
    rw [hdpos] at hlt
    exact h.written l howner hringed p hlo hhi hread (by omega)
  · intro l howner hringed p hle hhi hread
    rw [hdpos] at hle
    rcases Nat.lt_or_ge p s.dpos with hlt | hge
    · rw [undo_kv_entry howner hringed d (by omega) p hle hlt (by omega)]
      exact h.written l howner hringed p (by omega) hhi hread hlt
    · rw [undo_kv_frame howner hringed d (by omega) p hge (by omega)]
      exact h.unwritten l howner hringed p hge hhi hread

/-- Rewriting rows of positions between the anchor and the live one. -/
theorem overwrite (h : Anchored g s₀ n s) (new : Nat → Nat → R → R) (ps : List Nat)
    (hps : ∀ p ∈ ps, s₀.dpos ≤ p ∧ p < s.dpos) : Anchored g s₀ n (s.overwrite g new ps) := by
  have hframe : ∀ l q, (∀ p ∈ ps, q ≠ g.slot l p) → (s.overwrite g new ps).kv l q = s.kv l q := by
    intro l q hq
    simp only [Session.overwrite]
    split
    case isFalse => rfl
    case isTrue =>
      generalize s.kv l = m
      induction ps generalizing m with
      | nil => rfl
      | cons p ps ih =>
          rw [List.foldl_cons, ih (fun p' hp' => hps p' (List.mem_cons_of_mem _ hp'))
            (fun p' hp' => hq p' (List.mem_cons_of_mem _ hp')),
            Function.update_of_ne (hq p (by simp))]
  refine ⟨h.low, h.base, h.steady, ?_, h.written, ?_⟩
  · intro l howner hplain q hq
    rw [hframe l q]
    · exact h.plain l howner hplain q hq
    · intro p hp
      have := (hps p hp).1
      simp only [Geometry.slot, hplain, Bool.false_eq_true, if_false]
      omega
  · intro l howner hringed p hle hhi hread
    change s.dpos ≤ p at hle
    rw [hframe l _]
    · exact h.unwritten l howner hringed p hle hhi hread
    · intro p' hp'
      have := hps p' hp'
      simp only [Geometry.slot, hringed, if_true]
      exact (ring_slot_ne (by omega) (by omega)).symm

end Anchored

/-- The device fails a step with the head on. -/
def Fault.fails (g : Geometry) : Option Fault → Bool
  | none => false
  | some (.layer m _) => m ≤ g.nl
  | some (.sync _) => true

/-- What the device does to a step at position `d` above the anchor `a` leaves the
rows readable from `a` alone: it does not fail at the sync, where the position has
already moved, and when it fails at a layer, no layer below has overwritten one of
these rows. -/
def Fault.spares (g : Geometry) (a d : Nat) : Option Fault → Bool
  | none => true
  | some (.layer m _) => (List.range g.nl).all fun l =>
      !(l < m && g.isOwner l && g.isRinged l && decide (d < a + g.ringW) &&
        g.readable a l (d % g.ringW))
  | some (.sync _) => false

section Steps

variable (K : Kernels T X R) {g : Geometry}

/-- A step the device does not fail returns 0. -/
theorem tick_ok {f : Option Fault} (hf : Fault.fails g f = false) (s : Session T X R) :
    (tick K g true f s).err = none := by
  have hclear : (∀ l, l ≤ g.nl → Fault.atLayer l f = none) ∧ Fault.atSync f = none := by
    cases f with
    | none => exact ⟨fun _ _ => rfl, rfl⟩
    | some fault =>
        cases fault with
        | sync text => simp [Fault.fails] at hf
        | layer m text =>
            simp only [Fault.fails, decide_eq_false_iff_not] at hf
            refine ⟨?_, rfl⟩
            intro l hl
            have hne : m ≠ l := by omega
            simp [Fault.atLayer, hne]
  simp [tick, g4KvStep_err K g true f s hclear.1, hclear.2]

theorem step_ok_of_tick_ok (head : Bool) (f : Option Fault) (s : Session T X R)
    (hok : (tick K g head f s).err = none) :
    (g4KvStep K g head f s).err = none ∧ (tick K g head f s).session.dpos = s.dpos + 1 := by
  obtain ⟨row, dseq, hsession, _⟩ := tick_effect K g head f s hok
  refine ⟨?_, by simp [hsession, Session.advance, Session.withSeq]⟩
  unfold tick at hok
  cases herr : (g4KvStep K g head f s).err with
  | none => rfl
  | some text => simp [herr] at hok

/-- A step above the anchor whose failure, if it fails, spares the readable rows. It
moves by one exactly when it does not fail. -/
theorem Anchored.tick {s₀ s : Session T X R} {n : Nat} (h : Anchored g s₀ n s)
    (f : Option Fault) (hroom : s.dpos < s₀.dpos + n)
    (hspan : 0 < g.ringW → n ≤ g.jmax ∧
      (s₀.dpos - s₀.commitPos + n ≤ g.jmax ∨ g.apart s₀.dpos n = true))
    (hf : Fault.spares g s₀.dpos s.dpos f = true) :
    Anchored g s₀ n (Kv.tick K g true f s).session ∧
      ((Kv.tick K g true f s).err = none ↔ Fault.fails g f = false) ∧
      (Kv.tick K g true f s).session.dpos = s.dpos + if Fault.fails g f then 0 else 1 := by
  obtain ⟨row, _, hall, hcommit, _, hkv, hjkv⟩ := tick_journal K g true f s
  have hbase : 0 < g.ringW → (s.slide g).commitPos = s.commitPos ∨
      ((s.slide g).commitPos ≤ s₀.dpos ∧ g.apart s₀.dpos n = true) := by
    intro hw
    rw [slide_commitPos]
    split
    case isFalse => exact Or.inl rfl
    case isTrue hslides =>
      -- the journal is full here: the span from the old base would not have had room
      have hbelow := h.base hw
      have hlow := h.low
      have hfull := hslides.2
      have hfits := (hspan hw).1
      refine Or.inr ⟨by omega, ?_⟩
      rcases h.steady hw with hsame | hapart
      · rcases (hspan hw).2 with hfree | hapart
        · omega
        · exact hapart
      · exact hapart
  cases hfails : Fault.fails g f with
  | false =>
      have hok := tick_ok K hfails s
      obtain ⟨hstep, hdpos⟩ := step_ok_of_tick_ok K true f s hok
      refine ⟨?_, by simp [hok], by simp [hdpos]⟩
      exact h.store _ row _ hroom hbase hcommit hkv hjkv (Or.inl ⟨hdpos, hall hstep⟩)
  | true =>
      match f, hfails, hf with
      | some (.layer m text), hfails, hf =>
          simp only [Fault.fails, decide_eq_true_eq] at hfails
          obtain ⟨herr, hdpos, hkeep⟩ := tick_fault K g m text hfails s
          refine ⟨?_, by simp [herr], by simp [hdpos]⟩
          refine h.store _ row _ hroom hbase hcommit hkv hjkv (Or.inr ⟨hdpos, ?_⟩)
          intro l howner hringed hfirst hread
          have hm : m ≤ l := by
            simp only [Fault.spares, List.all_eq_true, List.mem_range] at hf
            have hl := hf l (Geometry.lt_nl_of_isOwner howner)
            simp [howner, hringed, hfirst, hread] at hl
            exact hl
          rw [hkeep l hm]

/-! ### The verbs above an anchor -/

variable {s₀ s : Session T X R} {n : Nat}

theorem Anchored.feed (h : Anchored g s₀ n s) (toks : List T) : Anchored g s₀ n (s.feed toks) :=
  ⟨h.low, h.base, h.steady, h.plain, h.written, h.unwritten⟩

theorem decodeLogits_exec (g : Geometry) (tok : T) (f : Option Fault) (s : Session T X R) :
    if s.dpos + 1 < g.pmax then
      ((Call.decodeLogits tok f).exec K g s).err = (Kv.tick K g true f (s.feed [tok])).err ∧
        ((Call.decodeLogits tok f).exec K g s).session =
          (Kv.tick K g true f (s.feed [tok])).session
    else ((Call.decodeLogits tok f).exec K g s).err ≠ none ∧
      ((Call.decodeLogits tok f).exec K g s).session = s := by
  split
  case isTrue hroom =>
    have hfree : ¬g.pmax ≤ s.dpos + 1 := by omega
    simp only [Call.exec, Call.queue, gemma4KvDecodeLogits, hfree, if_false, runOps, runOp]
    cases herr : (Kv.tick K g true f (s.feed [tok])).err <;> simp [herr]
  case isFalse hfull =>
    have hle : g.pmax ≤ s.dpos + 1 := by omega
    simp [Call.exec, Call.queue, gemma4KvDecodeLogits, hle]

/-- A decode step that returns 0 moves the position. -/
theorem decodeLogits_ok (g : Geometry) (tok : T) (f : Option Fault) (s : Session T X R)
    (hok : ((Call.decodeLogits tok f).exec K g s).err = none) :
    ((Call.decodeLogits tok f).exec K g s).session.dpos = s.dpos + 1 := by
  have hexec := decodeLogits_exec K g tok f s
  split at hexec
  case isFalse => exact absurd hok hexec.1
  case isTrue =>
    rw [hexec.1] at hok
    rw [hexec.2]
    exact (step_ok_of_tick_ok K true f (s.feed [tok]) hok).2

theorem Anchored.puts (h : Anchored g s₀ n s) (rows : List (Nat → R))
    (hroom : s.dpos + rows.length ≤ s₀.dpos + n) :
    (runOps K g (rows.map Op.put) s).err = none ∧
      Anchored g s₀ n (runOps K g (rows.map Op.put) s).session ∧
      (runOps K g (rows.map Op.put) s).session.dpos = s.dpos + rows.length := by
  induction rows generalizing s with
  | nil => exact ⟨rfl, h, rfl⟩
  | cons row rest ih =>
      simp only [List.length_cons] at hroom
      have hput : Anchored g s₀ n (runOp K g (.put row) s).session := by
        refine h.store _ (fun l => if g.isOwner l then some (row l) else none) s.commitPos
          (by omega) (fun _ => Or.inl rfl) rfl (fun _ _ => rfl) (fun _ _ => rfl)
          (Or.inl ⟨rfl, ?_⟩)
        intro l howner
        simp [howner]
      have hdpos : (runOp K g (.put row) s).session.dpos = s.dpos + 1 := rfl
      obtain ⟨herr, hrest, hlast⟩ := ih hput (by omega)
      simp only [List.map_cons, runOps]
      refine ⟨herr, hrest, ?_⟩
      change (runOps K g (rest.map Op.put) (runOp K g (.put row) s).session).session.dpos = _
      rw [hlast, hdpos, List.length_cons]
      omega

/-- A replay is refused and changes nothing, or writes its positions. -/
theorem Anchored.replay (h : Anchored g s₀ n s) (ep : Episode R) (npos : Int) (zero : Bool)
    (hroom : s.dpos + npos.toNat ≤ s₀.dpos + n) :
    let out := (Call.replay ep npos zero).exec K g s
    match (Call.replay ep npos zero).queue K g s with
    | .error _ => out.err ≠ none ∧ out.session = s
    | .ok _ => out.err = none ∧ Anchored g s₀ n out.session ∧
        out.session.dpos = s.dpos + npos.toNat := by
  intro out
  cases hqueue : (Call.replay ep npos zero).queue K g s with
  | error text => simp [out, Call.exec, hqueue]
  | ok ops =>
      obtain ⟨row, hops, _⟩ := gemma4KvReplay_ok g s ep npos _ ops hqueue
      have hputs := h.puts K ((List.range npos.toNat).map row) (by simpa using hroom)
      rw [List.map_map, List.length_map, List.length_range] at hputs
      simp only [out, Call.exec, hqueue, hops]
      exact hputs

/-- A rewind that stays above the anchor is accepted. -/
theorem Anchored.rewind (h : Anchored g s₀ n s) (d : Nat) (hd : s₀.dpos + d ≤ s.dpos) :
    Anchored g s₀ n ((Call.rewind d).exec K g s).session ∧
      ((Call.rewind d).exec K g s).session.dpos = s.dpos - d := by
  have hdelta : ¬((d : Int) < 0 ∨ (s.dpos : Int) < d) := by omega
  have hspan : ¬(0 < g.ringW ∧ ((s.dpos - s.commitPos : Nat) : Int) < d) := by
    rintro ⟨hw, hlt⟩
    have := h.base hw
    omega
  have hexec : ((Call.rewind d).exec K g s).session = s.undo g d := by
    simp only [Call.exec, Call.queue, gemma4KvRewind, hdelta, hspan, if_false, Int.toNat_natCast]
    rfl
  rw [hexec]
  exact ⟨h.undo d hd, rfl⟩

theorem Anchored.ablate (h : Anchored g s₀ n s) (pos : List Nat)
    (hpos : ∀ p ∈ pos, s₀.dpos + p < s.dpos) :
    Anchored g s₀ n ((Call.ablateRows s₀.dpos pos).exec K g s).session ∧
      ((Call.ablateRows s₀.dpos pos).exec K g s).session.dpos = s.dpos := by
  refine ⟨h.overwrite (fun _ _ _ => K.zero) _ ?_, rfl⟩
  intro p hp
  obtain ⟨p', hp', rfl⟩ := List.mem_map.mp (List.mem_of_mem_filter hp)
  exact ⟨by omega, hpos p' hp'⟩

/-! ### The journal base of every run -/

/-- On a ring the journal starts at or below the live position. -/
def Spanning (g : Geometry) (s : Session T X R) : Prop := 0 < g.ringW → s.commitPos ≤ s.dpos

theorem g4KvStep_spanning (h : Spanning g s) (head : Bool) (f : Option Fault) :
    (g4KvStep K g head f s).session.commitPos ≤ s.dpos ∨ ¬0 < g.ringW := by
  obtain ⟨row, dseq, hsession, _⟩ := g4KvStep_effect K g head f s
  rcases Nat.eq_zero_or_pos g.ringW with hzero | hw
  · exact Or.inr (by omega)
  · left
    have hbelow := h hw
    rw [hsession]
    change (s.disarm.slide g).commitPos ≤ s.dpos
    rw [slide_disarm_commitPos]
    split <;> omega

theorem Spanning.op (h : Spanning g s) (op : Op T X R) (hop : op.isPlain = true) :
    Spanning g (runOp K g op s).session := by
  intro hw
  have hbelow := h hw
  cases op with
  | tick head f =>
      obtain ⟨row, dseq, hsession, _⟩ := g4KvStep_effect K g head f s
      have hstep := (g4KvStep_spanning K h head f).resolve_right (by omega)
      have hdpos : (g4KvStep K g head f s).session.dpos = s.dpos := by
        simp [hsession, Session.withSeq]
      simp only [runOp, Kv.tick]
      cases herr : (g4KvStep K g head f s).err with
      | some text => simpa [hdpos] using hstep
      | none =>
          change (g4KvStep K g head f s).session.commitPos ≤
            (g4KvStep K g head f s).session.dpos + 1
          omega
  | peek f =>
      obtain ⟨row, dseq, hsession, _⟩ := g4KvStep_effect K g false f s
      have hstep := (g4KvStep_spanning K h false f).resolve_right (by omega)
      have hdpos : (g4KvStep K g false f s).session.dpos = s.dpos := by
        simp [hsession, Session.withSeq]
      simp only [runOp, peek]
      cases herr : (g4KvStep K g false f s).err with
      | some text => simpa [hdpos] using hstep
      | none => simpa [hdpos] using hbelow
  | undo d => simp [Op.isPlain] at hop
  | put row => simp [Op.isPlain] at hop
  | sink toks => simp [Op.isPlain] at hop
  | commit => exact Nat.le_refl _
  | reset => exact Nat.le_refl _
  | resetCold => exact Nat.le_refl _
  | _ => exact hbelow

theorem Spanning.ops (h : Spanning g s) (ops : List (Op T X R))
    (hops : ∀ op ∈ ops, ∀ s, Spanning g s → Spanning g (runOp K g op s).session) :
    Spanning g (runOps K g ops s).session := by
  induction ops generalizing s with
  | nil => exact h
  | cons op rest ih =>
      have hone := hops op (by simp) s h
      simp only [runOps]
      cases herr : (runOp K g op s).err with
      | some text => exact hone
      | none => exact ih hone fun op' hop' => hops op' (List.mem_cons_of_mem _ hop')

theorem Spanning.call (h : Spanning g s) (c : Call T X R) :
    Spanning g (c.exec K g s).session := by
  unfold Call.exec
  cases hqueue : c.queue K g s with
  | error text => exact h
  | ok ops =>
      cases hplain : c.isPlain with
      | true =>
          have hops := plain_queue K g s c hplain ops hqueue
          exact h.ops K ops fun op hop s' hs' => hs'.op K op (hops op hop).1
      | false =>
          cases c <;> simp only [Call.isPlain, Bool.true_eq_false] at hplain
          case rewind delta =>
            obtain ⟨rfl, hle, hspan⟩ := gemma4KvRewind_ok g s delta ops hqueue
            intro hw
            have hbelow := h hw
            have hroom := hspan hw
            change s.commitPos ≤ s.dpos - delta.toNat
            omega
          case prefillBatched toks decline =>
            obtain ⟨rfl, hcold, _⟩ := gemma4KvPrefillBatched_ok g s toks decline ops hqueue
            intro hw
            have hbelow := h hw
            change s.commitPos ≤ toks.length
            omega
          case replay ep npos zero =>
            obtain ⟨row, rfl, _⟩ := gemma4KvReplay_ok g s ep npos _ ops hqueue
            refine h.ops K _ ?_
            intro op hop s' hs' hw
            obtain ⟨p, _, rfl⟩ := List.mem_map.mp hop
            exact Nat.le_succ_of_le (hs' hw)

/-- The session after a run of calls, whatever they return. -/
def Session.after (K : Kernels T X R) (g : Geometry) (s : Session T X R)
    (cs : List (Call T X R)) : Session T X R :=
  cs.foldl (fun s c => (c.exec K g s).session) s

theorem Spanning.run (h : Spanning g s) (cs : List (Call T X R)) :
    Spanning g (s.after K g cs) := by
  induction cs generalizing s with
  | nil => exact h
  | cons c rest ih => exact ih (h.call K c)

end Steps

end ShannonPrime.Kv
