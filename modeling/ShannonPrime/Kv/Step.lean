import ShannonPrime.Kv.Verbs

/-!
What one step can do, said once. The layer loop only records new rows at the
live position, so a step is a slide, a `record`, and with the head on one
predicted token. Every later invariant is derived from `g4KvStep_effect`.
-/

namespace ShannonPrime.Kv

variable {T X R : Type*}

section Record

variable (g : Geometry) (s : Session T X R) (row : Nat → Option R)

@[simp] theorem record_dpos : (s.record g row).dpos = s.dpos := rfl
@[simp] theorem record_commitPos : (s.record g row).commitPos = s.commitPos := rfl
@[simp] theorem record_jcur : (s.record g row).jcur = s.jcur := rfl
@[simp] theorem record_dseq : (s.record g row).dseq = s.dseq := rfl
@[simp] theorem record_inj : (s.record g row).inj = s.inj := rfl
@[simp] theorem record_bxOn : (s.record g row).bxOn = s.bxOn := rfl

theorem record_kv (l q : Nat) : (s.record g row).kv l q =
    if q = g.slot l s.dpos then (row l).getD (s.kv l q) else s.kv l q := rfl

theorem record_jkv (l j : Nat) : (s.record g row).jkv l j =
    if g.isRinged l ∧ (row l).isSome ∧ j = s.dpos - s.commitPos
    then s.kv l (g.slot l s.dpos) else s.jkv l j := rfl

theorem record_jpos (l j : Nat) : (s.record g row).jpos l j =
    if g.isRinged l ∧ (row l).isSome ∧ j = s.dpos - s.commitPos
    then some s.dpos else s.jpos l j := rfl

theorem record_none : s.record g (fun _ => none) = s := by
  cases s
  simp [Session.record]

/-- Two records at one position, of different layers, are one record. -/
theorem record_record (row' : Nat → Option R)
    (hdisj : ∀ l, (row' l).isSome → row l = none) :
    (s.record g row).record g row' = s.record g fun l => (row' l).or (row l) := by
  have hkv : ((s.record g row).record g row').kv =
      (s.record g fun l => (row' l).or (row l)).kv := by
    funext l q
    simp only [record_kv, record_dpos]
    by_cases hq : q = g.slot l s.dpos
    · cases hrow' : row' l <;> simp [hq]
    · simp [hq]
  have hjkv : ((s.record g row).record g row').jkv =
      (s.record g fun l => (row' l).or (row l)).jkv := by
    funext l j
    simp only [record_jkv, record_kv, record_dpos, record_commitPos]
    cases hrow' : row' l with
    | none =>
        by_cases hj : g.isRinged l ∧ (row l).isSome ∧ j = s.dpos - s.commitPos
        · simp [hj]
        · simp [hj]
    | some r =>
        have hrow : row l = none := hdisj l (by simp [hrow'])
        simp [hrow]
  have hjpos : ((s.record g row).record g row').jpos =
      (s.record g fun l => (row' l).or (row l)).jpos := by
    funext l j
    simp only [record_jpos, record_dpos, record_commitPos]
    cases hrow' : row' l with
    | none =>
        by_cases hj : g.isRinged l ∧ (row l).isSome ∧ j = s.dpos - s.commitPos
        · simp [hj]
        · simp [hj]
    | some r => simp [hdisj l (by simp [hrow'])]
  simp only [Session.record] at hkv hjkv hjpos ⊢
  rw [hkv, hjkv, hjpos]

end Record

section Slide

variable (g : Geometry) (s : Session T X R)

@[simp] theorem slide_dpos : (s.slide g).dpos = s.dpos := by
  unfold Session.slide; split <;> rfl
@[simp] theorem slide_dseq : (s.slide g).dseq = s.dseq := by
  unfold Session.slide; split <;> rfl
@[simp] theorem slide_kv : (s.slide g).kv = s.kv := by
  unfold Session.slide; split <;> rfl
@[simp] theorem slide_jkv : (s.slide g).jkv = s.jkv := by
  unfold Session.slide; split <;> rfl
@[simp] theorem slide_jpos : (s.slide g).jpos = s.jpos := by
  unfold Session.slide; split <;> rfl
@[simp] theorem slide_inj : (s.slide g).inj = s.inj := by
  unfold Session.slide; split <;> rfl
@[simp] theorem slide_bxOn : (s.slide g).bxOn = s.bxOn := by
  unfold Session.slide; split <;> rfl

theorem slide_commitPos : (s.slide g).commitPos =
    if s.slides g then s.dpos - (g.jmax - 1) else s.commitPos := by
  unfold Session.slide
  split <;> rfl

/-- After the slide the live position has a journal entry. -/
theorem slide_span_lt (hring : 0 < g.ringW) :
    s.dpos - (s.slide g).commitPos < g.jmax := by
  have hj := g.jmax_pos
  rw [slide_commitPos]
  split
  case isTrue => omega
  case isFalse hfree =>
    simp only [Session.slides, hring, true_and] at hfree
    omega

@[simp] theorem disarm_dpos : s.disarm.dpos = s.dpos := rfl
@[simp] theorem disarm_commitPos : s.disarm.commitPos = s.commitPos := rfl
@[simp] theorem disarm_dseq : s.disarm.dseq = s.dseq := rfl
@[simp] theorem disarm_kv : s.disarm.kv = s.kv := rfl
@[simp] theorem disarm_jkv : s.disarm.jkv = s.jkv := rfl
@[simp] theorem disarm_jpos : s.disarm.jpos = s.jpos := rfl
/-- The base of the journal a step writes with. -/
theorem slide_disarm_commitPos : (s.disarm.slide g).commitPos =
    if s.slides g then s.dpos - (g.jmax - 1) else s.commitPos :=
  slide_commitPos g s.disarm

@[simp] theorem disarm_bxOn : s.disarm.bxOn = s.bxOn := rfl

end Slide

section Layers

variable (K : Kernels T X R) (g : Geometry)

/-- The row a layer stores: an owner's own, nobody else's. -/
def ownRow (l : Nat) (s : Session T X R) (x : X) (l' : Nat) : Option R :=
  if l' = l ∧ g.isOwner l then some (K.kvRow s.bxOn l s.dpos x) else none

theorem layerStore_eq (l : Nat) (s : Session T X R) (x : X) :
    layerStore K g l s x = s.record g (ownRow K g l s x) := by
  unfold layerStore
  split
  case isTrue howner =>
    congr 1
    funext l'
    simp [ownRow, howner]
  case isFalse howner =>
    have hnone : ownRow K g l s x = fun _ => none := by
      funext l'
      simp [ownRow, howner]
    rw [hnone, record_none]

/-- The layer loop is one record of rows of its own owners, and of all of them
when it does not fail. Each row is the kernel's for its layer and position. -/
theorem layerLoop_effect (f : Option Fault) (ls : List Nat) (hls : ls.Nodup)
    (s : Session T X R) (x : X) :
    ∃ row : Nat → Option R,
      (layerLoop K g f ls s x).session = s.record g row ∧
      (∀ l, (row l).isSome → l ∈ ls ∧ g.isOwner l) ∧
      ((layerLoop K g f ls s x).err = none →
        ∀ l ∈ ls, g.isOwner l → (row l).isSome) ∧
      (∀ l r, row l = some r → ∃ x', r = K.kvRow s.bxOn l s.dpos x') := by
  induction ls generalizing s x with
  | nil => exact ⟨fun _ => none, (record_none g s).symm, by simp, by simp, by simp⟩
  | cons l rest ih =>
      obtain ⟨hl, hrest⟩ := List.nodup_cons.mp hls
      simp only [layerLoop]
      split
      · exact ⟨fun _ => none, (record_none g s).symm, by simp, by simp, by simp⟩
      · split
        · exact ⟨fun _ => none, (record_none g s).symm, by simp, by simp, by simp⟩
        · obtain ⟨row, hsession, hdom, hall, hown⟩ := ih hrest (layerStore K g l s x)
            (K.layer s.bxOn l s.dpos x ((layerStore K g l s x).attends g l))
          have hdisj : ∀ l', (row l').isSome → ownRow K g l s x l' = none := by
            intro l' hl'
            have hne : l' ≠ l := fun heq => hl (heq ▸ (hdom l' hl').1)
            simp [ownRow, hne]
          refine ⟨fun l' => (row l').or (ownRow K g l s x l'), ?_, ?_, ?_, ?_⟩
          · simp only [hsession]
            rw [layerStore_eq, record_record g s _ row hdisj]
          · intro l' hl'
            cases hrow : row l' with
            | some r =>
                obtain ⟨hmem, howner⟩ := hdom l' (by simp [hrow])
                exact ⟨List.mem_cons_of_mem _ hmem, howner⟩
            | none =>
                simp only [hrow, Option.none_or, ownRow] at hl'
                split at hl'
                case isTrue heq => exact ⟨by simp [heq.1], by rw [heq.1]; exact heq.2⟩
                case isFalse => simp at hl'
          · intro herr l' hl' howner
            rcases List.mem_cons.mp hl' with heq | hmem
            · subst heq
              cases hrow : row l' <;> simp [ownRow, howner]
            · obtain ⟨r, hr⟩ := Option.isSome_iff_exists.mp (hall herr l' hmem howner)
              simp [hr]
          · intro l' r hr
            cases hrow : row l' with
            | some r' =>
                obtain ⟨x', hx'⟩ := hown l' r' hrow
                simp only [hrow, Option.some_or, Option.some.injEq] at hr
                refine ⟨x', ?_⟩
                rw [← hr, hx', layerStore_eq, record_bxOn, record_dpos]
            | none =>
                simp only [hrow, Option.none_or, ownRow] at hr
                split at hr
                case isTrue heq =>
                  cases hr
                  exact ⟨x, by rw [heq.1]⟩
                case isFalse => simp at hr

/-- Past the slide no layer finds the journal full: the loop fails only where
the device does. -/
theorem layerLoop_err (f : Option Fault) (ls : List Nat) (s : Session T X R) (x : X)
    (hspan : 0 < g.ringW → s.dpos - s.commitPos < g.jmax)
    (hf : ∀ l ∈ ls, Fault.atLayer l f = none) :
    (layerLoop K g f ls s x).err = none := by
  induction ls generalizing s x with
  | nil => rfl
  | cons l rest ih =>
      have hnot : ¬(g.isOwner l ∧ g.isRinged l ∧ g.jmax ≤ s.dpos - s.commitPos) := by
        rintro ⟨_, hringed, hfull⟩
        have hring : 0 < g.ringW := by
          simp only [Geometry.isRinged, Bool.and_eq_true, decide_eq_true_eq] at hringed
          exact hringed.1
        have := hspan hring
        omega
      simp only [layerLoop, hf l (by simp), hnot, if_false]
      refine ih _ _ ?_ (fun l' hl' => hf l' (List.mem_cons_of_mem _ hl'))
      rw [layerStore_eq]
      exact hspan

/-- A fault at a layer of the loop fails it. -/
theorem layerLoop_fault_err (m : Nat) (text : String) (ls : List Nat) (hm : m ∈ ls)
    (s : Session T X R) (x : X) :
    (layerLoop K g (some (.layer m text)) ls s x).err ≠ none := by
  induction ls generalizing s x with
  | nil => simp at hm
  | cons l rest ih =>
      simp only [layerLoop, Fault.atLayer]
      by_cases hl : m = l
      · simp [hl]
      · simp only [hl, if_false]
        split
        · simp
        · exact ih ((List.mem_cons.mp hm).resolve_left hl) _ _

/-- A fault at layer `m` leaves the layers from `m` on as they were. -/
theorem layerLoop_fault_kv (m : Nat) (text : String) (n k : Nat) (hk : k ≤ m) (l : Nat)
    (hl : m ≤ l) (s : Session T X R) (x : X) :
    (layerLoop K g (some (.layer m text)) (List.range' k n) s x).session.kv l = s.kv l := by
  induction n generalizing k s x with
  | zero => rfl
  | succ n ih =>
      simp only [List.range'_succ, layerLoop, Fault.atLayer]
      by_cases hmk : m = k
      · simp [hmk]
      · simp only [hmk, if_false]
        split
        · rfl
        · rw [ih (k + 1) (by omega)]
          funext q
          rw [layerStore_eq, record_kv]
          have hne : ¬(l = k ∧ g.isOwner k) := fun heq => by omega
          simp [ownRow, hne]

end Layers

section Steps

variable (K : Kernels T X R) (g : Geometry)

/-- Everything a step can do to the session: slide the journal, disarm the
injection, record rows of owners at the live position, and with the head on
predict the token of the next one. Without a failure every owner records. -/
theorem g4KvStep_effect (head : Bool) (f : Option Fault) (s : Session T X R) :
    ∃ (row : Nat → Option R) (dseq : Nat → T),
      (g4KvStep K g head f s).session =
        ((s.disarm.slide g).record g row).withSeq dseq ∧
      (∀ l, (row l).isSome → g.isOwner l) ∧
      ((g4KvStep K g head f s).err = none → ∀ l, g.isOwner l → (row l).isSome) ∧
      (∀ q, q ≠ s.dpos + 1 ∨ head = false → dseq q = s.dseq q) ∧
      (∀ l r, row l = some r → ∃ x, r = K.kvRow s.bxOn l s.dpos x) := by
  obtain ⟨row, hsession, hdom, hall, hown⟩ :=
    layerLoop_effect K g f (List.range g.nl) List.nodup_range (s.disarm.slide g)
      (K.ple s.bxOn (s.dseq s.dpos) (s.inj.getD (K.embed (s.dseq s.dpos))))
  simp only [slide_bxOn, disarm_bxOn, slide_dpos, disarm_dpos] at hown
  have howners : ∀ l, (row l).isSome → g.isOwner l := fun l hl => (hdom l hl).2
  have hmem : ∀ l, g.isOwner l → l ∈ List.range g.nl := by
    intro l hl
    simp only [Geometry.isOwner, decide_eq_true_eq] at hl
    exact List.mem_range.mpr hl.2
  have hkeep : (s.disarm.slide g).record g row =
      ((s.disarm.slide g).record g row).withSeq s.dseq := by
    simp [Session.withSeq, Session.record]
  simp only [g4KvStep]
  generalize layerLoop K g f (List.range g.nl) _ _ = out at hsession hall ⊢
  cases herr : out.err with
  | some e =>
      exact ⟨row, s.dseq, hsession.trans hkeep, howners, by simp, fun _ _ => rfl, hown⟩
  | none =>
      have hrows : ∀ l, g.isOwner l → (row l).isSome :=
        fun l hl => hall herr l (hmem l hl) hl
      cases head with
      | false =>
          exact ⟨row, s.dseq, hsession.trans hkeep, howners, fun _ => hrows,
            fun _ _ => rfl, hown⟩
      | true =>
          cases hf : Fault.atLayer g.nl f with
          | some text =>
              exact ⟨row, s.dseq, hsession.trans hkeep, howners, by simp, fun _ _ => rfl, hown⟩
          | none =>
              refine ⟨row, Function.update s.dseq (s.dpos + 1) (K.argmax s.bxOn out.hidden),
                ?_, howners, fun _ => hrows, ?_, hown⟩
              · simp [hsession]
              · intro q hq
                have hne : q ≠ s.dpos + 1 := by simpa using hq
                rw [Function.update_of_ne hne]

/-- A step on a healthy device does not fail. -/
theorem g4KvStep_err (head : Bool) (f : Option Fault) (s : Session T X R)
    (hf : ∀ l, l ≤ g.nl → Fault.atLayer l f = none) :
    (g4KvStep K g head f s).err = none := by
  have hloop := layerLoop_err K g f (List.range g.nl) (s.disarm.slide g)
    (K.ple s.bxOn (s.dseq s.dpos) (s.inj.getD (K.embed (s.dseq s.dpos))))
    (by rw [slide_dpos]; exact fun hring => slide_span_lt g s.disarm hring)
    (fun l hl => hf l (Nat.le_of_lt (List.mem_range.mp hl)))
  unfold g4KvStep
  simp only [hloop, hf g.nl (Nat.le_refl _)]
  split <;> rfl

/-- A tick that returns 0 is a slide, a record of every owner, a prediction and
an advance. -/
theorem tick_effect (head : Bool) (f : Option Fault) (s : Session T X R)
    (hok : (tick K g head f s).err = none) :
    ∃ (row : Nat → Option R) (dseq : Nat → T),
      (tick K g head f s).session =
        (((s.disarm.slide g).record g row).withSeq dseq).advance ∧
      (∀ l, (row l).isSome = g.isOwner l) ∧
      (∀ q, q ≠ s.dpos + 1 ∨ head = false → dseq q = s.dseq q) ∧
      (∀ l r, row l = some r → ∃ x, r = K.kvRow s.bxOn l s.dpos x) := by
  obtain ⟨row, dseq, hsession, hdom, hall, hseq, hown⟩ := g4KvStep_effect K g head f s
  unfold tick at hok ⊢
  cases herr : (g4KvStep K g head f s).err with
  | some text => simp [herr] at hok
  | none =>
      refine ⟨row, dseq, by simp only [herr, hsession], ?_, hseq, hown⟩
      intro l
      exact Bool.eq_iff_iff.mpr ⟨hdom l, hall herr l⟩

theorem g4KvStep_inj (head : Bool) (f : Option Fault) (s : Session T X R) :
    (g4KvStep K g head f s).session.inj = none := by
  obtain ⟨row, dseq, hsession, _⟩ := g4KvStep_effect K g head f s
  simp [hsession, Session.withSeq, Session.disarm]

/-- The counters a tick leaves, and the slots and the entry it may have written. -/
theorem tick_journal (head : Bool) (f : Option Fault) (s : Session T X R) :
    ∃ row : Nat → Option R, (∀ l, (row l).isSome → g.isOwner l) ∧
      ((g4KvStep K g head f s).err = none → ∀ l, g.isOwner l → (row l).isSome) ∧
      (tick K g head f s).session.commitPos = (s.slide g).commitPos ∧
      (tick K g head f s).session.inj = none ∧
      (∀ l q, (tick K g head f s).session.kv l q =
        if q = g.slot l s.dpos then (row l).getD (s.kv l q) else s.kv l q) ∧
      ∀ l j, (tick K g head f s).session.jkv l j =
        if g.isRinged l ∧ (row l).isSome ∧ j = s.dpos - (s.slide g).commitPos
        then s.kv l (g.slot l s.dpos) else s.jkv l j := by
  obtain ⟨row, dseq, hsession, hdom, hall, _⟩ := g4KvStep_effect K g head f s
  have hbase : (s.disarm.slide g).commitPos = (s.slide g).commitPos := by
    rw [slide_disarm_commitPos, slide_commitPos]
  have hstep : (tick K g head f s).session.commitPos = (s.slide g).commitPos ∧
      (tick K g head f s).session.inj = none ∧
      (tick K g head f s).session.kv = (g4KvStep K g head f s).session.kv ∧
      (tick K g head f s).session.jkv = (g4KvStep K g head f s).session.jkv := by
    have hcommit : (g4KvStep K g head f s).session.commitPos = (s.slide g).commitPos := by
      rw [hsession, ← hbase]
      rfl
    have hinj := g4KvStep_inj K g head f s
    unfold tick
    cases herr : (g4KvStep K g head f s).err with
    | some text =>
        simp only [herr]
        exact ⟨hcommit, hinj, trivial, trivial⟩
    | none =>
        simp only [herr]
        exact ⟨hcommit, hinj, rfl, rfl⟩
  obtain ⟨hcommit, hinj, hkv, hjkv⟩ := hstep
  refine ⟨row, hdom, hall, hcommit, hinj, ?_, ?_⟩
  · intro l q
    rw [hkv, hsession]
    change ((s.disarm.slide g).record g row).kv l q = _
    rw [record_kv, slide_dpos, disarm_dpos, slide_kv, disarm_kv]
  · intro l j
    rw [hjkv, hsession]
    change ((s.disarm.slide g).record g row).jkv l j = _
    rw [record_jkv, slide_dpos, disarm_dpos, hbase, slide_kv, disarm_kv, slide_jkv, disarm_jkv]

/-- A tick with the head on that the device stops at layer `m`, or at the head, has
stored nothing from layer `m` on and does not advance. -/
theorem tick_fault (m : Nat) (text : String) (hm : m ≤ g.nl) (s : Session T X R) :
    (tick K g true (some (.layer m text)) s).err ≠ none ∧
      (tick K g true (some (.layer m text)) s).session.dpos = s.dpos ∧
      (∀ l, m ≤ l → (tick K g true (some (.layer m text)) s).session.kv l = s.kv l) := by
  have hstep : (g4KvStep K g true (some (.layer m text)) s).err ≠ none ∧
      ∀ l, m ≤ l → (g4KvStep K g true (some (.layer m text)) s).session.kv l = s.kv l := by
    have hkv := fun l hl => layerLoop_fault_kv K g m text g.nl 0 (Nat.zero_le m) l hl
      (s.disarm.slide g) (K.ple s.bxOn (s.dseq s.dpos) (s.inj.getD (K.embed (s.dseq s.dpos))))
    have herr := fun hlt => layerLoop_fault_err K g m text (List.range g.nl)
      (List.mem_range.mpr hlt) (s.disarm.slide g)
      (K.ple s.bxOn (s.dseq s.dpos) (s.inj.getD (K.embed (s.dseq s.dpos))))
    rw [← List.range_eq_range'] at hkv
    simp only [g4KvStep]
    generalize layerLoop K g (some (.layer m text)) (List.range g.nl) _ _ = out at hkv herr ⊢
    simp only [slide_kv, disarm_kv] at hkv
    cases hout : out.err with
    | some e => exact ⟨by simp, hkv⟩
    | none =>
        have hhead : m = g.nl := by
          by_contra hne
          exact herr (by omega) hout
        simp only [Fault.atLayer, hhead, if_true]
        exact ⟨by simp, by simpa [hhead] using hkv⟩
  obtain ⟨row, dseq, hsession, _⟩ := g4KvStep_effect K g true (some (.layer m text)) s
  unfold tick
  cases herr : (g4KvStep K g true (some (.layer m text)) s).err with
  | none => exact absurd herr hstep.1
  | some e =>
      refine ⟨by simp [herr], ?_, by simpa only [herr] using hstep.2⟩
      simp only [herr, hsession]
      simp [Session.withSeq]

/-- A peek that returns 0 is a tick without the advance, with the journal
counters put back. -/
theorem peek_effect (f : Option Fault) (s : Session T X R)
    (hok : (peek K g f s).err = none) :
    ∃ row : Nat → Option R,
      (peek K g f s).session =
        { (s.disarm.slide g).record g row with commitPos := s.commitPos, jcur := s.jcur } ∧
      (∀ l, (row l).isSome = g.isOwner l) ∧
      (∀ l r, row l = some r → ∃ x, r = K.kvRow s.bxOn l s.dpos x) := by
  obtain ⟨row, dseq, hsession, hdom, hall, hseq, hown⟩ := g4KvStep_effect K g false f s
  unfold peek at hok ⊢
  cases herr : (g4KvStep K g false f s).err with
  | some text => simp [herr] at hok
  | none =>
      have hdseq : dseq = s.dseq := funext fun q => hseq q (Or.inr rfl)
      refine ⟨row, ?_, ?_, hown⟩
      · simp only [herr, hsession, hdseq]
        simp [Session.withSeq, Session.record]
      · intro l
        exact Bool.eq_iff_iff.mpr ⟨hdom l, hall herr l⟩

end Steps

section Undo

variable {g : Geometry} {s : Session T X R} {l : Nat}

theorem Geometry.ringW_pos (hringed : g.isRinged l = true) : 0 < g.ringW := by
  simp only [Geometry.isRinged, Bool.and_eq_true, decide_eq_true_eq] at hringed
  exact hringed.1

/-- Two positions less than a ring apart have different slots. -/
theorem ring_slot_ne {w p p' : Nat} (hlt : p < p') (hclose : p' < p + w) : p % w ≠ p' % w := by
  intro heq
  have hzero : (p' - p) % w = 0 := Nat.sub_mod_eq_zero_of_mod_eq heq.symm
  rw [Nat.mod_eq_of_lt (by omega)] at hzero
  omega

theorem undo_kv (howner : g.isOwner l = true) (hringed : g.isRinged l = true) (d q : Nat) :
    (s.undo g d).kv l q = UndoLog.restoreDown (· % g.ringW)
      (fun p => s.jkv l (p - s.commitPos)) s.dpos d (s.kv l) q := by
  simp only [Session.undo, howner, hringed, and_self, if_true]

/-- A rewind leaves the caches that are not ringed alone. -/
theorem undo_kv_plain (hplain : g.isRinged l = false) (d q : Nat) :
    (s.undo g d).kv l q = s.kv l q := by
  simp [Session.undo, hplain]

/-- A slot a rewind crosses gets the entry of the first position that has it. -/
theorem undo_kv_entry (howner : g.isOwner l = true) (hringed : g.isRinged l = true) (d : Nat)
    (hd : d ≤ s.dpos) (p : Nat) (hlo : s.dpos - d ≤ p) (hhi : p < s.dpos)
    (hfirst : p < s.dpos - d + g.ringW) :
    (s.undo g d).kv l (p % g.ringW) = s.jkv l (p - s.commitPos) := by
  rw [undo_kv howner hringed]
  exact UndoLog.restoreDown_lowest d hd p hlo hhi
    fun q h1 h2 => (ring_slot_ne h2 (by omega)).symm

/-- The slot of a position above the crossed ones is left alone. -/
theorem undo_kv_frame (howner : g.isOwner l = true) (hringed : g.isRinged l = true) (d : Nat)
    (hd : d ≤ s.dpos) (p : Nat) (hge : s.dpos ≤ p) (hfirst : p < s.dpos - d + g.ringW) :
    (s.undo g d).kv l (p % g.ringW) = s.kv l (p % g.ringW) := by
  rw [undo_kv howner hringed]
  exact UndoLog.restoreDown_frame d hd _
    fun q h1 h2 => (ring_slot_ne (p := q) (by omega) (by omega)).symm

end Undo

end ShannonPrime.Kv
