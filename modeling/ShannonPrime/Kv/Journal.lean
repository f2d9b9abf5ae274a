import ShannonPrime.Kv.Run

/-!
The undo-journal of the ring. A rewind that stays above the fence restores
every ring slot of a sliding-window owner to what it held when the session last
stood at the target position. Below the fence it does not: the automatic slide
renumbers the entries without moving them, and the last theorem of the first
part is a run where a rewind that returns 0 restores a wrong row. The second
part is about the journal alone, over all the verbs that write it.
-/

namespace ShannonPrime.Kv

variable {T X R : Type*}

/-- The journalled span is in order: `commitPos ≤ fence ≤ dpos`. -/
structure Spanned (s : Session T X R) (fence : Nat) : Prop where
  commit_le : s.commitPos ≤ fence
  fence_le : fence ≤ s.dpos

/-- Above the fence the journal is an undo log of the sessions passed through,
for every ringed owner. -/
structure Preimages (g : Geometry) (w : Watch T X R) : Prop where
  span : Spanned w.session w.fence
  snapshots : ∃ H : Nat → Session T X R,
    (∀ q, w.fence ≤ q → q ≤ w.session.dpos → w.lastAt q = some (H q)) ∧
    ∀ l, g.isOwner l → g.isRinged l →
      UndoLog.Coherent (· % g.ringW) (fun p => w.session.jkv l (p - w.session.commitPos))
        (fun q => (H q).kv l) w.fence w.session.dpos

section LastAt

variable (s s' : Session T X R) (past : List (Session T X R)) (fence fence' : Nat)

theorem lastAt_present : (⟨s, fence, past⟩ : Watch T X R).lastAt s.dpos = some s := by
  simp [Watch.lastAt]

theorem lastAt_push_of_ne (q : Nat) (hq : s'.dpos ≠ q) :
    (⟨s', fence', s :: past⟩ : Watch T X R).lastAt q =
      (⟨s, fence, past⟩ : Watch T X R).lastAt q := by
  simp [Watch.lastAt, List.find?_cons, hq]

end LastAt

namespace Preimages

variable {g : Geometry} {w : Watch T X R}

/-- Nothing is claimed when the fence stands at the live position. -/
theorem of_fence_eq (s : Session T X R) (past : List (Session T X R))
    (hcommit : s.commitPos ≤ s.dpos) : Preimages g ⟨s, s.dpos, past⟩ := by
  refine ⟨⟨hcommit, Nat.le_refl _⟩, fun _ => s, ?_, ?_⟩
  · intro q h1 h2
    obtain rfl : q = s.dpos := Nat.le_antisymm h2 h1
    exact lastAt_present s past _
  · intro l _ _
    exact UndoLog.Coherent.empty (Nat.le_refl _)

/-- The session moves to a position it has a snapshot of, with the cache of that
snapshot and the journal as it was. -/
theorem rebase (h : Preimages g w) (s' : Session T X R)
    (hlo : w.fence ≤ s'.dpos) (hhi : s'.dpos ≤ w.session.dpos)
    (hcommit : s'.commitPos = w.session.commitPos) (hjkv : s'.jkv = w.session.jkv)
    (hkv : ∀ s₀, w.lastAt s'.dpos = some s₀ →
      ∀ l, g.isOwner l → g.isRinged l → s'.kv l = s₀.kv l) :
    Preimages g ⟨s', w.fence, w.session :: w.past⟩ := by
  obtain ⟨hspan, H, hlast, hcoh⟩ := h
  refine ⟨⟨by simpa [hcommit] using hspan.commit_le, hlo⟩,
    Function.update H s'.dpos s', ?_, ?_⟩
  · intro q h1 h2
    simp only at h1 h2
    by_cases hq : q = s'.dpos
    · subst hq
      rw [Function.update_self]
      exact lastAt_present _ _ _
    · rw [Function.update_of_ne hq,
        lastAt_push_of_ne _ _ _ w.fence _ q (fun heq => hq heq.symm)]
      exact hlast q h1 (by omega)
  · intro l howner hringed
    simp only [hcommit, hjkv]
    refine ((hcoh l howner hringed).mono (Nat.le_refl _) hhi).congr (fun _ _ _ => rfl) ?_
    intro p h1 h2
    by_cases hp : p = s'.dpos
    · subst hp
      rw [Function.update_self]
      exact hkv (H s'.dpos) (hlast _ h1 hhi) l howner hringed
    · rw [Function.update_of_ne hp]

/-- An operation that keeps the position, the cache and the journal. -/
theorem keep (h : Preimages g w) (s' : Session T X R) (hdpos : s'.dpos = w.session.dpos)
    (hcommit : s'.commitPos = w.session.commitPos) (hkv : s'.kv = w.session.kv)
    (hjkv : s'.jkv = w.session.jkv) :
    Preimages g ⟨s', w.fence, w.session :: w.past⟩ := by
  have hfence_le := h.span.fence_le
  refine h.rebase s' (by omega) (by omega) hcommit hjkv ?_
  intro s₀ hs₀ l _ _
  rw [hdpos, lastAt_present] at hs₀
  rw [← Option.some.inj hs₀, hkv]

/-- A position is written: its entry holds the row it overwrote. The entries
below it stay when the base of the journal does. -/
theorem advance (h : Preimages g w) (s' : Session T X R) (fence' : Nat)
    (hdpos : s'.dpos = w.session.dpos + 1)
    (hfence : (fence' = w.fence ∧ s'.commitPos = w.session.commitPos) ∨
      (fence' = w.session.dpos ∧ s'.commitPos ≤ w.session.dpos))
    (hsaved : ∀ l, g.isOwner l → g.isRinged l →
      s'.jkv l (w.session.dpos - s'.commitPos) = w.session.kv l (w.session.dpos % g.ringW))
    (hframe : ∀ l, g.isOwner l → g.isRinged l →
      ∀ a, a ≠ w.session.dpos % g.ringW → s'.kv l a = w.session.kv l a)
    (hjkv : ∀ l j, j ≠ w.session.dpos - s'.commitPos → s'.jkv l j = w.session.jkv l j) :
    Preimages g ⟨s', fence', w.session :: w.past⟩ := by
  obtain ⟨hspan, H, hlast, hcoh⟩ := h
  have hcommit_le := hspan.commit_le
  have hfence_le := hspan.fence_le
  have hfence' : w.fence ≤ fence' ∧ fence' ≤ w.session.dpos ∧ s'.commitPos ≤ fence' := by
    rcases hfence with ⟨h1, h2⟩ | ⟨h1, h2⟩ <;> omega
  have hnow : H w.session.dpos = w.session := by
    have := hlast w.session.dpos hfence_le (Nat.le_refl _)
    rw [lastAt_present] at this
    exact (Option.some.inj this).symm
  refine ⟨⟨hfence'.2.2, by simp only [hdpos]; omega⟩,
    Function.update H (w.session.dpos + 1) s', ?_, ?_⟩
  · intro q h1 h2
    by_cases hq : q = w.session.dpos + 1
    · subst hq
      rw [Function.update_self, ← hdpos]
      exact lastAt_present _ _ _
    · simp only [hdpos] at h1 h2
      rw [Function.update_of_ne hq, lastAt_push_of_ne _ _ _ w.fence _ q (by omega)]
      exact hlast q (by omega) (by omega)
  · intro l howner hringed
    have hold : UndoLog.Coherent (· % g.ringW) (fun p => s'.jkv l (p - s'.commitPos))
        (fun q => (H q).kv l) fence' w.session.dpos := by
      rcases hfence with ⟨h1, h2⟩ | ⟨h1, h2⟩
      · rw [h1]
        refine (hcoh l howner hringed).congr ?_ (fun _ _ _ => rfl)
        intro p hlo hhi
        rw [hjkv l _ (by omega), h2]
      · exact UndoLog.Coherent.empty (by omega)
    simp only [hdpos]
    refine UndoLog.Coherent.snoc (hold.congr (fun _ _ _ => rfl) ?_) ?_ ?_
    · intro p _ hhi
      rw [Function.update_of_ne (by omega)]
    · rw [Function.update_of_ne (by omega), hnow]
      exact hsaved l howner hringed
    · intro a ha
      rw [Function.update_self, Function.update_of_ne (by omega), hnow]
      exact hframe l howner hringed a ha

/-- Undoing `d` positions above the fence brings back the snapshot. -/
theorem undo_kv (h : Preimages g w) (d : Nat) (hd : w.fence + d ≤ w.session.dpos) :
    ∃ s₀, w.lastAt (w.session.dpos - d) = some s₀ ∧
      ∀ l, g.isOwner l → g.isRinged l → (w.session.undo g d).kv l = s₀.kv l := by
  obtain ⟨hspan, H, hlast, hcoh⟩ := h
  have hnow : H w.session.dpos = w.session := by
    have := hlast w.session.dpos hspan.fence_le (Nat.le_refl _)
    rw [lastAt_present] at this
    exact (Option.some.inj this).symm
  refine ⟨H (w.session.dpos - d), hlast _ (by omega) (by omega), ?_⟩
  intro l howner hringed
  simp only [Session.undo, howner, hringed, and_self, if_true]
  refine UndoLog.restoreDown_eq_snap d hd (hcoh l howner hringed) _ ?_
  intro a _
  simp only [hnow]

theorem undo (h : Preimages g w) (d : Nat) (hd : d ≤ w.session.dpos - w.session.commitPos) :
    Preimages g ⟨w.session.undo g d, min w.fence (w.session.dpos - d),
      w.session :: w.past⟩ := by
  have hspan := h.span
  have hcommit_le := hspan.commit_le
  have hfence_le := hspan.fence_le
  by_cases hbelow : w.session.dpos - d ≤ w.fence
  · rw [Nat.min_eq_right hbelow]
    exact of_fence_eq _ _ (by simp only [Session.undo]; omega)
  · rw [Nat.min_eq_left (by omega)]
    obtain ⟨s₀, hs₀, hkv⟩ := h.undo_kv d (by omega)
    refine h.rebase _ (by simp only [Session.undo]; omega) (by simp [Session.undo]) rfl rfl ?_
    intro s₁ hs₁ l howner hringed
    have hsame : some s₀ = some s₁ := hs₀.symm.trans hs₁
    rw [hkv l howner hringed, Option.some.inj hsame]

end Preimages

section Rewind

variable (K : Kernels T X R) {g : Geometry}

theorem isRinged_slot {l : Nat} (hringed : g.isRinged l) (p : Nat) :
    g.slot l p = p % g.ringW := by
  simp [Geometry.slot, hringed]

/-- One step of the run, whether or not it slides. -/
theorem Preimages.tick {w : Watch T X R} (h : Preimages g w)
    (head : Bool) (f : Option Fault) (hok : (tick K g head f w.session).err = none) :
    Preimages g (w.op K g (.tick head f)) := by
  obtain ⟨row, dseq, hsession, hrow, _⟩ := tick_effect K g head f w.session hok
  have hcommit := slide_disarm_commitPos g w.session
  simp only [Watch.op, runOp, hsession, fenceAfter]
  refine h.advance _ _ (by simp [Session.advance, Session.withSeq]) ?_ ?_ ?_ ?_
  · simp only [Session.advance, Session.withSeq, record_commitPos, hcommit]
    by_cases hslide : w.session.slides g
    · rw [if_pos hslide, if_pos hslide]
      exact Or.inr ⟨rfl, Nat.sub_le _ _⟩
    · simp [hslide]
  · intro l howner hringed
    simp [Session.advance, Session.withSeq, record_jkv, hringed, hrow, howner,
      isRinged_slot hringed]
  · intro l _ hringed a ha
    simp [Session.advance, Session.withSeq, record_kv, isRinged_slot hringed, ha]
  · intro l j hj
    simp only [Session.advance, Session.withSeq, record_commitPos] at hj
    simp [Session.advance, Session.withSeq, record_jkv, hj]

theorem Preimages.op {w : Watch T X R} (h : Preimages g w)
    (op : Op T X R) (hop : op.isForward = true) (hok : (runOp K g op w.session).err = none) :
    Preimages g (w.op K g op) := by
  cases op <;> simp only [Op.isForward, Bool.false_eq_true] at hop
  case feed toks => exact h.keep _ rfl rfl rfl rfl
  case tick head f => exact h.tick K head f hok
  case commit => exact Preimages.of_fence_eq w.session.commit _ (Nat.le_refl _)
  case reset => exact Preimages.of_fence_eq w.session.reset _ (Nat.le_refl _)

/-- Every run of forward calls keeps the journal an undo log above the fence. -/
theorem forward_run_preimages (hring : 0 < g.ringW) (dseq : Nat → T)
    (kv jkv : Nat → Nat → R) (cs : List (Call T X R))
    (hverbs : ∀ c ∈ cs, c.isForward = true)
    (hacc : accepted K g cs (Session.opened dseq kv jkv : Session T X R) = true) :
    Preimages g ((Watch.opened dseq kv jkv).run K g cs) := by
  refine Watch.run_invariant K g (Preimages g) cs ?_ _ hacc
    (Preimages.of_fence_eq (Session.opened dseq kv jkv) [] (Nat.le_refl _))
  intro c hc w hw ops hqueue hok
  by_cases hplain : c.isPlain = true
  · have hmem := plain_queue K g w.session c hplain ops hqueue
    exact Watch.ops_invariant K g (Preimages g) ops
      (fun op hop w' hw' hok' => hw'.op K op ((hmem op hop).2.1 (hverbs c hc)) hok') w hok hw
  · have hforward := hverbs c hc
    cases c <;> simp [Call.isPlain, Call.isForward] at hplain hforward
    obtain ⟨rfl, _, hd⟩ := gemma4KvRewind_ok g w.session _ ops hqueue
    exact hw.undo _ (hd hring)

/-- The position `delta` back. -/
def Session.behind (s : Session T X R) (delta : Int) : Nat := s.dpos - delta.toNat

/-- The session stands at `q`, and every ringed owner holds what it held when the
session last stood there. -/
def Restored (g : Geometry) (w : Watch T X R) (s : Session T X R) (q : Nat) : Prop :=
  s.dpos = q ∧ ∃ s₀, w.lastAt q = some s₀ ∧
    ∀ l, g.isOwner l → g.isRinged l → ∀ slot, slot < g.ringW → s.kv l slot = s₀.kv l slot

/-- After any run of forward calls on a ring: a refused rewind changes nothing,
and an accepted one whose target is not below the fence leaves every ringed
owner with exactly the slots of the last session that stood there. -/
theorem rewind_restores_ring (hring : 0 < g.ringW) (dseq : Nat → T)
    (kv jkv : Nat → Nat → R) (cs : List (Call T X R))
    (hverbs : ∀ c ∈ cs, c.isForward = true)
    (hacc : accepted K g cs (Session.opened dseq kv jkv : Session T X R) = true)
    (delta : Int) :
    let w := (Watch.opened dseq kv jkv : Watch T X R).run K g cs
    let out := (Call.rewind delta).exec K g w.session
    (out.err ≠ none → out.session = w.session) ∧
    (out.err = none → w.fence ≤ w.session.behind delta →
      Restored g w out.session (w.session.behind delta)) := by
  intro w out
  have hw : Preimages g w := forward_run_preimages K hring dseq kv jkv cs hverbs hacc
  cases hqueue : gemma4KvRewind g w.session delta with
  | error text =>
      have hout : out = ⟨some text, w.session, []⟩ := by
        simp only [out, Call.exec, Call.queue, hqueue]
      rw [hout]
      exact ⟨fun _ => rfl, fun h => by simp at h⟩
  | ok ops =>
      obtain ⟨rfl, hdpos, _⟩ := gemma4KvRewind_ok g w.session delta ops hqueue
      have hout : out = ⟨none, w.session.undo g delta.toNat, []⟩ := by
        simp only [out, Call.exec, Call.queue, hqueue, runOps, runOp, List.append_nil]
      rw [hout]
      refine ⟨fun h => absurd rfl h, fun _ hfence => ⟨rfl, ?_⟩⟩
      have hfence_le := hw.span.fence_le
      unfold Session.behind at hfence
      obtain ⟨s₀, hs₀, hkv⟩ := hw.undo_kv delta.toNat (by omega)
      exact ⟨s₀, hs₀, fun l howner hringed slot _ => congrFun (hkv l howner hringed) slot⟩

end Rewind

/-- Three positions through a ring of two whose journal has room for them: the
rewind of two of them is exact. -/
theorem rewind_restores_ring_without_slide :
    let g := soloGeometry 2 8 2 4 (by decide) (by decide)
    let w := (Watch.opened (fun _ => 0) (fun _ q => 100 + q) (fun _ _ => 200)).run
      (posKernels 7) g [.prefill [7, 7, 7] noFaults]
    w.session.dpos = 3 ∧
      Restored g w ((Call.rewind 2).exec (posKernels 7) g w.session).session
        (w.session.behind 2) := by
  intro g w
  refine ⟨by decide, ?_⟩
  exact (rewind_restores_ring (posKernels 7) (by decide) (fun _ => 0)
    (fun _ q => 100 + q) (fun _ _ => 200) [.prefill [7, 7, 7] noFaults]
    (by simp [Call.isForward]) (by decide) 2).2 (by decide) (by decide)

/-- Five positions through a ring of two with a journal of two, then a rewind of
two: it returns 0, and slot 1 gets the entry that position 0 saved long ago
(row 100) where the session at position 3 held row 1. -/
theorem rewind_below_slide_wrong :
    let g := soloGeometry 2 8 2 2 (by decide) (by decide)
    let w := (Watch.opened (fun _ => 0) (fun _ q => 100 + q) (fun _ _ => 200)).run
      (posKernels 7) g [.prefill [7, 7, 7, 7, 7] noFaults]
    let out := (Call.rewind 2).exec (posKernels 7) g w.session
    accepted (posKernels 7) g [.prefill [7, 7, 7, 7, 7] noFaults]
        (Session.opened (fun _ => 0) (fun _ q => 100 + q) (fun _ _ => 200)) = true ∧
      out.err = none ∧ w.session.dpos = 5 ∧ out.session.kv 0 1 = 100 ∧
      (w.lastAt 3).map (fun s₀ => s₀.kv 0 1) = some 1 ∧
      ¬Restored g w out.session 3 := by
  intro g w out
  have hkv : out.session.kv 0 1 = 100 := by decide
  have hlast : (w.lastAt 3).map (fun s₀ => s₀.kv 0 1) = some 1 := by decide
  refine ⟨by decide, by decide, by decide, hkv, hlast, ?_⟩
  rintro ⟨_, s₀, hs₀, hsame⟩
  have hslot := hsame 0 (by decide) (by decide) 1 (by decide)
  rw [hs₀, Option.map_some] at hlast
  have hrow : s₀.kv 0 1 = 1 := Option.some.inj hlast
  omega

/-- Above the fence every journal entry was written for its own position, and no
entry outside `[0, jmax)` was ever written. -/
structure Tagged (g : Geometry) (s : Session T X R) (fence : Nat) : Prop where
  span : Spanned s fence
  inBounds : ∀ l j p, s.jpos l j = some p → j < g.jmax
  tagged : ∀ p, fence ≤ p → p < s.dpos → p - s.commitPos < g.jmax ∧
    ∀ l, g.isOwner l → g.isRinged l → s.jpos l (p - s.commitPos) = some p

namespace Tagged

variable {g : Geometry} {s : Session T X R} {fence : Nat}

theorem of_cleared (hspan : s.commitPos ≤ s.dpos) (hclear : s.jpos = fun _ _ => none) :
    Tagged g s s.dpos :=
  ⟨⟨hspan, Nat.le_refl _⟩, by simp [hclear], by intro p h1 h2; omega⟩

/-- An operation that leaves the counters and the journal alone. -/
theorem keep (h : Tagged g s fence) (s' : Session T X R) (hdpos : s'.dpos = s.dpos)
    (hcommit : s'.commitPos = s.commitPos) (hjpos : s'.jpos = s.jpos) :
    Tagged g s' fence := by
  obtain ⟨⟨h1, h2⟩, hbound, htag⟩ := h
  refine ⟨⟨by omega, by omega⟩, ?_, ?_⟩
  · rw [hjpos]; exact hbound
  · rw [hdpos, hcommit, hjpos]; exact htag

/-- The slide keeps the tags it claims: those above the new fence, which is none. -/
theorem slide (h : Tagged g s fence) :
    Tagged g (s.disarm.slide g) (if s.slides g then s.dpos else fence) := by
  by_cases hslide : s.slides g
  · rw [if_pos hslide]
    refine ⟨⟨?_, by simp⟩, by simpa using h.inBounds, ?_⟩
    · rw [slide_disarm_commitPos, if_pos hslide]
      exact Nat.sub_le _ _
    · intro p h1 h2
      rw [slide_dpos, disarm_dpos] at h2
      omega
  · rw [if_neg hslide]
    refine h.keep _ (by simp) ?_ (by simp)
    rw [slide_disarm_commitPos, if_neg hslide]

/-- Recording the live position tags its entry and no other. -/
theorem record (h : Tagged g s fence) (row : Nat → Option R)
    (hrow : ∀ l, (row l).isSome = g.isOwner l)
    (hroom : 0 < g.ringW → s.dpos - s.commitPos < g.jmax) (s' : Session T X R)
    (hdpos : s'.dpos = s.dpos ∨ s'.dpos = s.dpos + 1) (hcommit : s'.commitPos = s.commitPos)
    (hjpos : s'.jpos = (s.record g row).jpos) (hring : 0 < g.ringW) :
    Tagged g s' fence := by
  have hcommit_le := h.span.commit_le
  have hfence_le := h.span.fence_le
  have hroom' := hroom hring
  refine ⟨⟨by omega, by omega⟩, ?_, ?_⟩
  · intro l j p
    rw [hjpos, record_jpos]
    split
    case isTrue hj => intro _; omega
    case isFalse => exact h.inBounds l j p
  · intro p h1 h2
    rw [hcommit]
    by_cases hp : p = s.dpos
    · subst hp
      refine ⟨hroom', ?_⟩
      intro l howner hringed
      rw [hjpos, record_jpos]
      simp [hringed, hrow, howner]
    · obtain ⟨hlt, htag⟩ := h.tagged p h1 (by omega)
      refine ⟨hlt, ?_⟩
      intro l howner hringed
      rw [hjpos, record_jpos, if_neg (by omega)]
      exact htag l howner hringed

theorem undo (h : Tagged g s fence) (d : Nat) (hd : d ≤ s.dpos - s.commitPos) :
    Tagged g (s.undo g d) (min fence (s.dpos - d)) := by
  have hcommit_le := h.span.commit_le
  have hfence_le := h.span.fence_le
  refine ⟨⟨by simp only [Session.undo]; omega, by simp only [Session.undo]; omega⟩,
    h.inBounds, ?_⟩
  intro p h1 h2
  simp only [Session.undo] at h2
  exact h.tagged p (by omega) (by omega)

end Tagged

section AllVerbs

variable (K : Kernels T X R) {g : Geometry}

theorem Tagged.op (hring : 0 < g.ringW) {w : Watch T X R} (h : Tagged g w.session w.fence)
    (op : Op T X R) (hok : (runOp K g op w.session).err = none)
    (hundo : ∀ d, op = .undo d → d ≤ w.session.dpos - w.session.commitPos)
    (hput : ∀ row, op = .put row → w.session.dpos - w.session.commitPos < g.jmax)
    (hsink : ∀ toks, op = .sink toks → w.session.dpos = 0) :
    Tagged g (w.op K g op).session (w.op K g op).fence := by
  have hcommit_le := h.span.commit_le
  have hfence_le := h.span.fence_le
  cases op with
  | feed toks => exact h.keep _ rfl rfl rfl
  | arm x => exact h.keep _ rfl rfl rfl
  | tick head f =>
      obtain ⟨row, dseq, hsession, hrow, _⟩ := tick_effect K g head f w.session hok
      simp only [Watch.op, runOp, hsession, fenceAfter]
      refine h.slide.record row hrow (fun hring => ?_) _ (Or.inr rfl) rfl rfl hring
      rw [slide_dpos]
      exact slide_span_lt g w.session.disarm hring
  | room text => exact h.keep _ rfl rfl rfl
  | peek f =>
      obtain ⟨row, hsession, hrow, _⟩ := peek_effect K g f w.session hok
      have hstep := h.slide.record row hrow
        (fun hring => by rw [slide_dpos]; exact slide_span_lt g w.session.disarm hring)
        ((w.session.disarm.slide g).record g row) (Or.inl rfl) rfl rfl hring
      simp only [Watch.op, runOp, hsession, fenceAfter]
      refine ⟨⟨?_, hstep.span.fence_le⟩, hstep.inBounds, ?_⟩
      · show w.session.commitPos ≤ _
        split <;> omega
      · intro p h1 h2
        have hp := hstep.tagged p h1 h2
        simp only [record_dpos, slide_dpos, disarm_dpos] at h2
        by_cases hslide : w.session.slides g
        · rw [if_pos hslide] at h1
          omega
        · rw [record_commitPos, slide_disarm_commitPos, if_neg hslide] at hp
          exact hp
  | undo d => exact h.undo d (hundo d rfl)
  | commit => exact Tagged.of_cleared (Nat.le_refl _) rfl
  | reset => exact Tagged.of_cleared (Nat.le_refl _) rfl
  | resetCold => exact Tagged.of_cleared (Nat.le_refl _) rfl
  | sink toks =>
      have hzero := hsink toks rfl
      have hspan : (sinkRows K g toks w.session).commitPos ≤ (sinkRows K g toks w.session).dpos := by
        simp only [sinkRows]
        omega
      exact Tagged.of_cleared hspan rfl
  | put row =>
      refine h.record _ ?_ (fun _ => hput row rfl) _ (Or.inr rfl) rfl rfl hring
      intro l
      cases g.isOwner l <;> simp
  | attenuate base n => exact h.keep _ rfl rfl rfl
  | ablate base pos => exact h.keep _ rfl rfl rfl
  | byteexact on => exact h.keep _ rfl rfl rfl

/-- The puts of a replay fit the journal one after the other. -/
theorem Tagged.puts (hring : 0 < g.ringW) (rows : List (Nat → R)) (w : Watch T X R)
    (h : Tagged g w.session w.fence)
    (hroom : w.session.dpos - w.session.commitPos + rows.length ≤ g.jmax) :
    Tagged g (w.ops K g (rows.map .put)).session (w.ops K g (rows.map .put)).fence := by
  induction rows generalizing w with
  | nil => exact h
  | cons row rest ih =>
      simp only [List.length_cons] at hroom
      have hstep := h.op K hring (.put row) rfl (by simp) (fun _ _ => by omega) (by simp)
      refine ih (w.op K g (.put row)) hstep ?_
      simp only [Watch.op, runOp, Session.advance, record_dpos, record_commitPos]
      have := h.span.commit_le
      have := h.span.fence_le
      omega

theorem Tagged.call (hring : 0 < g.ringW) (c : Call T X R) (w : Watch T X R)
    (h : Tagged g w.session w.fence) (ops : List (Op T X R))
    (hqueue : c.queue K g w.session = .ok ops)
    (hok : (runOps K g ops w.session).err = none) :
    Tagged g (w.ops K g ops).session (w.ops K g ops).fence := by
  by_cases hplain : c.isPlain = true
  · have hmem := plain_queue K g w.session c hplain ops hqueue
    refine Watch.ops_invariant K g (fun w => Tagged g w.session w.fence) ops
      (fun op hop w' hw' hok' => ?_) w hok h
    have hop' := (hmem op hop).1
    exact hw'.op K hring op hok' (fun d heq => by simp [heq, Op.isPlain] at hop')
      (fun row heq => by simp [heq, Op.isPlain] at hop')
      (fun toks heq => by simp [heq, Op.isPlain] at hop')
  · cases c <;> simp [Call.isPlain] at hplain
    case rewind delta =>
      obtain ⟨rfl, _, hd⟩ := gemma4KvRewind_ok g w.session delta ops hqueue
      exact h.undo _ (hd hring)
    case replay ep npos zero =>
      obtain ⟨row, rfl, _, _, hroom⟩ := gemma4KvReplay_ok g w.session ep npos _ ops hqueue
      have hputs := Tagged.puts K hring ((List.range npos.toNat).map row) w h
        (by simpa using hroom hring)
      rw [List.map_map] at hputs
      exact hputs
    case prefillBatched toks decline =>
      obtain ⟨rfl, hcold, _, _⟩ := gemma4KvPrefillBatched_ok g w.session toks decline ops hqueue
      exact h.op K hring (.sink toks) rfl (by simp) (by simp) (fun _ _ => hcold)

/-- What a rewind by `delta` reads of the journal: entries in bounds, each
written for the position it restores. -/
def ReadsOwnEntries (g : Geometry) (s : Session T X R) (delta : Int) : Prop :=
  ∀ p, s.behind delta ≤ p → p < s.dpos → p - s.commitPos < g.jmax ∧
    ∀ l, g.isOwner l → g.isRinged l → s.jpos l (p - s.commitPos) = some p

/-- In every state a run of accepted calls of any verbs reaches on a ring, each
journal entry ever written has an index below `jmax`, and a rewind that stays
above the fence reads only entries that were written for the very positions
it restores. -/
theorem journal_indices_valid (hring : 0 < g.ringW) (dseq : Nat → T)
    (kv jkv : Nat → Nat → R) (cs : List (Call T X R))
    (hacc : accepted K g cs (Session.opened dseq kv jkv : Session T X R) = true) :
    let w := (Watch.opened dseq kv jkv : Watch T X R).run K g cs
    (∀ l j p, w.session.jpos l j = some p → j < g.jmax) ∧
    ∀ delta, ((Call.rewind delta).exec K g w.session).err = none →
      w.fence ≤ w.session.behind delta → ReadsOwnEntries g w.session delta := by
  intro w
  have hw : Tagged g w.session w.fence :=
    Watch.run_invariant K g (fun w => Tagged g w.session w.fence) cs
      (fun c _ w' hw' ops hqueue hok => hw'.call K hring c w' ops hqueue hok) _ hacc
      (Tagged.of_cleared (Nat.le_refl _) rfl)
  refine ⟨hw.inBounds, ?_⟩
  intro delta _ hfence p h1 h2
  exact hw.tagged p (Nat.le_trans hfence h1) h2

end AllVerbs

/-- A prefill, a peek and a rewind on a ring of two: the rewind reads the entries
of positions 1 and 2, written for them. -/
theorem journal_indices_valid_after_peek :
    let g := soloGeometry 2 8 2 4 (by decide) (by decide)
    let w := (Watch.opened (fun _ => 0) (fun _ q => 100 + q) (fun _ _ => 200)).run
      (posKernels 7) g [.prefill [7, 7, 7] noFaults, .readGlobalQ 7 none]
    ((Call.rewind 2).exec (posKernels 7) g w.session).err = none ∧ w.session.dpos = 3 ∧
      ReadsOwnEntries g w.session 2 := by
  intro g w
  have hok : ((Call.rewind 2).exec (posKernels 7) g w.session).err = none := by decide
  refine ⟨hok, by decide, ?_⟩
  exact (journal_indices_valid (posKernels 7) (by decide) (fun _ => 0) (fun _ q => 100 + q)
    (fun _ _ => 200) [.prefill [7, 7, 7] noFaults, .readGlobalQ 7 none]
    (by decide)).2 2 hok (by decide)

/-- A batched fill of five positions into a ring whose journal has two entries,
then a rewind of one: it returns 0 and reads journal entry 4, which does not
exist and which nothing has written. -/
theorem rewind_after_batched_reads_outside :
    let g := soloGeometry 4 16 4 2 (by decide) (by decide)
    let w := (Watch.opened (fun _ => 0) (fun _ q => 100 + q) (fun _ _ => 200)).run
      (posKernels 7) g [.prefillBatched [7, 7, 7, 7, 7] none]
    accepted (posKernels 7) g [.prefillBatched [7, 7, 7, 7, 7] none]
        (Session.opened (fun _ => 0) (fun _ q => 100 + q) (fun _ _ => 200)) = true ∧
      ((Call.rewind 1).exec (posKernels 7) g w.session).err = none ∧
      w.session.jpos 0 4 = none ∧ ¬ReadsOwnEntries g w.session 1 := by
  intro g w
  have hdpos : w.session.dpos = 5 := by decide
  have hcommit : w.session.commitPos = 0 := by decide
  refine ⟨by decide, by decide, by decide, ?_⟩
  intro hreads
  have hentry := (hreads 4 (by decide) (by decide)).1
  rw [hcommit] at hentry
  have hjmax : g.jmax = 2 := rfl
  omega

end ShannonPrime.Kv
