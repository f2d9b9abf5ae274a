import ShannonPrime.Kv.Step

/-!
Two sessions, possibly of different cache layouts, that hold the same rows at
linked slots. A step that reads only linked slots makes the same reads, fails
at the same point and stores the same rows in both; the ring refinement and the
two-run properties of the peek and of prefix reuse are instances.
-/

namespace ShannonPrime.Kv

variable {T X R : Type*}

/-- The two geometries differ at most in the ring and the journal. -/
structure SameLayers (g g' : Geometry) : Prop where
  nl : g'.nl = g.nl
  period : g'.period = g.period
  kvfs : g'.kvfs = g.kvfs
  sw : g'.sw = g.sw

namespace SameLayers

variable {g g' : Geometry}

theorem refl (g : Geometry) : SameLayers g g := ⟨rfl, rfl, rfl, rfl⟩

theorem isGlobal_eq (h : SameLayers g g') (l : Nat) : g'.isGlobal l = g.isGlobal l := by
  simp [Geometry.isGlobal, h.period]

theorem isOwner_eq (h : SameLayers g g') (l : Nat) : g'.isOwner l = g.isOwner l := by
  simp [Geometry.isOwner, h.kvfs, h.nl]

theorem source_eq (h : SameLayers g g') (l : Nat) : g'.source l = g.source l := by
  simp [Geometry.source, h.kvfs, h.isGlobal_eq]

theorem window_eq (h : SameLayers g g') (l dpos : Nat) :
    g'.window l dpos = g.window l dpos := by
  simp [Geometry.window, h.isGlobal_eq, h.sw]

end SameLayers

namespace Geometry

variable (g : Geometry)

/-- A layer reads an owner that is not above it and has its attention type. -/
theorem source_spec {l : Nat} (hl : l < g.nl) :
    g.isOwner (g.source l) ∧ g.source l ≤ l ∧ g.isGlobal (g.source l) = g.isGlobal l := by
  by_cases howner : l < g.kvfs
  · simp [Geometry.source, Geometry.isOwner, howner, hl]
  · have htype := g.shared_type l (by omega) hl
    simp only [Geometry.source, howner, if_false, Geometry.isOwner, Geometry.isGlobal,
      decide_eq_true_eq, beq_iff_eq]
    obtain ⟨hle, hsame⟩ := htype
    by_cases hglobal : l % g.period = g.period - 1
    · simp only [hglobal, if_true, iff_true] at hle hsame ⊢
      refine ⟨by omega, by omega, ?_⟩
      simp [hsame]
    · simp only [hglobal, if_false, iff_false] at hle hsame ⊢
      refine ⟨by omega, by omega, ?_⟩
      simp [hglobal, hsame]

theorem slot_source {l : Nat} (hl : l < g.nl) (p : Nat) :
    g.slot (g.source l) p = g.slot l p := by
  simp [Geometry.slot, Geometry.isRinged, (g.source_spec hl).2.2]

theorem mem_window {l dpos p : Nat} : p ∈ g.window l dpos ↔
    p ≤ dpos ∧ (g.isGlobal l = false → dpos < p + g.sw) := by
  simp only [Geometry.window, List.mem_range'_1]
  cases g.isGlobal l with
  | true =>
      simp only [if_true, Bool.true_eq_false, false_imp_iff, and_true]
      omega
  | false =>
      simp only [Bool.false_eq_true, if_false, forall_const]
      omega

end Geometry

/-- Which slots of the two caches must hold the same row, layer by layer. -/
abbrev Links := Nat → Nat → Nat → Prop

/-- Equal position and mode, and equal rows at linked slots of owners. -/
structure Linked (g : Geometry) (A : Links) (s t : Session T X R) : Prop where
  dpos : t.dpos = s.dpos
  bxOn : t.bxOn = s.bxOn
  rows : ∀ l, g.isOwner l → ∀ q q', A l q q' → s.kv l q = t.kv l q'

/-- The links after the owners below layer `k` have stored the live position. -/
def Links.stored (A : Links) (g g' : Geometry) (dpos k : Nat) : Links :=
  fun l q q' => A l q q' ∨ (l < k ∧ q = g.slot l dpos ∧ q' = g'.slot l dpos)

/-- At position `dpos` the links are fit for a step: no link joins the live slot
to another one, and every earlier position a layer reads is linked, or shares the
slot the step itself writes. -/
structure Links.Fit (A : Links) (g g' : Geometry) (dpos : Nat) : Prop where
  live : ∀ l q q', A l q q' → (q = g.slot l dpos ↔ q' = g'.slot l dpos)
  reads : ∀ l, l < g.nl → ∀ p ∈ g.window l dpos, p ≠ dpos →
    A (g.source l) (g.slot l p) (g'.slot l p) ∨
      (g.slot l p = g.slot l dpos ∧ g'.slot l p = g'.slot l dpos)

theorem Linked.weaken {g g' : Geometry} {A : Links} {dpos k : Nat} {s t : Session T X R}
    (h : Linked g (A.stored g g' dpos k) s t) : Linked g A s t :=
  ⟨h.dpos, h.bxOn, fun l hl q q' hA => h.rows l hl q q' (Or.inl hA)⟩

theorem Linked.stored_zero {g g' : Geometry} {A : Links} {dpos : Nat} {s t : Session T X R}
    (h : Linked g A s t) : Linked g (A.stored g g' dpos 0) s t :=
  ⟨h.dpos, h.bxOn, fun l hl q q' hlink => h.rows l hl q q'
    (hlink.elim id fun hlt => absurd hlt.1 (Nat.not_lt_zero l))⟩

theorem Linked.advance {g : Geometry} {A : Links} {s t : Session T X R}
    (h : Linked g A s t) : Linked g A s.advance t.advance :=
  ⟨by simp [Session.advance, h.dpos], h.bxOn, h.rows⟩

theorem Linked.withSeq {g : Geometry} {A : Links} {s t : Session T X R}
    (h : Linked g A s t) (dseq dseq' : Nat → T) :
    Linked g A (s.withSeq dseq) (t.withSeq dseq') := ⟨h.dpos, h.bxOn, h.rows⟩

section Congr

variable (K : Kernels T X R) {g g' : Geometry} {A : Links}

theorem layerStore_dpos (g : Geometry) (l : Nat) (s : Session T X R) (x : X) :
    (layerStore K g l s x).dpos = s.dpos := by
  rw [layerStore_eq]; rfl

theorem layerStore_kv (g : Geometry) (l : Nat) (s : Session T X R) (x : X) (l' q : Nat) :
    (layerStore K g l s x).kv l' q =
      if q = g.slot l' s.dpos ∧ l' = l ∧ g.isOwner l then K.kvRow s.bxOn l s.dpos x
      else s.kv l' q := by
  rw [layerStore_eq, record_kv, ownRow]
  by_cases hq : q = g.slot l' s.dpos <;> by_cases hl : l' = l ∧ g.isOwner l <;> simp [hq, hl]

/-- Storing one layer's row links the live slot of that layer. -/
theorem layerStore_linked (hsame : SameLayers g g') {s t : Session T X R} {k : Nat}
    (hfit : A.Fit g g' s.dpos) (h : Linked g (A.stored g g' s.dpos k) s t) (x : X) :
    Linked g (A.stored g g' s.dpos (k + 1)) (layerStore K g k s x)
      (layerStore K g' k t x) := by
  refine ⟨?_, ?_, ?_⟩
  · rw [layerStore_dpos, layerStore_dpos, h.dpos]
  · simp only [layerStore_eq, record_bxOn, h.bxOn]
  · intro l howner q q' hlink
    rw [layerStore_kv, layerStore_kv, h.dpos, h.bxOn, hsame.isOwner_eq]
    have hlive : q = g.slot l s.dpos ↔ q' = g'.slot l s.dpos := by
      rcases hlink with hA | ⟨_, hq, hq'⟩
      · exact hfit.live l q q' hA
      · simp [hq, hq']
    by_cases hl : l = k
    · subst hl
      by_cases hq : q = g.slot l s.dpos
      · simp [hq, hlive.mp hq, howner]
      · have hq' : q' ≠ g'.slot l s.dpos := fun heq => hq (hlive.mpr heq)
        simp only [hq, hq', false_and, if_false]
        refine h.rows l howner q q' ?_
        rcases hlink with hA | ⟨_, heq, _⟩
        · exact Or.inl hA
        · exact absurd heq hq
    · simp only [hl, false_and, and_false, if_false]
      refine h.rows l howner q q' ?_
      rcases hlink with hA | ⟨hlt, heq⟩
      · exact Or.inl hA
      · exact Or.inr ⟨by omega, heq⟩

/-- A layer whose window is linked attends to the same rows. -/
theorem attends_linked (hsame : SameLayers g g') {s t : Session T X R} {k : Nat}
    (hk : k < g.nl) (hfit : A.Fit g g' s.dpos)
    (h : Linked g (A.stored g g' s.dpos (k + 1)) s t) :
    s.attends g k = t.attends g' k := by
  simp only [Session.attends, hsame.window_eq, hsame.source_eq, h.dpos]
  refine List.map_congr_left fun p hp => ?_
  obtain ⟨howner, hle, _⟩ := g.source_spec hk
  refine h.rows _ howner _ _ ?_
  have hread : A (g.source k) (g.slot k p) (g'.slot k p) ∨
      (g.slot k p = g.slot k s.dpos ∧ g'.slot k p = g'.slot k s.dpos) := by
    by_cases hpd : p = s.dpos
    · exact Or.inr (by simp [hpd])
    · exact hfit.reads k hk p hp hpd
  refine hread.imp id ?_
  rintro ⟨hlive, hlive'⟩
  have hk' : k < g'.nl := by rw [hsame.nl]; exact hk
  refine ⟨by omega, ?_, ?_⟩
  · rw [hlive, g.slot_source hk]
  · rw [hlive', ← hsame.source_eq, g'.slot_source hk']

/-- The layer loops of two linked sessions go the same way. -/
theorem layerLoop_linked (hsame : SameLayers g g') (f : Option Fault) (n k : Nat)
    (s t : Session T X R) (x : X) (hn : k + n = g.nl) (hfit : A.Fit g g' s.dpos)
    (h : Linked g (A.stored g g' s.dpos k) s t)
    (hspan : 0 < g.ringW → s.dpos - s.commitPos < g.jmax)
    (hspan' : 0 < g'.ringW → t.dpos - t.commitPos < g'.jmax) :
    let out := layerLoop K g f (List.range' k n) s x
    let out' := layerLoop K g' f (List.range' k n) t x
    out.err = out'.err ∧ out.reads = out'.reads ∧ Linked g A out.session out'.session ∧
    (out.err = none → out.hidden = out'.hidden ∧
      Linked g (A.stored g g' s.dpos g.nl) out.session out'.session) := by
  induction n generalizing k s t x with
  | zero =>
      have hk : k = g.nl := by omega
      subst hk
      exact ⟨rfl, rfl, h.weaken, fun _ => ⟨rfl, h⟩⟩
  | succ n ih =>
      have hfree : ¬(g.isOwner k ∧ g.isRinged k ∧ g.jmax ≤ s.dpos - s.commitPos) := by
        rintro ⟨_, hringed, hfull⟩
        simp only [Geometry.isRinged, Bool.and_eq_true, decide_eq_true_eq] at hringed
        have := hspan hringed.1
        omega
      have hfree' : ¬(g'.isOwner k ∧ g'.isRinged k ∧ g'.jmax ≤ t.dpos - t.commitPos) := by
        rintro ⟨_, hringed, hfull⟩
        simp only [Geometry.isRinged, Bool.and_eq_true, decide_eq_true_eq] at hringed
        have := hspan' hringed.1
        omega
      simp only [List.range'_succ, layerLoop]
      cases hfault : Fault.atLayer k f with
      | some text => exact ⟨rfl, rfl, h.weaken, by simp⟩
      | none =>
          simp only [hfree, hfree', if_false]
          have hstore := layerStore_linked K hsame hfit h x
          have hdpos := layerStore_dpos K g k s x
          have hreads : (layerStore K g k s x).attends g k =
              (layerStore K g' k t x).attends g' k :=
            attends_linked hsame (by omega) (by rw [hdpos]; exact hfit)
              (by rw [hdpos]; exact hstore)
          rw [h.bxOn, h.dpos, ← hreads]
          have hnext := ih (k + 1) (layerStore K g k s x) (layerStore K g' k t x)
            (K.layer s.bxOn k s.dpos x ((layerStore K g k s x).attends g k)) (by omega)
            (by rw [hdpos]; exact hfit) (by rw [hdpos]; exact hstore)
            (by rw [layerStore_eq]; exact hspan) (by rw [layerStore_eq]; exact hspan')
          rw [hdpos] at hnext
          exact ⟨hnext.1, by rw [hnext.2.1], hnext.2.2.1, hnext.2.2.2⟩

/-- Two linked sessions that read the same token and armed residual step alike. -/
theorem g4KvStep_linked (hsame : SameLayers g g') (head : Bool) (f : Option Fault)
    (s t : Session T X R) (hfit : A.Fit g g' s.dpos) (h : Linked g A s t)
    (htok : t.dseq s.dpos = s.dseq s.dpos) (hinj : t.inj = s.inj) :
    let out := g4KvStep K g head f s
    let out' := g4KvStep K g' head f t
    out.err = out'.err ∧ out.reads = out'.reads ∧ Linked g A out.session out'.session ∧
    (∀ q, s.dseq q = t.dseq q → out.session.dseq q = out'.session.dseq q) ∧
    (out.err = none → Linked g (A.stored g g' s.dpos g.nl) out.session out'.session ∧
      (head = true → out.session.dseq (s.dpos + 1) = out'.session.dseq (s.dpos + 1))) := by
  have hloop := layerLoop_linked K hsame f g.nl 0 (s.disarm.slide g) (t.disarm.slide g')
    (K.ple s.bxOn (s.dseq s.dpos) (s.inj.getD (K.embed (s.dseq s.dpos)))) (by omega)
    (by simpa using hfit)
    (Linked.stored_zero ⟨by simpa using h.dpos, by simpa using h.bxOn, by simpa using h.rows⟩)
    (by rw [slide_dpos]; exact fun hring => slide_span_lt g s.disarm hring)
    (by rw [slide_dpos]; exact fun hring => slide_span_lt g' t.disarm hring)
  obtain ⟨row, hsession, _⟩ := layerLoop_effect K g f (List.range g.nl) List.nodup_range
    (s.disarm.slide g) (K.ple s.bxOn (s.dseq s.dpos) (s.inj.getD (K.embed (s.dseq s.dpos))))
  obtain ⟨row', hsession', _⟩ := layerLoop_effect K g' f (List.range g.nl) List.nodup_range
    (t.disarm.slide g') (K.ple s.bxOn (s.dseq s.dpos) (s.inj.getD (K.embed (s.dseq s.dpos))))
  rw [slide_dpos, disarm_dpos, ← List.range_eq_range'] at hloop
  simp only [g4KvStep, hsame.nl, h.dpos, h.bxOn, htok, hinj]
  generalize layerLoop K g f (List.range g.nl) _ _ = out at hloop hsession ⊢
  generalize layerLoop K g' f (List.range g.nl) _ _ = out' at hloop hsession' ⊢
  have hseq : out.session.dseq = s.dseq := by simp [hsession]
  have hseq' : out'.session.dseq = t.dseq := by simp [hsession']
  obtain ⟨herr, hreads, hlinked, hdone⟩ := hloop
  rw [← herr]
  cases hfail : out.err with
  | some text =>
      exact ⟨rfl, hreads, hlinked, fun q hq => by rw [hseq, hseq', hq], by simp⟩
  | none =>
      obtain ⟨hhidden, hstored⟩ := hdone hfail
      cases head with
      | false =>
          exact ⟨rfl, hreads, hlinked, fun q hq => by simp [hseq, hseq', hq],
            fun _ => ⟨hstored, by simp⟩⟩
      | true =>
          cases hhead : Fault.atLayer g.nl f with
          | some text =>
              exact ⟨rfl, hreads, hlinked, fun q hq => by simp [hseq, hseq', hq], by simp⟩
          | none =>
              refine ⟨rfl, hreads, hlinked.withSeq _ _, ?_, fun _ =>
                ⟨hstored.withSeq _ _, fun _ => by simp [Session.withSeq, hhidden]⟩⟩
              intro q hq
              by_cases hnext : q = s.dpos + 1
              · simp [Session.withSeq, hnext, hhidden]
              · simp [Session.withSeq, Function.update_of_ne hnext, hseq, hseq', hq]

/-- Ticks of two linked sessions: the same error, reads and new tokens, and
unless a layer failed the live position is linked too. -/
theorem tick_linked (hsame : SameLayers g g') (head : Bool) (f : Option Fault)
    (s t : Session T X R) (hfit : A.Fit g g' s.dpos) (h : Linked g A s t)
    (htok : t.dseq s.dpos = s.dseq s.dpos) (hinj : t.inj = s.inj) :
    let out := tick K g head f s
    let out' := tick K g' head f t
    out.err = out'.err ∧ out.reads = out'.reads ∧ Linked g A out.session out'.session ∧
    (∀ q, s.dseq q = t.dseq q → out.session.dseq q = out'.session.dseq q) ∧
    ((g4KvStep K g head f s).err = none →
      Linked g (A.stored g g' s.dpos g.nl) out.session out'.session ∧
      (head = true → out.session.dseq (s.dpos + 1) = out'.session.dseq (s.dpos + 1))) := by
  obtain ⟨herr, hreads, hlinked, hseq, hdone⟩ :=
    g4KvStep_linked K hsame head f s t hfit h htok hinj
  simp only [tick, ← herr]
  cases hfail : (g4KvStep K g head f s).err with
  | some text =>
      simp only [hfail] at herr
      exact ⟨by simp only [hfail]; exact herr, hreads, hlinked, hseq, by simp⟩
  | none =>
      obtain ⟨hstored, hnext⟩ := hdone hfail
      exact ⟨rfl, hreads, hlinked.advance, hseq, fun _ => ⟨hstored.advance, hnext⟩⟩

end Congr

end ShannonPrime.Kv
