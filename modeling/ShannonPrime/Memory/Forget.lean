import ShannonPrime.Lib.Runs
import ShannonPrime.Memory.Store

/-!
What is forgotten stays forgotten, and where not. A removal reaches the nightshift list and
the registry file. It does not reach the registry in memory, the concepts of the shared
store, or a row of the file whose text is only in the manifest.
-/

namespace ShannonPrime.Memory

open Recall

variable (disk : Disk) (env : Env) (v : Text)

/-- No episode with the text is scanned. -/
def Free (eps : List Episode) : Prop := ∀ e ∈ eps, e.text = v → env.active e = false

/-- Neither in memory nor after the file is read again. -/
structure Gone (st : Store) : Prop where
  registry : Free env v (st.registry.getD [])
  nightshift : Free env v st.nightshift
  file : env.registryPath = true → ∀ lines ∈ st.file, Free env v (loadRegistry disk lines)

variable {disk} {env} {v}

theorem Free.append {eps eps' : List Episode} :
    Free env v (eps ++ eps') ↔ Free env v eps ∧ Free env v eps' := by
  constructor
  · intro h
    constructor
    · intro e he
      exact h e (List.mem_append_left _ he)
    · intro e he
      exact h e (List.mem_append_right _ he)
  · rintro ⟨h, h'⟩ e he
    rcases List.mem_append.mp he with he | he
    · exact h e he
    · exact h' e he

theorem Gone.candidates {st : Store} (h : Gone disk env v st) :
    ∀ e ∈ st.candidates env, e.text ≠ v := by
  intro e he htext
  simp only [Store.candidates] at he
  split at he
  · simp at he
  · obtain ⟨hmem, hactive⟩ := List.mem_filter.mp he
    have hfree : Free env v st.pool := Free.append.mpr ⟨h.registry, h.nightshift⟩
    rw [hfree e hmem htext] at hactive
    cases hactive

/-- Marking an episode as superseded does not bring it back. -/
theorem Env.active_mark {e : Episode} (h : env.active e = false) :
    env.active { e with lifecycle := 1 } = false := by
  simp only [Env.active, Bool.or_eq_false_iff] at h ⊢
  exact ⟨rfl, h.2⟩

/-! ### Removal -/

section Removal

variable {victims : List Text}

theorem Free.retireEpisodes {eps : List Episode} (h : Free env v eps) (life : Bool) :
    Free env v (retireEpisodes victims life eps) := by
  intro e he htext
  cases life with
  | true =>
      simp only [Memory.retireEpisodes, if_true, List.mem_map] at he
      obtain ⟨e', he', rfl⟩ := he
      split at htext
      case isTrue hvictim =>
        rw [if_pos hvictim]
        exact Env.active_mark (h e' he' htext)
      case isFalse hvictim =>
        rw [if_neg hvictim]
        exact h e' he' htext
  | false =>
      simp only [Memory.retireEpisodes, Bool.false_eq_true, if_false, List.mem_filter] at he
      exact h e he.1 htext

theorem retireEpisodes_free (hv : v ∈ victims) (hlife : env.lifecycle = true → env.audit = false)
    (eps : List Episode) : Free env v (retireEpisodes victims env.lifecycle eps) := by
  intro e he htext
  cases hl : env.lifecycle with
  | true =>
      simp only [Memory.retireEpisodes, hl, if_true, List.mem_map] at he
      obtain ⟨e', _, rfl⟩ := he
      split at htext
      case isTrue hvictim =>
        rw [if_pos hvictim]
        simp [Env.active, hlife hl]
      case isFalse hvictim =>
        exact absurd (by simpa [htext] using hv) hvictim
  | false =>
      simp only [Memory.retireEpisodes, hl, Bool.false_eq_true, if_false, List.mem_filter] at he
      obtain ⟨_, hkept⟩ := he
      simp [htext, hv] at hkept

theorem mem_loadRegistry {lines : List Line} {e : Episode} :
    e ∈ loadRegistry disk lines ↔
      ∃ r e', some r ∈ lines ∧ loadRow disk r = some e' ∧ backfill disk e' = e := by
  simp only [loadRegistry, List.mem_map, List.mem_filterMap]
  constructor
  · rintro ⟨e', ⟨l, hl, hrow⟩, rfl⟩
    obtain ⟨r, rfl, hr⟩ := Option.bind_eq_some_iff.mp hrow
    exact ⟨r, e', hl, hr, rfl⟩
  · rintro ⟨r, e', hr, hrow, rfl⟩
    exact ⟨e', ⟨some r, hr, hrow⟩, rfl⟩

/-- A row that is marked stands for the marked episode. -/
theorem loadRow_mark (r : Row) :
    loadRow disk { r with lifecycle := some 1 } =
      (loadRow disk r).map fun e => { e with lifecycle := 1 } := by
  simp only [loadRow]
  split <;> rfl

theorem backfill_mark (e : Episode) :
    backfill disk { e with lifecycle := 1 } = { backfill disk e with lifecycle := 1 } := by
  simp only [backfill]
  split <;> rfl

/-- Marking one text after another marks the rows with any of them. -/
theorem foldl_markSuperseded (lines : List Line) :
    victims.foldl (fun lines victim => markSuperseded victim 1 lines) lines =
      lines.map fun l => l.map fun r =>
        if r.text.any victims.contains then { r with lifecycle := some 1 } else r := by
  induction victims generalizing lines with
  | nil =>
      have hnone : ∀ r : Row, r.text.any ([] : List Text).contains = false := by
        intro r
        cases r.text with
        | none => rfl
        | some text => rfl
      simp [hnone]
  | cons t ts ih =>
      rw [List.foldl_cons, ih, markSuperseded, List.map_map]
      apply List.map_congr_left
      intro l _
      cases l with
      | none => rfl
      | some r =>
          simp only [Function.comp_apply, Option.map_some, Option.some.injEq]
          cases ht : r.text with
          | none => simp [ht]
          | some text =>
              by_cases h : text = t
              · simp [h]
              · simp [ht, h]

/-- After the removal a row is one of the earlier rows, marked when it has a victim's text. -/
theorem mem_retireLines {life : Bool} {lines : List Line} {r : Row}
    (h : some r ∈ retireLines victims life lines) :
    ∃ r', some r' ∈ lines ∧
      ((r = r' ∧ r'.text.any victims.contains = false) ∨
        (life = true ∧ r = { r' with lifecycle := some 1 })) := by
  cases life with
  | true =>
      simp only [retireLines, if_true, foldl_markSuperseded, List.mem_map,
        Option.map_eq_some_iff] at h
      obtain ⟨l, hl, r', rfl, rfl⟩ := h
      refine ⟨r', hl, ?_⟩
      cases hvictim : r'.text.any victims.contains with
      | true =>
          right
          exact ⟨rfl, if_pos rfl⟩
      | false =>
          left
          exact ⟨if_neg Bool.false_ne_true, rfl⟩
  | false =>
      simp only [retireLines, Bool.false_eq_true, if_false, List.mem_filter, Option.any_some,
        Bool.not_eq_true'] at h
      exact ⟨r, h.1, Or.inl ⟨rfl, h.2⟩⟩

theorem Free.retireLines {lines : List Line} (h : Free env v (loadRegistry disk lines))
    (life : Bool) : Free env v (loadRegistry disk (retireLines victims life lines)) := by
  intro e he htext
  obtain ⟨r, e', hr, hrow, rfl⟩ := mem_loadRegistry.mp he
  obtain ⟨r', hr', ⟨rfl, _⟩ | ⟨_, rfl⟩⟩ := mem_retireLines hr
  · exact h _ (mem_loadRegistry.mpr ⟨r, e', hr', hrow, rfl⟩) htext
  · rw [loadRow_mark, Option.map_eq_some_iff] at hrow
    obtain ⟨e'', hrow, rfl⟩ := hrow
    rw [backfill_mark] at htext ⊢
    exact Env.active_mark (h _ (mem_loadRegistry.mpr ⟨r', e'', hr', hrow, rfl⟩) htext)

theorem retireLines_free (hlife : env.lifecycle = true → env.audit = false) {lines : List Line}
    (hunnamed : ∀ r, some r ∈ lines → r.text.any victims.contains = false →
      ∀ e, loadRow disk r = some e → (backfill disk e).text = v →
        env.active (backfill disk e) = false) :
    Free env v (loadRegistry disk (Memory.retireLines victims env.lifecycle lines)) := by
  intro e he htext
  obtain ⟨r, e', hr, hrow, rfl⟩ := mem_loadRegistry.mp he
  obtain ⟨r', hr', ⟨rfl, hother⟩ | ⟨hl, rfl⟩⟩ := mem_retireLines hr
  · exact hunnamed r hr' hother e' hrow htext
  · rw [loadRow_mark, Option.map_eq_some_iff] at hrow
    obtain ⟨e'', hrow, rfl⟩ := hrow
    rw [backfill_mark]
    simp [Env.active, hlife hl]

variable (disk) (victims)

/-- Removing the victims reaches every place a text is recalled from: it is not scanned in the
registry in memory, no row of the file has it without having a victim's, as from the manifest,
and what is marked is not scanned. -/
structure Store.Erasable (env : Env) (st : Store) (v : Text) : Prop where
  marked : env.lifecycle = true → env.audit = false
  registry : Free env v (st.registry.getD [])
  file : env.registryPath = true → ∀ lines ∈ st.file, ∀ r, some r ∈ lines →
    r.text.any victims.contains = false → ∀ e, loadRow disk r = some e →
      (backfill disk e).text = v → env.active (backfill disk e) = false

variable {disk} {victims}

theorem Gone.retire {st : Store} (h : Gone disk env v st) :
    Gone disk env v (st.retire victims env) where
  registry := h.registry
  nightshift := h.nightshift.retireEpisodes env.lifecycle
  file hpath lines hlines := by
    simp only [Store.retire, hpath, if_true, Option.mem_def, Option.map_eq_some_iff] at hlines
    obtain ⟨lines, hold, rfl⟩ := hlines
    exact (h.file hpath lines hold).retireLines env.lifecycle

theorem Store.Erasable.gone {st : Store} (h : st.Erasable disk victims env v) (hv : v ∈ victims) :
    Gone disk env v (st.retire victims env) where
  registry := h.registry
  nightshift := retireEpisodes_free hv h.marked st.nightshift
  file hpath lines hlines := by
    simp only [Store.retire, hpath, if_true, Option.mem_def, Option.map_eq_some_iff] at hlines
    obtain ⟨lines, hold, rfl⟩ := hlines
    exact retireLines_free h.marked (h.file hpath lines hold)

end Removal

/-! ### The other writers -/

theorem Gone.capture {st : Store} (h : Gone disk env v st) (c : Captured) {text : Text}
    (hne : text ≠ []) (hother : text ≠ v) : Gone disk env v (st.capture env c text) where
  registry := h.registry
  nightshift := by
    apply Free.append.mpr
    refine ⟨h.nightshift, ?_⟩
    intro e he htext
    obtain rfl := List.mem_singleton.mp he
    exact absurd htext hother
  file hpath lines hlines := by
    simp only [Store.capture] at hlines
    split at hlines
    · simp only [Option.mem_def, Option.some.injEq] at hlines
      subst hlines
      intro e he htext
      obtain ⟨r, e', hr, hrow, rfl⟩ := mem_loadRegistry.mp he
      rcases List.mem_append.mp hr with hold | hnew
      · cases hfile : st.file with
        | none => simp [hfile] at hold
        | some lines =>
            rw [hfile, Option.getD_some] at hold
            exact h.file hpath lines hfile _ (mem_loadRegistry.mpr ⟨r, e', hold, hrow, rfl⟩) htext
      · rw [List.mem_singleton, Option.some.injEq] at hnew
        subst hnew
        simp only [Captured.row, loadRow, Option.getD_some, Option.some.injEq] at hrow
        subst hrow
        simp only [backfill, hne, if_false] at htext
        exact absurd htext hother
    · exact h.file hpath lines hlines

theorem mem_updateFirst {p : Episode → Bool} {f : Episode → Episode} {eps : List Episode}
    {e : Episode} (h : e ∈ updateFirst p f eps) : e ∈ eps ∨ ∃ e' ∈ eps, e = f e' := by
  induction eps with
  | nil => simp [updateFirst] at h
  | cons e' eps ih =>
      simp only [updateFirst] at h
      split at h
      · rcases List.mem_cons.mp h with rfl | hrest
        · right
          exact ⟨e', List.mem_cons_self, rfl⟩
        · left
          exact List.mem_cons_of_mem _ hrest
      · rcases List.mem_cons.mp h with rfl | hrest
        · left
          exact List.mem_cons_self
        · rcases ih hrest with hold | ⟨e'', he'', heq⟩
          · left
            exact List.mem_cons_of_mem _ hold
          · right
            exact ⟨e'', List.mem_cons_of_mem _ he'', heq⟩

/-- An edit that leaves text and lifecycle alone brings nothing back. -/
theorem Free.updateFirst {eps : List Episode} (h : Free env v eps) (p : Episode → Bool)
    {f : Episode → Episode} (hf : ∀ e, (f e).text = e.text ∧ (f e).lifecycle = e.lifecycle) :
    Free env v (updateFirst p f eps) := by
  intro e he htext
  rcases mem_updateFirst he with hold | ⟨e', he', rfl⟩
  · exact h e hold htext
  · have hquiet := h e' he' ((hf e').1.symm.trans htext)
    simpa only [Env.active, (hf e').2] using hquiet

/-- The concepts that a pass adds beside the episodes it has. -/
def Store.unmerged (st : Store) (already : List Text) : List Concept :=
  st.concepts.filter fun c => !already.contains c.addr && !c.body.isEmpty && c.keyed

theorem Gone.reconcile {st : Store} (h : Gone disk env v st)
    (hnew : ∀ c ∈ st.unmerged (st.nightshift.map (·.name)), c.body ≠ v) :
    Gone disk env v st.reconcile where
  registry := h.registry
  nightshift := by
    have hpass : ∀ (cs : List Concept) (acc : List Episode × List Episode),
        (∀ c ∈ cs, (!(st.nightshift.map (·.name)).contains c.addr && !c.body.isEmpty && c.keyed)
          = true → c.body ≠ v) → Free env v acc.1 → Free env v acc.2 →
        Free env v (cs.foldl (reconcileConcept (st.nightshift.map (·.name))) acc).1 ∧
          Free env v (cs.foldl (reconcileConcept (st.nightshift.map (·.name))) acc).2 := by
      intro cs
      induction cs with
      | nil => exact fun acc _ h1 h2 => ⟨h1, h2⟩
      | cons c cs ih =>
          intro acc hcs h1 h2
          apply ih _ fun c hc => hcs c (List.mem_cons_of_mem _ hc)
          · simp only [reconcileConcept]
            split
            · apply h1.updateFirst
              intro e
              split
              · exact ⟨rfl, rfl⟩
              · exact ⟨rfl, rfl⟩
            · split
              · exact h1
              · exact h1
          · simp only [reconcileConcept]
            split
            · exact h2
            · split
              · exact h2
              case isFalse hknown hskip =>
                apply Free.append.mpr
                refine ⟨h2, ?_⟩
                intro e he htext
                obtain rfl := List.mem_singleton.mp he
                apply absurd htext
                apply hcs c List.mem_cons_self
                simp only [Bool.not_eq_true] at hknown hskip
                simp only [hknown, Bool.or_eq_false_iff, Bool.not_eq_false'] at hskip ⊢
                simp [hskip]
    obtain ⟨hns, heps⟩ := hpass st.concepts (st.nightshift, [])
      (fun c hc hadd => hnew c (List.mem_filter.mpr ⟨hc, hadd⟩)) h.nightshift (by simp [Free])
    exact Free.append.mpr ⟨hns, heps⟩
  file := h.file

theorem Gone.refine {st : Store} (h : Gone disk env v st) (classify : Text → Option Text) :
    Gone disk env v (st.refine classify) where
  registry := h.registry
  nightshift := by
    simp only [Store.refine]
    induction st.concepts using List.reverseRecOn with
    | nil => exact h.nightshift
    | append_singleton cs c ih =>
        rw [List.foldl_append, List.foldl_cons, List.foldl_nil]
        split
        · exact ih.updateFirst _ fun e => ⟨rfl, rfl⟩
        · exact ih
  file := h.file

theorem Gone.restart {st : Store} (h : Gone disk env v st)
    (hnew : env.okfStore = true → ∀ c ∈ st.unmerged [], c.body ≠ v) :
    Gone disk env v (st.restart disk env) := by
  have hfresh : Gone disk env v
      { st with
        registry := if env.registryPath then st.file.map (loadRegistry disk) else none
        nightshift := [] } := by
    refine ⟨?_, by simp [Free], h.file⟩
    split
    case isTrue hpath =>
      cases hfile : st.file with
      | none => simp [Free]
      | some lines => exact h.file hpath lines hfile
    case isFalse => simp [Free]
  simp only [Store.restart]
  split
  case isTrue hstore => exact hfresh.reconcile (hnew hstore)
  case isFalse => exact hfresh

/-! ### Runs -/

section Runs

variable {F : Type} [LinearOrder F] (A : Arith F) (u : Unicode)

/-- The fact that a decide pass captures. -/
def Store.combined (env : Env) (st : Store) (newName newText changed merging : Text)
    (capture : Option Captured) : Option Text :=
  match st.related A newName newText with
  | [] => none
  | cand :: cands =>
      if (st.supersede env (cand :: cands) changed).2 = none ∧ capture.isSome then
        parseMerge u merging
      else none

/-- The text is taught again: by the user, by a merge, or by the shared store. -/
def Store.Readmits (env : Env) (v : Text) (st : Store) : Action → Prop
  | .remember _ text => userSaid text = v
  | .decide newName newText changed merging capture =>
      st.combined A u env newName newText changed merging capture = some v
  | .reconcile =>
      env.okfStore = true ∧ ∃ c ∈ st.unmerged (st.nightshift.map (·.name)), c.body = v
  | .restart => env.okfStore = true ∧ ∃ c ∈ st.unmerged [], c.body = v
  | _ => False

variable {u} in
theorem parseMerge_ne_nil {reply combined : Text} (h : parseMerge u reply = some combined) :
    combined ≠ [] := by
  rintro rfl
  simp only [parseMerge] at h
  split at h
  · cases h
  · split at h
    · cases h
    · split at h
      case isTrue hlen =>
        rw [Option.some.injEq] at h
        rw [h] at hlen
        exact absurd hlen (by decide)
      case isFalse => cases h

/-- A forget turn removes one text or nothing. -/
theorem Store.forget_cases (env : Env) (st : Store) (rawUser : Option Text) :
    st.forget A u env rawUser = (st, none) ∨
      ∃ text, st.forget A u env rawUser = (st.retire [text] env, some text) := by
  simp only [Store.forget]
  split
  · split
    case h_1 score text _ => exact Or.inr ⟨text, rfl⟩
    case h_2 => exact Or.inl rfl
  · exact Or.inl rfl

theorem Store.supersede_cases (env : Env) (st : Store) (cands : List Text) (reply : Text) :
    st.supersede env cands reply = (st, none) ∨
      ∃ victim, st.supersede env cands reply = (st.retire [victim] env, some victim) := by
  simp only [Store.supersede]
  split
  · split
    case h_1 victim _ => exact Or.inr ⟨victim, rfl⟩
    case h_2 => exact Or.inl rfl
  · exact Or.inl rfl

/-- A decide pass does nothing, removes one text, or merges the new fact with another. -/
theorem Store.decide_cases (env : Env) (st : Store) (newName newText changed merging : Text)
    (capture : Option Captured) :
    st.decide A u env newName newText changed merging capture = (st, none) ∨
      (∃ victim, st.decide A u env newName newText changed merging capture =
        (st.retire [victim] env, some victim)) ∨
      ∃ cand combined, combined ≠ [] ∧
        st.decide A u env newName newText changed merging capture =
          (st.merge env newText cand combined capture, none) ∧
        st.combined A u env newName newText changed merging capture =
          if capture.isSome then some combined else none := by
  simp only [Store.decide, Store.combined]
  cases st.related A newName newText with
  | nil => exact Or.inl rfl
  | cons cand cands =>
      rcases st.supersede_cases env (cand :: cands) changed with hkeep | ⟨victim, hsuper⟩
      · simp only [hkeep, true_and]
        cases hmerge : parseMerge u merging with
        | none => exact Or.inl rfl
        | some combined =>
            exact Or.inr (Or.inr ⟨cand, combined, parseMerge_ne_nil hmerge, rfl, rfl⟩)
      · simp only [hsuper]
        exact Or.inr (Or.inl ⟨victim, rfl⟩)

theorem Gone.merge {st : Store} (h : Gone disk env v st) {newText cand combined : Text}
    (hne : combined ≠ []) {capture : Option Captured}
    (hother : (if capture.isSome then some combined else none) ≠ some v) :
    Gone disk env v (st.merge env newText cand combined capture) := by
  cases capture with
  | none => exact h.retire
  | some c => exact h.retire.capture c hne fun heq => hother (congrArg some heq)

/-- A text that is gone stays so until it is taught again. -/
theorem Gone.step {st : Store} (h : Gone disk env v st) {a : Action}
    (hquiet : ¬st.Readmits A u env v a) : Gone disk env v (st.step disk A u env a) := by
  cases a with
  | forget rawUser =>
      simp only [Store.step]
      rcases st.forget_cases A u env rawUser with hsame | ⟨text, hforget⟩
      · rw [hsame]
        exact h
      · rw [hforget]
        exact h.retire
  | remember c text => exact h.capture c (List.append_ne_nil_of_left_ne_nil (by decide) text) hquiet
  | decide newName newText changed merging capture =>
      simp only [Store.step]
      rcases st.decide_cases A u env newName newText changed merging capture with
        hsame | ⟨victim, hsuper⟩ | ⟨cand, combined, hne, hmerge, hcombined⟩
      · rw [hsame]
        exact h
      · rw [hsuper]
        exact h.retire
      · rw [hmerge]
        apply h.merge hne
        rw [← hcombined]
        exact hquiet
  | reconcile =>
      simp only [Store.step]
      split
      case isTrue hstore =>
        apply h.reconcile
        intro c hc hbody
        exact hquiet ⟨hstore, c, hc, hbody⟩
      case isFalse => exact h
  | refine classify => exact h.refine classify
  | author concepts => exact ⟨h.registry, h.nightshift, h.file⟩
  | restart =>
      apply h.restart
      intro hstore c hc hbody
      exact hquiet ⟨hstore, c, hc, hbody⟩

/-- What an action forgets is gone, when the removal reaches it. -/
theorem Store.Erasable.step {st : Store} (h : st.Erasable disk [v] env v) {a : Action}
    (hv : st.victim A u env a = some v) : Gone disk env v (st.step disk A u env a) := by
  cases a with
  | forget rawUser =>
      simp only [Store.victim] at hv
      simp only [Store.step]
      rcases st.forget_cases A u env rawUser with hsame | ⟨text, hforget⟩
      · rw [hsame] at hv
        cases hv
      · rw [hforget] at hv ⊢
        cases hv
        exact h.gone (List.mem_singleton.mpr rfl)
  | decide newName newText changed merging capture =>
      simp only [Store.victim] at hv
      simp only [Store.step]
      rcases st.decide_cases A u env newName newText changed merging capture with
        hsame | ⟨victim, hsuper⟩ | ⟨cand, combined, _, hmerge, _⟩
      · rw [hsame] at hv
        cases hv
      · rw [hsuper] at hv ⊢
        cases hv
        exact h.gone (List.mem_singleton.mpr rfl)
      · rw [hmerge] at hv
        cases hv
  | _ => cases hv

/-- After a turn has forgotten a text, or superseded it, no episode with the text is recalled
again, in this process or after a restart, until the text is taught again: provided that the
removal reaches the text. -/
theorem forgotten_never_recalled {st : Store} {a : Action} {later : List Action}
    (hv : st.victim A u env a = some v) (herase : st.Erasable disk [v] env v)
    (hquiet : Runs.Each (Store.step disk A u env) (fun st a => ¬st.Readmits A u env v a)
      (st.step disk A u env a) later) :
    Runs.Always (Store.step disk A u env) (fun st => ∀ e ∈ st.candidates env, e.text ≠ v)
      (st.step disk A u env a) later := by
  have hgone : Runs.Always (Store.step disk A u env) (Gone disk env v)
      (st.step disk A u env a) later :=
    hquiet.always (herase.step A u hv) fun st a h hq => h.step A u hq
  intro before hbefore
  exact (hgone before hbefore).candidates

end Runs

section Color

/-- A daemon with a registry file, and no files beside it. -/
def plainEnv : Env := ⟨true, false, true, false, false⟩

def plainDisk : Disk := ⟨fun _ => none, fun _ => none⟩

def blue : Text := "The user said: my favorite color is blue".toList

/-- A fact from the registry of the last start, and one of this process. -/
def curated : Store :=
  ⟨some [⟨"ep_0".toList, blue, 1, none, 0⟩], [],
    some [some ⟨some "ep_0".toList, some "d".toList, some blue, some 1, none, none, none, none, none⟩],
    []⟩

def learned : Store :=
  Store.capture plainEnv ⟨some [], [], some [], []⟩ ⟨"ep_1".toList, "d".toList, 2, none⟩ blue

def forgetColor : Action := .forget (some "Forget my favorite color.".toList)

/-- The fact of this process is forgotten, and a restart does not bring it back. -/
theorem learned_never_recalled :
    Runs.Always (Store.step plainDisk thousandths asciiText plainEnv)
      (fun st => ∀ e ∈ st.candidates plainEnv, e.text ≠ blue)
      (learned.step plainDisk thousandths asciiText plainEnv forgetColor) [.restart] := by
  apply forgotten_never_recalled thousandths asciiText (a := forgetColor)
  · decide
  · refine ⟨by decide, by simp [Free, learned, Store.capture], ?_⟩
    intro _ lines hlines r hr hother
    simp only [learned, Store.capture, plainEnv, Bool.and_self, if_true, Option.getD_some,
      List.nil_append, Option.mem_def, Option.some.injEq] at hlines
    subst hlines
    rw [List.mem_singleton, Option.some.injEq] at hr
    subst hr
    exact absurd hother (by decide)
  · intro before e hbefore
    obtain ⟨rfl, rfl⟩ : before = [] ∧ e = .restart := by
      have hlen := hbefore.length_le
      have hnil : before = [] := by
        apply List.eq_nil_of_length_eq_zero
        simpa using hlen
      subst hnil
      simpa using hbefore
    rintro ⟨hstore, _⟩
    exact absurd hstore (by decide)

/-- The registry in memory keeps the fact: the very next turn can recall it. -/
theorem curated_still_recalled :
    curated.victim thousandths asciiText plainEnv forgetColor = some blue ∧
      ((curated.step plainDisk thousandths asciiText plainEnv forgetColor).candidates
        plainEnv).map (·.text) = [blue] := by
  decide

end Color

end ShannonPrime.Memory
