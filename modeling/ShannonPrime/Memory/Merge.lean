import ShannonPrime.Memory.Forget

/-!
When a merge is atomic. The new fact is looked for under the user's own words, while it is
stored as what the user said; and both facts are dropped before the capture that may fail.
-/

namespace ShannonPrime.Memory

open Recall

variable (disk : Disk) (env : Env)

/-- Every episode and every row without a victim's text is as before. -/
structure Spares (victims : List Text) (st st' : Store) : Prop where
  nightshift : ∀ e, ¬victims.contains e.text → (e ∈ st'.nightshift ↔ e ∈ st.nightshift)
  file : ∀ r : Row, ¬r.text.any victims.contains →
    (some r ∈ st'.file.getD [] ↔ some r ∈ st.file.getD [])

/-- Both facts are retired everywhere and the combined one is added to what is left. -/
def Merged (newText cand combined : Text) (c : Captured) (st st' : Store) : Prop :=
  ∃ kept : Store, st' = kept.capture env c combined ∧ Gone disk env (userSaid newText) kept ∧
    Gone disk env cand kept ∧ Spares [newText, userSaid newText, cand] st kept

/-- A merge happened entirely, or its capture failed and nothing happened. -/
def Atomic (newText cand combined : Text) (st : Store) (capture : Option Captured) : Prop :=
  let st' := st.merge env newText cand combined capture
  match capture with
  | some c => Merged disk env newText cand combined c st st'
  | none => st' = st

/-- Neither the nightshift list nor the file has a victim, unless it is marked already. -/
structure Store.Untouched (victims : List Text) (st : Store) : Prop where
  nightshift : ∀ e ∈ st.nightshift, victims.contains e.text →
    env.lifecycle = true ∧ e.lifecycle = 1
  file : env.registryPath = true → ∀ lines ∈ st.file, ∀ r : Row, some r ∈ lines →
    r.text.any victims.contains → env.lifecycle = true ∧ r.lifecycle = some 1

variable {disk} {env}

theorem userSaid_ne (text : Text) : userSaid text ≠ text := by
  intro h
  exact absurd (List.append_left_eq_self.mp h) (by decide)

/-! ### The removal -/

section Retire

variable {victims : List Text} {st : Store}

theorem map_eq_self {α : Type} {f : α → α} {l : List α} : l.map f = l ↔ ∀ a ∈ l, f a = a := by
  conv_lhs => rhs; rw [← List.map_id l]
  exact List.map_inj_left

theorem retireEpisodes_eq_self {life : Bool} {eps : List Episode} :
    retireEpisodes victims life eps = eps ↔
      ∀ e ∈ eps, victims.contains e.text → life = true ∧ e.lifecycle = 1 := by
  cases life with
  | true =>
      simp only [retireEpisodes, if_true, true_and, map_eq_self]
      apply forall₂_congr
      intro e _
      constructor
      · intro h hvictim
        rw [if_pos hvictim] at h
        exact congrArg Episode.lifecycle h.symm
      · intro h
        split
        case isTrue hvictim => rw [← h hvictim]
        case isFalse => rfl
  | false =>
      simp only [retireEpisodes, Bool.false_eq_true, if_false, List.filter_eq_self, false_and,
        Bool.not_eq_true', imp_false, Bool.not_eq_true]

theorem retireLines_eq_self {life : Bool} {lines : List Line} :
    retireLines victims life lines = lines ↔
      ∀ r : Row, some r ∈ lines → r.text.any victims.contains →
        life = true ∧ r.lifecycle = some 1 := by
  cases life with
  | true =>
      simp only [retireLines, if_true, true_and, foldl_markSuperseded, map_eq_self]
      constructor
      · intro h r hr hvictim
        have hsame := h _ hr
        rw [Option.map_some, if_pos hvictim, Option.some.injEq] at hsame
        exact congrArg Row.lifecycle hsame.symm
      · intro h l hl
        cases l with
        | none => rfl
        | some r =>
            rw [Option.map_some, Option.some.injEq]
            split
            case isTrue hvictim =>
              rw [← h r hl hvictim]
            case isFalse => rfl
  | false =>
      simp only [retireLines, Bool.false_eq_true, if_false, List.filter_eq_self, false_and,
        Bool.not_eq_true', imp_false, Bool.not_eq_true]
      constructor
      · intro h r hr
        exact h _ hr
      · intro h l hl
        cases l with
        | none => rfl
        | some r => exact h r hl

theorem retire_eq_self : st.retire victims env = st ↔ st.Untouched env victims := by
  constructor
  · intro h
    constructor
    · apply retireEpisodes_eq_self.mp
      exact congrArg Store.nightshift h
    · intro hpath lines hlines
      apply retireLines_eq_self.mp
      have hfile := congrArg Store.file h
      simp only [Store.retire, hpath, if_true, Option.mem_def.mp hlines, Option.map_some,
        Option.some.injEq] at hfile
      exact hfile
  · rintro ⟨hns, hfile⟩
    have hkept : (if env.registryPath then st.file.map (retireLines victims env.lifecycle)
        else st.file) = st.file := by
      split
      case isTrue hpath =>
        cases hlines : st.file with
        | none => rfl
        | some lines =>
            rw [Option.map_some, retireLines_eq_self.mpr (hfile hpath lines hlines)]
      case isFalse => rfl
    simp only [Store.retire, retireEpisodes_eq_self.mpr hns, hkept]

theorem mem_retireEpisodes (life : Bool) {eps : List Episode} {e : Episode}
    (hother : e.text ∉ victims) : e ∈ retireEpisodes victims life eps ↔ e ∈ eps := by
  cases life with
  | true =>
      simp only [retireEpisodes, if_true, List.mem_map, List.contains_iff_mem]
      constructor
      · rintro ⟨e', he', rfl⟩
        split at hother
        case isTrue hvictim => exact absurd hvictim hother
        case isFalse hvictim =>
          rw [if_neg hvictim]
          exact he'
      · intro he
        exact ⟨e, he, if_neg hother⟩
  | false => simp [retireEpisodes, hother]

theorem mem_retireLines_other {life : Bool} {lines : List Line} {r : Row}
    (hother : r.text.any victims.contains = false) :
    some r ∈ retireLines victims life lines ↔ some r ∈ lines := by
  cases life with
  | true =>
      simp only [retireLines, if_true, foldl_markSuperseded, List.mem_map]
      constructor
      · rintro ⟨l, hl, heq⟩
        obtain ⟨r', rfl, hr'⟩ := Option.map_eq_some_iff.mp heq
        split at hr'
        case isTrue hvictim =>
          subst hr'
          rw [hvictim] at hother
          cases hother
        case isFalse =>
          subst hr'
          exact hl
      · intro hr
        refine ⟨some r, hr, ?_⟩
        rw [Option.map_some, hother, if_neg Bool.false_ne_true]
  | false => simp [retireLines, hother]

/-- The removal leaves the other facts alone. -/
theorem retire_spares {victims' : List Text} (h : victims ⊆ victims') :
    Spares victims' st (st.retire victims env) := by
  constructor
  · intro e hother
    apply mem_retireEpisodes
    rw [List.contains_iff_mem] at hother
    exact fun hmem => hother (h hmem)
  · intro r hother
    have hother : r.text.any victims.contains = false := by
      cases htext : r.text with
      | none => rfl
      | some text =>
          simp only [htext, Option.any_some, List.contains_iff_mem] at hother
          simp only [Option.any_some, List.contains_eq_mem, decide_eq_false_iff_not]
          exact fun hmem => hother (h hmem)
    simp only [Store.retire]
    split
    · cases st.file with
      | none => rfl
      | some lines => exact mem_retireLines_other hother
    · rfl

end Retire

/-! ### When a merge is atomic -/

/-- The store that a capture was made in, up to a file that was not there. -/
theorem capture_inj (kept kept' : Store) {c : Captured} {text : Text}
    (h : kept.capture env c text = kept'.capture env c text) :
    kept.registry = kept'.registry ∧ kept.nightshift = kept'.nightshift ∧
      kept.file.getD [] = kept'.file.getD [] := by
  simp only [Store.capture, Store.mk.injEq, List.append_cancel_right_eq] at h
  obtain ⟨hreg, hns, hfile, -⟩ := h
  refine ⟨hreg, hns, ?_⟩
  split at hfile
  · simpa using hfile
  · rw [hfile]

/-- A merge whose capture goes through is complete exactly when the other fact is a second
copy of the new one, as it is stored, and removing that text reaches it everywhere. -/
theorem merged_iff {st : Store} {newText cand combined : Text} {c : Captured}
    (hnew : ∃ e ∈ st.nightshift, e.text = userSaid newText ∧ e.lifecycle = 0) :
    Merged disk env newText cand combined c st (st.merge env newText cand combined (some c)) ↔
      cand = userSaid newText ∧ st.Erasable disk [newText, cand] env cand := by
  constructor
  · rintro ⟨kept, hkept, hgone, hgone', -⟩
    obtain ⟨hreg, hns, hfile⟩ := capture_inj (st.retire [newText, cand] env) kept hkept
    obtain ⟨e, he, htext, hlife⟩ := hnew
    have hsame : cand = userSaid newText := by
      by_contra hne
      have hother : e.text ∉ [newText, cand] := by
        rw [htext]
        simp [userSaid_ne, Ne.symm hne]
      have hmem := (mem_retireEpisodes env.lifecycle hother).mpr he
      have hquiet := hgone.nightshift e (hns ▸ hmem) htext
      simp [Env.active, hlife] at hquiet
    refine ⟨hsame, ?_, ?_, ?_⟩
    · intro hl
      have hvictim : [newText, cand].contains e.text = true := by
        rw [htext, hsame]
        simp
      have hmem : { e with lifecycle := 1 } ∈ (st.retire [newText, cand] env).nightshift := by
        simp only [Store.retire, retireEpisodes, hl, if_true, List.mem_map]
        exact ⟨e, he, if_pos hvictim⟩
      rw [hns] at hmem
      have hquiet := hgone.nightshift { e with lifecycle := 1 } hmem htext
      simpa [Env.active] using hquiet
    · intro e' he' htext'
      exact hgone'.registry e' (hreg ▸ he') htext'
    · intro hpath lines hlines r hr hother e' hrow htext'
      have hmem : some r ∈ kept.file.getD [] := by
        rw [← hfile]
        simp only [Store.retire, hpath, if_true, Option.mem_def.mp hlines, Option.map_some,
          Option.getD_some]
        exact (mem_retireLines_other hother).mpr hr
      cases hkeptFile : kept.file with
      | none => simp [hkeptFile] at hmem
      | some lines' =>
          rw [hkeptFile, Option.getD_some] at hmem
          exact hgone'.file hpath lines' hkeptFile _
            (mem_loadRegistry.mpr ⟨r, e', hmem, hrow, rfl⟩) htext'
  · rintro ⟨hsame, herase⟩
    have hgone : Gone disk env cand (st.retire [newText, cand] env) := herase.gone (by simp)
    refine ⟨st.retire [newText, cand] env, rfl, hsame ▸ hgone, hgone, retire_spares ?_⟩
    simp

/-- A merge of a fact that has just been captured is atomic when its capture goes through
exactly if the other fact is a second copy that the removal reaches, and when it fails exactly
if there was nothing to remove. -/
theorem merge_atomic_iff (disk : Disk) (env : Env) {st : Store} {newText : Text}
    (hnew : ∃ e ∈ st.nightshift, e.text = userSaid newText ∧ e.lifecycle = 0)
    (cand combined : Text) (capture : Option Captured) :
    Atomic disk env newText cand combined st capture ↔
      match capture with
      | some _ => cand = userSaid newText ∧ st.Erasable disk [newText, cand] env cand
      | none => st.Untouched env [newText, cand] := by
  cases capture with
  | some c => exact merged_iff hnew
  | none => exact retire_eq_self

section Dog

def spaniel : Text := "my dog is a spaniel".toList

def rex : Text := "The user said: my dog is called Rex".toList

/-- The user said it twice, and the second copy has just been captured. -/
def repeated : Store :=
  Store.capture plainEnv
    (Store.capture plainEnv ⟨some [], [], some [], []⟩ ⟨"ep_1".toList, "d".toList, 1, none⟩
      (userSaid spaniel))
    ⟨"ep_2".toList, "d".toList, 2, none⟩ (userSaid spaniel)

/-- The two copies are merged into one fact. -/
theorem repeated_merge_atomic :
    Atomic plainDisk plainEnv spaniel (userSaid spaniel) "the dog is a spaniel".toList repeated
      (some ⟨"ep_3".toList, "d".toList, 3, none⟩) := by
  have hnew : ∃ e ∈ repeated.nightshift, e.text = userSaid spaniel ∧ e.lifecycle = 0 :=
    ⟨_, List.mem_of_mem_head? rfl, rfl, rfl⟩
  apply (merge_atomic_iff plainDisk plainEnv hnew _ _ _).mpr
  refine ⟨rfl, by decide, by simp [Free, repeated, Store.capture], ?_⟩
  intro _ lines hlines r hr hother
  have hcopies : ∀ l ∈ repeated.file.getD [],
      (l.any fun r => r.text.any [spaniel, userSaid spaniel].contains) = true := by
    decide
  have hcopy := hcopies (some r) (by rw [Option.mem_def.mp hlines]; exact hr)
  rw [Option.any_some, hother] at hcopy
  cases hcopy

/-- A fact of an earlier turn, and the one that has just been captured. -/
def dogs : Store :=
  Store.capture plainEnv
    (Store.capture plainEnv ⟨some [], [], some [], []⟩ ⟨"ep_1".toList, "d".toList, 1, none⟩ rex)
    ⟨"ep_2".toList, "d".toList, 2, none⟩ (userSaid spaniel)

def dogsDecided (capture : Option Captured) : Store :=
  (dogs.decide thousandths asciiText plainEnv "ep_2".toList spaniel "CHANGED=NONE".toList
    "MERGE:: my dog Rex is a spaniel".toList capture).1

/-- When the capture goes through, the new fact is still there beside the combined one; when
it fails, the other fact is lost. -/
theorem dogs_merge_not_atomic :
    (dogsDecided (some ⟨"ep_3".toList, "d".toList, 3, none⟩)).nightshift.map (·.text) =
        [userSaid spaniel, "my dog Rex is a spaniel".toList] ∧
      (dogsDecided none).nightshift.map (·.text) = [userSaid spaniel] ∧
      ¬Atomic plainDisk plainEnv spaniel rex "my dog Rex is a spaniel".toList dogs none := by
  refine ⟨by decide, by decide, ?_⟩
  intro h
  have hns : (dogs.merge plainEnv spaniel rex "my dog Rex is a spaniel".toList none).nightshift =
      dogs.nightshift := congrArg Store.nightshift h
  revert hns
  decide

end Dog

end ShannonPrime.Memory
