import ShannonPrime.Lib.LinearProbe

/-!
Deletion from a table with linear probing. Behind the cleared cell only the entries up to the
next empty one may have been probed past it, and each of them, taken out, goes back to where it
was or before.
-/

namespace ShannonPrime.LinearProbe

variable {α K : Type*} {cap : Nat} {home : K → Nat} {key : α → K} {cells : Nat → Option α}

/-- A path that meets the stretch from `h` to `h + m` ends in it, if not at its last cell. -/
theorem path_ends {h m s p d d' : Nat} (hit : (p + d') % cap = (h + s) % cap) (hd : d' < d)
    (hs : s < m) (havoid : ∀ d' < d, (p + d') % cap ≠ (h + m) % cap) :
    ∃ u, s < u ∧ u ≤ m ∧ (p + d) % cap = (h + u) % cap := by
  have hshift := pos_shift hit (m - s)
  rw [Nat.add_sub_cancel' hs.le] at hshift
  have hshort : d ≤ d' + (m - s) := by
    by_contra hlong
    exact havoid _ (Nat.lt_of_not_le hlong) hshift
  have hend := pos_shift hit (d - d')
  rw [Nat.add_sub_cancel' hd.le] at hend
  exact ⟨s + (d - d'), by omega, by omega, hend⟩

section Removal

variable {a : α} {h m t : Nat}

variable (cap home key cells a h m) in
/-- The entry is gone, and those from `t` on, up to the empty cell, are still to be put in
again. -/
structure Midway (c : Nat → Option α) (t : Nat) : Prop where
  hole : c ((h + m) % cap) = none
  rest : ∀ s, t ≤ s → s < m → c ((h + s) % cap) = cells ((h + s) % cap)
  mem : ∀ b, (∃ i, c i = some b) ↔ b ≠ a ∧ ∃ i, cells i = some b
  unique : ∀ i j b b', c i = some b → c j = some b' → key b = key b' → i = j
  load : load cap c + 1 = load cap cells
  path : ∀ i b, c i = some b → (∀ s, t ≤ s → s < m → i ≠ (h + s) % cap) →
    ∃ d < cap, i = (home (key b) + d) % cap ∧ ∀ d' < d, c ((home (key b) + d') % cap) ≠ none ∧
      ∀ s, t ≤ s → s < m → (home (key b) + d') % cap ≠ (h + s) % cap

/-- The path of an entry does not meet an empty cell. -/
theorem Good.path_avoid (hgood : Good cap home key cells) {i : Nat} {b : α} {e : Nat}
    (hi : cells i = some b) (he : cells e = none) :
    ∃ d < cap, i = (home (key b) + d) % cap ∧ (∀ d' < d, (home (key b) + d') % cap ≠ e) ∧
      ∀ d' < d, cells ((home (key b) + d') % cap) ≠ none := by
  obtain ⟨d, hd, hpos, hpath⟩ := hgood.path i b hi
  refine ⟨d, hd, hpos, fun d' hd' heq => ?_, hpath⟩
  apply hpath d' hd'
  rw [heq]
  exact he

theorem Good.midway (hgood : Good cap home key cells) (ha : cells h = some a) (hpos : 0 < m)
    (hm : m < cap) (hhole : cells ((h + m) % cap) = none) :
    Midway cap home key cells a h m (Function.update cells h none) 1 := by
  have hlt := hgood.lt ha
  have hstart : (h + 0) % cap = h := Nat.mod_eq_of_lt hlt
  have hother : ∀ {j : Nat} {b : α}, Function.update cells h none j = some b →
      j ≠ h ∧ cells j = some b := by
    intro j b hj
    by_cases hjh : j = h
    · rw [hjh, Function.update_self] at hj
      cases hj
    · rw [Function.update_of_ne hjh] at hj
      exact ⟨hjh, hj⟩
  have hhole' : (h + m) % cap ≠ h := by
    intro heq
    rw [heq, ha] at hhole
    cases hhole
  refine ⟨?_, ?_, ?_, ?_, load_update_none hlt ha, ?_⟩
  · rw [Function.update_of_ne hhole']
    exact hhole
  · intro s hs hsm
    apply Function.update_of_ne
    intro heq
    apply pos_ne (i := h) (show 0 < s by omega) (by omega : s < 0 + cap)
    rw [hstart, heq]
  · intro b
    constructor
    · rintro ⟨i, hi⟩
      obtain ⟨hih, hi⟩ := hother hi
      refine ⟨?_, i, hi⟩
      rintro rfl
      exact hih (hgood.unique i h _ _ hi ha rfl)
    · rintro ⟨hba, i, hi⟩
      refine ⟨i, ?_⟩
      rw [Function.update_of_ne]
      · exact hi
      · rintro rfl
        rw [ha, Option.some_inj] at hi
        exact hba hi.symm
  · intro i j b b' hi hj hkey
    exact hgood.unique i j b b' (hother hi).2 (hother hj).2 hkey
  · intro i b hi hout
    obtain ⟨hih, hi⟩ := hother hi
    obtain ⟨d, hd, hposd, havoid, hpath⟩ := hgood.path_avoid hi hhole
    have hfar : ∀ d' < d, ∀ s < m, (home (key b) + d') % cap ≠ (h + s) % cap := by
      intro d' hd' s hs hit
      obtain ⟨u, hsu, hum, hend⟩ := path_ends hit hd' hs havoid
      rw [← hposd] at hend
      rcases Nat.lt_or_eq_of_le hum with hlt' | rfl
      · exact hout u (by omega) hlt' hend
      · rw [hend, hhole] at hi
        cases hi
    refine ⟨d, hd, hposd, fun d' hd' => ⟨?_, fun s _ hs => hfar d' hd' s hs⟩⟩
    rw [Function.update_of_ne]
    · exact hpath d' hd'
    · have hne := hfar d' hd' 0 hpos
      rwa [hstart] at hne

/-- The next entry goes back to an empty cell that its search reaches. -/
theorem Midway.step (hgood : Good cap home key cells) (hm : m < cap)
    (hhole : cells ((h + m) % cap) = none)
    (hfull : ∀ s, 0 < s → s < m → cells ((h + s) % cap) ≠ none) {c : Nat → Option α} (ht : 0 < t)
    (hmid : Midway cap home key cells a h m c t) (htm : t < m) {b : α}
    (hb : c ((h + t) % cap) = some b) :
    Midway cap home key cells a h m
      (insert cap home key (Function.update c ((h + t) % cap) none) b) (t + 1) := by
  have hcap : 0 < cap := by omega
  have hold : cells ((h + t) % cap) = some b := by
    rw [← hmid.rest t (le_refl t) htm]
    exact hb
  obtain ⟨db, hdb, hposb, havoid, -⟩ := hgood.path_avoid hold hhole
  have hfar : ∀ d' < db, ∀ s, t < s → s < m → (home (key b) + d') % cap ≠ (h + s) % cap := by
    intro d' hd' s hts hs hit
    obtain ⟨u, hsu, hum, hend⟩ := path_ends hit hd' hs havoid
    rw [← hposb] at hend
    exact pos_ne (hts.trans hsu) (by omega) hend
  have hother : ∀ {j : Nat} {x : α}, Function.update c ((h + t) % cap) none j = some x →
      j ≠ (h + t) % cap ∧ c j = some x := by
    intro j x hj
    by_cases hjt : j = (h + t) % cap
    · rw [hjt, Function.update_self] at hj
      cases hj
    · rw [Function.update_of_ne hjt] at hj
      exact ⟨hjt, hj⟩
  have hkeyb : ∀ j x, Function.update c ((h + t) % cap) none j = some x → key x ≠ key b := by
    intro j x hj hkey
    obtain ⟨hjt, hj⟩ := hother hj
    exact hjt (hmid.unique j _ x b hj hb hkey)
  obtain ⟨d, hd, hwalk, hstop, hbefore⟩ :=
    walkTo_spec (p := fun i => (Function.update c ((h + t) % cap) none i).isNone)
      (Nat.mod_lt (h + t) hcap) (by rw [Function.update_self]; rfl) (hgood.home_lt (key b))
  have hle : d ≤ db := by
    by_contra hlt
    have hpass := hbefore db (Nat.lt_of_not_le hlt)
    rw [← hposb, Function.update_self] at hpass
    cases hpass
  have hvacant : vacant cap home (Function.update c ((h + t) % cap) none) (key b) =
      (home (key b) + d) % cap := hwalk
  rw [Option.isNone_iff_eq_none] at hstop
  rw [insert, hvacant]
  have hhole' : (h + m) % cap ≠ (home (key b) + d) % cap := by
    intro heq
    rcases Nat.lt_or_eq_of_le hle with hlt | rfl
    · exact havoid d hlt heq.symm
    · rw [← hposb] at heq
      exact pos_ne htm (by omega) heq.symm
  generalize hv : (home (key b) + d) % cap = v at hstop hhole'
  have hnew : ∀ j, Function.update c ((h + t) % cap) none j ≠ none → j ≠ v := by
    rintro j hj rfl
    exact hj hstop
  have hkeep : ∀ j, c j ≠ none → j ≠ (h + t) % cap →
      Function.update (Function.update c ((h + t) % cap) none) v (some b) j ≠ none := by
    intro j hj hjt
    have hj' : Function.update c ((h + t) % cap) none j ≠ none := by
      rw [Function.update_of_ne hjt]
      exact hj
    rw [Function.update_of_ne (hnew j hj')]
    exact hj'
  refine ⟨?_, ?_, ?_, ?_, ?_, ?_⟩
  · rw [Function.update_of_ne hhole', Function.update_of_ne]
    · exact hmid.hole
    · exact (pos_ne htm (by omega)).symm
  · intro s hts hs
    have hst : (h + s) % cap ≠ (h + t) % cap := (pos_ne (by omega) (by omega)).symm
    have hrest : Function.update c ((h + t) % cap) none ((h + s) % cap) = cells ((h + s) % cap) := by
      rw [Function.update_of_ne hst]
      exact hmid.rest s (by omega) hs
    rw [Function.update_of_ne (hnew _ (by rw [hrest]; exact hfull s (by omega) hs))]
    exact hrest
  · intro x
    rw [← hmid.mem]
    constructor
    · rintro ⟨i, hi⟩
      by_cases hiv : i = v
      · rw [hiv, Function.update_self, Option.some_inj] at hi
        rw [← hi]
        exact ⟨_, hb⟩
      · rw [Function.update_of_ne hiv] at hi
        exact ⟨i, (hother hi).2⟩
    · rintro ⟨i, hi⟩
      by_cases hit : i = (h + t) % cap
      · rw [hit, hb] at hi
        exact ⟨v, by rw [Function.update_self, hi]⟩
      · refine ⟨i, ?_⟩
        have hi' : Function.update c ((h + t) % cap) none i = some x := by
          rw [Function.update_of_ne hit]
          exact hi
        rw [Function.update_of_ne (hnew i (by rw [hi']; exact Option.some_ne_none x))]
        exact hi'
  · intro i j x x' hi hj hkey
    by_cases hiv : i = v
    · by_cases hjv : j = v
      · rw [hiv, hjv]
      · rw [hiv, Function.update_self, Option.some_inj] at hi
        rw [Function.update_of_ne hjv] at hj
        rw [← hi] at hkey
        exact absurd hkey.symm (hkeyb j x' hj)
    · rw [Function.update_of_ne hiv] at hi
      by_cases hjv : j = v
      · rw [hjv, Function.update_self, Option.some_inj] at hj
        rw [← hj] at hkey
        exact absurd hkey (hkeyb i x hi)
      · rw [Function.update_of_ne hjv] at hj
        exact hmid.unique i j x x' (hother hi).2 (hother hj).2 hkey
  · have hvlt : v < cap := by
      rw [← hv]
      exact Nat.mod_lt _ hcap
    have hout := load_update_none (Nat.mod_lt (h + t) hcap) hb
    have hload := hmid.load
    rw [load_update_some hvlt hstop]
    omega
  · intro i x hi hout
    by_cases hiv : i = v
    · rw [hiv, Function.update_self, Option.some_inj] at hi
      subst hi
      refine ⟨d, hd, by rw [hv, hiv], fun d' hd' => ⟨?_, fun s hts hs =>
        hfar d' (by omega) s (by omega) hs⟩⟩
      have hpass := hbefore d' hd'
      rw [Option.isNone_eq_false_iff, Option.isSome_iff_ne_none] at hpass
      rw [Function.update_of_ne (hnew _ hpass)]
      exact hpass
    · rw [Function.update_of_ne hiv] at hi
      obtain ⟨hit, hi⟩ := hother hi
      obtain ⟨d', hd', hpos, hpath⟩ := hmid.path i x hi (by
        intro s hts hs heq
        rcases Nat.lt_or_eq_of_le hts with hlt | rfl
        · exact hout s (by omega) hs heq
        · exact hit heq)
      refine ⟨d', hd', hpos, fun d'' hd'' => ⟨?_, fun s hts hs =>
        (hpath d'' hd'').2 s (by omega) hs⟩⟩
      exact hkeep _ (hpath d'' hd'').1 ((hpath d'' hd'').2 t (le_refl t) htm)

/-- All of them have gone back. -/
theorem Midway.rehash (hgood : Good cap home key cells) (hm : m < cap)
    (hhole : cells ((h + m) % cap) = none)
    (hfull : ∀ s, 0 < s → s < m → cells ((h + s) % cap) ≠ none) (fuel : Nat)
    {c : Nat → Option α} (ht : 0 < t) (htm : t ≤ m) (hfuel : m ≤ t + fuel)
    (hmid : Midway cap home key cells a h m c t) :
    Midway cap home key cells a h m (rehash cap home key fuel c ((h + t) % cap)) m := by
  induction fuel generalizing c t with
  | zero =>
      have hlast : t = m := by omega
      rw [← hlast] at hmid ⊢
      exact hmid
  | succ fuel ih =>
      rw [LinearProbe.rehash]
      rcases Nat.lt_or_eq_of_le htm with hlt | rfl
      · cases hb : c ((h + t) % cap) with
        | none =>
            rw [hmid.rest t (le_refl t) hlt] at hb
            exact absurd hb (hfull t ht hlt)
        | some b =>
            dsimp only
            rw [Nat.mod_add_mod, Nat.add_assoc]
            exact ih (Nat.succ_pos t) hlt (by omega) (hmid.step hgood hm hhole hfull ht hlt hb)
      · rw [hmid.hole]
        exact hmid

/-- Behind an entry, before a full round, there is an empty cell, and the first of them. -/
theorem Good.cluster (hgood : Good cap home key cells) (ha : cells h = some a) :
    ∃ m, 0 < m ∧ m < cap ∧ cells ((h + m) % cap) = none ∧
      ∀ s, 0 < s → s < m → cells ((h + s) % cap) ≠ none := by
  obtain ⟨e, he, hfree⟩ := exists_free hgood.room
  obtain ⟨d, hd, hpos⟩ := exists_pos h he
  have hdpos : 0 < d := by
    apply Nat.pos_of_ne_zero
    rintro rfl
    rw [Nat.add_zero, Nat.mod_eq_of_lt (hgood.lt ha)] at hpos
    rw [hpos, ha] at hfree
    cases hfree
  rw [hpos] at hfree
  have hex : ∃ m, 0 < m ∧ cells ((h + m) % cap) = none := ⟨d, hdpos, hfree⟩
  obtain ⟨hmpos, hhole⟩ := Nat.find_spec hex
  have hmd : Nat.find hex ≤ d := Nat.find_min' hex ⟨hdpos, hfree⟩
  exact ⟨Nat.find hex, hmpos, by omega, hhole, fun s hs hsm hnone =>
    Nat.find_min hex hsm ⟨hs, hnone⟩⟩

variable [DecidableEq K]

/-- A key is taken out, and all the others are still found. -/
theorem Good.remove (hgood : Good cap home key cells) {k : K}
    (hget : get cap home key cells k = some a) :
    Good cap home key (remove cap home key cells k) ∧
      load cap (LinearProbe.remove cap home key cells k) + 1 = load cap cells ∧
      ∀ b, (∃ i, LinearProbe.remove cap home key cells k i = some b) ↔
        b ≠ a ∧ ∃ i, cells i = some b := by
  have ha : cells (locate cap home key cells k) = some a := hget
  rw [LinearProbe.remove]
  simp only [ha, Option.isSome_some, if_true]
  generalize locate cap home key cells k = h at ha
  obtain ⟨m, hmpos, hm, hhole, hfull⟩ := hgood.cluster ha
  have hend := (hgood.midway ha hmpos hm hhole).rehash hgood hm hhole hfull
    cap Nat.one_pos hmpos (by omega)
  have hroom := hgood.room
  have hload := hend.load
  refine ⟨⟨hgood.home_lt, fun i b hi => ?_, hend.unique, by omega⟩, hload, hend.mem⟩
  obtain ⟨d', hd', hpos', hpath⟩ := hend.path i b hi fun s hs hsm => absurd hs (by omega)
  exact ⟨d', hd', hpos', fun d'' hd'' => (hpath d'' hd'').1⟩

end Removal

end ShannonPrime.LinearProbe

/-!
The loops of a table, with no result where one of them finds no end in a full round of the cells.
As long as a cell is empty they all end.
-/

namespace ShannonPrime.LinearProbe

variable {α K : Type*}

section Operations

variable [DecidableEq K] (cap : Nat) (home : K → Nat) (key : α → K)

/-- The first cell from `i` on that satisfies `p`, within `fuel` turns. -/
def walkWithin (p : Nat → Bool) : Nat → Nat → Option Nat
  | 0, _ => none
  | fuel + 1, i => if p i then some i else walkWithin p fuel ((i + 1) % cap)

def locateWithin (cells : Nat → Option α) (k : K) : Option Nat :=
  walkWithin cap (fun i => (cells i).all fun a => decide (key a = k)) cap (home k)

def getWithin (cells : Nat → Option α) (k : K) : Option (Option α) :=
  (locateWithin cap home key cells k).map cells

def insertWithin (cells : Nat → Option α) (a : α) : Option (Nat → Option α) :=
  (walkWithin cap (fun i => (cells i).isNone) cap (home (key a))).map fun i =>
    Function.update cells i (some a)

def putWithin (cells : Nat → Option α) (a : α) : Option (Nat → Option α) :=
  (locateWithin cap home key cells (key a)).map fun i =>
    if (cells i).isSome then cells else Function.update cells i (some a)

def rehashWithin : Nat → (Nat → Option α) → Nat → Option (Nat → Option α)
  | 0, _, _ => none
  | fuel + 1, cells, j =>
      match cells j with
      | none => some cells
      | some a =>
          (insertWithin cap home key (Function.update cells j none) a).bind fun cells =>
            rehashWithin fuel cells ((j + 1) % cap)

def removeWithin (cells : Nat → Option α) (k : K) : Option (Nat → Option α) :=
  (locateWithin cap home key cells k).bind fun h =>
    if (cells h).isSome then
      rehashWithin cap home key cap (Function.update cells h none) ((h + 1) % cap)
    else some cells

end Operations

section Ends

variable {cap : Nat} {home : K → Nat} {key : α → K} {cells : Nat → Option α}

theorem walkWithin_of_first {p : Nat → Bool} {i d : Nat} (fuel : Nat) (hd : d < fuel)
    (hp : p ((i + d) % cap) = true) (hbefore : ∀ d' < d, p ((i + d') % cap) = false) :
    walkWithin cap p fuel (i % cap) = some ((i + d) % cap) := by
  induction fuel generalizing i d with
  | zero => exact absurd hd (Nat.not_lt_zero d)
  | succ fuel ih =>
      rw [walkWithin]
      cases d with
      | zero =>
          rw [Nat.add_zero] at hp ⊢
          exact if_pos hp
      | succ d =>
          have hfirst := hbefore 0 (Nat.succ_pos d)
          rw [Nat.add_zero] at hfirst
          have hassoc : ∀ x, i + (x + 1) = i + 1 + x := by
            intro x
            omega
          rw [hassoc] at hp ⊢
          rw [hfirst, if_neg Bool.false_ne_true, Nat.mod_add_mod]
          apply ih (Nat.lt_of_succ_lt_succ hd) hp
          intro d' hd'
          rw [← hassoc]
          exact hbefore (d' + 1) (Nat.succ_lt_succ hd')

/-- If the condition holds anywhere, the walk ends. -/
theorem walkWithin_eq {p : Nat → Bool} {i j : Nat} (hj : j < cap) (hp : p j = true) (hi : i < cap) :
    walkWithin cap p cap i = some (walkTo cap p cap i) := by
  obtain ⟨d, hd, hwalk, hstop, hbefore⟩ := walkTo_spec hj hp hi
  have hwithin := walkWithin_of_first cap hd hstop hbefore
  rwa [Nat.mod_eq_of_lt hi, ← hwalk] at hwithin

theorem insertWithin_eq (hhome : ∀ k, home k < cap) {e : Nat} (he : e < cap) (hfree : cells e = none)
    (a : α) : insertWithin cap home key cells a = some (insert cap home key cells a) := by
  have hwalk : walkWithin cap (fun i => (cells i).isNone) cap (home (key a)) =
      some (vacant cap home cells (key a)) :=
    walkWithin_eq he (by rw [hfree]; rfl) (hhome _)
  rw [insertWithin, hwalk]
  rfl

variable [DecidableEq K]

theorem Good.locateWithin_eq (h : Good cap home key cells) (k : K) :
    locateWithin cap home key cells k = some (locate cap home key cells k) := by
  obtain ⟨e, he, hfree⟩ := exists_free h.room
  exact walkWithin_eq he (by rw [hfree]; rfl) (h.home_lt k)

theorem Good.getWithin_eq (h : Good cap home key cells) (k : K) :
    getWithin cap home key cells k = some (get cap home key cells k) := by
  rw [getWithin, h.locateWithin_eq]
  rfl

theorem Good.putWithin_eq (h : Good cap home key cells) (a : α) :
    putWithin cap home key cells a = some (LinearProbe.put cap home key cells a) := by
  rw [putWithin, h.locateWithin_eq]
  rfl

variable {a : α} {h m t : Nat}

omit [DecidableEq K] in
/-- The entries behind the cleared cell are all put in again. -/
theorem Midway.rehashWithin_eq (hgood : Good cap home key cells) (hm : m < cap)
    (hhole : cells ((h + m) % cap) = none)
    (hfull : ∀ s, 0 < s → s < m → cells ((h + s) % cap) ≠ none) (fuel : Nat)
    {c : Nat → Option α} (ht : 0 < t) (htm : t ≤ m) (hfuel : m < t + fuel)
    (hmid : Midway cap home key cells a h m c t) :
    rehashWithin cap home key fuel c ((h + t) % cap) =
      some (LinearProbe.rehash cap home key fuel c ((h + t) % cap)) := by
  induction fuel generalizing c t with
  | zero => omega
  | succ fuel ih =>
      rw [rehashWithin, LinearProbe.rehash]
      rcases Nat.lt_or_eq_of_le htm with hlt | rfl
      · cases hb : c ((h + t) % cap) with
        | none =>
            have hold := (hmid.rest t (Nat.le_refl t) hlt).symm.trans hb
            exact absurd hold (hfull t ht hlt)
        | some b =>
            have hpos : (h + t) % cap < cap := Nat.mod_lt _ (by omega)
            dsimp only
            rw [insertWithin_eq hgood.home_lt hpos (Function.update_self _ _ _), Option.bind_some,
              Nat.mod_add_mod, Nat.add_assoc]
            exact ih (Nat.succ_pos t) hlt (by omega) (hmid.step hgood hm hhole hfull ht hlt hb)
      · rw [hmid.hole]

theorem Good.removeWithin_eq (hgood : Good cap home key cells) {k : K}
    (hget : get cap home key cells k = some a) :
    removeWithin cap home key cells k = some (LinearProbe.remove cap home key cells k) := by
  have ha : cells (locate cap home key cells k) = some a := hget
  have hlt := hgood.lt ha
  rw [removeWithin, hgood.locateWithin_eq, Option.bind_some, LinearProbe.remove]
  simp only [ha, Option.isSome_some, if_true]
  generalize locate cap home key cells k = h at ha hlt
  obtain ⟨m, hmpos, hm, hhole, hfull⟩ := hgood.cluster ha
  exact (hgood.midway ha hmpos hm hhole).rehashWithin_eq hgood hm hhole hfull
    cap Nat.one_pos hmpos (by omega)

end Ends

end ShannonPrime.LinearProbe
