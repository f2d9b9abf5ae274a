import Mathlib.Data.Finset.Card
import Mathlib.Data.Nat.ModEq
import Mathlib.Order.Interval.Finset.Nat

/-!
Hash tables with open addressing and linear probing, deletion included: the cell is cleared
and the entries behind it, up to the next empty cell, are put in again.
-/

namespace ShannonPrime.LinearProbe

variable {α K : Type*}

section Operations

variable [DecidableEq K] (cap : Nat) (home : K → Nat) (key : α → K)

/-- The first cell from `i` on that satisfies `p`, or the one after `fuel` steps. -/
def walkTo (p : Nat → Bool) : Nat → Nat → Nat
  | 0, i => i
  | fuel + 1, i => if p i then i else walkTo p fuel ((i + 1) % cap)

/-- The cell of a key, or the empty one where the search for it ends. -/
def locate (cells : Nat → Option α) (k : K) : Nat :=
  walkTo cap (fun i => (cells i).all fun a => decide (key a = k)) cap (home k)

def get (cells : Nat → Option α) (k : K) : Option α := cells (locate cap home key cells k)

/-- The first empty cell for a key. -/
def vacant (cells : Nat → Option α) (k : K) : Nat :=
  walkTo cap (fun i => (cells i).isNone) cap (home k)

def insert (cells : Nat → Option α) (a : α) : Nat → Option α :=
  Function.update cells (vacant cap home cells (key a)) (some a)

/-- The first writer of a key wins. -/
def put (cells : Nat → Option α) (a : α) : Nat → Option α :=
  if (get cap home key cells (key a)).isSome then cells
  else Function.update cells (locate cap home key cells (key a)) (some a)

/-- The entries from `j` to the next empty cell are put in again. -/
def rehash : Nat → (Nat → Option α) → Nat → Nat → Option α
  | 0, cells, _ => cells
  | fuel + 1, cells, j =>
      match cells j with
      | none => cells
      | some a =>
          rehash fuel (insert cap home key (Function.update cells j none) a) ((j + 1) % cap)

def remove (cells : Nat → Option α) (k : K) : Nat → Option α :=
  let h := locate cap home key cells k
  if (cells h).isSome then rehash cap home key cap (Function.update cells h none) ((h + 1) % cap)
  else cells

end Operations

/-- The capacity doubles until it reaches the target. -/
def doubled : Nat → Nat → Nat → Nat
  | 0, cap, _ => cap
  | fuel + 1, cap, target => if cap < target then doubled fuel (2 * cap) target else cap

theorem le_doubled (fuel cap target : Nat) (hpos : 0 < cap) (hfuel : target ≤ cap + fuel) :
    cap ≤ doubled fuel cap target ∧ target ≤ doubled fuel cap target := by
  induction fuel generalizing cap with
  | zero => exact ⟨le_refl _, hfuel⟩
  | succ fuel ih =>
      rw [doubled]
      split
      · have hnext := ih (2 * cap) (by omega) (by omega)
        exact ⟨by omega, hnext.2⟩
      · rename_i hge
        exact ⟨le_refl _, Nat.le_of_not_lt hge⟩

theorem doubled_pow (fuel p target : Nat) : ∃ q, doubled fuel (2 ^ p) target = 2 ^ q := by
  induction fuel generalizing p with
  | zero => exact ⟨p, rfl⟩
  | succ fuel ih =>
      rw [doubled]
      split
      · rw [← pow_succ']
        exact ih (p + 1)
      · exact ⟨p, rfl⟩

/-- With a power of two for its size a table wraps around by a mask. -/
theorem mod_doubled (fuel p target i : Nat) :
    i % doubled fuel (2 ^ p) target = i &&& (doubled fuel (2 ^ p) target - 1) := by
  obtain ⟨q, hq⟩ := doubled_pow fuel p target
  rw [hq, Nat.and_two_pow_sub_one_eq_mod]

/-! ## Positions -/

section Positions

variable {cap : Nat} {p : Nat → Bool} {i d t u : Nat}

theorem pos_ne (htu : t < u) (hu : u < t + cap) : (i + t) % cap ≠ (i + u) % cap := by
  intro heq
  have hmod : t ≡ u [MOD cap] := Nat.ModEq.add_left_cancel' i heq
  have hdvd := (Nat.modEq_iff_dvd' htu.le).mp hmod
  have hle := Nat.le_of_dvd (by omega) hdvd
  omega

theorem pos_shift {j : Nat} (h : (i + t) % cap = (j + u) % cap) (x : Nat) :
    (i + (t + x)) % cap = (j + (u + x)) % cap := by
  rw [← Nat.add_assoc, ← Nat.add_assoc]
  exact Nat.ModEq.add_right x h

theorem exists_pos (i : Nat) {j : Nat} (hj : j < cap) : ∃ d < cap, j = (i + d) % cap := by
  have hi := Nat.mod_lt i (Nat.zero_lt_of_lt hj)
  have hsplit := Nat.mod_add_div i cap
  refine ⟨(j + cap - i % cap) % cap, Nat.mod_lt _ (Nat.zero_lt_of_lt hj), ?_⟩
  have hsum : i + (j + cap - i % cap) = j + cap * (i / cap + 1) := by
    rw [Nat.mul_add, Nat.mul_one]
    omega
  rw [Nat.add_mod_mod, hsum, Nat.add_mul_mod_self_left, Nat.mod_eq_of_lt hj]

/-- The walk ends at the first position that satisfies the condition. -/
theorem walkTo_eq (fuel : Nat) (hd : d ≤ fuel) (hp : p ((i + d) % cap) = true)
    (hbefore : ∀ d' < d, p ((i + d') % cap) = false) :
    walkTo cap p fuel (i % cap) = (i + d) % cap := by
  induction fuel generalizing i d with
  | zero =>
      rw [Nat.le_zero.mp hd]
      rfl
  | succ fuel ih =>
      rw [walkTo]
      cases d with
      | zero =>
          rw [Nat.add_zero] at hp
          exact if_pos hp
      | succ d =>
          have hfirst := hbefore 0 (Nat.succ_pos d)
          rw [Nat.add_zero] at hfirst
          have hassoc : ∀ x, i + (x + 1) = i + 1 + x := by
            intro x
            omega
          rw [hassoc] at hp ⊢
          rw [if_neg (by rw [hfirst]; exact Bool.false_ne_true), Nat.mod_add_mod]
          apply ih (Nat.le_of_succ_le_succ hd) hp
          intro d' hd'
          rw [← hassoc]
          exact hbefore (d' + 1) (Nat.succ_lt_succ hd')

/-- If the condition holds anywhere, the walk ends where it first does. -/
theorem walkTo_spec {j : Nat} (hj : j < cap) (hpj : p j = true) (hi : i < cap) :
    ∃ d < cap, walkTo cap p cap i = (i + d) % cap ∧ p ((i + d) % cap) = true ∧
      ∀ d' < d, p ((i + d') % cap) = false := by
  obtain ⟨dj, hdj, hpos⟩ := exists_pos i hj
  have hex : ∃ d, p ((i + d) % cap) = true := ⟨dj, by rw [← hpos]; exact hpj⟩
  have hle : Nat.find hex ≤ dj := Nat.find_min' hex (by rw [← hpos]; exact hpj)
  have hbefore : ∀ d' < Nat.find hex, p ((i + d') % cap) = false := by
    intro d' hd'
    exact Bool.eq_false_iff.mpr (Nat.find_min hex hd')
  refine ⟨Nat.find hex, by omega, ?_, Nat.find_spec hex, hbefore⟩
  have hwalk := walkTo_eq cap (by omega) (Nat.find_spec hex) hbefore
  rwa [Nat.mod_eq_of_lt hi] at hwalk

end Positions

/-! ## The invariant -/

section Invariant

variable {cap : Nat} {home : K → Nat} {key : α → K} {cells : Nat → Option α}

/-- The number of cells in use. -/
def load (cap : Nat) (cells : Nat → Option α) : Nat :=
  ((Finset.range cap).filter fun i => (cells i).isSome).card

variable (cap home key cells) in
/-- Every entry is reached from where its key is first looked for, and no two entries have the
same key. -/
structure Good : Prop where
  home_lt : ∀ k, home k < cap
  path : ∀ i a, cells i = some a → ∃ d < cap, i = (home (key a) + d) % cap ∧
    ∀ d' < d, cells ((home (key a) + d') % cap) ≠ none
  unique : ∀ i j a b, cells i = some a → cells j = some b → key a = key b → i = j
  room : load cap cells < cap

theorem exists_free (h : load cap cells < cap) : ∃ i < cap, cells i = none := by
  by_contra hnone
  have hall : (Finset.range cap).filter (fun i => (cells i).isSome) = Finset.range cap := by
    apply Finset.filter_true_of_mem
    intro i hi
    rw [Option.isSome_iff_ne_none]
    exact fun hi' => hnone ⟨i, Finset.mem_range.mp hi, hi'⟩
  rw [load, hall, Finset.card_range] at h
  exact Nat.lt_irrefl cap h

theorem load_update_some {i : Nat} (hi : i < cap) (hnone : cells i = none) (a : α) :
    load cap (Function.update cells i (some a)) = load cap cells + 1 := by
  have hset : (Finset.range cap).filter (fun j => (Function.update cells i (some a) j).isSome) =
      Insert.insert i ((Finset.range cap).filter fun j => (cells j).isSome) := by
    ext j
    rw [Finset.mem_insert, Finset.mem_filter, Finset.mem_filter, Finset.mem_range]
    by_cases hji : j = i
    · subst hji
      rw [Function.update_self]
      exact ⟨fun _ => Or.inl rfl, fun _ => ⟨hi, rfl⟩⟩
    · rw [Function.update_of_ne hji]
      exact ⟨Or.inr, fun h => h.resolve_left hji⟩
  rw [load, hset, Finset.card_insert_of_notMem, load]
  rw [Finset.mem_filter, hnone]
  exact fun h => absurd h.2 Bool.false_ne_true

theorem load_update_none {i : Nat} {a : α} (hi : i < cap) (hsome : cells i = some a) :
    load cap (Function.update cells i none) + 1 = load cap cells := by
  have hback : Function.update (Function.update cells i none) i (some a) = cells := by
    rw [Function.update_idem, ← hsome, Function.update_eq_self]
  rw [← load_update_some hi (Function.update_self _ _ _) a, hback]

theorem Good.lt (h : Good cap home key cells) {i : Nat} {a : α} (hi : cells i = some a) :
    i < cap := by
  obtain ⟨d, hd, rfl, -⟩ := h.path i a hi
  exact Nat.mod_lt _ (Nat.zero_lt_of_lt hd)

theorem load_empty (cap : Nat) : load cap (fun _ => none : Nat → Option α) = 0 := by
  simp only [load, Option.isSome_none, Bool.false_eq_true, Finset.filter_false, Finset.card_empty]

theorem good_empty (hhome : ∀ k, home k < cap) (hcap : 0 < cap) :
    Good cap home key fun _ => none := by
  refine ⟨hhome, ?_, ?_, ?_⟩
  · rintro i a ⟨⟩
  · rintro i j a b ⟨⟩
  · rw [load_empty]
    exact hcap

/-- Only the keys of the entries matter. -/
theorem Good.congr_key (h : Good cap home key cells) {key' : α → K}
    (hkey : ∀ i a, cells i = some a → key' a = key a) : Good cap home key' cells := by
  refine ⟨h.home_lt, ?_, ?_, h.room⟩
  · intro i a hi
    rw [hkey i a hi]
    exact h.path i a hi
  · intro i j a b hi hj hab
    rw [hkey i a hi, hkey j b hj] at hab
    exact h.unique i j a b hi hj hab

section Lookup

variable [DecidableEq K]

/-- The search passes entries of other keys, and ends at one of its own or at an empty cell. -/
theorem Good.locate_spec (h : Good cap home key cells) (k : K) :
    ∃ d < cap, locate cap home key cells k = (home k + d) % cap ∧
      (∀ d' < d, ∃ a, cells ((home k + d') % cap) = some a ∧ key a ≠ k) ∧
      ∀ a, get cap home key cells k = some a → key a = k := by
  obtain ⟨e, he, hfree⟩ := exists_free h.room
  obtain ⟨d, hd, hwalk, hstop, hbefore⟩ :=
    walkTo_spec (p := fun i => (cells i).all fun a => decide (key a = k)) he
      (by rw [hfree]; rfl) (h.home_lt k)
  refine ⟨d, hd, hwalk, ?_, ?_⟩
  · intro d' hd'
    have hpass := hbefore d' hd'
    cases hcell : cells ((home k + d') % cap) with
    | none =>
        simp only [hcell, Option.all_none] at hpass
        cases hpass
    | some a =>
        simp only [hcell, Option.all_some, decide_eq_false_iff_not] at hpass
        exact ⟨a, rfl, hpass⟩
  · intro a ha
    rw [get, locate, hwalk] at ha
    simp only [ha, Option.all_some, decide_eq_true_eq] at hstop
    exact hstop

/-- A key is found if it is that of an entry. -/
theorem Good.get_eq_some (h : Good cap home key cells) {k : K} {a : α} :
    get cap home key cells k = some a ↔ key a = k ∧ ∃ i, cells i = some a := by
  obtain ⟨d, hd, hloc, hpass, hkey⟩ := h.locate_spec k
  constructor
  · intro ha
    exact ⟨hkey a ha, _, ha⟩
  · rintro ⟨rfl, i, hi⟩
    cases hget : get cap home key cells (key a) with
    | some b =>
        have hsame := h.unique i _ a b hi hget (hkey b hget).symm
        rw [get, ← hsame, hi] at hget
        exact hget.symm
    | none =>
        obtain ⟨d', hd', rfl, hpath⟩ := h.path i a hi
        rw [get, hloc] at hget
        rcases Nat.lt_trichotomy d d' with hlt | rfl | hlt
        · exact absurd hget (hpath d hlt)
        · rw [hi] at hget
          cases hget
        · obtain ⟨b, hb, hne⟩ := hpass d' hlt
          rw [hi, Option.some_inj] at hb
          exact absurd (congrArg key hb.symm) hne

theorem Good.get_eq_none (h : Good cap home key cells) {k : K} :
    get cap home key cells k = none ↔ ∀ i a, cells i = some a → key a ≠ k := by
  rw [Option.eq_none_iff_forall_ne_some]
  constructor
  · intro hnone i a hi hk
    exact hnone a (h.get_eq_some.mpr ⟨hk, i, hi⟩)
  · intro hall a ha
    obtain ⟨hk, i, hi⟩ := h.get_eq_some.mp ha
    exact hall i a hi hk

end Lookup

/-- A new entry in an empty cell that is reached from its key. -/
theorem Good.update (h : Good cap home key cells) {a : α} {d : Nat} (hd : d < cap)
    (hnone : cells ((home (key a) + d) % cap) = none)
    (hbefore : ∀ d' < d, cells ((home (key a) + d') % cap) ≠ none)
    (hnew : ∀ i b, cells i = some b → key b ≠ key a) (hroom : load cap cells + 1 < cap) :
    Good cap home key (Function.update cells ((home (key a) + d) % cap) (some a)) := by
  have hkeep : ∀ j, cells j ≠ none →
      Function.update cells ((home (key a) + d) % cap) (some a) j ≠ none := by
    intro j hj
    by_cases hjv : j = (home (key a) + d) % cap
    · rw [hjv, Function.update_self]
      exact Option.some_ne_none a
    · rw [Function.update_of_ne hjv]
      exact hj
  refine ⟨h.home_lt, ?_, ?_, ?_⟩
  · intro i b hi
    by_cases hiv : i = (home (key a) + d) % cap
    · rw [hiv, Function.update_self, Option.some_inj] at hi
      subst hi
      exact ⟨d, hd, hiv, fun d' hd' => hkeep _ (hbefore d' hd')⟩
    · rw [Function.update_of_ne hiv] at hi
      obtain ⟨d', hd', hpos, hpath⟩ := h.path i b hi
      exact ⟨d', hd', hpos, fun d'' hd'' => hkeep _ (hpath d'' hd'')⟩
  · intro i j b c hi hj hbc
    by_cases hiv : i = (home (key a) + d) % cap
    · by_cases hjv : j = (home (key a) + d) % cap
      · rw [hiv, hjv]
      · rw [hiv, Function.update_self, Option.some_inj] at hi
        rw [Function.update_of_ne hjv] at hj
        rw [← hi] at hbc
        exact absurd hbc.symm (hnew j c hj)
    · rw [Function.update_of_ne hiv] at hi
      by_cases hjv : j = (home (key a) + d) % cap
      · rw [hjv, Function.update_self, Option.some_inj] at hj
        rw [← hj] at hbc
        exact absurd hbc (hnew i b hi)
      · rw [Function.update_of_ne hjv] at hj
        exact h.unique i j b c hi hj hbc
  · rw [load_update_some (Nat.mod_lt _ (Nat.zero_lt_of_lt hd)) hnone]
    exact hroom

variable [DecidableEq K]

/-- The entries after an insertion of a new key. -/
theorem Good.insert (h : Good cap home key cells) {a : α}
    (hnew : get cap home key cells (key a) = none) (hroom : load cap cells + 1 < cap) :
    Good cap home key (insert cap home key cells a) ∧
      load cap (LinearProbe.insert cap home key cells a) = load cap cells + 1 ∧
      ∀ b, (∃ i, LinearProbe.insert cap home key cells a i = some b) ↔
        b = a ∨ ∃ i, cells i = some b := by
  obtain ⟨e, he, hfree⟩ := exists_free h.room
  obtain ⟨d, hd, hwalk, hstop, hbefore⟩ :=
    walkTo_spec (p := fun i => (cells i).isNone) he (by rw [hfree]; rfl) (h.home_lt (key a))
  rw [Option.isNone_iff_eq_none] at hstop
  rw [LinearProbe.insert, vacant, hwalk]
  refine ⟨?_, load_update_some (Nat.mod_lt _ (Nat.zero_lt_of_lt hd)) hstop a, ?_⟩
  · refine h.update hd hstop ?_ (h.get_eq_none.mp hnew) hroom
    intro d' hd' hnone
    have hpass := hbefore d' hd'
    rw [hnone] at hpass
    cases hpass
  · intro b
    constructor
    · rintro ⟨i, hi⟩
      by_cases hiv : i = (home (key a) + d) % cap
      · rw [hiv, Function.update_self, Option.some_inj] at hi
        exact Or.inl hi.symm
      · rw [Function.update_of_ne hiv] at hi
        exact Or.inr ⟨i, hi⟩
    · rintro (rfl | ⟨i, hi⟩)
      · exact ⟨_, Function.update_self _ _ _⟩
      · refine ⟨i, ?_⟩
        rw [Function.update_of_ne]
        · exact hi
        · rintro rfl
          rw [hstop] at hi
          cases hi

/-- Of a key that is there the old entry stays. -/
theorem Good.put (h : Good cap home key cells) (a : α) (hroom : load cap cells + 1 < cap) :
    Good cap home key (put cap home key cells a) ∧
      load cap (LinearProbe.put cap home key cells a) ≤ load cap cells + 1 ∧
      ∀ k, get cap home key (LinearProbe.put cap home key cells a) k =
        (get cap home key cells k).or (if key a = k then some a else none) := by
  rw [LinearProbe.put]
  cases hget : get cap home key cells (key a) with
  | some b =>
      rw [if_pos Option.isSome_some]
      refine ⟨h, Nat.le_succ _, fun k => ?_⟩
      by_cases hk : key a = k
      · rw [← hk, hget]
        rfl
      · rw [if_neg hk, Option.or_none]
  | none =>
      rw [if_neg (by simp only [Option.isSome_none, Bool.false_eq_true, not_false_eq_true])]
      obtain ⟨d, hd, hloc, hpass, -⟩ := h.locate_spec (key a)
      have hnone : cells ((home (key a) + d) % cap) = none := by
        rw [← hloc]
        exact hget
      have hnew := h.get_eq_none.mp hget
      rw [hloc]
      have hgood := h.update hd hnone
        (fun d' hd' => by
          obtain ⟨b, hb, -⟩ := hpass d' hd'
          rw [hb]
          exact Option.some_ne_none b) hnew hroom
      refine ⟨hgood, le_of_eq (load_update_some (Nat.mod_lt _ (Nat.zero_lt_of_lt hd)) hnone a),
        fun k => ?_⟩
      by_cases hk : key a = k
      · subst hk
        rw [hget, if_pos rfl, Option.none_or, hgood.get_eq_some]
        exact ⟨rfl, _, Function.update_self _ _ _⟩
      · rw [if_neg hk, Option.or_none]
        apply Option.ext
        intro b
        rw [hgood.get_eq_some, h.get_eq_some]
        constructor
        · rintro ⟨hbk, i, hi⟩
          refine ⟨hbk, i, ?_⟩
          rw [Function.update_apply] at hi
          split at hi
          · cases hi
            exact absurd hbk hk
          · exact hi
        · rintro ⟨hbk, i, hi⟩
          refine ⟨hbk, i, ?_⟩
          rw [Function.update_of_ne]
          · exact hi
          · rintro rfl
            rw [hnone] at hi
            cases hi

/-- After entries that went in one after the other. -/
theorem Good.foldl_put (h : Good cap home key cells) {l : List α}
    (hroom : load cap cells + l.length < cap) :
    Good cap home key (l.foldl (LinearProbe.put cap home key) cells) ∧
      ∀ k, get cap home key (l.foldl (LinearProbe.put cap home key) cells) k =
        (get cap home key cells k).or (l.find? fun a => decide (key a = k)) := by
  induction l generalizing cells with
  | nil => exact ⟨h, fun k => (Option.or_none).symm⟩
  | cons a l ih =>
      rw [List.length_cons] at hroom
      obtain ⟨hgood, hload, hget⟩ := h.put a (by omega)
      obtain ⟨hgood', hget'⟩ := ih hgood (by omega)
      refine ⟨hgood', fun k => ?_⟩
      rw [List.foldl_cons, hget', hget, Option.or_assoc, List.find?_cons]
      by_cases hk : key a = k
      · rw [if_pos hk, decide_eq_true hk, Option.some_or]
      · rw [if_neg hk, decide_eq_false hk, Option.none_or]

end Invariant

end ShannonPrime.LinearProbe
