import Mathlib.Algebra.Order.Ring.Nat
import Mathlib.Data.Prod.Lex
import Mathlib.Order.Defs.LinearOrder

/-!
The index that a search for the greatest value selects, one after the other or by lanes and a tree
of halvings. It is that of a greatest value, if one is above the value the search starts with, and
among equal ones the first in the order of places, in which the searches differ.
-/

namespace ShannonPrime.Argmax

variable {V K P : Type*} [LinearOrder K] [LinearOrder P]

/-- What a search has found among the indices it has seen: nothing above the floor, with which it
starts at index 0, or a greatest value and the index that comes first. -/
def Best (rank : V → K) (value : Nat → V) (floor : V) (place : Nat → P) (seen : Nat → Prop)
    (slot : V × Nat) : Prop :=
  (slot = (floor, 0) ∧ ∀ j, seen j → rank (value j) ≤ rank floor) ∨
    (seen slot.2 ∧ slot.1 = value slot.2 ∧ rank floor < rank slot.1 ∧
      ∀ j, seen j → rank (value j) ≤ rank slot.1 ∧
        (rank (value j) = rank slot.1 → place slot.2 ≤ place j))

/-- A comparison that goes by a rank from a number on, and only ever finds numbers above. -/
structure Compares (lt : V → V → Bool) (rank : V → K) (number : V → Prop) : Prop where
  iff : ∀ {a b}, number a → (lt a b = true ↔ rank a < rank b)
  number_above : ∀ {a b}, lt a b = true → number b

section Best

variable {rank : V → K} {value : Nat → V} {floor : V} {place : Nat → P} {seen seen' : Nat → Prop}
  {slot slot' : V × Nat} {i n : Nat}

theorem Best.congr (h : Best rank value floor place seen slot) (hseen : ∀ j, seen j ↔ seen' j) :
    Best rank value floor place seen' slot := by
  rwa [show seen' = seen from funext fun j => propext (hseen j).symm]

theorem best_start (rank : V → K) (value : Nat → V) (floor : V) (place : Nat → P)
    (hnone : ∀ j, ¬seen j) : Best rank value floor place seen (floor, 0) :=
  Or.inl ⟨rfl, fun j hj => absurd hj (hnone j)⟩

theorem Best.floor_le (h : Best rank value floor place seen slot) : rank floor ≤ rank slot.1 := by
  rcases h with ⟨rfl, -⟩ | ⟨-, -, hfloor, -⟩
  · exact le_rfl
  · exact hfloor.le

theorem Best.le (h : Best rank value floor place seen slot) {j : Nat} (hj : seen j) :
    rank (value j) ≤ rank slot.1 := by
  rcases h with ⟨rfl, hall⟩ | ⟨-, -, -, hall⟩
  · exact hall j hj
  · exact (hall j hj).1

/-- Where places differ the index is told by them. -/
theorem Best.unique (hplace : Function.Injective place)
    (h : Best rank value floor place seen slot) (h' : Best rank value floor place seen slot') :
    slot.2 = slot'.2 := by
  rcases h with ⟨rfl, hnone⟩ | ⟨hseen, hvalue, hfloor, hall⟩
  · rcases h' with ⟨rfl, -⟩ | ⟨hseen', hvalue', hfloor', -⟩
    · rfl
    · have hle := hnone slot'.2 hseen'
      rw [← hvalue'] at hle
      exact absurd hfloor' hle.not_gt
  · rcases h' with ⟨rfl, hnone⟩ | ⟨hseen', hvalue', hfloor', hall'⟩
    · have hle := hnone slot.2 hseen
      rw [← hvalue] at hle
      exact absurd hfloor hle.not_gt
    · have hle := (hall slot'.2 hseen').1
      have hle' := (hall' slot.2 hseen).1
      rw [← hvalue'] at hle
      rw [← hvalue] at hle'
      have heq := le_antisymm hle hle'
      apply hplace
      refine le_antisymm ((hall slot'.2 hseen').2 ?_) ((hall' slot.2 hseen).2 ?_)
      · rw [← hvalue', heq]
      · rw [← hvalue, heq]

variable {lt : V → V → Bool} {number : V → Prop}

/-- A step of a search upwards. -/
theorem Best.step (h : Best rank value floor id seen slot) (hlt : Compares lt rank number)
    (hnumber : number slot.1) (hnew : ∀ j, seen j → j < i) :
    Best rank value floor id (fun j => seen j ∨ j = i)
        (if lt slot.1 (value i) then (value i, i) else slot) ∧
      number (if lt slot.1 (value i) then (value i, i) else slot).1 := by
  split
  · rename_i habove
    have hgt := (hlt.iff hnumber).mp habove
    refine ⟨Or.inr ⟨Or.inr rfl, rfl, h.floor_le.trans_lt hgt, ?_⟩, hlt.number_above habove⟩
    rintro j (hj | rfl)
    · have hle := (h.le hj).trans_lt hgt
      exact ⟨hle.le, fun heq => absurd heq hle.ne⟩
    · exact ⟨le_rfl, fun _ => le_rfl⟩
  · rename_i hkept
    have hle : rank (value i) ≤ rank slot.1 :=
      le_of_not_gt fun hgt => hkept ((hlt.iff hnumber).mpr hgt)
    refine ⟨?_, hnumber⟩
    rcases h with ⟨rfl, hall⟩ | ⟨hseen, hvalue, hfloor, hall⟩
    · refine Or.inl ⟨rfl, ?_⟩
      rintro j (hj | rfl)
      · exact hall j hj
      · exact hle
    · refine Or.inr ⟨Or.inl hseen, hvalue, hfloor, ?_⟩
      rintro j (hj | rfl)
      · exact hall j hj
      · exact ⟨hle, fun _ => (hnew slot.2 hseen).le⟩

/-- `for (i = start; i < n; i += stride) if (value[i] > best) ...`, at most `fuel` rounds of it. -/
def scan (lt : V → V → Bool) (value : Nat → V) (n stride : Nat) : Nat → Nat → V × Nat → V × Nat
  | 0, _, slot => slot
  | fuel + 1, i, slot =>
      if i < n then
        scan lt value n stride fuel (i + stride) (if lt slot.1 (value i) then (value i, i) else slot)
      else slot

theorem scan_number (hlt : Compares lt rank number) {stride fuel : Nat} (hnumber : number slot.1) :
    number (scan lt value n stride fuel i slot).1 := by
  induction fuel generalizing i slot with
  | zero => exact hnumber
  | succ fuel ih =>
      rw [scan]
      split
      · refine ih ?_
        split
        · rename_i habove
          exact hlt.number_above habove
        · exact hnumber
      · exact hnumber

/-- A scan finds the best of its lane. -/
theorem scan_best (hlt : Compares lt rank number) {stride fuel : Nat} (hstride : 0 < stride)
    (hfuel : n ≤ i + fuel)
    (h : Best rank value floor id (fun j => (j < n ∧ j % stride = i % stride) ∧ j < i) slot)
    (hnumber : number slot.1) :
    Best rank value floor id (fun j => j < n ∧ j % stride = i % stride)
      (scan lt value n stride fuel i slot) := by
  induction fuel generalizing i slot with
  | zero =>
      exact h.congr fun j => ⟨fun hj => hj.1, fun hj => ⟨hj, by omega⟩⟩
  | succ fuel ih =>
      rw [scan]
      split
      · rename_i hi
        obtain ⟨hbest, hnumber'⟩ := h.step hlt hnumber fun j hj => hj.2
        have hlane := ih (i := i + stride) (by omega) (hbest.congr fun j => ?_) hnumber'
        · rwa [Nat.add_mod_right] at hlane
        · rw [Nat.add_mod_right]
          constructor
          · rintro (⟨hj, hlt⟩ | rfl)
            · exact ⟨hj, by omega⟩
            · exact ⟨⟨hi, rfl⟩, by omega⟩
          · rintro ⟨hj, hlt⟩
            rcases Nat.lt_or_ge j i with hbefore | hbehind
            · exact Or.inl ⟨hj, hbefore⟩
            · have hzero := Nat.sub_mod_eq_zero_of_mod_eq hj.2
              rw [Nat.mod_eq_of_lt (by omega)] at hzero
              exact Or.inr (by omega)
      · rename_i hdone
        exact h.congr fun j => ⟨fun hj => hj.1, fun hj => ⟨hj, by omega⟩⟩

end Best

/-! ## The tree -/

variable {S : Type*}

/-- Thread 0's slot after `k` halvings, in each of which the lower half takes over what beats it. -/
def halvings (beats : S → S → Bool) : Nat → (Nat → S) → S
  | 0, v => v 0
  | k + 1, v =>
      halvings beats k fun t =>
        if t < 2 ^ k then if beats (v (t + 2 ^ k)) (v t) then v (t + 2 ^ k) else v t else v t

/-- The number with the low `k` bits in reverse. -/
def rev : Nat → Nat → Nat
  | 0, _ => 0
  | k + 1, t => 2 * rev k (t % 2 ^ k) + t / 2 ^ k

section Tree

variable {k t : Nat}

theorem rev_low (ht : t < 2 ^ k) : rev (k + 1) t = 2 * rev k t := by
  rw [rev, Nat.mod_eq_of_lt ht, Nat.div_eq_of_lt ht, Nat.add_zero]

theorem rev_high (ht : t < 2 ^ k) : rev (k + 1) (t + 2 ^ k) = 2 * rev k t + 1 := by
  have hpos : 0 < 2 ^ k := Nat.two_pow_pos k
  rw [rev, Nat.add_mod_right, Nat.mod_eq_of_lt ht, Nat.add_div_right _ hpos, Nat.div_eq_of_lt ht]

/-- The slot that is left is of greatest key, and among equal ones of the lane whose number in
reverse is least: the last halving compares by the lowest bit and prefers zero. -/
theorem halvings_spec {beats : S → S → Bool} {key : S → K} {good : S → Prop}
    (hbeats : ∀ a b, good a → good b → (beats b a = true ↔ key a < key b)) {v : Nat → S}
    (hgood : ∀ t, good (v t)) :
    ∃ t < 2 ^ k, halvings beats k v = v t ∧ ∀ t' < 2 ^ k, key (v t') ≤ key (v t) ∧
      (key (v t') = key (v t) → t' ≠ t → rev k t < rev k t') := by
  induction k generalizing v with
  | zero =>
      refine ⟨0, Nat.one_pos, rfl, fun t' ht' => ?_⟩
      obtain rfl : t' = 0 := Nat.lt_one_iff.mp ht'
      exact ⟨le_rfl, fun _ hne => absurd rfl hne⟩
  | succ k ih =>
      have hpow : 2 ^ (k + 1) = 2 ^ k + 2 ^ k := Nat.two_pow_succ k
      -- a halving keeps the greater key of a lane and the one above it
      obtain ⟨u, hu⟩ : ∃ u : Nat → S, u = fun t =>
        if t < 2 ^ k then if beats (v (t + 2 ^ k)) (v t) then v (t + 2 ^ k) else v t else v t :=
        ⟨_, rfl⟩
      have hugood : ∀ t, good (u t) := by
        intro t
        rw [hu]
        dsimp only
        split_ifs
        · exact hgood _
        · exact hgood _
        · exact hgood _
      obtain ⟨t, ht, hresult, hall⟩ := ih hugood
      have hkey : ∀ t < 2 ^ k, key (v t) ≤ key (u t) ∧ key (v (t + 2 ^ k)) ≤ key (u t) := by
        intro t ht
        rw [hu]
        dsimp only
        rw [if_pos ht]
        split
        · rename_i hover
          exact ⟨((hbeats _ _ (hgood _) (hgood _)).mp hover).le, le_rfl⟩
        · rename_i hkept
          exact ⟨le_rfl, le_of_not_gt fun hgt =>
            hkept ((hbeats _ _ (hgood _) (hgood _)).mpr hgt)⟩
      -- of the two lanes that end in `t`
      obtain ⟨w, hw, huw, hrev, hsibling⟩ : ∃ w < 2 ^ (k + 1), u t = v w ∧
          rev (k + 1) w ≤ 2 * rev k t + 1 ∧ ∀ t', t' = t ∨ t' = t + 2 ^ k →
            key (v t') = key (v w) → t' ≠ w → rev (k + 1) w < rev (k + 1) t' := by
        by_cases hover : beats (v (t + 2 ^ k)) (v t) = true
        · have hgt := (hbeats _ _ (hgood _) (hgood _)).mp hover
          refine ⟨t + 2 ^ k, by omega, ?_, (rev_high ht).le, ?_⟩
          · rw [hu]
            dsimp only
            rw [if_pos ht, if_pos hover]
          · rintro t' (rfl | rfl) heq hne
            · exact absurd heq hgt.ne
            · exact absurd rfl hne
        · refine ⟨t, by omega, ?_, ?_, ?_⟩
          · rw [hu]
            dsimp only
            rw [if_pos ht, if_neg hover]
          · rw [rev_low ht]
            exact Nat.le_succ _
          · rintro t' (rfl | rfl) heq hne
            · exact absurd rfl hne
            · rw [rev_low ht, rev_high ht]
              exact Nat.lt_succ_self _
      refine ⟨w, hw, ?_, fun t' ht' => ?_⟩
      · rw [halvings, ← hu, hresult, huw]
      · obtain ⟨t₀, ht₀, hlane⟩ : ∃ t₀ < 2 ^ k, t' = t₀ ∨ t' = t₀ + 2 ^ k := by
          rcases Nat.lt_or_ge t' (2 ^ k) with hlow | hhigh
          · exact ⟨t', hlow, Or.inl rfl⟩
          · exact ⟨t' - 2 ^ k, by omega, Or.inr (by omega)⟩
        have hle : key (v t') ≤ key (u t₀) := by
          rcases hlane with rfl | rfl
          · exact (hkey _ ht₀).1
          · exact (hkey t₀ ht₀).2
        have hbest := hall t₀ ht₀
        rw [huw] at hbest
        refine ⟨hle.trans hbest.1, fun heq hne => ?_⟩
        rcases eq_or_ne t₀ t with rfl | hother
        · exact hsibling t' hlane heq hne
        · have hless := hbest.2 (le_antisymm hbest.1 (heq ▸ hle)) hother
          have hrev' : 2 * rev k t₀ ≤ rev (k + 1) t' := by
            rcases hlane with rfl | rfl
            · rw [rev_low ht₀]
            · rw [rev_high ht₀]
              exact Nat.le_succ _
          omega

variable {rank : V → K} {value : Nat → V} {floor : V} {n : Nat}
  {v : Nat → V × Nat} {beats : V × Nat → V × Nat → Bool}

/-- What each lane finds. -/
def Lanes (rank : V → K) (value : Nat → V) (floor : V) (n k : Nat) (v : Nat → V × Nat) : Prop :=
  ∀ t < 2 ^ k, Best rank value floor id (fun j => j < n ∧ j % 2 ^ k = t) (v t)

/-- A lane that holds the greatest value of all, and the first of equal ones, holds the best. -/
theorem Lanes.combine (h : Lanes rank value floor n k v) {place : Nat → P} (ht : t < 2 ^ k)
    (hmax : ∀ t' < 2 ^ k, rank (v t').1 ≤ rank (v t).1)
    (htie : (v t).2 % 2 ^ k = t → ∀ j, rank (v (j % 2 ^ k)).1 = rank (v t).1 →
      (v (j % 2 ^ k)).2 ≤ j → place (v t).2 ≤ place j) :
    Best rank value floor place (· < n) (v t) := by
  have hlane : ∀ j, j % 2 ^ k < 2 ^ k := fun j => Nat.mod_lt j (Nat.two_pow_pos k)
  have hle : ∀ j, j < n → rank (value j) ≤ rank (v (j % 2 ^ k)).1 := fun j hj =>
    (h _ (hlane j)).le ⟨hj, rfl⟩
  rcases h t ht with ⟨hnone, -⟩ | ⟨⟨hin, hmod⟩, hvalue, hfloor, -⟩
  · refine Or.inl ⟨hnone, fun j hj => ?_⟩
    have hbelow := (hle j hj).trans (hmax _ (hlane j))
    rwa [hnone] at hbelow
  · refine Or.inr ⟨hin, hvalue, hfloor, fun j hj => ⟨(hle j hj).trans (hmax _ (hlane j)), ?_⟩⟩
    intro heq
    have hsame : rank (v (j % 2 ^ k)).1 = rank (v t).1 :=
      le_antisymm (hmax _ (hlane j)) (heq ▸ hle j hj)
    refine htie hmod j hsame ?_
    rcases h _ (hlane j) with ⟨hnone, -⟩ | ⟨-, -, -, hall⟩
    · rw [hnone] at hsame
      exact absurd hsame hfloor.ne
    · exact (hall j ⟨hj, rfl⟩).2 (heq.trans hsame.symm)

/-- Where the least index wins a tie the lanes make no difference. -/
theorem Lanes.halvings_index (h : Lanes rank value floor n k v) (number : V → Prop)
    (hnumber : ∀ t, number (v t).1)
    (hbeats : ∀ a b, number a.1 → number b.1 → (beats b a = true ↔
      rank a.1 < rank b.1 ∨ rank a.1 = rank b.1 ∧ b.2 < a.2)) :
    Best rank value floor id (· < n) (halvings beats k v) := by
  have hkey : ∀ a b : V × Nat, number a.1 → number b.1 → (beats b a = true ↔
      toLex (rank a.1, OrderDual.toDual a.2) < toLex (rank b.1, OrderDual.toDual b.2)) := by
    intro a b ha hb
    rw [hbeats a b ha hb, Prod.Lex.toLex_lt_toLex]
    rfl
  obtain ⟨t, ht, hresult, hall⟩ :=
    @halvings_spec _ _ _ k _ _ (fun s : V × Nat => number s.1) hkey v hnumber
  have hle : ∀ t' < 2 ^ k, rank (v t').1 < rank (v t).1 ∨
      rank (v t').1 = rank (v t).1 ∧ (v t).2 ≤ (v t').2 := by
    intro t' ht'
    exact Prod.Lex.toLex_le_toLex.mp (hall t' ht').1
  rw [hresult]
  refine h.combine ht (fun t' ht' => ?_) fun _ j hsame hj => ?_
  · rcases hle t' ht' with hlt | ⟨heq, -⟩
    · exact hlt.le
    · exact heq.le
  · rcases hle _ (Nat.mod_lt j (Nat.two_pow_pos k)) with hlt | ⟨-, hindex⟩
    · exact absurd hsame hlt.ne
    · exact hindex.trans hj

/-- Where the lower lane wins a tie, the lane comes first whose number in reverse is least. -/
theorem Lanes.halvings_lane (h : Lanes rank value floor n k v) (number : V → Prop)
    (hnumber : ∀ t, number (v t).1)
    (hbeats : ∀ a b, number a.1 → number b.1 → (beats b a = true ↔ rank a.1 < rank b.1)) :
    Best rank value floor (fun j => toLex (rev k (j % 2 ^ k), j)) (· < n) (halvings beats k v) := by
  obtain ⟨t, ht, hresult, hall⟩ := @halvings_spec _ _ _ k _ (fun s : V × Nat => rank s.1)
    (fun s : V × Nat => number s.1) hbeats v hnumber
  rw [hresult]
  refine h.combine ht (fun t' ht' => (hall t' ht').1) fun hmod j hsame hj => ?_
  rw [Prod.Lex.toLex_le_toLex, hmod]
  rcases eq_or_ne (j % 2 ^ k) t with heq | hne
  · rw [heq] at hj ⊢
    exact Or.inr ⟨rfl, hj⟩
  · exact Or.inl ((hall _ (Nat.mod_lt j (Nat.two_pow_pos k))).2 hsame hne)

theorem lane_injective : Function.Injective fun j => toLex (rev k (j % 2 ^ k), j) := by
  intro i j heq
  exact congrArg (fun p => (ofLex p).2) heq

end Tree

end ShannonPrime.Argmax
