import Mathlib.Data.List.Basic

/-!
Patterns as a backtracking matcher tries them. The ends of a pattern at a place are listed in the
order of the trials: the first alternative before the second, one more round before none. The match
is the first of them.
-/

namespace ShannonPrime.Backtrack

variable {C : Type*}

/-- Patterns: a character of a class, one pattern behind another, the first of two, at most one,
any number, and no character of a class ahead. -/
inductive Re (C : Type*) where
  | one (p : C → Bool)
  | seq (r s : Re C)
  | alt (r s : Re C)
  | opt (r : Re C)
  | star (r : Re C)
  | notAhead (p : C → Bool)

/-- At least one. -/
def Re.plus (r : Re C) : Re C := .seq r (.star r)

/-- Rounds of a pattern, each of which has to advance. -/
def rounds (ends : Nat → List Nat) : Nat → Nat → List Nat
  | 0, i => [i]
  | fuel + 1, i => ((ends i).filter (i < ·)).flatMap (rounds ends fuel) ++ [i]

/-- The ends of a pattern, in the order of the trials. There are no more rounds than characters
left. -/
def Re.ends : Re C → List C → Nat → List Nat
  | .one p, xs, i => if (xs[i]?).any p then [i + 1] else []
  | .seq r s, xs, i => (r.ends xs i).flatMap (s.ends xs)
  | .alt r s, xs, i => r.ends xs i ++ s.ends xs i
  | .opt r, xs, i => r.ends xs i ++ [i]
  | .star r, xs, i => rounds (r.ends xs) (xs.length - i) i
  | .notAhead p, xs, i => if (xs[i]?).any p then [] else [i]

/-- Where the match ends. -/
def Re.find (r : Re C) (xs : List C) (i : Nat) : Option Nat := (r.ends xs i).head?

/-- The first place from `k` on that is not of a class. -/
def runEnd (p : C → Bool) (xs : List C) (k : Nat) : Nat := k + ((xs.drop k).takeWhile p).length

/-- The places from `e` down to `i`. -/
def downTo (e i : Nat) : List Nat := (List.range' i (e + 1 - i)).reverse

section

variable {p q : C → Bool} {xs : List C} {i k e : Nat}

theorem lt_length_of_any (h : (xs[i]?).any p = true) : i < xs.length := by
  by_contra hout
  rw [List.getElem?_eq_none (Nat.le_of_not_lt hout)] at h
  cases h

theorem runEnd_of_any (h : (xs[i]?).any p = true) : runEnd p xs i = runEnd p xs (i + 1) := by
  have hi := lt_length_of_any h
  rw [List.getElem?_eq_getElem hi, Option.any_some] at h
  rw [runEnd, List.drop_eq_getElem_cons hi, List.takeWhile_cons_of_pos h, List.length_cons, runEnd]
  omega

theorem runEnd_of_not_any (h : ¬ (xs[i]?).any p = true) : runEnd p xs i = i := by
  rcases Nat.lt_or_ge i xs.length with hi | hi
  · rw [List.getElem?_eq_getElem hi, Option.any_some] at h
    rw [runEnd, List.drop_eq_getElem_cons hi, List.takeWhile_cons_of_neg h]
    rfl
  · rw [runEnd, List.drop_eq_nil_of_le hi]
    rfl

theorem le_runEnd : i ≤ runEnd p xs i := Nat.le_add_right _ _

/-- What stands at the end of a run is not of its class. -/
theorem not_any_runEnd (p : C → Bool) (xs : List C) (i : Nat) :
    ¬ (xs[runEnd p xs i]?).any p = true := by
  induction hleft : xs.length - i generalizing i with
  | zero =>
      intro hany
      have hlt := lt_length_of_any hany
      have hle : i ≤ runEnd p xs i := le_runEnd
      omega
  | succ left ih =>
      by_cases hany : (xs[i]?).any p = true
      · rw [runEnd_of_any hany]
        exact ih (i + 1) (by omega)
      · rwa [runEnd_of_not_any hany]

/-- What stands within a run is of its class. -/
theorem any_of_lt_runEnd (hi : i ≤ k) (hk : k < runEnd p xs i) : (xs[k]?).any p = true := by
  induction hleft : k - i generalizing i with
  | zero =>
      obtain rfl : i = k := by omega
      by_contra hnone
      rw [runEnd_of_not_any hnone] at hk
      exact Nat.lt_irrefl i hk
  | succ left ih =>
      have hany : (xs[i]?).any p = true := by
        by_contra hnone
        rw [runEnd_of_not_any hnone] at hk
        omega
      rw [runEnd_of_any hany] at hk
      exact ih (by omega) hk (by omega)

theorem downTo_self (i : Nat) : downTo i i = [i] := by
  rw [downTo, Nat.add_sub_cancel_left]
  rfl

theorem downTo_snoc (h : i < e) : downTo e i = downTo e (i + 1) ++ [i] := by
  have hsize : e + 1 - i = (e + 1 - (i + 1)) + 1 := by omega
  rw [downTo, hsize, List.range'_succ, List.reverse_cons]
  rfl

theorem downTo_cons (h : i ≤ e) : downTo e i = e :: (List.range' i (e - i)).reverse := by
  have hsize : e + 1 - i = e - i + 1 := by omega
  rw [downTo, hsize, List.range'_1_concat, List.reverse_append, Nat.add_sub_cancel' h]
  rfl

theorem downTo_pred (h : i < e) : downTo e i = e :: downTo (e - 1) i := by
  have hsize : e - 1 + 1 - i = e - i := by omega
  rw [downTo_cons (Nat.le_of_lt h), downTo, hsize]

/-- Rounds of a class run to the end of the run and then give back one character after another. -/
theorem ends_star_one (p : C → Bool) (xs : List C) (i : Nat) :
    (Re.star (.one p)).ends xs i = downTo (runEnd p xs i) i := by
  have hrounds : ∀ fuel i, xs.length ≤ i + fuel →
      rounds ((Re.one p).ends xs) fuel i = downTo (runEnd p xs i) i := by
    intro fuel
    induction fuel with
    | zero =>
        intro i hlen
        have hnone : ¬ (xs[i]?).any p = true := fun hany => by
          have hlt := lt_length_of_any hany
          omega
        rw [runEnd_of_not_any hnone, downTo_self]
        rfl
    | succ fuel ih =>
        intro i hlen
        rw [rounds, Re.ends]
        split
        · rename_i hany
          have hlt : i < runEnd p xs (i + 1) := le_runEnd
          rw [runEnd_of_any hany, downTo_snoc hlt, ← ih (i + 1) (by omega)]
          simp
        · rename_i hnone
          rw [runEnd_of_not_any hnone, downTo_self]
          rfl
  exact hrounds _ i (by omega)

/-! The match -/

theorem find_one (p : C → Bool) (xs : List C) (i : Nat) :
    (Re.one p).find xs i = if (xs[i]?).any p then some (i + 1) else none := by
  rw [Re.find, Re.ends]
  split <;> rfl

theorem find_seq (r s : Re C) (xs : List C) (i : Nat) :
    (Re.seq r s).find xs i = (r.ends xs i).findSome? (s.find xs) := List.head?_flatMap

theorem find_seq_one (p : C → Bool) (s : Re C) (xs : List C) (i : Nat) :
    (Re.seq (.one p) s).find xs i = if (xs[i]?).any p then s.find xs (i + 1) else none := by
  rw [find_seq, Re.ends]
  split
  · exact List.findSome?_singleton ..
  · rfl

theorem find_alt (r s : Re C) (xs : List C) (i : Nat) :
    (Re.alt r s).find xs i = (r.find xs i <|> s.find xs i) :=
  List.head?_append.trans Option.or_eq_orElse

/-- With the pattern, and if what follows then fails, without. -/
theorem find_opt_one_seq (p : C → Bool) (s : Re C) (xs : List C) (i : Nat) :
    (Re.seq (.opt (.one p)) s).find xs i =
      ((if (xs[i]?).any p then s.find xs (i + 1) else none) <|> s.find xs i) := by
  have hends : (Re.opt (.one p)).ends xs i = (Re.one p).ends xs i ++ [i] := rfl
  rw [← find_seq_one, find_seq, find_seq, hends, List.findSome?_append, List.findSome?_singleton]
  exact Option.or_eq_orElse

theorem find_star_one (p : C → Bool) (xs : List C) (i : Nat) :
    (Re.star (.one p)).find xs i = some (runEnd p xs i) := by
  rw [Re.find, ends_star_one, downTo_cons le_runEnd]
  rfl

theorem find_plus_one (p : C → Bool) (xs : List C) (i : Nat) :
    (Re.plus (.one p)).find xs i = if (xs[i]?).any p then some (runEnd p xs i) else none := by
  rw [Re.plus, find_seq_one]
  split
  · rename_i hany
    rw [find_star_one, runEnd_of_any hany]
  · rfl

/-- What follows a run and cannot fail follows the whole run. -/
theorem find_plus_one_seq {s : Re C} {f : Nat → Nat} (hs : ∀ j, s.find xs j = some (f j)) :
    (Re.seq (.plus (.one p)) s).find xs i =
      if (xs[i]?).any p then some (f (runEnd p xs i)) else none := by
  have hhead := find_plus_one p xs i
  rw [find_seq]
  rw [Re.find] at hhead
  cases hends : (Re.plus (Re.one p)).ends xs i with
  | nil =>
      rw [hends] at hhead
      split
      · rename_i hany
        rw [if_pos hany] at hhead
        cases hhead
      · rfl
  | cons e rest =>
      rw [hends, List.head?_cons] at hhead
      rw [List.findSome?_cons_of_isSome (by rw [hs]; rfl), hs]
      split
      · rename_i hany
        rw [if_pos hany] at hhead
        rw [Option.some.inj hhead]
      · rename_i hnone
        rw [if_neg hnone] at hhead
        cases hhead

theorem find_notAhead (p : C → Bool) (xs : List C) (i : Nat) :
    (Re.notAhead p).find xs i = if (xs[i]?).any p then none else some i := by
  rw [Re.find, Re.ends]
  split <;> rfl

end

end ShannonPrime.Backtrack
