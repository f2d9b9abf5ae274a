import Mathlib.Data.List.Basic
import Mathlib.Tactic.Common

/-!
Blocks laid one behind the other, each at the next multiple of an alignment, with padding
between them: where the blocks start, what the region holds, and that a block is found
where it was put.
-/

namespace ShannonPrime.Layout

variable {β : Type*} {a : Nat}

def alignUp (x a : Nat) : Nat := (x + a - 1) / a * a

theorem dvd_alignUp (x a : Nat) : a ∣ alignUp x a := Nat.dvd_mul_left a _

theorem le_alignUp (ha : 0 < a) (x : Nat) : x ≤ alignUp x a := by
  have hdiv := Nat.div_add_mod (x + a - 1) a
  have hmod := Nat.mod_lt (x + a - 1) ha
  rw [Nat.mul_comm] at hdiv
  rw [alignUp]
  omega

/-- Where each block starts, the first from `pos` on. -/
def starts (a : Nat) : Nat → List (List β) → List Nat
  | _, [] => []
  | pos, b :: rest => alignUp pos a :: starts a (alignUp pos a + b.length) rest

/-- The position behind the last block. -/
def cursor (a : Nat) : Nat → List (List β) → Nat
  | pos, [] => pos
  | pos, b :: rest => cursor a (alignUp pos a + b.length) rest

/-- The padding and the blocks, from `pos` on. -/
def image (pad : β) (a : Nat) : Nat → List (List β) → List β
  | _, [] => []
  | pos, b :: rest =>
      List.replicate (alignUp pos a - pos) pad ++ b ++
        image pad a (alignUp pos a + b.length) rest

@[simp] theorem starts_length (pos : Nat) (bs : List (List β)) :
    (starts a pos bs).length = bs.length := by
  induction bs generalizing pos with
  | nil => rfl
  | cons b rest ih => simp [starts, ih]

theorem le_cursor (ha : 0 < a) (pos : Nat) (bs : List (List β)) : pos ≤ cursor a pos bs := by
  induction bs generalizing pos with
  | nil => exact Nat.le_refl pos
  | cons b rest ih =>
      calc pos ≤ alignUp pos a := le_alignUp ha pos
        _ ≤ alignUp pos a + b.length := Nat.le_add_right _ _
        _ ≤ cursor a pos (b :: rest) := ih _

/-- The region ends where the last block does. -/
theorem image_length (ha : 0 < a) (pad : β) (pos : Nat) (bs : List (List β)) :
    pos + (image pad a pos bs).length = cursor a pos bs := by
  induction bs generalizing pos with
  | nil => rfl
  | cons b rest ih =>
      have hle := le_alignUp ha pos
      have hrest := ih (alignUp pos a + b.length)
      simp only [image, cursor, List.length_append, List.length_replicate]
      omega

section Starts

variable {pos : Nat} {bs : List (List β)} {i : Nat} {s : Nat} {b : List β}

theorem starts_bounds (ha : 0 < a) (hs : (starts a pos bs)[i]? = some s)
    (hb : bs[i]? = some b) : a ∣ s ∧ pos ≤ s ∧ s + b.length ≤ cursor a pos bs := by
  induction bs generalizing pos i with
  | nil => simp at hb
  | cons c rest ih =>
      cases i with
      | zero =>
          simp only [starts, List.getElem?_cons_zero, Option.some.injEq] at hs hb
          subst hs hb
          exact ⟨dvd_alignUp pos a, le_alignUp ha pos, le_cursor ha _ rest⟩
      | succ i =>
          simp only [starts, List.getElem?_cons_succ] at hs hb
          obtain ⟨hdvd, hle, hend⟩ := ih hs hb
          have hpos := le_alignUp ha pos
          exact ⟨hdvd, by omega, hend⟩

/-- An earlier block ends before a later one starts. -/
theorem starts_apart (ha : 0 < a) {k t : Nat} (hik : i < k)
    (hs : (starts a pos bs)[i]? = some s) (hb : bs[i]? = some b)
    (ht : (starts a pos bs)[k]? = some t) : s + b.length ≤ t := by
  induction bs generalizing pos i k with
  | nil => simp at hb
  | cons c rest ih =>
      obtain ⟨k, rfl⟩ : ∃ j, k = j + 1 := ⟨k - 1, by omega⟩
      simp only [starts, List.getElem?_cons_succ] at ht
      cases i with
      | zero =>
          simp only [starts, List.getElem?_cons_zero, Option.some.injEq] at hs hb
          subst hs hb
          have hk : k < rest.length := by
            have hlt := (List.getElem?_eq_some_iff.mp ht).1
            rwa [starts_length] at hlt
          exact (starts_bounds ha ht (List.getElem?_eq_getElem hk)).2.1
      | succ i =>
          simp only [starts, List.getElem?_cons_succ] at hs hb
          exact ih (by omega) hs hb ht

/-- The next block starts at the first aligned position behind this one. -/
theorem starts_succ {s' : Nat} (hs : (starts a pos bs)[i]? = some s) (hb : bs[i]? = some b)
    (hs' : (starts a pos bs)[i + 1]? = some s') : s' = alignUp (s + b.length) a := by
  induction bs generalizing pos i with
  | nil => simp at hb
  | cons c rest ih =>
      cases i with
      | zero =>
          simp only [starts, List.getElem?_cons_zero, Option.some.injEq] at hs hb
          subst hs hb
          cases rest with
          | nil => simp [starts] at hs'
          | cons d rest =>
              simp only [starts, List.getElem?_cons_succ, List.getElem?_cons_zero,
                Option.some.injEq] at hs'
              exact hs'.symm
      | succ i =>
          simp only [starts, List.getElem?_cons_succ] at hs hb hs'
          exact ih hs hb hs'

/-- A block is found where it starts. -/
theorem image_at (ha : 0 < a) (pad : β) (hs : (starts a pos bs)[i]? = some s)
    (hb : bs[i]? = some b) : ((image pad a pos bs).drop (s - pos)).take b.length = b := by
  induction bs generalizing pos i with
  | nil => simp at hb
  | cons c rest ih =>
      have hle := le_alignUp ha pos
      cases i with
      | zero =>
          simp only [starts, List.getElem?_cons_zero, Option.some.injEq] at hs hb
          subst hs hb
          rw [image, List.append_assoc, List.drop_left' List.length_replicate,
            List.take_left]
      | succ i =>
          simp only [starts, List.getElem?_cons_succ] at hs hb
          have hlow := (starts_bounds ha hs hb).2.1
          have hfound := ih hs hb
          have hcut : s - pos = (List.replicate (alignUp pos a - pos) pad ++ c).length +
              (s - (alignUp pos a + c.length)) := by
            rw [List.length_append, List.length_replicate]
            omega
          rw [image, hcut, List.drop_length_add_append]
          exact hfound

end Starts

end ShannonPrime.Layout
