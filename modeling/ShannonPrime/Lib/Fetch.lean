import ShannonPrime.Lib.Words

/-!
Programs that read a buffer at 64-bit displacements from its start: they end with a value,
refuse their input, or read outside of the buffer.
-/

namespace ShannonPrime.Fetch

inductive Outcome (α : Type)
  | value (a : α)
  | rejected
  | fault
  deriving DecidableEq, Repr

namespace Outcome

variable {α β : Type}

def bind (x : Outcome α) (f : α → Outcome β) : Outcome β :=
  match x with
  | .value a => f a
  | .rejected => .rejected
  | .fault => .fault

instance : Monad Outcome where
  pure := .value
  bind := bind

@[simp] theorem value_bind (a : α) (f : α → Outcome β) : (value a >>= f) = f a := rfl

@[simp] theorem rejected_bind (f : α → Outcome β) : (rejected >>= f) = rejected := rfl

@[simp] theorem fault_bind (f : α → Outcome β) : (fault >>= f) = fault := rfl

theorem bind_eq_value {x : Outcome α} {f : α → Outcome β} {b : β} :
    (x >>= f) = value b ↔ ∃ a, x = value a ∧ f a = value b := by
  cases x with
  | value a =>
      constructor
      · intro h
        exact ⟨a, rfl, h⟩
      · rintro ⟨_, ⟨⟩, h⟩
        exact h
  | rejected => exact ⟨fun h => (nomatch h), fun ⟨_, h, _⟩ => (nomatch h)⟩
  | fault => exact ⟨fun h => (nomatch h), fun ⟨_, h, _⟩ => (nomatch h)⟩

theorem bind_eq_fault {x : Outcome α} {f : α → Outcome β} :
    (x >>= f) = fault ↔ x = fault ∨ ∃ a, x = value a ∧ f a = fault := by
  cases x with
  | value a =>
      constructor
      · intro h
        exact Or.inr ⟨a, rfl, h⟩
      · rintro (h | ⟨_, ⟨⟩, h⟩)
        · cases h
        · exact h
  | rejected => exact ⟨fun h => (nomatch h), fun h => h.elim (fun h => (nomatch h))
      fun ⟨_, h, _⟩ => (nomatch h)⟩
  | fault => exact ⟨fun _ => Or.inl rfl, fun _ => rfl⟩

end Outcome

/-! Bytes -/

/-- The bytes of a buffer as memory, zero behind its end. -/
def cells (bytes : List UInt8) (a : Nat) : BitVec 8 := (bytes.getD a 0).toBitVec

/-- The number in the `w` bytes at `p`. -/
def number (bytes : List UInt8) (p w : Nat) : Nat := LittleEndian.load (cells bytes) p w

/-- The `n` bytes at `p`. -/
def slice (bytes : List UInt8) (p n : Nat) : List UInt8 := (bytes.drop p).take n

/-- A read of `n` bytes; the displacement wraps. -/
def fetch (bytes : List UInt8) (addr n : Nat) : Outcome (List UInt8) :=
  if n = 0 ∨ addr % 2 ^ 64 + n ≤ bytes.length then .value (slice bytes (addr % 2 ^ 64) n)
  else .fault

variable {bytes : List UInt8} {a p n w : Nat}

theorem number_slice_at (hw : a + w ≤ n) :
    number (slice bytes p n) a w = number bytes (p + a) w := by
  apply LittleEndian.load_congr
  intro k hk
  rw [cells, cells, slice, List.getD_eq_getElem?_getD, List.getD_eq_getElem?_getD,
    List.getElem?_take_of_lt (by omega), List.getElem?_drop, Nat.add_assoc]

theorem number_slice (hw : w ≤ n) : number (slice bytes p n) 0 w = number bytes p w :=
  number_slice_at (by omega)

theorem slice_slice {m : Nat} (h : a + n ≤ m) :
    slice (slice bytes p m) a n = slice bytes (p + a) n := by
  rw [slice, slice, slice, List.drop_take, List.take_take, List.drop_drop, Nat.min_eq_left (by omega)]

theorem number_lt : number bytes p w < 256 ^ w := by
  rw [number]
  generalize cells bytes = m
  induction w generalizing p with
  | zero => exact Nat.one_pos
  | succ w ih =>
      have hfirst := (m p).isLt
      have hrest := ih (p := p + 1)
      rw [LittleEndian.load, pow_succ]
      omega

theorem slice_length : (slice bytes p n).length = min n (bytes.length - p) := by
  rw [slice, List.length_take, List.length_drop]

/-- Behind a displacement that does not wrap. -/
theorem fetch_inside (haddr : a < 2 ^ 64) (h : a + n ≤ bytes.length) :
    fetch bytes a n = .value (slice bytes a n) := by
  rw [fetch, Nat.mod_eq_of_lt haddr, if_pos (Or.inr h)]

theorem fetch_outside (haddr : a < 2 ^ 64) (hn : 0 < n) (h : bytes.length < a + n) :
    fetch bytes a n = .fault := by
  rw [fetch, Nat.mod_eq_of_lt haddr, if_neg (by omega)]

/-- A read that starts in the buffer or at its end. -/
theorem fetch_from (haddr : a < 2 ^ 64) (h : a ≤ bytes.length) :
    fetch bytes a n = if a + n ≤ bytes.length then .value (slice bytes a n) else .fault := by
  split
  · rename_i hin
    exact fetch_inside haddr hin
  · rename_i hout
    exact fetch_outside haddr (by omega) (by omega)

end ShannonPrime.Fetch
