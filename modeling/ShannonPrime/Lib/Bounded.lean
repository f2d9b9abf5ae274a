import ShannonPrime.Lib.Buffer
import ShannonPrime.Lib.CInt
import ShannonPrime.Lib.Traverse

/-!
Buffers whose length is an `int` number of bytes. An access of elements that do not all lie
within the buffer has no value. Rows one after another, whose first elements are found by
products in 32-bit arithmetic, all lie within a buffer only when their bytes are an `int`.
-/

namespace ShannonPrime.Bounded

/-- A buffer: its address, its length in bytes and its elements. -/
structure Buf (V : Type*) where
  addr : Nat
  len : Int
  cells : Nat → V

namespace Buf

variable {V : Type*} {size n : Nat} {b : Buf V} {i : Int}

/-- The buffer starts on a vector of 128 bytes. -/
def aligned (b : Buf V) : Bool := b.addr % 128 == 0

/-- The `n` elements of `size` bytes from `i` on lie within the buffer. -/
def Inside (size n : Nat) (b : Buf V) (i : Int) : Prop := 0 ≤ i ∧ size * (i + n) ≤ b.len

instance (size n : Nat) (b : Buf V) (i : Int) : Decidable (Inside size n b i) :=
  inferInstanceAs (Decidable (_ ∧ _))

def load (size n : Nat) (b : Buf V) (i : Int) : Option (Nat → V) :=
  if Inside size n b i then some fun l => b.cells (i.toNat + l) else none

/-- The elements of the buffer are `out`, and `n` of them are overwritten. -/
def put (size n : Nat) (b : Buf V) (out : Nat → V) (i : Int) (v : Nat → V) : Option (Nat → V) :=
  if Inside size n b i then some (Buffer.store out i.toNat n v) else none

/-- The buffer holds rows of elements, and its length is an `int`. -/
structure Holds (size : Nat) (b : Buf V) (rows cols : Nat) : Prop where
  int : b.len < 2 ^ 31
  enough : ((size * (rows * cols) : Nat) : Int) ≤ b.len

theorem Holds.lt {rows cols : Nat} (h : Holds size b rows cols) : size * (rows * cols) < 2 ^ 31 := by
  have hcast : ((size * (rows * cols) : Nat) : Int) < 2 ^ 31 := h.enough.trans_lt h.int
  exact_mod_cast hcast

theorem load_eq (h : Inside size n b i) : load size n b i = some fun l => b.cells (i.toNat + l) :=
  if_pos h

theorem load_outside (h : ¬ Inside size n b i) : load size n b i = none := if_neg h

theorem put_eq (h : Inside size n b i) (out v : Nat → V) :
    put size n b out i v = some (Buffer.store out i.toNat n v) := if_pos h

theorem put_outside (h : ¬ Inside size n b i) (out v : Nat → V) : put size n b out i v = none :=
  if_neg h

/-- An access that ends within the rows. -/
theorem Holds.inside {rows cols p : Nat} (h : Holds size b rows cols)
    (hend : p + n ≤ rows * cols) : Inside size n b p := by
  have hmul : size * (p + n) ≤ size * (rows * cols) := Nat.mul_le_mul_left size hend
  refine ⟨Int.natCast_nonneg p, ?_⟩
  calc (size : Int) * (p + n) = (size * (p + n) : Nat) := by push_cast; ring
    _ ≤ (size * (rows * cols) : Nat) := by exact_mod_cast hmul
    _ ≤ b.len := h.enough

/-- An access that reaches past the bytes that an `int` counts. -/
theorem not_inside {p : Nat} (hlen : b.len < 2 ^ 31) (h : 2 ^ 31 ≤ size * (p + n)) :
    ¬ Inside size n b p := by
  rintro ⟨-, hend⟩
  have hcast : ((2 ^ 31 : Nat) : Int) ≤ (size * (p + n) : Nat) := by exact_mod_cast h
  push_cast at hcast
  omega

end Buf

/-- The answer of a call: -1, or 0 with the elements of the buffer it writes. -/
inductive Returns (V : Type*)
  | rejected
  | done (out : Nat → V)

variable {size rows cols : Nat}

/-- Of rows with more bytes than an `int` counts, one has an element that an `int` still
counts and whose last byte it does not. -/
theorem exists_beyond (hsize : 0 < size) (h : 2 ^ 31 ≤ size * (rows * cols)) :
    ∃ r c, r < rows ∧ c < cols ∧ r * cols + c < 2 ^ 31 ∧ 2 ^ 31 ≤ size * (r * cols + c + 1) := by
  have hbelow : size * ((2 ^ 31 - 1) / size) ≤ 2 ^ 31 - 1 := Nat.mul_div_le _ _
  have habove : 2 ^ 31 - 1 < size * ((2 ^ 31 - 1) / size + 1) := Nat.lt_mul_div_succ _ hsize
  have hint : (2 ^ 31 - 1) / size ≤ 2 ^ 31 - 1 := Nat.div_le_self _ _
  generalize (2 ^ 31 - 1) / size = j at hbelow habove hint
  have hj : j < rows * cols := Nat.lt_of_mul_lt_mul_left (a := size) (by omega)
  have hcols : 0 < cols := by
    by_contra hzero
    obtain rfl : cols = 0 := by omega
    omega
  have hsplit : j / cols * cols + j % cols = j := Nat.div_add_mod' j cols
  refine ⟨j / cols, j % cols, ?_, Nat.mod_lt _ hcols, ?_, ?_⟩
  · exact Nat.div_lt_of_lt_mul (by rwa [Nat.mul_comm] at hj)
  · omega
  · rw [hsplit]
    omega

/-- The first element of a row, when it and the elements before it are an `int`. -/
theorem wrap_row {r : Nat} (h : r * cols < 2 ^ 31) : CInt.wrap (r * cols) = (r * cols : Nat) := by
  rw [← Nat.cast_mul]
  exact CInt.wrap_of_fits ⟨by omega, by omega⟩

end ShannonPrime.Bounded
