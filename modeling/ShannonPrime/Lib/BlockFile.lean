import Mathlib.Data.List.Basic

/-!
A file that is written and read at offsets, as `pwrite` and `pread` do: a write past the end
extends it, a read past the end is short. Blocks of one size at multiples of it do not meet.
-/

namespace ShannonPrime.BlockFile

structure File where
  size : Nat
  byte : Nat → UInt8

/-- A file of zeros. -/
def presized (n : Nat) : File := ⟨n, fun _ => 0⟩

def pwrite (f : File) (off : Nat) (data : List UInt8) : File where
  size := max f.size (off + data.length)
  byte i := if off ≤ i then data.getD (i - off) (f.byte i) else f.byte i

def pread (f : File) (off n : Nat) : List UInt8 :=
  (List.range (min n (f.size - off))).map fun k => f.byte (off + k)

variable {f : File} {off off' n : Nat} {data : List UInt8}

theorem pread_length (h : off + n ≤ f.size) : (pread f off n).length = n := by
  rw [pread, List.length_map, List.length_range]
  omega

theorem pread_presized {size : Nat} (h : off + n ≤ size) :
    pread (presized size) off n = List.replicate n 0 := by
  have hmin : min n (size - off) = n := by omega
  rw [pread, presized, hmin, List.map_const', List.length_range]

theorem pread_pwrite : pread (pwrite f off data) off data.length = data := by
  have hmin : min data.length ((pwrite f off data).size - off) = data.length := by
    rw [pwrite]
    dsimp only
    omega
  rw [pread, hmin]
  apply List.ext_getElem
  · rw [List.length_map, List.length_range]
  · intro k _ hk
    rw [List.getElem_map, List.getElem_range, pwrite]
    dsimp only
    rw [if_pos (Nat.le_add_right _ _), Nat.add_sub_cancel_left,
      List.getD_eq_getElem?_getD, List.getElem?_eq_getElem hk]
    rfl

/-- A read within the file and apart from the write. -/
theorem pread_pwrite_apart (hin : off' + n ≤ f.size)
    (h : off' + n ≤ off ∨ off + data.length ≤ off') :
    pread (pwrite f off data) off' n = pread f off' n := by
  have hmin : min n ((pwrite f off data).size - off') = min n (f.size - off') := by
    rw [pwrite]
    dsimp only
    omega
  rw [pread, pread, hmin]
  apply List.map_congr_left
  intro k hk
  have hlt := List.mem_range.mp hk
  rw [pwrite]
  dsimp only
  split
  · rw [List.getD_eq_getElem?_getD, List.getElem?_eq_none (by omega)]
    rfl
  · rfl

/-- Different multiples are a block apart. -/
theorem apart_of_dvd {blk : Nat} (h : blk ∣ off) (h' : blk ∣ off') (hne : off' ≠ off) :
    off' + blk ≤ off ∨ off + blk ≤ off' := by
  obtain ⟨a, rfl⟩ := h
  obtain ⟨b, rfl⟩ := h'
  rcases Nat.lt_trichotomy b a with hlt | rfl | hlt
  · left
    rw [← Nat.mul_succ]
    exact Nat.mul_le_mul_left blk hlt
  · exact absurd rfl hne
  · right
    rw [← Nat.mul_succ]
    exact Nat.mul_le_mul_left blk hlt

end ShannonPrime.BlockFile
