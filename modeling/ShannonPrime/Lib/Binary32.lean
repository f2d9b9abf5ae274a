import Mathlib.Order.WithBot
import Mathlib.Algebra.Order.Ring.Int
import Mathlib.Data.Int.ConditionallyCompleteOrder
import Mathlib.Order.ConditionallyCompleteLattice.Finset

/-!
Floating-point numbers of 32 bits and how they compare. The order is that of the signed magnitude,
in which the two zeros are alike; what is not a number compares with nothing.
-/

namespace ShannonPrime

structure F32 where
  bits : BitVec 32
  deriving DecidableEq

namespace F32

/-- All but the sign. -/
def magnitude (x : F32) : Nat := x.bits.toNat % 2 ^ 31

def isNaN (x : F32) : Bool := 0x7F800000 < x.magnitude

def isFinite (x : F32) : Bool := x.magnitude < 0x7F800000

/-- Where a number stands in the order. -/
def key (x : F32) : Int := if 2 ^ 31 ≤ x.bits.toNat then -(x.magnitude : Int) else x.magnitude

def lt (x y : F32) : Bool := !x.isNaN && !y.isNaN && x.key < y.key

def le (x y : F32) : Bool := !x.isNaN && !y.isNaN && x.key ≤ y.key

def eq (x y : F32) : Bool := !x.isNaN && !y.isNaN && x.key == y.key

/-- `partial_cmp` -/
def partialCmp (x y : F32) : Option Ordering :=
  if x.isNaN || y.isNaN then none else some (compare x.key y.key)

/-- `partial_cmp(..).unwrap_or(Equal)` -/
def cmp (x y : F32) : Ordering := (x.partialCmp y).getD .eq

def zero : F32 := ⟨0⟩

/-- `NEG_INFINITY` -/
def negInf : F32 := ⟨0xFF800000⟩

/-- In the order, with what is not a number below all numbers. -/
def rank (x : F32) : WithBot Int := if x.isNaN then ⊥ else x.key

section

variable {x y : F32}

theorem isNaN_of_isFinite (h : x.isFinite = true) : x.isNaN = false := by
  rw [isFinite, decide_eq_true_eq] at h
  rw [isNaN, decide_eq_false_iff_not]
  omega

theorem lt_iff : x.lt y = true ↔ x.isNaN = false ∧ y.isNaN = false ∧ x.key < y.key := by
  simp [lt, and_assoc]

theorem rank_of_number (h : x.isNaN = false) : x.rank = x.key := by
  rw [rank, h]
  rfl

/-- A number is below exactly what is ranked above it. -/
theorem lt_iff_rank (h : x.isNaN = false) : x.lt y = true ↔ x.rank < y.rank := by
  rw [lt_iff, rank_of_number h, and_iff_right h]
  cases hy : y.isNaN with
  | true => simp [rank, hy]
  | false => rw [rank_of_number hy, WithBot.coe_lt_coe, and_iff_right rfl]

/-- Only a number that is less is overtaken. -/
theorem cmp_eq_gt : x.cmp y = .gt ↔ y.lt x = true := by
  rw [lt_iff, cmp, partialCmp]
  cases x.isNaN <;> cases y.isNaN <;> simp [Int.compare_eq_gt]

theorem negInf_lt_of_isFinite (h : x.isFinite = true) : negInf.lt x = true := by
  have hinf : negInf.key = -0x7F800000 := rfl
  refine lt_iff.mpr ⟨rfl, isNaN_of_isFinite h, ?_⟩
  rw [isFinite, decide_eq_true_eq] at h
  rw [hinf, key]
  split <;> omega

end

end F32

end ShannonPrime
