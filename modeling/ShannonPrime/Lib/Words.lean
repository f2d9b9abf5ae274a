import Mathlib.Algebra.Order.Ring.Int
import Mathlib.Data.Nat.Bitwise
import Mathlib.Tactic.NormNum
import Mathlib.Data.List.Nodup
import Mathlib.Data.List.Range
import Mathlib.Tactic.Ring
import ShannonPrime.Lib.Buffer

/-!
64-bit arithmetic over the integers. A signed operation has no value when its result does
not fit, a cast wraps around; a product of two unsigned words comes as a high and a low one.
-/

namespace ShannonPrime.Word64

/-- The value is one of a signed 64-bit word. -/
def Fits (x : Int) : Prop := -2 ^ 63 ≤ x ∧ x < 2 ^ 63

instance (x : Int) : Decidable (Fits x) := inferInstanceAs (Decidable (_ ∧ _))

/-- The result of a signed operation. -/
def checked (x : Int) : Option Int := if Fits x then some x else none

/-- The cast of a wider value. -/
def wrap (x : Int) : Int := x.bmod (2 ^ 64)

/-- `x >> n`, which rounds down and has no value where `n` is no bit number. -/
def shr (x n : Int) : Option Int := if 0 ≤ n ∧ n < 64 then some (x / 2 ^ n.toNat) else none

/-- Bits `k` to `k + 63` of the product of two unsigned words, from its high and low word. -/
def productShift (k a b : Nat) : Nat :=
  let lo := a * b % 2 ^ 64
  let hi := (a * b) >>> 64
  (hi <<< (64 - k)) % 2 ^ 64 ||| lo >>> k

theorem checked_eq_some {x y : Int} : checked x = some y ↔ Fits x ∧ x = y := by
  unfold checked
  split
  case isTrue h => simp [h]
  case isFalse h => simp [h]

theorem checked_of_fits {x : Int} (h : Fits x) : checked x = some x := if_pos h

theorem wrap_of_fits {x : Int} (h : Fits x) : wrap x = x := by
  unfold wrap Fits at *
  apply Int.bmod_eq_of_le <;> omega

/-- A value past the word by less than one turn comes out negative. -/
theorem wrap_of_past {x : Int} (hlo : 2 ^ 63 ≤ x) (hhi : x < 2 ^ 64) : wrap x = x - 2 ^ 64 := by
  have hturn : wrap (x - 2 ^ 64) = wrap x := Int.sub_bmod_right x (2 ^ 64)
  rw [← hturn]
  exact wrap_of_fits ⟨by omega, by omega⟩

theorem shr_of_neg {x n : Int} (h : n < 0) : shr x n = none := if_neg fun hn => by omega

theorem productShift_eq {k : Nat} (hk : k ≤ 64) (a b : Nat) :
    productShift k a b = a * b / 2 ^ k % 2 ^ 64 := by
  unfold productShift
  rw [← Nat.shiftRight_eq_div_pow]
  apply Nat.eq_of_testBit_eq
  intro i
  simp only [Nat.testBit_or, Nat.testBit_mod_two_pow, Nat.testBit_shiftLeft,
    Nat.testBit_shiftRight]
  by_cases hi : 64 - k ≤ i
  · have hat : 64 + (i - (64 - k)) = k + i := by omega
    have hlow : ¬ k + i < 64 := by omega
    simp [hi, hat, hlow]
  · have hlow : k + i < 64 := by omega
    have hi' : i < 64 := by omega
    simp [hi, hlow, hi']

theorem productShift_of_lt {k a b : Nat} (hk : k ≤ 64) (h : a * b / 2 ^ k < 2 ^ 64) :
    productShift k a b = a * b / 2 ^ k := by
  rw [productShift_eq hk, Nat.mod_eq_of_lt h]

end ShannonPrime.Word64

/-!
Words of 64 bits as sets of the positions of their bits.
-/

namespace ShannonPrime.WordBits

/-- The positions of the bits of a word. -/
def bits (word : UInt64) : List Nat := (List.range 64).filter fun i => word.toNat.testBit i

/-- A bit is set; a position past the word has no result. -/
def setBit (word : UInt64) (h : Nat) : Option UInt64 :=
  if h < 64 then some (word ||| 1 <<< UInt64.ofNat h) else none

theorem setBit_testBit {word : UInt64} {h : Nat} (hh : h < 64) (i : Nat) :
    (word ||| 1 <<< UInt64.ofNat h).toNat.testBit i = (word.toNat.testBit i || decide (h = i)) := by
  have hplace : (UInt64.ofNat h).toNat % 64 = h := by
    rw [UInt64.toNat_ofNat']
    omega
  have hbit : ((1 : UInt64) <<< UInt64.ofNat h).toNat = 2 ^ h := by
    rw [UInt64.toNat_shiftLeft, hplace, UInt64.toNat_one, Nat.one_shiftLeft]
    exact Nat.mod_eq_of_lt (Nat.pow_lt_pow_right (by decide) hh)
  rw [UInt64.toNat_or, Nat.testBit_or, hbit, Nat.testBit_two_pow]

theorem setBits_testBit {hs : List Nat} (hhs : ∀ h ∈ hs, h < 64) (word : UInt64) :
    ∃ word', hs.foldlM setBit word = some word' ∧
      ∀ i, word'.toNat.testBit i = (word.toNat.testBit i || decide (i ∈ hs)) := by
  induction hs generalizing word with
  | nil => exact ⟨word, rfl, by simp⟩
  | cons h hs ih =>
      have hh := hhs h List.mem_cons_self
      obtain ⟨word', hrun, hbits⟩ := ih (fun h hh => hhs h (List.mem_cons_of_mem _ hh))
        (word ||| 1 <<< UInt64.ofNat h)
      refine ⟨word', ?_, fun i => ?_⟩
      · rw [List.foldlM_cons, setBit, if_pos hh]
        exact hrun
      · rw [hbits, setBit_testBit hh, Bool.or_assoc]
        congr 1
        simp [List.mem_cons, eq_comm]

/-- Distinct positions set from an empty word on are the positions of its bits. -/
theorem setBits_perm {hs : List Nat} (hhs : ∀ h ∈ hs, h < 64) (hnodup : hs.Nodup) :
    ∃ word, hs.foldlM setBit 0 = some word ∧ (bits word).Perm hs := by
  obtain ⟨word, hrun, hbits⟩ := setBits_testBit hhs 0
  refine ⟨word, hrun, ?_⟩
  apply (List.perm_ext_iff_of_nodup (List.nodup_range.filter _) hnodup).mpr
  intro i
  have hzero : (0 : UInt64).toNat.testBit i = false := by simp
  rw [List.mem_filter, List.mem_range, hbits i, hzero, Bool.false_or, decide_eq_true_iff]
  exact ⟨fun h => h.2, fun h => ⟨hhs i h, h⟩⟩

end ShannonPrime.WordBits

/-!
Numbers in byte memory, low byte first. An array of numbers of one width is written as a
run of cells; reading one back gives it modulo the width.
-/

namespace ShannonPrime.LittleEndian

/-- The `k`-th byte of a number. -/
def byteOf (v k : Nat) : BitVec 8 := BitVec.ofNat 8 (v / 256 ^ k)

/-- The number in the `w` bytes from `a` on. -/
def load (m : Nat → BitVec 8) (a : Nat) : Nat → Nat
  | 0 => 0
  | w + 1 => (m a).toNat + 256 * load m (a + 1) w

/-- The `w` bytes of a number. -/
def bytes (w v : Nat) : List (BitVec 8) := (List.range w).map (byteOf v)

@[simp] theorem bytes_length (w v : Nat) : (bytes w v).length = w := by
  simp [bytes]

/-- `n` numbers of `w` bytes each, from `o` on. -/
def putAll (m : Nat → BitVec 8) (o w n : Nat) (v : Nat → Nat) : Nat → BitVec 8 :=
  Buffer.store m o (n * w) fun a => byteOf (v (a / w)) (a % w)

variable {m m' : Nat → BitVec 8} {o w n : Nat} {v : Nat → Nat}

theorem load_congr {a a' : Nat} (h : ∀ k, k < w → m (a + k) = m' (a' + k)) :
    load m a w = load m' a' w := by
  induction w generalizing a a' with
  | zero => rfl
  | succ w ih =>
      have hfirst : m a = m' a' := h 0 (Nat.succ_pos w)
      have hrest : load m (a + 1) w = load m' (a' + 1) w := by
        apply ih
        intro k hk
        have hnext := h (k + 1) (by omega)
        rw [show a + 1 + k = a + (k + 1) by omega, show a' + 1 + k = a' + (k + 1) by omega]
        exact hnext
      rw [load, load, hfirst, hrest]

/-- The bytes of a number read back as that number, as far as they reach. -/
theorem load_byteOf {a x : Nat} (h : ∀ k, k < w → m (a + k) = byteOf x k) :
    load m a w = x % 256 ^ w := by
  induction w generalizing a x with
  | zero => rw [load, pow_zero, Nat.mod_one]
  | succ w ih =>
      have hfirst : (m a).toNat = x % 256 := by
        have h0 : m a = byteOf x 0 := h 0 (Nat.succ_pos w)
        rw [h0, byteOf, pow_zero, Nat.div_one, BitVec.toNat_ofNat]
      have hrest : load m (a + 1) w = x / 256 % 256 ^ w := by
        apply ih
        intro k hk
        rw [show a + 1 + k = a + (k + 1) by omega, h (k + 1) (by omega), byteOf, byteOf,
          Nat.div_div_eq_div_mul, pow_succ, Nat.mul_comm]
      rw [load, hfirst, hrest, pow_succ, Nat.mul_comm (256 ^ w), Nat.mod_mul]

theorem putAll_outside {a : Nat} (h : a < o ∨ o + n * w ≤ a) : putAll m o w n v a = m a :=
  Buffer.store_outside h

theorem load_putAll {i : Nat} (hi : i < n) :
    load (putAll m o w n v) (o + i * w) w = v i % 256 ^ w := by
  apply load_byteOf
  intro k hk
  rw [putAll, Nat.add_assoc, Buffer.store_inside (Buffer.cell_lt hi hk), Buffer.index_div hk,
    Buffer.index_mod hk]

end ShannonPrime.LittleEndian
