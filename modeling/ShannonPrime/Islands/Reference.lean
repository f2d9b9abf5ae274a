import ShannonPrime.Lib.DigitRoot
import ShannonPrime.Lib.Words

/-!
The scalar references of the nonlinear islands, in fixed point with 30 fraction bits. An
operation on `i64` that overflows leaves no value; the products taken in `i128` stay far
inside it. The encoding of a float and the division of the result back to one are not
here.
-/

namespace ShannonPrime.Islands

open DigitRoot
open Word64

/-- `1 << FB` -/
def one : Int := 2 ^ 30

def log2e : Int := 1549082005

/-- `EXPC`, the coefficients of `2^r`. -/
def expc (k : Nat) : Int :=
  [1073741824, 744261118, 257941248, 59597083, 10327387, 1431680, 165394].getD k 0

def gk : Int := 856722024

def ga : Int := 48012366

/-- One turn of Horner's rule: `((acc * r) >> FB) + EXPC[k]` -/
def hornerStep (table : Nat → Int) (r acc : Int) (k : Nat) : Option Int := do
  let product ← checked (acc * r)
  checked (product / one + table k)

def horner (table : Nat → Int) (r : Int) : Option Int :=
  [5, 4, 3, 2, 1, 0].foldlM (hornerStep table r) (table 6)

def exp2Frac (r : Int) : Option Int := horner expc r

/-- What becomes of `g`, the exponent times `-log2(e)`: a power of two and a fraction. -/
def expOf (exp2Frac : Int → Option Int) (g : Int) : Option Int :=
  let n := g / one
  if 32 ≤ n then some 0
  else do
    let r ← checked (g - wrap (n * one))
    if r ≠ 0 then do
      let rest ← checked (one - r)
      let power ← exp2Frac rest
      shr power (n + 1)
    else shr one n

/-- The negated shift rounds the quotient up. -/
def expFixed (d : Int) : Option Int :=
  if 0 ≤ d then some one else expOf exp2Frac (wrap (-(d * log2e / one)))

/-- `tanh_fixed` over an exponential. -/
def tanhOf (exp : Int → Option Int) (t : Int) : Option Int := do
  let s : Int := if 0 ≤ t then 1 else -1
  let a ← checked |t|
  let twice ← checked (2 * a)
  let d ← checked (-twice)
  let e2 ← exp d
  let double ← checked (2 * e2)
  let num := wrap (double * one)
  let den ← checked (one + e2)
  let rest ← checked (one - num.tdiv den)
  checked (s * rest)

def tanhFixed (t : Int) : Option Int := tanhOf expFixed t

/-- `gelu_q_ref` of one encoded activation. -/
def geluQRef (xq : Int) : Option Int := do
  let scaled ← checked (xq * one)
  let bigX := scaled / 2 ^ 16
  let x2 := bigX * bigX / one
  let x3 := x2 * bigX / one
  let inner := wrap (gk * (bigX + ga * x3 / one) / one)
  let t ← tanhFixed inner
  some (bigX / 2 * (one + t) / one)

/-- One numerator of `softmax_q_ref`, for a logit and the greatest one. -/
def softmaxNumerator (m zz : Int) : Option Int := do
  let gap ← checked (zz - m)
  let scaled ← checked (gap * one)
  expFixed (scaled / 2 ^ 14)

/-- `softmax_q_ref` of the encoded logits: the numerators and the denominator they share. -/
def softmaxQRef (zi : List Int) : Option (List Int × Int) := do
  let m ← zi.max?
  let e ← zi.mapM (softmaxNumerator m)
  some (e, e.sum)

/-- A value of the unsigned type of 128 bits. -/
def checked128 (n : Nat) : Option Nat := if n < 2 ^ 128 then some n else none

/-- `while b > v { b >>= 2 }` -/
def isqrtBit (v : Nat) : Nat → Nat → Option Nat
  | 0, _ => none
  | fuel + 1, b => if v < b then isqrtBit v fuel (b / 4) else some b

/-- What the loop of `isqrt_u128` changes: what is left, the root so far, the bit's weight. -/
structure Isqrt where
  v : Nat
  x : Nat
  b : Nat

def isqrtStep (s : Isqrt) : Option Isqrt := do
  let sum ← checked128 (s.x + s.b)
  if sum ≤ s.v then do
    let x ← checked128 (s.x / 2 + s.b)
    some { v := s.v - sum, x := x, b := s.b / 4 }
  else some { v := s.v, x := s.x / 2, b := s.b / 4 }

def isqrtLoop : Nat → Isqrt → Option Nat
  | 0, _ => none
  | fuel + 1, s => if s.b ≠ 0 then (isqrtStep s).bind (isqrtLoop fuel) else some s.x

/-- `isqrt_u128`, whose loops may take `fuel` turns each. -/
def isqrtU128 (fuel v : Nat) : Option Nat :=
  if v = 0 then some 0
  else do
    let b ← isqrtBit v fuel (2 ^ 126)
    isqrtLoop fuel { v := v, x := 0, b := b }

/-- `ATAN_FB30` -/
def atan (k : Nat) : Int :=
  [843314857, 497837829, 263043837, 133525159, 67021687, 33543516, 16775851, 8388437, 4194283,
    2097149, 1048576, 524288, 262144, 131072, 65536, 32768, 16384, 8192, 4096, 2048, 1024, 512,
    256, 128, 64, 32, 16, 8, 4, 2].getD k 0

def cordicK : Int := 652032874

def piFb : Int := 3373259426

def halfpiFb : Int := 1686629713

def twopiFb : Int := 6746518852

/-- The vector and the angle that is left of it. -/
structure Cordic where
  x : Int
  y : Int
  z : Int

/-- One shift-and-add rotation, towards angle zero. -/
def cordicStep (table : Nat → Int) (s : Cordic) (k : Nat) : Option Cordic := do
  let xs ← shr s.x k
  let ys ← shr s.y k
  if 0 ≤ s.z then do
    let x ← checked (s.x - ys)
    let y ← checked (s.y + xs)
    let z ← checked (s.z - table k)
    some { x := x, y := y, z := z }
  else do
    let x ← checked (s.x + ys)
    let y ← checked (s.y - xs)
    let z ← checked (s.z + table k)
    some { x := x, y := y, z := z }

/-- The angle brought into `(-pi, pi]`. -/
def wrapAngle (pi twopi theta : Int) : Option Int :=
  let z := theta.tmod twopi
  if z > pi then checked (z - twopi)
  else if z < -pi then checked (z + twopi)
  else some z

/-- The angle folded into `[-pi/2, pi/2]`, and whether cosine and sine are negated. -/
def foldAngle (pi halfpi z : Int) : Option (Int × Bool) :=
  if z > halfpi then (checked (z - pi)).map (·, true)
  else if z < -halfpi then (checked (z + pi)).map (·, true)
  else some (z, false)

/-- The rotations from a folded angle on. -/
def rotate (table : Nat → Int) (k : Int) (folded : Int × Bool) : Option (Int × Int) := do
  let s ← (List.range 30).foldlM (cordicStep table) { x := k, y := 0, z := folded.1 }
  if folded.2 then do
    let x ← checked (-s.x)
    let y ← checked (-s.y)
    some (x, y)
  else some (s.x, s.y)

def cordicCossin (theta : Int) : Option (Int × Int) := do
  let z ← wrapAngle piFb twopiFb theta
  let folded ← foldAngle piFb halfpiFb z
  rotate atan cordicK folded

/-! ## The integer square root

It takes one binary digit of the root a turn, from the greatest weight that is not past the number
on. No sum it forms leaves the word. -/

theorem checked128_of_lt {n : Nat} (h : n < 4 ^ 64) : checked128 n = some n := if_pos h

theorem quarter_pow (j : Nat) : 4 ^ (j + 1) / 4 = 4 ^ j := by
  rw [pow_succ, Nat.mul_div_cancel _ (by decide)]

/-- The first loop finds the power of four just below the number. -/
theorem isqrtBit_some {v : Nat} (hv : 0 < v) (fuel : Nat) {j : Nat} (hlt : v < 4 ^ (j + 1)) :
    ∃ k, k ≤ j ∧ v < 4 ^ (k + 1) ∧ isqrtBit v (fuel + (j + 1)) (4 ^ j) = some (4 ^ k) := by
  induction j with
  | zero => exact ⟨0, le_refl _, hlt, if_neg (by simpa using Nat.ne_of_gt hv)⟩
  | succ j ih =>
      rcases Nat.lt_or_ge v (4 ^ (j + 1)) with hbelow | hfound
      · obtain ⟨k, hk, hlow, hrun⟩ := ih hbelow
        refine ⟨k, by omega, hlow, ?_⟩
        rw [← Nat.add_assoc, isqrtBit, if_pos hbelow, quarter_pow]
        exact hrun
      · exact ⟨j + 1, le_refl _, hlt, if_neg (by omega)⟩

/-- One turn takes one digit, and both sums fit. -/
theorem isqrtStep_some {n j q : Nat} {s : Isqrt} (hn : n < 4 ^ 64) (hj : j < 64)
    (hb : s.b = 4 ^ j) (h : Partial n (j + 1) q s.v s.x) :
    ∃ s' q', isqrtStep s = some s' ∧ s'.b = 4 ^ j / 4 ∧ Partial n j q' s'.v s'.x := by
  have hsum := h.sum_lt hn hj
  have hchecked : checked128 (s.x + s.b) = some (s.x + 4 ^ j) := by
    rw [hb]
    exact checked128_of_lt hsum
  rw [isqrtStep, hchecked, Option.bind_eq_bind, Option.bind_some]
  rcases Nat.lt_or_ge s.v (s.x + 4 ^ j) with hlt | hle
  · rw [if_neg (by omega)]
    exact ⟨_, 2 * q, rfl, by rw [hb], h.zero hlt⟩
  · have hx : checked128 (s.x / 2 + s.b) = some (s.x / 2 + 4 ^ j) := by
      rw [hb]
      exact checked128_of_lt (by omega)
    rw [if_pos hle, hx]
    exact ⟨_, 2 * q + 1, rfl, by rw [hb], h.one hle⟩

theorem isqrtLoop_some {n q : Nat} (hn : n < 4 ^ 64) (fuel : Nat) {j : Nat} (hj : j ≤ 64)
    {s : Isqrt} (hb : s.b = 4 ^ j / 4) (h : Partial n j q s.v s.x) :
    ∃ r, isqrtLoop (fuel + (j + 1)) s = some r ∧ r * r ≤ n ∧ n < (r + 1) * (r + 1) := by
  induction j generalizing q s with
  | zero => exact ⟨s.x, if_neg (by simpa using hb), h.root⟩
  | succ j ih =>
      rw [quarter_pow] at hb
      obtain ⟨s', q', hstep, hb', h'⟩ := isqrtStep_some hn (by omega) hb h
      obtain ⟨r, hrun, hroot⟩ := ih (by omega) hb' h'
      have hne : s.b ≠ 0 := by
        rw [hb]
        positivity
      refine ⟨r, ?_, hroot⟩
      rw [← Nat.add_assoc, isqrtLoop, if_pos hne, hstep, Option.bind_some]
      exact hrun

/-- Sixty-five turns are enough for either loop, and more change nothing. -/
theorem isqrtU128_root (v : Fin (2 ^ 128)) (more : Nat) :
    ∃ r, isqrtU128 (more + 65) v = some r ∧ r * r ≤ v ∧ v < (r + 1) * (r + 1) := by
  obtain ⟨v, hv⟩ := v
  have hn : v < 4 ^ 64 := hv
  rcases Nat.eq_zero_or_pos v with hzero | hpos
  · refine ⟨0, if_pos hzero, ?_⟩
    simp [hzero]
  · obtain ⟨k, hk, hlow, hbit⟩ := isqrtBit_some hpos (more + 1) (j := 63) hn
    have hfuel : more + 65 = more + (63 - k) + (k + 1 + 1) := by omega
    obtain ⟨r, hrun, hroot⟩ := isqrtLoop_some hn (more + (63 - k)) (j := k + 1) (by omega)
      (s := { v := v, x := 0, b := 4 ^ k }) (quarter_pow k).symm (Partial.start hlow)
    refine ⟨r, ?_, hroot⟩
    rw [← hfuel] at hrun
    have hstart : isqrtBit v (more + 65) (2 ^ 126) = some (4 ^ k) := hbit
    rw [isqrtU128, if_neg (Nat.ne_of_gt hpos), hstart]
    exact hrun

end ShannonPrime.Islands
