import Mathlib.Algebra.BigOperators.Group.Finset.Basic
import Mathlib.Algebra.BigOperators.Intervals
import Mathlib.Algebra.Order.BigOperators.Group.Finset
import ShannonPrime.Cuda.ExpMonotone
import ShannonPrime.Cuda.Islands
import ShannonPrime.Lib.Modular
import ShannonPrime.Lib.Traverse

/-!
Byte-exact decode attention: one block of the two kernels, up to the integers it divides
at the end. Dot products are taken modulo two primes, with the raw sum folded into the
residues every 64 products, and put together by Garner's step. A 64-bit operation that
overflows leaves no value; the probe flags are off.

How far it is exact: the residues of a chunked sum are those of the true one, and Garner's
step gives the true one back within half the modulus. A score goes on to the softmax grid
without overflow within 49 bits; a weighted sum over a long context need not stay within half
the modulus.
-/

namespace ShannonPrime.Cuda

open Islands Word64

def bxQ1 : Int := 1073738753

def bxQ2 : Int := 1073732609

/-- `Q1^{-1} mod Q2` -/
def bxInvq1 : Int := 894602413

/-- `M` of `bx_garner` -/
def bxModulus : Int := bxQ1 * bxQ2

def bxGarner (r1 r2 : Int) : Option Int := do
  let d ← checked (r2 - r1)
  let d ← checked (d.tmod bxQ2 + bxQ2)
  let p ← checked (d.tmod bxQ2 * bxInvq1)
  let y ← checked (bxQ1 * p.tmod bxQ2)
  let x ← checked (r1 + y)
  if x > bxModulus / 2 then checked (x - bxModulus) else some x

/-- The residues so far, the products not yet folded into them, and their number. -/
structure Residues where
  a1 : Int
  a2 : Int
  acc : Int
  cnt : Nat

/-- `((a + acc) % q + q) % q` -/
def foldResidue (q a acc : Int) : Option Int := do
  let s ← checked (a + acc)
  let r ← checked (s.tmod q + q)
  some (r.tmod q)

namespace Residues

def zero : Residues where
  a1 := 0
  a2 := 0
  acc := 0
  cnt := 0

def fold (s : Residues) : Option Residues := do
  let a1 ← foldResidue bxQ1 s.a1 s.acc
  let a2 ← foldResidue bxQ2 s.a2 s.acc
  some { a1 := a1, a2 := a2, acc := 0, cnt := 0 }

/-- `acc += x * y; if (++cnt == 64)` fold. -/
def mulAdd (s : Residues) (x y : Int) : Option Residues := do
  let p ← checked (x * y)
  let acc ← checked (s.acc + p)
  let s' : Residues := { s with acc := acc, cnt := s.cnt + 1 }
  if s'.cnt = 64 then s'.fold else some s'

/-- `if (cnt)` fold: the last chunk. -/
def flush (s : Residues) : Option Residues := if s.cnt ≠ 0 then s.fold else some s

end Residues

/-- The chunked dot product and what Garner's step makes of it. -/
def residueDot (n : Nat) (x y : Nat → Int) : Option Int := do
  let s ← (List.range n).foldlM (fun s i => s.mulAdd (x i) (y i)) Residues.zero
  let s ← s.flush
  bxGarner s.a1 s.a2

/-- What block `h` of a launch works on: the query, the two caches and the shape. -/
structure AttnArgs (F : Type*) where
  q : Nat → F
  kc : Nat → F
  vc : Nat → F
  ctx : Nat
  kvd : Nat
  hd : Nat
  group : Nat
  win : Int
  h : Nat

/-- What a block computes before its divisions. -/
structure AttnInts where
  scores : List Int
  weights : List Int
  sum : Int
  nums : List Int
  deriving DecidableEq

/-- `(score << 14) >> 32`, the score on the grid of the softmax. -/
def scoreGrid (d : Int) : Option Int := do
  let z ← checked (d * 2 ^ 14)
  some (z / 2 ^ 32)

/-- The loop for the maximum; it begins with the first score, which has to be there. -/
def gridMax : List Int → Option Int
  | [] => none
  | z :: rest => some (rest.foldl (fun m z => if z > m then z else m) z)

/-- `bx_exp_fixed((z - mxz) << 16)` -/
def scoreWeight (mxz z : Int) : Option Int := do
  let d ← checked (z - mxz)
  let d ← checked (d * 2 ^ 16)
  bxExpFixed d

/-- The serial part of the block: the weights and their sum. -/
def bxSoftmax (scores : List Int) : Option (List Int × Int) := do
  let zs ← scores.mapM scoreGrid
  let mxz ← gridMax zs
  let weights ← zs.mapM (scoreWeight mxz)
  let sum ← weights.foldlM (fun s e => checked (s + e)) 0
  some (weights, sum)

namespace AttnArgs

variable {F : Type*}

/-- `s0`, where the window begins. -/
def start (a : AttnArgs F) : Nat :=
  if 0 ≤ a.win ∧ 0 < (a.ctx : Int) - 1 - a.win + 1 then ((a.ctx : Int) - 1 - a.win + 1).toNat
  else 0

/-- `wl`, the positions in the window. -/
def len (a : AttnArgs F) : Nat := a.ctx - a.start

/-- Where row `slot` of the head's part of a cache begins. -/
def row (a : AttnArgs F) (slot : Nat) : Nat := slot * a.kvd + a.h / a.group * a.hd

section Block

variable (enc : F → Int) (slot : Nat → Nat) (a : AttnArgs F)

/-- The encoded query. -/
def ea (i : Nat) : Int := enc (a.q (a.h * a.hd + i))

/-- The encoded key in the `j`th row of the window. -/
def eb (j i : Nat) : Int := enc (a.kc (a.row (slot j) + i))

/-- The encoded value there. -/
def ev (j i : Nat) : Int := enc (a.vc (a.row (slot j) + i))

def scores : Option (List Int) :=
  (List.range a.len).mapM fun j => residueDot a.hd (a.ea enc) (a.eb enc slot j)

def nums (weights : List Int) : Option (List Int) :=
  (List.range a.hd).mapM fun i =>
    residueDot a.len (fun j => weights.getD j 0) fun j => a.ev enc slot j i

/-- The body of the two kernels, which differ in where they look for the rows. -/
def attnBx : Option AttnInts := do
  let scores ← a.scores enc slot
  let softmax ← bxSoftmax scores
  let nums ← a.nums enc slot softmax.1
  some { scores := scores, weights := softmax.1, sum := softmax.2, nums := nums }

end Block

/-- `k_attn_decode_win_bx` -/
def kAttnDecodeWinBx (enc : F → Int) (a : AttnArgs F) : Option AttnInts :=
  a.attnBx enc fun j => a.start + j

/-- `k_attn_decode_ring_bx` -/
def kAttnDecodeRingBx (enc : F → Int) (wring : Nat) (a : AttnArgs F) : Option AttnInts :=
  a.attnBx enc fun j => (a.start + j) % wring

end AttnArgs

/-! Residues and Garner's step -/

theorem emod_of_tmod {q : Int} (hq : 0 < q) (s : Int) :
    0 < s.tmod q + q ∧ s.tmod q + q < 2 * q ∧ (s.tmod q + q).tmod q = s % q := by
  have hlo := Int.lt_tmod_of_pos s hq
  have hhi := Int.tmod_lt_of_pos s hq
  refine ⟨by omega, by omega, ?_⟩
  rw [Int.tmod_eq_emod_of_nonneg (by omega), Int.add_emod_right, Int.tmod_def,
    Int.sub_mul_emod_self_left]

theorem foldResidue_eq {q a acc : Int} (hq : 0 < q) (hq' : q < 2 ^ 31) (ha : 0 ≤ a ∧ a < q)
    (hacc : |acc| ≤ 2 ^ 62) : foldResidue q a acc = some ((a + acc) % q) := by
  obtain ⟨hlo, hhi⟩ := abs_le.mp hacc
  obtain ⟨hpos, hlt, hmod⟩ := emod_of_tmod hq (a + acc)
  have hsum : Fits (a + acc) := ⟨by omega, by omega⟩
  have hrem : Fits ((a + acc).tmod q + q) := ⟨by omega, by omega⟩
  rw [foldResidue, checked_of_fits hsum, Option.bind_eq_bind, Option.bind_some,
    checked_of_fits hrem, Option.bind_some, hmod]

/-- The residues of the sum `total`, short of what is in the accumulator. -/
structure Residues.Of (s : Residues) (total : Int) : Prop where
  first : s.a1 = (total - s.acc) % bxQ1
  second : s.a2 = (total - s.acc) % bxQ2

theorem bxQ1_pos : 0 < bxQ1 := by decide

theorem bxQ2_pos : 0 < bxQ2 := by decide

theorem residue_first (x : Int) : 0 ≤ x % bxQ1 ∧ x % bxQ1 < bxQ1 :=
  ⟨Int.emod_nonneg x bxQ1_pos.ne', Int.emod_lt_of_pos x bxQ1_pos⟩

theorem residue_second (x : Int) : 0 ≤ x % bxQ2 ∧ x % bxQ2 < bxQ2 :=
  ⟨Int.emod_nonneg x bxQ2_pos.ne', Int.emod_lt_of_pos x bxQ2_pos⟩

theorem Residues.fold_some {s : Residues} {total : Int} (h : s.Of total)
    (hacc : |s.acc| ≤ 2 ^ 62) :
    ∃ s', s.fold = some s' ∧ s'.Of total ∧ s'.acc = 0 ∧ s'.cnt = 0 := by
  have hfirst := foldResidue_eq bxQ1_pos (by decide) (h.first ▸ residue_first _) hacc
  have hsecond := foldResidue_eq bxQ2_pos (by decide) (h.second ▸ residue_second _) hacc
  rw [h.first, Int.emod_add_emod, sub_add_cancel] at hfirst
  rw [h.second, Int.emod_add_emod, sub_add_cancel] at hsecond
  refine ⟨{ a1 := total % bxQ1, a2 := total % bxQ2, acc := 0, cnt := 0 }, ?_, ?_, rfl, rfl⟩
  · rw [Residues.fold, h.first, h.second, hfirst, hsecond]
    rfl
  · exact ⟨by simp, by simp⟩

/-- One product more; at most 64 of them are in the accumulator at a time. -/
theorem Residues.mulAdd_some {s : Residues} {total x y : Int} (h : s.Of total)
    (hcnt : s.cnt < 64) (hacc : |s.acc| ≤ s.cnt * 2 ^ 56) (hprod : |x * y| ≤ 2 ^ 56) :
    ∃ s', s.mulAdd x y = some s' ∧ s'.Of (total + x * y) ∧ s'.cnt < 64 ∧
      |s'.acc| ≤ s'.cnt * 2 ^ 56 := by
  obtain ⟨hlo, hhi⟩ := abs_le.mp hacc
  obtain ⟨hlo', hhi'⟩ := abs_le.mp hprod
  have hnext : |s.acc + x * y| ≤ ((s.cnt + 1 : Nat) : Int) * 2 ^ 56 := by
    rw [abs_le]
    push_cast
    constructor <;> omega
  have hfull : |s.acc + x * y| ≤ 2 ^ 62 := hnext.trans (by push_cast; omega)
  have hfits : Fits (s.acc + x * y) := by
    obtain ⟨hlo, hhi⟩ := abs_le.mp hfull
    exact ⟨by omega, by omega⟩
  have hof : Residues.Of { s with acc := s.acc + x * y, cnt := s.cnt + 1 } (total + x * y) := by
    have hdiff : total + x * y - (s.acc + x * y) = total - s.acc := by omega
    exact ⟨by rw [hdiff]; exact h.first, by rw [hdiff]; exact h.second⟩
  have hstep : s.mulAdd x y =
      if s.cnt + 1 = 64 then Residues.fold { s with acc := s.acc + x * y, cnt := s.cnt + 1 }
      else some { s with acc := s.acc + x * y, cnt := s.cnt + 1 } := by
    rw [Residues.mulAdd, checked_of_fits ⟨by omega, by omega⟩, Option.bind_eq_bind,
      Option.bind_some, checked_of_fits hfits, Option.bind_some]
  rw [hstep]
  split
  case isTrue =>
      obtain ⟨s', hs', hof', hzero, hcnt'⟩ := Residues.fold_some hof hfull
      exact ⟨s', hs', hof', by omega, by rw [hzero, hcnt']; decide⟩
  case isFalse hmore => exact ⟨_, rfl, hof, by change s.cnt + 1 < 64; omega, hnext⟩

/-- No operation of Garner's step overflows, and it gives the centred representative. -/
theorem bxGarner_eq (x : Int) :
    bxGarner (x % bxQ1) (x % bxQ2) = some (Garner.centre bxModulus (x % bxModulus)) := by
  have hq1 : bxQ1 = 1073738753 := rfl
  have hq2 : bxQ2 = 1073732609 := rfl
  have hm : bxModulus = 1073738753 * 1073732609 := rfl
  have hinv : bxInvq1 = 894602413 := rfl
  obtain ⟨hlo1, hhi1⟩ := residue_first x
  obtain ⟨hlo2, hhi2⟩ := residue_second x
  obtain ⟨hpos, hlt, hmod⟩ := emod_of_tmod bxQ2_pos (x % bxQ2 - x % bxQ1)
  obtain ⟨hrem, hrem'⟩ := residue_second (x % bxQ2 - x % bxQ1)
  have hquot : ((x % bxQ2 - x % bxQ1) % bxQ2 * bxInvq1).tmod bxQ2 =
      (x % bxQ2 - x % bxQ1) * bxInvq1 % bxQ2 := by
    rw [Int.tmod_eq_emod_of_nonneg (mul_nonneg hrem (by decide))]
    exact (Int.mod_modEq _ _).mul_right _
  have hjoin : x % bxQ1 + bxQ1 * ((x % bxQ2 - x % bxQ1) * bxInvq1 % bxQ2) = x % bxModulus :=
    Garner.join_emod (by decide) (by decide) (by decide) x
  obtain ⟨hlast, hlast'⟩ := residue_second ((x % bxQ2 - x % bxQ1) * bxInvq1)
  have hlow := Int.emod_nonneg x (show bxModulus ≠ 0 by decide)
  have hhigh := Int.emod_lt_of_pos x (show 0 < bxModulus by decide)
  have hdiff : Fits (x % bxQ2 - x % bxQ1) := ⟨by omega, by omega⟩
  have hdiff' : Fits ((x % bxQ2 - x % bxQ1).tmod bxQ2 + bxQ2) := ⟨by omega, by omega⟩
  have hprod : Fits ((x % bxQ2 - x % bxQ1) % bxQ2 * bxInvq1) := by
    rw [hinv]
    constructor <;> omega
  have hterm : Fits (bxQ1 * ((x % bxQ2 - x % bxQ1) * bxInvq1 % bxQ2)) := by
    constructor <;> omega
  have htotal : Fits (x % bxModulus) := ⟨by omega, by omega⟩
  have hcentre : Fits (x % bxModulus - bxModulus) := ⟨by omega, by omega⟩
  simp only [bxGarner, checked_of_fits hdiff, checked_of_fits hdiff', Option.bind_eq_bind,
    Option.bind_some, hmod, checked_of_fits hprod, hquot, checked_of_fits hterm, hjoin,
    checked_of_fits htotal, checked_of_fits hcentre, Garner.centre]
  split <;> rfl

/-- The dot product as the kernel gets it. -/
theorem residueDot_eq {n : Nat} {x y : Nat → Int} (h : ∀ i, i < n → |x i * y i| ≤ 2 ^ 56) :
    residueDot n x y =
      some (Garner.centre bxModulus ((∑ i ∈ Finset.range n, x i * y i) % bxModulus)) := by
  have hloop : ∀ m, m ≤ n → ∃ s : Residues,
      (List.range m).foldlM (fun s i => s.mulAdd (x i) (y i)) Residues.zero = some s ∧
        s.Of (∑ i ∈ Finset.range m, x i * y i) ∧ s.cnt < 64 ∧ |s.acc| ≤ s.cnt * 2 ^ 56 := by
    intro m hm
    induction m with
    | zero => exact ⟨Residues.zero, rfl, ⟨rfl, rfl⟩, by decide, by decide⟩
    | succ m ih =>
        obtain ⟨s, hs, hof, hcnt, hacc⟩ := ih (by omega)
        obtain ⟨s', hs', hrest⟩ := Residues.mulAdd_some hof hcnt hacc (h m (by omega))
        refine ⟨s', ?_, ?_⟩
        · rw [List.range_succ, List.foldlM_append, hs]
          simpa using hs'
        · rwa [Finset.sum_range_succ]
  obtain ⟨s, hs, hof, hcnt, hacc⟩ := hloop n (le_refl n)
  have hfull : |s.acc| ≤ 2 ^ 62 := hacc.trans (by omega)
  -- the last chunk is folded in unless it is empty
  have hflush : ∃ s', s.flush = some s' ∧ s'.Of (∑ i ∈ Finset.range n, x i * y i) ∧
      s'.acc = 0 := by
    unfold Residues.flush
    split
    case isTrue =>
        obtain ⟨s', hs', hof', hzero, -⟩ := Residues.fold_some hof hfull
        exact ⟨s', hs', hof', hzero⟩
    case isFalse hempty =>
        have hnone : s.cnt = 0 := by simpa using hempty
        rw [hnone] at hacc
        exact ⟨s, rfl, hof, abs_nonpos_iff.mp (by simpa using hacc)⟩
  obtain ⟨s', hs', hof', hzero⟩ := hflush
  rw [residueDot, hs, Option.bind_eq_bind, Option.bind_some, hs', Option.bind_some, hof'.first,
    hof'.second, hzero, sub_zero]
  exact bxGarner_eq _

theorem residueDot_congr {n : Nat} {x x' y y' : Nat → Int} (hx : ∀ i, i < n → x i = x' i)
    (hy : ∀ i, i < n → y i = y' i) : residueDot n x y = residueDot n x' y' := by
  have hloop : (List.range n).foldlM (fun s i => s.mulAdd (x i) (y i)) Residues.zero =
      (List.range n).foldlM (fun s i => s.mulAdd (x' i) (y' i)) Residues.zero := by
    apply Traverse.foldlM_congr
    intro s i hi
    rw [hx i (List.mem_range.mp hi), hy i (List.mem_range.mp hi)]
  rw [residueDot, residueDot, hloop]

/-! The softmax on the grid -/

def gridOf (d : Int) : Int := d * 2 ^ 14 / 2 ^ 32

/-- A score that the shift to the grid takes. -/
def OnGrid (d : Int) : Prop := -2 ^ 49 ≤ d ∧ d < 2 ^ 49

theorem scoreGrid_some_iff (d : Int) : (∃ z, scoreGrid d = some z) ↔ OnGrid d := by
  unfold scoreGrid OnGrid
  simp only [Option.bind_eq_bind, Option.bind_eq_some_iff, checked_eq_some, Option.some.injEq]
  constructor
  · rintro ⟨-, -, ⟨hfits, -⟩, -⟩
    unfold Fits at hfits
    constructor <;> omega
  · rintro ⟨hlo, hhi⟩
    exact ⟨_, _, ⟨⟨by omega, by omega⟩, rfl⟩, rfl⟩

theorem scoreGrid_eq {d : Int} (h : OnGrid d) : scoreGrid d = some (gridOf d) := by
  obtain ⟨hlo, hhi⟩ := h
  rw [scoreGrid, checked_of_fits ⟨by omega, by omega⟩]
  rfl

theorem gridOf_bounds {d : Int} (h : OnGrid d) : -2 ^ 31 ≤ gridOf d ∧ gridOf d < 2 ^ 31 := by
  obtain ⟨hlo, hhi⟩ := h
  unfold gridOf
  constructor <;> omega

theorem gridOf_mono {d d' : Int} (h : d ≤ d') : gridOf d ≤ gridOf d' := by
  unfold gridOf
  omega

/-- The loop's result is one of the scores and none is above it. -/
theorem gridMax_spec {zs : List Int} (hne : zs ≠ []) :
    ∃ m, gridMax zs = some m ∧ m ∈ zs ∧ ∀ z ∈ zs, z ≤ m := by
  have hloop : ∀ (rest : List Int) (m : Int),
      (let top := rest.foldl (fun m z => if z > m then z else m) m
       (top = m ∨ top ∈ rest) ∧ m ≤ top ∧ ∀ z ∈ rest, z ≤ top) := by
    intro rest
    induction rest with
    | nil => simp
    | cons z rest ih =>
        intro m
        obtain ⟨hmem, hle, hall⟩ := ih (if z > m then z else m)
        refine ⟨?_, ?_, ?_⟩
        · rcases hmem with heq | hmem
          · rw [List.foldl_cons, heq]
            split <;> simp
          · exact .inr (List.mem_cons_of_mem _ hmem)
        · refine le_trans ?_ hle
          split <;> omega
        · intro z' hz'
          rcases List.mem_cons.mp hz' with rfl | hrest
          · refine le_trans ?_ hle
            split <;> omega
          · exact hall z' hrest
  cases zs with
  | nil => exact absurd rfl hne
  | cons z rest =>
      obtain ⟨hmem, hle, hall⟩ := hloop rest z
      refine ⟨_, rfl, ?_, ?_⟩
      · rcases hmem with heq | hmem
        · rw [heq]
          exact List.mem_cons_self
        · exact List.mem_cons_of_mem _ hmem
      · intro z' hz'
        rcases List.mem_cons.mp hz' with rfl | hrest
        · exact hle
        · exact hall z' hrest

/-- The weight of a score under the maximum. -/
def weightOf (mxz z : Int) : Int := (scoreWeight mxz z).getD 0

theorem scoreWeight_eq {mxz z : Int} (hm : -2 ^ 31 ≤ mxz ∧ mxz < 2 ^ 31)
    (hz : -2 ^ 31 ≤ z ∧ z < 2 ^ 31) :
    scoreWeight mxz z = some (weightOf mxz z) ∧
      bxExpFixed ((z - mxz) * 2 ^ 16) = some (weightOf mxz z) ∧
      0 ≤ weightOf mxz z ∧ weightOf mxz z ≤ bxOne := by
  have hdiff : Fits (z - mxz) := ⟨by omega, by omega⟩
  have hshift : Fits ((z - mxz) * 2 ^ 16) := ⟨by omega, by omega⟩
  obtain ⟨e, he, hbound⟩ := bxExpFixed_some (d := (z - mxz) * 2 ^ 16) (by omega)
  have hweight : scoreWeight mxz z = some e := by
    rw [scoreWeight, checked_of_fits hdiff, Option.bind_eq_bind, Option.bind_some,
      checked_of_fits hshift, Option.bind_some, he]
  have hvalue : weightOf mxz z = e := by rw [weightOf, hweight, Option.getD_some]
  rw [hvalue]
  exact ⟨hweight, he, hbound⟩

theorem weightOf_mono {mxz z z' : Int} (hm : -2 ^ 31 ≤ mxz ∧ mxz < 2 ^ 31)
    (hz : -2 ^ 31 ≤ z ∧ z < 2 ^ 31) (hz' : -2 ^ 31 ≤ z' ∧ z' < 2 ^ 31) (hle : z ≤ z') :
    weightOf mxz z ≤ weightOf mxz z' := by
  obtain ⟨-, he, -⟩ := scoreWeight_eq hm hz
  obtain ⟨-, he', -⟩ := scoreWeight_eq hm hz'
  exact bxExpFixed_mono (by omega) (by omega) he he'

theorem weightOf_top {mxz : Int} (hm : -2 ^ 31 ≤ mxz ∧ mxz < 2 ^ 31) :
    weightOf mxz mxz = bxOne := by
  obtain ⟨-, he, -⟩ := scoreWeight_eq hm hm
  have hzero : (mxz - mxz) * 2 ^ 16 = 0 := by omega
  rw [hzero, bxExpFixed, if_pos (le_refl _)] at he
  exact (Option.some.inj he).symm

theorem sum_some {ws : List Int} (hw : ∀ w ∈ ws, 0 ≤ w ∧ w ≤ bxOne) (hlen : ws.length < 2 ^ 32) :
    ws.foldlM (fun s e => checked (s + e)) 0 = some ws.sum ∧ 0 ≤ ws.sum ∧
      ws.sum ≤ ws.length * bxOne := by
  have hone : bxOne = 2 ^ 30 := rfl
  induction ws using List.reverseRecOn with
  | nil => exact ⟨rfl, by decide, by decide⟩
  | append_singleton ws w ih =>
      rw [List.length_append, List.length_singleton] at hlen
      obtain ⟨hsum, hlo, hhi⟩ := ih (fun w hw' => hw w (List.mem_append_left _ hw')) (by omega)
      obtain ⟨hw0, hw1⟩ := hw w (List.mem_append_right _ (List.mem_singleton_self w))
      rw [hone] at hhi hw1
      have hfits : Fits (ws.sum + w) := ⟨by omega, by omega⟩
      have htotal : (ws ++ [w]).sum = ws.sum + w := by simp
      rw [htotal, List.foldlM_append, hsum, List.length_append, List.length_singleton, hone]
      refine ⟨?_, by omega, by push_cast; omega⟩
      simp only [Option.bind_eq_bind, Option.bind_some, List.foldlM_cons, List.foldlM_nil,
        checked_of_fits hfits]
      rfl

/-- The serial part on scores that fit the grid. -/
theorem bxSoftmax_eq {ds : List Int} (hne : ds ≠ []) (hlen : ds.length < 2 ^ 32)
    (hd : ∀ d ∈ ds, OnGrid d) :
    ∃ mxz, gridMax (ds.map gridOf) = some mxz ∧ -2 ^ 31 ≤ mxz ∧ mxz < 2 ^ 31 ∧
      (∀ d ∈ ds, gridOf d ≤ mxz) ∧ (∃ d ∈ ds, gridOf d = mxz) ∧
      bxSoftmax ds = some (ds.map fun d => weightOf mxz (gridOf d),
        (ds.map fun d => weightOf mxz (gridOf d)).sum) := by
  have hne' : ds.map gridOf ≠ [] := by simpa using hne
  obtain ⟨mxz, hmax, hmem, hall⟩ := gridMax_spec hne'
  obtain ⟨top, htop, heq⟩ := List.mem_map.mp hmem
  have hm : -2 ^ 31 ≤ mxz ∧ mxz < 2 ^ 31 := heq ▸ gridOf_bounds (hd top htop)
  have hzs : ds.mapM scoreGrid = some (ds.map gridOf) :=
    Traverse.mapM_eq_some fun d hmem => scoreGrid_eq (hd d hmem)
  have hweights : (ds.map gridOf).mapM (scoreWeight mxz) =
      some ((ds.map gridOf).map (weightOf mxz)) := by
    apply Traverse.mapM_eq_some
    intro z hz
    obtain ⟨d, hmem, rfl⟩ := List.mem_map.mp hz
    exact (scoreWeight_eq hm (gridOf_bounds (hd d hmem))).1
  have hbounds : ∀ w ∈ (ds.map gridOf).map (weightOf mxz), 0 ≤ w ∧ w ≤ bxOne := by
    intro w hw
    obtain ⟨z, hz, rfl⟩ := List.mem_map.mp hw
    obtain ⟨d, hmem, rfl⟩ := List.mem_map.mp hz
    exact (scoreWeight_eq hm (gridOf_bounds (hd d hmem))).2.2
  have hsum := (sum_some hbounds (by simpa using hlen)).1
  rw [List.map_map] at hweights hsum
  refine ⟨mxz, hmax, hm.1, hm.2, ?_, ⟨top, htop, heq⟩, ?_⟩
  · exact fun d hmem => hall _ (List.mem_map_of_mem hmem)
  · simp only [bxSoftmax, hzs, hmax, hweights, Option.bind_eq_bind, Option.bind_some, hsum]
    rfl

/-- A softmax that has a value had scores, and all on the grid. -/
theorem bxSoftmax_some {ds : List Int} {r : List Int × Int} (h : bxSoftmax ds = some r) :
    ds ≠ [] ∧ ∀ d ∈ ds, OnGrid d := by
  simp only [bxSoftmax, Option.bind_eq_bind, Option.bind_eq_some_iff] at h
  obtain ⟨zs, hzs, mxz, hmax, -⟩ := h
  constructor
  · rintro rfl
    cases hzs
    cases hmax
  · exact fun d hd => (scoreGrid_some_iff d).mp (Traverse.mapM_mem hzs d hd)

/-! The two kernels -/

namespace AttnArgs

variable {F : Type*}

/-- The true dot product of the query and the `j`th key of the window. -/
def dot (enc : F → Int) (slot : Nat → Nat) (a : AttnArgs F) (j : Nat) : Int :=
  ∑ i ∈ Finset.range a.hd, a.ea enc i * a.eb enc slot j i

/-- The largest of them on the grid of the softmax. -/
def topGrid (enc : F → Int) (slot : Nat → Nat) (a : AttnArgs F) : Int :=
  (gridMax ((List.range a.len).map fun j => gridOf (a.dot enc slot j))).getD 0

/-- The weight that belongs to the true dot product. -/
def weight (enc : F → Int) (slot : Nat → Nat) (a : AttnArgs F) (j : Nat) : Int :=
  weightOf (a.topGrid enc slot) (gridOf (a.dot enc slot j))

/-- The true weighted sum of the values. -/
def weighted (enc : F → Int) (slot : Nat → Nat) (a : AttnArgs F) (i : Nat) : Int :=
  ∑ j ∈ Finset.range a.len, a.weight enc slot j * a.ev enc slot j i

/-- What the kernels' comments assume of the products, and a context in the range of an
`int`. -/
structure Headroom (enc : F → Int) (slot : Nat → Nat) (a : AttnArgs F) : Prop where
  ctx : a.ctx < 2 ^ 31
  scores : ∀ j, j < a.len → ∀ i, i < a.hd → |a.ea enc i * a.eb enc slot j i| ≤ 2 ^ 56
  values : ∀ j, j < a.len → ∀ i, i < a.hd → |a.ev enc slot j i| ≤ 2 ^ 25

/-- There is a position in the window, the true scores are within 49 bits, and the true
weighted sums within half the modulus. -/
structure Within (enc : F → Int) (slot : Nat → Nat) (a : AttnArgs F) : Prop where
  window : 0 < a.len
  scores : ∀ j, j < a.len → OnGrid (a.dot enc slot j)
  sums : ∀ i, i < a.hd → |a.weighted enc slot i| ≤ bxModulus / 2

/-- The integers are the true ones, and the weights are monotone in the scores, from the
largest down. -/
structure Exact (enc : F → Int) (slot : Nat → Nat) (a : AttnArgs F) (r : AttnInts) : Prop where
  scores : r.scores = (List.range a.len).map (a.dot enc slot)
  sum : r.sum = r.weights.sum
  nums : r.nums = (List.range a.hd).map fun i =>
    ∑ j ∈ Finset.range a.len, r.weights.getD j 0 * a.ev enc slot j i
  mono : ∀ j k, j < a.len → k < a.len → r.scores.getD j 0 ≤ r.scores.getD k 0 →
    r.weights.getD j 0 ≤ r.weights.getD k 0
  top : ∀ j, j < a.len → (∀ k, k < a.len → r.scores.getD k 0 ≤ r.scores.getD j 0) →
    r.weights.getD j 0 = bxOne

theorem modulus_half (x : Int) :
    Garner.centre bxModulus (x % bxModulus) = x ↔ |x| ≤ bxModulus / 2 :=
  Garner.centre_emod_iff (by decide) (by decide) x

theorem onGrid_half {d : Int} (h : OnGrid d) : |d| ≤ bxModulus / 2 := by
  have hm : bxModulus / 2 = 576454156321548288 := by decide
  obtain ⟨hlo, hhi⟩ := h
  rw [hm, abs_le]
  constructor <;> omega

section Exactness

variable {enc : F → Int} {slot : Nat → Nat} {a : AttnArgs F}

theorem scores_eq (h : a.Headroom enc slot) :
    a.scores enc slot = some ((List.range a.len).map fun j =>
      Garner.centre bxModulus (a.dot enc slot j % bxModulus)) :=
  Traverse.mapM_eq_some fun j hj => residueDot_eq (h.scores j (List.mem_range.mp hj))

theorem getD_map_range (f : Nat → Int) {n j : Nat} (hj : j < n) :
    ((List.range n).map f).getD j 0 = f j := by
  simp [List.getD_eq_getElem?_getD, hj]

theorem nums_eq (h : a.Headroom enc slot) {weights : List Int}
    (hw : ∀ j, j < a.len → 0 ≤ weights.getD j 0 ∧ weights.getD j 0 ≤ bxOne) :
    a.nums enc slot weights = some ((List.range a.hd).map fun i =>
      Garner.centre bxModulus
        ((∑ j ∈ Finset.range a.len, weights.getD j 0 * a.ev enc slot j i) % bxModulus)) := by
  apply Traverse.mapM_eq_some
  intro i hi
  apply residueDot_eq
  intro j hj
  obtain ⟨hw0, hw1⟩ := hw j hj
  have hv := h.values j hj i (List.mem_range.mp hi)
  rw [abs_mul, abs_of_nonneg hw0]
  calc weights.getD j 0 * |a.ev enc slot j i| ≤ bxOne * 2 ^ 25 :=
        mul_le_mul hw1 hv (abs_nonneg _) (by decide)
    _ ≤ 2 ^ 56 := by decide

/-- On true scores the softmax gives the weights that belong to them. -/
theorem softmax_dots (hlen : 0 < a.len) (hctx : a.ctx < 2 ^ 31)
    (hgrid : ∀ j, j < a.len → OnGrid (a.dot enc slot j)) :
    -2 ^ 31 ≤ a.topGrid enc slot ∧ a.topGrid enc slot < 2 ^ 31 ∧
      (∀ j, j < a.len → gridOf (a.dot enc slot j) ≤ a.topGrid enc slot) ∧
      (∃ j, j < a.len ∧ gridOf (a.dot enc slot j) = a.topGrid enc slot) ∧
      bxSoftmax ((List.range a.len).map (a.dot enc slot)) =
        some ((List.range a.len).map (a.weight enc slot),
          ((List.range a.len).map (a.weight enc slot)).sum) := by
  have hne : (List.range a.len).map (a.dot enc slot) ≠ [] := by
    intro hnil
    have hzero : a.len = 0 := by simpa using hnil
    omega
  have hlen' : ((List.range a.len).map (a.dot enc slot)).length < 2 ^ 32 := by
    have hle : a.len ≤ a.ctx := Nat.sub_le _ _
    rw [List.length_map, List.length_range]
    omega
  have hgrid' : ∀ d ∈ (List.range a.len).map (a.dot enc slot), OnGrid d := by
    intro d hd
    obtain ⟨j, hj, rfl⟩ := List.mem_map.mp hd
    exact hgrid j (List.mem_range.mp hj)
  obtain ⟨mxz, hmax, hlo, hhi, hall, ⟨d, hd, htop⟩, hsoftmax⟩ := bxSoftmax_eq hne hlen' hgrid'
  rw [List.map_map] at hmax
  have hmxz : a.topGrid enc slot = mxz := by
    have hmax' : gridMax ((List.range a.len).map fun j => gridOf (a.dot enc slot j)) = some mxz :=
      hmax
    rw [topGrid, hmax', Option.getD_some]
  rw [hmxz]
  refine ⟨hlo, hhi, ?_, ?_, ?_⟩
  · exact fun j hj => hall _ (List.mem_map_of_mem (List.mem_range.mpr hj))
  · obtain ⟨j, hj, rfl⟩ := List.mem_map.mp hd
    exact ⟨j, List.mem_range.mp hj, htop⟩
  · have hweight : (fun d => weightOf mxz (gridOf d)) ∘ a.dot enc slot = a.weight enc slot := by
      funext j
      rw [weight, hmxz]
      rfl
    rw [hsoftmax, List.map_map, hweight]

theorem weight_bounds (hlen : 0 < a.len) (hctx : a.ctx < 2 ^ 31)
    (hgrid : ∀ j, j < a.len → OnGrid (a.dot enc slot j)) {j : Nat} (hj : j < a.len) :
    0 ≤ a.weight enc slot j ∧ a.weight enc slot j ≤ bxOne := by
  obtain ⟨hlo, hhi, -⟩ := softmax_dots hlen hctx hgrid
  exact (scoreWeight_eq ⟨hlo, hhi⟩ (gridOf_bounds (hgrid j hj))).2.2

/-- What the block computes when the conditions are met. -/
theorem attnBx_within (h : a.Headroom enc slot) (hwithin : a.Within enc slot) :
    a.attnBx enc slot = some
      { scores := (List.range a.len).map (a.dot enc slot)
        weights := (List.range a.len).map (a.weight enc slot)
        sum := ((List.range a.len).map (a.weight enc slot)).sum
        nums := (List.range a.hd).map (a.weighted enc slot) } := by
  have hscores : a.scores enc slot = some ((List.range a.len).map (a.dot enc slot)) := by
    rw [scores_eq h]
    refine congrArg some (List.map_congr_left fun j hj => ?_)
    exact (modulus_half _).mpr (onGrid_half (hwithin.scores j (List.mem_range.mp hj)))
  obtain ⟨-, -, -, -, hsoftmax⟩ := softmax_dots hwithin.window h.ctx hwithin.scores
  have hnums : a.nums enc slot ((List.range a.len).map (a.weight enc slot)) =
      some ((List.range a.hd).map (a.weighted enc slot)) := by
    rw [nums_eq h]
    · refine congrArg some (List.map_congr_left fun i hi => ?_)
      have htrue : ∑ j ∈ Finset.range a.len,
          ((List.range a.len).map (a.weight enc slot)).getD j 0 * a.ev enc slot j i =
            a.weighted enc slot i :=
        Finset.sum_congr rfl fun j hj => by rw [getD_map_range _ (Finset.mem_range.mp hj)]
      rw [htrue]
      exact (modulus_half _).mpr (hwithin.sums i (List.mem_range.mp hi))
    · intro j hj
      rw [getD_map_range _ hj]
      exact weight_bounds hwithin.window h.ctx hwithin.scores hj
  simp only [attnBx, hscores, Option.bind_eq_bind, Option.bind_some, hsoftmax, hnums]

theorem exact_of_within (h : a.Headroom enc slot) (hwithin : a.Within enc slot) :
    ∃ r, a.attnBx enc slot = some r ∧ a.Exact enc slot r := by
  obtain ⟨hlo, hhi, hall, ⟨top, htop, htopEq⟩, -⟩ :=
    softmax_dots hwithin.window h.ctx hwithin.scores
  refine ⟨_, attnBx_within h hwithin, rfl, rfl, ?_, ?_, ?_⟩
  · refine List.map_congr_left fun i hi => Finset.sum_congr rfl fun j hj => ?_
    rw [getD_map_range _ (Finset.mem_range.mp hj)]
  · intro j k hj hk hle
    rw [getD_map_range _ hj, getD_map_range _ hk] at hle ⊢
    exact weightOf_mono ⟨hlo, hhi⟩ (gridOf_bounds (hwithin.scores j hj))
      (gridOf_bounds (hwithin.scores k hk)) (gridOf_mono hle)
  · intro j hj hmax
    have hle := hmax top htop
    rw [getD_map_range _ htop, getD_map_range _ hj] at hle
    have heq : gridOf (a.dot enc slot j) = a.topGrid enc slot :=
      le_antisymm (hall j hj) (htopEq ▸ gridOf_mono hle)
    rw [getD_map_range _ hj, weight, heq]
    exact weightOf_top ⟨hlo, hhi⟩

theorem within_of_exact (h : a.Headroom enc slot) {r : AttnInts}
    (hr : a.attnBx enc slot = some r) (hexact : a.Exact enc slot r) : a.Within enc slot := by
  simp only [attnBx, Option.bind_eq_bind, Option.bind_eq_some_iff] at hr
  obtain ⟨ds, hds, sm, hsm, ns, hns, heq⟩ := hr
  cases heq
  obtain ⟨hne, hgrid⟩ := bxSoftmax_some hsm
  have hdots : ds = (List.range a.len).map (a.dot enc slot) := hexact.scores
  have hlen : 0 < a.len := by
    rcases Nat.eq_zero_or_pos a.len with hzero | hpos
    · rw [hzero] at hdots
      exact absurd hdots hne
    · exact hpos
  have hscores : ∀ j, j < a.len → OnGrid (a.dot enc slot j) := by
    intro j hj
    apply hgrid
    rw [hdots]
    exact List.mem_map_of_mem (List.mem_range.mpr hj)
  obtain ⟨-, -, -, -, hsoftmax⟩ := softmax_dots hlen h.ctx hscores
  rw [hdots, hsoftmax] at hsm
  cases hsm
  refine ⟨hlen, hscores, fun i hi => ?_⟩
  have hbound : ∀ j, j < a.len →
      0 ≤ ((List.range a.len).map (a.weight enc slot)).getD j 0 ∧
        ((List.range a.len).map (a.weight enc slot)).getD j 0 ≤ bxOne := by
    intro j hj
    rw [getD_map_range _ hj]
    exact weight_bounds hlen h.ctx hscores hj
  rw [nums_eq h hbound] at hns
  have hnums := (Option.some.inj hns).trans hexact.nums
  have hi' := List.map_inj_left.mp hnums i (List.mem_range.mpr hi)
  have htrue : ∑ j ∈ Finset.range a.len,
      ((List.range a.len).map (a.weight enc slot)).getD j 0 * a.ev enc slot j i =
        a.weighted enc slot i :=
    Finset.sum_congr rfl fun j hj => by rw [getD_map_range _ (Finset.mem_range.mp hj)]
  rw [htrue] at hi'
  exact (modulus_half _).mp hi'

theorem exact_iff_within (h : a.Headroom enc slot) :
    (∃ r, a.attnBx enc slot = some r ∧ a.Exact enc slot r) ↔ a.Within enc slot := by
  constructor
  · rintro ⟨r, hr, hexact⟩
    exact within_of_exact h hr hexact
  · exact exact_of_within h

end Exactness

/-- The ring holds the rows of the window, each at the slot of its position. -/
structure HoldsRows (a : AttnArgs F) (wring : Nat) (kring vring : Nat → F) : Prop where
  fits : a.len ≤ wring
  keys : ∀ p, a.start ≤ p → p < a.ctx → ∀ i, i < a.hd →
    kring (a.row (p % wring) + i) = a.kc (a.row p + i)
  values : ∀ p, a.start ≤ p → p < a.ctx → ∀ i, i < a.hd →
    vring (a.row (p % wring) + i) = a.vc (a.row p + i)

/-- The launch over a ring: the same block with the ring's caches. -/
def overRing (a : AttnArgs F) (kring vring : Nat → F) : AttnArgs F :=
  { a with kc := kring, vc := vring }

/-- The two kernels compute the same, whatever that is. -/
theorem ring_eq_win {a : AttnArgs F} {wring : Nat} {kring vring : Nat → F}
    (h : a.HoldsRows wring kring vring) (enc : F → Int) :
    kAttnDecodeRingBx enc wring (a.overRing kring vring) = kAttnDecodeWinBx enc a := by
  have hpos : ∀ j, j < a.len → a.start + j < a.ctx := fun j hj => by
    unfold len at hj
    omega
  have hscores : (a.overRing kring vring).scores enc (fun j => (a.start + j) % wring) =
      a.scores enc fun j => a.start + j := by
    apply Traverse.mapM_congr
    intro j hj
    have hj' := List.mem_range.mp hj
    apply residueDot_congr
    · exact fun i hi => rfl
    · exact fun i hi => congrArg enc (h.keys _ (Nat.le_add_right _ _) (hpos j hj') i hi)
  have hnums : ∀ weights,
      (a.overRing kring vring).nums enc (fun j => (a.start + j) % wring) weights =
        a.nums enc (fun j => a.start + j) weights := by
    intro weights
    apply Traverse.mapM_congr
    intro i hi
    have hi' := List.mem_range.mp hi
    apply residueDot_congr
    · exact fun j hj => rfl
    · exact fun j hj => congrArg enc (h.values _ (Nat.le_add_right _ _) (hpos j hj) i hi')
  change (a.overRing kring vring).attnBx enc (fun j => (a.start + j) % wring) = a.attnBx enc _
  unfold attnBx
  rw [hscores]
  simp only [hnums]

/-- Over a full cache and over a ring the kernels compute the same integers. These are the
true ones exactly when there is a position in the window, the true scores are within 49 bits
and the true weighted sums within half the modulus. -/
theorem byte_exact_iff (enc : F → Int) (a : AttnArgs F) (wring : Nat) (kring vring : Nat → F)
    (h : a.Headroom enc fun j => a.start + j) (hrows : a.HoldsRows wring kring vring) :
    kAttnDecodeRingBx enc wring (a.overRing kring vring) = kAttnDecodeWinBx enc a ∧
      ((∃ r, kAttnDecodeWinBx enc a = some r ∧
          kAttnDecodeRingBx enc wring (a.overRing kring vring) = some r ∧
          a.Exact enc (fun j => a.start + j) r) ↔
        a.Within enc fun j => a.start + j) := by
  have hring := ring_eq_win hrows enc
  refine ⟨hring, ?_⟩
  rw [hring, ← exact_iff_within h]
  constructor
  · rintro ⟨r, hr, -, hexact⟩
    exact ⟨r, hr, hexact⟩
  · rintro ⟨r, hr, hexact⟩
    exact ⟨r, hr, hr, hexact⟩

/-- `ctx` positions with one element each, all the same. -/
def flat (ctx : Nat) (q k v : Int) : AttnArgs Int where
  q _ := q
  kc _ := k
  vc _ := v
  ctx := ctx
  kvd := 1
  hd := 1
  group := 1
  win := -1
  h := 0

theorem flat_len (ctx : Nat) (q k v : Int) : (flat ctx q k v).len = ctx := rfl

theorem flat_headroom {ctx : Nat} {q k v : Int} (hctx : ctx < 2 ^ 31) (hqk : |q * k| ≤ 2 ^ 56)
    (hv : |v| ≤ 2 ^ 25) (slot : Nat → Nat) : (flat ctx q k v).Headroom id slot where
  ctx := hctx
  scores _ _ _ _ := hqk
  values _ _ _ _ := hv

theorem flat_rows (ctx : Nat) (q k v : Int) :
    (flat ctx q k v).HoldsRows ctx (fun _ => k) fun _ => v where
  fits := by rw [flat_len]
  keys _ _ _ _ _ := rfl
  values _ _ _ _ _ := rfl

theorem byte_exact_two : ∃ r,
    kAttnDecodeWinBx id (flat 2 (3 * 2 ^ 16) (5 * 2 ^ 16) 7) = some r ∧
    kAttnDecodeRingBx id 2 ((flat 2 (3 * 2 ^ 16) (5 * 2 ^ 16) 7).overRing (fun _ => 5 * 2 ^ 16)
      fun _ => 7) = some r ∧
    (flat 2 (3 * 2 ^ 16) (5 * 2 ^ 16) 7).Exact id (fun j => 0 + j) r := by
  refine (byte_exact_iff id (flat 2 (3 * 2 ^ 16) (5 * 2 ^ 16) 7) 2 _ _
    (flat_headroom (by decide) (by decide) (by decide) _) (flat_rows 2 _ _ _)).2.mpr
    ⟨by decide, ?_, ?_⟩
  · intro j hj
    change OnGrid (∑ i ∈ Finset.range 1, 3 * 2 ^ 16 * (5 * 2 ^ 16))
    exact ⟨by decide, by decide⟩
  · intro i hi
    obtain rfl : i = 0 := Nat.lt_one_iff.mp hi
    decide

/-- Equal scores over 16 positions and values of 2^25: the sum of 16 products of 2^55 is past
half the modulus. -/
theorem flat_sixteen_inexact :
    ¬ ∀ (a : AttnArgs Int) (wring : Nat) (kring vring : Nat → Int),
      a.Headroom id (fun j => a.start + j) → a.HoldsRows wring kring vring →
        ∃ r, kAttnDecodeWinBx id a = some r ∧
          kAttnDecodeRingBx id wring (a.overRing kring vring) = some r ∧
          a.Exact id (fun j => a.start + j) r := by
  intro h
  have hroom : (flat 16 0 0 (2 ^ 25)).Headroom id fun j => (flat 16 0 0 (2 ^ 25)).start + j :=
    flat_headroom (by decide) (by decide) (by decide) _
  obtain ⟨r, hr, -, hexact⟩ := h _ 16 _ _ hroom (flat_rows 16 0 0 (2 ^ 25))
  have hsum := (within_of_exact hroom hr hexact).sums 0 (by decide)
  exact absurd hsum (by decide)

end AttnArgs

end ShannonPrime.Cuda
