import ShannonPrime.Lib.CInt
import ShannonPrime.Lib.Reduction
import ShannonPrime.Lib.Runs
import Mathlib.Logic.Function.Basic

/-!
The int8 paths of `matmul_arena`: the side data of a packed tensor is computed once and
kept under the address of its codes. Nothing takes an entry out when the tensor is
unloaded, so an address that is given to another tensor brings the old side data with it.
-/

namespace ShannonPrime.Cpu

open CInt

/-- A packed tensor of the arena with what lies behind its `codes` pointer. -/
structure ArenaTensor (F : Type*) where
  rows : Nat
  cols : Nat
  rowPrec : Nat → Nat
  rowOff : Nat → Nat
  rowScale : Nat → F
  codes : Nat → Int
  int8 : ∀ k, -128 ≤ codes k ∧ codes k ≤ 127

variable {F : Type*}

/-! ### The kernels -/

/-- `_mm512_dpbusd_epi32` of the 64 bytes from `k` on: each lane adds four products. -/
def dpbusd (acc a w : Nat → Int) (k : Nat) : Nat → Int :=
  fun l => wrap (acc l + ∑ i ∈ Finset.range 4, a (k + (4 * l + i)) * w (k + (4 * l + i)))

/-- The integer of one row of `sp_avx512_vnni_matvec`: `dot - bias[i]`. -/
def vnniRow (cols : Nat) (w a : Nat → Int) (bias : Int) : Option Int :=
  let acc := (List.range (cols / 64)).foldl (fun acc b => dpbusd acc a w (64 * b)) fun _ => 0
  checked (wrap (∑ l ∈ Finset.range 16, acc l) - bias)

/-- The integers of one block of `sp_avx512_q8blk_matvec`: the eight partial sums of a
256-bit `dpbusd` on zero, and the block's bias, whose difference the floats make. -/
def q8blkBlock (w a : Nat → Int) (k : Nat) (bias : Int) : Int :=
  ∑ l ∈ Finset.range 8, dpbusd (fun _ => 0) a w k l - bias

/-! ### The side cache -/

/-- An entry. The tables are null pointers when the tensor has no int8 path or an
allocation failed; a number that overflows has no value. `origin` is no field of the
source: it is the tensor the entry was made from. -/
structure SideEntry (F : Type*) where
  key : Nat
  allQ8 : Bool
  bias : Option (List (Option Int))
  rs : Option (List F)
  wblk : Option (List (List (Option Int)))
  origin : ArenaTensor F

/-- Which of a call's allocations succeed. -/
structure Allocs where
  bias : Bool
  rs : Bool
  wblk : Bool
  act : Bool
  blk : Bool

def vnniCacheN : Nat := 1024

namespace ArenaTensor

variable (t : ArenaTensor F)

/-- Every row is Q8 and the rows are contiguous. -/
def allQ8 (inn out : Nat) : Bool :=
  (List.range out).all fun j => t.rowPrec j = 8 ∧ t.rowOff j = j * inn

/-- `128 * s` for the sum of `n` codes from `off` on. -/
def shiftedSum (off n : Nat) : Option Int :=
  (sum n fun k => t.codes (off + k)).bind fun s => checked (128 * s)

def biasTable (inn out : Nat) : List (Option Int) :=
  (List.range out).map fun j => t.shiftedSum (j * inn) inn

/-- `row_scale[j] / 127.0f` -/
def scaleTable (div127 : F → F) (out : Nat) : List F :=
  (List.range out).map fun j => div127 (t.rowScale j)

def blockTable (inn out : Nat) : List (List (Option Int)) :=
  (List.range out).map fun j =>
    (List.range (inn / 32)).map fun b => t.shiftedSum (j * inn + b * 32) 32

/-- The entry `vnni_get` makes for a tensor it has not seen. -/
def newEntry (div127 : F → F) (key inn out : Nat) (ok : Allocs) : SideEntry F :=
  if t.allQ8 inn out ∧ ok.bias ∧ ok.rs then
    { key
      allQ8 := true
      bias := some (t.biasTable inn out)
      rs := some (t.scaleTable div127 out)
      wblk := if inn % 32 = 0 ∧ ok.wblk then some (t.blockTable inn out) else none
      origin := t }
  else { key, allQ8 := false, bias := none, rs := none, wblk := none, origin := t }

end ArenaTensor

/-- `vnni_get` on the codes address `key`. -/
def vnniGet (div127 : F → F) (t : ArenaTensor F) (key inn out : Nat) (ok : Allocs)
    (cache : List (SideEntry F)) : Option (SideEntry F) × List (SideEntry F) :=
  match cache.find? fun e => e.key = key with
  | some e => (some e, cache)
  | none =>
      if vnniCacheN ≤ cache.length then (none, cache)
      else
        let e := t.newEntry div127 key inn out ok
        (some e, cache ++ [e])

/-! ### `matmul_arena` -/

/-- The knobs the environment sets. -/
structure Knobs where
  q8blk : Bool
  vnni : Bool
  scalar : Bool
  hasVnni : Bool

/-- The statics of the file, and the tensors alive by the address of their codes. -/
structure ArenaState (F : Type*) where
  live : Nat → Option (ArenaTensor F)
  cache : List (SideEntry F)
  actCap : Nat
  blkCap : Nat

/-- The way a call takes. -/
inductive ArenaPath (F : Type*) where
  | refused
  | q8blk (e : SideEntry F)
  | vnni (e : SideEntry F)
  | scalar

/-- A scratch buffer of at least `need`: its capacity, 0 for none. -/
def growScratch (cap need : Nat) (ok : Bool) : Nat :=
  if cap < need then if ok then need else 0 else cap

/-- The per-block path, when it is taken. -/
def q8blkPath (div127 : F → F) (t : ArenaTensor F) (key inn out : Nat) (kn : Knobs)
    (ok : Allocs) (s : ArenaState F) : Option (SideEntry F) × ArenaState F :=
  if kn.q8blk ∧ ¬ kn.scalar ∧ kn.hasVnni ∧ inn % 32 = 0 then
    let (e, cache) := vnniGet div127 t key inn out ok s.cache
    let s := { s with cache }
    match e with
    | none => (none, s)
    | some e =>
        if e.allQ8 ∧ e.wblk.isSome then
          let s := { s with
            actCap := growScratch s.actCap inn ok.act
            blkCap := growScratch s.blkCap (inn / 32) ok.blk }
          (if 0 < s.actCap ∧ 0 < s.blkCap then some e else none, s)
        else (none, s)
  else (none, s)

/-- The per-vector path, when it is taken. -/
def vnniPath (div127 : F → F) (t : ArenaTensor F) (key inn out : Nat) (kn : Knobs)
    (ok : Allocs) (s : ArenaState F) : Option (SideEntry F) × ArenaState F :=
  if kn.vnni ∧ ¬ kn.scalar ∧ kn.hasVnni ∧ inn % 64 = 0 then
    let (e, cache) := vnniGet div127 t key inn out ok s.cache
    let s := { s with cache }
    match e with
    | none => (none, s)
    | some e =>
        if e.allQ8 then
          let s := { s with actCap := growScratch s.actCap inn ok.act }
          (if 0 < s.actCap then some e else none, s)
        else (none, s)
  else (none, s)

/-- `matmul_arena` on a tensor whose codes are at `key`. -/
def matmulArena (div127 : F → F) (t : ArenaTensor F) (key inn out : Nat) (kn : Knobs)
    (ok : Allocs) (s : ArenaState F) : ArenaPath F × ArenaState F :=
  if t.rows ≠ out ∨ t.cols ≠ inn then (.refused, s)
  else
    match q8blkPath div127 t key inn out kn ok s with
    | (some e, s) => (.q8blk e, s)
    | (none, s) =>
        match vnniPath div127 t key inn out kn ok s with
        | (some e, s) => (.vnni e, s)
        | (none, s) => (.scalar, s)

/-! ### Runs -/

/-- What happens to the arena. A repack to large pages is an unload and a load of the same
tensor at its new address. -/
inductive ArenaEvent (F : Type*) where
  | load (addr : Nat) (t : ArenaTensor F)
  | unload (addr : Nat)
  | matmul (addr inn out : Nat) (kn : Knobs) (ok : Allocs)

/-- An allocation is never at an address in use. -/
def ArenaState.step (div127 : F → F) (s : ArenaState F) : ArenaEvent F → ArenaState F
  | .load addr t =>
      match s.live addr with
      | none => { s with live := Function.update s.live addr (some t) }
      | some _ => s
  | .unload addr => { s with live := Function.update s.live addr none }
  | .matmul addr inn out kn ok =>
      match s.live addr with
      | none => s
      | some t => (matmulArena div127 t addr inn out kn ok s).2

def ArenaState.init : ArenaState F where
  live := fun _ => none
  cache := []
  actCap := 0
  blkCap := 0

/-- A quantised activation vector: clamped, then shifted by 128 into a byte. -/
def Quantised (n : Nat) (q : Nat → Int) : Prop := ∀ k, k < n → -127 ≤ q k ∧ q k ≤ 127

/-- The signed dot of row `i` of the tensor in hand. -/
def ArenaTensor.dot (t : ArenaTensor F) (i n : Nat) (q : Nat → Int) : Int :=
  ∑ k ∈ Finset.range n, t.codes (t.rowOff i + k) * q k

/-- The path uses the side data of the tensor in hand, and the integers it makes from it
are the tensor's signed dots. -/
def ArenaPath.Own (div127 : F → F) (t : ArenaTensor F) (inn out : Nat) : ArenaPath F → Prop
  | .refused => True
  | .scalar => True
  | .vnni e =>
      e.allQ8 = t.allQ8 inn out ∧ e.bias = some (t.biasTable inn out) ∧
        e.rs = some (t.scaleTable div127 out) ∧
        ∀ q, Quantised inn q → ∀ i, i < out → ∃ b,
          (t.biasTable inn out)[i]? = some (some b) ∧
          vnniRow inn (fun k => t.codes (i * inn + k)) (fun k => q k + 128) b =
            some (t.dot i inn q)
  | .q8blk e =>
      e.allQ8 = t.allQ8 inn out ∧ e.rs = some (t.scaleTable div127 out) ∧
        e.wblk = some (t.blockTable inn out) ∧
        ∀ q, Quantised inn q → ∀ i, i < out → ∀ b, b < inn / 32 → ∃ row c,
          (t.blockTable inn out)[i]? = some row ∧ row[b]? = some (some c) ∧
          q8blkBlock (fun k => t.codes (i * inn + k)) (fun k => q k + 128) (32 * b) c =
            ∑ k ∈ Finset.range 32, t.codes (t.rowOff i + (32 * b + k)) * q (32 * b + k)

/-- The condition on a step: a call with an int8 path enabled finds no int8 tables of
another tensor under its address, and the rows of the per-vector path are not overlong. -/
def FreshSideData (maxRow : Nat) (s : ArenaState F) : ArenaEvent F → Prop
  | .matmul addr _ _ kn _ =>
      ∀ t, s.live addr = some t → (kn.q8blk ∨ kn.vnni) → ¬ kn.scalar → kn.hasVnni →
        (∀ e ∈ s.cache, e.key = addr → e.allQ8 = true → e.origin = t) ∧
          (kn.vnni → t.cols % 64 = 0 → t.cols ≤ maxRow)
  | _ => True

/-- What a step must do: a call on a live tensor uses that tensor's side data. -/
def OwnSideData (div127 : F → F) (s : ArenaState F) : ArenaEvent F → Prop
  | .matmul addr inn out kn ok =>
      ∀ t, s.live addr = some t → (matmulArena div127 t addr inn out kn ok s).1.Own div127 t inn out
  | _ => True

end ShannonPrime.Cpu
