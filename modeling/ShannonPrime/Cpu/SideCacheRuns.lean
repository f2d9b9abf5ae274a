import ShannonPrime.Cpu.SideCache
import Mathlib.Algebra.Order.Ring.Abs

/-!
When the side data belongs to the tensor in hand: as long as a call finds no tables of
another tensor under its address, and no row is so long that its unsigned dot leaves an
`int32_t`.
-/

namespace ShannonPrime.Cpu

open CInt

variable {F : Type*}

/-! ### The integers -/

theorem dpbusd_fold (a w : Nat → Int) (n l : Nat) :
    (List.range n).foldl (fun acc b => dpbusd acc a w (64 * b)) (fun _ => 0) l =
      wrap (∑ b ∈ Finset.range n, ∑ i ∈ Finset.range 4,
        a (64 * b + (4 * l + i)) * w (64 * b + (4 * l + i))) := by
  induction n with
  | zero => rfl
  | succ n ih =>
      rw [List.range_succ, List.foldl_append, List.foldl_cons, List.foldl_nil, dpbusd, ih,
        wrap_add_wrap, Finset.sum_range_succ _ n]

/-- The lanes together make the dot, up to wrapping. -/
theorem wrap_lanes (a w : Nat → Int) {cols : Nat} (hcols : cols % 64 = 0) :
    wrap (∑ l ∈ Finset.range 16, (List.range (cols / 64)).foldl
        (fun acc b => dpbusd acc a w (64 * b)) (fun _ => 0) l) =
      wrap (∑ k ∈ Finset.range cols, a k * w k) := by
  have hlanes : wrap (∑ l ∈ Finset.range 16, (List.range (cols / 64)).foldl
        (fun acc b => dpbusd acc a w (64 * b)) (fun _ => 0) l) =
      wrap (∑ l ∈ Finset.range 16, ∑ b ∈ Finset.range (cols / 64), ∑ i ∈ Finset.range 4,
        a (64 * b + (4 * l + i)) * w (64 * b + (4 * l + i))) := by
    apply wrap_sum
    intro l _
    rw [dpbusd_fold, wrap_of_fits (fits_wrap _)]
  have hblocks : cols = 64 * (cols / 64) := by omega
  rw [hlanes, Finset.sum_comm]
  conv_rhs => rw [hblocks]
  rw [← Reduction.sum_blocks 64 (cols / 64) fun k => a k * w k]
  congr 1
  apply Finset.sum_congr rfl
  intro b _
  exact Reduction.sum_blocks 4 16 fun r => a (64 * b + r) * w (64 * b + r)

/-- A byte is the quantised activation plus 128. -/
theorem shifted_dot (n : Nat) (w q : Nat → Int) :
    ∑ k ∈ Finset.range n, (q k + 128) * w k =
      ∑ k ∈ Finset.range n, w k * q k + 128 * ∑ k ∈ Finset.range n, w k := by
  rw [Finset.mul_sum, ← Finset.sum_add_distrib]
  apply Finset.sum_congr rfl
  intro k _
  ring

theorem mul_bounds {x y X lo hi : Int} (hx : 0 ≤ x ∧ x ≤ X) (hy : lo ≤ y ∧ y ≤ hi) (hlo : lo ≤ 0)
    (hhi : 0 ≤ hi) : X * lo ≤ x * y ∧ x * y ≤ X * hi := by
  constructor
  · calc X * lo ≤ x * lo := mul_le_mul_of_nonpos_right hx.2 hlo
      _ ≤ x * y := mul_le_mul_of_nonneg_left hy.1 hx.1
  · calc x * y ≤ x * hi := mul_le_mul_of_nonneg_left hy.2 hx.1
      _ ≤ X * hi := mul_le_mul_of_nonneg_right hx.2 hhi

/-- The longest row, in whole blocks of 64, whose unsigned dot always fits. -/
def maxRow : Nat := 65792

section Row

variable {w q : Nat → Int} {n : Nat}

theorem shiftedSum_eq {t : ArenaTensor F} {off : Nat} (hn : n ≤ maxRow) :
    t.shiftedSum off n = some (128 * ∑ k ∈ Finset.range n, t.codes (off + k)) := by
  unfold maxRow at hn
  have hbound := sum_bounds (n := n) (f := fun k => t.codes (off + k)) fun k _ => t.int8 (off + k)
  unfold ArenaTensor.shiftedSum
  rw [sum_eq (fun k _ => t.int8 (off + k)) (by norm_num) (by norm_num) (by omega) (by omega),
    Option.bind_some]
  apply checked_of_fits
  constructor <;> omega

/-- The unsigned dot less 128 times the row sum is the signed dot. -/
theorem vnniRow_eq (hn : n ≤ maxRow) (hblocks : n % 64 = 0)
    (hw : ∀ k, -128 ≤ w k ∧ w k ≤ 127) (hq : Quantised n q) :
    vnniRow n w (fun k => q k + 128) (128 * ∑ k ∈ Finset.range n, w k) =
      some (∑ k ∈ Finset.range n, w k * q k) := by
  unfold maxRow at hn
  have hbyte : ∀ k, k < n → 255 * (-128 : Int) ≤ (q k + 128) * w k ∧
      (q k + 128) * w k ≤ 255 * 127 := by
    intro k hk
    have := hq k hk
    exact mul_bounds (by omega) (hw k) (by norm_num) (by norm_num)
  have hunsigned := sum_bounds hbyte
  have hfits : Fits (∑ k ∈ Finset.range n, (q k + 128) * w k) := by
    constructor <;> omega
  have hdot : ∀ k, k < n → -(128 * 127 : Int) ≤ w k * q k ∧ w k * q k ≤ 128 * 127 := by
    intro k hk
    have hcode := hw k
    rw [← abs_le, abs_mul]
    exact mul_le_mul (abs_le.mpr ⟨by omega, by omega⟩) (abs_le.mpr (hq k hk)) (abs_nonneg _)
      (by norm_num)
  have hsigned := sum_bounds hdot
  unfold vnniRow
  dsimp only
  rw [wrap_lanes _ _ hblocks, wrap_of_fits hfits, shifted_dot, add_sub_cancel_right]
  apply checked_of_fits
  constructor <;> omega

/-- A block of 32 never overflows. -/
theorem q8blkBlock_eq (hw : ∀ k, -128 ≤ w k ∧ w k ≤ 127) {k : Nat}
    (hq : ∀ j, j < 32 → -127 ≤ q (k + j) ∧ q (k + j) ≤ 127) :
    q8blkBlock w (fun k => q k + 128) k (128 * ∑ j ∈ Finset.range 32, w (k + j)) =
      ∑ j ∈ Finset.range 32, w (k + j) * q (k + j) := by
  have hlane : ∀ l ∈ Finset.range 8, dpbusd (fun _ => 0) (fun k => q k + 128) w k l =
      ∑ i ∈ Finset.range 4, (q (k + (4 * l + i)) + 128) * w (k + (4 * l + i)) := by
    intro l hl
    have hlt := Finset.mem_range.mp hl
    have hbyte : ∀ i, i < 4 →
        255 * (-128 : Int) ≤ (q (k + (4 * l + i)) + 128) * w (k + (4 * l + i)) ∧
          (q (k + (4 * l + i)) + 128) * w (k + (4 * l + i)) ≤ 255 * 127 := by
      intro i hi
      have := hq (4 * l + i) (by omega)
      exact mul_bounds (by omega) (hw _) (by norm_num) (by norm_num)
    have hsum := sum_bounds hbyte
    unfold dpbusd
    dsimp only
    rw [zero_add]
    apply wrap_of_fits
    constructor <;> omega
  unfold q8blkBlock
  rw [Finset.sum_congr rfl hlane,
    Reduction.sum_blocks 4 8 fun r => (q (k + r) + 128) * w (k + r),
    shifted_dot 32 (fun r => w (k + r)) fun r => q (k + r), add_sub_cancel_right]

/-- Row lengths beyond the bound do overflow, on codes and activations of full size. -/
theorem vnniRow_exact_iff (hblocks : n % 64 = 0) :
    (∀ w q : Nat → Int, (∀ k, -128 ≤ w k ∧ w k ≤ 127) → Quantised n q →
      vnniRow n w (fun k => q k + 128) (128 * ∑ k ∈ Finset.range n, w k) =
        some (∑ k ∈ Finset.range n, w k * q k)) ↔ n ≤ maxRow := by
  constructor
  · intro h
    have hfull := h (fun _ => -128) (fun _ => 127) (by intro k; norm_num)
      (by intro k _; norm_num)
    unfold vnniRow at hfull
    dsimp only at hfull
    rw [wrap_lanes _ _ hblocks, checked_eq_some] at hfull
    simp only [Finset.sum_const, Finset.card_range, nsmul_eq_mul] at hfull
    have hwrapped := fits_wrap ((n : Int) * ((127 + 128) * -128))
    unfold Fits at hwrapped
    unfold maxRow
    omega
  · intro hn w q hw hq
    exact vnniRow_eq hn hblocks hw hq

end Row

theorem shiftedSum_block (t : ArenaTensor F) (off : Nat) :
    t.shiftedSum off 32 = some (128 * ∑ k ∈ Finset.range 32, t.codes (off + k)) :=
  shiftedSum_eq (by unfold maxRow; norm_num)

/-! ### The cache -/

/-- An entry with tables has the tables of the tensor. -/
structure SideEntry.Of (div127 : F → F) (e : SideEntry F) (t : ArenaTensor F) : Prop where
  allQ8 : e.allQ8 = true → t.allQ8 t.cols t.rows = true
  bias : e.allQ8 = true → e.bias = some (t.biasTable t.cols t.rows)
  rs : e.allQ8 = true → e.rs = some (t.scaleTable div127 t.rows)
  wblk : e.allQ8 = true → e.wblk.isSome → e.wblk = some (t.blockTable t.cols t.rows)

theorem newEntry_of (div127 : F → F) (t : ArenaTensor F) (key : Nat) (ok : Allocs) :
    (t.newEntry div127 key t.cols t.rows ok).Of div127 t := by
  unfold ArenaTensor.newEntry
  split
  · rename_i h
    constructor
    · intro _
      exact h.1
    · intro _
      rfl
    · intro _
      rfl
    · dsimp only
      split
      · intro _ _
        rfl
      · intro _ hsome
        cases hsome
  · constructor <;> intro h <;> cases h

/-- Every entry was made from its origin. -/
def CacheMade (div127 : F → F) (cache : List (SideEntry F)) : Prop :=
  ∀ e ∈ cache, e.Of div127 e.origin

/-- The entries with tables under an address are those of a tensor. -/
def KeyOf (cache : List (SideEntry F)) (key : Nat) (t : ArenaTensor F) : Prop :=
  ∀ e ∈ cache, e.key = key → e.allQ8 = true → e.origin = t

variable {div127 : F → F} {t : ArenaTensor F} {key : Nat}

theorem SideEntry.Of.of_origin {e : SideEntry F} (h : e.Of div127 e.origin)
    (hsame : e.allQ8 = true → e.origin = t) : e.Of div127 t := by
  by_cases helig : e.allQ8 = true
  · rwa [hsame helig] at h
  · constructor <;> intro h' <;> exact absurd h' helig

section Get

variable {cache : List (SideEntry F)}

theorem newEntry_origin (key inn out : Nat) (ok : Allocs) :
    (t.newEntry div127 key inn out ok).origin = t := by
  unfold ArenaTensor.newEntry
  split <;> rfl

theorem vnniGet_made (t : ArenaTensor F) (key : Nat) (ok : Allocs)
    (hcache : CacheMade div127 cache) :
    CacheMade div127 (vnniGet div127 t key t.cols t.rows ok cache).2 := by
  unfold vnniGet
  split
  · exact hcache
  · split
    · exact hcache
    · intro e he
      rcases List.mem_append.mp he with hold | hnew
      · exact hcache e hold
      · rw [List.mem_singleton.mp hnew, newEntry_origin]
        exact newEntry_of div127 t key ok

/-- `vnni_get` leaves no tables of another tensor under the address. -/
theorem vnniGet_keyOf (div127 : F → F) (ok : Allocs) (hkey : KeyOf cache key t) :
    KeyOf (vnniGet div127 t key t.cols t.rows ok cache).2 key t := by
  unfold vnniGet
  split
  · exact hkey
  · split
    · exact hkey
    · intro e he
      rcases List.mem_append.mp he with hold | hnew
      · exact hkey e hold
      · rw [List.mem_singleton.mp hnew]
        intro _ _
        exact newEntry_origin key t.cols t.rows ok

/-- `vnni_get` returns an entry of the tensor in hand when the address has no tables of
another one. -/
theorem vnniGet_of {e : SideEntry F} (ok : Allocs) (hcache : CacheMade div127 cache)
    (hkey : KeyOf cache key t) (he : (vnniGet div127 t key t.cols t.rows ok cache).1 = some e) :
    e.Of div127 t := by
  unfold vnniGet at he
  split at he
  · rename_i e' hfind
    cases he
    have hmem := List.mem_of_find?_eq_some hfind
    have hsame : e.key = key := by simpa using List.find?_some hfind
    exact (hcache e hmem).of_origin (hkey e hmem hsame)
  · split at he
    · cases he
    · cases he
      exact newEntry_of div127 t key ok

end Get

/-! ### The paths -/

section Paths

variable {kn : Knobs} {ok : Allocs} {s : ArenaState F}

theorem q8blkPath_made (t : ArenaTensor F) (key : Nat) (kn : Knobs) (ok : Allocs)
    (hcache : CacheMade div127 s.cache) :
    CacheMade div127 (q8blkPath div127 t key t.cols t.rows kn ok s).2.cache ∧
      (q8blkPath div127 t key t.cols t.rows kn ok s).2.live = s.live := by
  have hmade := vnniGet_made t key ok hcache
  unfold q8blkPath
  split
  · dsimp only
    split
    · exact ⟨hmade, rfl⟩
    · split <;> exact ⟨hmade, rfl⟩
  · exact ⟨hcache, rfl⟩

theorem vnniPath_made (t : ArenaTensor F) (key : Nat) (kn : Knobs) (ok : Allocs)
    (hcache : CacheMade div127 s.cache) :
    CacheMade div127 (vnniPath div127 t key t.cols t.rows kn ok s).2.cache ∧
      (vnniPath div127 t key t.cols t.rows kn ok s).2.live = s.live := by
  have hmade := vnniGet_made t key ok hcache
  unfold vnniPath
  split
  · dsimp only
    split
    · exact ⟨hmade, rfl⟩
    · split <;> exact ⟨hmade, rfl⟩
  · exact ⟨hcache, rfl⟩

theorem q8blkPath_keyOf (div127 : F → F) (kn : Knobs) (ok : Allocs)
    (hkey : KeyOf s.cache key t) :
    KeyOf (q8blkPath div127 t key t.cols t.rows kn ok s).2.cache key t := by
  have hget := vnniGet_keyOf div127 ok hkey
  unfold q8blkPath
  split
  · dsimp only
    split
    · exact hget
    · split <;> exact hget
  · exact hkey

/-- The per-block path runs with an entry of the tensor that has block tables. -/
theorem q8blkPath_of {e : SideEntry F} (hcache : CacheMade div127 s.cache)
    (hkey : kn.q8blk → ¬ kn.scalar → kn.hasVnni → KeyOf s.cache key t)
    (he : (q8blkPath div127 t key t.cols t.rows kn ok s).1 = some e) :
    e.Of div127 t ∧ e.allQ8 = true ∧ e.wblk.isSome := by
  unfold q8blkPath at he
  split at he
  · rename_i hknobs
    have hkey' := hkey hknobs.1 hknobs.2.1 hknobs.2.2.1
    dsimp only at he
    split at he
    · cases he
    · rename_i e' hget
      split at he
      · rename_i helig
        dsimp only at he
        split at he
        · cases he
          exact ⟨vnniGet_of ok hcache hkey' hget, helig.1, helig.2⟩
        · cases he
      · cases he
  · cases he

/-- The per-vector path runs with an entry of the tensor. -/
theorem vnniPath_of {e : SideEntry F} (hcache : CacheMade div127 s.cache)
    (hkey : kn.vnni → ¬ kn.scalar → kn.hasVnni → KeyOf s.cache key t)
    (he : (vnniPath div127 t key t.cols t.rows kn ok s).1 = some e) :
    e.Of div127 t ∧ e.allQ8 = true ∧ t.cols % 64 = 0 ∧
      kn.vnni = true ∧ ¬ kn.scalar = true ∧ kn.hasVnni = true := by
  unfold vnniPath at he
  split at he
  · rename_i hknobs
    have hkey' := hkey hknobs.1 hknobs.2.1 hknobs.2.2.1
    dsimp only at he
    split at he
    · cases he
    · rename_i e' hget
      split at he
      · rename_i helig
        dsimp only at he
        split at he
        · cases he
          exact ⟨vnniGet_of ok hcache hkey' hget, helig, hknobs.2.2.2, hknobs.1, hknobs.2.1,
            hknobs.2.2.1⟩
        · cases he
      · cases he
  · cases he

theorem rowOff_eq {i : Nat} (h : t.allQ8 t.cols t.rows = true) (hi : i < t.rows) :
    t.rowOff i = i * t.cols := by
  have := List.all_eq_true.mp h i (List.mem_range.mpr hi)
  simp only [Bool.decide_and, Bool.and_eq_true, decide_eq_true_eq] at this
  exact this.2

/-- The per-vector path with the tensor's own entry makes the tensor's signed dots. -/
theorem own_vnni {e : SideEntry F} (hof : e.Of div127 t) (helig : e.allQ8 = true)
    (hblocks : t.cols % 64 = 0) (hcols : t.cols ≤ maxRow) :
    ArenaPath.Own div127 t t.cols t.rows (.vnni e) := by
  refine ⟨helig.trans (hof.allQ8 helig).symm, hof.bias helig, hof.rs helig, ?_⟩
  intro q hq i hi
  refine ⟨128 * ∑ k ∈ Finset.range t.cols, t.codes (i * t.cols + k), ?_, ?_⟩
  · unfold ArenaTensor.biasTable
    rw [List.getElem?_map, List.getElem?_range hi]
    exact congrArg some (shiftedSum_eq hcols)
  · unfold ArenaTensor.dot
    rw [rowOff_eq (hof.allQ8 helig) hi]
    exact vnniRow_eq hcols hblocks (fun k => t.int8 _) hq

/-- The per-block path likewise, block by block. -/
theorem own_q8blk {e : SideEntry F} (hof : e.Of div127 t) (helig : e.allQ8 = true)
    (hwblk : e.wblk.isSome) : ArenaPath.Own div127 t t.cols t.rows (.q8blk e) := by
  refine ⟨helig.trans (hof.allQ8 helig).symm, hof.rs helig, hof.wblk helig hwblk, ?_⟩
  intro q hq i hi b hb
  refine ⟨(List.range (t.cols / 32)).map fun b => t.shiftedSum (i * t.cols + b * 32) 32,
    128 * ∑ k ∈ Finset.range 32, t.codes (i * t.cols + b * 32 + k), ?_, ?_, ?_⟩
  · unfold ArenaTensor.blockTable
    rw [List.getElem?_map, List.getElem?_range hi]
    rfl
  · rw [List.getElem?_map, List.getElem?_range hb]
    exact congrArg some (shiftedSum_block t _)
  · rw [rowOff_eq (hof.allQ8 helig) hi]
    have hblock := q8blkBlock_eq (w := fun k => t.codes (i * t.cols + k)) (q := q) (k := 32 * b)
      (fun k => t.int8 _) (fun j hj => hq _ (by omega))
    simpa only [Nat.add_assoc, Nat.mul_comm b 32] using hblock

theorem matmulArena_made {inn out : Nat} (hcache : CacheMade div127 s.cache) :
    CacheMade div127 (matmulArena div127 t key inn out kn ok s).2.cache ∧
      (matmulArena div127 t key inn out kn ok s).2.live = s.live := by
  unfold matmulArena
  split
  · exact ⟨hcache, rfl⟩
  · rename_i hdims
    obtain ⟨rfl, rfl⟩ : t.rows = out ∧ t.cols = inn := by omega
    obtain ⟨hmade, hlive⟩ := q8blkPath_made t key kn ok hcache
    split
    · rename_i hpath
      rw [hpath] at hmade hlive
      exact ⟨hmade, hlive⟩
    · rename_i s' hpath
      rw [hpath] at hmade hlive
      obtain ⟨hmade', hlive'⟩ := vnniPath_made t key kn ok hmade
      split
      · rename_i hpath'
        rw [hpath'] at hmade' hlive'
        exact ⟨hmade', hlive'.trans hlive⟩
      · rename_i hpath'
        rw [hpath'] at hmade' hlive'
        exact ⟨hmade', hlive'.trans hlive⟩

theorem matmulArena_own {inn out : Nat} (hcache : CacheMade div127 s.cache)
    (hfresh : (kn.q8blk ∨ kn.vnni) → ¬ kn.scalar → kn.hasVnni →
      KeyOf s.cache key t ∧ (kn.vnni → t.cols % 64 = 0 → t.cols ≤ maxRow)) :
    (matmulArena div127 t key inn out kn ok s).1.Own div127 t inn out := by
  unfold matmulArena
  split
  · trivial
  · rename_i hdims
    obtain ⟨rfl, rfl⟩ : t.rows = out ∧ t.cols = inn := by omega
    split
    · rename_i e s' hpath
      obtain ⟨hof, helig, hwblk⟩ := q8blkPath_of hcache
        (fun h1 h2 h3 => (hfresh (Or.inl h1) h2 h3).1) (congrArg Prod.fst hpath)
      exact own_q8blk hof helig hwblk
    · rename_i s' hpath
      have hmade := (q8blkPath_made t key kn ok hcache).1
      have hkey : KeyOf s.cache key t → KeyOf s'.cache key t := by
        intro h
        have := q8blkPath_keyOf div127 kn ok h
        rwa [hpath] at this
      rw [hpath] at hmade
      split
      · rename_i e s'' hpath'
        obtain ⟨hof, helig, hblocks, h1, h2, h3⟩ := vnniPath_of hmade
          (fun h1 h2 h3 => hkey (hfresh (Or.inr h1) h2 h3).1) (congrArg Prod.fst hpath')
        exact own_vnni hof helig hblocks ((hfresh (Or.inr h1) h2 h3).2 h1 hblocks)
      · trivial

end Paths

/-! ### Runs -/

/-- Every entry of a run was made from its origin. -/
theorem cacheMade_step (s : ArenaState F) (e : ArenaEvent F)
    (h : CacheMade div127 s.cache) : CacheMade div127 (s.step div127 e).cache := by
  cases e with
  | load addr t =>
      simp only [ArenaState.step]
      split <;> exact h
  | unload addr => exact h
  | matmul addr inn out kn ok =>
      simp only [ArenaState.step]
      split
      · exact h
      · exact (matmulArena_made h).1

/-- In a run whose calls find no tables of another tensor under their address, every call
that takes an int8 path uses the side data of the tensor in hand and makes its signed
dots. -/
theorem ownSideData_of_fresh (div127 : F → F) (events : List (ArenaEvent F))
    (hfresh : Runs.Each (ArenaState.step div127) (FreshSideData maxRow) ArenaState.init events) :
    Runs.Each (ArenaState.step div127) (OwnSideData div127) ArenaState.init events := by
  have hempty : CacheMade div127 (ArenaState.init : ArenaState F).cache := by
    intro e he
    cases he
  intro before e hbefore
  have hmade : CacheMade div127
      (Runs.after (ArenaState.step div127) ArenaState.init before).cache :=
    (Runs.always_of_step (P := fun s : ArenaState F => CacheMade div127 s.cache) hempty
      cacheMade_step).last
  have hcondition := hfresh before e hbefore
  cases e with
  | load addr t => trivial
  | unload addr => trivial
  | matmul addr inn out kn ok =>
      intro t hlive
      exact matmulArena_own hmade (hcondition t hlive)

/-! ### A reused address -/

/-- One row of 64 codes, all of them `c`. -/
def plainRow (c : Fin 128) : ArenaTensor Int where
  rows := 1
  cols := 64
  rowPrec := fun _ => 8
  rowOff := fun _ => 0
  rowScale := fun _ => 127
  codes := fun _ => c
  int8 := by intro k; omega

def vnniKnobs : Knobs := { q8blk := false, vnni := true, scalar := false, hasVnni := true }

def allOk : Allocs := { bias := true, rs := true, wblk := true, act := true, blk := true }

/-- A model is loaded, used and unloaded, and the next one gets the address. -/
def reusedAddress : List (ArenaEvent Int) :=
  [.load 16 (plainRow 1), .matmul 16 64 1 vnniKnobs allOk, .unload 16, .load 16 (plainRow 2),
    .matmul 16 64 1 vnniKnobs allOk]

/-- The second call takes the per-vector path with the row sums of the first tensor. -/
theorem reusedAddress_stale :
    ¬ Runs.Each (ArenaState.step fun x => x / 127) (OwnSideData fun x => x / 127)
      ArenaState.init reusedAddress := by
  intro h
  have hlast := h (reusedAddress.dropLast) (.matmul 16 64 1 vnniKnobs allOk)
    (List.prefix_refl _) (plainRow 2) rfl
  have hbias : some [some (128 * 64)] = some ((plainRow 2).biasTable 64 1) := hlast.2.1
  exact absurd hbias (by decide)

/-- A single load and call meet the condition. -/
theorem ownSideData_of_fresh_first :
    Runs.Each (ArenaState.step fun x => x / 127) (OwnSideData fun x => x / 127)
      ArenaState.init [.load 16 (plainRow 1), .matmul 16 64 1 vnniKnobs allOk] := by
  apply ownSideData_of_fresh
  rw [← List.nil_append [_, _], ← List.singleton_append, ← List.append_assoc, Runs.each_concat,
    Runs.each_concat]
  refine ⟨⟨Runs.each_nil, trivial⟩, ?_⟩
  rintro t ⟨⟩ _ _ _
  refine ⟨?_, fun _ _ => by decide⟩
  intro e he
  cases he

end ShannonPrime.Cpu
