import Mathlib.Data.List.Basic
import Mathlib.Tactic.Ring

/-!
Flat buffers read and written in blocks of one width. A loop that rewrites block after
block, each from its own old contents, is described cell by cell: inside it holds what
the block's own step computed from the block as it was before the loop, outside it
changed nothing.
-/

namespace ShannonPrime.Buffer

variable {F : Type*}

/-- The first `n` values of `f`, in order. -/
def vec (n : Nat) (f : Nat → F) : List F := (List.range n).map f

/-- The `n` cells from `off` on. -/
def slice (b : Nat → F) (off n : Nat) : List F := vec n fun i => b (off + i)

/-- The `n` cells from `off` on, overwritten. -/
def store (b : Nat → F) (off n : Nat) (v : Nat → F) : Nat → F :=
  fun a => if off ≤ a ∧ a < off + n then v (a - off) else b a

/-- Block after block from `off` on, each of width `w` and rewritten from its own
contents. -/
def forBlocks (off w n : Nat) (f : Nat → List F → Nat → F) (b : Nat → F) : Nat → F :=
  (List.range n).foldl
    (fun b i => store b (off + i * w) w (f i (slice b (off + i * w) w))) b

/-- The first `n` cells, each rewritten from its own contents. -/
def forCells (n : Nat) (f : Nat → F → F) (b : Nat → F) : Nat → F :=
  fun a => if a < n then f a (b a) else b a

variable {b b' : Nat → F} {off w n : Nat}

theorem vec_congr {f g : Nat → F} (h : ∀ i, i < n → f i = g i) : vec n f = vec n g := by
  unfold vec
  apply List.map_congr_left
  intro i hi
  exact h i (List.mem_range.mp hi)

theorem slice_congr {off' : Nat} (h : ∀ i, i < n → b (off + i) = b' (off' + i)) :
    slice b off n = slice b' off' n :=
  vec_congr h

theorem slice_eq_vec {f : Nat → F} (h : ∀ i, i < n → b (off + i) = f i) :
    slice b off n = vec n f :=
  vec_congr h

theorem store_inside {v : Nat → F} {i : Nat} (h : i < n) : store b off n v (off + i) = v i := by
  simp only [store]
  rw [if_pos (by omega), Nat.add_sub_cancel_left]

theorem store_outside {v : Nat → F} {a : Nat} (h : a < off ∨ off + n ≤ a) :
    store b off n v a = b a := by
  simp only [store]
  rw [if_neg (by omega)]

theorem store_congr {v v' : Nat → F} (h : ∀ i, i < n → v i = v' i) :
    store b off n v = store b off n v' := by
  funext a
  unfold store
  split
  · rename_i hin
    exact h _ (by omega)
  · rfl

@[simp] theorem forBlocks_zero (f : Nat → List F → Nat → F) : forBlocks off w 0 f b = b := rfl

theorem forBlocks_succ (f : Nat → List F → Nat → F) :
    forBlocks off w (n + 1) f b =
      store (forBlocks off w n f b) (off + n * w) w
        (f n (slice (forBlocks off w n f b) (off + n * w) w)) := by
  simp [forBlocks, List.range_succ, List.foldl_append]

/-- A block ends where the next one starts, so it ends before every later one. -/
theorem block_le {i j : Nat} (h : i < j) : i * w + w ≤ j * w := by
  calc i * w + w = (i + 1) * w := by ring
    _ ≤ j * w := Nat.mul_le_mul_right w h

theorem forBlocks_outside {f : Nat → List F → Nat → F} {a : Nat}
    (h : a < off ∨ off + n * w ≤ a) : forBlocks off w n f b a = b a := by
  induction n with
  | zero => rfl
  | succ n ih =>
      have hend : n * w + w ≤ (n + 1) * w := block_le (Nat.lt_succ_self n)
      rw [forBlocks_succ, store_outside (by omega)]
      apply ih
      omega

/-- Block `i` is only written in turn `i`: before, it is what it was. -/
theorem forBlocks_inside {f : Nat → List F → Nat → F} {i j : Nat} (hi : i < n) (hj : j < w) :
    forBlocks off w n f b (off + (i * w + j)) = f i (slice b (off + i * w) w) j := by
  induction n with
  | zero => exact absurd hi (Nat.not_lt_zero i)
  | succ n ih =>
      rw [forBlocks_succ]
      rcases Nat.lt_succ_iff_lt_or_eq.mp hi with hlt | rfl
      · have hbefore := block_le (w := w) hlt
        rw [store_outside (by omega)]
        exact ih hlt
      · have hfresh : slice (forBlocks off w i f b) (off + i * w) w = slice b (off + i * w) w := by
          apply slice_congr
          intro k hk
          apply forBlocks_outside
          omega
        rw [← Nat.add_assoc, store_inside hj, hfresh]

/-- Two nested loops over blocks are one. -/
theorem foldl_range_mul {S : Type*} (step : S → Nat → S) (s : S) (n m : Nat) :
    (List.range n).foldl (fun s t => (List.range m).foldl (fun s h => step s (t * m + h)) s) s =
      (List.range (n * m)).foldl step s := by
  induction n with
  | zero => simp
  | succ n ih =>
      rw [List.range_succ, List.foldl_append, ih, Nat.succ_mul, List.range_add,
        List.foldl_append, List.foldl_map]
      rfl

/-- Blocks of width `w` stored one after another fill their cells. -/
theorem foldl_store (f : Nat → F) (out : Nat → F) (w m : Nat) :
    (List.range m).foldl (fun out i => store out (w * i) w fun l => f (w * i + l)) out =
      forCells (w * m) (fun i _ => f i) out := by
  funext c
  induction m with
  | zero =>
      rw [List.range_zero, List.foldl_nil, Nat.mul_zero]
      exact (if_neg (Nat.not_lt_zero c)).symm
  | succ m ih =>
      have hend : w * (m + 1) = w * m + w := Nat.mul_succ w m
      rw [List.range_succ, List.foldl_append, List.foldl_cons, List.foldl_nil, hend]
      rcases Nat.lt_or_ge c (w * m) with hlt | hge
      · rw [store_outside (Or.inl hlt), ih, forCells, forCells, if_pos hlt, if_pos (by omega)]
      · rcases Nat.lt_or_ge c (w * m + w) with hin | hout
        · obtain ⟨l, rfl⟩ := Nat.exists_eq_add_of_le hge
          rw [store_inside (by omega), forCells, if_pos hin]
        · rw [store_outside (Or.inr hout), ih, forCells, forCells, if_neg (by omega),
            if_neg (by omega)]

/-- Cells stored one after another from `off` on. -/
theorem foldl_store_cells (f : Nat → F) (out : Nat → F) (off m : Nat) :
    (List.range m).foldl (fun out t => store out (off + t) 1 fun _ => f (off + t)) out =
      store out off m fun t => f (off + t) := by
  induction m with
  | zero =>
      funext a
      exact (if_neg (by omega)).symm
  | succ m ih =>
      rw [List.range_succ, List.foldl_append, ih, List.foldl_cons, List.foldl_nil]
      funext a
      unfold store
      grind

/-- So do the rows of `m` blocks each, stored row after row. -/
theorem foldl_store_rows (f : Nat → F) (out : Nat → F) (w m n : Nat) :
    (List.range n).foldl (fun out t => (List.range m).foldl (fun out h =>
        store out (t * (w * m) + w * h) w fun l => f (t * (w * m) + w * h + l)) out) out =
      forCells (n * (w * m)) (fun i _ => f i) out := by
  have hblock : ∀ t h, t * (w * m) + w * h = w * (t * m + h) := by
    intro t h
    ring
  have hcells : n * (w * m) = w * (n * m) := by ring
  simp only [hblock]
  rw [foldl_range_mul (fun out i => store out (w * i) w fun l => f (w * i + l)), foldl_store, hcells]

/-- The row of a cell of a row. -/
theorem index_div {t m i : Nat} (h : i < m) : (t * m + i) / m = t := by
  rw [Nat.mul_comm, Nat.mul_add_div (by omega), Nat.div_eq_of_lt h, Nat.add_zero]

theorem index_mod {t m i : Nat} (h : i < m) : (t * m + i) % m = i := by
  rw [Nat.mul_comm, Nat.mul_add_mod, Nat.mod_eq_of_lt h]

/-- `n` rows of width `w` from `off` on: row `t` holds `rows t`. -/
def Rows (b : Nat → F) (off w n : Nat) (rows : Nat → Nat → F) : Prop :=
  ∀ t, t < n → ∀ i, i < w → b (off + (t * w + i)) = rows t i

variable {rows : Nat → Nat → F}

theorem Rows.slice_eq {t : Nat} (h : Rows b off w n rows) (ht : t < n) :
    slice b (off + t * w) w = vec w (rows t) := by
  apply slice_eq_vec
  intro i hi
  rw [Nat.add_assoc]
  exact h t ht i hi

/-- A cell of a row lies below the end of the rows. -/
theorem cell_lt {t i : Nat} (ht : t < n) (hi : i < w) : t * w + i < n * w := by
  have := block_le (w := w) ht
  omega

theorem forBlocks_rows {f : Nat → List F → Nat → F}
    (h : ∀ t, t < n → ∀ i, i < w → f t (slice b (off + t * w) w) i = rows t i) :
    Rows (forBlocks off w n f b) off w n rows := by
  intro t ht i hi
  rw [forBlocks_inside ht hi]
  exact h t ht i hi

/-- A buffer combined cell by cell with another one. -/
theorem forCells_rows {op : F → F → F} {y : Nat → F} {ys : Nat → Nat → F}
    (hb : Rows b 0 w n rows) (hy : Rows y 0 w n ys) :
    Rows (forCells (n * w) (fun i a => op a (y i)) b) 0 w n
      (fun t i => op (rows t i) (ys t i)) := by
  intro t ht i hi
  have hcell := hb t ht i hi
  have hother := hy t ht i hi
  rw [Nat.zero_add] at hcell hother ⊢
  rw [forCells, if_pos (cell_lt ht hi), hcell, hother]

end ShannonPrime.Buffer
