import ShannonPrime.Hexagon.MatmulExact

/-!
The tiles of a matmul. Tile `i` is fetched from `i * r` padded rows into the block, while
the block's own rows are not padded, so beyond the first tile the path computes with other
bytes unless the row length is a multiple of 128.
-/

namespace ShannonPrime.Hexagon

open CInt

section Loop

variable {o : Operands} {out inn nTok r : Nat}

/-- What the tiles make of row `j`: the codes of the place it is looked for at, corrected
by the row sum of the row itself. -/
def Operands.tileDot (o : Operands) (inn r t j : Nat) : Int :=
  ∑ i ∈ Finset.range inn,
      (o.act t i + 128) * o.codes (j / r * r * align inn + (j % r * inn + i)) -
    128 * o.rowSum inn j

theorem tileRows_le (out r i : Nat) : tileRows out r i ≤ r := by
  unfold tileRows
  split <;> omega

theorem tileRows_end {i : Nat} (hi : i * r < out) : i * r + tileRows out r i ≤ out := by
  unfold tileRows
  split <;> omega

/-- The slot holds tile `i`. -/
def Fetched (codes : Nat → Int) (out inn r : Nat) (slots : Slots) (i : Nat) : Prop :=
  ∀ k, k < tileRows out r i * align inn → slots (slotOf i) k = codes (i * r * align inn + k)

theorem slotOf_succ (i : Nat) : slotOf i ≠ slotOf (i + 1) := by
  unfold slotOf
  rcases Nat.mod_two_eq_zero_or_one i with h | h
  · have hnext : (i + 1) % 2 = 1 := by omega
    simp [h, hnext]
  · have hnext : (i + 1) % 2 = 0 := by omega
    simp [h, hnext]

theorem prefetch_fetched (codes : Nat → Int) (out inn r : Nat) (slots : Slots) (i : Nat) :
    Fetched codes out inn r (prefetch codes slots (slotOf i) (i * r * align inn)
      (tileRows out r i * align inn)) i := by
  intro k hk
  unfold prefetch
  rw [if_pos rfl, ← Nat.zero_add k, Buffer.store_inside hk, Nat.zero_add]

/-- The transfer of the next tile leaves this one alone. -/
theorem nextSlots_fetched {codes : Nat → Int} {slots : Slots} {i : Nat}
    (h : Fetched codes out inn r slots i) (left : Nat) :
    Fetched codes out inn r (nextSlots out inn codes r left i slots) i ∧
      (0 < left → Fetched codes out inn r (nextSlots out inn codes r left i slots) (i + 1)) := by
  unfold nextSlots
  split
  case isTrue =>
    constructor
    · intro k hk
      unfold prefetch
      rw [if_neg (slotOf_succ i)]
      exact h k hk
    · exact fun _ => prefetch_fetched codes out inn r slots (i + 1)
  case isFalse hnone => exact ⟨h, fun hleft => absurd hleft hnone⟩

/-- Both halves of a tile. -/
theorem tile_cells (nTok : Nat) (hinn : inn ≤ maxIn) {slots : Slots} {i : Nat}
    (hi : i * r < out) (h : Fetched o.codes out inn r slots i) :
    ∃ cells, bothHalves (tileRows out r i) (halfTile o inn nTok (slots (slotOf i)) (i * r)
        ((List.range out).map (o.rowSum inn))) = some cells ∧
      cells.Perm (grid nTok (i * r) (i * r + tileRows out r i) (o.tileDot inn r)) := by
  apply bothHalves_eq
  intro a b _ hb
  have hend := tileRows_end hi
  have hcode : ∀ j k, j < b → k < inn →
      slots (slotOf i) (j * inn + k) = o.codes (i * r * align inn + (j * inn + k)) := by
    intro j k hj hk
    apply h
    have hrow : j * inn + k < tileRows out r i * inn := Buffer.cell_lt (hj.trans_le hb) hk
    have hpad := Nat.mul_le_mul_left (tileRows out r i) (le_align inn)
    omega
  apply halfRows_eq hinn (by omega)
  · intro j _ hj k hk
    rw [hcode j k hj hk]
    exact o.int8 _
  · intro t j _ hj
    have hlt : j < r := by
      have := tileRows_le out r i
      omega
    unfold Operands.tileDot
    rw [Buffer.index_div hlt, Buffer.index_mod hlt]
    congr 1
    apply Finset.sum_congr rfl
    intro k hk
    rw [hcode j k hj (Finset.mem_range.mp hk)]

/-- The loop from tile `i` on. -/
theorem tileLoop_eq (nTok : Nat) (hinn : inn ≤ maxIn) {left i : Nat} {slots : Slots}
    (hcount : (i + left) * r < out + r) (hlast : out ≤ (i + left) * r)
    (hslot : 0 < left → Fetched o.codes out inn r slots i) :
    ∃ cells, tileLoop o out inn nTok r ((List.range out).map (o.rowSum inn)) (fun _ => false)
        left i slots = some (true, cells) ∧
      cells.Perm (grid nTok (i * r) out (o.tileDot inn r)) := by
  induction left generalizing i slots with
  | zero =>
      refine ⟨[], rfl, ?_⟩
      rw [Nat.add_zero] at hlast
      rw [grid_empty hlast]
  | succ left ih =>
      have hi : i * r < out := by
        have hsplit : (i + (left + 1)) * r = i * r + left * r + r := by ring
        omega
      have hnext : (i + 1) * r = i * r + r := by ring
      have hshift : i + (left + 1) = i + 1 + left := by omega
      rw [hshift] at hcount hlast
      obtain ⟨hnow, hthen⟩ := nextSlots_fetched (hslot (Nat.succ_pos _)) left
      obtain ⟨cells, hcells, hperm⟩ := tile_cells nTok hinn hi hnow
      obtain ⟨rest, hrest, hperm'⟩ := ih hcount hlast hthen
      refine ⟨cells ++ rest, ?_, ?_⟩
      · unfold tileLoop
        dsimp only
        rw [hcells]
        simp only [Bool.false_eq_true, and_false, if_false, Option.bind_eq_bind, Option.bind_some]
        rw [hrest]
        rfl
      · have hends : grid nTok ((i + 1) * r) out (o.tileDot inn r) =
            grid nTok (i * r + tileRows out r i) out (o.tileDot inn r) := by
          unfold tileRows
          split
          · rw [hnext]
          · rw [grid_empty (by omega), grid_empty (by omega)]
        rw [hends] at hperm'
        exact (hperm.append hperm').trans
          (grid_append (Nat.le_add_right _ _) (tileRows_end hi))

theorem fitRows_pos (hinn : inn ≤ maxIn) (hpos : 0 < inn) : 128 ≤ fitRows inn := by
  unfold maxIn at hinn
  have hle : align inn ≤ 8192 := by
    unfold align
    omega
  have halign : 0 < align inn := lt_of_lt_of_le hpos (le_align inn)
  have hmany : 128 ≤ tileBytes / align inn := by
    rw [Nat.le_div_iff_mul_le halign]
    unfold tileBytes
    omega
  unfold fitRows
  omega

/-- The tiles store every cell once. -/
theorem tiled_eq (nTok : Nat) (hinn : inn ≤ maxIn) (hpos : 0 < inn) (hout : 0 < out) (slots : Slots) :
    ∃ cells, tiled o out inn nTok true ((List.range out).map (o.rowSum inn)) slots
        (fun _ => false) = some (true, cells) ∧
      cells.Perm (grid nTok 0 out (o.tileDot inn (rowsPerTile out inn))) := by
  have halign : align inn ≠ 0 := by
    have := le_align inn
    omega
  have hfit := fitRows_pos hinn hpos
  have hr : 0 < rowsPerTile out inn := by
    unfold rowsPerTile
    split <;> omega
  have hr' : rowsPerTile out inn ≤ out := by
    unfold rowsPerTile
    split <;> omega
  have hfirst : tileRows out (rowsPerTile out inn) 0 = rowsPerTile out inn := by
    unfold tileRows
    rw [if_pos (by omega)]
  have hdiv := Nat.div_add_mod (out + rowsPerTile out inn - 1) (rowsPerTile out inn)
  have hmod := Nat.mod_lt (out + rowsPerTile out inn - 1) hr
  rw [Nat.mul_comm] at hdiv
  have hstart : Fetched o.codes out inn (rowsPerTile out inn)
      (prefetch o.codes slots (slotOf 0) 0 (rowsPerTile out inn * align inn)) 0 := by
    have h := prefetch_fetched o.codes out inn (rowsPerTile out inn) slots 0
    rw [hfirst, Nat.zero_mul, Nat.zero_mul] at h
    exact h
  have hcount : (0 + (out + rowsPerTile out inn - 1) / rowsPerTile out inn) * rowsPerTile out inn <
      out + rowsPerTile out inn := by
    rw [Nat.zero_add]
    omega
  have hlast : out ≤
      (0 + (out + rowsPerTile out inn - 1) / rowsPerTile out inn) * rowsPerTile out inn := by
    rw [Nat.zero_add]
    omega
  obtain ⟨cells, hcells, hperm⟩ := tileLoop_eq nTok hinn hcount hlast fun _ => hstart
  refine ⟨cells, ?_, by simpa only [Nat.zero_mul] using hperm⟩
  unfold tiled
  rw [if_pos rfl, if_neg halign, if_neg (by omega)]
  dsimp only
  rw [if_neg (by omega), if_neg Bool.false_ne_true]
  exact hcells

end Loop

/-! ### All the paths -/

/-- The paths, with what their surroundings decide: whether the worker pool and the row
sums are there, what the VTCM held before, and where in it the block lies. -/
inductive MatmulPath where
  | v1
  | v2 (rsumOk : Bool)
  | dualCtx (poolOk rsumOk again : Bool)
  | vtcm (held : Nat → Int) (off : Nat) (poolOk : Bool)
  | tiled (poolOk : Bool) (held : Slots) (rsumOk again : Bool)

/-- What a path stores. A transfer is a copy that does not fail. -/
def MatmulPath.stores (o : Operands) (out inn nTok : Nat) : MatmulPath → Option (List Cell)
  | v1 => matmulV1 o out inn nTok
  | v2 rsumOk => matmulV2 o out inn nTok rsumOk
  | dualCtx poolOk rsumOk again => Hexagon.dualCtx o out inn nTok poolOk rsumOk again
  | vtcm held off poolOk => dualCtxV4 o out inn nTok held off poolOk
  | tiled poolOk held rsumOk again =>
      dispatchFfn o out inn nTok poolOk held (fun _ => false) rsumOk again

section Paths

variable {out inn nTok : Nat}

/-- Where the tiles look in the right place: the rows need no padding, or one tile holds
them all. -/
def TilesFit (out inn nTok : Nat) : Prop :=
  inn = 0 ∨ 0 < out ∧ (nTok = 0 ∨ inn % 128 = 0 ∨ out ≤ fitRows inn)

theorem tileDot_eq (o : Operands) (h : inn % 128 = 0 ∨ out ≤ fitRows inn) (t : Nat) {j : Nat}
    (hj : j < out) : o.tileDot inn (rowsPerTile out inn) t j = o.dot inn t j := by
  have hplace : j / rowsPerTile out inn * rowsPerTile out inn * align inn +
      j % rowsPerTile out inn * inn = j * inn := by
    rcases h with haligned | hone
    · rw [align_eq haligned, ← Nat.add_mul, Nat.mul_comm (j / _), Nat.div_add_mod]
    · have hlt : j < rowsPerTile out inn := by
        unfold rowsPerTile
        split <;> omega
      rw [Nat.div_eq_of_lt hlt, Nat.mod_eq_of_lt hlt, Nat.zero_mul, Nat.zero_mul, Nat.zero_add]
  rw [← unbias]
  unfold Operands.tileDot
  congr 1
  apply Finset.sum_congr rfl
  intro i _
  rw [← Nat.add_assoc, hplace]

/-- A tiled matmul that ends well is all that its dispatch does. -/
theorem dispatchFfn_tiles {o : Operands} (nTok : Nat) (hinn : inn ≤ maxIn) (hpos : 0 < inn)
    (hout : 0 < out)
    (held : Slots) (rsumOk again : Bool) :
    ∃ cells, dispatchFfn o out inn nTok true held (fun _ => false) rsumOk again = some cells ∧
      cells.Perm (grid nTok 0 out (o.tileDot inn (rowsPerTile out inn))) := by
  obtain ⟨cells, hcells, hperm⟩ := tiled_eq (o := o) nTok hinn hpos hout held
  refine ⟨cells, ?_, hperm⟩
  unfold dispatchFfn
  rw [computeRsum_eq hinn]
  simp only [Option.bind_eq_bind, Option.bind_some]
  rw [hcells]
  rfl

/-- A dispatch that declines the tiles leaves all the stores to the other path. -/
theorem dispatchFfn_declined {o : Operands} (hinn : inn ≤ maxIn) {poolOk : Bool}
    (h : poolOk = false ∨ inn = 0) (held : Slots) (dmaError : Nat → Bool) (rsumOk again : Bool) :
    Exact o out inn nTok (dispatchFfn o out inn nTok poolOk held dmaError rsumOk again) := by
  have hdeclined : ∀ rsum, tiled o out inn nTok poolOk rsum held dmaError = some (false, []) := by
    intro rsum
    unfold tiled
    rcases h with rfl | rfl
    · rw [if_neg Bool.false_ne_true]
    · rw [if_pos (show align 0 = 0 from rfl)]
      exact ite_self _
  obtain ⟨cells, hcells, hperm⟩ : Exact o out inn nTok (dualCtx o out inn nTok poolOk rsumOk again) :=
    dualCtx_exact hinn poolOk rsumOk again
  refine ⟨cells, ?_, hperm⟩
  unfold dispatchFfn
  rw [computeRsum_eq hinn]
  simp only [Option.bind_eq_bind, Option.bind_some, hdeclined, Bool.false_eq_true, if_false]
  rw [hcells]
  rfl

/-- A single code that is not zero, and activations of 1. -/
def spike (at0 : Nat) : Operands where
  codes := fun k => if k = at0 then 1 else 0
  act := fun _ _ => 1
  int8 := by
    intro k
    split <;> omega
  clamped := fun _ _ => by omega

theorem spike_rowSum {j : Nat} (hpos : 0 < inn) : (spike (j * inn)).rowSum inn j = 1 := by
  unfold Operands.rowSum rowSum
  rw [Finset.sum_eq_single 0]
  · exact if_pos (Nat.add_zero _)
  · intro i _ hi
    exact if_neg (by omega)
  · intro h
    exact absurd (Finset.mem_range.mpr hpos) h

theorem spike_dot {j : Nat} (hpos : 0 < inn) (t : Nat) : (spike (j * inn)).dot inn t j = 1 := by
  rw [← spike_rowSum hpos]
  unfold Operands.dot Operands.rowSum rowSum
  apply Finset.sum_congr rfl
  intro i _
  exact one_mul _

/-- The second tile does not find the code of its first row. -/
theorem spike_tileDot (hpos : 0 < inn) (hpad : inn % 128 ≠ 0) {r : Nat} (hr : 0 < r) (t : Nat) :
    (spike (r * inn)).tileDot inn r t r = -128 := by
  have hbeyond : r * inn < r * align inn := by
    apply Nat.mul_lt_mul_of_pos_left _ hr
    have hne := mt align_eq_iff.mp hpad
    have hle := le_align inn
    omega
  unfold Operands.tileDot
  rw [spike_rowSum hpos, Nat.div_self hr, Nat.mod_self, Nat.one_mul, Nat.zero_mul]
  rw [Finset.sum_eq_zero]
  · norm_num
  · intro i _
    have hmiss : (spike (r * inn)).codes (r * align inn + (0 + i)) = 0 := if_neg (by omega)
    rw [hmiss, mul_zero]

theorem grid_dot {dot dot' : Nat → Nat → Int}
    (h : (grid nTok 0 out dot).Perm (grid nTok 0 out dot')) {t j : Nat} (ht : t < nTok)
    (hj : j < out) : dot t j = dot' t j := by
  have hcell : (⟨t, j, dot t j, j⟩ : Cell) ∈ grid nTok 0 out dot :=
    mem_grid.mpr ⟨ht, ⟨Nat.zero_le _, hj⟩, rfl, rfl⟩
  exact (mem_grid.mp (h.mem_iff.mp hcell)).2.2.1

/-- Padded rows and more than one tile: the path stores a wrong integer. -/
theorem spike_not_exact (hinn : inn ≤ maxIn) (hpos : 0 < inn) (htok : 0 < nTok)
    (hpad : inn % 128 ≠ 0) (hmany : fitRows inn < out) (held : Slots) (rsumOk again : Bool) :
    ¬Exact (spike (fitRows inn * inn)) out inn nTok
      (dispatchFfn (spike (fitRows inn * inn)) out inn nTok true held (fun _ => false)
        rsumOk again) := by
  rintro ⟨cells, hcells, hperm⟩
  have hfit := fitRows_pos hinn hpos
  have hr : rowsPerTile out inn = fitRows inn := if_neg (by omega)
  have hout : 0 < out := by omega
  obtain ⟨cells', hcells', hperm'⟩ := dispatchFfn_tiles (o := spike (fitRows inn * inn)) nTok
    hinn hpos hout held rsumOk again
  obtain rfl : cells = cells' := Option.some.inj (hcells.symm.trans hcells')
  have hdot := grid_dot (hperm'.symm.trans hperm) htok hmany
  rw [hr, spike_tileDot hpos hpad (by omega), spike_dot hpos] at hdot
  omega

/-- No rows: the number of tiles is a division by zero. -/
theorem dispatchFfn_noRows {o : Operands} (hinn : inn ≤ maxIn) (hpos : 0 < inn) (held : Slots)
    (dmaError : Nat → Bool) (rsumOk again : Bool) :
    dispatchFfn o 0 inn nTok true held dmaError rsumOk again = none := by
  have halign : align inn ≠ 0 := by
    have := le_align inn
    omega
  have hfit := fitRows_pos hinn hpos
  have hnone : ∀ rsum, tiled o 0 inn nTok true rsum held dmaError = none := by
    intro rsum
    have hr : rowsPerTile 0 inn = 0 := if_pos (by omega)
    unfold tiled
    rw [if_pos rfl, if_neg halign, if_neg (by omega)]
    exact if_pos hr
  unfold dispatchFfn
  rw [computeRsum_eq hinn]
  simp only [Option.bind_eq_bind, Option.bind_some, hnone, Option.bind_none]

/-- Every path stores each cell once with the dot of its activation and its weight row, on
all codes and activations, exactly when the tiles look in the right place. -/
theorem matmulPaths_exact_iff (hinn : inn ≤ maxIn) :
    (∀ (o : Operands) (p : MatmulPath), Exact o out inn nTok (p.stores o out inn nTok)) ↔
      TilesFit out inn nTok := by
  constructor
  · intro h
    by_contra hfit
    have htiles : ∀ o, Exact o out inn nTok
        (dispatchFfn o out inn nTok true (fun _ _ => 0) (fun _ => false) true true) :=
      fun o => h o (.tiled true (fun _ _ => 0) true true)
    unfold TilesFit at hfit
    have hpos : 0 < inn := by omega
    rcases Nat.eq_zero_or_pos out with rfl | hout
    · obtain ⟨cells, hcells, -⟩ := htiles (spike 0)
      rw [dispatchFfn_noRows hinn hpos] at hcells
      cases hcells
    · exact spike_not_exact hinn hpos (by omega) (by omega) (by omega) _ _ _ (htiles _)
  · intro hfit o p
    cases p with
    | v1 => exact matmulV1_exact hinn
    | v2 rsumOk => exact matmulV2_exact hinn rsumOk
    | dualCtx poolOk rsumOk again => exact dualCtx_exact hinn poolOk rsumOk again
    | vtcm held off poolOk => exact dualCtxV4_exact hinn held off poolOk
    | tiled poolOk held rsumOk again =>
        cases poolOk with
        | false => exact dispatchFfn_declined hinn (Or.inl rfl) held _ rsumOk again
        | true =>
            rcases hfit with rfl | ⟨hout, hplace⟩
            · exact dispatchFfn_declined hinn (Or.inr rfl) held _ rsumOk again
            · rcases Nat.eq_zero_or_pos inn with rfl | hpos
              · exact dispatchFfn_declined hinn (Or.inr rfl) held _ rsumOk again
              · obtain ⟨cells, hcells, hperm⟩ := dispatchFfn_tiles (o := o) nTok
                  hinn hpos hout held rsumOk again
                refine ⟨cells, hcells, ?_⟩
                rcases hplace with rfl | hplace
                · exact hperm
                · rw [grid_congr fun t j _ _ hj => tileDot_eq o hplace t hj] at hperm
                  exact hperm

end Paths

/-- The gate of a Gemma-3 1B layer. -/
theorem matmulPaths_exact_gate :
    TilesFit 6912 1152 16 ∧
      ((∀ (o : Operands) (p : MatmulPath), Exact o 6912 1152 16 (p.stores o 6912 1152 16)) ↔
        TilesFit 6912 1152 16) := by
  constructor
  · exact Or.inr ⟨by decide, Or.inr (Or.inl (by decide))⟩
  · exact matmulPaths_exact_iff (by decide)

/-- Rows of 64 codes, one more of them than a tile holds. -/
theorem tiles_misplaced :
    64 ≤ maxIn ∧ ¬Exact (spike 524288) 8193 64 1
      (MatmulPath.stores (spike 524288) 8193 64 1 (.tiled true (fun _ _ => 0) true true)) := by
  constructor
  · decide
  · exact spike_not_exact (by decide) (by decide) (by decide) (by decide) (by decide) _ _ _

end ShannonPrime.Hexagon
