import ShannonPrime.Hexagon.Matmul
import ShannonPrime.Lib.Traverse

/-!
What the paths store. Every path stores each cell of the output once, and a cell holds the
signed dot of its activation and its weight row. The tiles alone need a condition: they
look for the rows after the first tile at padded distances, where the block has none.
-/

namespace ShannonPrime.Hexagon

open CInt

/-- One store to each cell of the rows `[j0, j1)`. -/
def grid (nTok j0 j1 : Nat) (dot : Nat → Nat → Int) : List Cell :=
  (List.range nTok).flatMap fun t =>
    (List.range' j0 (j1 - j0)).map fun j => ⟨t, j, dot t j, j⟩

/-- The dot of an activation and a weight row. -/
def Operands.dot (o : Operands) (inn t j : Nat) : Int :=
  ∑ i ∈ Finset.range inn, o.act t i * o.codes (j * inn + i)

/-- A path whose integers all fit and which stores every cell once, with the dot. -/
def Exact (o : Operands) (out inn nTok : Nat) (stores : Option (List Cell)) : Prop :=
  ∃ cells, stores = some cells ∧ cells.Perm (grid nTok 0 out (o.dot inn))

section Grid

variable {nTok j0 j1 j2 : Nat} {dot dot' : Nat → Nat → Int}

theorem mem_grid {x : Cell} :
    x ∈ grid nTok j0 j1 dot ↔
      x.tok < nTok ∧ (j0 ≤ x.row ∧ x.row < j1) ∧ x.dot = dot x.tok x.row ∧ x.scale = x.row := by
  obtain ⟨t, j, d, s⟩ := x
  simp only [grid, List.mem_flatMap, List.mem_range, List.mem_map, List.mem_range'_1,
    Cell.mk.injEq]
  constructor
  · rintro ⟨t', ht, j', hj, rfl, rfl, rfl, rfl⟩
    exact ⟨ht, ⟨hj.1, by omega⟩, rfl, rfl⟩
  · rintro ⟨ht, hj, rfl, rfl⟩
    exact ⟨t, ht, s, ⟨hj.1, by omega⟩, rfl, rfl, rfl, rfl⟩

theorem grid_empty (h : j1 ≤ j0) : grid nTok j0 j1 dot = [] := by
  have hnone : j1 - j0 = 0 := by omega
  simp [grid, hnone]

/-- Rows split in two. -/
theorem grid_append (h : j0 ≤ j1) (h' : j1 ≤ j2) :
    (grid nTok j0 j1 dot ++ grid nTok j1 j2 dot).Perm (grid nTok j0 j2 dot) := by
  have hrows : List.range' j0 (j2 - j0) = List.range' j0 (j1 - j0) ++ List.range' j1 (j2 - j1) := by
    have hmid : j1 = j0 + 1 * (j1 - j0) := by omega
    have hlen : j2 - j0 = (j1 - j0) + (j2 - j1) := by omega
    conv_rhs => rw [hmid]
    rw [hlen, ← List.range'_append]
    congr 2 <;> omega
  unfold grid
  simp only [hrows, List.map_append]
  exact List.flatMap_append_perm ..

theorem grid_congr (h : ∀ t j, t < nTok → j0 ≤ j → j < j1 → dot t j = dot' t j) :
    grid nTok j0 j1 dot = grid nTok j0 j1 dot' := by
  unfold grid
  apply List.flatMap_congr
  intro t ht
  apply List.map_congr_left
  intro j hj
  obtain ⟨hlo, hhi⟩ := List.mem_range'_1.mp hj
  rw [h t j (List.mem_range.mp ht) hlo (by omega)]

theorem forCells_eq {base : Nat} {cell : Nat → Nat → Option Cell}
    (h : ∀ t j, t < nTok → j0 ≤ j → j < j1 →
      cell t j = some ⟨t, base + j, dot t (base + j), base + j⟩) :
    forCells nTok j0 j1 cell = some (grid nTok (base + j0) (base + j1) dot) := by
  have hrow : ∀ t ∈ List.range nTok, (List.range' j0 (j1 - j0)).mapM (cell t) =
      some ((List.range' (base + j0) (base + j1 - (base + j0))).map fun j => ⟨t, j, dot t j, j⟩) := by
    intro t ht
    have hshift : List.range' (base + j0) (base + j1 - (base + j0)) =
        (List.range' j0 (j1 - j0)).map fun j => base + j := by
      rw [List.map_add_range']
      congr 1
      omega
    rw [hshift, List.map_map]
    apply Traverse.mapM_eq_some
    intro j hj
    obtain ⟨hlo, hhi⟩ := List.mem_range'_1.mp hj
    exact h t j (List.mem_range.mp ht) hlo (by omega)
  unfold forCells
  rw [Traverse.mapM_eq_some hrow]
  rfl

end Grid

/-! ### The kernels -/

section Kernels

variable {o : Operands} {out inn nTok : Nat}

/-- The row sum of the block. -/
def Operands.rowSum (o : Operands) (inn j : Nat) : Int := Hexagon.rowSum o.codes inn j

theorem rowSum_bounds (hinn : inn ≤ maxIn) (j : Nat) :
    -1048576 ≤ o.rowSum inn j ∧ o.rowSum inn j ≤ 1048576 := by
  have hsum := sum_bounds (n := inn) (f := fun i => o.codes (j * inn + i)) fun i _ => o.int8 _
  unfold maxIn at hinn
  unfold Operands.rowSum rowSum
  omega

theorem computeRsum_eq (hinn : inn ≤ maxIn) :
    computeRsum o out inn = some ((List.range out).map (o.rowSum inn)) := by
  unfold maxIn at hinn
  apply Traverse.mapM_eq_some
  intro j _
  exact sum_eq (fun i _ => o.int8 _) (by norm_num) (by norm_num) (by omega) (by omega)

theorem actUb_bounds (t i : Nat) : 0 ≤ o.actUb inn t i ∧ o.actUb inn t i ≤ 255 := by
  have := o.clamped t i
  unfold Operands.actUb
  split <;> omega

/-- A byte product. -/
theorem byte_mul {a w : Int} (ha : 0 ≤ a ∧ a ≤ 255) (hw : -128 ≤ w ∧ w ≤ 127) :
    -32640 ≤ a * w ∧ a * w ≤ 32640 := by
  constructor
  · calc (-32640 : Int) ≤ a * -128 := by omega
      _ ≤ a * w := mul_le_mul_of_nonneg_left hw.1 ha.1
  · calc a * w ≤ a * 127 := mul_le_mul_of_nonneg_left hw.2 ha.1
      _ ≤ 32640 := by omega

/-- The biased dot of an activation with the codes of a row. -/
theorem lanesDot_eq (hinn : inn ≤ maxIn) {w : Nat → Int}
    (hw : ∀ i, i < inn → -128 ≤ w i ∧ w i ≤ 127) (t : Nat) :
    Lanes.dot (o.actUb inn t) w inn = some (∑ i ∈ Finset.range inn, (o.act t i + 128) * w i) := by
  unfold maxIn at hinn
  rw [Lanes.dot_eq (C := 32640) (fun i hi => byte_mul (actUb_bounds t i) (hw i hi)) (by norm_num)
    (by omega)]
  congr 1
  apply Finset.sum_congr rfl
  intro i hi
  rw [Operands.actUb, if_pos (Finset.mem_range.mp hi)]

/-- What a kernel makes of a row of codes and a row sum. -/
theorem trueDot_eq (hinn : inn ≤ maxIn) {w : Nat → Int}
    (hw : ∀ i, i < inn → -128 ≤ w i ∧ w i ≤ 127) {s : Int} (hs : -1048576 ≤ s ∧ s ≤ 1048576)
    (t : Nat) :
    trueDot (∑ i ∈ Finset.range inn, (o.act t i + 128) * w i) s =
      some (∑ i ∈ Finset.range inn, (o.act t i + 128) * w i - 128 * s) := by
  have hterm : ∀ i, i < inn →
      -32640 ≤ (o.act t i + 128) * w i ∧ (o.act t i + 128) * w i ≤ 32640 := by
    intro i hi
    have := o.clamped t i
    exact byte_mul (by omega) (hw i hi)
  have hdot := sum_bounds hterm
  unfold maxIn at hinn
  unfold trueDot
  rw [checked_of_fits (x := 128 * s) ⟨by omega, by omega⟩]
  apply checked_of_fits
  constructor <;> omega

/-- The bias comes off. -/
theorem unbias (t j : Nat) :
    ∑ i ∈ Finset.range inn, (o.act t i + 128) * o.codes (j * inn + i) - 128 * o.rowSum inn j =
      o.dot inn t j := by
  unfold Operands.rowSum rowSum Operands.dot
  rw [Finset.mul_sum, ← Finset.sum_sub_distrib]
  apply Finset.sum_congr rfl
  intro i _
  ring

/-- The half kernel on codes that are bytes. -/
theorem halfRows_eq (hinn : inn ≤ maxIn) {codes : Nat → Int} {base jStart jEnd : Nat}
    {dot : Nat → Nat → Int} (hend : base + jEnd ≤ out)
    (hcodes : ∀ j, jStart ≤ j → j < jEnd → ∀ i, i < inn →
      -128 ≤ codes (j * inn + i) ∧ codes (j * inn + i) ≤ 127)
    (hdot : ∀ t j, jStart ≤ j → j < jEnd →
      ∑ i ∈ Finset.range inn, (o.act t i + 128) * codes (j * inn + i) -
        128 * o.rowSum inn (base + j) = dot t (base + j)) :
    halfRows o inn nTok codes base ((List.range out).map (o.rowSum inn)) jStart jEnd =
      some (grid nTok (base + jStart) (base + jEnd) dot) := by
  apply forCells_eq
  intro t j _ hlo hhi
  have hrow : base + j < out := by omega
  have hw := hcodes j hlo hhi
  rw [lanesDot_eq hinn hw]
  simp only [List.getElem?_map, List.getElem?_range hrow, Option.map_some, Option.bind_eq_bind,
    Option.bind_some, Option.pure_def]
  rw [trueDot_eq hinn hw (rowSum_bounds hinn _), Option.bind_some, hdot t j hlo hhi]

/-- The half kernel on the codes of the block. -/
theorem half_eq (hinn : inn ≤ maxIn) {blk : Nat → Int}
    (hblk : ∀ k, k < out * inn → blk k = o.codes k) {jStart jEnd : Nat} (hend : jEnd ≤ out) :
    half o inn nTok blk ((List.range out).map (o.rowSum inn)) jStart jEnd =
      some (grid nTok jStart jEnd (o.dot inn)) := by
  have hcode : ∀ j i, j < jEnd → i < inn → blk (j * inn + i) = o.codes (j * inn + i) := by
    intro j i hj hi
    exact hblk _ (Buffer.cell_lt (hj.trans_le hend) hi)
  have hcells : halfRows o inn nTok blk 0 ((List.range out).map (o.rowSum inn)) jStart jEnd =
      some (grid nTok (0 + jStart) (0 + jEnd) (o.dot inn)) := by
    apply halfRows_eq hinn (by omega)
    · intro j _ hj i hi
      rw [hcode j i hj hi]
      exact o.int8 _
    · intro t j _ hj
      rw [Nat.zero_add, ← unbias]
      congr 1
      apply Finset.sum_congr rfl
      intro i hi
      rw [hcode j i hj (Finset.mem_range.mp hi)]
  rw [Nat.zero_add, Nat.zero_add] at hcells
  exact hcells

theorem bothHalves_eq {rows base : Nat} {kernel : Nat → Nat → Option (List Cell)}
    {dot : Nat → Nat → Int}
    (h : ∀ a b, a ≤ b → b ≤ rows → kernel a b = some (grid nTok (base + a) (base + b) dot)) :
    ∃ cells, bothHalves rows kernel = some cells ∧
      cells.Perm (grid nTok base (base + rows) dot) := by
  have hfirst := h 0 ((rows + 1) / 2) (by omega) (by omega)
  have hsecond := h ((rows + 1) / 2) rows (by omega) (Nat.le_refl _)
  refine ⟨_, ?_, grid_append (Nat.le_add_right base ((rows + 1) / 2)) (by omega)⟩
  unfold bothHalves
  dsimp only
  rw [hfirst, hsecond]
  rfl

/-! ### The paths without tiles -/

theorem exact_of_grid {stores : Option (List Cell)}
    (h : stores = some (grid nTok 0 out (o.dot inn))) : Exact o out inn nTok stores :=
  ⟨_, h, List.Perm.refl _⟩

theorem matmulV1_exact (hinn : inn ≤ maxIn) : Exact o out inn nTok (matmulV1 o out inn nTok) := by
  apply exact_of_grid
  have hcells : matmulV1 o out inn nTok = some (grid nTok (0 + 0) (0 + out) (o.dot inn)) := by
    apply forCells_eq
    intro t j _ _ _
    have hw : ∀ i, i < inn → -128 ≤ o.codes (j * inn + i) ∧ o.codes (j * inn + i) ≤ 127 :=
      fun i _ => o.int8 _
    have hones : Lanes.dot (fun _ => 1) (fun i => o.codes (j * inn + i)) inn =
        some (o.rowSum inn j) := by
      unfold maxIn at hinn
      rw [Lanes.dot_eq (C := 128) (fun i hi => by have := hw i hi; omega) (by norm_num) (by omega)]
      simp only [one_mul]
      rfl
    rw [lanesDot_eq hinn hw, hones]
    simp only [Option.bind_eq_bind, Option.bind_some, Option.pure_def, Nat.zero_add]
    rw [trueDot_eq hinn hw (rowSum_bounds hinn j), Option.bind_some, unbias]
  rw [Nat.zero_add, Nat.zero_add] at hcells
  exact hcells

theorem matmulV2_exact (hinn : inn ≤ maxIn) (rsumOk : Bool) :
    Exact o out inn nTok (matmulV2 o out inn nTok rsumOk) := by
  cases rsumOk with
  | false => exact matmulV1_exact hinn
  | true =>
      apply exact_of_grid
      unfold matmulV2
      rw [if_pos rfl, computeRsum_eq hinn]
      exact half_eq hinn (fun _ _ => rfl) (Nat.le_refl _)

theorem dualCtx_exact (hinn : inn ≤ maxIn) (poolOk rsumOk again : Bool) :
    Exact o out inn nTok (dualCtx o out inn nTok poolOk rsumOk again) := by
  unfold dualCtx
  split
  · split
    · have hhalf : ∀ a b, a ≤ b → b ≤ out →
          half o inn nTok o.codes ((List.range out).map (o.rowSum inn)) a b =
            some (grid nTok (0 + a) (0 + b) (o.dot inn)) := by
        intro a b _ hb
        rw [Nat.zero_add, Nat.zero_add]
        exact half_eq hinn (fun _ _ => rfl) hb
      obtain ⟨cells, hcells, hperm⟩ := bothHalves_eq hhalf
      refine ⟨cells, ?_, by simpa only [Nat.zero_add] using hperm⟩
      rw [computeRsum_eq hinn]
      exact hcells
    · exact matmulV2_exact hinn again
  · exact matmulV2_exact hinn rsumOk

/-- The copy in the VTCM holds the codes. -/
theorem vtcmBlock_eq (vtcm : Nat → Int) (off : Nat) {k : Nat} (hk : k < out * inn) :
    vtcmBlock o out inn vtcm off k = o.codes k := by
  apply Buffer.store_inside
  have hcodes := le_align (out * inn)
  have hblock := le_align (align (out * inn) + out * 4)
  unfold q8Bytes
  omega

theorem dualCtxV4_exact (hinn : inn ≤ maxIn) (vtcm : Nat → Int) (off : Nat) (poolOk : Bool) :
    Exact o out inn nTok (dualCtxV4 o out inn nTok vtcm off poolOk) := by
  have hhalf : ∀ a b, a ≤ b → b ≤ out →
      half o inn nTok (vtcmBlock o out inn vtcm off) ((List.range out).map (o.rowSum inn)) a b =
        some (grid nTok (0 + a) (0 + b) (o.dot inn)) := by
    intro a b _ hb
    simp only [Nat.zero_add]
    exact half_eq hinn (fun k hk => vtcmBlock_eq vtcm off hk) hb
  unfold dualCtxV4
  rw [computeRsum_eq hinn]
  cases poolOk with
  | false =>
      apply exact_of_grid
      have hcells := hhalf 0 out (Nat.zero_le _) (Nat.le_refl _)
      simp only [Nat.zero_add] at hcells
      exact hcells
  | true =>
      obtain ⟨cells, hcells, hperm⟩ := bothHalves_eq hhalf
      exact ⟨cells, hcells, by simpa only [Nat.zero_add] using hperm⟩

end Kernels

end ShannonPrime.Hexagon
