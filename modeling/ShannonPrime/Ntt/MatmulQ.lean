import ShannonPrime.Lib.Bounded
import ShannonPrime.Ntt.BarrettOracle
import ShannonPrime.Ntt.Recombine

/-!
Products of matrices of residues (`sp_compute_crt_imp.c`): rows of the result in vectors of
32 words, every product reduced before it is added. A cell is the sum of products modulo the
prime, and so is the cell of the host's reference (`sp_matmul_q_ref.rs`).
-/

namespace ShannonPrime.Ntt

open Bounded (Buf Returns)
open Buffer (forCells store vec)
open CInt (wrap)

/-- `q_mu` -/
def qMu (qIdx : Int) : Modulus := if qIdx = 0 then q1 else q2

/-! The kernel -/

/-- One lane of a round of the loop over `k`: the product reduced, added and reduced once. -/
def matmulRound (M : Modulus) (acc x w : Nat) : Nat :=
  let prod := barrettReduce32HvxLane x w M.q (M.q - 1) M.mu
  let sum := Hvx.vadd acc prod
  if sum > M.q - 1 then Hvx.vsub sum M.q else sum

/-- The loop over `k`: a word of `x` in every lane against 32 words of row `k` of `w`. -/
def matmulStep (M : Modulus) (dIn dOut b iOut : Nat) (x w : Buf Nat) (acc : Nat → Nat) (k : Nat) :
    Option (Nat → Nat) := do
  let xSplat ← x.load 4 1 (wrap (wrap (b * dIn) + k))
  let wVec ← w.load 4 32 (wrap (k * dOut) + iOut)
  some fun l => matmulRound M (acc l) (xSplat 0) (wVec l)

/-- One vector of the result. -/
def matmulVector (M : Modulus) (dIn dOut b iOut : Nat) (x w : Buf Nat) : Option (Nat → Nat) :=
  (List.range dIn).foldlM (matmulStep M dIn dOut b iOut x w) fun _ => 0

/-- One row of the result. -/
def matmulRow (M : Modulus) (dIn dOut : Nat) (x w y : Buf Nat) (out : Nat → Nat) (b : Nat) :
    Option (Nat → Nat) :=
  (List.range (dOut / 32)).foldlM
    (fun out iv => do
      let acc ← matmulVector M dIn dOut b (iv * 32) x w
      y.put 4 32 out (wrap (b * dOut) + 32 * iv) acc)
    out

/-- `sp_matmul_q_hvx`; a run that leaves a buffer has no value. -/
def matmulQHvx (qIdx batch dIn dOut : Int) (x w y : Buf Nat) : Option (Returns Nat) :=
  if qIdx < 0 ∨ qIdx > 1 then some .rejected
  else if batch < 1 ∨ dIn < 1 ∨ dOut < 32 then some .rejected
  else if dOut.tmod 32 ≠ 0 then some .rejected
  else if x.addr = 0 ∨ w.addr = 0 ∨ y.addr = 0 then some .rejected
  else if !w.aligned || !y.aligned then some .rejected
  else do
    let out ← (List.range batch.toNat).foldlM
      (matmulRow (qMu qIdx) dIn.toNat dOut.toNat x w y) y.cells
    some (.done out)

/-! The reference -/

/-- `barrett_reduce32` -/
def barrettReduce32 (build : Build) (x q mu : Nat) : Option Nat := do
  let wide ← build.word 64 ((x >>> 29) * mu : Nat)
  let qhat := wide >>> 31
  let r0 := (x + (2 ^ 64 - qhat * q % 2 ^ 64)) % 2 ^ 64
  let r1 := if r0 ≥ q then r0 - q else r0
  let r2 := if r1 ≥ q then r1 - q else r1
  some (r2 % 2 ^ 32)

/-- The loop over `k` of the reference; an index past the end of a slice panics. -/
def scalarStep (build : Build) (M : Modulus) (dIn dOut b i : Nat) (x w : List Nat)
    (acc k : Nat) : Option Nat := do
  let xv ← x[← build.word 64 (b * dIn + k : Nat)]?
  let wv ← w[← build.word 64 (k * dOut + i : Nat)]?
  let prod ← barrettReduce32 build (xv * wv) M.q M.mu
  let sum ← build.word 32 (acc + prod : Nat)
  some (if sum ≥ M.q then sum - M.q else sum)

/-- One cell of the reference. -/
def scalarCell (build : Build) (M : Modulus) (dIn dOut b i : Nat) (x w : List Nat) :
    Option Nat :=
  (List.range dIn).foldlM (scalarStep build M dIn dOut b i x w) 0

/-- `matmul_q_scalar_ref` -/
def matmulQScalarRef (build : Build) (qIdx : Int) (batch dIn dOut : Nat) (x w : List Nat) :
    Option (Nat → Nat) := do
  let xLen ← build.word 64 (batch * dIn : Nat)
  let wLen ← build.word 64 (dIn * dOut : Nat)
  if x.length ≠ xLen ∨ w.length ≠ wLen then none
  else
    (List.range batch).foldlM
      (fun y b => (List.range dOut).foldlM
        (fun y i => do
          let acc ← scalarCell build (qMu qIdx) dIn dOut b i x w
          some (store y (← build.word 64 (b * dOut + i : Nat)) 1 fun _ => acc))
        y)
      fun _ => 0

/-! One cell -/

/-- What a cell is to hold. -/
def cellSum (M : Modulus) (dIn dOut : Nat) (x w : Nat → Nat) (b i : Nat) : Nat :=
  (∑ k ∈ Finset.range dIn, x (b * dIn + k) * w (k * dOut + i)) % M.q

section

variable {M : Modulus}

theorem Modulus.modadd_mod (s p : Nat) : M.modadd (s % M.q) (p % M.q) = (s + p) % M.q := by
  have hs : s % M.q < M.q := Nat.mod_lt _ M.q_pos
  have hp : p % M.q < M.q := Nat.mod_lt _ M.q_pos
  rw [Modulus.modadd_eq hs hp, Nat.add_mod]
  generalize s % M.q = s at hs ⊢
  generalize p % M.q = p at hp ⊢
  split
  · rename_i hge
    rw [Nat.mod_eq_sub_mod hge]
    exact (Nat.mod_eq_of_lt (by omega)).symm
  · exact (Nat.mod_eq_of_lt (by omega)).symm

/-- A round of the kernel keeps the sum modulo the prime. -/
theorem matmulRound_eq {s x w : Nat} (hx : x < M.q) (hw : w < M.q) :
    matmulRound M (s % M.q) x w = (s + x * w) % M.q := by
  have hs : s % M.q < M.q := Nat.mod_lt _ M.q_pos
  have hp : x * w % M.q < M.q := Nat.mod_lt _ M.q_pos
  calc matmulRound M (s % M.q) x w = Hvx.modaddLane M (s % M.q) (x * w % M.q) := by
        rw [matmulRound, barrettReduce32HvxLane_eq M hx hw]
        rfl
    _ = (s + x * w) % M.q := by rw [Hvx.modaddLane_eq hs hp, Modulus.modadd_mod]

theorem barrettReduce32_eq (build : Build) {x : Nat} (hx : x < 2 ^ 60) :
    barrettReduce32 build x M.q M.mu = some (x % M.q) := by
  have hproduct : (x >>> 29) * M.mu < 2 ^ 64 := (M.unwrapped hx).quotient
  have hreduce : barrettReduce x M.q M.mu % 2 ^ 32 = x % M.q := by
    rw [M.barrettReduce_eq hx]
    exact Nat.mod_eq_of_lt ((Nat.mod_lt _ M.q_pos).trans M.q_lt_word)
  rw [← hreduce, barrettReduce32, word_of_lt build hproduct, barrettReduce,
    Nat.mod_eq_of_lt hproduct]
  rfl

/-- A buffer that holds a matrix of residues. -/
structure Matrix (m : Buf Nat) (M : Modulus) (rows cols : Nat) : Prop where
  words : m.Holds 4 rows cols
  residue : ∀ i, i < rows * cols → m.cells i < M.q

variable {batch dIn dOut b : Nat} {x w y : Buf Nat}

theorem matmulStep_eq (hx : x.Holds 4 batch dIn) (hw : w.Holds 4 dIn dOut) {iOut k : Nat}
    (hb : b < batch) (hk : k < dIn) (hin : iOut + 32 ≤ dOut) (acc : Nat → Nat) :
    matmulStep M dIn dOut b iOut x w acc k = some fun l =>
      matmulRound M (acc l) (x.cells (b * dIn + k)) (w.cells (k * dOut + iOut + l)) := by
  have hxCell : b * dIn + k < batch * dIn := Buffer.cell_lt hb hk
  have hwEnd : k * dOut + iOut + 32 ≤ dIn * dOut := by
    rw [Nat.add_assoc]
    exact (Nat.add_le_add_left hin _).trans (Buffer.block_le hk)
  have hxIn : x.Inside 4 1 (b * dIn + k : Nat) := hx.inside hxCell
  have hwIn : w.Inside 4 32 (k * dOut + iOut : Nat) := hw.inside hwEnd
  have hxWords := hx.lt
  have hwWords := hw.lt
  have hxAt : wrap (wrap (b * dIn) + k) = (b * dIn + k : Nat) := by
    rw [Bounded.wrap_row (by omega), ← Nat.cast_add]
    exact CInt.wrap_of_fits ⟨by omega, by omega⟩
  have hwAt : wrap (k * dOut) + iOut = (k * dOut + iOut : Nat) := by
    rw [Bounded.wrap_row (by omega), Nat.cast_add]
  rw [matmulStep, hxAt, hwAt, Buf.load_eq hxIn, Buf.load_eq hwIn]
  rfl

/-- Where a vector of the result is stored. -/
theorem put_eq (hy : y.Holds 4 batch dOut) {iv : Nat} (hb : b < batch) (hin : 32 * iv + 32 ≤ dOut)
    (out acc : Nat → Nat) : y.put 4 32 out (wrap (b * dOut) + 32 * iv) acc =
      some (store out (b * dOut + 32 * iv) 32 acc) := by
  have hend : b * dOut + 32 * iv + 32 ≤ batch * dOut := by
    rw [Nat.add_assoc]
    exact (Nat.add_le_add_left hin _).trans (Buffer.block_le hb)
  have hyIn : y.Inside 4 32 (b * dOut + 32 * iv : Nat) := hy.inside hend
  have hyWords := hy.lt
  have hyAt : wrap (b * dOut) + 32 * iv = (b * dOut + 32 * iv : Nat) := by
    rw [Bounded.wrap_row (by omega), Nat.cast_add]
    rfl
  rw [hyAt, Buf.put_eq hyIn, Int.toNat_natCast]

/-- A vector of the result, by the rows of `w` taken so far. -/
theorem matmulVector_eq (hx : Matrix x M batch dIn) (hw : Matrix w M dIn dOut) {iOut : Nat}
    (hb : b < batch) (hin : iOut + 32 ≤ dOut) :
    ∃ acc, matmulVector M dIn dOut b iOut x w = some acc ∧
      ∀ l, l < 32 → acc l = cellSum M dIn dOut x.cells w.cells b (iOut + l) := by
  have hrows : ∀ m, m ≤ dIn →
      ∃ acc, (List.range m).foldlM (matmulStep M dIn dOut b iOut x w) (fun _ => 0) = some acc ∧
        ∀ l, l < 32 → acc l =
          (∑ k ∈ Finset.range m, x.cells (b * dIn + k) * w.cells (k * dOut + (iOut + l))) % M.q := by
    intro m hm
    induction m with
    | zero => exact ⟨_, rfl, fun l _ => (Nat.zero_mod _).symm⟩
    | succ m ih =>
        obtain ⟨acc, hrun, hacc⟩ := ih (by omega)
        have hxCell : b * dIn + m < batch * dIn := Buffer.cell_lt hb (by omega)
        have hwRow : m * dOut + dOut ≤ dIn * dOut := Buffer.block_le (by omega)
        rw [List.range_succ, List.foldlM_append, hrun, Option.bind_eq_bind, Option.bind_some,
          List.foldlM_cons, matmulStep_eq hx.words hw.words hb hm hin acc]
        refine ⟨_, rfl, fun l hl => ?_⟩
        have hwCell : m * dOut + (iOut + l) < dIn * dOut := by omega
        rw [Finset.sum_range_succ, hacc l hl, Nat.add_assoc (m * dOut),
          matmulRound_eq (hx.residue _ hxCell) (hw.residue _ hwCell)]
  exact hrows dIn (Nat.le_refl dIn)

/-- The cells of the product. -/
def matmulCells (M : Modulus) (dIn dOut : Nat) (x w : Nat → Nat) (c : Nat) : Nat :=
  cellSum M dIn dOut x w (c / dOut) (c % dOut)

theorem matmulCells_eq {i : Nat} (x w : Nat → Nat) (hi : i < dOut) :
    matmulCells M dIn dOut x w (b * dOut + i) = cellSum M dIn dOut x w b i := by
  rw [matmulCells, Buffer.index_div hi, Buffer.index_mod hi]

theorem matmulRow_eq (hx : Matrix x M batch dIn) (hw : Matrix w M dIn dOut)
    (hy : y.Holds 4 batch dOut) (hdvd : 32 * (dOut / 32) = dOut) (hb : b < batch)
    (out : Nat → Nat) :
    matmulRow M dIn dOut x w y out b = some ((List.range (dOut / 32)).foldl
      (fun out iv => store out (b * dOut + 32 * iv) 32 fun l =>
        matmulCells M dIn dOut x.cells w.cells (b * dOut + 32 * iv + l)) out) := by
  apply Traverse.foldlM_eq_some
  intro out iv hiv
  have hin : iv * 32 + 32 ≤ dOut := by
    have := List.mem_range.mp hiv
    omega
  obtain ⟨acc, hrun, hacc⟩ := matmulVector_eq hx hw hb hin
  rw [hrun, Option.bind_eq_bind, Option.bind_some, put_eq hy hb (by omega)]
  apply congrArg some
  apply Buffer.store_congr
  intro l hl
  rw [hacc l hl, Nat.add_assoc, matmulCells_eq _ _ (by omega), Nat.mul_comm iv]

/-- The loops of the kernel. -/
theorem matmulRows_eq (hx : Matrix x M batch dIn) (hw : Matrix w M dIn dOut)
    (hy : y.Holds 4 batch dOut) (hdvd : 32 * (dOut / 32) = dOut) (out : Nat → Nat) :
    (List.range batch).foldlM (matmulRow M dIn dOut x w y) out =
      some (forCells (batch * dOut)
        (fun c _ => matmulCells M dIn dOut x.cells w.cells c) out) := by
  have hrows := Buffer.foldl_store_rows (matmulCells M dIn dOut x.cells w.cells) out 32
    (dOut / 32) batch
  rw [hdvd] at hrows
  rw [← hrows]
  apply Traverse.foldlM_eq_some
  intro out b hb
  exact matmulRow_eq hx hw hy hdvd (List.mem_range.mp hb) out

/-! The reference -/

/-- What an index reads from a slice. -/
theorem vec_getElem? {n i : Nat} (f : Nat → Nat) (h : i < n) : (vec n f)[i]? = some (f i) := by
  rw [vec, List.getElem?_map, List.getElem?_range h, Option.map_some]

theorem scalarStep_eq (build : Build) (hx : Matrix x M batch dIn) (hw : Matrix w M dIn dOut)
    {i k : Nat} (hb : b < batch) (hi : i < dOut) (hk : k < dIn) (s : Nat) :
    scalarStep build M dIn dOut b i (vec (batch * dIn) x.cells) (vec (dIn * dOut) w.cells)
        (s % M.q) k =
      some ((s + x.cells (b * dIn + k) * w.cells (k * dOut + i)) % M.q) := by
  have hupper := M.upper
  have hxWords := hx.words.lt
  have hwWords := hw.words.lt
  have hxCell : b * dIn + k < batch * dIn := Buffer.cell_lt hb hk
  have hwCell : k * dOut + i < dIn * dOut := Buffer.cell_lt hk hi
  have hprod := Modulus.mul_lt_of_lt (hx.residue _ hxCell) (hw.residue _ hwCell)
  have hs : s % M.q < M.q := Nat.mod_lt _ M.q_pos
  have hp : x.cells (b * dIn + k) * w.cells (k * dOut + i) % M.q < M.q := Nat.mod_lt _ M.q_pos
  rw [scalarStep, word_of_lt build (by omega), word_of_lt build (by omega), ← Modulus.modadd_mod,
    Modulus.modadd_eq hs hp]
  simp only [Option.bind_eq_bind, Option.bind_some, vec_getElem? _ hxCell, vec_getElem? _ hwCell,
    barrettReduce32_eq build hprod]
  rw [word_of_lt build (by omega), Option.bind_some]

/-- A cell of the reference, by the products taken so far. -/
theorem scalarCell_eq (build : Build) (hx : Matrix x M batch dIn) (hw : Matrix w M dIn dOut)
    {i : Nat} (hb : b < batch) (hi : i < dOut) :
    scalarCell build M dIn dOut b i (vec (batch * dIn) x.cells) (vec (dIn * dOut) w.cells) =
      some (cellSum M dIn dOut x.cells w.cells b i) := by
  have hrows : ∀ m, m ≤ dIn → (List.range m).foldlM
      (scalarStep build M dIn dOut b i (vec (batch * dIn) x.cells) (vec (dIn * dOut) w.cells)) 0 =
      some ((∑ k ∈ Finset.range m, x.cells (b * dIn + k) * w.cells (k * dOut + i)) % M.q) := by
    intro m hm
    induction m with
    | zero => exact congrArg some (Nat.zero_mod _).symm
    | succ m ih =>
        rw [List.range_succ, List.foldlM_append, ih (by omega), Option.bind_eq_bind,
          Option.bind_some, List.foldlM_cons, scalarStep_eq build hx hw hb hi hm,
          Finset.sum_range_succ]
        rfl
  exact hrows dIn (Nat.le_refl dIn)

/-- The loops of the reference. -/
theorem matmulQScalarRef_eq (build : Build) {qIdx : Int} (hx : Matrix x (qMu qIdx) batch dIn)
    (hw : Matrix w (qMu qIdx) dIn dOut) (hwords : batch * dOut < 2 ^ 31) :
    matmulQScalarRef build qIdx batch dIn dOut (vec (batch * dIn) x.cells)
        (vec (dIn * dOut) w.cells) =
      some (forCells (batch * dOut)
        (fun c _ => matmulCells (qMu qIdx) dIn dOut x.cells w.cells c) fun _ => 0) := by
  have hxWords := hx.words.lt
  have hwWords := hw.words.lt
  have hrows := Buffer.foldl_store_rows (matmulCells (qMu qIdx) dIn dOut x.cells w.cells)
    (fun _ => 0) 1 dOut batch
  rw [Nat.one_mul] at hrows
  rw [matmulQScalarRef, word_of_lt build (by omega), Option.bind_eq_bind, Option.bind_some,
    word_of_lt build (by omega), Option.bind_some, if_neg (by simp [vec]), ← hrows]
  apply Traverse.foldlM_eq_some
  intro y b hb
  apply Traverse.foldlM_eq_some
  intro y i hi
  have hcell : b * dOut + i < batch * dOut :=
    Buffer.cell_lt (List.mem_range.mp hb) (List.mem_range.mp hi)
  rw [scalarCell_eq build hx hw (List.mem_range.mp hb) (List.mem_range.mp hi), Option.bind_some,
    word_of_lt build (by omega), Option.bind_some, Nat.one_mul]
  apply congrArg some
  apply Buffer.store_congr
  intro l hl
  obtain rfl : l = 0 := by omega
  exact (matmulCells_eq _ _ (List.mem_range.mp hi)).symm

end

/-! The product -/

/-- What the kernel asks of a call. -/
structure MatmulAdmits (qIdx batch dIn dOut : Int) (x w y : Buf Nat) : Prop where
  prime : qIdx = 0 ∨ qIdx = 1
  someRows : 1 ≤ batch
  someTerms : 1 ≤ dIn
  someVectors : 32 ≤ dOut
  wholeVectors : dOut % 32 = 0
  nonNull : x.addr ≠ 0 ∧ w.addr ≠ 0 ∧ y.addr ≠ 0
  aligned : w.aligned ∧ y.aligned

section

variable {qIdx batch dIn dOut : Int} {x w y : Buf Nat}

theorem matmulQHvx_admitted (h : MatmulAdmits qIdx batch dIn dOut x w y) :
    matmulQHvx qIdx batch dIn dOut x w y = (do
      let out ← (List.range batch.toNat).foldlM
        (matmulRow (qMu qIdx) dIn.toNat dOut.toNat x w y) y.cells
      some (.done out)) := by
  obtain ⟨hprime, hbatch, hdIn, hdOut, hvectors, ⟨hx, hw, hy⟩, hwAligned, hyAligned⟩ := h
  have htmod : dOut.tmod 32 = 0 := by
    rw [Int.tmod_eq_emod_of_nonneg (by omega), hvectors]
  rw [matmulQHvx, if_neg (by omega), if_neg (by omega), if_neg (by omega), if_neg (by omega),
    if_neg (by simp [hwAligned, hyAligned])]

theorem matmulQHvx_rejects (h : ¬ MatmulAdmits qIdx batch dIn dOut x w y) :
    matmulQHvx qIdx batch dIn dOut x w y = some .rejected := by
  unfold matmulQHvx
  split
  · rfl
  split
  · rfl
  split
  · rfl
  split
  · rfl
  split
  · rfl
  rename_i hprime hdims hvectors hnull haligned
  simp only [Bool.or_eq_true, Bool.not_eq_true', not_or, Bool.not_eq_false] at haligned
  rw [Int.tmod_eq_emod_of_nonneg (by omega)] at hvectors
  exact absurd ⟨by omega, by omega, by omega, by omega, by omega, by omega, haligned⟩ h

end

/-- The kernel answers -1 to a call that does not meet its conditions, and to one that does
every cell of the product, which is the cell that either build of the reference computes. -/
theorem matmulQHvx_exact (build : Build) (qIdx batch dIn dOut : Int) (x w y : Buf Nat)
    (hx : Matrix x (qMu qIdx) batch.toNat dIn.toNat)
    (hw : Matrix w (qMu qIdx) dIn.toNat dOut.toNat)
    (hy : y.Holds 4 batch.toNat dOut.toNat) :
    (¬ MatmulAdmits qIdx batch dIn dOut x w y →
      matmulQHvx qIdx batch dIn dOut x w y = some .rejected) ∧
    (MatmulAdmits qIdx batch dIn dOut x w y → ∃ out ref,
      matmulQHvx qIdx batch dIn dOut x w y = some (.done out) ∧
      matmulQScalarRef build qIdx batch.toNat dIn.toNat dOut.toNat
        (vec (batch.toNat * dIn.toNat) x.cells) (vec (dIn.toNat * dOut.toNat) w.cells) = some ref ∧
      (∀ b i, b < batch.toNat → i < dOut.toNat →
        out (b * dOut.toNat + i) = (∑ k ∈ Finset.range dIn.toNat,
          x.cells (b * dIn.toNat + k) * w.cells (k * dOut.toNat + i)) % (qMu qIdx).q ∧
        ref (b * dOut.toNat + i) = out (b * dOut.toNat + i)) ∧
      ∀ c, batch.toNat * dOut.toNat ≤ c → out c = y.cells c) := by
  refine ⟨matmulQHvx_rejects, fun h => ?_⟩
  have hwords : batch.toNat * dOut.toNat < 2 ^ 31 := by
    have := hy.lt
    omega
  have hdvd : 32 * (dOut.toNat / 32) = dOut.toNat := by
    have := h.wholeVectors
    omega
  have hrun : matmulQHvx qIdx batch dIn dOut x w y = some (.done (forCells
      (batch.toNat * dOut.toNat)
      (fun c _ => matmulCells (qMu qIdx) dIn.toNat dOut.toNat x.cells w.cells c) y.cells)) := by
    rw [matmulQHvx_admitted h, matmulRows_eq hx hw hy hdvd]
    rfl
  refine ⟨_, _, hrun, matmulQScalarRef_eq build hx hw hwords, fun b i hb hi => ?_,
    fun c hc => if_neg (Nat.not_lt.mpr hc)⟩
  have hcell := Buffer.cell_lt hb hi
  simp only [forCells, if_pos hcell, and_true]
  exact matmulCells_eq _ _ hi

/-- A square of the largest residue of the first prime in every cell of a row. -/
theorem matmulQHvx_exact_row :
    ∃ out, matmulQHvx 0 1 1 32 ⟨4, 4, fun _ => q1.q - 1⟩ ⟨128, 128, fun _ => q1.q - 1⟩
      ⟨256, 128, fun _ => 0⟩ = some (.done out) ∧ ∀ i, i < 32 → out i = 1 := by
  have hlt : q1.q - 1 < q1.q := Nat.sub_lt q1.q_pos Nat.one_pos
  obtain ⟨-, hdone⟩ := matmulQHvx_exact .debug 0 1 1 32 ⟨4, 4, fun _ => q1.q - 1⟩
    ⟨128, 128, fun _ => q1.q - 1⟩ ⟨256, 128, fun _ => 0⟩
    ⟨⟨by decide, by decide⟩, fun _ _ => hlt⟩ ⟨⟨by decide, by decide⟩, fun _ _ => hlt⟩
    ⟨by decide, by decide⟩
  obtain ⟨out, ref, hrun, -, hcells, -⟩ := hdone
    ⟨by decide, by decide, by decide, by decide, by decide, by decide, by decide⟩
  refine ⟨out, hrun, fun i hi => ?_⟩
  have hcell := (hcells 0 i (by decide) hi).1
  have hsquare : (q1.q - 1) * (q1.q - 1) % q1.q = 1 := by decide
  simpa [qMu, hsquare] using hcell

/-- A result of one column is refused: the loop has no scalar tail. -/
theorem matmulQHvx_no_tail :
    ¬ ∀ (qIdx batch dIn dOut : Int) (x w y : Buf Nat), (qIdx = 0 ∨ qIdx = 1) → 1 ≤ batch →
      1 ≤ dIn → 1 ≤ dOut → x.addr ≠ 0 → w.addr ≠ 0 → y.addr ≠ 0 → w.aligned → y.aligned →
      Matrix x (qMu qIdx) batch.toNat dIn.toNat → Matrix w (qMu qIdx) dIn.toNat dOut.toNat →
      y.Holds 4 batch.toNat dOut.toNat → ∃ out,
        matmulQHvx qIdx batch dIn dOut x w y = some (.done out) ∧
        ∀ b i, b < batch.toNat → i < dOut.toNat → out (b * dOut.toNat + i) =
          cellSum (qMu qIdx) dIn.toNat dOut.toNat x.cells w.cells b i := by
  intro h
  obtain ⟨out, hrun, -⟩ := h 0 1 1 1 ⟨4, 4, fun _ => 0⟩ ⟨128, 4, fun _ => 0⟩ ⟨256, 4, fun _ => 0⟩
    (Or.inl rfl) (by decide) (by decide) (by decide) (by decide) (by decide) (by decide)
    (by decide) (by decide) ⟨⟨by decide, by decide⟩, fun _ _ => q1.q_pos⟩
    ⟨⟨by decide, by decide⟩, fun _ _ => q1.q_pos⟩ ⟨by decide, by decide⟩
  cases hrun

end ShannonPrime.Ntt
