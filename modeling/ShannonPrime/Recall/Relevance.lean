import Mathlib.Tactic.GCongr
import Mathlib.Tactic.Ring
import ShannonPrime.Lib.StableSort
import ShannonPrime.Lib.Traverse
import ShannonPrime.Recall.Select

/-!
The relevance of an episode to a query: the scores of every query head against every stored key,
layer by layer, of which the peak and the mean of the `m` largest are kept. An index outside the
query or the keys ends the call.
-/

namespace ShannonPrime.Recall.Relevance

open TopM

def G_NH : Nat := 16

/-- The arithmetic: `X` are the numbers of single precision, `F` of double. -/
structure Arith (X F : Type*) where
  wide : X → F
  narrow : F → X
  zero : F
  negInf : F
  ofNat : Nat → F
  add : F → F → F
  mul : F → F → F
  div : F → F → F
  sqrt : F → F

variable {X F : Type*} (A : Arith X F)

/-- The mean of scores, summed in the order of the list. -/
def Arith.mean (l : List F) : F := A.div (l.foldl A.add A.zero) (A.ofNat l.length)

section Scores

variable (cosine : Bool) (q gk : List X)

/-- The sums over the dimensions of a head: the product, and the two squares under
`SP_B3_QK_COSINE`. -/
def sums (qh kbase : Nat) : Option (F × F × F) :=
  (List.range HD).foldlM (fun (dot, qn, kn) d =>
    q[qh + d]?.bind fun qv => gk[kbase + d]?.map fun kv =>
      (A.add dot (A.mul (A.wide qv) (A.wide kv)),
        if cosine then A.add qn (A.mul (A.wide qv) (A.wide qv)) else qn,
        if cosine then A.add kn (A.mul (A.wide kv) (A.wide kv)) else kn))
    (A.zero, A.zero, A.zero)

variable [LinearOrder F]

/-- The score of layer `l`, position `p` and head `h`. -/
def score (npos : Nat) (cell : Nat × Nat × Nat) : Option F :=
  let (l, p, h) := cell
  (sums A cosine q gk (l * (G_NH * HD) + h * HD) (l * npos * HD + p * HD)).map
    fun (dot, qn, kn) =>
      if cosine then
        let den := A.mul (A.sqrt qn) (A.sqrt kn)
        if A.zero < den then A.div dot den else A.zero
      else A.mul dot (A.div (A.ofNat 1) (A.sqrt (A.ofNat HD)))

/-- Layers, positions and heads in the order they are visited. -/
def cells (ng npos : Nat) : List (Nat × Nat × Nat) :=
  (List.range ng).flatMap fun l => (List.range npos).flatMap fun p =>
    (List.range G_NH).map fun h => (l, p, h)

/-- The peak and the buffer of the largest scores. -/
def visit (m : Nat) (state : F × List F) (s : F) : Option (F × List F) :=
  (insertTop m state.2 s).map fun top => (if state.1 < s then s else state.1, top)

/-- The global layers that the query and the keys both have. -/
def sharedLayers (gkNg : Nat) : Nat := min (q.length / (G_NH * HD)) gkNg

def qkRelevance (gkNg npos m : Nat) : Option (X × X) :=
  if gk.isEmpty || gkNg == 0 || npos == 0 then some (A.narrow A.negInf, A.narrow A.negInf)
  else
    let ng := sharedLayers q gkNg
    if ng = 0 then some (A.narrow A.negInf, A.narrow A.negInf)
    else
      ((cells ng npos).foldlM (fun state cell =>
        (score A cosine q gk npos cell).bind (visit m state)) (A.negInf, [])).map
        fun (best, top) =>
          (A.narrow best, A.narrow (if top.isEmpty then best else A.mean top))

/-! ### The scores that are there -/

variable {q gk}

omit [LinearOrder F] in
theorem sums_isSome {qh kbase : Nat} (hq : qh + HD ≤ q.length) (hk : kbase + HD ≤ gk.length) :
    ∃ r, sums A cosine q gk qh kbase = some r := by
  refine Traverse.foldlM_isSome (fun r d hd => ?_) _
  have hlt := List.mem_range.mp hd
  rw [List.getElem?_eq_getElem (show qh + d < q.length by omega),
    List.getElem?_eq_getElem (show kbase + d < gk.length by omega)]
  exact ⟨_, rfl⟩

/-- Every cell of the shared layers has a score. -/
theorem score_isSome {ng npos : Nat} (hq : ng ≤ q.length / (G_NH * HD))
    (hgk : ng * npos * HD ≤ gk.length) :
    ∀ cell ∈ cells ng npos, ∃ s, score A cosine q gk npos cell = some s := by
  intro cell hcell
  simp only [cells, List.mem_flatMap, List.mem_map, List.mem_range] at hcell
  obtain ⟨l, hl, p, hp, h, hh, rfl⟩ := hcell
  have hquery : l * (G_NH * HD) + h * HD + HD ≤ q.length :=
    calc l * (G_NH * HD) + h * HD + HD = l * (G_NH * HD) + (h + 1) * HD := by ring
      _ ≤ l * (G_NH * HD) + G_NH * HD := by gcongr; omega
      _ = (l + 1) * (G_NH * HD) := by ring
      _ ≤ q.length / (G_NH * HD) * (G_NH * HD) := by gcongr; omega
      _ ≤ q.length := Nat.div_mul_le_self _ _
  have hkeys : l * npos * HD + p * HD + HD ≤ gk.length :=
    calc l * npos * HD + p * HD + HD = (l * npos + (p + 1)) * HD := by ring
      _ ≤ (l * npos + npos) * HD := by gcongr; omega
      _ = (l + 1) * npos * HD := by ring
      _ ≤ ng * npos * HD := by gcongr; omega
      _ ≤ gk.length := hgk
  obtain ⟨r, hr⟩ := sums_isSome A cosine hquery hkeys
  simp only [score, hr, Option.map_some]
  exact ⟨_, rfl⟩

/-- The peak is kept beside the buffer. -/
theorem visit_foldlM (m : Nat) (S : List F) (best : F) (top : List F) :
    S.foldlM (visit m) (best, top) = (S.foldlM (insertTop m) top).map fun top' =>
      (S.foldl (fun best s => if best < s then s else best) best, top') := by
  induction S generalizing best top with
  | nil => rfl
  | cons s S ih =>
      rw [List.foldlM_cons, List.foldlM_cons, visit]
      cases insertTop m top s with
      | none => rfl
      | some top' => exact ih _ top'

omit [LinearOrder F] in
theorem sharedLayers_le (q : List X) (gkNg : Nat) : sharedLayers q gkNg ≤ gkNg :=
  Nat.min_le_right _ _

theorem cells_eq_nil {ng npos : Nat} (h : ng * npos = 0) : cells ng npos = [] := by
  rcases Nat.mul_eq_zero.mp h with rfl | rfl <;> simp [cells]

theorem cells_ne_nil {ng npos : Nat} (hng : 0 < ng) (hnpos : 0 < npos) : cells ng npos ≠ [] := by
  refine List.ne_nil_of_mem (a := (0, 0, 0)) ?_
  simp only [cells, List.mem_flatMap, List.mem_map, List.mem_range]
  exact ⟨0, hng, 0, hnpos, 0, by decide, rfl⟩

end Scores

variable [LinearOrder F]

/-- The scores of all cells are there, and the second result is the mean of the `m` largest of
them, or of all where there are fewer. -/
theorem qkRelevance_topm (cosine : Bool) (q gk : List X) (gkNg npos m : Nat) (hm : 0 < m)
    (hgk : sharedLayers q gkNg * npos * HD ≤ gk.length) :
    ∃ S, (cells (sharedLayers q gkNg) npos).mapM (score A cosine q gk npos) = some S ∧
      (qkRelevance A cosine q gk gkNg npos m).map Prod.snd =
        some (A.narrow (if S.isEmpty then A.negInf else A.mean (largest m S))) ∧
      Largest m S (largest m S) := by
  by_cases hnone : sharedLayers q gkNg * npos = 0
  · refine ⟨[], by rw [cells_eq_nil hnone]; rfl, ?_, largest_spec m []⟩
    rw [qkRelevance]
    split
    · rfl
    · rename_i hsome
      have hnpos : npos ≠ 0 := fun h => hsome (by simp [h])
      dsimp only
      rw [if_pos ((Nat.mul_eq_zero.mp hnone).resolve_right hnpos)]
      rfl
  · obtain ⟨hng, hnpos⟩ : sharedLayers q gkNg ≠ 0 ∧ npos ≠ 0 := by
      simpa [Nat.mul_eq_zero] using hnone
    have hall : ∀ cell ∈ cells (sharedLayers q gkNg) npos,
        ∃ s, score A cosine q gk npos cell = some s :=
      score_isSome A cosine (Nat.min_le_left _ _) hgk
    obtain ⟨S, hS, hlength, _⟩ := Traverse.mapM_all (P := fun _ => True) fun cell hcell =>
      (hall cell hcell).imp fun _ h => ⟨h, trivial⟩
    have hcells := cells_ne_nil (Nat.pos_of_ne_zero hng) (Nat.pos_of_ne_zero hnpos)
    have hsome : S ≠ [] := by
      rintro rfl
      exact hcells (List.eq_nil_of_length_eq_zero hlength.symm)
    have htop : largest m S ≠ [] := by
      intro hnil
      have hlarge := (largest_spec m S).length_eq
      have hpos := List.length_pos_of_ne_nil hsome
      rw [hnil, List.length_nil] at hlarge
      omega
    have hkeys : gk ≠ [] := by
      rintro rfl
      have hpos := Nat.mul_pos (Nat.pos_of_ne_zero hnone) (show 0 < HD by decide)
      rw [List.length_nil] at hgk
      omega
    have hgkNg : gkNg ≠ 0 := by
      rintro rfl
      exact hng (Nat.min_zero _)
    have hrun : S.foldlM (insertTop m) [] = some (largest m S) := by
      have h := foldlM_insertTop hm [] S
      rwa [largest, if_pos (by exact hm), List.nil_append] at h
    refine ⟨S, hS, ?_, largest_spec m S⟩
    rw [qkRelevance, if_neg (by simp [hkeys, hgkNg, hnpos])]
    dsimp only
    rw [if_neg hng, Traverse.foldlM_mapM hS, visit_foldlM, hrun]
    simp [hsome, htop]

/-- Natural numbers, on which a query of zeros scores as it does in floats. -/
def natArith : Arith Nat Nat where
  wide x := x
  narrow x := x
  zero := 0
  negInf := 0
  ofNat n := n
  add := (· + ·)
  mul := (· * ·)
  div := (· / ·)
  sqrt x := x.sqrt

/-- A query of one layer, all zero, against the keys of two positions. -/
theorem qkRelevance_topm_zeros :
    ∃ S, (cells (sharedLayers (List.replicate (G_NH * HD) 0) 1) 2).mapM
        (score natArith false (List.replicate (G_NH * HD) 0) (List.replicate (2 * HD) 1) 2) =
          some S ∧
      (qkRelevance natArith false (List.replicate (G_NH * HD) 0) (List.replicate (2 * HD) 1) 1 2
          3).map Prod.snd =
        some (natArith.narrow
          (if S.isEmpty then natArith.negInf else natArith.mean (largest 3 S))) ∧
      Largest 3 S (largest 3 S) :=
  qkRelevance_topm natArith false (List.replicate (G_NH * HD) 0) (List.replicate (2 * HD) 1) 1 2 3
    (by decide) (by
      have hlayers := sharedLayers_le (List.replicate (G_NH * HD) 0) 1
      rw [List.length_replicate]
      generalize sharedLayers (List.replicate (G_NH * HD) 0) 1 = ng at hlayers ⊢
      gcongr
      omega)

end ShannonPrime.Recall.Relevance
