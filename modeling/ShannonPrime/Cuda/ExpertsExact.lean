import ShannonPrime.Cuda.ExpertStage
import ShannonPrime.Cuda.PackedExact

/-!
Resident and streamed experts. The two paths run the same flow on tensors that hold the
same rows. They agree while the kernels do, which read the precision of the whole tensor
on one path and that of the slice on the other, and while these stay within the slice.
When both is so is settled for every layer and every selection.
-/

namespace ShannonPrime.Cuda

/-! ### Which products agree -/

namespace ExpertTensors

variable (T : ExpertTensors)

/-- The rows of an expert in a tensor, and the first of them. -/
def rows (p : Proj) : Nat := sliceRows T.FF T.E p

def firstRow (p : Proj) (e : Nat) : Nat := e * T.rows p

/-- The width is none of the kernels': of the 4-bit ones, or of any. -/
def Declined (p : Proj) : Prop :=
  (T.pt p).cols % 4 ≠ 0 ∨ (∀ r < (T.pt p).rows, (T.pt p).rowPrec r = 4) ∧ (T.pt p).cols % 32 ≠ 0

/-- The tensor has one precision, or else the bytes an 8-bit kernel takes for the rows of
the expert are bytes of these rows. -/
def Served (p : Proj) (e : Nat) : Prop :=
  (T.pt p).Uniform ∨ ∀ j < T.rows p, ∀ i < (T.pt p).cols,
    (T.pt p).InRows (T.firstRow p e) (T.rows p) ((T.pt p).rowOff (T.firstRow p e + j) + i)

/-- Every product up to the first that declines is served. -/
def Meets : List (Proj × Nat) → Prop
  | [] => True
  | s :: steps => T.Declined s.1 ∨ T.Served s.1 s.2 ∧ Meets steps

/-- The products of a selection, in order. -/
def steps {F : Type*} (sel : List (Nat × F)) : List (Proj × Nat) :=
  sel.flatMap fun s => [(.gate, s.1), (.up, s.1), (.down, s.1)]

theorem steps_cons {F : Type*} (s : Nat × F) (sel : List (Nat × F)) :
    steps (s :: sel) = (.gate, s.1) :: (.up, s.1) :: (.down, s.1) :: steps sel := rfl

theorem shape (p : Proj) : (T.pt p).rows = T.NE * T.rows p := by
  cases p
  · exact T.gate_shape.1
  · exact T.up_shape.1
  · exact T.down_shape.1

theorem rows_pos (p : Proj) : 0 < T.rows p := by
  apply Nat.pos_of_ne_zero
  intro hzero
  have hrows := (T.pt p).rows_pos
  rw [T.shape p, hzero, Nat.mul_zero] at hrows
  exact Nat.lt_irrefl 0 hrows

variable {T}

theorem slice_fits {p : Proj} {e : Nat} (he : e < T.NE) :
    T.firstRow p e + T.rows p ≤ (T.pt p).rows := by
  rw [T.shape p]
  exact Buffer.block_le he

/-- Away from uniform tensors a slice that is served does not end in a 4-bit row. -/
theorem last_row_eight {p : Proj} {e : Nat} (he : e < T.NE) (hwidth : (T.pt p).cols % 4 = 0)
    (hcover : ∀ j < T.rows p, ∀ i < (T.pt p).cols,
      (T.pt p).InRows (T.firstRow p e) (T.rows p) ((T.pt p).rowOff (T.firstRow p e + j) + i)) :
    (T.pt p).rowPrec (T.firstRow p e + (T.rows p - 1)) ≠ 4 := by
  intro hfour
  have hcols := (T.pt p).cols_pos
  have hpos := T.rows_pos p
  have hfit := slice_fits (p := p) he
  obtain ⟨r, hle, hlt, hstart, hend⟩ :=
    hcover (T.rows p - 1) (by omega) ((T.pt p).cols - 1) (by omega)
  rcases Nat.eq_or_lt_of_le (show r ≤ T.firstRow p e + (T.rows p - 1) by omega) with rfl | hbefore
  · rw [hfour, rowBytes, if_neg (by omega)] at hend
    omega
  · have hover := (T.pt p).row_le_end hbefore (by omega)
    rw [HostTensor.codesEnd, if_pos (by omega)] at hover
    omega

/-- For rows packed without gaps, that is the only way: the slice ends in an 8-bit row. -/
theorem served_iff_last_row {p : Proj} {e : Nat} (he : e < T.NE)
    (hwidth : (T.pt p).cols % 4 = 0)
    (hpacked : ∀ r, r + 1 < (T.pt p).rows →
      (T.pt p).rowOff (r + 1) = (T.pt p).rowOff r + rowBytes ((T.pt p).rowPrec r) (T.pt p).cols) :
    T.Served p e ↔
      (T.pt p).Uniform ∨ (T.pt p).rowPrec (T.firstRow p e + (T.rows p - 1)) = 8 := by
  have hpos := T.rows_pos p
  have hfit := slice_fits (p := p) he
  constructor
  · rintro (huniform | hcover)
    · exact Or.inl huniform
    · right
      exact ((T.pt p).precise _ (by omega)).resolve_right (last_row_eight he hwidth hcover)
  · rintro (huniform | hlast)
    · exact Or.inl huniform
    · right
      intro j hj i hi
      rcases (T.pt p).precise (T.firstRow p e + j) (by omega) with h8 | h4
      · refine ⟨T.firstRow p e + j, by omega, by omega, by omega, ?_⟩
        rw [rowBytes, if_pos h8]
        omega
      · -- a 4-bit row runs on into the next one, which is long enough
        have hnext : j ≠ T.rows p - 1 := by
          rintro rfl
          omega
        have hstart := hpacked (T.firstRow p e + j) (by omega)
        rw [rowBytes, if_neg (by omega)] at hstart
        rcases Nat.lt_or_ge i (((T.pt p).cols + 1) / 2) with hhalf | hhalf
        · refine ⟨T.firstRow p e + j, by omega, by omega, by omega, ?_⟩
          rw [rowBytes, if_neg (by omega)]
          omega
        · refine ⟨T.firstRow p e + j + 1, by omega, by omega, by omega, ?_⟩
          rw [rowBytes]
          split
          · omega
          · omega

end ExpertTensors

/-! ### Declining -/

section Declining

variable {F : Type*} [Field F] [LinearOrder F] (A : Conversions F)

def DevTensor.Declines (W : DevTensor F) : Prop :=
  if W.prec = 4 then W.nIn % 32 ≠ 0 else W.nIn % 4 ≠ 0

theorem gemv_declines {W : DevTensor F} (hplain : W.f32 = none) (h : W.Declines)
    (x dY : Nat → F) (s : Scratch F) : gemvWPacked A W x dY s = none := by
  simp only [DevTensor.Declines] at h
  simp only [gemvWPacked, hplain, Option.isSome_none, Bool.false_eq_true, if_false]
  split
  case isTrue hprec =>
    rw [if_pos hprec] at h
    rw [if_pos h]
  case isFalse hprec =>
    rw [if_neg hprec] at h
    rw [if_neg (by omega), if_neg h]

theorem gemv_takes {W : DevTensor F} (hplain : W.f32 = none) (h : ¬ W.Declines)
    (x dY : Nat → F) (s : Scratch F) : ∃ r, gemvWPacked A W x dY s = some r := by
  simp only [DevTensor.Declines] at h
  simp only [gemvWPacked, hplain, Option.isSome_none, Bool.false_eq_true, if_false]
  split
  case isTrue hprec =>
    rw [if_pos hprec] at h
    rw [if_neg h]
    cases W.bscale with
    | none => exact ⟨_, rfl⟩
    | some b => exact ⟨_, rfl⟩
  case isFalse hprec =>
    rw [if_neg hprec, not_not] at h
    split
    · exact ⟨_, rfl⟩
    · exact ⟨_, rfl⟩

/-- The state after a product. -/
def MoeState.ran (d : MoeState F) (p : Proj) (e : Nat) (W : DevTensor F) (s : Scratch F) :
    MoeState F :=
  { d with scratch := s, uses := d.uses ++ [⟨p, e, W⟩] }

variable (p : Proj) (e : Nat) {W : DevTensor F} (x dY : Nat → F) (d : MoeState F)

theorem product_declined (hplain : W.f32 = none) (h : W.Declines) :
    product A p e W x dY d = .error d.uses := by
  simp only [product, gemv_declines A hplain h]

theorem product_taken (hplain : W.f32 = none) (h : ¬ W.Declines) :
    ∃ r, gemvWPacked A W x dY d.scratch = some r ∧
      product A p e W x dY d = .ok (r.1, d.ran p e W r.2) := by
  obtain ⟨r, hr⟩ := gemv_takes A hplain h x dY d.scratch
  refine ⟨r, hr, ?_⟩
  simp only [product, hr, MoeState.ran]

end Declining

/-! ### One product on both paths -/

section Pair

variable {F : Type*} [Field F] [LinearOrder F] (A : Conversions F) (single : BitVec 32 → F)

omit [LinearOrder F] in
theorem upload_holds {pt : HostTensor} {W : DevTensor F}
    (hup : uploadPacked (pt.packed single) = some W) :
    W.Holds single pt 0 pt.rows 0 ∧ W.prec = pt.slicePrec 0 pt.rows ∧
      (pt.bscale.isSome = true ∨ pt.rowScale.isSome = true) := by
  have hprec : (if 0 < pt.rows && (List.range' 1 (pt.rows - 1)).all fun r =>
      pt.rowPrec r == pt.rowPrec 0 then pt.rowPrec 0 else 0) = pt.slicePrec 0 pt.rows := by
    simp only [HostTensor.slicePrec, pt.rows_pos, decide_true, Bool.true_and, Nat.zero_add]
  simp only [uploadPacked, HostTensor.packed] at hup
  cases hb : pt.bscale with
  | none =>
    cases hs : pt.rowScale with
    | none => simp [hb, hs] at hup
    | some s =>
      simp only [hb, hs, Option.map_some, Option.isNone_none, Option.isNone_some,
        Bool.and_false, Bool.false_eq_true, if_false, Option.some.injEq] at hup
      subst hup
      refine ⟨?_, hprec, by simp⟩
      constructor
      case scales =>
        intro _
        refine ⟨rfl, ?_⟩
        intro j _
        simp only [DevTensor.scaleOf, HostTensor.scaleOf, hs, Option.map_some, Option.getD_some,
          Nat.zero_add]
      case blocks =>
        intro b hb'
        rw [hb] at hb'
        cases hb'
      all_goals simp
  | some b =>
    simp only [hb, Option.isNone_some, Bool.false_and, Bool.false_eq_true, if_false,
      Option.some.injEq] at hup
    subst hup
    refine ⟨?_, hprec, by simp⟩
    constructor
    case scales =>
      intro hnone
      rw [hb] at hnone
      cases hnone
    case blocks =>
      intro b' hb'
      rw [hb] at hb'
      cases hb'
      exact ⟨b, rfl, by simp⟩
    all_goals simp

omit [LinearOrder F] in
/-- The view of an expert holds its rows. -/
theorem view_holds {pt : HostTensor} {W : DevTensor F} (hW : W.Holds single pt 0 pt.rows 0)
    {e rows : Nat} (hfit : e * rows + rows ≤ pt.rows) :
    (q36ExpertView W e rows).Holds single pt (e * rows) rows 0 := by
  constructor
  · exact hW.plain
  · exact hW.width
  · rfl
  · intro j hj
    have hstart := hW.starts (e * rows + j) (by omega)
    rw [Nat.zero_add (e * rows + j)] at hstart
    exact hstart
  · intro j hj
    have hprec := hW.precs (e * rows + j) (by omega)
    rw [Nat.zero_add] at hprec
    exact hprec
  · intro a ha
    have hle := pt.codesEnd_le hfit
    have hall : pt.codesEnd (0 + pt.rows) = pt.codesBytes := by
      rw [Nat.zero_add, HostTensor.codesEnd, if_neg (Nat.lt_irrefl _)]
    exact hW.codes a (by omega)
  · intro hb
    obtain ⟨hnone, hscale⟩ := hW.scales hb
    constructor
    · simp only [q36ExpertView, hnone, Option.map_none]
    · intro j hj
      have hrow := hscale (e * rows + j) (by omega)
      rw [Nat.zero_add] at hrow
      rw [← hrow]
      cases hs : W.rowScale with
      | none => simp only [DevTensor.scaleOf, q36ExpertView, hs, Option.map_none]
      | some s => simp only [DevTensor.scaleOf, q36ExpertView, hs, Option.map_some]
  · intro b hb
    obtain ⟨b', hsome, hblock⟩ := hW.blocks b hb
    refine ⟨fun i => b' (e * rows * W.bsNblk + i), ?_, ?_⟩
    · simp only [q36ExpertView, hsome, Option.map_some]
    · intro j hj c hc
      have hrow := hblock (e * rows + j) (by omega) c hc
      rw [Nat.zero_add] at hrow
      have hplace : e * rows * W.bsNblk + (j * W.bsNblk + c) = (e * rows + j) * W.bsNblk + c := by
        ring
      rw [← hrow, ← hplace]
      rfl

/-- A product uses exactly the rows of its expert: the tensor holds these, its codes from
`base` on, and the bytes the kernels take are bytes of these. -/
def Use.OwnRows (T : ExpertTensors) (base : Proj → Nat → Nat) (u : Use F) : Prop :=
  u.W.Holds single (T.pt u.proj) (T.firstRow u.proj u.expert) (T.rows u.proj)
      (base u.proj u.expert) ∧
    ∀ a ∈ u.W.codeReads,
      (T.pt u.proj).InRows (T.firstRow u.proj u.expert) (T.rows u.proj)
        (base u.proj u.expert + a)

/-- The codes of a view start where the tensor's do, those of a slice with its rows. -/
def residentBase (_ : Proj) (_ : Nat) : Nat := 0

def stagedBase (T : ExpertTensors) (p : Proj) (e : Nat) : Nat :=
  (T.pt p).rowOff (T.firstRow p e)

/-- An expert's tensor on the two paths. -/
structure Pair (T : ExpertTensors) (p : Proj) (e : Nat) (W W' : DevTensor F) : Prop where
  bound : e < T.NE
  view : W.Holds single (T.pt p) (T.firstRow p e) (T.rows p) (residentBase p e)
  staged : W'.Holds single (T.pt p) (T.firstRow p e) (T.rows p) (stagedBase T p e)
  prec : W.prec = (T.pt p).slicePrec 0 (T.pt p).rows
  prec' : W'.prec = (T.pt p).slicePrec (T.firstRow p e) (T.rows p)

namespace Pair

variable {single} {T : ExpertTensors} {p : Proj} {e : Nat} {W W' : DevTensor F}

section

variable (h : Pair single T p e W W')

include h

omit [LinearOrder F]

/-- The view has the precision of the tensor's rows, and the slice that of its own. -/
theorem prec_iff {n : Nat} (hn : 0 < n) :
    W.prec = n ↔ ∀ r < (T.pt p).rows, (T.pt p).rowPrec r = n := by
  rw [h.prec, HostTensor.slicePrec_iff (T.pt p).rows_pos hn]
  simp only [Nat.zero_add]

theorem prec'_iff {n : Nat} (hn : 0 < n) :
    W'.prec = n ↔ ∀ j < T.rows p, (T.pt p).rowPrec (T.firstRow p e + j) = n := by
  rw [h.prec', HostTensor.slicePrec_iff (T.rows_pos p) hn]

theorem prec'_of_prec {n : Nat} (hn : 0 < n) (hprec : W.prec = n) : W'.prec = n := by
  have hfit := T.slice_fits (p := p) h.bound
  rw [h.prec'_iff hn]
  intro j hj
  exact (h.prec_iff hn).mp hprec _ (by omega)

theorem declines_iff : W.Declines ↔ T.Declined p := by
  have hall : W.prec = 4 ↔ ∀ r < (T.pt p).rows, (T.pt p).rowPrec r = 4 := h.prec_iff (by omega)
  rw [DevTensor.Declines, ExpertTensors.Declined, ← hall, h.view.width]
  split
  case isTrue hprec =>
    constructor
    · intro h32
      exact Or.inr ⟨hprec, h32⟩
    · rintro (h4 | ⟨-, h32⟩)
      · omega
      · exact h32
  case isFalse hprec =>
    constructor
    · exact Or.inl
    · rintro (h4 | ⟨h4, -⟩)
      · exact h4
      · exact absurd h4 hprec

theorem staged_declines (hdec : T.Declined p) : W'.Declines := by
  rw [DevTensor.Declines, h.staged.width]
  split
  case isTrue =>
    rcases hdec with h4 | ⟨-, h32⟩
    · omega
    · exact h32
  case isFalse hprec =>
    rcases hdec with h4 | ⟨hall, -⟩
    · exact h4
    · exact absurd (h.prec'_of_prec (by omega) ((h.prec_iff (by omega)).mpr hall)) hprec

/-- On both paths a product that is served runs the same kernels. -/
theorem four_iff (hdec : ¬ T.Declined p) (hserved : T.Served p e) : W'.prec = 4 ↔ W.prec = 4 := by
  constructor
  · intro hprec'
    have hfour := (h.prec'_iff (by omega)).mp hprec'
    have hpos := T.rows_pos p
    have hfit := T.slice_fits (p := p) h.bound
    rcases hserved with huniform | hcover
    · rw [h.prec_iff (by omega)]
      intro r hr
      rw [huniform r hr, ← huniform (T.firstRow p e + 0) (by omega), hfour 0 hpos]
    · have hwidth : (T.pt p).cols % 4 = 0 := by
        by_contra hne
        exact hdec (Or.inl hne)
      exact absurd (hfour (T.rows p - 1) (by omega))
        (ExpertTensors.last_row_eight h.bound hwidth hcover)
  · exact h.prec'_of_prec (by omega)

/-- The bytes a served product takes are bytes of its rows. -/
theorem takes_inRows (hserved : T.Served p e) {j i : Nat} (hj : j < T.rows p) (hi : i < W.takes) :
    (T.pt p).InRows (T.firstRow p e) (T.rows p) ((T.pt p).rowOff (T.firstRow p e + j) + i) := by
  have hfit := T.slice_fits (p := p) h.bound
  rw [DevTensor.takes, h.view.width] at hi
  rcases hserved with huniform | hcover
  · refine ⟨T.firstRow p e + j, by omega, by omega, by omega, ?_⟩
    have hsame := huniform (T.firstRow p e + j) (by omega)
    rcases (T.pt p).precise 0 (T.pt p).rows_pos with h0 | h0
    · have hprec := (h.prec_iff (n := 8) (by omega)).mpr (fun r hr => by rw [huniform r hr, h0])
      rw [if_neg (by omega)] at hi
      rw [hsame, h0, rowBytes, if_pos rfl]
      omega
    · have hprec := (h.prec_iff (n := 4) (by omega)).mpr (fun r hr => by rw [huniform r hr, h0])
      rw [if_pos hprec] at hi
      rw [hsame, h0, rowBytes, if_neg (by omega)]
      omega
  · apply hcover j hj
    split at hi
    · omega
    · exact hi

theorem own_view (hserved : T.Served p e) : (⟨p, e, W⟩ : Use F).OwnRows single T residentBase := by
  refine ⟨h.view, ?_⟩
  intro a ha
  obtain ⟨j, hj, i, hi, rfl⟩ := W.mem_codeReads.mp ha
  rw [h.view.height] at hj
  have hin := h.takes_inRows hserved hj hi
  have hstart := h.view.starts j hj
  rw [← hstart, Nat.add_assoc] at hin
  exact hin

theorem own_staged (hdec : ¬ T.Declined p) (hserved : T.Served p e) :
    (⟨p, e, W'⟩ : Use F).OwnRows single T (stagedBase T) := by
  refine ⟨h.staged, ?_⟩
  intro a ha
  obtain ⟨j, hj, i, hi, rfl⟩ := W'.mem_codeReads.mp ha
  rw [h.staged.height] at hj
  have htakes : W'.takes = W.takes := by
    simp only [DevTensor.takes, h.four_iff hdec hserved, h.view.width, h.staged.width]
  rw [htakes] at hi
  have hin := h.takes_inRows hserved hj hi
  have hstart := h.staged.starts j hj
  rw [← hstart, Nat.add_assoc] at hin
  exact hin

/-- Where the view keeps to the rows of its expert, the product is served. -/
theorem served_of_own (hown : (⟨p, e, W⟩ : Use F).OwnRows single T residentBase) :
    T.Served p e := by
  by_cases huniform : (T.pt p).Uniform
  · exact Or.inl huniform
  · right
    intro j hj i hi
    have hprec : W.prec ≠ 4 := by
      intro hfour
      have hall := (h.prec_iff (by omega)).mp hfour
      apply huniform
      intro r hr
      rw [hall r hr, hall 0 (T.pt p).rows_pos]
    have hread : W.rowOff j + i ∈ W.codeReads := by
      rw [W.mem_codeReads]
      refine ⟨j, ?_, i, ?_, rfl⟩
      · rw [h.view.height]
        exact hj
      · rw [DevTensor.takes, if_neg hprec, h.view.width]
        exact hi
    have hin := hown.2 _ hread
    have hstart := h.view.starts j hj
    rw [← hstart, Nat.add_assoc]
    exact hin

end

variable [IsStrictOrderedRing F]

/-- A product that is served gives the same on both paths. -/
theorem same_run (h : Pair single T p e W W') (hdec : ¬ T.Declined p) (hserved : T.Served p e)
    (x dY : Nat → F) (s : Scratch F) : gemvWPacked A W' x dY s = gemvWPacked A W x dY s := by
  apply twin_run A h.view h.staged (h.four_iff hdec hserved)
  · intro hblocked
    rw [h.prec_iff (by omega)]
    exact (T.pt p).blocked hblocked
  · intro a ha
    have hin := (h.own_view hserved).2 a ha
    exact (hin.bounds (T.slice_fits h.bound)).2

end Pair

end Pair

/-! ### One expert on both paths -/

section Flow

variable {F : Type*} [Field F] [LinearOrder F] (A : Conversions F) (silu : F → F)
  {FF E e : Nat} {wt : F} {W W' : Proj → DevTensor F} {d d' : MoeState F}

/-- The state after the products of an expert. -/
def MoeState.done (m : MoeState F) (dG dU dDe : Nat → F) (wt : F) (FF E : Nat) : MoeState F :=
  { m with dG := kSiluMul silu FF dG dU, dU, dDe, dYo := dgKAxpy m.dYo dDe wt E }

section Runs

variable {g u v : (Nat → F) × Scratch F}

theorem flow_gate_declined (hg : product A .gate e (W .gate) d.dX d.dG d = .error d.uses) :
    expertFlow A silu FF E e wt W d = .error d.uses := by
  simp only [expertFlow, hg, bind, Except.bind]

variable (hg : product A .gate e (W .gate) d.dX d.dG d = .ok (g.1, d.ran .gate e (W .gate) g.2))

include hg

theorem flow_up_declined {m : MoeState F} (hm : m = d.ran .gate e (W .gate) g.2)
    (hu : product A .up e (W .up) m.dX m.dU m = .error m.uses) :
    expertFlow A silu FF E e wt W d = .error m.uses := by
  subst hm
  simp only [expertFlow, hg, hu, bind, Except.bind]

theorem flow_down_declined {m n : MoeState F} (hm : m = d.ran .gate e (W .gate) g.2)
    (hu : product A .up e (W .up) m.dX m.dU m = .ok (u.1, n))
    (hd : product A .down e (W .down) (kSiluMul silu FF g.1 u.1) n.dDe n = .error n.uses) :
    expertFlow A silu FF E e wt W d = .error n.uses := by
  subst hm
  simp only [expertFlow, hg, hu, hd, bind, Except.bind]

theorem flow_done {m n r : MoeState F} (hm : m = d.ran .gate e (W .gate) g.2)
    (hu : product A .up e (W .up) m.dX m.dU m = .ok (u.1, n))
    (hd : product A .down e (W .down) (kSiluMul silu FF g.1 u.1) n.dDe n = .ok (v.1, r)) :
    expertFlow A silu FF E e wt W d = .ok (r.done silu g.1 u.1 v.1 wt FF E) := by
  subst hm
  simp only [expertFlow, hg, hu, hd, bind, Except.bind, pure, Except.pure, MoeState.done]

end Runs

/-- Where an expert's flow ends, with the products it has run. -/
theorem expertFlow_cases (FF E e : Nat) (wt : F) (W : Proj → DevTensor F) (d : MoeState F)
    (hplain : ∀ p, (W p).f32 = none) :
    ((W .gate).Declines ∧ expertFlow A silu FF E e wt W d = .error d.uses) ∨
    (¬ (W .gate).Declines ∧ (W .up).Declines ∧
      expertFlow A silu FF E e wt W d = .error (d.uses ++ [⟨.gate, e, W .gate⟩])) ∨
    (¬ (W .gate).Declines ∧ ¬ (W .up).Declines ∧ (W .down).Declines ∧
      expertFlow A silu FF E e wt W d =
        .error (d.uses ++ [⟨.gate, e, W .gate⟩] ++ [⟨.up, e, W .up⟩])) ∨
    (¬ (W .gate).Declines ∧ ¬ (W .up).Declines ∧ ¬ (W .down).Declines ∧
      ∃ m, expertFlow A silu FF E e wt W d = .ok m ∧
        m.uses = d.uses ++ [⟨.gate, e, W .gate⟩] ++ [⟨.up, e, W .up⟩] ++
          [⟨.down, e, W .down⟩]) := by
  by_cases hg : (W .gate).Declines
  · left
    refine ⟨hg, ?_⟩
    exact flow_gate_declined A silu (product_declined A .gate e _ _ d (hplain .gate) hg)
  right
  obtain ⟨g, -, hrunG⟩ := product_taken A .gate e d.dX d.dG d (hplain .gate) hg
  by_cases hu : (W .up).Declines
  · left
    refine ⟨hg, hu, ?_⟩
    exact flow_up_declined A silu hrunG rfl (product_declined A .up e _ _ _ (hplain .up) hu)
  right
  obtain ⟨u, -, hrunU⟩ := product_taken A .up e _ _ (d.ran .gate e (W .gate) g.2) (hplain .up) hu
  by_cases hd : (W .down).Declines
  · left
    refine ⟨hg, hu, hd, ?_⟩
    exact flow_down_declined A silu hrunG rfl hrunU
      (product_declined A .down e _ _ _ (hplain .down) hd)
  right
  obtain ⟨v, -, hrunD⟩ := product_taken A .down e (kSiluMul silu FF g.1 u.1) _
    ((d.ran .gate e (W .gate) g.2).ran .up e (W .up) u.2) (hplain .down) hd
  exact ⟨hg, hu, hd, _, flow_done A silu hrunG rfl hrunU hrunD, rfl⟩

/-- The states of the two paths between experts. -/
structure Alike (d d' : MoeState F) : Prop where
  dX : d'.dX = d.dX
  dG : d'.dG = d.dG
  dU : d'.dU = d.dU
  dDe : d'.dDe = d.dDe
  dYo : d'.dYo = d.dYo
  scratch : d'.scratch = d.scratch

namespace Alike

omit [Field F] [LinearOrder F] in
theorem ran (h : Alike d d') (p : Proj) (W W' : DevTensor F) (s : Scratch F) :
    Alike (d.ran p e W s) (d'.ran p e W' s) :=
  ⟨h.dX, h.dG, h.dU, h.dDe, h.dYo, rfl⟩

omit [LinearOrder F] in
theorem done (h : Alike d d') (dG dU dDe : Nat → F) :
    Alike (d.done silu dG dU dDe wt FF E) (d'.done silu dG dU dDe wt FF E) := by
  refine ⟨h.dX, rfl, rfl, rfl, ?_, h.scratch⟩
  simp only [MoeState.done, h.dYo]

end Alike

variable (single : BitVec 32 → F) {T : ExpertTensors}

/-- All products of a list use exactly the rows of their experts. -/
def OwnAll (T : ExpertTensors) (base : Proj → Nat → Nat) (uses : List (Use F)) : Prop :=
  ∀ u ∈ uses, u.OwnRows single T base

variable {single}

omit [LinearOrder F] in
theorem OwnAll.snoc {base : Proj → Nat → Nat} {uses : List (Use F)} {u : Use F}
    (h : OwnAll single T base uses) (hu : u.OwnRows single T base) :
    OwnAll single T base (uses ++ [u]) := by
  intro x hx
  rcases List.mem_append.mp hx with hold | hnew
  · exact h x hold
  · rw [List.mem_singleton.mp hnew]
    exact hu

/-- What the two paths have in common: the state, and that they use the rows of their
experts. -/
structure Linked (single : BitVec 32 → F) (T : ExpertTensors) (d d' : MoeState F) : Prop where
  alike : Alike d d'
  own : OwnAll single T residentBase d.uses
  own' : OwnAll single T (stagedBase T) d'.uses

theorem linked_declined {p : Proj} {W W' : DevTensor F} (h : Pair single T p e W W')
    (hdec : T.Declined p) (d d' : MoeState F) (x dY x' dY' : Nat → F) :
    product A p e W x dY d = .error d.uses ∧ product A p e W' x' dY' d' = .error d'.uses := by
  constructor
  · exact product_declined A p e x dY d h.view.plain (h.declines_iff.mpr hdec)
  · exact product_declined A p e x' dY' d' h.staged.plain (h.staged_declines hdec)

variable [IsStrictOrderedRing F]

/-- A product that is served keeps the states linked. -/
theorem linked_served {p : Proj} {W W' : DevTensor F} (h : Pair single T p e W W')
    (hlink : Linked single T d d') (hdec : ¬ T.Declined p) (hserved : T.Served p e)
    {x x' dY dY' : Nat → F} (hx : x' = x) (hdY : dY' = dY) :
    ∃ r : (Nat → F) × Scratch F,
      product A p e W x dY d = .ok (r.1, d.ran p e W r.2) ∧
      product A p e W' x' dY' d' = .ok (r.1, d'.ran p e W' r.2) ∧
      Linked single T (d.ran p e W r.2) (d'.ran p e W' r.2) := by
  obtain ⟨r, hr, hrun⟩ := product_taken A p e x dY d h.view.plain (mt h.declines_iff.mp hdec)
  refine ⟨r, hrun, ?_, ?_⟩
  · rw [← h.same_run A hdec hserved, ← hlink.alike.scratch, ← hx, ← hdY] at hr
    simp only [product, hr, MoeState.ran]
  · exact ⟨hlink.alike.ran p W W' r.2, hlink.own.snoc (h.own_view hserved),
      hlink.own'.snoc (h.own_staged hdec hserved)⟩

/-- The outcomes of the two paths after an expert. -/
inductive LinkedCall (single : BitVec 32 → F) (T : ExpertTensors) (next : Prop) :
    MoeCall F (MoeState F) → MoeCall F (MoeState F) → Prop where
  | ended {u u' : List (Use F)} (own : OwnAll single T residentBase u)
      (own' : OwnAll single T (stagedBase T) u') : LinkedCall single T next (.error u) (.error u')
  | going {m m' : MoeState F} (link : Linked single T m m') (meets : next) :
      LinkedCall single T next (.ok m) (.ok m')

/-- As far as its products are served, an expert's flow keeps the paths linked. -/
theorem expertFlow_linked (h : ∀ p, Pair single T p e (W p) (W' p))
    (hlink : Linked single T d d') {rest : List (Proj × Nat)}
    (hmeets : T.Meets ((.gate, e) :: (.up, e) :: (.down, e) :: rest)) :
    LinkedCall single T (T.Meets rest) (expertFlow A silu FF E e wt W d)
      (expertFlow A silu FF E e wt W' d') := by
  by_cases hg : T.Declined .gate
  · obtain ⟨hrun, hrun'⟩ := linked_declined A (h .gate) hg d d' d.dX d.dG d'.dX d'.dG
    rw [flow_gate_declined A silu hrun, flow_gate_declined A silu hrun']
    exact .ended hlink.own hlink.own'
  obtain ⟨hservedG, hmeets⟩ := hmeets.resolve_left hg
  obtain ⟨g, hrunG, hrunG', hlinkG⟩ :=
    linked_served A (h .gate) hlink hg hservedG hlink.alike.dX hlink.alike.dG
  by_cases hu : T.Declined .up
  · obtain ⟨hrun, hrun'⟩ := linked_declined A (h .up) hu _ _ _ _ _ _
    rw [flow_up_declined A silu hrunG rfl hrun, flow_up_declined A silu hrunG' rfl hrun']
    exact .ended hlinkG.own hlinkG.own'
  obtain ⟨hservedU, hmeets⟩ := hmeets.resolve_left hu
  obtain ⟨u, hrunU, hrunU', hlinkU⟩ :=
    linked_served A (h .up) hlinkG hu hservedU hlinkG.alike.dX hlinkG.alike.dU
  by_cases hd : T.Declined .down
  · obtain ⟨hrun, hrun'⟩ := linked_declined A (h .down) hd _ _ _ _ _ _
    rw [flow_down_declined A silu hrunG rfl hrunU hrun,
      flow_down_declined A silu hrunG' rfl hrunU' hrun']
    exact .ended hlinkU.own hlinkU.own'
  obtain ⟨hservedD, hmeets⟩ := hmeets.resolve_left hd
  obtain ⟨v, hrunD, hrunD', hlinkD⟩ :=
    linked_served A (h .down) hlinkU hd hservedD (rfl : kSiluMul silu FF g.1 u.1 = _)
      hlinkU.alike.dDe
  rw [flow_done A silu hrunG rfl hrunU hrunD, flow_done A silu hrunG' rfl hrunU' hrunD']
  exact .going ⟨hlinkD.alike.done silu _ _ _, hlinkD.own, hlinkD.own'⟩ hmeets

end Flow

/-! ### Runs -/

/-- The output of a call, none when it ends early, and the products it ran. -/
def MoeCall.output {F : Type*} : MoeCall F (List F × List (Use F)) → Option (List F)
  | .error _ => none
  | .ok r => some r.1

def MoeCall.uses {F : Type*} : MoeCall F (List F × List (Use F)) → List (Use F)
  | .error u => u
  | .ok r => r.2

section Runs

variable {F : Type*} [Field F] [LinearOrder F] (A : Conversions F) (silu : F → F)
  {single : BitVec 32 → F} {T : ExpertTensors} {tag : String} {M : MoeEnt F}
  {d d' : MoeState F}

omit [Field F] [LinearOrder F] in
theorem upload_ent (hup : q36gpuUploadExperts single tag T.pt T.NE T.FF T.E = some M) :
    M.FF = T.FF ∧ M.E = T.E ∧ ∀ p, uploadPacked ((T.pt p).packed single) = some (M.dt p) := by
  simp only [q36gpuUploadExperts, bind, Option.bind_eq_some_iff, pure, Option.some.injEq] at hup
  obtain ⟨g, hg, u, hu, v, hv, rfl⟩ := hup
  refine ⟨rfl, rfl, ?_⟩
  intro p
  cases p
  · exact hg
  · exact hu
  · exact hv

omit [LinearOrder F] in
/-- An expert's slices can be staged, and with the views they hold its rows. -/
theorem staged_pairs (hup : q36gpuUploadExperts single tag T.pt T.NE T.FF T.E = some M)
    {e : Nat} (he : e < T.NE) (pin slab : Bytes) (slabK : Nat) :
    ∃ r, stageSlices T.pt T.FF T.E e pin slabK = some r ∧
      ∀ p, Pair single T p e (q36ExpertView (M.dt p) e (sliceRows T.FF T.E p))
        ((r.1 p).dev single (Buffer.store slab slabK r.2.2 r.2.1)) := by
  obtain ⟨-, -, hdt⟩ := upload_ent hup
  obtain ⟨r, hr⟩ := stageSlices_total pin slabK fun p => (upload_holds single (hdt p)).2.2
  refine ⟨r, hr, ?_⟩
  intro p
  have hfit := fun q => T.slice_fits (p := q) he
  have hmirror : ∀ a, a < r.2.2 →
      Buffer.store slab slabK r.2.2 r.2.1 (slabK + a) = r.2.1 a := by
    intro a ha
    exact Buffer.store_inside ha
  obtain ⟨hstaged, hprec'⟩ := stageSlices_holds single hr hfit hmirror p
  obtain ⟨hwhole, hprec, -⟩ := upload_holds single (hdt p)
  exact ⟨he, view_holds single hwhole (hfit p), hstaged, hprec, hprec'⟩

/-- One expert of a resident call. -/
def residentStep (T : ExpertTensors) (M : MoeEnt F) (d : MoeState F) (s : Nat × F) :
    MoeCall F (MoeState F) :=
  expertFlow A silu T.FF T.E s.1 s.2
    (fun p => q36ExpertView (M.dt p) s.1 (sliceRows T.FF T.E p)) d

/-- One of a streamed call. -/
def streamStep (single : BitVec 32 → F) (T : ExpertTensors) (d : MoeState F)
    (s : (Nat × F) × Nat) : MoeCall F (MoeState F) :=
  streamExpert A silu single T.pt T.FF T.E s.2 s.1.1 s.1.2 d

/-- The products a run has made so far. -/
def runUses : MoeCall F (MoeState F) → List (Use F)
  | .error u => u
  | .ok m => m.uses

/-- Later experts leave the products of the earlier ones. -/
theorem run_keeps_uses (T : ExpertTensors) (hplain : ∀ p, (M.dt p).f32 = none) (sel : List (Nat × F))
    (d : MoeState F) :
    d.uses <+: runUses (sel.foldlM (residentStep A silu T M) d) := by
  induction sel generalizing d with
  | nil => exact List.prefix_refl _
  | cons s sel ih =>
      rw [List.foldlM_cons]
      obtain ⟨-, hrun⟩ | ⟨-, -, hrun⟩ | ⟨-, -, -, hrun⟩ | ⟨-, -, -, m, hrun, huses⟩ :=
        expertFlow_cases A silu T.FF T.E s.1 s.2
          (fun p => q36ExpertView (M.dt p) s.1 (sliceRows T.FF T.E p)) d hplain
      all_goals simp only [residentStep, hrun, bind, Except.bind, runUses]
      · exact List.prefix_refl _
      · exact List.prefix_append _ _
      · rw [List.append_assoc]
        exact List.prefix_append _ _
      · refine List.IsPrefix.trans ?_ (ih m)
        rw [huses, List.append_assoc, List.append_assoc]
        exact List.prefix_append _ _

/-- Where a resident run keeps to the rows of its experts, it is served. -/
theorem resident_meets (hup : q36gpuUploadExperts single tag T.pt T.NE T.FF T.E = some M)
    (sel : List (Nat × F)) (hsel : ∀ s ∈ sel, s.1 < T.NE) (d : MoeState F)
    (hown : OwnAll single T residentBase (runUses (sel.foldlM (residentStep A silu T M) d))) :
    T.Meets (ExpertTensors.steps sel) := by
  induction sel generalizing d with
  | nil => trivial
  | cons s sel ih =>
      obtain ⟨r, -, hpair⟩ := staged_pairs hup (hsel s (List.mem_cons_self ..))
        (fun _ => 0) (fun _ => 0) 0
      have hplain : ∀ p, (q36ExpertView (M.dt p) s.1 (sliceRows T.FF T.E p)).f32 = none :=
        fun p => (hpair p).view.plain
      rw [List.foldlM_cons] at hown
      rw [ExpertTensors.steps_cons]
      obtain ⟨hg, hrun⟩ | ⟨hg, hu, hrun⟩ | ⟨hg, hu, hd, hrun⟩ | ⟨hg, hu, hd, m, hrun, huses⟩ :=
        expertFlow_cases A silu T.FF T.E s.1 s.2
          (fun p => q36ExpertView (M.dt p) s.1 (sliceRows T.FF T.E p)) d hplain
      all_goals simp only [residentStep, hrun, bind, Except.bind] at hown
      · exact Or.inl ((hpair .gate).declines_iff.mp hg)
      · right
        refine ⟨(hpair .gate).served_of_own (hown _ (by simp [runUses])), ?_⟩
        exact Or.inl ((hpair .up).declines_iff.mp hu)
      · right
        refine ⟨(hpair .gate).served_of_own (hown _ (by simp [runUses])), ?_⟩
        right
        refine ⟨(hpair .up).served_of_own (hown _ (by simp [runUses])), ?_⟩
        exact Or.inl ((hpair .down).declines_iff.mp hd)
      · -- the products of this expert are among those of the run
        have hkeep := (run_keeps_uses A silu T hplain sel m).subset
        rw [huses] at hkeep
        right
        refine ⟨(hpair .gate).served_of_own (hown _ (hkeep (by simp))), ?_⟩
        right
        refine ⟨(hpair .up).served_of_own (hown _ (hkeep (by simp))), ?_⟩
        right
        refine ⟨(hpair .down).served_of_own (hown _ (hkeep (by simp))), ?_⟩
        apply ih
        · intro s' hs'
          exact hsel s' (List.mem_cons_of_mem s hs')
        · exact hown

variable [IsStrictOrderedRing F]

/-- As far as its products are served, a selection keeps the two paths linked. -/
theorem run_linked (hup : q36gpuUploadExperts single tag T.pt T.NE T.FF T.E = some M)
    (sel : List (Nat × F)) (hsel : ∀ s ∈ sel, s.1 < T.NE)
    (hmeets : T.Meets (ExpertTensors.steps sel)) (n : Nat) (hlink : Linked single T d d') :
    LinkedCall single T True (sel.foldlM (residentStep A silu T M) d)
      ((sel.zipIdx n).foldlM (streamStep A silu single T) d') := by
  induction sel generalizing n d d' with
  | nil => exact .going hlink trivial
  | cons s sel ih =>
      obtain ⟨r, hstage, hpair⟩ := staged_pairs hup (hsel s (List.mem_cons_self ..))
        (d'.pin (n % 2)) d'.slab (n * perExpert T.FF T.E)
      rw [List.zipIdx_cons, List.foldlM_cons, List.foldlM_cons]
      simp only [streamStep, streamExpert, hstage, residentStep]
      have hcopied : Linked single T d { d' with
          pin := Function.update d'.pin (n % 2) r.2.1
          slab := Buffer.store d'.slab (n * perExpert T.FF T.E) r.2.2 r.2.1 } :=
        ⟨⟨hlink.alike.dX, hlink.alike.dG, hlink.alike.dU, hlink.alike.dDe, hlink.alike.dYo,
          hlink.alike.scratch⟩, hlink.own, hlink.own'⟩
      have hflow : LinkedCall single T (T.Meets (ExpertTensors.steps sel))
          (expertFlow A silu T.FF T.E s.1 s.2 _ _) (expertFlow A silu T.FF T.E s.1 s.2 _ _) :=
        expertFlow_linked A silu hpair hcopied hmeets
      generalize expertFlow A silu T.FF T.E s.1 s.2 _ d = call at hflow ⊢
      generalize expertFlow A silu T.FF T.E s.1 s.2 _ _ = call' at hflow ⊢
      cases hflow with
      | ended own own' => exact .ended own own'
      | going link meets =>
          apply ih _ meets _ link
          intro s' hs'
          exact hsel s' (List.mem_cons_of_mem s hs')

end Runs

/-! ### Layers with a step in precision -/

section Stepped

/-- Thirty-two rows of width 16 over the bytes 1, the first `k` of them 8-bit. -/
def steppedTensor (k : Nat) : HostTensor where
  rows := 32
  cols := 16
  codesBytes := 16 * min 32 k + 8 * (32 - k)
  codes _ := 1
  rowOff r := 16 * min r k + 8 * (r - k)
  rowScale := some fun _ => 0x3F800000#32
  rowPrec r := if r < k then 8 else 4
  bscale := none
  bsNblk := 0
  rows_pos := by omega
  cols_pos := by omega
  precise r _ := by
    split
    · exact Or.inl rfl
    · exact Or.inr rfl
  blocked h := absurd h Bool.false_ne_true
  blocks h := absurd h Bool.false_ne_true
  ascending r hr := by
    rcases Nat.lt_or_ge r k with hk | hk
    · simp only [rowBytes, if_pos hk, if_true]
      split
      · omega
      · omega
    · rw [if_neg (Nat.not_lt.mpr hk), rowBytes, if_neg (by omega)]
      split
      · omega
      · omega
  addressable := by omega

/-- Two experts of 16 rows, with the step in the gate tensor. -/
def steppedLayer (k : Nat) : ExpertTensors where
  NE := 2
  FF := 16
  E := 16
  pt := Proj.of (steppedTensor k) (steppedTensor 32) (steppedTensor 32)
  gate_shape := ⟨rfl, rfl⟩
  up_shape := ⟨rfl, rfl⟩
  down_shape := ⟨rfl, rfl⟩

def steppedUpload (k : Nat) : Option (MoeEnt ℚ) :=
  q36gpuUploadExperts (fun _ => 1) "blk.0" (steppedLayer k).pt 2 16 16

/-- A cleared handle. -/
def clearedState : MoeState ℚ :=
  ⟨fun _ => 0, fun _ => 0, fun _ => 0, fun _ => 0, fun _ => 0, ⟨fun _ => 0, fun _ => 0⟩,
    fun _ _ => 0, fun _ => 0, []⟩

end Stepped

end ShannonPrime.Cuda
