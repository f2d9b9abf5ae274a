import ShannonPrime.Cuda.Service

/-!
When the q36 service stays inside its buffers. What each capacity stands for is an invariant of
the handle, as long as no growth fails after it has freed the buffer; the products of a call then
need their activations, their scales and the scratch of an expert to be within what is there.
-/

namespace ShannonPrime.Cuda.Service

open Exits

/-- There are so many bytes to touch. -/
def Region.Sized (n : Nat) : Region → Prop
  | .null => n = 0
  | .live bytes => n ≤ bytes
  | .freed => False

theorem Region.Sized.mono {r : Region} {n m : Nat} (h : r.Sized n) (hle : m ≤ n) : r.Sized m := by
  cases r with
  | null => exact Nat.le_zero.mp (hle.trans_eq h)
  | live bytes => exact hle.trans h
  | freed => exact h

/-- What `dsx` is allocated for when the codes are `qcap`. -/
def sxBytes (qcap : Nat) : Nat := if qcap = 0 then 0 else ((qcap - 64) / 32 + 8) * 4

/-- The capacities are there, and so is the room of every uploaded tensor. -/
structure Q36gpu.Inv (h : Q36gpu) : Prop where
  x : (h.buf .x).Sized (h.xcap * 4)
  y : (h.buf .y).Sized (h.ycap * 4)
  qx : (h.buf .qx).Sized h.qcap
  sx : (h.buf .sx).Sized (sxBytes h.qcap)
  moe : (h.buf .moe).Sized ((h.moe_ff * 3 + h.moe_e * 2) * 4)
  slab : (h.buf .slab).Sized h.slab_cap
  pin : ∀ b, (h.buf (.pin b)).Sized h.pin_cap
  ents : ∀ E ∈ h.e, E.dt.nIn ≤ h.xcap ∧ E.dt.nOut ≤ h.ycap ∧ E.dt.nIn + 64 ≤ h.qcap

theorem Q36gpu.new_inv : Q36gpu.new.Inv where
  x := rfl
  y := rfl
  qx := rfl
  sx := rfl
  moe := rfl
  slab := rfl
  pin _ := rfl
  ents _ hE := nomatch hE

/-- The code touches what is there and leaves the handle alone. -/
def Still (h : Q36gpu) (c : Work PUnit) : Prop := Keeps (· = h) c (fun _ => (· = h)) (· = h)

section Still

variable {h : Q36gpu}

theorem still_touch {b : Buf} {lo hi : Nat} (hsized : (h.buf b).Sized hi) :
    Still h (touch b lo hi) := by
  refine keeps_require (Q := fun _ => (· = h)) ?_ fun _ hs => hs
  intro s hs
  rw [hs]
  cases hregion : h.buf b with
  | null =>
      rw [hregion] at hsized
      have hzero : hi = 0 := hsized
      simp [hzero]
  | live bytes =>
      rw [hregion] at hsized
      have hle : hi ≤ bytes := hsized
      simp [hle, Region.reaches]
  | freed =>
      rw [hregion] at hsized
      exact hsized.elim

theorem still_bind {c : Work PUnit} {f : PUnit → Work PUnit} (hc : Still h c)
    (hf : Still h (f ⟨⟩)) : Still h (c >>= f) := keeps_bind hc fun _ => hf

theorem still_exit (code : Int) : Still h (exit code) := keeps_exit fun _ hs => hs

theorem still_pure : Still h (pure ⟨⟩) := keeps_pure fun _ hs => hs

theorem still_attempt (ok : Bool) (code : Int) : Still h (attempt ok code) := by
  unfold attempt
  split
  · exact still_pure
  · exact still_exit code

theorem still_attempt_bind {ok : Bool} {code : Int} {f : PUnit → Work PUnit}
    (hf : ok = true → Still h (f ⟨⟩)) : Still h (attempt ok code >>= f) := by
  unfold attempt
  split
  case isTrue hok => exact still_bind still_pure (hf hok)
  case isFalse =>
      exact keeps_bind (Q := fun _ _ => False) (keeps_exit fun _ hs => hs) fun _ _ hs => hs.elim

theorem still_forM {β : Type} {l : List β} {f : β → Work PUnit} (hf : ∀ b ∈ l, Still h (f b)) :
    Still h (l.forM f) := keeps_forM hf

end Still

/-! ### The products -/

/-- The packed path is taken. -/
def Dims.Packed (dt : Dims) : Prop := if dt.prec = 4 then dt.nIn % 32 = 0 else dt.nIn % 4 = 0

instance (dt : Dims) : Decidable dt.Packed :=
  inferInstanceAs (Decidable (if dt.prec = 4 then dt.nIn % 32 = 0 else dt.nIn % 4 = 0))

/-- The codes and the scales of its activations have room. -/
def Dims.Quantizes (dt : Dims) (qcap : Nat) : Prop :=
  dt.nIn ≤ qcap ∧ (dt.nIn + 15) / 16 * 4 ≤ sxBytes qcap

structure Room (h : Q36gpu) (W : Weights) (x y : Buf × Nat) : Prop where
  x : (h.buf x.1).Sized (x.2 + 4 * W.dt.nIn)
  y : (h.buf y.1).Sized (y.2 + 4 * W.dt.nOut)
  quantizes : W.dt.Quantizes h.qcap
  row : ∀ j < W.dt.nOut, Still h (W.row j)

theorem still_quantGemv {h : Q36gpu} (hinv : h.Inv) {W : Weights} {x y : Buf × Nat}
    (hroom : Room h W x y) {npad : Nat} (hpad : npad ≤ W.dt.nIn) :
    Still h (quantGemv W npad x y) := by
  obtain ⟨hqx, hsx⟩ := hroom.quantizes
  have hcodes : npad / 16 * 16 ≤ npad := Nat.div_mul_le_self npad 16
  have hx : x.2 + 4 * min W.dt.nIn (npad / 16 * 16) ≤ x.2 + 4 * W.dt.nIn := by omega
  have hscales : 4 * (npad / 16) ≤ sxBytes h.qcap := by omega
  refine still_bind (still_touch (hroom.x.mono hx)) (still_bind (still_touch (hinv.sx.mono hscales))
    (still_bind (still_touch (hinv.qx.mono (by omega))) (still_forM fun j hj => ?_)))
  have hj' : j < W.dt.nOut := List.mem_range.mp hj
  exact still_bind (hroom.row j hj') (still_bind (still_touch (hinv.qx.mono hqx))
    (still_bind (still_touch (hinv.sx.mono (by omega))) (still_touch (hroom.y.mono (by omega)))))

/-- A product either gives the call up, or takes the packed path with the room for it. -/
theorem still_gemv_bind {h : Q36gpu} (hinv : h.Inv) {W : Weights} {x y : Buf × Nat}
    {rest : PUnit → Work PUnit} (hroom : W.dt.Packed → Room h W x y)
    (hrest : W.dt.Packed → Still h (rest ⟨⟩)) : Still h (gemvWPacked W x y >>= rest) := by
  have hgive : ∀ code, Still h (exit code >>= rest) := fun code =>
    keeps_bind (Q := fun _ _ => False) (keeps_exit fun _ hs => hs) fun _ _ hs => hs.elim
  unfold Dims.Packed at hroom hrest
  unfold gemvWPacked
  split
  case isTrue hfour =>
      rw [if_pos hfour] at hroom hrest
      split
      case isTrue => exact hgive (-1)
      case isFalse hin =>
          have hmod : W.dt.nIn % 32 = 0 := not_not.mp hin
          exact still_bind (still_quantGemv hinv (hroom hmod) (by omega)) (hrest hmod)
  case isFalse hother =>
      rw [if_neg hother] at hroom hrest
      split
      case isTrue hmod =>
          have hmod4 : W.dt.nIn % 4 = 0 := by omega
          exact still_bind (still_quantGemv hinv (hroom hmod4) (by omega)) (hrest hmod4)
      case isFalse =>
          split
          case isTrue hmod =>
              exact still_bind (still_quantGemv hinv (hroom hmod) (by omega)) (hrest hmod)
          case isFalse => exact hgive (-1)

/-! ### The experts -/

/-- The floats of `dmoe`. -/
def Q36gpu.moeRoom (h : Q36gpu) : Nat := h.moe_ff * 3 + h.moe_e * 2

/-- The products of an expert that are run have room, in the order in which they are run; `rows`
is what the rows of a tensor need. -/
structure ExpertRoom (qcap xlen moeRoom : Nat) (dt : Proj → Dims) (rows : Proj → Prop) :
    Prop where
  gate : (dt .gate).Packed → (dt .gate).Quantizes qcap ∧ (dt .gate).nIn ≤ xlen ∧ rows .gate
  up : (dt .gate).Packed → (dt .up).Packed →
    (dt .up).Quantizes qcap ∧ (dt .up).nIn ≤ xlen ∧ rows .up
  down : (dt .gate).Packed → (dt .up).Packed → (dt .down).Packed →
    (dt .down).Quantizes qcap ∧ (dt .down).nIn ≤ moeRoom ∧ rows .down

theorem still_expertFlow {h : Q36gpu} (hinv : h.Inv) {FF E : Nat} {W : Proj → Weights}
    {rows : Proj → Prop}
    (hmoe : FF * 3 + E * 2 ≤ h.moeRoom) (hout : ∀ p, (W p).dt.nOut = sliceRows FF E p)
    (hroom : ExpertRoom h.qcap h.xcap h.moeRoom (fun p => (W p).dt) rows)
    (hrow : ∀ p, rows p → ∀ j < (W p).dt.nOut, Still h ((W p).row j)) :
    Still h (expertFlow FF E W) := by
  have hscratch : ∀ {hi}, hi ≤ (FF * 3 + E * 2) * 4 → (h.buf .moe).Sized hi := fun hle =>
    hinv.moe.mono (hle.trans (Nat.mul_le_mul_right 4 hmoe))
  have hgateOut : (W .gate).dt.nOut = FF := hout .gate
  have hupOut : (W .up).dt.nOut = FF := hout .up
  have hdownOut : (W .down).dt.nOut = E := hout .down
  refine still_gemv_bind hinv (fun hgate => ?_) fun hgate =>
    still_gemv_bind hinv (fun hup => ?_) fun hup =>
      still_bind (still_touch (hscratch (by omega))) (still_bind (still_touch (hscratch (by omega)))
        (still_gemv_bind hinv (fun hdown => ?_) fun _ => still_bind
          (still_touch (hscratch (by unfold dYo dDe; omega)))
          (still_touch (hscratch (by unfold dDe; omega)))))
  · obtain ⟨hquant, hin, hrows⟩ := hroom.gate hgate
    exact ⟨hinv.x.mono (by dsimp only; omega), hscratch (by dsimp only; omega), hquant,
      hrow .gate hrows⟩
  · obtain ⟨hquant, hin, hrows⟩ := hroom.up hgate hup
    exact ⟨hinv.x.mono (by dsimp only; omega), hscratch (by dsimp only; omega), hquant,
      hrow .up hrows⟩
  · obtain ⟨hquant, hin, hrows⟩ := hroom.down hgate hup hdown
    have hlen : 0 + 4 * (W .down).dt.nIn ≤ (h.moe_ff * 3 + h.moe_e * 2) * 4 := by
      unfold Q36gpu.moeRoom at hin
      omega
    exact ⟨hinv.moe.mono hlen, hscratch (by unfold dDe; omega), hquant, hrow .down hrows⟩

theorem still_startMoe {h : Q36gpu} (hinv : h.Inv) {FF E : Nat} {luck : Luck}
    (hx : E ≤ h.xcap) (hmoe : luck.copyIn = true → FF * 3 + E * 2 ≤ h.moeRoom)
    {rest : PUnit → Work PUnit}
    (hrest : luck.copyIn = true → luck.clear = true → Still h (rest ⟨⟩)) :
    Still h (startMoe FF E luck >>= rest) := by
  unfold startMoe
  simp only [bind_group]
  refine still_bind (still_touch (hinv.x.mono (by omega))) (still_attempt_bind fun hin => ?_)
  have hscratch : dYo FF E + 4 * E ≤ (h.moe_ff * 3 + h.moe_e * 2) * 4 := by
    have hroom := hmoe hin
    unfold Q36gpu.moeRoom at hroom
    unfold dYo dDe
    omega
  exact still_bind (still_touch (hinv.moe.mono hscratch)) (still_attempt_bind (hrest hin))

theorem still_finishMoe {h : Q36gpu} (hinv : h.Inv) {FF E : Nat} {luck : Luck}
    (hmoe : FF * 3 + E * 2 ≤ h.moeRoom) : Still h (finishMoe FF E luck) := by
  have hscratch : dYo FF E + 4 * E ≤ (h.moe_ff * 3 + h.moe_e * 2) * 4 := by
    unfold Q36gpu.moeRoom at hmoe
    unfold dYo dDe
    omega
  exact still_bind (still_touch (hinv.moe.mono hscratch))
    (still_attempt_bind fun _ => still_attempt _ _)

/-! ### The calls that allocate nothing -/

/-- The entry that a product finds has room for its scales. -/
def MatmulMeets (h : Q36gpu) (name : List UInt8) (n_tok nIn nOut : Nat) (luck : Luck) : Prop :=
  n_tok = 1 → ∀ E, (h.e.find? fun E => E.name == name) = some E →
    E.dt.nIn = nIn → E.dt.nOut = nOut → luck.copyIn = true → E.dt.Packed →
      (nIn + 15) / 16 * 4 ≤ sxBytes h.qcap

theorem still_matmul {h : Q36gpu} (hinv : h.Inv) {name : List UInt8} {n_tok nIn nOut : Nat}
    {luck : Luck} (hmeets : MatmulMeets h name n_tok nIn nOut luck) :
    Still h (sp_q36gpu_matmul name n_tok nIn nOut luck) := by
  unfold sp_q36gpu_matmul
  split
  case isTrue => exact still_exit _
  case isFalse htok =>
      apply keeps_get_bind
      cases hfind : h.e.find? fun E => E.name == name with
      | none => exact still_exit _
      | some E =>
          dsimp only
          split
          case isTrue => exact still_exit _
          case isFalse hdims =>
              obtain ⟨rfl, rfl⟩ := not_or.mp hdims |>.imp not_not.mp not_not.mp
              obtain ⟨hin, hout, hcodes⟩ := hinv.ents E (List.mem_of_find?_eq_some hfind)
              have hx : E.dt.nIn * 4 ≤ h.xcap * 4 := by omega
              have hy : E.dt.nOut * 4 ≤ h.ycap * 4 := by omega
              refine still_bind (still_touch (hinv.x.mono hx)) (still_attempt_bind fun hcopy =>
                still_gemv_bind hinv (fun hpacked => ?_) fun _ =>
                  still_bind (still_touch (hinv.y.mono hy))
                    (still_attempt_bind fun _ => still_attempt _ _))
              have hscales := hmeets (not_not.mp htok) E hfind rfl rfl hcopy hpacked
              exact ⟨hinv.x.mono (by dsimp only [Dims.resident]; omega),
                hinv.y.mono (by dsimp only [Dims.resident]; omega),
                ⟨by dsimp only [Dims.resident]; omega, hscales⟩, fun _ _ => still_pure⟩

/-- The activation, the scratch and the products of a resident layer have room. -/
def MoeMeets (h : Q36gpu) (tag : List UInt8) (idx : List Nat) (E FF : Nat) (luck : Luck) : Prop :=
  ∀ M, (h.moes.find? fun M => M.tag == tag) = some M → M.FF = FF → M.E = E →
    E ≤ h.xcap ∧ (luck.copyIn = true → FF * 3 + E * 2 ≤ h.moeRoom ∧
      (luck.clear = true → idx ≠ [] →
        ExpertRoom h.qcap h.xcap h.moeRoom M.dt fun _ => True))

theorem still_moe {h : Q36gpu} (hinv : h.Inv) {tag : List UInt8} {idx : List Nat} {E FF : Nat}
    {luck : Luck} (hmeets : MoeMeets h tag idx E FF luck) :
    Still h (sp_q36gpu_moe tag idx E FF luck) := by
  unfold sp_q36gpu_moe
  apply keeps_get_bind
  cases hfind : h.moes.find? fun M => M.tag == tag with
  | none => exact still_exit _
  | some M =>
      dsimp only
      split
      case isTrue => exact still_exit _
      case isFalse hdims =>
          obtain ⟨hFF, hE⟩ := not_or.mp hdims |>.imp not_not.mp not_not.mp
          obtain ⟨hx, hrest⟩ := hmeets M hfind hFF hE
          refine still_startMoe hinv hx (fun hin => (hrest hin).1) fun hin hclear => ?_
          obtain ⟨hmoe, hroom⟩ := hrest hin
          refine still_bind (still_forM fun e he => ?_) (still_finishMoe hinv hmoe)
          have hexpert := hroom hclear (List.ne_nil_of_mem he)
          have hviews : ExpertRoom h.qcap h.xcap h.moeRoom (fun p =>
              ({ M.dt p with nOut := sliceRows FF E p } : Dims).resident.dt) fun _ => True :=
            ⟨hexpert.gate, hexpert.up, hexpert.down⟩
          exact still_expertFlow hinv hmoe (fun _ => rfl) hviews fun _ _ _ _ => still_pure

/-! ### The slices of an expert -/

section Slices

variable {h : Q36gpu} {pt : HostTensor} {r0 rows off : Nat}

theorem scaleAt_le_stageEnd : pt.scaleAt r0 rows off ≤ stageEnd pt r0 rows off := by
  unfold stageEnd
  split
  · exact (Nat.le_add_right _ _).trans (le_align256 _)
  · exact (Nat.le_add_right _ _).trans (le_align256 _)

theorem off_le_stageEnd : off ≤ stageEnd pt r0 rows off := by
  obtain ⟨hcodes, hoff, hprec⟩ := pt.fields_le r0 rows off
  have hend : pt.scaleAt r0 rows off ≤ stageEnd pt r0 rows off := scaleAt_le_stageEnd
  omega

theorem still_stageSlice {pin : Buf} (hpin : (h.buf pin).Sized (stageEnd pt r0 rows off)) :
    Still h (stageSlice pt r0 rows pin off) := by
  obtain ⟨hcodes, hoff, hprec⟩ := pt.fields_le r0 rows off
  have hend : pt.scaleAt r0 rows off ≤ stageEnd pt r0 rows off := scaleAt_le_stageEnd
  refine still_bind (still_touch (hpin.mono (by omega))) (still_bind (still_touch
    (hpin.mono (by omega))) (still_bind (still_touch (hpin.mono (by omega))) ?_))
  split
  case isTrue hblocks =>
      rw [stageEnd, if_pos hblocks] at hpin
      exact still_touch (hpin.mono (le_align256 _))
  case isFalse hrowScales =>
      rw [stageEnd, if_neg hrowScales] at hpin
      split
      · exact still_touch (hpin.mono (le_align256 _))
      · exact still_exit _

/-- What the kernels take of the codes of row `j` of a slice ends there, from where it begins. -/
def rowReach (pt : HostTensor) (r0 rows off j : Nat) : Nat :=
  off + (pt.rowOff (r0 + j) - pt.rowOff r0) +
    if pt.slicePrec r0 rows = 4 then pt.cols / 2 else pt.cols

/-- What the kernels take of a row of one precision is not more than the row has. -/
theorem rowReach_le {j : Nat} (hfit : r0 + rows ≤ pt.rows) (hj : j < rows)
    (hprec : pt.slicePrec r0 rows ≠ 0) : rowReach pt r0 rows off j ≤ stageEnd pt r0 rows off := by
  obtain ⟨hcodes, hoff, hprecs⟩ := pt.fields_le r0 rows off
  have hend : pt.scaleAt r0 rows off ≤ stageEnd pt r0 rows off := scaleAt_le_stageEnd
  have hrow := pt.row_le_end (show r0 + j < r0 + rows by omega) hfit
  have hstart := pt.rowOff_le (show r0 ≤ r0 + j by omega) (by omega)
  have hsame : pt.rowPrec (r0 + j) = pt.slicePrec r0 rows :=
    (HostTensor.slicePrec_iff (by omega) (Nat.pos_of_ne_zero hprec)).mp rfl j hj
  have htaken : (if pt.slicePrec r0 rows = 4 then pt.cols / 2 else pt.cols) ≤
      rowBytes (pt.rowPrec (r0 + j)) pt.cols := by
    rw [← hsame]
    unfold rowBytes
    rcases pt.precise (r0 + j) (by omega) with height | hfour
    · rw [height, if_neg (by decide), if_pos rfl]
    · rw [hfour, if_pos rfl, if_neg (by decide)]
      omega
  unfold rowReach
  omega

theorem still_slabRow {base j : Nat} (hslab : (h.buf .slab).Sized (base + stageEnd pt r0 rows off))
    (hj : j < rows) (hreach : (h.buf .slab).Sized (base + rowReach pt r0 rows off j)) :
    Still h (slabRow pt r0 rows base off j) := by
  obtain ⟨hcodes, hoff, hprecs⟩ := pt.fields_le r0 rows off
  have hend : pt.scaleAt r0 rows off ≤ stageEnd pt r0 rows off := scaleAt_le_stageEnd
  refine still_bind (still_touch (hslab.mono (by omega))) (still_bind (still_touch
    (hreach.mono (by unfold rowReach; omega))) ?_)
  split
  case isTrue hblocks =>
      have hnblk := pt.blocks hblocks.2
      have hspan : (j * pt.bsNblk + pt.cols / 32) * 2 ≤ rows * pt.bsNblk * 2 := by
        rw [← hnblk, ← Nat.succ_mul]
        exact Nat.mul_le_mul_right 2 (Nat.mul_le_mul_right _ hj)
      rw [stageEnd, if_pos hblocks.2] at hslab
      have hlast := le_align256 (pt.scaleAt r0 rows off + rows * pt.bsNblk * 2)
      exact still_touch (hslab.mono (by omega))
  case isFalse =>
      split
      case isTrue hnone =>
          have hno : ¬ pt.bscale.isSome = true := by
            rw [Option.isNone_iff_eq_none.mp hnone]
            decide
          rw [stageEnd, if_neg hno] at hslab
          have hlast := le_align256 (pt.scaleAt r0 rows off + rows * 4)
          exact still_touch (hslab.mono (by omega))
      case isFalse => exact still_pure

end Slices

/-- The dimensions of the slices of an expert. -/
def sliceDims (pt : Proj → HostTensor) (FF E e : Nat) (p : Proj) : Dims where
  nIn := (pt p).cols
  nOut := sliceRows FF E p
  prec := (pt p).slicePrec (e * sliceRows FF E p) (sliceRows FF E p)

/-- The slices of an expert are there, and what is staged of them has room in the pinned buffer and
from `base` on in the slab. -/
structure Staged (pin_cap slab_cap base : Nat) (pt : Proj → HostTensor) (FF E e : Nat) : Prop where
  inside : ∀ p, e * sliceRows FF E p + sliceRows FF E p ≤ (pt p).rows
  pin : blobEnd pt FF E e ≤ pin_cap
  slab : base + blobEnd pt FF E e ≤ slab_cap

/-- What is read of a slice whose rows are of two precisions has room in the slab. -/
def MixedRoom (slab_cap base : Nat) (pt : Proj → HostTensor) (FF E e : Nat) (p : Proj) : Prop :=
  (sliceDims pt FF E e p).prec = 0 → ∀ j < sliceRows FF E p,
    base + rowReach (pt p) (e * sliceRows FF E p) (sliceRows FF E p) (sliceAt pt FF e p) j ≤
      slab_cap

theorem stageEnd_le_blobEnd (pt : Proj → HostTensor) (FF E e : Nat) (p : Proj) :
    stageEnd (pt p) (e * sliceRows FF E p) (sliceRows FF E p) (sliceAt pt FF e p) ≤
      blobEnd pt FF E e := by
  cases p with
  | gate => exact off_le_stageEnd.trans off_le_stageEnd
  | up => exact off_le_stageEnd
  | down => exact le_refl _

theorem Staged.reach {pin_cap slab_cap base : Nat} {pt : Proj → HostTensor} {FF E e : Nat}
    (hstaged : Staged pin_cap slab_cap base pt FF E e) {p : Proj}
    (hmixed : MixedRoom slab_cap base pt FF E e p) {j : Nat} (hj : j < sliceRows FF E p) :
    base + rowReach (pt p) (e * sliceRows FF E p) (sliceRows FF E p) (sliceAt pt FF e p) j ≤
      slab_cap := by
  by_cases hprec : (sliceDims pt FF E e p).prec = 0
  · exact hmixed hprec j hj
  · have hrow := (rowReach_le (hstaged.inside p) hj hprec).trans (stageEnd_le_blobEnd pt FF E e p)
    exact (Nat.add_le_add_left hrow base).trans hstaged.slab

/-- What the capacities of the handle are when an expert is streamed. -/
structure Caps where
  x : Nat
  q : Nat
  moe : Nat
  slab : Nat
  pin : Nat

def Q36gpu.caps (h : Q36gpu) : Caps := ⟨h.xcap, h.qcap, h.moeRoom, h.slab_cap, h.pin_cap⟩

/-- An expert of a stream, as far as it comes. -/
def ExpertMeets (c : Caps) (pt : Proj → HostTensor) (FF E : Nat) (luck : Luck) (k e : Nat) :
    Prop :=
  (k < 2 ∨ luck.wait k = true) →
    Staged c.pin c.slab (k * perExpert FF E) pt FF E e ∧
    (luck.ship k = true → luck.record k = true →
      ExpertRoom c.q c.x c.moe (sliceDims pt FF E e)
        (MixedRoom c.slab (k * perExpert FF E) pt FF E e))

theorem still_streamExpert {h : Q36gpu} (hinv : h.Inv) {pt : Proj → HostTensor}
    {FF E k e : Nat} {luck : Luck} (hmoe : FF * 3 + E * 2 ≤ h.moeRoom)
    (hmeets : ExpertMeets h.caps pt FF E luck k e) :
    Still h (streamExpert pt FF E luck k e) := by
  refine still_attempt_bind fun hwait => ?_
  obtain ⟨hstaged, hroom⟩ := hmeets (by simpa using hwait)
  have hbufs : ∀ {hi}, hi ≤ blobEnd pt FF E e → (h.buf (.pin (k % 2 == 1))).Sized hi := fun hle =>
    (hinv.pin _).mono (hle.trans hstaged.pin)
  have hstage : ∀ p, Still h (stageSlice (pt p) (e * sliceRows FF E p) (sliceRows FF E p)
      (.pin (k % 2 == 1)) (sliceAt pt FF e p)) := fun p =>
    still_stageSlice (hbufs (stageEnd_le_blobEnd pt FF E e p))
  refine still_bind (hstage .gate) (still_bind (hstage .up) (still_bind (hstage .down)
    (still_bind (still_touch (hbufs (le_refl _))) (still_bind
      (still_touch (hinv.slab.mono hstaged.slab)) (still_attempt_bind fun hship =>
        still_attempt_bind fun hrecord => ?_)))))
  refine still_expertFlow hinv hmoe (fun _ => rfl) (hroom hship hrecord) fun p hmixed j hj => ?_
  have hend := Nat.add_le_add_left (stageEnd_le_blobEnd pt FF E e p) (k * perExpert FF E)
  exact still_slabRow (hinv.slab.mono (hend.trans hstaged.slab)) hj
    (hinv.slab.mono (hstaged.reach hmixed hj))

/-- The expert is shipped and multiplied. -/
structure Passed (pt : Proj → HostTensor) (FF E : Nat) (luck : Luck) (k e : Nat) : Prop where
  wait : k < 2 ∨ luck.wait k = true
  ship : luck.ship k = true
  record : luck.record k = true
  scaled : ∀ p, (pt p).bscale.isSome = true ∨ (pt p).rowScale.isSome = true
  packed : ∀ p, (sliceDims pt FF E e p).Packed

theorem attempt_ended {ok : Bool} {code : Int} {s s' : Q36gpu}
    (hrun : attempt ok code s = some (.ok ⟨⟩, s')) : ok = true := by
  cases ok with
  | true => rfl
  | false => cases hrun

theorem stageSlice_ended {pt : HostTensor} {r0 rows off : Nat} {pin : Buf} {s s' : Q36gpu}
    (hrun : stageSlice pt r0 rows pin off s = some (.ok ⟨⟩, s')) :
    pt.bscale.isSome = true ∨ pt.rowScale.isSome = true := by
  obtain ⟨_, s₁, -, hrun⟩ := bind_ended hrun
  obtain ⟨_, s₂, -, hrun⟩ := bind_ended hrun
  obtain ⟨_, s₃, -, hrun⟩ := bind_ended hrun
  by_cases hblocks : pt.bscale.isSome = true
  · exact .inl hblocks
  · rw [if_neg hblocks] at hrun
    by_cases hscales : pt.rowScale.isSome = true
    · exact .inr hscales
    · rw [if_neg hscales] at hrun
      cases hrun

theorem gemvWPacked_ended {W : Weights} {x y : Buf × Nat} {s s' : Q36gpu}
    (hrun : gemvWPacked W x y s = some (.ok ⟨⟩, s')) : W.dt.Packed := by
  unfold gemvWPacked at hrun
  unfold Dims.Packed
  split at hrun
  case isTrue hfour =>
      rw [if_pos hfour]
      split at hrun
      case isTrue => cases hrun
      case isFalse hin => exact not_not.mp hin
  case isFalse hother =>
      rw [if_neg hother]
      split at hrun
      case isTrue => omega
      case isFalse =>
          split at hrun
          case isTrue hmod => exact hmod
          case isFalse => cases hrun

theorem expertFlow_ended {FF E : Nat} {W : Proj → Weights} {s s' : Q36gpu}
    (hrun : expertFlow FF E W s = some (.ok ⟨⟩, s')) (p : Proj) : (W p).dt.Packed := by
  obtain ⟨_, s₁, hgate, hrun⟩ := bind_ended hrun
  obtain ⟨_, s₂, hup, hrun⟩ := bind_ended hrun
  obtain ⟨_, s₃, -, hrun⟩ := bind_ended hrun
  obtain ⟨_, s₄, -, hrun⟩ := bind_ended hrun
  obtain ⟨_, s₅, hdown, -⟩ := bind_ended hrun
  cases p with
  | gate => exact gemvWPacked_ended hgate
  | up => exact gemvWPacked_ended hup
  | down => exact gemvWPacked_ended hdown

theorem streamExpert_ended {pt : Proj → HostTensor} {FF E k e : Nat} {luck : Luck}
    {s s' : Q36gpu} (hrun : streamExpert pt FF E luck k e s = some (.ok ⟨⟩, s')) :
    Passed pt FF E luck k e := by
  obtain ⟨_, s₁, hwait, hrun⟩ := bind_ended hrun
  obtain ⟨_, s₂, hgate, hrun⟩ := bind_ended hrun
  obtain ⟨_, s₃, hup, hrun⟩ := bind_ended hrun
  obtain ⟨_, s₄, hdown, hrun⟩ := bind_ended hrun
  obtain ⟨_, s₅, -, hrun⟩ := bind_ended hrun
  obtain ⟨_, s₆, -, hrun⟩ := bind_ended hrun
  obtain ⟨_, s₇, hship, hrun⟩ := bind_ended hrun
  obtain ⟨_, s₈, hrecord, hrun⟩ := bind_ended hrun
  refine ⟨by simpa using attempt_ended hwait, attempt_ended hship, attempt_ended hrecord,
    fun p => ?_, expertFlow_ended hrun⟩
  cases p with
  | gate => exact stageSlice_ended hgate
  | up => exact stageSlice_ended hup
  | down => exact stageSlice_ended hdown

/-! ### The places in the blob -/

theorem stage_end {pt : HostTensor} {r0 rows base off off' : Nat} {pin pin' : Bytes}
    {t : SlabTensor} (hstage : q36StageSlice pt r0 rows pin base off = some (t, pin', off')) :
    off' = stageEnd pt r0 rows off := by
  unfold stageEnd
  obtain ⟨b, hb, -, -, rfl⟩ | ⟨s, hb, -, -, -, rfl⟩ := stage_cases hstage
  · rw [hb]
    rfl
  · rw [hb]
    rfl

/-- The blob of an expert ends where staging its slices ends. -/
theorem stageSlices_end {pt : Proj → HostTensor} {FF E e base off : Nat} {pin pin' : Bytes}
    {t : Proj → SlabTensor} (hstage : stageSlices pt FF E e pin base = some (t, pin', off)) :
    off = blobEnd pt FF E e := by
  simp only [stageSlices, bind, Option.bind_eq_some_iff, pure, Option.some.injEq] at hstage
  obtain ⟨⟨tg, pg, og⟩, hg, ⟨tu, pu, ou⟩, hu, ⟨td, pd, od⟩, hd, hlast⟩ := hstage
  obtain ⟨-, rfl, rfl⟩ := Prod.mk.injEq .. ▸ hlast
  dsimp only at hu hd
  rw [stage_end hg] at hu
  rw [stage_end hu] at hd
  exact stage_end hd

end ShannonPrime.Cuda.Service
