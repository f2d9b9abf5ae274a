import ShannonPrime.Cuda.ExpertSlices

/-!
Staging. The fields of a slice lie one after another in the blob, so that each is read
back from the slab as it was written, whatever the blob held before; a later slice leaves
the earlier ones alone. The view of an uploaded tensor holds the same rows.
-/

namespace ShannonPrime.Cuda

variable {F : Type*} [Field F] [LinearOrder F]

theorem le_align256 (x : Nat) : x ≤ align256 x := by
  rw [align256]
  omega

/-! ### The blob of a slice -/

namespace HostTensor

section Blob

variable (pt : HostTensor) (r0 rows : Nat)

/-- Where the fields after the codes start, for a slice staged from `off` on. -/
def offAt (off : Nat) : Nat := align256 (off + (pt.codesEnd (r0 + rows) - pt.rowOff r0))

def precAt (off : Nat) : Nat := align256 (pt.offAt r0 rows off + rows * 8)

def scaleAt (off : Nat) : Nat := align256 (pt.precAt r0 rows off + rows)

/-- The blob with the codes, the rebased offsets and the precisions of the slice. -/
def blobHead (pin : Bytes) (off : Nat) : Bytes :=
  let pin := Buffer.store pin off (pt.codesEnd (r0 + rows) - pt.rowOff r0) fun a =>
    pt.codes (pt.rowOff r0 + a)
  let pin := LittleEndian.putAll pin (pt.offAt r0 rows off) 8 rows fun i =>
    pt.rowOff (r0 + i) - pt.rowOff r0
  LittleEndian.putAll pin (pt.precAt r0 rows off) 1 rows fun i => pt.rowPrec (r0 + i)

/-- The fields come one after another. -/
theorem fields_le (off : Nat) :
    off + (pt.codesEnd (r0 + rows) - pt.rowOff r0) ≤ pt.offAt r0 rows off ∧
      pt.offAt r0 rows off + rows * 8 ≤ pt.precAt r0 rows off ∧
      pt.precAt r0 rows off + rows ≤ pt.scaleAt r0 rows off :=
  ⟨le_align256 _, le_align256 _, le_align256 _⟩

variable {pt r0 rows} {pin : Bytes} {off : Nat}

theorem blobHead_codes {a : Nat} (ha : a < pt.codesEnd (r0 + rows) - pt.rowOff r0) :
    pt.blobHead r0 rows pin off (off + a) = pt.codes (pt.rowOff r0 + a) := by
  obtain ⟨h1, h2, h3⟩ := pt.fields_le r0 rows off
  rw [blobHead, LittleEndian.putAll_outside (by omega), LittleEndian.putAll_outside (by omega),
    Buffer.store_inside ha]

theorem blobHead_before {a : Nat} (ha : a < off) :
    pt.blobHead r0 rows pin off a = pin a := by
  obtain ⟨h1, h2, h3⟩ := pt.fields_le r0 rows off
  rw [blobHead, LittleEndian.putAll_outside (by omega), LittleEndian.putAll_outside (by omega),
    Buffer.store_outside (by omega)]

theorem blobHead_rowOff {j : Nat} (hj : j < rows) :
    LittleEndian.load (pt.blobHead r0 rows pin off) (pt.offAt r0 rows off + j * 8) 8 =
      (pt.rowOff (r0 + j) - pt.rowOff r0) % 256 ^ 8 := by
  obtain ⟨h1, h2, h3⟩ := pt.fields_le r0 rows off
  rw [← LittleEndian.load_putAll (v := fun i => pt.rowOff (r0 + i) - pt.rowOff r0) hj]
  apply LittleEndian.load_congr
  intro k hk
  have hcell := Buffer.cell_lt hj hk
  rw [blobHead, LittleEndian.putAll_outside (by omega)]

theorem blobHead_rowPrec {j : Nat} (hj : j < rows) :
    LittleEndian.load (pt.blobHead r0 rows pin off) (pt.precAt r0 rows off + j * 1) 1 =
      pt.rowPrec (r0 + j) % 256 ^ 1 := by
  rw [blobHead, LittleEndian.load_putAll hj]

end Blob

end HostTensor

/-! ### What a staged slice holds -/

section Stage

variable {pt : HostTensor} {r0 rows base off off' n w : Nat} {v : Nat → Nat}
  {pin pin' slab : Bytes}

/-- The slab mirrors the blob's fields of a slice staged from `off` on. -/
structure Mirrored (slab : Bytes) (pt : HostTensor) (r0 rows base off : Nat) : Prop where
  codes : ∀ a, a < pt.codesEnd (r0 + rows) - pt.rowOff r0 →
    slab (base + off + a) = pt.codes (pt.rowOff r0 + a)
  offsets : ∀ j < rows, LittleEndian.load slab (base + pt.offAt r0 rows off + j * 8) 8 =
    (pt.rowOff (r0 + j) - pt.rowOff r0) % 256 ^ 8
  precs : ∀ j < rows, LittleEndian.load slab (base + pt.precAt r0 rows off + j * 1) 1 =
    pt.rowPrec (r0 + j) % 256 ^ 1

/-- A load from the slab is one from the blob it mirrors. -/
theorem load_mirror {blob : Bytes} {lo hi x i : Nat}
    (hmirror : ∀ a, lo ≤ a → a < hi → slab (base + a) = blob a) (hlo : lo ≤ x)
    (hhi : x + n * w ≤ hi) (hin : i < n) :
    LittleEndian.load slab (base + x + i * w) w = LittleEndian.load blob (x + i * w) w := by
  apply LittleEndian.load_congr
  intro k hk
  have hcell := Buffer.cell_lt hin hk
  rw [show base + x + i * w + k = base + (x + i * w + k) by omega]
  exact hmirror _ (by omega) (by omega)

/-- One more array after the head leaves the head, and reads back. -/
theorem blob_mirrored
    (hpin : pin' = LittleEndian.putAll (pt.blobHead r0 rows pin off) (pt.scaleAt r0 rows off) w n v)
    (hoff : pt.scaleAt r0 rows off + n * w ≤ off')
    (hslab : ∀ a, off ≤ a → a < off' → slab (base + a) = pin' a) :
    Mirrored slab pt r0 rows base off ∧
      ∀ i < n, LittleEndian.load slab (base + pt.scaleAt r0 rows off + i * w) w =
        v i % 256 ^ w := by
  obtain ⟨h1, h2, h3⟩ := pt.fields_le r0 rows off
  have hhead : ∀ a, off ≤ a → a < pt.scaleAt r0 rows off →
      slab (base + a) = pt.blobHead r0 rows pin off a := by
    intro a hle hlt
    rw [hslab a hle (by omega), hpin, LittleEndian.putAll_outside (Or.inl hlt)]
  constructor
  · constructor
    · intro a ha
      rw [Nat.add_assoc, hhead (off + a) (by omega) (by omega), HostTensor.blobHead_codes ha]
    · intro j hj
      rw [load_mirror hhead (by omega) (by omega) hj, HostTensor.blobHead_rowOff hj]
    · intro j hj
      rw [load_mirror hhead (by omega) (by omega) hj, HostTensor.blobHead_rowPrec hj]
  · intro i hi
    rw [load_mirror hslab (by omega) hoff hi, hpin, LittleEndian.load_putAll hi]

/-- The tensor of a slice before its scales are set. -/
def SlabTensor.head (pt : HostTensor) (r0 rows base off : Nat) : SlabTensor where
  nIn := pt.cols
  nOut := rows
  prec := pt.slicePrec r0 rows
  codes := base + off
  rowOff := base + pt.offAt r0 rows off
  rowPrec := base + pt.precAt r0 rows off
  bscale := none
  rowScale := none
  bsNblk := 0

/-- What staging a slice does, by the scales of the tensor. -/
theorem stage_cases {t : SlabTensor}
    (h : q36StageSlice pt r0 rows pin base off = some (t, pin', off')) :
    (∃ b, pt.bscale = some b ∧
      t = { SlabTensor.head pt r0 rows base off with
              bscale := some (base + pt.scaleAt r0 rows off), bsNblk := pt.bsNblk } ∧
      pin' = LittleEndian.putAll (pt.blobHead r0 rows pin off) (pt.scaleAt r0 rows off) 2
        (rows * pt.bsNblk) (fun i => (b (r0 * pt.bsNblk + i)).toNat) ∧
      off' = align256 (pt.scaleAt r0 rows off + rows * pt.bsNblk * 2)) ∨
    (∃ s, pt.bscale = none ∧ pt.rowScale = some s ∧
      t = { SlabTensor.head pt r0 rows base off with
              rowScale := some (base + pt.scaleAt r0 rows off) } ∧
      pin' = LittleEndian.putAll (pt.blobHead r0 rows pin off) (pt.scaleAt r0 rows off) 4
        rows (fun i => (s (r0 + i)).toNat) ∧
      off' = align256 (pt.scaleAt r0 rows off + rows * 4)) := by
  simp only [q36StageSlice] at h
  cases hb : pt.bscale with
  | some b =>
    simp only [hb, Option.some.injEq, Prod.mk.injEq] at h
    obtain ⟨rfl, rfl, rfl⟩ := h
    exact Or.inl ⟨b, rfl, rfl, rfl, rfl⟩
  | none =>
    cases hs : pt.rowScale with
    | some s =>
      simp only [hb, hs, Option.some.injEq, Prod.mk.injEq] at h
      obtain ⟨rfl, rfl, rfl⟩ := h
      exact Or.inr ⟨s, rfl, rfl, rfl, rfl, rfl⟩
    | none =>
      simp only [hb, hs, reduceCtorEq] at h

/-- Staging goes on where it started. -/
theorem stage_frame {t : SlabTensor}
    (h : q36StageSlice pt r0 rows pin base off = some (t, pin', off')) :
    off ≤ off' ∧ ∀ a < off, pin' a = pin a := by
  obtain ⟨h1, h2, h3⟩ := pt.fields_le r0 rows off
  obtain ⟨b, -, -, rfl, rfl⟩ | ⟨s, -, -, -, rfl, rfl⟩ := stage_cases h
  · have hle := le_align256 (pt.scaleAt r0 rows off + rows * pt.bsNblk * 2)
    constructor
    · omega
    · intro a ha
      rw [LittleEndian.putAll_outside (by omega), HostTensor.blobHead_before ha]
  · have hle := le_align256 (pt.scaleAt r0 rows off + rows * 4)
    constructor
    · omega
    · intro a ha
      rw [LittleEndian.putAll_outside (by omega), HostTensor.blobHead_before ha]

theorem stage_prec {t : SlabTensor}
    (h : q36StageSlice pt r0 rows pin base off = some (t, pin', off')) :
    t.prec = pt.slicePrec r0 rows := by
  obtain ⟨b, -, rfl, -, -⟩ | ⟨s, -, -, rfl, -, -⟩ := stage_cases h <;> rfl

variable {F : Type*} [Field F] (single : BitVec 32 → F)

/-- The fields of a mirrored slice that do not depend on the scales. -/
theorem Mirrored.holds (hm : Mirrored slab pt r0 rows base off) (hfit : r0 + rows ≤ pt.rows)
    {W : DevTensor F} {bsc : Option Nat} {rsc : Option Nat} {nblk : Nat}
    (hW : W = { SlabTensor.head pt r0 rows base off with
                  bscale := bsc, rowScale := rsc, bsNblk := nblk }.dev single slab)
    (hscales : pt.bscale = none → W.bscale = none ∧
      ∀ j < rows, W.scaleOf j = pt.scaleOf single (r0 + j))
    (hblocks : ∀ b, pt.bscale = some b → ∃ b', W.bscale = some b' ∧
      ∀ j < rows, ∀ c < pt.cols / 32, b' (j * W.bsNblk + c) = b ((r0 + j) * pt.bsNblk + c)) :
    W.Holds single pt r0 rows (pt.rowOff r0) := by
  subst hW
  constructor
  · rfl
  · rfl
  · rfl
  · intro j hj
    have hbase := pt.rowOff_le (Nat.le_add_right r0 j) (by omega)
    have hend := pt.row_le_end (Nat.lt_add_one (r0 + j)) (by omega)
    have hall := pt.codesEnd_le (show r0 + j + 1 ≤ pt.rows by omega)
    have haddr := pt.addressable
    have hload := hm.offsets j hj
    rw [Nat.mod_eq_of_lt (by omega)] at hload
    simp only [SlabTensor.dev, SlabTensor.head, hload]
    omega
  · intro j hj
    have hload := hm.precs j hj
    have hprec := pt.precise (r0 + j) (by omega)
    rw [Nat.mod_eq_of_lt (by omega)] at hload
    exact hload
  · intro a ha
    exact hm.codes a (by omega)
  · exact hscales
  · exact hblocks

/-- A slab that mirrors a staged slice holds its rows. -/
theorem stage_holds {t : SlabTensor}
    (h : q36StageSlice pt r0 rows pin base off = some (t, pin', off'))
    (hfit : r0 + rows ≤ pt.rows) (hslab : ∀ a, off ≤ a → a < off' → slab (base + a) = pin' a) :
    (t.dev single slab).Holds single pt r0 rows (pt.rowOff r0) := by
  obtain ⟨b, hb, rfl, hpin, rfl⟩ | ⟨s, hb, hs, rfl, hpin, rfl⟩ := stage_cases h
  · obtain ⟨hm, hload⟩ := blob_mirrored hpin (le_align256 _) hslab
    apply hm.holds single hfit rfl
    · intro hnone
      rw [hb] at hnone
      cases hnone
    · intro b' hb'
      obtain rfl : b = b' := Option.some.inj (hb.symm.trans hb')
      refine ⟨_, rfl, ?_⟩
      intro j hj c hc
      have hblk := pt.blocks (by rw [hb]; rfl)
      have hcell : j * pt.bsNblk + c < rows * pt.bsNblk := Buffer.cell_lt hj (by omega)
      have hplace : r0 * pt.bsNblk + (j * pt.bsNblk + c) = (r0 + j) * pt.bsNblk + c := by ring
      have hsmall := (b ((r0 + j) * pt.bsNblk + c)).isLt
      have hread := hload _ hcell
      rw [hplace, Nat.mod_eq_of_lt (by omega)] at hread
      simp only [SlabTensor.dev, hread, BitVec.ofNat_toNat, BitVec.setWidth_eq]
  · obtain ⟨hm, hload⟩ := blob_mirrored hpin (le_align256 _) hslab
    apply hm.holds single hfit rfl
    · intro _
      constructor
      · rfl
      · intro j hj
        have hsmall := (s (r0 + j)).isLt
        have hread := hload j hj
        rw [Nat.mod_eq_of_lt (by omega)] at hread
        simp only [DevTensor.scaleOf, HostTensor.scaleOf, SlabTensor.dev, hs, Option.map_some,
          Option.getD_some, hread, BitVec.ofNat_toNat, BitVec.setWidth_eq]
    · intro b hsome
      rw [hb] at hsome
      cases hsome

/-- A tensor with scales can be staged. -/
theorem stage_total (r0 rows : Nat) (pin : Bytes) (base off : Nat)
    (hscaled : pt.bscale.isSome = true ∨ pt.rowScale.isSome = true) :
    ∃ r, q36StageSlice pt r0 rows pin base off = some r := by
  simp only [q36StageSlice]
  cases hb : pt.bscale with
  | some b => exact ⟨_, rfl⟩
  | none =>
    cases hs : pt.rowScale with
    | some s => exact ⟨_, rfl⟩
    | none => simp [hb, hs] at hscaled

end Stage

/-! ### The three slices of an expert -/

section Slices

variable {pt : Proj → HostTensor} {FF E e base : Nat} {pin slab : Bytes}

theorem stageSlices_total (pin : Bytes) (base : Nat)
    (hscaled : ∀ p, (pt p).bscale.isSome = true ∨ (pt p).rowScale.isSome = true) :
    ∃ r, stageSlices pt FF E e pin base = some r := by
  obtain ⟨g, hg⟩ := stage_total (e * FF) FF pin base 0 (hscaled .gate)
  obtain ⟨u, hu⟩ := stage_total (e * FF) FF g.2.1 base g.2.2 (hscaled .up)
  obtain ⟨d, hd⟩ := stage_total (e * E) E u.2.1 base u.2.2 (hscaled .down)
  refine ⟨(Proj.of g.1 u.1 d.1, d.2), ?_⟩
  simp only [stageSlices, hg, hu, hd, bind, Option.bind, pure]

/-- A slab that mirrors the blob holds the expert's rows of each tensor. -/
theorem stageSlices_holds {F : Type*} [Field F] (single : BitVec 32 → F)
    {r : (Proj → SlabTensor) × Bytes × Nat} (h : stageSlices pt FF E e pin base = some r)
    (hfit : ∀ p, e * sliceRows FF E p + sliceRows FF E p ≤ (pt p).rows)
    (hslab : ∀ a, a < r.2.2 → slab (base + a) = r.2.1 a) (p : Proj) :
    ((r.1 p).dev single slab).Holds single (pt p) (e * sliceRows FF E p) (sliceRows FF E p)
        ((pt p).rowOff (e * sliceRows FF E p)) ∧
      (r.1 p).prec = (pt p).slicePrec (e * sliceRows FF E p) (sliceRows FF E p) := by
  simp only [stageSlices, bind, Option.bind_eq_some_iff, pure, Option.some.injEq] at h
  obtain ⟨⟨tg, pg, og⟩, hg, ⟨tu, pu, ou⟩, hu, ⟨td, pd, od⟩, hd, rfl⟩ := h
  simp only at hu hd hslab
  obtain ⟨hoffU, hframeU⟩ := stage_frame hu
  obtain ⟨hoffD, hframeD⟩ := stage_frame hd
  cases p with
  | gate =>
    refine ⟨stage_holds single hg (hfit .gate) ?_, stage_prec hg⟩
    intro a _ ha
    rw [hslab a (by omega), hframeD a (by omega), hframeU a ha]
  | up =>
    refine ⟨stage_holds single hu (hfit .up) ?_, stage_prec hu⟩
    intro a _ ha
    rw [hslab a (by omega), hframeD a ha]
  | down =>
    refine ⟨stage_holds single hd (hfit .down) ?_, stage_prec hd⟩
    intro a _ ha
    exact hslab a ha

end Slices

end ShannonPrime.Cuda
