import ShannonPrime.Cuda.ExpertSlices
import ShannonPrime.Cuda.Prefetch

/-!
Runs of the prefetch. A slot knows by its events which copies from it and which products on it
there were, so that what is queued for it comes after them; what a product finds in its slot are
the rows that were asked for.
-/

namespace ShannonPrime.Cuda

open Streams

/-! ### Slices -/

namespace HostTensor

variable {pt : HostTensor} {r0 rows nIn : Nat}

/-- A slice that is prefetched. -/
structure Sliced (pt : HostTensor) (r0 rows nIn : Nat) : Prop where
  pos : 0 < rows
  fits : r0 + rows ≤ pt.rows
  blocks : nIn % 32 = 0
  packed : ∀ r < rows, pt.rowPrec (r0 + r) = 4
  scales : pt.bscale.isSome = true
  cols : pt.cols = nIn

theorem drop_take_range {α : Type} (f : Nat → α) {n a b : Nat} (h : a + b ≤ n) :
    (((List.range n).map f).drop a).take b = (List.range b).map fun i => f (a + i) := by
  apply List.ext_getElem
  · simp
    omega
  · intro i hi hi'
    simp

theorem Sliced.start_le (h : pt.Sliced r0 rows nIn) {j : Nat} (hj : j < rows) :
    pt.rowOff r0 ≤ pt.rowOff (r0 + j) ∧ pt.rowOff (r0 + j) ≤ pt.rowOff (r0 + rows - 1) := by
  have hfits := h.fits
  exact ⟨pt.rowOff_le (by omega) (by omega), pt.rowOff_le (by omega) (by omega)⟩

/-- The rows of a slot that holds the slice are those of the tensor. -/
theorem Sliced.row_eq (h : pt.Sliced r0 rows nIn) {k : PfLaunch} {dev : Nat × Part → List Nat}
    (hdev : ∀ p, dev (k.slot, p) = pt.slicePart r0 rows nIn p) (hIn : k.nIn = nIn)
    (hblk : k.bsNblk = pt.bsNblk) {j : Nat} (hj : j < rows) :
    k.row dev j = pt.packedRow (r0 + j) := by
  obtain ⟨hlow, hhigh⟩ := h.start_le hj
  have hoff : (pt.slicePart r0 rows nIn .rowOff).getD j 0 = pt.rowOff (r0 + j) - pt.rowOff r0 := by
    simp [slicePart, hj]
  have hcols := h.cols
  have hblocks := h.blocks
  have hspan : pt.rowOff (r0 + j) - pt.rowOff r0 + nIn / 2 ≤ pt.span r0 rows nIn := by
    rw [span]
    omega
  have hscale : j * pt.bsNblk + pt.bsNblk ≤ rows * pt.bsNblk := by
    rw [← Nat.succ_mul]
    exact Nat.mul_le_mul_right _ hj
  rw [PfLaunch.row, hdev, hdev, hdev, hoff, hIn, hblk, slicePart, slicePart,
    drop_take_range _ hspan, drop_take_range _ hscale, packedRow, hcols]
  congr 1
  · apply List.map_congr_left
    intro i _
    rw [← Nat.add_assoc, Nat.add_sub_cancel' hlow]
  · apply List.map_congr_left
    intro b _
    rw [← Nat.add_assoc, ← Nat.add_mul]

end HostTensor

namespace PfModel

variable {M : PfModel} {name : PfName} {pt : HostTensor} {r0 rows nIn : Nat}

theorem rowOff_eq (hpt : M.arena name = some pt) (h : pt.Sliced r0 rows nIn) {j : Nat}
    (hj : j < rows) : pt.rowOff (r0 + j) = pt.rowOff r0 + j * ((nIn + 1) / 2) := by
  have hfits := h.fits
  induction j with
  | zero => simp
  | succ j ih =>
      have hstep := M.dense name pt hpt (r0 + j) (by omega)
      rw [h.packed j (by omega), h.cols, rowBytes, if_neg (by decide), ih (by omega)] at hstep
      rw [← Nat.add_assoc, hstep, Nat.succ_mul, Nat.add_assoc]

/-- The bytes of a slice are the same for all slices of its kind. -/
theorem partBytes_eq (hpt : M.arena name = some pt) (h : pt.Sliced r0 rows nIn) (p : Part) :
    pt.partBytes r0 rows nIn p = match p with
      | .codes => rows * ((nIn + 1) / 2)
      | .rowOff => rows * 8
      | .bscale => rows * (nIn / 32) * 2 := by
  cases p with
  | codes =>
      have hpos := h.pos
      have hlast := M.rowOff_eq hpt h (show rows - 1 < rows by omega)
      have hsucc : rows * ((nIn + 1) / 2) = (rows - 1) * ((nIn + 1) / 2) + (nIn + 1) / 2 := by
        rw [← Nat.succ_mul, Nat.succ_eq_add_one, Nat.sub_add_cancel hpos]
      rw [HostTensor.partBytes, HostTensor.span, Nat.add_sub_assoc hpos, hlast, Nat.add_assoc,
        Nat.add_sub_cancel_left, ← hsucc]
  | rowOff => rfl
  | bscale =>
      rw [HostTensor.partBytes, HostTensor.bscBytes, if_pos h.scales, pt.blocks h.scales, h.cols]

end PfModel

/-! ### What a slot knows -/

variable {M : PfModel} {t : List PfAction} {i : Nat} {s : PfSlot} {a : PfAction}

/-- The slot holds the rows of its key. -/
structure Loaded (M : PfModel) (t : List PfAction) (i : Nat) (s : PfSlot) : Prop where
  tensor : ∃ pt, M.arena s.key.1 = some pt ∧ pt.Sliced s.key.2 s.out s.nIn ∧
    s.bsNblk = pt.bsNblk ∧
    ∀ m p, (inOrder m t).dev (i, p) = pt.slicePart s.key.2 s.out s.nIn p
  height : s.out = s.key.1.kind.height M.E M.FFx
  copied : ∀ p, ∃ st src before, (Action.copy st src (i, p) :: before) <:+ t
  read : ∀ st k before, (Action.kernel st k :: before) <:+ t → k.slot = i →
    before.length ∈ (clocks t).event (.up i)

/-- What holds of a slot. -/
structure SlotInv (M : PfModel) (t : List PfAction) (i : Nat) (s : PfSlot) : Prop where
  copied : ∀ st p dst before, (Action.copy st (i, p) dst :: before) <:+ t →
    s.upRec = true ∧ before.length ∈ (clocks t).event (.up i)
  read : ∀ st k before, (Action.kernel st k :: before) <:+ t → k.slot = i →
    s.consPending = true ∧ before.length ∈ (clocks t).event (.cons i)
  loaded : s.valid = true → Loaded M t i s
  caps : s.inited = true → ∀ kind : PfKind, i = kind.base ∨ i = kind.base + 1 →
    s.cap .codes = kind.height M.E M.FFx * ((kind.width M.E M.FFx + 1) / 2) ∧
    s.cap .rowOff = kind.height M.E M.FFx * 8 ∧
    s.cap .bscale = kind.height M.E M.FFx * (kind.width M.E M.FFx / 32) * 2

/-- The action leaves the buffers of the device and the events of the slot alone. -/
def Foreign (i : Nat) : PfAction → Prop
  | .copy _ src dst => src.1 ≠ i ∧ dst.1 ≠ i
  | .kernel _ k => k.slot ≠ i
  | .record _ e => e ≠ .up i ∧ e ≠ .cons i
  | _ => True

theorem Foreign.event (h : Foreign i a) :
    (clocks (a :: t)).event (.up i) = (clocks t).event (.up i) ∧
      (clocks (a :: t)).event (.cons i) = (clocks t).event (.cons i) := by
  cases a with
  | record st e => exact ⟨clocks_event_of_ne h.1.symm st, clocks_event_of_ne h.2.symm st⟩
  | write b v => exact ⟨rfl, rfl⟩
  | sync e => exact ⟨rfl, rfl⟩
  | wait st e => exact ⟨rfl, rfl⟩
  | copy st src dst => exact ⟨rfl, rfl⟩
  | kernel st k => exact ⟨rfl, rfl⟩

theorem Foreign.dev (h : Foreign i a) (m : Memory (Nat × Part) (Nat × Part) (List Nat)) (p : Part) :
    (inOrder m (a :: t)).dev (i, p) = (inOrder m t).dev (i, p) := by
  cases a with
  | copy st src dst =>
      have hne : (i, p) ≠ dst := by
        rintro rfl
        exact h.2 rfl
      exact Function.update_of_ne hne _ _
  | write b v => rfl
  | sync e => rfl
  | wait st e => rfl
  | record st e => rfl
  | kernel st k => rfl

theorem Foreign.copy {st : PfStream} {p : Part} {dst : Nat × Part} {before : List PfAction}
    (h : Foreign i a) (hs : (Action.copy st (i, p) dst :: before) <:+ a :: t) :
    (Action.copy st (i, p) dst :: before) <:+ t := by
  rcases List.suffix_cons_iff.mp hs with heq | hs
  · rw [← (List.cons.inj heq).1] at h
    exact absurd rfl h.1
  · exact hs

theorem Foreign.kernel {st : PfStream} {k : PfLaunch} {before : List PfAction}
    (h : Foreign i a) (hs : (Action.kernel st k :: before) <:+ a :: t) (hk : k.slot = i) :
    (Action.kernel st k :: before) <:+ t := by
  rcases List.suffix_cons_iff.mp hs with heq | hs
  · rw [← (List.cons.inj heq).1] at h
    exact absurd hk h
  · exact hs

/-- What concerns other slots changes nothing for this one. -/
theorem SlotInv.frame (h : SlotInv M t i s) (ha : Foreign i a) : SlotInv M (a :: t) i s where
  copied st p dst before hs := by
    rw [ha.event.1]
    exact h.copied st p dst before (ha.copy hs)
  read st k before hs hk := by
    rw [ha.event.2]
    exact h.read st k before (ha.kernel hs hk) hk
  loaded hvalid := by
    have hloaded := h.loaded hvalid
    obtain ⟨pt, hpt, hsliced, hblk, hdev⟩ := hloaded.tensor
    refine ⟨⟨pt, hpt, hsliced, hblk, fun m p => (ha.dev m p).trans (hdev m p)⟩, hloaded.height,
      fun p => ?_, fun st k before hs hk => ?_⟩
    · obtain ⟨st, src, before, hs⟩ := hloaded.copied p
      exact ⟨st, src, before, hs.trans (List.suffix_cons a t)⟩
    · rw [ha.event.1]
      exact hloaded.read st k before (ha.kernel hs hk) hk
  caps := h.caps

/-- What holds of what the host has queued. -/
structure Queued (M : PfModel) (t : List PfAction) : Prop where
  disciplined : Disciplined PfLaunch.reads t
  paired : ∀ st src dst before, (Action.copy st src dst :: before) <:+ t →
    st = .upload ∧ src = dst
  right : ∀ st k before, (Action.kernel st k :: before) <:+ t →
    k.out = k.rows ∧ ∃ pt, M.arena k.name = some pt ∧
      ∀ m, ∀ j < k.rows, k.row (inOrder m before).dev j = pt.packedRow (k.r0 + j)

namespace Queued

/-- An action that is allowed, and a copy or a product only if it is as the others. -/
theorem cons (h : Queued M t) (hallowed : Allowed PfLaunch.reads t a)
    (hcopy : ∀ st src dst, a = .copy st src dst → st = .upload ∧ src = dst)
    (hright : ∀ st k, a = .kernel st k → k.out = k.rows ∧ ∃ pt, M.arena k.name = some pt ∧
      ∀ m, ∀ j < k.rows, k.row (inOrder m t).dev j = pt.packedRow (k.r0 + j)) :
    Queued M (a :: t) where
  disciplined := ⟨hallowed, h.disciplined⟩
  paired st src dst before hs := by
    rcases List.suffix_cons_iff.mp hs with heq | hs
    · exact hcopy st src dst (List.cons.inj heq).1.symm
    · exact h.paired st src dst before hs
  right st k before hs := by
    rcases List.suffix_cons_iff.mp hs with heq | hs
    · obtain ⟨rfl, rfl⟩ := List.cons.inj heq
      exact hright st k rfl
    · exact h.right st k before hs

theorem sync (h : Queued M t) (e : PfEvent) : Queued M (.sync e :: t) :=
  h.cons trivial (fun _ _ _ => nofun) fun _ _ => nofun

theorem wait (h : Queued M t) (st : PfStream) (e : PfEvent) : Queued M (.wait st e :: t) :=
  h.cons trivial (fun _ _ _ => nofun) fun _ _ => nofun

theorem record (h : Queued M t) (st : PfStream) (e : PfEvent) : Queued M (.record st e :: t) :=
  h.cons trivial (fun _ _ _ => nofun) fun _ _ => nofun

/-- The host has waited for the copies from the slot. -/
theorem write (h : Queued M t) (p : Part) (v : List Nat)
    (hknown : ∀ st p dst before, (Action.copy st (i, p) dst :: before) <:+ t →
      before.length ∈ (clocks t).host) : Queued M (.write (i, p) v :: t) :=
  h.cons (fun st dst before hs => hknown st p dst before hs) (fun _ _ _ => nofun) fun _ _ => nofun

/-- The upload stream has waited for the products on the slot. -/
theorem copy (h : Queued M t) (p : Part)
    (hknown : ∀ st k before, (Action.kernel st k :: before) <:+ t → k.slot = i →
      before.length ∈ (clocks t).stream .upload) :
    Queued M (.copy .upload (i, p) (i, p) :: t) := by
  apply h.cons
  · constructor
    · intro st k before hs hreads
      apply hknown st k before hs
      simp only [PfLaunch.reads, List.mem_cons, Prod.mk.injEq, List.not_mem_nil, or_false] at hreads
      tauto
    · intro st src before hs
      exact mem_stream hs (congrArg some (h.paired st src _ before hs).1)
  · intro st src dst heq
    cases heq
    exact ⟨rfl, rfl⟩
  · intro st k heq
    cases heq

end Queued

/-- The parts of a slot are copied, and its event is recorded. -/
def loading (i : Nat) (t : List PfAction) : List PfAction :=
  .record .upload (.up i) :: .copy .upload (i, .bscale) (i, .bscale) ::
    .copy .upload (i, .rowOff) (i, .rowOff) :: .copy .upload (i, .codes) (i, .codes) :: t

theorem suffix_loading : t <:+ loading i t := ⟨[_, _, _, _], rfl⟩

theorem loading_frame {j : Nat} (h : SlotInv M t j s) (hne : j ≠ i) :
    SlotInv M (loading i t) j s := by
  have hcopy : ∀ p : Part, Foreign j (.copy .upload (i, p) (i, p)) := fun p => ⟨hne.symm, hne.symm⟩
  have hrecord : Foreign j (.record .upload (.up i)) := by
    constructor
    · simpa using hne.symm
    · exact nofun
  exact (((h.frame (hcopy .codes)).frame (hcopy .rowOff)).frame (hcopy .bscale)).frame hrecord

theorem kernel_loading {st : PfStream} {k : PfLaunch} {before : List PfAction}
    (hs : (Action.kernel st k :: before) <:+ loading i t) : (Action.kernel st k :: before) <:+ t := by
  unfold loading at hs
  simpa [List.suffix_cons_iff] using hs

theorem loading_queued (h : Queued M t)
    (hknown : ∀ st k before, (Action.kernel st k :: before) <:+ t → k.slot = i →
      before.length ∈ (clocks t).stream .upload) : Queued M (loading i t) := by
  have hnext : ∀ {t : List PfAction} {p : Part}, (∀ st k before,
      (Action.kernel st k :: before) <:+ t → k.slot = i →
        before.length ∈ (clocks t).stream .upload) → ∀ st k before,
      (Action.kernel st k :: before) <:+ .copy .upload (i, p) (i, p) :: t → k.slot = i →
        before.length ∈ (clocks (.copy .upload (i, p) (i, p) :: t : List PfAction)).stream
          .upload := by
    intro t p hknown st k before hs hk
    rcases List.suffix_cons_iff.mp hs with heq | hs
    · cases (List.cons.inj heq).1
    · exact stream_mono (List.suffix_cons _ t) (hknown st k before hs hk)
  have hcodes := hnext (p := .codes) hknown
  have hrows := hnext (p := .rowOff) hcodes
  exact (((h.copy .codes hknown).copy .rowOff hcodes).copy .bscale hrows).record _ _

theorem loading_dev (m : Memory (Nat × Part) (Nat × Part) (List Nat)) (p : Part) :
    (inOrder m (loading i t)).dev (i, p) = (inOrder m t).host (i, p) := by
  cases p <;> simp [loading, inOrder, Action.effect]

/-- The slot after it was filled with a slice. -/
theorem loading_slot {pt : HostTensor} {name : PfName} {r0 rows nIn : Nat} (h : SlotInv M t i s)
    (hq : Queued M t) (hpt : M.arena name = some pt) (hsliced : pt.Sliced r0 rows nIn)
    (hheight : rows = name.kind.height M.E M.FFx)
    (hpin : ∀ m p, (inOrder m t).host (i, p) = pt.slicePart r0 rows nIn p)
    (hknown : ∀ st k before, (Action.kernel st k :: before) <:+ t → k.slot = i →
      before.length ∈ (clocks t).stream .upload) :
    SlotInv M (loading i t) i
      { s with
        upRec := true
        nIn := nIn
        out := rows
        bsNblk := pt.bsNblk
        key := (name, r0)
        valid := true } := by
  have hq' := loading_queued hq hknown
  have hevent : (clocks (loading i t)).event (.up i) = (clocks (loading i t)).stream .upload :=
    clocks_event_record _ _
  have hread : ∀ st k before, (Action.kernel st k :: before) <:+ loading i t → k.slot = i →
      before.length ∈ (clocks (loading i t)).stream .upload := by
    intro st k before hs hk
    exact stream_mono suffix_loading (hknown st k before (kernel_loading hs) hk)
  constructor
  · intro st p dst before hs
    rw [hevent]
    exact ⟨rfl, mem_stream hs (congrArg some (hq'.paired st _ dst before hs).1)⟩
  · intro st k before hs hk
    exact h.read st k before (kernel_loading hs) hk
  · intro _
    refine ⟨⟨pt, hpt, hsliced, rfl, fun m p => ?_⟩, hheight, fun p => ?_, fun st k before hs hk => ?_⟩
    · rw [loading_dev, hpin]
    · cases p with
      | codes => exact ⟨_, _, t, [_, _, _], rfl⟩
      | rowOff => exact ⟨_, _, _, [_, _], rfl⟩
      | bscale => exact ⟨_, _, _, [_], rfl⟩
    · rw [hevent]
      exact hread st k before hs hk
  · exact h.caps

/-! ### The calls -/

/-- What holds of the host between its calls. -/
structure PfHost.Inv (M : PfModel) (h : PfHost) : Prop where
  queued : Queued M h.queued
  slot : ∀ i, SlotInv M h.queued i (h.slots i)

namespace PfHost

variable {h : PfHost}

theorem Inv.init (M : PfModel) : PfHost.init.Inv M where
  queued :=
    { disciplined := trivial
      paired := by intro st src dst before hs; simp [PfHost.init] at hs
      right := by intro st k before hs; simp [PfHost.init] at hs }
  slot i :=
    { copied := by intro st p dst before hs; simp [PfHost.init] at hs
      read := by intro st k before hs; simp [PfHost.init] at hs
      loaded := by intro hvalid; cases hvalid
      caps := by intro hinited; cases hinited }

/-- An action that concerns no slot. -/
theorem Inv.push (h' : h.Inv M) (hq : Queued M (a :: h.queued)) (ha : ∀ i, Foreign i a) :
    (h.push a).Inv M :=
  ⟨hq, fun i => (h'.slot i).frame (ha i)⟩

theorem Inv.setSlot (h' : h.Inv M) (hs : SlotInv M h.queued i s) : (h.setSlot i s).Inv M := by
  refine ⟨h'.queued, fun j => ?_⟩
  rcases eq_or_ne j i with rfl | hne
  · rw [setSlot_self, setSlot_queued]
    exact hs
  · rw [setSlot_of_ne h hne, setSlot_queued]
    exact h'.slot j

/-- The pinned memory of a slot is written when the copies from it are done. -/
def pinning (h : PfHost) (i : Nat) (s : PfSlot) (part : Part → List Nat) : PfHost :=
  (((if s.upRec then h.push (.sync (.up i)) else h).push (.write (i, .codes) (part .codes))).push
    (.write (i, .rowOff) (part .rowOff))).push (.write (i, .bscale) (part .bscale))

/-- What the host queues for a slot before the copies. -/
def staging (h : PfHost) (i : Nat) (s : PfSlot) (part : Part → List Nat) : PfHost :=
  if s.consPending then (h.pinning i s part).push (.wait .upload (.cons i))
  else h.pinning i s part

theorem fill_queued (h : PfHost) (i : Nat) (s : PfSlot) (part : Part → List Nat) :
    (h.fill i s part).queued = loading i (h.staging i s part).queued := rfl

theorem fill_slots (h : PfHost) (i : Nat) (s : PfSlot) (part : Part → List Nat) :
    (h.fill i s part).slots = (h.staging i s part).slots := rfl

/-- The host knows all copies from the slot to be done. -/
structure Waited (M : PfModel) (h : PfHost) (i : Nat) (s : PfSlot) : Prop where
  inv : h.Inv M
  slot : SlotInv M h.queued i s
  known : ∀ st p dst before, (Action.copy st (i, p) dst :: before) <:+ h.queued →
    before.length ∈ (clocks h.queued).host

theorem Inv.waited (h' : h.Inv M) (hs : SlotInv M h.queued i s) :
    (if s.upRec then h.push (.sync (.up i)) else h).Waited M i s := by
  split
  case isTrue =>
    have hforeign : ∀ j, Foreign j (.sync (.up i) : PfAction) := fun _ => trivial
    refine ⟨h'.push (h'.queued.sync _) hforeign, hs.frame (hforeign i), ?_⟩
    intro st p dst before hcopy
    have hknown := (hs.copied st p dst before ((hforeign i).copy hcopy)).2
    exact Set.mem_insert_of_mem _ (Set.mem_union_right _ hknown)
  case isFalse hrec =>
    refine ⟨h', hs, fun st p dst before hcopy => ?_⟩
    exact absurd (hs.copied st p dst before hcopy).1 hrec

theorem Waited.write (hw : h.Waited M i s) (p : Part) (v : List Nat) :
    (h.push (.write (i, p) v)).Waited M i s := by
  have hforeign : ∀ j, Foreign j (.write (i, p) v : PfAction) := fun _ => trivial
  refine ⟨hw.inv.push (hw.inv.queued.write p v hw.known) hforeign, hw.slot.frame (hforeign i), ?_⟩
  intro st q dst before hcopy
  exact Set.mem_insert_of_mem _ (hw.known st q dst before ((hforeign i).copy hcopy))

/-- Before the copies the pinned memory holds the slice, and the upload stream knows the products on
the slot. -/
structure Staged (M : PfModel) (h : PfHost) (i : Nat) (s : PfSlot) (part : Part → List Nat) :
    Prop where
  inv : h.Inv M
  slot : SlotInv M h.queued i s
  pinned : ∀ m p, (inOrder m h.queued).host (i, p) = part p
  known : ∀ st k before, (Action.kernel st k :: before) <:+ h.queued → k.slot = i →
    before.length ∈ (clocks h.queued).stream .upload

theorem Inv.staged (h' : h.Inv M) (hs : SlotInv M h.queued i s) (part : Part → List Nat) :
    (h.staging i s part).Staged M i s part := by
  have hw : (h.pinning i s part).Waited M i s :=
    (((h'.waited hs).write .codes (part .codes)).write .rowOff (part .rowOff)).write
      .bscale (part .bscale)
  have hpinned : ∀ m p, (inOrder m (h.pinning i s part).queued).host (i, p) = part p := by
    intro m p
    cases p <;> simp [pinning, PfHost.push, inOrder, Action.effect]
  unfold staging
  split
  case isTrue =>
    have hforeign : ∀ j, Foreign j (.wait .upload (.cons i) : PfAction) := fun _ => trivial
    refine ⟨hw.inv.push (hw.inv.queued.wait _ _) hforeign, hw.slot.frame (hforeign i),
      hpinned, ?_⟩
    intro st k before hkernel hk
    have hread := (hw.slot.read st k before ((hforeign i).kernel hkernel hk) hk).2
    have hclock : (clocks (.wait .upload (.cons i) :: (h.pinning i s part).queued)).stream .upload =
        insert _ _ := clocks_stream_self rfl
    rw [PfHost.push, hclock]
    exact Set.mem_insert_of_mem _ (Set.mem_union_right _ hread)
  case isFalse hcons =>
    refine ⟨hw.inv, hw.slot, hpinned, fun st k before hkernel hk => ?_⟩
    exact absurd (hw.slot.read st k before hkernel hk).1 hcons

/-- A slot that is not valid can be filled. -/
theorem Inv.fill {pt : HostTensor} {name : PfName} {r0 rows nIn : Nat} (h' : h.Inv M)
    (hs : SlotInv M h.queued i s) (hpt : M.arena name = some pt) (hsliced : pt.Sliced r0 rows nIn)
    (hheight : rows = name.kind.height M.E M.FFx) :
    ((h.fill i s (pt.slicePart r0 rows nIn)).setSlot i
      { s with
        upRec := true
        nIn := nIn
        out := rows
        bsNblk := pt.bsNblk
        key := (name, r0)
        valid := true }).Inv M := by
  have hstaged := h'.staged hs (pt.slicePart r0 rows nIn)
  constructor
  · exact loading_queued hstaged.inv.queued hstaged.known
  · intro j
    rw [setSlot_queued, fill_queued]
    rcases eq_or_ne j i with rfl | hne
    · rw [setSlot_self]
      exact loading_slot hstaged.slot hstaged.inv.queued hpt hsliced hheight hstaged.pinned
        hstaged.known
    · rw [setSlot_of_ne _ hne, fill_slots]
      exact loading_frame (hstaged.inv.slot j) hne

/-- An unused slot gets the sizes of its kind. -/
theorem Inv.allocate {pt : HostTensor} {name : PfName} {r0 n : Nat} (h' : h.Inv M)
    (hpt : M.arena name = some pt)
    (hsliced : pt.Sliced r0 (name.kind.height M.E M.FFx) (name.kind.width M.E M.FFx))
    (hi : i = name.kind.base + n % 2) (alloc : Bool) (need : Nat) :
    SlotInv M h.queued i ((h.slots i).allocate alloc
      (pt.partBytes r0 (name.kind.height M.E M.FFx) (name.kind.width M.E M.FFx)) need) := by
  have hs := h'.slot i
  unfold PfSlot.allocate
  split
  case isTrue => exact hs
  case isFalse =>
    refine ⟨hs.copied, hs.read, fun hvalid => ?_, fun _ kind hkind => ?_⟩
    · have hloaded := hs.loaded hvalid
      exact ⟨hloaded.tensor, hloaded.height, hloaded.copied, hloaded.read⟩
    · obtain rfl : kind = name.kind := by
        cases kind <;> cases hname : name.kind <;> rw [hname] at hi <;>
          simp only [PfKind.base] at hi hkind <;> first | rfl | omega
      have hbytes := M.partBytes_eq hpt hsliced
      exact ⟨hbytes .codes, hbytes .rowOff, hbytes .bscale⟩

/-- A prefetch stays within the buffers, and keeps what holds. -/
theorem Inv.prefetchSlot {pt : HostTensor} {name : PfName} {r0 n : Nat} (h' : h.Inv M)
    (hpt : M.arena name = some pt)
    (hsliced : pt.bscBytes (name.kind.height M.E M.FFx) ≠ 0 →
      pt.Sliced r0 (name.kind.height M.E M.FFx) (name.kind.width M.E M.FFx))
    (hi : i = name.kind.base + n % 2) (alloc : Bool) :
    ∃ h₂, h.prefetchSlot alloc pt name r0 (name.kind.height M.E M.FFx)
      (name.kind.width M.E M.FFx) i = some h₂ ∧ h₂.Inv M := by
  unfold PfHost.prefetchSlot
  split
  case isTrue => exact ⟨h, rfl, h'⟩
  split
  case isTrue => exact ⟨h, rfl, h'⟩
  rename_i hscales
  have hsliced := hsliced hscales
  have hslot := h'.allocate hpt hsliced hi alloc
    (pt.span r0 (name.kind.height M.E M.FFx) (name.kind.width M.E M.FFx) +
      name.kind.height M.E M.FFx * 8 + pt.bscBytes (name.kind.height M.E M.FFx))
  dsimp only
  generalize (h.slots i).allocate alloc _ _ = s at hslot ⊢
  split
  case isTrue => exact ⟨_, rfl, h'.setSlot hslot⟩
  rename_i hready
  rw [not_or, Bool.not_eq_false] at hready
  obtain ⟨hcodes, hoffs, hscale⟩ := hslot.caps hready.1 name.kind (by omega)
  have hbytes := M.partBytes_eq hpt hsliced
  rw [if_neg]
  · exact ⟨_, rfl, h'.fill hslot hpt hsliced rfl⟩
  · rw [hcodes, hoffs, hscale, hbytes, hbytes, hbytes]
    simp

theorem Inv.prefetch (h' : h.Inv M) (alloc : Bool) (name : PfName) (r0 : Nat) :
    ∃ h₂, h.dgPrefetchRows M alloc name r0 (name.kind.height M.E M.FFx)
      (name.kind.width M.E M.FFx) name.kind = some h₂ ∧ h₂.Inv M := by
  unfold dgPrefetchRows
  cases hpt : M.arena name with
  | none => exact ⟨h, rfl, h'⟩
  | some pt =>
      dsimp only
      split
      case isTrue => exact ⟨h, rfl, h'⟩
      rename_i hrows
      split
      case isTrue => exact ⟨h, rfl, h'⟩
      rename_i hblocks
      split
      case isTrue => exact ⟨h, rfl, h'⟩
      rename_i hpacked
      split
      case isTrue => exact ⟨h, rfl, h'⟩
      have hrr : ∀ rr, ({ h with rr := rr } : PfHost).Inv M := fun _ => ⟨h'.queued, h'.slot⟩
      apply (hrr _).prefetchSlot hpt _ rfl
      intro hscales
      refine ⟨by omega, by omega, not_not.mp hblocks, not_not.mp hpacked, ?_, M.cols name pt hpt⟩
      by_contra hnone
      rw [HostTensor.bscBytes, if_neg hnone] at hscales
      exact hscales rfl

/-- A slot was found by its key, and the compute stream waits for its copies. -/
structure Consumed (M : PfModel) (h h₂ : PfHost) (key : PfName × Nat) (st i : Nat) : Prop where
  inv : h₂.Inv M
  queued : h₂.queued = .wait (.compute st) (.up i) :: h.queued
  key : (h.slots i).key = key
  loaded : Loaded M h.queued i (h.slots i)
  invalid : (h₂.slots i).valid = false

theorem Inv.consume {h₂ : PfHost} {key : PfName × Nat} {st : Nat} (h' : h.Inv M)
    (hfound : h.dgPfConsume key st = some (i, h₂)) : Consumed M h h₂ key st i := by
  unfold dgPfConsume at hfound
  obtain ⟨j, hfind, heq⟩ := Option.map_eq_some_iff.mp hfound
  cases heq
  have hvalid := List.find?_some hfind
  rw [Bool.and_eq_true, beq_iff_eq] at hvalid
  have hforeign : ∀ j, Foreign j (.wait (.compute st) (.up i) : PfAction) := fun _ => trivial
  have hpush := h'.push (h'.queued.wait (.compute st) (.up i)) hforeign
  have hs := hpush.slot i
  refine ⟨hpush.setSlot ⟨hs.copied, hs.read, nofun, hs.caps⟩, rfl, hvalid.2,
    (h'.slot i).loaded hvalid.1, ?_⟩
  rw [setSlot_self]

/-- The compute stream knows what the slot's event knew. -/
theorem Consumed.known {h₂ : PfHost} {key : PfName × Nat} {st n : Nat}
    (hc : Consumed M h h₂ key st i) (hn : n ∈ (clocks h.queued).event (.up i)) :
    n ∈ (clocks h₂.queued).stream (.compute st) := by
  have hclock : (clocks (.wait (.compute st) (.up i) :: h.queued)).stream (.compute st) =
      insert _ _ := clocks_stream_self rfl
  rw [hc.queued, hclock]
  exact Set.mem_insert_of_mem _ (Set.mem_union_right _ hn)

/-- The products on a slot are recorded in its event. -/
theorem Queued.mark {st : Nat} (hq : Queued M h.queued)
    (hother : ∀ j, j ≠ i → SlotInv M h.queued j (h.slots j)) (hvalid : (h.slots i).valid = false)
    (hcopied : ∀ st p dst before, (Action.copy st (i, p) dst :: before) <:+ h.queued →
      (h.slots i).upRec = true ∧ before.length ∈ (clocks h.queued).event (.up i))
    (hcaps : (h.slots i).inited = true → ∀ kind : PfKind, i = kind.base ∨ i = kind.base + 1 →
      (h.slots i).cap .codes = kind.height M.E M.FFx * ((kind.width M.E M.FFx + 1) / 2) ∧
      (h.slots i).cap .rowOff = kind.height M.E M.FFx * 8 ∧
      (h.slots i).cap .bscale = kind.height M.E M.FFx * (kind.width M.E M.FFx / 32) * 2)
    (hknown : ∀ st' k before, (Action.kernel st' k :: before) <:+ h.queued → k.slot = i →
      before.length ∈ (clocks h.queued).stream (.compute st)) :
    (h.dgPfMarkConsumed i st).Inv M := by
  have htail : ∀ {a : PfAction} {before}, (a :: before) <:+ .record (.compute st) (.cons i) ::
      h.queued → (∀ st e, a ≠ .record st e) → (a :: before) <:+ h.queued := by
    intro a before hs ha
    rcases List.suffix_cons_iff.mp hs with heq | hs
    · exact absurd (List.cons.inj heq).1 (ha _ _)
    · exact hs
  refine ⟨hq.record _ _, fun j => ?_⟩
  unfold dgPfMarkConsumed
  rcases eq_or_ne j i with rfl | hne
  · rw [setSlot_self, setSlot_queued, push_queued]
    refine ⟨fun st' p dst before hs => ?_, fun st' k before hs hk => ?_, fun hv => ?_, hcaps⟩
    · have hup : (clocks (.record (.compute st) (.cons j) :: h.queued)).event (.up j) =
          (clocks h.queued).event (.up j) := clocks_event_of_ne (by simp) _
      rw [hup]
      exact hcopied st' p dst before (htail hs fun _ _ => nofun)
    · have hcons : (clocks (.record (.compute st) (.cons j) :: h.queued)).event (.cons j) =
          (clocks (.record (.compute st) (.cons j) :: h.queued)).stream (.compute st) :=
        clocks_event_record _ _
      rw [hcons]
      exact ⟨rfl, stream_mono (List.suffix_cons _ _)
        (hknown st' k before (htail hs fun _ _ => nofun) hk)⟩
    · rw [hvalid] at hv
      cases hv
  · rw [setSlot_of_ne _ hne, setSlot_queued, push_queued]
    refine (hother j hne).frame ⟨nofun, ?_⟩
    simpa using hne.symm

/-- A product reads the rows that were asked for, in a slot whose copies its stream has waited
for. -/
theorem Consumed.launch {h₂ : PfHost} {name : PfName} {r0 st : Nat} (h' : h.Inv M)
    (hc : Consumed M h h₂ (name, r0) st i) :
    Queued M (.kernel (.compute st) ⟨i, (h.slots i).out, (h.slots i).nIn, (h.slots i).bsNblk, name,
      r0, name.kind.height M.E M.FFx⟩ :: h₂.queued) := by
  have hwait : ∀ {st' src dst before}, (Action.copy st' src dst :: before) <:+ h₂.queued →
      (Action.copy st' src dst :: before) <:+ h.queued := by
    intro st' src dst before hs
    rw [hc.queued] at hs
    rcases List.suffix_cons_iff.mp hs with heq | hs
    · cases (List.cons.inj heq).1
    · exact hs
  apply hc.inv.queued.cons
  · intro b hb
    obtain ⟨p, rfl⟩ : ∃ p, b = (i, p) := by
      simp only [PfLaunch.reads, List.mem_cons, List.not_mem_nil, or_false] at hb
      rcases hb with rfl | rfl | rfl
      · exact ⟨_, rfl⟩
      · exact ⟨_, rfl⟩
      · exact ⟨_, rfl⟩
    obtain ⟨_, _, before, hs⟩ := hc.loaded.copied p
    have hs₂ := hs.trans (List.suffix_cons (.wait (.compute st) (.up i)) h.queued)
    rw [← hc.queued] at hs₂
    obtain ⟨st', src, last, hlast, hall⟩ := exists_last_copy hs₂
    obtain ⟨-, rfl⟩ := hc.inv.queued.paired _ _ _ _ hlast
    exact ⟨st', (i, p), last, hlast,
      hc.known ((h'.slot i).copied st' p (i, p) last (hwait hlast)).2, hall⟩
  · intro st' src dst heq
    cases heq
  · intro st' k heq
    cases heq
    obtain ⟨pt, hpt, hsliced, hblk, hdev⟩ := hc.loaded.tensor
    have hheight := hc.loaded.height
    rw [hc.key] at hpt hsliced hdev hheight
    refine ⟨hheight, pt, hpt, fun m j hj => ?_⟩
    rw [← hheight] at hj
    refine hsliced.row_eq (fun p => ?_) rfl hblk hj
    rw [hc.queued]
    exact hdev m p

/-- A product keeps what holds, however it ends. -/
theorem Inv.gemm (h' : h.Inv M) (hit : Bool) (ends : GemmEnd) (name : PfName) (r0 st : Nat) :
    (h.dgGemmPackedRows hit ends name r0 (name.kind.height M.E M.FFx) st).Inv M := by
  unfold dgGemmPackedRows
  split
  case isTrue => exact h'
  split
  case h_1 => exact h'
  case h_2 i h₂ hfound =>
    have hc := h'.consume hfound
    have hs := hc.inv.slot i
    have hread : ∀ st' k before, (Action.kernel st' k :: before) <:+ h₂.queued → k.slot = i →
        before.length ∈ (clocks h₂.queued).stream (.compute st) := by
      intro st' k before hkernel hk
      rw [hc.queued] at hkernel
      rcases List.suffix_cons_iff.mp hkernel with heq | hkernel
      · cases (List.cons.inj heq).1
      · exact hc.known (hc.loaded.read st' k before hkernel hk)
    dsimp only
    split
    case h_1 => exact hc.inv
    case h_2 =>
      exact Queued.mark hc.inv.queued (fun j _ => hc.inv.slot j) hc.invalid hs.copied hs.caps hread
    case h_3 =>
      apply Queued.mark (hc.launch h')
      · intro j hne
        exact (hc.inv.slot j).frame hne.symm
      · exact hc.invalid
      · intro st' p dst before hcopy
        rcases List.suffix_cons_iff.mp hcopy with heq | hcopy
        · cases (List.cons.inj heq).1
        · exact hs.copied st' p dst before hcopy
      · exact hs.caps
      · intro st' k before hkernel hk
        rcases List.suffix_cons_iff.mp hkernel with heq | hkernel
        · obtain ⟨-, rfl⟩ := List.cons.inj heq
          exact mem_stream List.suffix_rfl rfl
        · exact stream_mono (List.suffix_cons _ _) (hread st' k before hkernel hk)

theorem Inv.call (h' : h.Inv M) (call : PfCall) : ∃ h₂, call.run M h = some h₂ ∧ h₂.Inv M := by
  cases call with
  | prefetch alloc kind layer expert => exact h'.prefetch alloc ⟨layer, kind⟩ _
  | gemm hit ends forward kind layer expert =>
      exact ⟨_, rfl, h'.gemm hit ends ⟨layer, kind⟩ _ forward⟩

theorem Inv.calls (h' : h.Inv M) (calls : List PfCall) :
    ∃ h₂, calls.foldlM (PfCall.run M) h = some h₂ ∧ h₂.Inv M := by
  induction calls generalizing h with
  | nil => exact ⟨h, rfl, h'⟩
  | cons call calls ih =>
      obtain ⟨h₁, hrun, h'₁⟩ := h'.call call
      obtain ⟨h₂, hrest, h'₂⟩ := ih h'₁
      refine ⟨h₂, ?_, h'₂⟩
      rw [List.foldlM_cons, hrun]
      exact hrest

end PfHost

/-- No pinned buffer is written while a copy from it is pending; no buffer of the device is copied
into while a product that was queued before reads it; a product that may be under way finds the
rows that were asked for, all of them and no others. -/
structure HazardFree (M : PfModel) (queued : List PfAction)
    (σ : State PfStream PfEvent (Nat × Part) (Nat × Part) (List Nat) PfLaunch) : Prop where
  pinned : ∀ b v, (Action.write b v :: σ.issued) <:+ queued → ∀ st dst before,
    (Action.copy st b dst :: before) <:+ σ.issued → before.length ∈ σ.done
  target : ∀ st src dst later, σ.Running (.copy st src dst) later → ∀ st' k before,
    (Action.kernel st' k :: before) <:+ later → dst ∈ k.reads → before.length ∈ σ.done
  rows : ∀ st k before, σ.Running (.kernel st k) before → k.out = k.rows ∧
    ∃ pt, M.arena k.name = some pt ∧
      ∀ j < k.rows, k.row σ.mem.dev j = pt.packedRow (k.r0 + j)

end ShannonPrime.Cuda
