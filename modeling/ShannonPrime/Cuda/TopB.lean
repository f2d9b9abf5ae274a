import ShannonPrime.Lib.BinaryHeap
import ShannonPrime.Lib.Buffer
import Mathlib.Data.List.Nodup
import Mathlib.Data.List.Induction

/-!
The selection of the largest scores (`sp_oracle_top_b`, `k_topb_dev`): a heap of scores with
the least one first, their positions in a second array, and one pass over the row. The host
selects for one head a call, the device for one head a block.
-/

namespace ShannonPrime.Cuda.TopB

open BinaryHeap (swap)
open Buffer (store slice)

variable {κ : Type*} [LinearOrder κ]

/-- `hs` and `hi` -/
structure Arrays (κ : Type*) where
  hs : Nat → κ
  hi : Nat → Nat

/-- The scores and the positions at `j` and `i` change places. -/
def Arrays.exchange (a : Arrays κ) (j i : Nat) : Arrays κ := ⟨swap a.hs j i, swap a.hi j i⟩

def Arrays.set (a : Arrays κ) (i : Nat) (v : κ) (p : Nat) : Arrays κ :=
  ⟨Function.update a.hs i v, Function.update a.hi i p⟩

/-! The host -/

/-- The first loop of `sp_oracle_top_b`, from the new entry to the root. -/
def siftUp (a : Arrays κ) (i : Nat) : Arrays κ :=
  if _h : 0 < i then
    if a.hs ((i - 1) / 2) ≤ a.hs i then a
    else siftUp (a.exchange ((i - 1) / 2) i) ((i - 1) / 2)
  else a
termination_by i
decreasing_by omega

/-- `sm` -/
def smallest (n : Nat) (a : Arrays κ) (i : Nat) : Nat :=
  let sm := if 2 * i + 1 < n ∧ a.hs (2 * i + 1) < a.hs i then 2 * i + 1 else i
  if 2 * i + 2 < n ∧ a.hs (2 * i + 2) < a.hs sm then 2 * i + 2 else sm

/-- A child that is taken lies below the entry and is in use. -/
theorem pick_cases {n i c m : Nat} {a : Arrays κ} (hc : i < c) (hm : m = i ∨ i < m ∧ m < n) :
    (if c < n ∧ a.hs c < a.hs m then c else m) = i ∨
      i < (if c < n ∧ a.hs c < a.hs m then c else m) ∧
        (if c < n ∧ a.hs c < a.hs m then c else m) < n := by
  split
  · rename_i htaken
    exact Or.inr ⟨hc, htaken.1⟩
  · exact hm

theorem smallest_cases (n : Nat) (a : Arrays κ) (i : Nat) :
    smallest n a i = i ∨ i < smallest n a i ∧ smallest n a i < n :=
  pick_cases (by omega) (pick_cases (by omega) (Or.inl rfl))

/-- The second loop of `sp_oracle_top_b`, from the root to where the new entry comes to rest. -/
def siftDown (n : Nat) (a : Arrays κ) (i : Nat) : Arrays κ :=
  if _h : smallest n a i = i then a
  else siftDown n (a.exchange (smallest n a i) i) (smallest n a i)
termination_by n - i
decreasing_by
  have := (smallest_cases n a i).resolve_left _h
  omega

/-- What a pass has in its arrays, and how many of the entries are used. -/
structure Selection (κ : Type*) where
  a : Arrays κ
  n : Nat

def step (sc : Nat → κ) (m : Nat) (s : Selection κ) (p : Nat) : Selection κ :=
  if s.n < m then ⟨siftUp (s.a.set s.n (sc p) p) s.n, s.n + 1⟩
  else if s.a.hs 0 < sc p then ⟨siftDown s.n (s.a.set 0 (sc p) p) 0, s.n⟩
  else s

def select (sc : Nat → κ) (ctx B : Nat) (a : Arrays κ) : Selection κ :=
  (List.range ctx).foldl (step sc (min B ctx)) ⟨a, 0⟩

/-- `sp_oracle_top_b`: the positions, and how many there are. -/
def spOracleTopB (sc : Nat → κ) (ctx B : Nat) (a : Arrays κ) (out : Nat → Nat) :
    (Nat → Nat) × Nat :=
  let s := select sc ctx B a
  (store out 0 s.n s.a.hi, s.n)

/-! The device -/

/-- `k_topb_dev` of one head: the block's loops are those of the host, over its shared memory. -/
def kTopbDevBlock (scores : Nat → κ) (ctx Pstr B : Nat) (smem : Nat → Arrays κ)
    (out : (Nat → Nat) × (Nat → Nat)) (h : Nat) : (Nat → Nat) × (Nat → Nat) :=
  let s := select (fun p => scores (h * Pstr + p)) ctx B (smem h)
  (store out.1 (h * Pstr) s.n s.a.hi, Function.update out.2 h s.n)

/-- `k_topb_dev` over the heads of a grid, in the order their blocks run: `ri` and `m_out`. -/
def kTopbDev (scores : Nat → κ) (ctx Pstr B : Nat) (smem : Nat → Arrays κ) (heads : List Nat)
    (ri mOut : Nat → Nat) : (Nat → Nat) × (Nat → Nat) :=
  heads.foldl (kTopbDevBlock scores ctx Pstr B smem) (ri, mOut)

/-! What is selected -/

/-- The positions of the `B` largest of the first `ctx` scores. -/
structure Largest (sc : Nat → κ) (ctx B : Nat) (sel : List Nat) : Prop where
  count : sel.length = min B ctx
  distinct : sel.Nodup
  inside : ∀ p ∈ sel, p < ctx
  largest : ∀ p, p < ctx → p ∉ sel → ∀ q ∈ sel, sc p ≤ sc q

/-! The arrays as a heap of pairs -/

section

variable {a : Arrays κ} {i j n : Nat}

/-- The entries as pairs. -/
def Arrays.entry (a : Arrays κ) (k : Nat) : κ × Nat := (a.hs k, a.hi k)

/-- The pair with the lower score comes out first. -/
def before (x y : κ × Nat) : Bool := decide (x.1 < y.1)

theorem before_compares : BinaryHeap.Compares (before (κ := κ)) Prod.fst := fun _ _ =>
  decide_eq_true_iff

omit [LinearOrder κ] in
theorem entry_exchange (a : Arrays κ) (j i : Nat) :
    (a.exchange j i).entry = swap a.entry i j := by
  rw [BinaryHeap.swap_comm]
  funext k
  simp only [Arrays.entry, Arrays.exchange, BinaryHeap.swap_apply]

omit [LinearOrder κ] in
theorem entry_set (a : Arrays κ) (i : Nat) (v : κ) (p : Nat) :
    (a.set i v p).entry = Function.update a.entry i (v, p) := by
  funext k
  by_cases hk : k = i
  · rw [hk, Function.update_self]
    exact Prod.ext (Function.update_self _ _ _) (Function.update_self _ _ _)
  · rw [Function.update_of_ne hk]
    exact Prod.ext (Function.update_of_ne hk _ _) (Function.update_of_ne hk _ _)

theorem siftUp_entry {fuel : Nat} (hfuel : i ≤ fuel) :
    (siftUp a i).entry = BinaryHeap.siftUp before fuel a.entry i := by
  induction fuel generalizing a i with
  | zero =>
      rw [siftUp, dif_neg (by omega)]
      rfl
  | succ fuel ih =>
      rw [siftUp, BinaryHeap.siftUp]
      by_cases hpos : 0 < i
      · rw [dif_pos hpos]
        by_cases hle : a.hs ((i - 1) / 2) ≤ a.hs i
        · rw [if_pos hle, if_neg fun h => absurd (before_compares _ _ |>.mp h.2) (not_lt.mpr hle)]
        · rw [if_neg hle, if_pos ⟨hpos, before_compares _ _ |>.mpr (not_le.mp hle)⟩, ih (by omega),
            entry_exchange]
      · rw [dif_neg hpos, if_neg fun h => hpos h.1]

theorem pick_entry (n : Nat) (a : Arrays κ) (c m : Nat) :
    BinaryHeap.pick before n a.entry c m = if c < n ∧ a.hs c < a.hs m then c else m :=
  if_congr (and_congr_right fun _ => before_compares _ _) rfl rfl

theorem smallest_eq (n : Nat) (a : Arrays κ) (i : Nat) :
    smallest n a i = BinaryHeap.least before n a.entry i := by
  rw [BinaryHeap.least, pick_entry, pick_entry]
  rfl

theorem siftDown_entry (fuel : Nat) (hfuel : n ≤ i + fuel) :
    (siftDown n a i).entry = BinaryHeap.siftDown before n fuel a.entry i := by
  induction fuel generalizing a i with
  | zero =>
      have hstop : smallest n a i = i := by
        rcases smallest_cases n a i with hstop | hmore
        · exact hstop
        · omega
      rw [siftDown, dif_pos hstop]
      rfl
  | succ fuel ih =>
      rw [siftDown, BinaryHeap.siftDown, ← smallest_eq]
      by_cases hstop : smallest n a i = i
      · rw [dif_pos hstop, if_pos hstop]
      · have hmore := (smallest_cases n a i).resolve_left hstop
        rw [dif_neg hstop, if_neg hstop, ih (by omega), entry_exchange]

/-- A selection as a heap. -/
def Selection.heap (s : Selection κ) : BinaryHeap.Heap (κ × Nat) := ⟨s.a.entry, s.n⟩

/-- What one position does to the heap. -/
theorem step_heap (sc : Nat → κ) (m : Nat) (s : Selection κ) (p : Nat) :
    (step sc m s p).heap =
      if s.n < m then BinaryHeap.push before s.heap (sc p, p)
      else if (s.heap.e 0).1 < sc p then BinaryHeap.replace before s.heap (sc p, p)
      else s.heap := by
  unfold step
  split
  · simp only [Selection.heap, BinaryHeap.push]
    rw [siftUp_entry (le_refl _), entry_set]
  · split
    · rename_i hlarger
      rw [if_pos (show (s.heap.e 0).1 < sc p from hlarger)]
      simp only [Selection.heap, BinaryHeap.replace]
      rw [siftDown_entry s.n (by omega), entry_set]
    · rename_i hlarger
      rw [if_neg (show ¬ (s.heap.e 0).1 < sc p from hlarger)]

end

/-! One pass -/

/-- After `p` positions the heap holds the `m` largest of them, or all while there are fewer. -/
structure Holds (sc : Nat → κ) (m p : Nat) (h : BinaryHeap.Heap (κ × Nat)) : Prop where
  count : h.n = min m p
  ordered : BinaryHeap.Ordered Prod.fst h.e h.n
  distinct : BinaryHeap.Distinct h.e h.n
  seen : ∀ x, BinaryHeap.Mem x h.e h.n → ∃ q < p, x = (sc q, q)
  left : ∀ q < p, BinaryHeap.Mem (sc q, q) h.e h.n ∨
    h.n = m ∧ ∀ x, BinaryHeap.Mem x h.e h.n → sc q ≤ x.1

section

variable {sc : Nat → κ} {m p : Nat} {h : BinaryHeap.Heap (κ × Nat)}

theorem Holds.start (sc : Nat → κ) (m : Nat) (e : Nat → κ × Nat) : Holds sc m 0 ⟨e, 0⟩ where
  count := (Nat.min_zero m).symm
  ordered j _ hj := absurd hj (Nat.not_lt_zero j)
  distinct i hi := absurd hi (Nat.not_lt_zero i)
  seen x hx := by
    obtain ⟨i, hi, -⟩ := hx
    exact absurd hi (Nat.not_lt_zero i)
  left q hq := absurd hq (Nat.not_lt_zero q)

/-- The position that comes next is not yet held. -/
theorem Holds.fresh (hh : Holds sc m p h) : ¬ BinaryHeap.Mem (sc p, p) h.e h.n := by
  intro hmem
  obtain ⟨q, hq, heq⟩ := hh.seen _ hmem
  have hpq : p = q := congrArg Prod.snd heq
  omega

theorem Holds.push (hh : Holds sc m p h) (hroom : h.n < m) :
    Holds sc m (p + 1) (BinaryHeap.push before h (sc p, p)) where
  count := by
    have hcount := hh.count
    rw [BinaryHeap.push_n]
    omega
  ordered := hh.ordered.push before_compares _
  distinct := hh.distinct.push hh.fresh
  seen x hx := by
    rcases (BinaryHeap.mem_push _).mp hx with rfl | hold
    · exact ⟨p, Nat.lt_succ_self p, rfl⟩
    · obtain ⟨q, hq, heq⟩ := hh.seen x hold
      exact ⟨q, by omega, heq⟩
  left q hq := by
    left
    rw [BinaryHeap.mem_push]
    rcases Nat.lt_succ_iff_lt_or_eq.mp hq with hold | rfl
    · right
      rcases hh.left q hold with hmem | ⟨hfull, -⟩
      · exact hmem
      · omega
    · exact Or.inl rfl

/-- What the replaced heap still holds was there before, and is not below the old root. -/
theorem Holds.mem_kept (hh : Holds sc m p h) {i : Nat} (hi : i < h.n) :
    BinaryHeap.Mem (h.e i) h.e h.n ∧ (h.e 0).1 ≤ (h.e i).1 :=
  ⟨⟨i, hi, rfl⟩, hh.ordered.first_le ⟨i, hi, rfl⟩⟩

theorem Holds.replace (hh : Holds sc m p h) (hm : 0 < m) (hfull : ¬ h.n < m)
    (hlarger : (h.e 0).1 < sc p) :
    Holds sc m (p + 1) (BinaryHeap.replace before h (sc p, p)) := by
  have hcount := hh.count
  have hpos : 0 < h.n := by omega
  have hmem : ∀ x, BinaryHeap.Mem x (BinaryHeap.replace before h (sc p, p)).e
      (BinaryHeap.replace before h (sc p, p)).n ↔
      x = (sc p, p) ∨ ∃ i, 0 < i ∧ i < h.n ∧ h.e i = x := fun x => BinaryHeap.mem_replace hpos _
  have hroot : ∀ x, BinaryHeap.Mem x (BinaryHeap.replace before h (sc p, p)).e
      (BinaryHeap.replace before h (sc p, p)).n → (h.e 0).1 ≤ x.1 := by
    intro x hx
    rcases (hmem x).mp hx with rfl | ⟨i, -, hi, rfl⟩
    · exact hlarger.le
    · exact (hh.mem_kept hi).2
  constructor
  · rw [BinaryHeap.replace_n]
    omega
  · exact hh.ordered.replace before_compares _
  · exact hh.distinct.replace hpos hh.fresh
  · intro x hx
    rcases (hmem x).mp hx with rfl | ⟨i, -, hi, rfl⟩
    · exact ⟨p, Nat.lt_succ_self p, rfl⟩
    · obtain ⟨q, hq, heq⟩ := hh.seen _ (hh.mem_kept hi).1
      exact ⟨q, by omega, heq⟩
  · intro q hq
    rcases Nat.lt_succ_iff_lt_or_eq.mp hq with hold | rfl
    · rcases hh.left q hold with ⟨i, hi, heq⟩ | ⟨-, hsmall⟩
      · rcases Nat.eq_zero_or_pos i with rfl | hnotroot
        · -- the root itself goes out
          right
          refine ⟨by rw [BinaryHeap.replace_n]; omega, fun x hx => ?_⟩
          have hscore : (h.e 0).1 = sc q := congrArg Prod.fst heq
          rw [← hscore]
          exact hroot x hx
        · exact Or.inl ((hmem _).mpr (Or.inr ⟨i, hnotroot, hi, heq⟩))
      · right
        refine ⟨by rw [BinaryHeap.replace_n]; omega, fun x hx => ?_⟩
        exact (hsmall _ ⟨0, hpos, rfl⟩).trans (hroot x hx)
    · exact Or.inl ((hmem _).mpr (Or.inl rfl))

/-- A score not above the root's stays out. -/
theorem Holds.skip (hh : Holds sc m p h) (hfull : ¬ h.n < m) (hnot : ¬ (h.e 0).1 < sc p) :
    Holds sc m (p + 1) h where
  count := by
    have hcount := hh.count
    omega
  ordered := hh.ordered
  distinct := hh.distinct
  seen x hx := by
    obtain ⟨q, hq, heq⟩ := hh.seen x hx
    exact ⟨q, by omega, heq⟩
  left q hq := by
    have hcount := hh.count
    rcases Nat.lt_succ_iff_lt_or_eq.mp hq with hold | rfl
    · exact hh.left q hold
    · right
      refine ⟨by omega, fun x hx => ?_⟩
      exact (not_lt.mp hnot).trans (hh.ordered.first_le hx)

theorem Holds.step {s : Selection κ} (hm : 0 < m) (hh : Holds sc m p s.heap) :
    Holds sc m (p + 1) (step sc m s p).heap := by
  rw [step_heap]
  split
  · rename_i hroom
    exact hh.push hroom
  · rename_i hfull
    split
    · rename_i hlarger
      exact hh.replace hm hfull hlarger
    · rename_i hnot
      exact hh.skip hfull hnot

theorem select_holds (sc : Nat → κ) {m : Nat} (hm : 0 < m) (a : Arrays κ) (ctx : Nat) :
    Holds sc m ctx ((List.range ctx).foldl (TopB.step sc m) ⟨a, 0⟩).heap := by
  induction ctx with
  | zero => exact Holds.start sc m a.entry
  | succ ctx ih =>
      rw [List.range_succ, List.foldl_append, List.foldl_cons, List.foldl_nil]
      exact ih.step hm

/-- The positions held are the largest ones. -/
theorem Holds.largest {s : Selection κ} {ctx B : Nat} (hh : Holds sc (min B ctx) ctx s.heap) :
    Largest sc ctx B (Buffer.vec s.n s.a.hi) := by
  have hcount : s.n = min (min B ctx) ctx := hh.count
  have hmem : ∀ q, q ∈ Buffer.vec s.n s.a.hi ↔ q < ctx ∧ BinaryHeap.Mem (sc q, q) s.a.entry s.n := by
    intro q
    constructor
    · intro hq
      obtain ⟨j, hj, rfl⟩ := List.mem_map.mp hq
      have hj' : j < s.n := List.mem_range.mp hj
      obtain ⟨q, hqlt, heq⟩ := hh.seen (s.a.entry j) ⟨j, hj', rfl⟩
      have hpos : s.a.hi j = q := congrArg Prod.snd heq
      rw [hpos]
      exact ⟨hqlt, j, hj', heq⟩
    · rintro ⟨-, j, hj, heq⟩
      exact List.mem_map.mpr ⟨j, List.mem_range.mpr hj, congrArg Prod.snd heq⟩
  constructor
  · rw [Buffer.vec, List.length_map, List.length_range]
    omega
  · refine List.Nodup.map_on ?_ List.nodup_range
    intro i hi j hj hij
    rw [List.mem_range] at hi hj
    apply hh.distinct i hi j hj
    obtain ⟨q, -, hq⟩ := hh.seen (s.a.entry i) ⟨i, hi, rfl⟩
    obtain ⟨r, -, hr⟩ := hh.seen (s.a.entry j) ⟨j, hj, rfl⟩
    have hqi : s.a.hi i = q := congrArg Prod.snd hq
    have hrj : s.a.hi j = r := congrArg Prod.snd hr
    have hqr : q = r := by rw [← hqi, ← hrj, hij]
    exact hq.trans ((congrArg (fun q => (sc q, q)) hqr).trans hr.symm)
  · intro q hq
    exact ((hmem q).mp hq).1
  · intro q hq hnot r hr
    rcases hh.left q hq with hheld | ⟨-, hsmall⟩
    · exact absurd ((hmem q).mpr ⟨hq, hheld⟩) hnot
    · exact hsmall _ ((hmem r).mp hr).2

theorem select_largest (sc : Nat → κ) (ctx : Nat) {B : Nat} (hB : 1 ≤ B) (a : Arrays κ) :
    Largest sc ctx B (Buffer.vec (select sc ctx B a).n (select sc ctx B a).a.hi) := by
  rcases Nat.eq_zero_or_pos ctx with rfl | hctx
  · exact (Holds.start sc (min B 0) a.entry).largest (s := ⟨a, 0⟩)
  · exact (select_holds sc (by omega) a ctx).largest

/-- What the arrays held before a pass does not show in what it selects. -/
theorem select_agrees (sc : Nat → κ) {m : Nat} (hm : 0 < m) (a a' : Arrays κ) (ctx : Nat) :
    BinaryHeap.Agrees ((List.range ctx).foldl (TopB.step sc m) ⟨a, 0⟩).heap
      ((List.range ctx).foldl (TopB.step sc m) ⟨a', 0⟩).heap := by
  induction ctx with
  | zero => exact ⟨rfl, fun k hk => absurd hk (Nat.not_lt_zero k)⟩
  | succ ctx ih =>
      simp only [List.range_succ, List.foldl_append, List.foldl_cons, List.foldl_nil]
      generalize (List.range ctx).foldl (TopB.step sc m) ⟨a, 0⟩ = s at ih
      generalize (List.range ctx).foldl (TopB.step sc m) ⟨a', 0⟩ = s' at ih
      have hn : s.n = s'.n := ih.1
      rw [step_heap, step_heap, ← hn]
      split
      · exact ih.push _
      · rename_i hfull
        have hpos : 0 < s.heap.n := by
          have : s.heap.n = s.n := rfl
          omega
        rw [← ih.2 0 hpos]
        split
        · exact ih.replace hpos _
        · exact ih

end

/-! The buffers -/

theorem select_same (sc : Nat → κ) (ctx : Nat) {B : Nat} (hB : 1 ≤ B) (a a' : Arrays κ) :
    (select sc ctx B a).n = (select sc ctx B a').n ∧
      ∀ j < (select sc ctx B a).n, (select sc ctx B a).a.hi j = (select sc ctx B a').a.hi j := by
  rcases Nat.eq_zero_or_pos ctx with rfl | hctx
  · exact ⟨rfl, fun j hj => absurd hj (Nat.not_lt_zero j)⟩
  · obtain ⟨hn, he⟩ := select_agrees sc (m := min B ctx) (by omega) a a' ctx
    exact ⟨hn, fun j hj => congrArg Prod.snd (he j hj)⟩

/-- What a grid leaves for one of its heads: the heads write apart from each other. -/
theorem kTopbDev_head (scores : Nat → κ) {ctx Pstr B : Nat} (hB : 1 ≤ B) (hctx : ctx ≤ Pstr)
    (smem : Nat → Arrays κ) (heads : List Nat) (ri mOut : Nat → Nat) {h : Nat} (hh : h ∈ heads) :
    let s := select (fun p => scores (h * Pstr + p)) ctx B (smem h)
    (kTopbDev scores ctx Pstr B smem heads ri mOut).2 h = s.n ∧
      ∀ j < s.n, (kTopbDev scores ctx Pstr B smem heads ri mOut).1 (h * Pstr + j) = s.a.hi j := by
  intro s
  induction heads using List.reverseRecOn with
  | nil => exact absurd hh List.not_mem_nil
  | append_singleton heads last ih =>
      have hlast : (select (fun p => scores (last * Pstr + p)) ctx B (smem last)).n ≤ ctx := by
        have hcount := (select_largest (fun p => scores (last * Pstr + p)) ctx hB (smem last)).count
        rw [Buffer.vec, List.length_map, List.length_range] at hcount
        omega
      rw [kTopbDev, List.foldl_append, List.foldl_cons, List.foldl_nil]
      by_cases hsame : h = last
      · subst hsame
        exact ⟨Function.update_self _ _ _, fun j hj => Buffer.store_inside hj⟩
      · have hold : h ∈ heads := by
          rcases List.mem_append.mp hh with hold | hlast
          · exact hold
          · exact absurd (List.mem_singleton.mp hlast) hsame
        obtain ⟨hm, hri⟩ := ih hold
        refine ⟨(Function.update_of_ne hsame _ _).trans hm, fun j hj => ?_⟩
        rw [← hri j hj]
        apply Buffer.store_outside
        have hcount := (select_largest (fun p => scores (h * Pstr + p)) ctx hB (smem h)).count
        rw [Buffer.vec, List.length_map, List.length_range] at hcount
        have hj' : j < ctx := by
          have : s.n = (select (fun p => scores (h * Pstr + p)) ctx B (smem h)).n := rfl
          omega
        rcases Nat.lt_or_gt_of_ne hsame with hbelow | habove
        · left
          have hblock := Buffer.block_le (w := Pstr) hbelow
          omega
        · right
          have hblock := Buffer.block_le (w := Pstr) habove
          omega

/-- The host selects the positions of the largest scores, and every head of a grid, whatever
the arrays held before and in whatever order the blocks run, the same positions in the same
order. -/
theorem top_b_correct (ctx B : Nat) (hB : 1 ≤ B) (a : Arrays κ) (out : Nat → Nat) :
    (∀ sc : Nat → κ, Largest sc ctx B
      (slice (spOracleTopB sc ctx B a out).1 0 (spOracleTopB sc ctx B a out).2)) ∧
    ∀ (scores : Nat → κ) (Pstr : Nat) (smem : Nat → Arrays κ) (heads : List Nat)
      (ri mOut : Nat → Nat) (h : Nat), ctx ≤ Pstr → h ∈ heads →
      (kTopbDev scores ctx Pstr B smem heads ri mOut).2 h =
        (spOracleTopB (fun p => scores (h * Pstr + p)) ctx B a out).2 ∧
      slice (kTopbDev scores ctx Pstr B smem heads ri mOut).1 (h * Pstr)
          ((kTopbDev scores ctx Pstr B smem heads ri mOut).2 h) =
        slice (spOracleTopB (fun p => scores (h * Pstr + p)) ctx B a out).1 0
          (spOracleTopB (fun p => scores (h * Pstr + p)) ctx B a out).2 := by
  have hout : ∀ sc : Nat → κ, slice (spOracleTopB sc ctx B a out).1 0
      (spOracleTopB sc ctx B a out).2 =
        Buffer.vec (select sc ctx B a).n (select sc ctx B a).a.hi := fun sc =>
    Buffer.slice_eq_vec fun i hi => Buffer.store_inside hi
  refine ⟨fun sc => ?_, fun scores Pstr smem heads ri mOut h hctx hh => ?_⟩
  · rw [hout]
    exact select_largest sc ctx hB a
  · obtain ⟨hm, hri⟩ := kTopbDev_head scores hB hctx smem heads ri mOut hh
    obtain ⟨hn, hsame⟩ := select_same (fun p => scores (h * Pstr + p)) ctx hB (smem h) a
    refine ⟨hm.trans hn, ?_⟩
    rw [hout, hm, ← hn]
    exact Buffer.slice_eq_vec fun j hj => (hri j hj).trans (hsame j hj)

/-- Two of five scores with a tie, and the second of two heads on the device. -/
theorem top_b_correct_five :
    Largest (fun p => ([3, 1, 4, 4, 2].getD p 0 : Int)) 5 2
      (slice (spOracleTopB (fun p => ([3, 1, 4, 4, 2].getD p 0 : Int)) 5 2 ⟨fun _ => 0, fun _ => 0⟩
        fun _ => 0).1 0 (spOracleTopB (fun p => ([3, 1, 4, 4, 2].getD p 0 : Int)) 5 2
        ⟨fun _ => 0, fun _ => 0⟩ fun _ => 0).2) ∧
    (kTopbDev (fun p => (p : Int)) 5 8 2 (fun _ => ⟨fun _ => 9, fun _ => 9⟩) [1, 0]
      (fun _ => 0) fun _ => 0).2 1 =
      (spOracleTopB (fun p => ((1 * 8 + p : Nat) : Int)) 5 2 ⟨fun _ => 0, fun _ => 0⟩
        fun _ => 0).2 :=
  ⟨(top_b_correct 5 2 (by decide) _ _).1 _,
    ((top_b_correct 5 2 (by decide) _ _).2 (fun p => (p : Int)) 8 _ [1, 0] _ _ 1 (by decide)
      (by decide)).1⟩

end ShannonPrime.Cuda.TopB
