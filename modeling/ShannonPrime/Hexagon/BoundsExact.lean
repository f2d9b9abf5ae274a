import ShannonPrime.Hexagon.Bounds
import ShannonPrime.Hexagon.Tiles

/-!
When the forward stays inside its buffers. The scratch area, the row sums and the VTCM are
laid out from the same configuration and always suffice; what can go wrong is the
fixed activation buffer, a size that is no `int`, a division, and the padded length of the
last tile.
-/

namespace ShannonPrime.Hexagon

open CInt

/-- What a configuration with layers must satisfy. -/
structure Cfg.LayersFit (c : Cfg) (nTok : Nat) : Prop where
  scratch : 4 * c.scratchElems nTok < 2 ^ 31
  heads : c.nHead = 0 ∨ c.nHeadKv ≤ c.nHead
  embd : c.nEmbd ≤ maxIn
  qd : c.qd ≤ maxIn
  ff : c.nFf ≤ maxIn
  ffPos : 0 < c.nFf
  tiles : ∀ k ∈ ffnKinds,
    c.kindOff k + c.rows k * align (c.cols k) ≤ c.layerBytes + f32Bytes c.nEmbd

/-- The sizes are those of an `int`, rows fit the activation buffer, every query head has a
key head, and the tiles of the last layer end within the blob. -/
structure Cfg.Fits (c : Cfg) (nTok : Nat) : Prop where
  width : c.scratchWidth < 2 ^ 31
  headsKv : c.nHeadKv ≠ 0
  x : 4 * (nTok * c.nEmbd) < 2 ^ 31
  blob : c.blobBytes < 2 ^ 31
  noLayers : c.nLayers = 0 →
    ((4 * (nTok * c.nEmbd) : Nat) : Int) ≤ rpcmemBytes (4 * c.scratchElems nTok)
  layers : c.nLayers ≠ 0 → c.LayersFit nTok

/-! ### Lists of events -/

section Lists

variable {B : Area → Int}

@[simp] theorem allOk_nil : AllOk B [] := fun _ he => absurd he List.not_mem_nil

@[simp] theorem allOk_cons {e : Event} {es : List Event} :
    AllOk B (e :: es) ↔ e.Ok B ∧ AllOk B es := List.forall_mem_cons

@[simp] theorem allOk_append {es es' : List Event} :
    AllOk B (es ++ es') ↔ AllOk B es ∧ AllOk B es' := List.forall_mem_append

theorem allOk_flatMap {l : List Nat} {body : Nat → List Event} :
    AllOk B (l.flatMap body) ↔ ∀ i ∈ l, AllOk B (body i) := by
  constructor
  · intro h i hi e he
    exact h e (List.mem_flatMap.mpr ⟨i, hi, he⟩)
  · intro h e he
    obtain ⟨i, hi, he⟩ := List.mem_flatMap.mp he
    exact h i hi e he

@[simp] theorem allOk_forEach {n : Nat} {body : Nat → List Event} :
    AllOk B (forEach n body) ↔ ∀ i, i < n → AllOk B (body i) := by
  unfold forEach
  simp only [allOk_flatMap, List.mem_range]

theorem touch_ok {a : Area} {off len : Nat} (h : ((off + len : Nat) : Int) ≤ B a) :
    (Event.touch a off len).Ok B := Or.inr h

theorem floats_ok {a : Area} {i len n : Nat} (h : i + len ≤ n) (hn : ((4 * n : Nat) : Int) ≤ B a) :
    (floats a i len).Ok B := by
  apply touch_ok
  omega

end Lists

/-! ### The kernels -/

section Kernels

variable {B : Area → Int} {nTok n base : Nat} {p : Places}

theorem kernelEvents_ok {codes scales sums : Area × Nat} {elems : Nat}
    (hscratch : ((4 * elems : Nat) : Int) ≤ B .scratch) (hact : (maxIn : Int) ≤ B .actUb)
    (hx : p.xAt + nTok * p.inn ≤ elems) (hy : p.yAt + nTok * p.out ≤ elems) (hinn : p.inn ≤ maxIn)
    (hcodes : ((codes.2 + n * p.inn : Nat) : Int) ≤ B codes.1)
    (hscales : ((scales.2 + 4 * (base + n) : Nat) : Int) ≤ B scales.1)
    (hsums : ((sums.2 + 4 * (base + n) : Nat) : Int) ≤ B sums.1) (hn : base + n ≤ p.out) :
    AllOk B (kernelEvents nTok p codes scales sums base n) := by
  have halign : align p.inn ≤ maxIn := by
    have hle := align_mono hinn
    have hmax : align maxIn = maxIn := by decide
    omega
  unfold kernelEvents
  rw [allOk_forEach]
  intro t ht
  have hrow := Buffer.block_le (w := p.inn) ht
  simp only [allOk_append, allOk_cons, allOk_nil, and_true, allOk_forEach]
  constructor
  · constructor
    · exact floats_ok (by omega) hscratch
    · apply touch_ok
      omega
  · intro j hj
    have hcode := Buffer.block_le (w := p.inn) hj
    have hcell : t * p.out + (base + j) < nTok * p.out := Buffer.cell_lt ht (by omega)
    refine ⟨?_, ?_, ?_, ?_⟩
    · apply touch_ok
      omega
    · apply touch_ok
      omega
    · apply touch_ok
      omega
    · exact floats_ok (by omega) hscratch

theorem sumEvents_ok {codes at0 : Nat} {table : Area}
    (hcodes : ((codes + p.out * p.inn : Nat) : Int) ≤ B .blob)
    (htable : ((at0 + 4 * p.out : Nat) : Int) ≤ B table) : AllOk B (sumEvents codes p table at0) := by
  unfold sumEvents
  rw [allOk_forEach]
  intro j hj
  have hcode := Buffer.block_le (w := p.inn) hj
  simp only [allOk_cons, allOk_nil, and_true]
  constructor
  · apply touch_ok
    omega
  · apply touch_ok
    omega

theorem normEvents_ok {norm w from0 to0 elems : Nat}
    (hscratch : ((4 * elems : Nat) : Int) ≤ B .scratch) (hfrom : from0 + nTok * w ≤ elems)
    (hto : to0 + nTok * w ≤ elems) (hnorm : ((norm + 4 * w : Nat) : Int) ≤ B .blob) :
    AllOk B (normEvents nTok norm w from0 to0) := by
  unfold normEvents
  rw [allOk_forEach]
  intro t ht
  have hrow := Buffer.block_le (w := w) ht
  simp only [allOk_cons, allOk_nil, and_true]
  refine ⟨floats_ok (by omega) hscratch, touch_ok hnorm, floats_ok (by omega) hscratch⟩

theorem headEvents_ok {norm heads headDim at0 elems : Nat}
    (hscratch : ((4 * elems : Nat) : Int) ≤ B .scratch)
    (hat : at0 + nTok * (heads * headDim) ≤ elems)
    (hnorm : ((norm + 4 * headDim : Nat) : Int) ≤ B .blob) :
    AllOk B (headEvents nTok norm heads headDim at0) := by
  unfold headEvents
  simp only [allOk_forEach, allOk_cons, allOk_nil, and_true]
  intro t ht h hh
  have hrow := Buffer.block_le (w := heads * headDim) ht
  have hhead := Buffer.block_le (w := headDim) hh
  exact ⟨floats_ok (by omega) hscratch, touch_ok hnorm⟩

theorem pairEvents_ok {a b elems : Nat} (hscratch : ((4 * elems : Nat) : Int) ≤ B .scratch)
    (ha : a + n ≤ elems) (hb : b + n ≤ elems) : AllOk B (pairEvents a b n) := by
  unfold pairEvents
  simp only [allOk_forEach, allOk_cons, allOk_nil, and_true]
  intro i hi
  exact ⟨floats_ok (by omega) hscratch, floats_ok (by omega) hscratch⟩

end Kernels

/-! ### The layer -/

section Layer

variable {c : Cfg} {nTok L : Nat} {k : Kind}

theorem rpcmemBytes_eq {size : Nat} (h : size < 2 ^ 31) : rpcmemBytes size = size := by
  apply wrap_of_fits
  constructor <;> omega

/-- The areas follow each other, and the scratch buffer ends with the scores. -/
structure CarveEnds (c : Cfg) (nTok : Nat) (w : Carve) : Prop where
  nx : w.nx = nTok * c.nEmbd
  q : w.q = w.nx + nTok * c.nEmbd
  k : w.k = w.q + nTok * c.qd
  v : w.v = w.k + nTok * c.kvd
  ao : w.ao = w.v + nTok * c.kvd
  ap : w.ap = w.ao + nTok * c.qd
  g : w.g = w.ap + nTok * c.nEmbd
  up : w.up = w.g + nTok * c.nFf
  dn : w.dn = w.up + nTok * c.nFf
  sc : w.sc = w.dn + nTok * c.nEmbd
  elems : c.scratchElems nTok = w.sc + nTok

theorem carve_ends (c : Cfg) (nTok : Nat) : CarveEnds c nTok (c.carve nTok) := by
  have helems : c.scratchElems nTok = (c.carve nTok).sc + nTok := by
    simp only [Cfg.scratchElems, Cfg.carve]
    ring
  exact ⟨rfl, rfl, rfl, rfl, rfl, rfl, rfl, rfl, rfl, rfl, helems⟩

/-- A weight block of the blob: its codes, and its scales. -/
theorem block_room (hk : k ∈ attnKinds ∨ k ∈ ffnKinds) :
    c.rows k * c.cols k ≤ align (c.rows k * c.cols k) ∧
      align (c.rows k * c.cols k) + 4 * c.rows k ≤ c.kindBytes k := by
  have hbytes : c.kindBytes k = q8Bytes (c.rows k) (c.cols k) := by
    simp only [attnKinds, ffnKinds, List.mem_cons, List.not_mem_nil, or_false] at hk
    rcases hk with (rfl | rfl | rfl | rfl) | rfl | rfl | rfl <;> rfl
  have hcodes := le_align (c.rows k * c.cols k)
  have hblock := le_align (align (c.rows k * c.cols k) + c.rows k * 4)
  rw [hbytes]
  unfold q8Bytes
  omega

/-- A norm vector of the blob. -/
theorem norm_room (hL : L < c.nLayers) {n : Nat} (hk : c.kindDims k = (n, none)) :
    c.weightOff L k.num + 4 * n ≤ c.blobBytes := by
  have hend := c.weightOff_add_le hL k
  have hbytes : c.kindBytes k = f32Bytes n := by
    unfold Cfg.kindBytes
    rw [hk]
  have hle := le_align (n * 4)
  rw [hbytes] at hend
  unfold f32Bytes at hend
  omega

/-- The buffers are as large as they were meant to be. -/
structure Room (c : Cfg) (nTok : Nat) (B : Area → Int) : Prop where
  scratch : ((4 * c.scratchElems nTok : Nat) : Int) ≤ B .scratch
  blob : (c.blobBytes : Int) ≤ B .blob
  actUb : (maxIn : Int) ≤ B .actUb
  rsum : ∀ out, ((4 * out : Nat) : Int) ≤ B (.rsum out)
  rsumAttn : ((4 * (c.nLayers * c.attnSumStride) : Nat) : Int) ≤ B .rsumAttn
  rsumFfn : ((4 * (c.nLayers * c.ffnSumStride) : Nat) : Int) ≤ B .rsumFfn
  attnReady : (c.nLayers : Int) ≤ B .attnReady
  ffnReady : ((c.nLayers * 3 : Nat) : Int) ≤ B .ffnReady
  vtcm : ((c.attnSetBytes + 2 * tileBytes : Nat) : Int) ≤ B .vtcm

theorem room_of_fits (h : c.Fits nTok) (hscratch : 4 * c.scratchElems nTok < 2 ^ 31) :
    Room c nTok (c.bytesOf nTok) where
  scratch := (rpcmemBytes_eq hscratch).ge
  blob := (rpcmemBytes_eq h.blob).ge
  actUb := le_refl _
  rsum := fun out => by simp [Cfg.bytesOf]
  rsumAttn := by simp [Cfg.bytesOf]
  rsumFfn := by simp [Cfg.bytesOf]
  attnReady := le_refl _
  ffnReady := by simp [Cfg.bytesOf]
  vtcm := by simp [Cfg.bytesOf]

variable {B : Area → Int}

/-- The operands of a matmul of the layer. -/
structure MatmulFits (c : Cfg) (nTok : Nat) (p : Places) (k : Kind) : Prop where
  inn : p.inn = c.cols k
  out : p.out = c.rows k
  small : p.inn ≤ maxIn
  x : p.xAt + nTok * p.inn ≤ c.scratchElems nTok
  y : p.yAt + nTok * p.out ≤ c.scratchElems nTok

theorem ddrEvents_ok (h : Room c nTok B) {p : Places} (hp : MatmulFits c nTok p k)
    (hk : k ∈ attnKinds ∨ k ∈ ffnKinds) (hL : L < c.nLayers) :
    AllOk B (ddrEvents nTok (c.weightOff L k.num) p) := by
  obtain ⟨hcodes, hscales⟩ := block_room (c := c) hk
  have hend := c.weightOff_add_le hL k
  have hblob := h.blob
  have hrsum := h.rsum p.out
  rw [← hp.out, ← hp.inn] at hcodes hscales
  unfold ddrEvents
  rw [allOk_append]
  constructor
  · apply sumEvents_ok
    · omega
    · rw [Nat.zero_add]
      exact hrsum
  · apply kernelEvents_ok h.scratch h.actUb hp.x hp.y hp.small
    · dsimp only
      omega
    · dsimp only [Places.scales]
      omega
    · dsimp only
      omega
    · omega

theorem attnEvents_ok (h : Room c nTok B) {p : Places} (hp : MatmulFits c nTok p k)
    (hk : k ∈ attnKinds) (hL : L < c.nLayers) (vtcm : Bool) :
    AllOk B (attnEvents c nTok L k p vtcm) := by
  unfold attnEvents
  split
  case isFalse => exact ddrEvents_ok h hp (Or.inl hk) hL
  case isTrue =>
    obtain ⟨hcodes, hscales⟩ := block_room (c := c) (Or.inl hk)
    obtain ⟨-, hset⟩ := vtcmOff_place c hk hL
    have hvtcm := h.vtcm
    have htable := h.rsumAttn
    have hsums := attnSum_end c hk
    have hstripe := Buffer.block_le (w := c.attnSumStride) hL
    rw [← hp.out, ← hp.inn] at hcodes hscales
    rw [← hp.out] at hsums
    apply kernelEvents_ok h.scratch h.actUb hp.x hp.y hp.small
    · dsimp only
      omega
    · dsimp only [Places.scales]
      omega
    · dsimp only
      omega
    · omega

theorem loadEvents_ok (h : Room c nTok B) (hL : L < c.nLayers) : AllOk B (loadEvents c L) := by
  have hblob := h.blob
  have hvtcm := h.vtcm
  have hset : c.weightOff L Kind.wq.num + c.attnSetBytes ≤ c.blobBytes := by
    obtain ⟨hplace, -⟩ := vtcmOff_place c (k := .wo) (by simp [attnKinds]) hL
    have hend := c.weightOff_add_le hL .wo
    rw [hplace] at hend
    simp only [Cfg.vtcmOff] at hend
    unfold Cfg.attnSetBytes
    omega
  have hsums : ∀ k ∈ attnKinds, AllOk B (sumEvents (c.weightOff L k.num)
      ⟨c.cols k, c.rows k, 0, 0⟩ .rsumAttn (4 * (L * c.attnSumStride + c.attnSumOff k))) := by
    intro k hk
    obtain ⟨hcodes, hscales⟩ := block_room (c := c) (Or.inl hk)
    have hend := c.weightOff_add_le hL k
    have htable := h.rsumAttn
    have hrow := attnSum_end c hk
    have hstripe := Buffer.block_le (w := c.attnSumStride) hL
    apply sumEvents_ok
    · dsimp only
      omega
    · dsimp only
      omega
  unfold loadEvents
  simp only [allOk_append, allOk_cons, allOk_nil, and_true]
  refine ⟨⟨⟨⟨⟨?_, ?_⟩, ?_⟩, ?_⟩, ?_⟩, ?_⟩
  · apply touch_ok
    omega
  · apply touch_ok
    omega
  · exact hsums .wq (by simp [attnKinds])
  · exact hsums .wk (by simp [attnKinds])
  · exact hsums .wv (by simp [attnKinds])
  · exact hsums .wo (by simp [attnKinds])

/-- The tiles there are begin before the last row. -/
theorem lt_tiles_iff {out r i : Nat} (hr : 0 < r) : i < (out + r - 1) / r ↔ i * r < out := by
  rw [← Nat.succ_le_iff, Nat.le_div_iff_mul_le hr, Nat.succ_mul]
  omega

theorem rowsPerTile_pos {out inn : Nat} (hinn : inn ≤ maxIn) (hpos : 0 < inn) (hout : 0 < out) :
    0 < rowsPerTile out inn := by
  have hfit := fitRows_pos hinn hpos
  unfold rowsPerTile
  split <;> omega

theorem slot_room (out inn i : Nat) :
    tileRows out (rowsPerTile out inn) i * align inn ≤ tileBytes := by
  have hrows : tileRows out (rowsPerTile out inn) i ≤ fitRows inn := by
    have hle := tileRows_le out (rowsPerTile out inn) i
    have hcap : rowsPerTile out inn ≤ fitRows inn := by
      unfold rowsPerTile
      split <;> omega
    exact hle.trans hcap
  calc tileRows out (rowsPerTile out inn) i * align inn
      ≤ fitRows inn * align inn := Nat.mul_le_mul_right _ hrows
    _ ≤ tileBytes / align inn * align inn := by
        apply Nat.mul_le_mul_right
        unfold fitRows
        omega
    _ ≤ tileBytes := Nat.div_mul_le_self _ _

theorem slotOff_le (c : Cfg) (slot : Bool) :
    c.slotOff slot + tileBytes ≤ c.attnSetBytes + 2 * tileBytes := by
  unfold Cfg.slotOff
  split <;> omega

theorem fetchEvents_ok (h : Room c nTok B) {block i : Nat} {p : Places}
    (hend : block + p.out * align p.inn ≤ c.blobBytes)
    (hi : i * rowsPerTile p.out p.inn < p.out) :
    AllOk B (fetchEvents c block p (rowsPerTile p.out p.inn) i) := by
  have hblob := h.blob
  have hvtcm := h.vtcm
  have hrows := tileRows_end hi
  have hslot := slot_room p.out p.inn i
  have hoff := slotOff_le c (slotOf i)
  have hplace := Nat.mul_le_mul_right (align p.inn) hrows
  rw [Nat.add_mul] at hplace
  unfold fetchEvents
  simp only [allOk_cons, allOk_nil, and_true]
  constructor
  · apply touch_ok
    omega
  · apply touch_ok
    omega

theorem tiledEvents_ok (h : Room c nTok B) {p : Places} (hp : MatmulFits c nTok p k)
    (hk : k ∈ ffnKinds) (hL : L < c.nLayers) (hout : 0 < p.out)
    (hend : c.weightOff L k.num + p.out * align p.inn ≤ c.blobBytes) (fetched : Nat) :
    AllOk B (tiledEvents c nTok (c.weightOff L k.num)
      (4 * (L * c.ffnSumStride + c.ffnSumOff k)) p fetched) := by
  have hddr := ddrEvents_ok h hp (Or.inr hk) hL
  unfold tiledEvents
  split
  case isTrue => exact hddr
  case isFalse hsome =>
    have hpos : 0 < p.inn := by
      rcases Nat.eq_zero_or_pos p.inn with hzero | hpos
      · rw [hzero] at hsome
        exact absurd (Or.inl rfl) hsome
      · exact hpos
    have hr := rowsPerTile_pos hp.small hpos hout
    obtain ⟨hcodes, hscales⟩ := block_room (c := c) (Or.inr hk)
    have hblock := c.weightOff_add_le hL k
    have hblob := h.blob
    have hvtcm := h.vtcm
    have htable := h.rsumFfn
    have hsums := ffnSum_end c hk
    have hstripe := Buffer.block_le (w := c.ffnSumStride) hL
    rw [← hp.out, ← hp.inn] at hcodes hscales
    rw [← hp.out] at hsums
    dsimp only
    simp only [allOk_append, allOk_cons, allOk_nil, and_true]
    refine ⟨⟨⟨?_, ?_⟩, ?_⟩, ?_⟩
    · exact Nat.ne_of_gt hr
    · exact fetchEvents_ok h hend (by rw [Nat.zero_mul]; exact hout)
    · rw [allOk_forEach]
      intro i hi
      have hbegin : i * rowsPerTile p.out p.inn < p.out :=
        (lt_tiles_iff hr).mp (hi.trans_le (Nat.min_le_right _ _))
      have hrows := tileRows_end hbegin
      have hslot := slot_room p.out p.inn i
      have hoff := slotOff_le c (slotOf i)
      rw [allOk_append]
      constructor
      · split
        case isTrue hnext => exact fetchEvents_ok h hend ((lt_tiles_iff hr).mp hnext)
        case isFalse => exact allOk_nil
      · have hcode := Nat.mul_le_mul_left (tileRows p.out (rowsPerTile p.out p.inn) i)
          (le_align p.inn)
        apply kernelEvents_ok h.scratch h.actUb hp.x hp.y hp.small
        · dsimp only
          omega
        · dsimp only [Places.scales]
          omega
        · dsimp only
          omega
        · exact hrows
    · split
      case isTrue => exact allOk_nil
      case isFalse =>
        rw [allOk_append]
        constructor
        · split
          case isTrue => exact allOk_nil
          case isFalse =>
            rw [allOk_forEach]
            intro t ht
            rw [allOk_flatMap]
            intro j hj
            obtain ⟨hge, hlt⟩ := List.mem_range'_1.mp hj
            have hcell : t * p.out + j < nTok * p.out := Buffer.cell_lt ht (by omega)
            have hy := hp.y
            simp only [allOk_cons, allOk_nil, and_true]
            exact floats_ok (by omega) h.scratch
        · exact hddr

theorem ffnEvents_ok (h : Room c nTok B) {p : Places} (hp : MatmulFits c nTok p k)
    (hk : k ∈ ffnKinds) (hL : L < c.nLayers) (hout : 0 < p.out)
    (hend : c.weightOff L k.num + p.out * align p.inn ≤ c.blobBytes) (tiles : Option Nat) :
    AllOk B (ffnEvents c nTok L k p tiles) := by
  unfold ffnEvents
  dsimp only
  cases tiles with
  | none => exact ddrEvents_ok h hp (Or.inr hk) hL
  | some fetched =>
      obtain ⟨hcodes, hscales⟩ := block_room (c := c) (Or.inr hk)
      have hblock := c.weightOff_add_le hL k
      have hblob := h.blob
      have htable := h.rsumFfn
      have hready := h.ffnReady
      have hsums := ffnSum_end c hk
      have hstripe := Buffer.block_le (w := c.ffnSumStride) hL
      have hnum : k.ffnNum < 3 := by cases k <;> decide
      rw [← hp.out, ← hp.inn] at hcodes hscales
      rw [← hp.out] at hsums
      simp only [allOk_append, allOk_cons, allOk_nil, and_true]
      refine ⟨⟨?_, ?_⟩, tiledEvents_ok h hp hk hL hout hend fetched⟩
      · apply touch_ok
        omega
      · apply sumEvents_ok
        · omega
        · omega

theorem attentionEvents_ok (h : Room c nTok B) (hkv : c.nHeadKv ≠ 0)
    (hheads : c.nHead = 0 ∨ c.nHeadKv ≤ c.nHead) (L : Nat) :
    AllOk B (attentionEvents c nTok L) := by
  have hscratch := h.scratch
  obtain ⟨_, _, _, _, _, _, _, _, _, _, hend⟩ := carve_ends c nTok
  unfold attentionEvents
  simp only [allOk_forEach, allOk_append, allOk_cons, allOk_nil, and_true, allOk_flatMap]
  intro t ht hd hhd
  have hrow := Buffer.block_le (w := c.qd) ht
  have hhead := Buffer.block_le (w := c.headDim) hhd
  have hgroup : 0 < c.nHead / c.nHeadKv := Nat.div_pos (by omega) (by omega)
  have hkvh : hd / (c.nHead / c.nHeadKv) < c.nHead :=
    lt_of_le_of_lt (Nat.div_le_self _ _) hhd
  have hkvHead := Buffer.block_le (w := c.headDim) hkvh
  have hqd : c.nHead * c.headDim = c.qd := rfl
  have hqdRow : c.qd ≤ nTok * c.qd := Nat.le_mul_of_pos_left _ (by omega)
  refine ⟨⟨⟨Nat.ne_of_gt hgroup, ?_⟩, ?_⟩, ?_⟩
  · exact floats_ok (by omega) hscratch
  · intro s hs
    obtain ⟨hge, hlt⟩ := List.mem_range'_1.mp hs
    have hs' : s < nTok := by omega
    have hkvRow := Buffer.block_le (w := c.kvd) hs'
    refine ⟨?_, ?_, ?_⟩
    · exact floats_ok (by omega) hscratch
    · exact floats_ok (by omega) hscratch
    · exact floats_ok (by omega) hscratch
  · exact floats_ok (by omega) hscratch

theorem attnHalf_ok (h : Room c nTok B) (hkv : c.nHeadKv ≠ 0) (hfit : c.LayersFit nTok)
    (hL : L < c.nLayers) (env : BoundsEnv) : AllOk B (attnHalfEvents c nTok L env) := by
  have hscratch := h.scratch
  have hready := h.attnReady
  obtain ⟨_, _, _, _, _, _, _, _, _, _, hend⟩ := carve_ends c nTok
  have hnorm : ∀ {k : Kind} {n : Nat}, c.kindDims k = (n, none) →
      ((c.weightOff L k.num + 4 * n : Nat) : Int) ≤ B .blob := by
    intro k n hk
    have hroom := norm_room hL hk
    have hblob := h.blob
    omega
  have hmatmul : ∀ k ∈ attnKinds, ∀ out inn xAt yAt, c.rows k = out → c.cols k = inn →
      inn ≤ maxIn → xAt + nTok * inn ≤ c.scratchElems nTok →
      yAt + nTok * out ≤ c.scratchElems nTok →
      AllOk B (attnEvents c nTok L k ⟨c.cols k, c.rows k, xAt, yAt⟩ env.vtcm) := by
    rintro k hk out inn xAt yAt rfl rfl hsmall hx hy
    exact attnEvents_ok h ⟨rfl, rfl, hsmall, hx, hy⟩ hk hL env.vtcm
  have hqd : c.nHead * c.headDim = c.qd := rfl
  have hkvd : c.nHeadKv * c.headDim = c.kvd := rfl
  unfold attnHalfEvents
  dsimp only
  simp only [allOk_append]
  refine ⟨⟨⟨⟨⟨⟨⟨⟨⟨⟨⟨?_, ?_⟩, ?_⟩, ?_⟩, ?_⟩, ?_⟩, ?_⟩, ?_⟩, ?_⟩, ?_⟩, ?_⟩, ?_⟩
  · split
    · rw [allOk_cons]
      constructor
      · apply touch_ok
        omega
      · exact allOk_nil
    · exact allOk_nil
  · split
    · exact loadEvents_ok h hL
    · exact allOk_nil
  · exact normEvents_ok hscratch (by omega) (by omega) (hnorm rfl)
  · exact hmatmul .wq (by simp [attnKinds]) c.qd c.nEmbd _ _ rfl rfl hfit.embd (by omega) (by omega)
  · exact hmatmul .wk (by simp [attnKinds]) c.kvd c.nEmbd _ _ rfl rfl hfit.embd (by omega) (by omega)
  · exact hmatmul .wv (by simp [attnKinds]) c.kvd c.nEmbd _ _ rfl rfl hfit.embd (by omega) (by omega)
  · exact headEvents_ok hscratch (by rw [hqd]; omega) (hnorm rfl)
  · exact headEvents_ok hscratch (by rw [hkvd]; omega) (hnorm rfl)
  · exact attentionEvents_ok h hkv hfit.heads L
  · exact hmatmul .wo (by simp [attnKinds]) c.nEmbd c.qd _ _ rfl rfl hfit.qd (by omega) (by omega)
  · exact normEvents_ok hscratch (by omega) (by omega) (hnorm rfl)
  · exact pairEvents_ok hscratch (by omega) (by omega)

/-- The blob is its layers and the output norm. -/
theorem blobBytes_eq (c : Cfg) : c.blobBytes = c.nLayers * c.layerBytes + f32Bytes c.nEmbd := by
  rw [Cfg.blobBytes, c.weightOff_eq, if_neg (Nat.lt_irrefl _), Nat.add_zero]

theorem ffnHalf_ok (h : Room c nTok B) (hfit : c.LayersFit nTok) (hE : 0 < c.nEmbd)
    (hL : L < c.nLayers) (env : BoundsEnv) : AllOk B (ffnHalfEvents c nTok L env) := by
  have hscratch := h.scratch
  obtain ⟨_, _, _, _, _, _, _, _, _, _, hend⟩ := carve_ends c nTok
  have hnorm : ∀ {k : Kind} {n : Nat}, c.kindDims k = (n, none) →
      ((c.weightOff L k.num + 4 * n : Nat) : Int) ≤ B .blob := by
    intro k n hk
    have hroom := norm_room hL hk
    have hblob := h.blob
    omega
  have hmatmul : ∀ k ∈ ffnKinds, ∀ out inn xAt yAt, c.rows k = out → c.cols k = inn →
      inn ≤ maxIn → 0 < out → xAt + nTok * inn ≤ c.scratchElems nTok →
      yAt + nTok * out ≤ c.scratchElems nTok →
      AllOk B (ffnEvents c nTok L k ⟨c.cols k, c.rows k, xAt, yAt⟩ (env.tiles k)) := by
    rintro k hk out inn xAt yAt rfl rfl hsmall hpos hx hy
    apply ffnEvents_ok h ⟨rfl, rfl, hsmall, hx, hy⟩ hk hL hpos
    have htile := hfit.tiles k hk
    have hlayer := Buffer.block_le (w := c.layerBytes) hL
    rw [c.weightOff_kind hL, blobBytes_eq]
    dsimp only
    omega
  unfold ffnHalfEvents
  dsimp only
  simp only [allOk_append]
  refine ⟨⟨⟨⟨⟨⟨?_, ?_⟩, ?_⟩, ?_⟩, ?_⟩, ?_⟩, ?_⟩
  · exact normEvents_ok hscratch (by omega) (by omega) (hnorm rfl)
  · exact hmatmul .wgate (by simp [ffnKinds]) c.nFf c.nEmbd _ _ rfl rfl hfit.embd hfit.ffPos (by omega)
      (by omega)
  · exact hmatmul .wup (by simp [ffnKinds]) c.nFf c.nEmbd _ _ rfl rfl hfit.embd hfit.ffPos (by omega)
      (by omega)
  · exact pairEvents_ok hscratch (by omega) (by omega)
  · exact hmatmul .wdown (by simp [ffnKinds]) c.nEmbd c.nFf _ _ rfl rfl hfit.ff hE (by omega) (by omega)
  · exact normEvents_ok hscratch (by omega) (by omega) (hnorm rfl)
  · exact pairEvents_ok hscratch (by omega) (by omega)

end Layer

/-! ### The forward -/

section Forward

variable {c : Cfg} {nTok : Nat}

theorem wrap_lt {n : Int} : wrap n < 2 ^ 31 := (fits_wrap n).2

/-- A size that reaches into its buffer nearly to the end is an `int`. -/
theorem size_fits {used size : Nat} (hpos : 0 < rpcmemBytes size)
    (hused : (used : Int) ≤ rpcmemBytes size) (hclose : size < used + 2 ^ 31) : size < 2 ^ 31 := by
  have hlt : rpcmemBytes size < 2 ^ 31 := wrap_lt
  by_contra hbig
  have hwrap : rpcmemBytes size = (size : Int) - 2 ^ 32 := by
    have hmod : wrap (size : Int) = wrap ((size : Int) - 2 ^ 32) := by
      unfold wrap
      rw [Int.bmod_eq_bmod_iff_bmod_sub_eq_zero]
      norm_num
      decide
    rw [rpcmemBytes, hmod]
    apply wrap_of_fits
    constructor <;> omega
  omega

theorem embd_pos (hacc : c.Accepted nTok) : 0 < nTok ∧ 0 < c.nEmbd := by
  have hx := hacc.1
  simp only [Cfg.bytesOf] at hx
  have hpos : 0 < nTok * c.nEmbd := by
    by_contra hnone
    have hzero : nTok * c.nEmbd = 0 := by omega
    rw [hzero] at hx
    exact absurd hx (by decide)
  exact ⟨Nat.pos_of_mul_pos_right hpos, Nat.pos_of_mul_pos_left hpos⟩

/-- A forward that fits stays inside its buffers. -/
theorem forwardEvents_ok (h : c.Fits nTok) (hE : 0 < c.nEmbd) (env : Nat → BoundsEnv) :
    AllOk (c.bytesOf nTok) (forwardEvents c nTok env) := by
  have hfirst : 4 * (nTok * c.nEmbd) ≤ 4 * c.scratchElems nTok := by
    obtain ⟨_, _, _, _, _, _, _, _, _, _, hend⟩ := carve_ends c nTok
    omega
  have hx : ((4 * (nTok * c.nEmbd) : Nat) : Int) ≤ c.bytesOf nTok .x := (rpcmemBytes_eq h.x).ge
  have hresid : ((4 * (nTok * c.nEmbd) : Nat) : Int) ≤ c.bytesOf nTok .scratch := by
    rcases Nat.eq_zero_or_pos c.nLayers with hnone | hsome
    · exact h.noLayers hnone
    · have hroom := room_of_fits h (h.layers (Nat.ne_of_gt hsome)).scratch
      exact (Int.ofNat_le.mpr hfirst).trans hroom.scratch
  have hnorm : ((c.weightOff c.nLayers 0 + 4 * c.nEmbd : Nat) : Int) ≤ c.bytesOf nTok .blob := by
    have hle := le_align (c.nEmbd * 4)
    simp only [Cfg.bytesOf]
    rw [rpcmemBytes_eq h.blob, Cfg.blobBytes, f32Bytes]
    omega
  unfold forwardEvents
  simp only [allOk_append, allOk_cons, allOk_nil, and_true, allOk_forEach]
  refine ⟨⟨⟨⟨h.width, h.headsKv⟩, ?_⟩, ?_⟩, ?_⟩
  · intro i hi
    exact ⟨floats_ok (by omega) hx, floats_ok (by omega) hresid⟩
  · intro L hL
    have hlayers := h.layers (by omega)
    have hroom := room_of_fits h hlayers.scratch
    unfold layerEvents
    rw [allOk_append]
    exact ⟨attnHalf_ok hroom h.headsKv hlayers hL (env L), ffnHalf_ok hroom hlayers hE hL (env L)⟩
  · intro t ht
    have hrow := Buffer.block_le (w := c.nEmbd) ht
    exact ⟨floats_ok (by omega) hresid, touch_ok hnorm, floats_ok (by omega) hx⟩

/-! #### What the bounds demand -/

theorem touch_le {B : Area → Int} {a : Area} {off len : Nat} (h : (Event.touch a off len).Ok B)
    (hlen : len ≠ 0) : ((off + len : Nat) : Int) ≤ B a := h.resolve_left hlen

variable {p : Places}

theorem kernel_row {codes scales sums : Area × Nat} {base n : Nat} (htok : 0 < nTok)
    (h : AllOk (c.bytesOf nTok) (kernelEvents nTok p codes scales sums base n)) :
    p.inn ≤ maxIn := by
  unfold kernelEvents at h
  rw [allOk_forEach] at h
  have hfirst := h 0 htok
  simp only [allOk_append, allOk_cons, allOk_nil, and_true] at hfirst
  have hle := le_align p.inn
  rcases hfirst.1.2 with hnone | hin
  · omega
  · simp only [Cfg.bytesOf] at hin
    omega

theorem ddr_row {block : Nat} (htok : 0 < nTok)
    (h : AllOk (c.bytesOf nTok) (ddrEvents nTok block p)) : p.inn ≤ maxIn :=
  kernel_row htok (allOk_append.mp h).2

/-- Tiles that all arrive, of at least one row. -/
theorem tiled_demands {block sums fetched : Nat} (hinn : p.inn ≤ maxIn) (hpos : 0 < p.inn)
    (hfetched : p.out ≤ fetched)
    (h : AllOk (c.bytesOf nTok) (tiledEvents c nTok block sums p fetched)) :
    0 < p.out ∧ ((block + p.out * align p.inn : Nat) : Int) ≤ c.bytesOf nTok .blob := by
  have halign := le_align p.inn
  have hfit := fitRows_pos hinn hpos
  unfold tiledEvents at h
  rw [if_neg (by omega)] at h
  dsimp only at h
  simp only [allOk_append, allOk_cons, allOk_nil, and_true] at h
  obtain ⟨⟨⟨hdivide, hfirst⟩, hloop⟩, -⟩ := h
  have hr : 0 < rowsPerTile p.out p.inn := Nat.pos_of_ne_zero hdivide
  have hout : 0 < p.out := by
    rcases Nat.eq_zero_or_pos p.out with hzero | hout
    · rw [hzero] at hr
      unfold rowsPerTile at hr
      split at hr <;> omega
    · exact hout
  constructor
  · exact hout
  · -- The last tile is fetched before the loop or while the one before it is computed.
    have hlast : ∃ i, i * rowsPerTile p.out p.inn < p.out ∧
        p.out ≤ i * rowsPerTile p.out p.inn + rowsPerTile p.out p.inn ∧
        AllOk (c.bytesOf nTok) (fetchEvents c block p (rowsPerTile p.out p.inn) i) := by
      have hbelow : ∀ i, i < (p.out + rowsPerTile p.out p.inn - 1) / rowsPerTile p.out p.inn ↔
          i * rowsPerTile p.out p.inn < p.out := fun i => lt_tiles_iff hr
      rw [allOk_forEach] at hloop
      generalize hn : (p.out + rowsPerTile p.out p.inn - 1) / rowsPerTile p.out p.inn = n
        at hbelow hloop
      have hsome : 0 < n := (hbelow 0).mpr (by omega)
      have hcount : n ≤ p.out := by
        by_contra hmany
        have hthere := (hbelow p.out).mp (by omega)
        have := Nat.le_mul_of_pos_right p.out hr
        omega
      have hover := mt (hbelow n).mpr (Nat.lt_irrefl n)
      refine ⟨n - 1, (hbelow (n - 1)).mp (by omega), ?_, ?_⟩
      · rw [← Nat.succ_mul]
        have hsucc : (n - 1).succ = n := by omega
        rw [hsucc]
        omega
      · rcases Nat.lt_or_ge 1 n with hmore | hone
        · have htile := hloop (n - 2) (by omega)
          rw [allOk_append, if_pos (by omega)] at htile
          have hnext : n - 2 + 1 = n - 1 := by omega
          rw [hnext] at htile
          exact htile.1
        · have hzero : n - 1 = 0 := by omega
          rw [hzero]
          exact hfirst
    obtain ⟨i, hbegin, hend, hfetch⟩ := hlast
    have hrows : i * rowsPerTile p.out p.inn + tileRows p.out (rowsPerTile p.out p.inn) i =
        p.out := by
      unfold tileRows
      split <;> omega
    have htouch := hfetch _ List.mem_cons_self
    have hsome : 0 < tileRows p.out (rowsPerTile p.out p.inn) i := by omega
    have hbytes := Nat.mul_pos hsome (hpos.trans_le halign)
    have hin := touch_le htouch (Nat.ne_of_gt hbytes)
    rw [Nat.add_assoc, ← Nat.add_mul, hrows] at hin
    exact hin

variable {L : Nat}

theorem attnHalf_demands (htok : 0 < nTok) {load : Bool} {tiles : Kind → Option Nat}
    (h : AllOk (c.bytesOf nTok) (attnHalfEvents c nTok L ⟨false, load, tiles⟩)) :
    c.nEmbd ≤ maxIn ∧ c.qd ≤ maxIn ∧ (c.nHead = 0 ∨ c.nHeadKv ≤ c.nHead) := by
  unfold attnHalfEvents at h
  dsimp only at h
  simp only [allOk_append] at h
  obtain ⟨⟨⟨⟨⟨⟨⟨⟨⟨⟨⟨-, -⟩, -⟩, hwq⟩, -⟩, -⟩, -⟩, -⟩, hattn⟩, hwo⟩, -⟩, -⟩ := h
  refine ⟨ddr_row htok hwq, ddr_row htok hwo, ?_⟩
  by_contra hheads
  unfold attentionEvents at hattn
  dsimp only at hattn
  rw [allOk_forEach] at hattn
  have hquery := hattn 0 htok
  rw [allOk_forEach] at hquery
  have hhead := hquery 0 (by omega)
  simp only [allOk_append, allOk_cons] at hhead
  exact hhead.1.1.1 (Nat.div_eq_of_lt (by omega))

theorem ffnHalf_demands (htok : 0 < nTok) (hE : 0 < c.nEmbd) {vtcm load : Bool}
    (h : AllOk (c.bytesOf nTok) (ffnHalfEvents c nTok L ⟨vtcm, load, fun _ => none⟩)) :
    c.nFf ≤ maxIn ∧ ((4 * (c.carve nTok).sc : Nat) : Int) ≤ c.bytesOf nTok .scratch := by
  obtain ⟨_, _, _, _, _, _, _, _, _, hsc, -⟩ := carve_ends c nTok
  unfold ffnHalfEvents at h
  dsimp only at h
  simp only [allOk_append] at h
  obtain ⟨⟨⟨⟨⟨⟨-, -⟩, -⟩, -⟩, hdown⟩, hnorm⟩, -⟩ := h
  refine ⟨ddr_row htok hdown, ?_⟩
  unfold normEvents at hnorm
  rw [allOk_forEach] at hnorm
  have hlast := touch_le (hnorm (nTok - 1) (by omega) _ List.mem_cons_self) (by omega)
  have hrows : (nTok - 1) * c.nEmbd + c.nEmbd = nTok * c.nEmbd := by
    rw [← Nat.succ_mul]
    congr 1
    omega
  have hplace : 4 * ((c.carve nTok).dn + (nTok - 1) * c.nEmbd) + 4 * c.nEmbd =
      4 * (c.carve nTok).sc := by omega
  rw [hplace] at hlast
  exact hlast

theorem ffnHalf_tiles (hembd : c.nEmbd ≤ maxIn) (hff : c.nFf ≤ maxIn) (hE : 0 < c.nEmbd)
    {vtcm load : Bool}
    (h : AllOk (c.bytesOf nTok)
      (ffnHalfEvents c nTok L ⟨vtcm, load, fun k => some (c.rows k)⟩)) :
    0 < c.nFf ∧ ∀ k ∈ ffnKinds,
      ((c.weightOff L k.num + c.rows k * align (c.cols k) : Nat) : Int) ≤ c.bytesOf nTok .blob := by
  unfold ffnHalfEvents at h
  dsimp only at h
  simp only [allOk_append] at h
  obtain ⟨⟨⟨⟨⟨⟨-, hgate⟩, hup⟩, -⟩, hdown⟩, -⟩, -⟩ := h
  obtain ⟨hffPos, hgateEnd⟩ := tiled_demands hembd hE (Nat.le_refl _) (allOk_append.mp hgate).2
  obtain ⟨-, hupEnd⟩ := tiled_demands hembd hE (Nat.le_refl _) (allOk_append.mp hup).2
  obtain ⟨-, hdownEnd⟩ := tiled_demands hff hffPos (Nat.le_refl _) (allOk_append.mp hdown).2
  constructor
  · exact hffPos
  · intro k hk
    simp only [ffnKinds, List.mem_cons, List.not_mem_nil, or_false] at hk
    rcases hk with rfl | rfl | rfl
    · exact hgateEnd
    · exact hupEnd
    · exact hdownEnd

theorem layersFit_of_ok (hacc : c.Accepted nTok) (hx : 4 * (nTok * c.nEmbd) < 2 ^ 31)
    (hblob : c.blobBytes < 2 ^ 31) (hsome : c.nLayers ≠ 0)
    (h : ∀ L, L < c.nLayers → ∀ env, AllOk (c.bytesOf nTok) (layerEvents c nTok L env)) :
    c.LayersFit nTok := by
  obtain ⟨htok, hE⟩ := embd_pos hacc
  obtain ⟨_, _, _, _, _, _, _, _, _, _, hend⟩ := carve_ends c nTok
  have hlast : c.nLayers - 1 < c.nLayers := by omega
  have hplain := allOk_append.mp (h _ hlast ⟨false, false, fun _ => none⟩)
  have htiles := allOk_append.mp (h _ hlast ⟨true, true, fun k => some (c.rows k)⟩)
  obtain ⟨hembd, hqd, hheads⟩ := attnHalf_demands htok hplain.1
  obtain ⟨hff, hscratch⟩ := ffnHalf_demands htok hE hplain.2
  obtain ⟨hffPos, hends⟩ := ffnHalf_tiles hembd hff hE htiles.2
  constructor
  · have hpos := hacc.2.1
    have htoks := Nat.le_mul_of_pos_right nTok hE
    simp only [Cfg.bytesOf] at hpos hscratch
    exact size_fits hpos hscratch (by omega)
  · exact hheads
  · exact hembd
  · exact hqd
  · exact hff
  · exact hffPos
  · intro k hk
    have hin := hends k hk
    have hlayers : (c.nLayers - 1) * c.layerBytes + c.layerBytes = c.nLayers * c.layerBytes := by
      rw [← Nat.succ_mul]
      congr 1
      omega
    simp only [Cfg.bytesOf] at hin
    rw [rpcmemBytes_eq hblob, blobBytes_eq, c.weightOff_kind hlast] at hin
    omega

theorem layer_of_forward (env : Nat → BoundsEnv)
    (h : AllOk (c.bytesOf nTok) (forwardEvents c nTok env)) (hL : L < c.nLayers) :
    AllOk (c.bytesOf nTok) (layerEvents c nTok L (env L)) := by
  unfold forwardEvents at h
  simp only [allOk_append, allOk_forEach] at h
  exact h.1.2 L hL

/-- The forward of an accepted call stays inside its buffers, however the caches and the
surroundings behave, exactly when the configuration fits. -/
theorem forward_inBounds_iff (hacc : c.Accepted nTok) :
    (∀ env, AllOk (c.bytesOf nTok) (forwardEvents c nTok env)) ↔ c.Fits nTok := by
  obtain ⟨htok, hE⟩ := embd_pos hacc
  constructor
  · intro h
    have hparts := h fun _ => ⟨false, false, fun _ => none⟩
    unfold forwardEvents at hparts
    simp only [allOk_append, allOk_cons, allOk_nil, and_true, allOk_forEach] at hparts
    obtain ⟨⟨⟨⟨hwidth, hkv⟩, hcopy⟩, -⟩, hout⟩ := hparts
    have hpos := Nat.mul_pos htok hE
    obtain ⟨hxLast, hscratchLast⟩ := hcopy (nTok * c.nEmbd - 1) (by omega)
    have hall : 4 * (nTok * c.nEmbd - 1) + 4 * 1 = 4 * (nTok * c.nEmbd) := by omega
    have hxEnd := touch_le hxLast (by omega)
    have hscratchEnd := touch_le hscratchLast (by omega)
    rw [hall] at hxEnd hscratchEnd
    have hx : 4 * (nTok * c.nEmbd) < 2 ^ 31 := by
      have hpos := hacc.1
      simp only [Cfg.bytesOf] at hpos hxEnd
      exact size_fits hpos hxEnd (by omega)
    have hblob : c.blobBytes < 2 ^ 31 := by
      have hpos := hacc.2.2
      have hnorm := touch_le (hout 0 htok).2.1 (by omega)
      simp only [Cfg.bytesOf] at hpos hnorm
      apply size_fits hpos hnorm
      have hpad := align_lt (c.nEmbd * 4)
      rw [Cfg.blobBytes, f32Bytes]
      omega
    constructor
    · exact hwidth
    · exact hkv
    · exact hx
    · exact hblob
    · exact fun _ => hscratchEnd
    · intro hsome
      apply layersFit_of_ok hacc hx hblob hsome
      intro L hL env
      exact layer_of_forward (fun _ => env) (h _) hL
  · intro h env
    exact forwardEvents_ok h hE env

end Forward

/-- The shape the backend was made for. -/
def gemma1b : Cfg where
  nLayers := 26
  nEmbd := 1152
  nFf := 6912
  headDim := 256
  nHead := 4
  nHeadKv := 1
  slidingWindow := 512

theorem forward_inBounds_gemma1b :
    gemma1b.Accepted 16 ∧
      ((∀ env, AllOk (gemma1b.bytesOf 16) (forwardEvents gemma1b 16 env)) ↔ gemma1b.Fits 16) := by
  have hacc : gemma1b.Accepted 16 := ⟨by decide +kernel, by decide +kernel, by decide +kernel⟩
  exact ⟨hacc, forward_inBounds_iff hacc⟩

/-- Two layers of the widths of a larger model. -/
def wideFf : Cfg where
  nLayers := 2
  nEmbd := 2560
  nFf := 10240
  headDim := 256
  nHead := 8
  nHeadKv := 4
  slidingWindow := 1024

/-- Its feed-forward rows do not fit the activation buffer. -/
theorem activations_overflow :
    wideFf.Accepted 16 ∧
      ¬∀ env, AllOk (wideFf.bytesOf 16) (forwardEvents wideFf 16 env) := by
  constructor
  · exact ⟨by decide, by decide, by decide⟩
  · intro h
    have hlayer := layer_of_forward (L := 0) (fun _ => ⟨false, false, fun _ => none⟩) (h _)
      (by decide)
    have hrow := (ffnHalf_demands (by decide) (by decide) (allOk_append.mp hlayer).2).1
    exact absurd hrow (by decide)

end ShannonPrime.Hexagon
