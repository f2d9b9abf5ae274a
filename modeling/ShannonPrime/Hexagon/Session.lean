import ShannonPrime.Hexagon.Caches
import ShannonPrime.Hexagon.Tiles
import ShannonPrime.Lib.Runs

/-!
The host side of the Hexagon backend. One session is open at a time, known by the pointer
to its model; closing it clears what the skeleton kept. So between two closings all the
calls bring the same blob, and what a call finds was made from it.
-/

namespace ShannonPrime.Hexagon

/-- What the host has in hand of a model: whether the entry point takes it, the integers of
its configuration, the bytes its weights are packed to, and whether they are all in the
arena. -/
structure HexModel where
  accepted : Bool
  cfg : Cfg
  bytes : Nat → Int
  inArena : Bool

/-- `g_hx` and the statics of the skeleton. -/
structure Hex where
  key : Option Nat
  handle : Bool
  blob : Option Blob
  dsp : Dsp

/-- What the surroundings of a forward decide: whether the session opens, and whether a
failing one leaves a handle all the same; whether and where the blob is mapped; whether
the call gets to the skeleton; and what happens there. -/
structure HexEnv where
  openOk : Bool
  openLeaves : Bool
  allocOk : Bool
  base : Nat
  reached : Bool
  layers : Nat → LayerEnv

/-- `gemma3_forward_hexagon` on the model at a pointer, and `sp_hexagon_model_release`. The
pointer of a model that is gone may be another's. -/
inductive HexOp where
  | forward (m : Nat) (model : HexModel) (env : HexEnv)
  | release (m : Nat)

namespace Hex

def init : Hex where
  key := none
  handle := false
  blob := none
  dsp := Dsp.empty

/-- `hx_release`, with `sp_hex_close` where there is a handle. -/
def release (s : Hex) : Hex where
  key := none
  handle := false
  blob := none
  dsp := if s.handle then Dsp.empty else s.dsp

/-- `hx_build`, and whether it succeeds. -/
def build (m : Nat) (model : HexModel) (env : HexEnv) (s : Hex) : Bool × Hex :=
  let s := s.release
  if env.openOk then
    let s := { s with handle := true }
    if env.allocOk then
      let s := { s with blob := some ⟨model.cfg, env.base, model.bytes⟩ }
      if model.inArena then (true, { s with key := some m })
      else (false, s.release)
    else (false, s.release)
  else (false, release { s with handle := env.openLeaves })

/-- `sp_hex_forward`, with the blob that is passed and what is used of the caches. -/
def call (env : HexEnv) (s : Hex) : Hex × Option (Blob × List Use) :=
  match s.blob with
  | some b =>
      if env.reached then
        let (dsp, uses) := forwardUses b env.layers s.dsp
        ({ s with dsp }, some (b, uses))
      else (s, none)
  | none => (s, none)

/-- A host operation, and what its call of the skeleton uses. -/
def exec (s : Hex) : HexOp → Hex × Option (Blob × List Use)
  | .forward m model env =>
      if model.accepted then
        if s.key = some m then s.call env
        else
          match s.build m model env with
          | (true, s) => s.call env
          | (false, s) => (s, none)
      else (s, none)
  | .release m => (if s.key = some m then s.release else s, none)

def step (s : Hex) (op : HexOp) : Hex := (s.exec op).1

end Hex

/-! ### Freshness -/

/-- The row sums and the bytes are those of the blob. -/
structure Use.Fresh (u : Use) (b : Blob) : Prop where
  sums : ∀ vals, u.sums = some vals → ∀ j, j < b.cfg.rows u.kind →
    vals j = rowSum (b.block u.layer u.kind) (b.cfg.cols u.kind) j
  resident : ∀ c ∈ u.resident, ∀ i, i < c.len → c.bytes i = b.bytes (c.src + i)

/-- The entries of the address cache are row sums of the blob that is mapped there. -/
def SumsOf (b : Blob) (sums : Nat → Option SumEntry) : Prop :=
  ∀ i e, sums i = some e → ∃ off, e.key = b.base + off ∧
    ∀ j, j < e.out → e.vals j = rowSum (fun k => b.bytes (off + k)) e.inn j

/-- The VTCM and its tables were filled from the blob. -/
structure VtcmOf (b : Blob) (v : Vtcm) : Prop where
  cfg : v.cfg = b.cfg
  layer : ∀ L, v.cachedLayer = some L → ∀ i, i < b.cfg.attnSetBytes →
    v.bytes i = b.bytes (b.cfg.weightOff L Kind.wq.num + i)
  attn : ∀ L, v.attnReady L = true → ∀ k ∈ attnKinds, ∀ j, j < b.cfg.rows k →
    v.rsumAttn (L * b.cfg.attnSumStride + b.cfg.attnSumOff k + j) =
      rowSum (b.block L k) (b.cfg.cols k) j
  ffn : ∀ L, ∀ k ∈ ffnKinds, v.ffnReady (L * 3 + k.ffnNum) = true → ∀ j, j < b.cfg.rows k →
    v.rsumFfn (L * b.cfg.ffnSumStride + b.cfg.ffnSumOff k + j) =
      rowSum (b.block L k) (b.cfg.cols k) j

/-- All that the skeleton keeps was made from the blob. -/
structure DspOf (b : Blob) (d : Dsp) : Prop where
  sums : SumsOf b d.sums
  vtcm : ∀ v, d.vtcm = some v → VtcmOf b v

/-- So it is, and the VTCM has layer `L`. -/
structure InLayer (b : Blob) (L : Nat) (d : Dsp) : Prop extends DspOf b d where
  layer : ∀ v, d.vtcm = some v → v.cachedLayer = some L

/-- A part of a forward that keeps a property of the caches and uses what is fresh. -/
def Sound (b : Blob) (P : Dsp → Prop) (f : Dsp → Dsp × List Use) : Prop :=
  ∀ d, P d → P (f d).1 ∧ ∀ u ∈ (f d).2, u.Fresh b

theorem dspOf_empty (b : Blob) : DspOf b Dsp.empty where
  sums := by
    intro i e h
    cases h
  vtcm := by
    intro v h
    cases h

section Forward

variable {b : Blob} {L : Nat} {k : Kind}

theorem allUses_sound {α : Type*} {P : Dsp → Prop} {use : α → Dsp → Dsp × List Use} {as : List α}
    (h : ∀ a ∈ as, Sound b P (use a)) : Sound b P (allUses use as) := by
  induction as with
  | nil => exact fun d hd => ⟨hd, fun u hu => absurd hu List.not_mem_nil⟩
  | cons a as ih =>
      intro d hd
      obtain ⟨hd', hfirst⟩ := h a List.mem_cons_self d hd
      obtain ⟨hd'', hrest⟩ := ih (fun a' ha => h a' (List.mem_cons_of_mem _ ha)) _ hd'
      constructor
      · exact hd''
      · intro u hu
        rcases List.mem_append.mp hu with hu | hu
        · exact hfirst u hu
        · exact hrest u hu

/-! #### Row sums by address -/

theorem probe_sound {sums : Nat → Option SumEntry} (h : SumsOf b sums) (malloc : Bool)
    (left step : Nat) :
    SumsOf b (probe sums (b.ptr L k) (b.cfg.rows k) (b.cfg.cols k) (b.block L k) malloc left
        step).2 ∧
      ∀ vals, (probe sums (b.ptr L k) (b.cfg.rows k) (b.cfg.cols k) (b.block L k) malloc left
          step).1 = some vals →
        ∀ j, j < b.cfg.rows k → vals j = rowSum (b.block L k) (b.cfg.cols k) j := by
  induction left generalizing step with
  | zero =>
      constructor
      · exact h
      · intro vals hvals
        cases hvals
  | succ left ih =>
      unfold probe
      dsimp only
      split
      case h_1 e he =>
        split
        case isTrue hhit =>
          obtain ⟨hkey, hout, hinn⟩ := hhit
          constructor
          · exact h
          · intro vals hvals j hj
            obtain rfl : e.vals = vals := Option.some.inj hvals
            obtain ⟨off, hoff, hsum⟩ := h _ e he
            -- The key is the address of this very block.
            obtain rfl : b.cfg.weightOff L k.num = off := by
              unfold Blob.ptr at hkey
              omega
            rw [hsum j (hout ▸ hj), hinn]
            rfl
        case isFalse => exact ih (step + 1)
      case h_2 =>
        split
        case isTrue =>
          constructor
          · intro i e he
            dsimp only at he
            by_cases hi : i = (ptrHash (b.ptr L k) + step) % rsumCacheCap
            · rw [hi, Function.update_self] at he
              obtain rfl := Option.some.inj he
              exact ⟨_, rfl, fun j _ => rfl⟩
            · rw [Function.update_of_ne hi] at he
              exact h i e he
          · intro vals hvals j _
            obtain rfl := Option.some.inj hvals
            rfl
        case isFalse =>
          constructor
          · exact h
          · intro vals hvals
            cases hvals

theorem rsumGet_sound {d : Dsp} (h : DspOf b d) (malloc : Bool) :
    DspOf b (rsumGet b L k malloc d).2 ∧
      ∀ vals, (rsumGet b L k malloc d).1 = some vals →
        ∀ j, j < b.cfg.rows k → vals j = rowSum (b.block L k) (b.cfg.cols k) j := by
  obtain ⟨hsums, hvals⟩ := probe_sound (L := L) (k := k) h.sums malloc rsumCacheCap 0
  exact ⟨⟨hsums, h.vtcm⟩, hvals⟩

/-- A matmul that reads the blob needs its row sums only. -/
theorem fresh_ddr {sums : Option (Nat → Int)}
    (h : ∀ vals, sums = some vals → ∀ j, j < b.cfg.rows k →
      vals j = rowSum (b.block L k) (b.cfg.cols k) j) : Use.Fresh ⟨L, k, sums, []⟩ b where
  sums := h
  resident := fun _ hc => absurd hc List.not_mem_nil

theorem ddrUse_fresh {d : Dsp} (hd : DspOf b d) (env : MatmulEnv) :
    DspOf b (ddrUse b env L k d).1 ∧ ∀ u ∈ (ddrUse b env L k d).2, u.Fresh b := by
  have hget := rsumGet_sound (L := L) (k := k) hd env.malloc
  unfold ddrUse
  generalize rsumGet b L k env.malloc d = r at hget ⊢
  obtain ⟨vals, d'⟩ := r
  obtain ⟨hd', hvals⟩ := hget
  dsimp only at hd' hvals ⊢
  cases vals with
  | some vals =>
      constructor
      · exact hd'
      · intro u hu
        rw [List.mem_singleton.mp hu]
        exact fresh_ddr hvals
  | none =>
      dsimp only
      split
      · obtain ⟨hd'', hvals'⟩ := rsumGet_sound (L := L) (k := k) hd' env.mallocAgain
        constructor
        · exact hd''
        · intro u hu
          rw [List.mem_singleton.mp hu]
          exact fresh_ddr hvals'
      · constructor
        · exact hd'
        · intro u hu
          rw [List.mem_singleton.mp hu]
          exact fresh_ddr hvals

theorem ddrUse_vtcm (env : MatmulEnv) (d : Dsp) : (ddrUse b env L k d).1.vtcm = d.vtcm := by
  unfold ddrUse
  dsimp only
  split
  · rfl
  · split <;> rfl

theorem ddrUse_sound (env : MatmulEnv) : Sound b (InLayer b L) (ddrUse b env L k) := by
  intro d hd
  obtain ⟨hd', hfresh⟩ := ddrUse_fresh (L := L) (k := k) hd.toDspOf env
  constructor
  · constructor
    · exact hd'
    · rw [ddrUse_vtcm]
      exact hd.layer
  · exact hfresh

/-! #### The attention weights -/

/-- The four stores of a layer stay in its stripe of the table. -/
theorem attnTable_outside (b : Blob) (L row : Nat) (table : Nat → Int) {a : Nat}
    (ha : a < row ∨ row + b.cfg.attnSumStride ≤ a) :
    storeSums b L .wo (row + b.cfg.attnSumOff .wo)
      (storeSums b L .wv (row + b.cfg.attnSumOff .wv)
        (storeSums b L .wk (row + b.cfg.attnSumOff .wk)
          (storeSums b L .wq (row + b.cfg.attnSumOff .wq) table))) a = table a := by
  unfold Cfg.attnSumStride at ha
  have hwq : b.cfg.rows .wq = b.cfg.qd := rfl
  have hwk : b.cfg.rows .wk = b.cfg.kvd := rfl
  have hwv : b.cfg.rows .wv = b.cfg.kvd := rfl
  have hwo : b.cfg.rows .wo = b.cfg.nEmbd := rfl
  simp only [storeSums, Cfg.attnSumOff]
  rw [Buffer.store_outside (by omega), Buffer.store_outside (by omega),
    Buffer.store_outside (by omega), Buffer.store_outside (by omega)]

/-- Every kind has its own part of the stripe. -/
theorem attnTable_inside (b : Blob) (L row : Nat) (table : Nat → Int) (hk : k ∈ attnKinds) {j : Nat}
    (hj : j < b.cfg.rows k) :
    storeSums b L .wo (row + b.cfg.attnSumOff .wo)
      (storeSums b L .wv (row + b.cfg.attnSumOff .wv)
        (storeSums b L .wk (row + b.cfg.attnSumOff .wk)
          (storeSums b L .wq (row + b.cfg.attnSumOff .wq) table))) (row + b.cfg.attnSumOff k + j) =
      rowSum (b.block L k) (b.cfg.cols k) j := by
  have hwq : b.cfg.rows .wq = b.cfg.qd := rfl
  have hwk : b.cfg.rows .wk = b.cfg.kvd := rfl
  have hwv : b.cfg.rows .wv = b.cfg.kvd := rfl
  have hwo : b.cfg.rows .wo = b.cfg.nEmbd := rfl
  simp only [attnKinds, List.mem_cons, List.not_mem_nil, or_false] at hk
  rcases hk with rfl | rfl | rfl | rfl
  · simp only [storeSums, Cfg.attnSumOff]
    rw [Buffer.store_outside (by omega), Buffer.store_outside (by omega),
      Buffer.store_outside (by omega)]
    exact Buffer.store_inside hj
  · simp only [storeSums, Cfg.attnSumOff]
    rw [Buffer.store_outside (by omega), Buffer.store_outside (by omega)]
    exact Buffer.store_inside hj
  · simp only [storeSums, Cfg.attnSumOff]
    rw [Buffer.store_outside (by omega)]
    exact Buffer.store_inside hj
  · exact Buffer.store_inside hj

/-- A place in one stripe is in no other. -/
theorem stripe_disjoint {L L' i n : Nat} (hne : L' ≠ L) (hi : i < n) :
    L' * n + i < L * n ∨ L * n + n ≤ L' * n + i := by
  rcases Nat.lt_or_gt_of_ne hne with h | h
  · have := Buffer.block_le (w := n) h
    exact Or.inl (by omega)
  · have := Buffer.block_le (w := n) h
    exact Or.inr (by omega)

theorem vtcmInit_of {env : LayerEnv} {v : Vtcm} (h : vtcmInit b.cfg env = some v) : VtcmOf b v := by
  unfold vtcmInit at h
  split at h
  · obtain rfl := Option.some.inj h
    constructor
    · rfl
    · intro L hL
      cases hL
    · intro L hL
      cases hL
    · intro L k _ hL
      cases hL
  · cases h

theorem load_of {v : Vtcm} (h : VtcmOf b v) (L : Nat) : VtcmOf b (v.load b L) := by
  have hbytes : ∀ L', some L = some L' → ∀ i, i < b.cfg.attnSetBytes →
      Buffer.store v.bytes 0 v.cfg.attnSetBytes
        (fun i => b.bytes (b.cfg.weightOff L Kind.wq.num + i)) i =
      b.bytes (b.cfg.weightOff L' Kind.wq.num + i) := by
    intro L' hL i hi
    obtain rfl := Option.some.inj hL
    rw [h.cfg]
    have hin : Buffer.store v.bytes 0 b.cfg.attnSetBytes
        (fun i => b.bytes (b.cfg.weightOff L Kind.wq.num + i)) (0 + i) =
          b.bytes (b.cfg.weightOff L Kind.wq.num + i) := Buffer.store_inside hi
    rw [Nat.zero_add] at hin
    exact hin
  unfold Vtcm.load
  split
  case isTrue => exact h
  case isFalse =>
    dsimp only
    split
    case isFalse => exact ⟨h.cfg, hbytes, h.attn, h.ffn⟩
    case isTrue =>
      constructor
      · exact h.cfg
      · exact hbytes
      · intro L' hready k hk j hj
        dsimp only at hready ⊢
        rw [h.cfg]
        by_cases hL : L' = L
        · subst hL
          exact attnTable_inside b L' _ _ hk hj
        · rw [Function.update_of_ne hL] at hready
          rw [attnTable_outside b L, h.attn L' hready k hk j hj]
          rw [Nat.add_assoc]
          have hend := attnSum_end b.cfg hk
          exact stripe_disjoint hL (by omega)
      · exact h.ffn

theorem ensureLayer_of {d : Dsp} (h : DspOf b d) (env : LayerEnv) (L : Nat) :
    DspOf b (ensureLayer b env L d) := by
  unfold ensureLayer
  split
  case h_1 v hv =>
    constructor
    · exact h.sums
    · intro v' hv'
      obtain rfl := Option.some.inj hv'
      exact load_of (h.vtcm v hv) L
  case h_2 =>
    constructor
    · exact h.sums
    · intro v' hv'
      obtain ⟨v, hv, rfl⟩ := Option.map_eq_some_iff.mp hv'
      exact load_of (vtcmInit_of hv) L

/-- The layer is in the VTCM whichever way it got there. -/
theorem ensureLayer_layer (env : LayerEnv) (L : Nat) (d : Dsp) :
    ∀ v, (ensureLayer b env L d).vtcm = some v → v.cachedLayer = some L := by
  have hload : ∀ v : Vtcm, (v.load b L).cachedLayer = some L := by
    intro v
    unfold Vtcm.load
    split
    case isTrue h => exact h
    case isFalse =>
      dsimp only
      split <;> rfl
  intro v' hv'
  unfold ensureLayer at hv'
  split at hv'
  case h_1 v _ =>
    obtain rfl := Option.some.inj hv'
    exact hload v
  case h_2 =>
    obtain ⟨v, -, rfl⟩ := Option.map_eq_some_iff.mp hv'
    exact hload v

theorem attnUse_sound (env : MatmulEnv) (hk : k ∈ attnKinds) (hL : L < b.cfg.nLayers) :
    Sound b (InLayer b L) (attnUse b env L k) := by
  intro d hd
  unfold attnUse
  split
  case h_1 => exact ddrUse_sound env d hd
  case h_2 v hv =>
    have hof := hd.vtcm v hv
    split
    case h_1 => exact ddrUse_sound env d hd
    case h_2 vals hvals =>
      constructor
      · exact hd
      · intro u hu
        rw [List.mem_singleton.mp hu]
        unfold Vtcm.sumsFor at hvals
        split at hvals
        case isTrue hready =>
          obtain rfl := Option.some.inj hvals
          constructor
          · intro vals' hvals' j hj
            obtain rfl := Option.some.inj hvals'
            dsimp only
            rw [hof.cfg]
            exact hof.attn L hready.2 k hk j hj
          · intro c hc i hi
            rw [List.mem_singleton.mp hc] at hi ⊢
            obtain ⟨hplace, hwithin⟩ := vtcmOff_place b.cfg hk hL
            dsimp only [Vtcm.copy] at hi ⊢
            rw [hof.cfg, hof.layer L (hd.layer v hv) _ (by omega), hplace, Nat.add_assoc]
        case isFalse => cases hvals

/-! #### The feed-forward weights -/

/-- Two kinds of a layer share no place of the table. -/
theorem ffnSumOff_disjoint (c : Cfg) {k' : Kind} (hk : k ∈ ffnKinds) (hk' : k' ∈ ffnKinds)
    (hne : k' ≠ k) {j : Nat} (hj : j < c.rows k') :
    c.ffnSumOff k' + j < c.ffnSumOff k ∨ c.ffnSumOff k + c.rows k ≤ c.ffnSumOff k' + j := by
  simp only [ffnKinds, List.mem_cons, List.not_mem_nil, or_false] at hk hk'
  rcases hk with rfl | rfl | rfl <;> rcases hk' with rfl | rfl | rfl <;>
    first
    | exact absurd rfl hne
    | simp only [Cfg.rows, Cfg.kindDims] at hj
      simp only [Cfg.ffnSumOff, Cfg.rows, Cfg.kindDims]
      omega

theorem ffnNum_inj {k' : Kind} (hk : k ∈ ffnKinds) (hk' : k' ∈ ffnKinds) {L' : Nat}
    (h : L' * 3 + k'.ffnNum = L * 3 + k.ffnNum) : L' = L ∧ k' = k := by
  simp only [ffnKinds, List.mem_cons, List.not_mem_nil, or_false] at hk hk'
  rcases hk with rfl | rfl | rfl <;> rcases hk' with rfl | rfl | rfl <;>
    simp only [Kind.ffnNum] at h <;>
    first
    | exact ⟨by omega, rfl⟩
    | omega

theorem ffnSums_of {v : Vtcm} (h : VtcmOf b v) (hk : k ∈ ffnKinds) : VtcmOf b (v.ffnSums b L k) := by
  unfold Vtcm.ffnSums
  split
  case isTrue => exact h
  case isFalse =>
    constructor
    · exact h.cfg
    · exact h.layer
    · exact h.attn
    · intro L' k' hk' hready j hj
      dsimp only at hready ⊢
      rw [h.cfg]
      by_cases hsame : L' * 3 + k'.ffnNum = L * 3 + k.ffnNum
      · obtain ⟨rfl, rfl⟩ := ffnNum_inj hk hk' hsame
        exact Buffer.store_inside hj
      · rw [Function.update_of_ne hsame] at hready
        rw [← h.ffn L' k' hk' hready j hj]
        apply Buffer.store_outside
        rcases eq_or_ne L' L with rfl | hL
        · have hkind : k' ≠ k := fun heq => hsame (by rw [heq])
          rcases ffnSumOff_disjoint b.cfg hk hk' hkind hj with hlt | hle
          · exact Or.inl (by omega)
          · exact Or.inr (by omega)
        · have hend := ffnSum_end b.cfg hk
          have hend' := ffnSum_end b.cfg hk'
          have hin : b.cfg.ffnSumOff k' + j < b.cfg.ffnSumStride := by omega
          rcases stripe_disjoint hL hin with hlt | hle
          · exact Or.inl (by omega)
          · exact Or.inr (by omega)

/-- A tile is in its slot when it is computed with. -/
theorem tileCopies_fresh (codes : Nat → Int) (at0 out inn r : Nat) (dmaError : Nat → Bool)
    {left i : Nat} {slots : Slots} (hslot : Fetched codes out inn r slots i) :
    ∀ c ∈ (tileCopies codes at0 out inn r dmaError left i slots).2.2, ∀ x, x < c.len →
      ∃ off, c.src = at0 + off ∧ c.bytes x = codes (off + x) := by
  induction left generalizing i slots with
  | zero => exact fun c hc => absurd hc List.not_mem_nil
  | succ left ih =>
      obtain ⟨hnow, hthen⟩ := nextSlots_fetched hslot left
      intro c hc x hx
      unfold tileCopies at hc
      dsimp only at hc
      split at hc
      case isTrue =>
        obtain rfl := List.mem_singleton.mp hc
        exact ⟨_, rfl, hnow x hx⟩
      case isFalse =>
        rcases List.mem_cons.mp hc with rfl | hrest
        · exact ⟨_, rfl, hnow x hx⟩
        · cases left with
          | zero => exact absurd hrest List.not_mem_nil
          | succ left => exact ih (hthen (Nat.succ_pos _)) c hrest x hx

theorem tiledCopies_fresh (env : MatmulEnv) (slots : Slots) :
    ∀ c ∈ (tiledCopies b env L k slots).2.2, ∀ x, x < c.len →
      c.bytes x = b.bytes (c.src + x) := by
  intro c hc x hx
  unfold tiledCopies at hc
  dsimp only at hc
  split at hc
  case isFalse => exact absurd hc List.not_mem_nil
  case isTrue =>
    split at hc
    case isTrue => exact absurd hc List.not_mem_nil
    case isFalse =>
      have hstart := prefetch_fetched (b.block L k) (b.cfg.rows k) (b.cfg.cols k)
        (rowsPerTile (b.cfg.rows k) (b.cfg.cols k)) slots 0
      rw [Nat.zero_mul, Nat.zero_mul] at hstart
      obtain ⟨off, hsrc, hbyte⟩ := tileCopies_fresh _ _ _ _ _ _ hstart c hc x hx
      rw [hbyte, hsrc, Nat.add_assoc]
      rfl

theorem ffnUse_sound (env : MatmulEnv) (hk : k ∈ ffnKinds) :
    Sound b (InLayer b L) (ffnUse b env L k) := by
  intro d hd
  unfold ffnUse
  split
  case h_1 => exact ddrUse_sound env d hd
  case h_2 v hv =>
    split
    case isFalse => exact ddrUse_sound env d hd
    case isTrue =>
      have hof := ffnSums_of (L := L) (hd.vtcm v hv) hk
      have hready : (v.ffnSums b L k).ffnReady (L * 3 + k.ffnNum) = true := by
        unfold Vtcm.ffnSums
        split
        case isTrue h => exact h
        case isFalse => exact Function.update_self ..
      have hcached : (v.ffnSums b L k).cachedLayer = some L := by
        have hlayer := hd.layer v hv
        unfold Vtcm.ffnSums
        split <;> exact hlayer
      have hcopies := tiledCopies_fresh (b := b) (L := L) (k := k) env (v.ffnSums b L k).slots
      generalize v.ffnSums b L k = v' at hof hready hcached hcopies ⊢
      dsimp only
      generalize tiledCopies b env L k v'.slots = tiles at hcopies ⊢
      obtain ⟨ok, slots, copies⟩ := tiles
      dsimp only at hcopies ⊢
      have hnext : InLayer b L { d with vtcm := some { v' with slots := slots } } := by
        constructor
        · constructor
          · exact hd.sums
          · intro v'' hv''
            obtain rfl := Option.some.inj hv''
            exact ⟨hof.cfg, hof.layer, hof.attn, hof.ffn⟩
        · intro v'' hv''
          obtain rfl := Option.some.inj hv''
          exact hcached
      have huse : Use.Fresh ⟨L, k, some fun j =>
          v'.rsumFfn (L * v'.cfg.ffnSumStride + v'.cfg.ffnSumOff k + j), copies⟩ b := by
        constructor
        · intro vals hvals j hj
          obtain rfl := Option.some.inj hvals
          dsimp only
          rw [hof.cfg]
          exact hof.ffn L k hk hready j hj
        · exact hcopies
      split
      · constructor
        · exact hnext
        · intro u hu
          rw [List.mem_singleton.mp hu]
          exact huse
      · obtain ⟨hddr, hfresh⟩ := ddrUse_sound (k := k) env _ hnext
        constructor
        · exact hddr
        · intro u hu
          rcases List.mem_cons.mp hu with rfl | hu
          · exact huse
          · exact hfresh u hu

/-! #### The forward -/

theorem layerUses_sound (env : LayerEnv) (hL : L < b.cfg.nLayers) :
    Sound b (DspOf b) (layerUses b env L) := by
  intro d hd
  have hlayer : InLayer b L (ensureLayer b env L d) :=
    ⟨ensureLayer_of hd env L, ensureLayer_layer env L d⟩
  have hattn : Sound b (InLayer b L) (allUses (fun k => attnUse b (env.matmul k) L k) attnKinds) :=
    allUses_sound fun k hk => attnUse_sound (env.matmul k) hk hL
  have hffn : Sound b (InLayer b L) (allUses (fun k => ffnUse b (env.matmul k) L k) ffnKinds) :=
    allUses_sound fun k hk => ffnUse_sound (env.matmul k) hk
  obtain ⟨hd', hfresh⟩ := hattn _ hlayer
  obtain ⟨hd'', hfresh'⟩ := hffn _ hd'
  constructor
  · exact hd''.toDspOf
  · intro u hu
    rcases List.mem_append.mp hu with hu | hu
    · exact hfresh u hu
    · exact hfresh' u hu

theorem forwardUses_sound (env : Nat → LayerEnv) : Sound b (DspOf b) (forwardUses b env) := by
  apply allUses_sound
  intro L hL
  exact layerUses_sound (env L) (List.mem_range.mp hL)

end Forward

/-! ### The host -/

namespace Hex

/-- Without a session the skeleton keeps nothing, and in one only what was made from its
blob. -/
structure Inv (s : Hex) : Prop where
  closed : s.handle = false → s.dsp = Dsp.empty
  opened : ∀ b, s.blob = some b → s.handle = true
  blob : ∀ b, s.blob = some b → DspOf b s.dsp

theorem release_inv {s : Hex} (h : s.Inv) : s.release.Inv ∧ s.release.dsp = Dsp.empty := by
  have hempty : s.release.dsp = Dsp.empty := by
    unfold release
    dsimp only
    split
    case isTrue => rfl
    case isFalse hclosed => exact h.closed (by simpa using hclosed)
  constructor
  · constructor
    · exact fun _ => hempty
    · intro b hb
      cases hb
    · intro b hb
      cases hb
  · exact hempty

theorem build_inv {s : Hex} (h : s.Inv) (m : Nat) (model : HexModel) (env : HexEnv) :
    (s.build m model env).2.Inv := by
  obtain ⟨-, hempty⟩ := release_inv h
  have hopen : ∀ key handle blob, (∀ b, blob = some b → handle = true) →
      Inv ⟨key, handle, blob, s.release.dsp⟩ := by
    intro key handle blob hblob
    constructor
    · exact fun _ => hempty
    · exact hblob
    · intro b _
      rw [hempty]
      exact dspOf_empty b
  unfold build
  dsimp only
  split
  · split
    · split
      · exact hopen _ _ _ fun _ _ => rfl
      · exact (release_inv (hopen _ _ _ fun _ _ => rfl)).1
    · exact (release_inv (hopen _ _ _ fun _ _ => rfl)).1
  · exact (release_inv (hopen none env.openLeaves none fun _ hb => nomatch hb)).1

/-- What a call uses is fresh. -/
theorem call_sound {s : Hex} (h : s.Inv) (env : HexEnv) :
    (s.call env).1.Inv ∧
      ∀ b uses, (s.call env).2 = some (b, uses) → s.blob = some b ∧ ∀ u ∈ uses, u.Fresh b := by
  unfold call
  split
  case h_1 b hb =>
    split
    case isTrue =>
      obtain ⟨hd, hfresh⟩ := forwardUses_sound env.layers s.dsp (h.blob b hb)
      constructor
      · constructor
        · intro hclosed
          rw [h.opened b hb] at hclosed
          cases hclosed
        · exact h.opened
        · intro b' hb'
          obtain rfl : b = b' := Option.some.inj (hb.symm.trans hb')
          exact hd
      · intro b' uses heq
        obtain ⟨rfl, rfl⟩ := Prod.mk.inj (Option.some.inj heq)
        exact ⟨hb, hfresh⟩
    case isFalse => exact ⟨h, fun b uses heq => nomatch heq⟩
  case h_2 => exact ⟨h, fun b uses heq => nomatch heq⟩

theorem exec_sound {s : Hex} (h : s.Inv) (op : HexOp) :
    (s.exec op).1.Inv ∧
      ∀ b uses, (s.exec op).2 = some (b, uses) → ∀ u ∈ uses, u.Fresh b := by
  have hcall : ∀ {s : Hex}, s.Inv → ∀ env, (s.call env).1.Inv ∧
      ∀ b uses, (s.call env).2 = some (b, uses) → ∀ u ∈ uses, u.Fresh b := by
    intro s h env
    obtain ⟨hinv, hfresh⟩ := call_sound h env
    exact ⟨hinv, fun b uses heq => (hfresh b uses heq).2⟩
  cases op with
  | forward m model env =>
      unfold exec
      dsimp only
      split
      case isFalse => exact ⟨h, fun b uses heq => nomatch heq⟩
      case isTrue =>
        split
        case isTrue => exact hcall h env
        case isFalse =>
          have hbuild := build_inv h m model env
          split
          case h_1 s' hs' =>
            rw [hs'] at hbuild
            exact hcall hbuild env
          case h_2 s' hs' =>
            rw [hs'] at hbuild
            exact ⟨hbuild, fun b uses heq => nomatch heq⟩
  | release m =>
      constructor
      · unfold exec
        dsimp only
        split
        · exact (release_inv h).1
        · exact h
      · exact fun b uses heq => nomatch heq

/-- The uses of the call that an operation makes are fresh: row sums and bytes in the VTCM
were made from the blob that the call was given. -/
def FreshStep (s : Hex) (op : HexOp) : Prop :=
  ∀ b uses, (s.exec op).2 = some (b, uses) → ∀ u ∈ uses, u.Fresh b

theorem init_inv : init.Inv where
  closed := fun _ => rfl
  opened := fun _ hb => nomatch hb
  blob := fun _ hb => nomatch hb

end Hex

end ShannonPrime.Hexagon
