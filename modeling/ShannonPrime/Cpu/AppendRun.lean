import ShannonPrime.Cpu.Append

/-!
Runs of `qwen3_mtp_forward` over consecutive batches. Before each call every slot from
the current position on may hold anything: a rejected draft leaves its rows behind.
-/

namespace ShannonPrime.Cpu

open Buffer

variable {F : Type*}

/-- One call of a run: its batch, what its allocations contain, the logits buffer it is
given and what lies in the cache beyond the current position. -/
structure Call (F : Type*) where
  batch : List Int
  work : Work F
  logits : Nat → F
  staleK : Nat → F
  staleV : Nat → F

namespace Model

variable (m : Model F)

/-- The cache with its slots from position `n` on replaced. Cell `a` belongs to row
`a / KVD`, the position is the row within its layer. -/
def overlay (cap n : Nat) (stale b : Nat → F) : Nat → F :=
  fun a => if a / m.kvd % cap < n then b a else stale a

/-- The logits rows of the calls, one batch after the other from position `base` on;
`none` when a call returns nonzero. -/
def appendRun (cap : Nat) : Nat → (Nat → F) → (Nat → F) → List (Call F) → Option (List (List F))
  | _, _, _, [] => some []
  | base, kc, vc, call :: rest =>
      (m.mtpForward call.batch base call.work (m.overlay cap base call.staleK kc)
          (m.overlay cap base call.staleV vc) cap call.logits).bind fun (kc, vc, logits) =>
        (appendRun cap (base + call.batch.length) kc vc rest).map fun later =>
          m.logitsRows call.batch.length logits ++ later

variable {m} {cap base : Nat} {e : Nat → Nat → F} {kc vc : Nat → F}

/-- An address of the rows below `n` of a layer is one of a position below `n`. -/
theorem overlay_eq {L n a : Nat} {stale b : Nat → F} (hn : n ≤ cap)
    (hlo : L * cap * m.kvd ≤ a) (hhi : a < L * cap * m.kvd + n * m.kvd) :
    m.overlay cap n stale b a = b a := by
  have hkvd : 0 < m.kvd := by
    apply Nat.pos_of_ne_zero
    intro hzero
    rw [hzero] at hhi
    omega
  obtain ⟨i, rfl⟩ := Nat.exists_eq_add_of_le hlo
  have hi : i / m.kvd < n := by
    rw [Nat.div_lt_iff_lt_mul hkvd]
    omega
  have hrow : (L * cap * m.kvd + i) / m.kvd = L * cap + i / m.kvd := by
    rw [Nat.mul_comm, Nat.mul_add_div hkvd]
  have hpos : (L * cap + i / m.kvd) % cap = i / m.kvd := index_mod (by omega)
  unfold overlay
  rw [hrow, hpos, if_pos hi]

/-- Stale slots beyond the current position do not matter to what is cached. -/
theorem Cached.overlay (h : Cached m cap e base kc vc) (staleK staleV : Nat → F)
    (hbase : base ≤ cap) :
    Cached m cap e base (m.overlay cap base staleK kc) (m.overlay cap base staleV vc) := by
  intro L hL
  apply (h L hL).congr
  · intro a hlo hhi
    exact overlay_eq hbase hlo hhi
  · intro a hlo hhi
    exact overlay_eq hbase hlo hhi

/-- The rows of one layer are apart from those of another. -/
theorem mtpLayer_other {nb l L a : Nat} {w : Work F} (hcap : base + nb ≤ cap) (hne : L ≠ l)
    (hlo : L * cap * m.kvd ≤ a) (hhi : a < L * cap * m.kvd + cap * m.kvd) :
    (m.mtpLayer cap base nb l (w, kc, vc)).2.1 a = kc a ∧
      (m.mtpLayer cap base nb l (w, kc, vc)).2.2 a = vc a := by
  have hrow : (base + nb) * m.kvd ≤ cap * m.kvd := Nat.mul_le_mul_right _ hcap
  apply mtpLayer_outside
  rcases Nat.lt_or_gt_of_ne hne with hlt | hgt
  · have hbelow : L * cap * m.kvd + cap * m.kvd ≤ l * cap * m.kvd := by
      rw [← Nat.add_mul]
      exact Nat.mul_le_mul_right _ (block_le hlt)
    omega
  · have habove : l * cap * m.kvd + cap * m.kvd ≤ L * cap * m.kvd := by
      rw [← Nat.add_mul]
      exact Nat.mul_le_mul_right _ (block_le hgt)
    omega

/-- After `l` layers of a call: the batch's rows are those of layer `l`, and the cache has
the new positions in the layers below `l` and the old ones in the others. -/
theorem mtpLayers_rows {nb : Nat} {w : Work F} (hcap : base + nb ≤ cap)
    (hx : Rows w.x 0 m.nEmbd nb (fun t => e (base + t))) (hkv : Cached m cap e base kc vc)
    (l : Nat) (hl : l ≤ m.nLayers) :
    let s := (List.range l).foldl (fun s L => m.mtpLayer cap base nb L s) (w, kc, vc)
    Rows s.1.x 0 m.nEmbd nb (fun t => m.residAt e l (base + t)) ∧
      ∀ L, L < m.nLayers → KvRows m L (m.residAt e L) (L * cap * m.kvd)
        (if L < l then base + nb else base) s.2.1 s.2.2 := by
  induction l with
  | zero =>
      constructor
      · exact hx
      · intro L hL
        rw [if_neg (Nat.not_lt_zero L)]
        exact hkv L hL
  | succ l ih =>
      obtain ⟨hrows, hcache⟩ := ih (by omega)
      rw [List.range_succ, List.foldl_append, List.foldl_cons, List.foldl_nil]
      generalize (List.range l).foldl (fun s L => m.mtpLayer cap base nb L s) (w, kc, vc) = s
        at hrows hcache ⊢
      obtain ⟨w', kc', vc'⟩ := s
      have hold : KvRows m l (m.residAt e l) (l * cap * m.kvd) base kc' vc' := by
        have := hcache l (by omega)
        rwa [if_neg (Nat.lt_irrefl l)] at this
      obtain ⟨hnext, hnew⟩ := mtpLayer_rows hrows hold
      constructor
      · exact hnext
      · intro L hL
        rcases eq_or_ne L l with rfl | hne
        · rw [if_pos (Nat.lt_succ_self L)]
          exact hnew
        · have hsame : (L < l + 1) = (L < l) := by
            rw [Nat.lt_succ_iff, Nat.le_iff_lt_or_eq, eq_iff_iff]
            simp [hne]
          have hrow : (if L < l then base + nb else base) * m.kvd ≤ cap * m.kvd := by
            apply Nat.mul_le_mul_right
            split <;> omega
          simp only [hsame]
          apply (hcache L hL).congr
          · intro a hlo hhi
            exact (mtpLayer_other hcap hne hlo (by omega)).1
          · intro a hlo hhi
            exact (mtpLayer_other hcap hne hlo (by omega)).2

/-- A call appends its batch to what is cached and computes the rows of the batch. -/
theorem mtpForward_rows {batch : List Int} (hbatch : batch ≠ [])
    (hcap : base + batch.length ≤ cap) (he : EmbedsAs m batch (fun t => e (base + t)))
    (hkv : Cached m cap e base kc vc) (w : Work F) (logits : Nat → F) :
    ∃ kc' vc' logits', m.mtpForward batch base w kc vc cap logits = some (kc', vc', logits') ∧
      Cached m cap e (base + batch.length) kc' vc' ∧
      Rows logits' 0 m.nVocab batch.length
        (fun t => m.logitsRow (m.residAt e m.nLayers (base + t))) := by
  obtain ⟨x, hx, hrows, -⟩ := embedRows_rows he 0 w.x
  rw [Nat.zero_mul] at hrows
  obtain ⟨hlast, hcache⟩ := mtpLayers_rows (w := { w with x }) hcap hrows hkv m.nLayers (le_refl _)
  have hpos : 0 < batch.length := List.length_pos_iff.mpr hbatch
  unfold mtpForward
  rw [if_neg (by omega), hx]
  simp only [Option.map_some, Int.toNat_natCast]
  refine ⟨_, _, _, rfl, ?_, lmHead_rows logits hlast⟩
  intro L hL
  have := hcache L hL
  rwa [if_pos hL] at this

theorem mtpForward_none {batch : List Int} (h : ∃ tok ∈ batch, m.embedRow tok = none)
    (base : Int) (w : Work F) (kc vc : Nat → F) (cap : Int) (logits : Nat → F) :
    m.mtpForward batch base w kc vc cap logits = none := by
  unfold mtpForward
  rw [embedRows_none h]
  simp

/-- The calls of a run, from any position on: each produces the rows of its batch. -/
theorem appendRun_rows (calls : List (Call F)) (hbatch : ∀ call ∈ calls, call.batch ≠ [])
    (hcap : base + (calls.flatMap Call.batch).length ≤ cap)
    (he : EmbedsAs m (calls.flatMap Call.batch) (fun t => e (base + t)))
    (hkv : Cached m cap e base kc vc) :
    m.appendRun cap base kc vc calls =
      some ((List.range (calls.flatMap Call.batch).length).map fun t =>
        vec m.nVocab (m.logitsRow (m.residAt e m.nLayers (base + t)))) := by
  induction calls generalizing base kc vc with
  | nil => rfl
  | cons call rest ih =>
      rw [List.flatMap_cons, List.length_append] at hcap
      rw [List.flatMap_cons] at he
      have hthis : EmbedsAs m call.batch (fun t => e (base + t)) := by
        intro i tok htok
        apply he
        rw [List.getElem?_append_left (List.getElem?_eq_some_iff.mp htok).1]
        exact htok
      have hrest : EmbedsAs m (rest.flatMap Call.batch)
          (fun t => e (base + call.batch.length + t)) := by
        intro i tok htok
        dsimp only
        rw [Nat.add_assoc]
        apply he
        rw [List.getElem?_append_right (Nat.le_add_right _ _), Nat.add_sub_cancel_left]
        exact htok
      obtain ⟨kc', vc', logits', hcall, hcached, hlogits⟩ :=
        mtpForward_rows (hbatch call List.mem_cons_self) (by omega) hthis
          (hkv.overlay call.staleK call.staleV (by omega)) call.work call.logits
      have hlater := ih (fun c hc => hbatch c (List.mem_cons_of_mem _ hc)) (by omega) hrest hcached
      unfold appendRun
      rw [hcall]
      simp only [Option.bind_some, hlater, Option.map_some, logitsRows_eq hlogits]
      rw [List.flatMap_cons, List.length_append, List.range_add, List.map_append, List.map_map]
      simp only [Function.comp_def, Nat.add_assoc]

theorem appendRun_none (calls : List (Call F))
    (h : ∃ tok ∈ calls.flatMap Call.batch, m.embedRow tok = none) :
    m.appendRun cap base kc vc calls = none := by
  induction calls generalizing base kc vc with
  | nil => simp at h
  | cons call rest ih =>
      obtain ⟨tok, hmem, hnone⟩ := h
      rw [List.flatMap_cons] at hmem
      unfold appendRun
      rcases List.mem_append.mp hmem with hhere | hlater
      · rw [mtpForward_none ⟨tok, hhere, hnone⟩]
        rfl
      · rw [Option.bind_eq_none_iff]
        rintro ⟨kc', vc', logits'⟩ _
        dsimp only
        rw [ih ⟨tok, hlater, hnone⟩]
        rfl

/-- Append-forward is full forward: whatever the batches, the stale slots and the contents
of the work buffers, the calls produce the rows of one forward over the whole sequence,
and return nonzero when it does. -/
theorem appendRun_eq_forward (m : Model F) (cap : Nat) (tokens : List Int)
    (calls : List (Call F)) (kc vc : Nat → F) (w : Work F) (k v logits : Nat → F)
    (hbatch : ∀ call ∈ calls, call.batch ≠ [])
    (htokens : calls.flatMap Call.batch = tokens) (hcap : tokens.length ≤ cap) :
    m.appendRun cap 0 kc vc calls =
      (m.forward tokens w k v logits).map (m.logitsRows tokens.length) := by
  subst htokens
  by_cases hbad : ∃ tok ∈ calls.flatMap Call.batch, m.embedRow tok = none
  · rw [appendRun_none calls hbad]
    unfold forward
    rw [embedRows_none hbad]
    rfl
  · -- every token embeds: the rows are those of the network, position by position
    let e : Nat → Nat → F := fun i =>
      (((calls.flatMap Call.batch)[i]?).bind m.embedRow).getD w.x
    have he : EmbedsAs m (calls.flatMap Call.batch) e := by
      intro i tok htok
      have hmem : tok ∈ calls.flatMap Call.batch := List.mem_of_getElem? htok
      cases hrow : m.embedRow tok with
      | none => exact absurd ⟨tok, hmem, hrow⟩ hbad
      | some row => simp [e, htok, hrow]
    have hempty : Cached m cap e 0 kc vc := by
      intro L _
      constructor <;> intro s hs <;> omega
    rw [forward_rows he, appendRun_rows calls hbatch (by omega) (by simpa using he) hempty]
    simp

end Model

/-- Two layers, two query heads on one K/V head, integers for floats. -/
def tiny : Model Int where
  nEmbd := 1
  nFf := 1
  headDim := 1
  nHead := 2
  nHeadKv := 1
  nVocab := 3
  nLayers := 2
  kv_pos := by decide
  heads_split := by decide
  embedRow t := some fun _ => t
  attnNorm _ x _ := x.sum
  attnQ L x i := x.sum + L + i
  attnK L x _ := x.sum - L
  attnV _ x _ := 2 * x.sum
  attnQNorm _ x _ := x.sum
  attnKNorm _ x _ := x.sum + 1
  rope pos x _ := x.sum + pos
  attnHead q ks vs _ := (q.sum * (ks.map List.sum).sum + (vs.map List.sum).sum) % 11
  attnOutput _ x _ := x.sum
  add a b := a + b
  ffnNorm _ x _ := x.sum
  ffnGate L x _ := x.sum + L
  ffnUp _ x _ := x.sum
  siluMul a b := a * b % 5
  ffnDown _ x _ := x.sum
  outputNorm x _ := x.sum
  output x i := (x.sum * (i + 2)) % 7

def tinyWork (a : Int) : Work Int := ⟨fun _ => a, fun _ => a, fun _ => a, fun _ => a, fun _ => a,
  fun _ => a, fun _ => a, fun _ => a⟩

theorem appendRun_tiny :
    tiny.appendRun 3 0 (fun _ => 50) (fun _ => 60)
        [⟨[5, 7], tinyWork 1, fun _ => 0, fun _ => 70, fun _ => 80⟩,
          ⟨[9], tinyWork 2, fun _ => 3, fun _ => 90, fun _ => 91⟩] =
      (tiny.forward [5, 7, 9] (tinyWork 4) (fun _ => 5) (fun _ => 6) (fun _ => 7)).map
        (tiny.logitsRows 3) :=
  Model.appendRun_eq_forward tiny 3 [5, 7, 9] _ _ _ _ _ _ _ (by simp) rfl (by decide)

end ShannonPrime.Cpu
