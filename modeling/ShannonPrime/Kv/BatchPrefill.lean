import ShannonPrime.Kv.Peek
import ShannonPrime.Kv.Context
import ShannonPrime.Kv.Resident

/-!
The batched prefill against the one that steps token by token. The batch runs the
layers over all positions at once and sinks each owner's rows; under a ring its
attention reads contiguous copies, which the sharers keep of the last two owners.
`Flat` is what both compute. The kernels are the same functions in both: that the
batched matrix products round like the single ones is not claimed by the source either.
-/

namespace ShannonPrime.Kv

variable {T X R : Type*}

section Source

variable (K : Kernels T X R) (g : Geometry)

/-- The buffers of the batched prefill between two layers: the residuals of all
positions, the resident cache, and the contiguous rows kept for the sharers. -/
structure Batch (X R : Type*) where
  hidden : List X
  cache : Nat → Nat → R
  heldGlobal : List R
  heldLocal : List R

/-- An owner's rows go to the resident cache: a full cache takes every position, a ring
the last `min n ringW`. -/
def sinkLayer (l : Nat) (rows : List R) (m : Nat → R) : Nat → R :=
  let start := if g.isRinged l then rows.length - g.ringW else 0
  UndoLog.writeUp (g.slot l) (fun p => rows.getD p K.zero) start (rows.length - start) m

/-- Attention and the rest of a layer, at every position. -/
def batchAttend (l : Nat) (use : Nat → R) (hidden : List X) : List X :=
  hidden.mapIdx fun t x => K.layer false l t x ((g.window l t).map use)

/-- One layer of the batch. With a ring the attention reads `dk` itself or a kept copy. -/
def batchLayer (b : Batch X R) (l : Nat) : Batch X R :=
  if g.isOwner l then
    let rows := b.hidden.mapIdx fun p x => K.kvRow false l p x
    let cache := Function.update b.cache l (sinkLayer K g l rows (b.cache l))
    { hidden := batchAttend K g l
        (fun p => if 0 < g.ringW then rows.getD p K.zero else cache l p) b.hidden
      cache := cache
      heldGlobal := if 0 < g.ringW ∧ l + 1 = g.kvfs then rows else b.heldGlobal
      heldLocal := if 0 < g.ringW ∧ l + 2 = g.kvfs then rows else b.heldLocal }
  else
    { b with
      hidden := batchAttend K g l
        (fun p =>
          if 0 < g.ringW then
            (if g.isGlobal l then b.heldGlobal else b.heldLocal).getD p K.zero
          else b.cache (g.source l) p) b.hidden }

/-- The batch before layer `k`. -/
def batchUpTo (toks : List T) (m : Nat → Nat → R) (k : Nat) : Batch X R :=
  (List.range k).foldl (batchLayer K g)
    ⟨toks.map fun tok => K.ple false tok (K.embed tok), m, [], []⟩

/-- `gemma4_kv_prefill_batched` after its checks. The counters of the journal stay. -/
def prefillBatch (toks : List T) (s : Session T X R) : Session T X R :=
  { s with
    kv := (batchUpTo K g toks s.kv g.nl).cache
    jpos := fun _ _ => none
    dseq := fun q => (toks[q]?).getD (s.dseq q)
    dpos := toks.length }

end Source

/-! What both prefills compute -/

/-- The residuals before a layer and the rows of the owners below it, position by position. -/
structure Flat (X R : Type*) where
  hidden : List X
  rows : Nat → List R

section Reference

variable (K : Kernels T X R) (g : Geometry) (toks : List T)

def flatLayer (b : Flat X R) (l : Nat) : Flat X R :=
  let rows :=
    if g.isOwner l then Function.update b.rows l (b.hidden.mapIdx fun p x => K.kvRow false l p x)
    else b.rows
  ⟨batchAttend K g l (fun p => (rows (g.source l)).getD p K.zero) b.hidden, rows⟩

def flat (k : Nat) : Flat X R :=
  (List.range k).foldl (flatLayer K g)
    ⟨toks.map fun tok => K.ple false tok (K.embed tok), fun _ => []⟩

/-- The row of owner `l` at position `p`. -/
def flatRow (l p : Nat) : R := ((flat K g toks g.nl).rows l).getD p K.zero

/-- The kernels whose batched rows are those of the batch above. -/
def Kernels.batched : Kernels T X R := { K with batchRow := fun _ toks l p => flatRow K g toks l p }

variable {K} {g} {toks}

theorem flat_succ (k : Nat) : flat K g toks (k + 1) = flatLayer K g (flat K g toks k) k := by
  simp [flat, List.range_succ]

theorem batchAttend_length (l : Nat) (use : Nat → R) (hidden : List X) :
    (batchAttend K g l use hidden).length = hidden.length := by
  simp [batchAttend]

/-- A layer reads no position above the one it is at. -/
theorem batchAttend_congr {l : Nat} {use use' : Nat → R} {hidden : List X}
    (h : ∀ p < hidden.length, use p = use' p) :
    batchAttend K g l use hidden = batchAttend K g l use' hidden := by
  refine List.ext_getElem (by simp [batchAttend]) fun t ht _ => ?_
  rw [batchAttend_length] at ht
  simp only [batchAttend, List.getElem_mapIdx]
  congr 1
  refine List.map_congr_left fun p hp => h p ?_
  have := (g.mem_window.mp hp).1
  omega

@[simp] theorem flat_length (k : Nat) : (flat K g toks k).hidden.length = toks.length := by
  induction k with
  | zero => simp [flat]
  | succ k ih => rw [flat_succ, flatLayer, batchAttend_length, ih]

/-- A layer above does not touch the rows of an owner. -/
theorem flat_rows_le {l k : Nat} (hk : l < k) (n : Nat) :
    (flat K g toks (k + n)).rows l = (flat K g toks k).rows l := by
  induction n with
  | zero => rfl
  | succ n ih =>
      rw [← Nat.add_assoc, flat_succ, flatLayer, ← ih]
      simp only
      split
      · rw [Function.update_of_ne (by omega)]
      · rfl

theorem flat_rows {l : Nat} (howner : g.isOwner l = true) {k : Nat} (hk : l < k) :
    (flat K g toks k).rows l =
      (flat K g toks l).hidden.mapIdx fun p x => K.kvRow false l p x := by
  obtain ⟨n, rfl⟩ : ∃ n, k = l + 1 + n := ⟨k - (l + 1), by omega⟩
  rw [flat_rows_le (by omega), flat_succ, flatLayer]
  simp [howner]

theorem flat_rows_length {l : Nat} (howner : g.isOwner l = true) {k : Nat} (hk : l < k) :
    ((flat K g toks k).rows l).length = toks.length := by
  rw [flat_rows howner hk, List.length_mapIdx, flat_length]

theorem flatRow_eq {l : Nat} (howner : g.isOwner l = true) {k : Nat} (hk : l < k) (p : Nat) :
    ((flat K g toks k).rows l).getD p K.zero = flatRow K g toks l p := by
  rw [flatRow, flat_rows howner hk, flat_rows howner (Geometry.lt_nl_of_isOwner howner)]

/-- The row of a position is minted from its residual. -/
theorem flatRow_hidden {l p : Nat} (howner : g.isOwner l = true) (hp : p < toks.length) :
    flatRow K g toks l p =
      K.kvRow false l p ((flat K g toks l).hidden.get ⟨p, by rw [flat_length]; exact hp⟩) := by
  rw [flatRow, flat_rows howner (Geometry.lt_nl_of_isOwner howner),
    List.getD_eq_getElem?_getD,
    List.getElem?_eq_getElem (by rw [List.length_mapIdx, flat_length]; exact hp),
    Option.getD_some, List.getElem_mapIdx]
  rfl

/-- The residual of a position goes through a layer with the rows of its window. -/
theorem flat_hidden_succ {k p : Nat} (hk : k < g.nl) (hp : p < toks.length) :
    (flat K g toks (k + 1)).hidden.get ⟨p, by rw [flat_length]; exact hp⟩ =
      K.layer false k p ((flat K g toks k).hidden.get ⟨p, by rw [flat_length]; exact hp⟩)
        ((g.window k p).map (flatRow K g toks (g.source k))) := by
  obtain ⟨howner, hle, _⟩ := g.source_spec hk
  have hrows : ∀ q, ((flat K g toks (k + 1)).rows (g.source k)).getD q K.zero =
      flatRow K g toks (g.source k) q := flatRow_eq howner (by omega)
  have hstep : (flat K g toks (k + 1)).hidden =
      batchAttend K g k (flatRow K g toks (g.source k)) (flat K g toks k).hidden := by
    rw [← funext hrows, flat_succ]
    rfl
  simp only [hstep, List.get_eq_getElem, batchAttend, List.getElem_mapIdx]

end Reference

/-! The batch computes them -/

section Batched

variable {K : Kernels T X R} {g : Geometry} {toks : List T} {m : Nat → Nat → R}

/-- In a full cache each position has its own slot. -/
theorem sinkLayer_full {l p : Nat} (hfull : g.isRinged l = false) {rows : List R}
    (hp : p < rows.length) (m : Nat → R) : sinkLayer K g l rows m p = rows.getD p K.zero := by
  have hslot : ∀ q, g.slot l q = q := fun q => by simp [Geometry.slot, hfull]
  have hhighest := @UndoLog.writeUp_highest _ _ (g.slot l) 0 _
    (fun p => rows.getD p K.zero) m rows.length p (Nat.zero_le p) (by omega)
    fun q hq _ => by rw [hslot, hslot]; omega
  rw [hslot] at hhighest
  simpa [sinkLayer, hfull] using hhighest

/-- The batch before layer `k`: the residuals of the reference, the rows of the owners below
sunk, and those of the last two owners kept when there is a ring. -/
structure Batch.Computes (K : Kernels T X R) (g : Geometry) (toks : List T) (m : Nat → Nat → R)
    (k : Nat) (b : Batch X R) : Prop where
  hidden : b.hidden = (flat K g toks k).hidden
  cache : ∀ l, b.cache l =
    if g.isOwner l ∧ l < k then sinkLayer K g l ((flat K g toks k).rows l) (m l) else m l
  heldGlobal : 0 < g.ringW → ∀ l, l + 1 = g.kvfs → l < k →
    b.heldGlobal = (flat K g toks k).rows l
  heldLocal : 0 < g.ringW → ∀ l, l + 2 = g.kvfs → l < k →
    b.heldLocal = (flat K g toks k).rows l

/-- One layer of the batch is one layer of the reference. -/
theorem Batch.Computes.layer {k : Nat} {b : Batch X R} (h : b.Computes K g toks m k)
    (hk : k < g.nl) : (batchLayer K g b k).Computes K g toks m (k + 1) := by
  obtain ⟨hsource, hle, htype⟩ := g.source_spec hk
  have hhidden : (flat K g toks (k + 1)).hidden =
      batchAttend K g k (fun p => ((flat K g toks (k + 1)).rows (g.source k)).getD p K.zero)
        b.hidden := by
    rw [h.hidden, flat_succ]
    rfl
  have hlength : b.hidden.length = toks.length := by rw [h.hidden, flat_length]
  -- without a ring a cache that is sunk holds every position in its own slot
  have hfull : ∀ l p, g.isOwner l = true → l < k + 1 → ¬0 < g.ringW → p < toks.length →
      sinkLayer K g l ((flat K g toks (k + 1)).rows l) (m l) p =
        ((flat K g toks (k + 1)).rows l).getD p K.zero := by
    intro l p howner hl hring hp
    refine sinkLayer_full ?_ (by rw [flat_rows_length howner hl]; exact hp) _
    simp [Geometry.isRinged, hring]
  cases howner : g.isOwner k with
  | true =>
      have hself : g.source k = k := by
        simp only [Geometry.isOwner, decide_eq_true_eq] at howner
        simp [Geometry.source, howner.1]
      have hrows : (b.hidden.mapIdx fun p x => K.kvRow false k p x) =
          (flat K g toks (k + 1)).rows k := by
        rw [h.hidden, flat_rows howner (Nat.lt_succ_self k)]
      have hold : b.cache k = m k := by rw [h.cache, if_neg (by omega)]
      simp only [batchLayer, howner, if_true, hrows, hold]
      constructor
      · rw [hhidden, hself]
        refine batchAttend_congr fun p hp => ?_
        rw [hlength] at hp
        split
        · rfl
        · rename_i hring
          rw [Function.update_self]
          exact hfull k p howner (Nat.lt_succ_self k) hring hp
      · intro l
        dsimp only
        by_cases hl : l = k
        · subst hl
          rw [Function.update_self, if_pos ⟨howner, Nat.lt_succ_self l⟩]
        · rw [Function.update_of_ne hl, h.cache]
          by_cases hlow : g.isOwner l = true ∧ l < k
          · rw [if_pos hlow, if_pos ⟨hlow.1, by omega⟩, flat_rows_le hlow.2 1]
          · rw [if_neg hlow, if_neg fun hin => hlow ⟨hin.1, by omega⟩]
      · intro hring l hlast hl
        dsimp only
        by_cases hnow : k + 1 = g.kvfs
        · obtain rfl : l = k := by omega
          simp [hring, hnow]
        · rw [if_neg fun hin => hnow hin.2, h.heldGlobal hring l hlast (by omega),
            flat_rows_le (by omega) 1]
      · intro hring l hlast hl
        dsimp only
        by_cases hnow : k + 2 = g.kvfs
        · obtain rfl : l = k := by omega
          simp [hring, hnow]
        · rw [if_neg fun hin => hnow hin.2, h.heldLocal hring l hlast (by omega),
            flat_rows_le (by omega) 1]
  | false =>
      have hlow : g.source k < k := by
        rcases Nat.lt_or_eq_of_le hle with hlt | heq
        · exact hlt
        · rw [heq, howner] at hsource
          cases hsource
      simp only [batchLayer, howner, Bool.false_eq_true, if_false]
      constructor
      · rw [hhidden]
        refine batchAttend_congr fun p hp => ?_
        rw [hlength] at hp
        rw [flat_rows_le hlow 1]
        split
        · rename_i hring
          have hkvfs : ¬k < g.kvfs := by
            intro hlt
            simp only [Geometry.isOwner, decide_eq_false_iff_not] at howner
            exact howner ⟨hlt, hk⟩
          have hsrc : g.source k = g.kvfs - if g.isGlobal k then 1 else 2 := by
            rw [Geometry.source, if_neg hkvfs]
          have hpos : (if g.isGlobal k then 1 else 2) ≤ g.kvfs := by
            have := (g.shared_type k (by omega) hk).1
            simpa [Geometry.isGlobal] using this
          cases hglobal : g.isGlobal k with
          | true =>
              rw [hglobal, if_pos rfl] at hsrc hpos
              rw [if_pos rfl, h.heldGlobal hring (g.source k) (by omega) hlow]
          | false =>
              rw [hglobal] at hsrc hpos
              simp only [Bool.false_eq_true, if_false] at hsrc hpos ⊢
              rw [h.heldLocal hring (g.source k) (by omega) hlow]
        · rename_i hring
          rw [h.cache, if_pos ⟨hsource, hlow⟩, ← flat_rows_le hlow 1]
          exact hfull (g.source k) p hsource (by omega) hring hp
      · intro l
        dsimp only
        rw [h.cache]
        by_cases hin : g.isOwner l = true ∧ l < k
        · rw [if_pos hin, if_pos ⟨hin.1, by omega⟩, flat_rows_le hin.2 1]
        · rw [if_neg hin, if_neg]
          rintro ⟨hl, hlt⟩
          rcases Nat.lt_or_eq_of_le (Nat.le_of_lt_succ hlt) with hlow' | rfl
          · exact hin ⟨hl, hlow'⟩
          · rw [howner] at hl
            cases hl
      · intro hring l hlast hl
        dsimp only
        rcases Nat.lt_or_eq_of_le (Nat.le_of_lt_succ hl) with hlow' | rfl
        · rw [h.heldGlobal hring l hlast hlow', flat_rows_le hlow' 1]
        · simp only [Geometry.isOwner, decide_eq_false_iff_not] at howner
          exact absurd ⟨by omega, hk⟩ howner
      · intro hring l hlast hl
        dsimp only
        rcases Nat.lt_or_eq_of_le (Nat.le_of_lt_succ hl) with hlow' | rfl
        · rw [h.heldLocal hring l hlast hlow', flat_rows_le hlow' 1]
        · simp only [Geometry.isOwner, decide_eq_false_iff_not] at howner
          exact absurd ⟨by omega, hk⟩ howner

theorem batchUpTo_computes {k : Nat} (hk : k ≤ g.nl) :
    (batchUpTo K g toks m k).Computes K g toks m k := by
  induction k with
  | zero => exact ⟨rfl, fun l => by rw [if_neg (by omega)]; rfl, by omega, by omega⟩
  | succ k ih =>
      have hstep : batchUpTo K g toks m (k + 1) = batchLayer K g (batchUpTo K g toks m k) k := by
        simp [batchUpTo, List.range_succ]
      rw [hstep]
      exact (ih (by omega)).layer (by omega)

/-- The batch is the sink of its rows. -/
theorem prefillBatch_eq (s : Session T X R) :
    prefillBatch K g toks s = sinkRows (K.batched g) g toks s := by
  have hcache : (batchUpTo K g toks s.kv g.nl).cache = (sinkRows (K.batched g) g toks s).kv := by
    funext l
    rw [(batchUpTo_computes (Nat.le_refl g.nl)).cache]
    simp only [sinkRows]
    cases howner : g.isOwner l with
    | true =>
        have hl := Geometry.lt_nl_of_isOwner howner
        simp only [hl, and_self, if_true, sinkLayer, UndoLog.writeUp, flat_rows_length howner hl]
        rfl
    | false => simp
  unfold prefillBatch
  rw [hcache]
  rfl

end Batched

/-! The token-by-token prefill computes them -/

section Stepped

variable {K : Kernels T X R} {g : Geometry} {toks : List T}

theorem Geometry.slot_ne {l p q : Nat} (hlt : p < q) (hring : g.isRinged l → q < p + g.ringW) :
    g.slot l q ≠ g.slot l p := by
  cases hringed : g.isRinged l with
  | false =>
      simp only [Geometry.slot, hringed, Bool.false_eq_true, if_false]
      omega
  | true =>
      simp only [Geometry.slot, hringed, if_true]
      exact (ring_slot_ne hlt (hring hringed)).symm

/-- A position the window shows is still held. -/
theorem window_held {d l p : Nat} (hcov : g.Suffices (d + 1)) (hl : l < g.nl)
    (hp : p ∈ g.window l d) (hne : p ≠ d) :
    p < d ∧ (g.isRinged (g.source l) → d < p + g.ringW) := by
  rcases (stepLinks_fit hcov).reads l hl p hp hne with ⟨p', hlt, hnear, -, hfull⟩ | ⟨-, hfull⟩
  · rw [g.full_slot] at hfull
    subst hfull
    exact ⟨hlt, hnear⟩
  · rw [g.full_slot, g.full_slot] at hfull
    exact absurd hfull hne

/-- The layer loop at position `d`, when the windows show the rows of the reference. -/
theorem layerLoop_flat {d : Nat} (hd : d < toks.length) (n k : Nat) (hn : k + n = g.nl)
    (s : Session T X R) (x : X) (hdpos : s.dpos = d) (hfloat : s.bxOn = false)
    (hx : x = (flat K g toks k).hidden.get ⟨d, by rw [flat_length]; exact hd⟩)
    (hspan : 0 < g.ringW → s.dpos - s.commitPos < g.jmax)
    (hread : ∀ l < g.nl, ∀ p ∈ g.window l d, p ≠ d → g.slot l p ≠ g.slot l d ∧
      s.kv (g.source l) (g.slot l p) = flatRow K g toks (g.source l) p)
    (hstored : ∀ l, g.isOwner l = true → l < k → s.kv l (g.slot l d) = flatRow K g toks l d)
    (l : Nat) (howner : g.isOwner l = true) :
    (layerLoop K g none (List.range' k n) s x).session.kv l (g.slot l d) =
      flatRow K g toks l d := by
  induction n generalizing k s x with
  | zero =>
      have := Geometry.lt_nl_of_isOwner howner
      exact hstored l howner (by omega)
  | succ n ih =>
      have hk : k < g.nl := by omega
      have hfree : ¬(g.isOwner k ∧ g.isRinged k ∧ g.jmax ≤ s.dpos - s.commitPos) := by
        rintro ⟨-, hringed, hfull⟩
        have := hspan (g.ringW_pos hringed)
        omega
      have hnone : Fault.atLayer k none = none := rfl
      simp only [List.range'_succ, layerLoop, hnone, hfree, if_false]
      have hstore := layerStore_kv K g k s x
      rw [hdpos, hfloat] at hstore
      have hread' : ∀ l < g.nl, ∀ p ∈ g.window l d, p ≠ d → g.slot l p ≠ g.slot l d ∧
          (layerStore K g k s x).kv (g.source l) (g.slot l p) =
            flatRow K g toks (g.source l) p := by
        intro l' hl' p hp hne
        obtain ⟨hslot, hrow⟩ := hread l' hl' p hp hne
        refine ⟨hslot, ?_⟩
        rw [hstore, if_neg, hrow]
        rintro ⟨hlive, -⟩
        rw [g.slot_source hl'] at hlive
        exact hslot hlive
      have hstored' : ∀ l, g.isOwner l = true → l < k + 1 →
          (layerStore K g k s x).kv l (g.slot l d) = flatRow K g toks l d := by
        intro l' howner' hl'
        rw [hstore]
        by_cases hlk : l' = k
        · subst hlk
          rw [if_pos ⟨rfl, rfl, howner'⟩, flatRow_hidden howner' hd, hx]
        · rw [if_neg fun hin => hlk hin.2.1]
          exact hstored l' howner' (by omega)
      have hdpos' : (layerStore K g k s x).dpos = d := (layerStore_dpos K g k s x).trans hdpos
      have hattends : (layerStore K g k s x).attends g k =
          (g.window k d).map (flatRow K g toks (g.source k)) := by
        obtain ⟨hsource, hle, -⟩ := g.source_spec hk
        rw [Session.attends, hdpos']
        refine List.map_congr_left fun p hp => ?_
        by_cases hlive : p = d
        · rw [hlive, ← g.slot_source hk]
          exact hstored' _ hsource (by omega)
        · exact (hread' k hk p hp hlive).2
      refine ih (k + 1) (by omega) (layerStore K g k s x) _ hdpos'
        (by rw [layerStore_eq]; exact hfloat) ?_ (by rw [layerStore_eq]; exact hspan) hread'
        hstored'
      rw [flat_hidden_succ hk hd, hattends, hx, hdpos, hfloat]

/-- `s` has stepped over the first `d` tokens, from the cold session `s₀`. -/
structure Stepping (K : Kernels T X R) (g : Geometry) (toks : List T) (s₀ : Session T X R)
    (d : Nat) (s : Session T X R) : Prop where
  dpos : s.dpos = d
  commitPos : s.commitPos = if 0 < g.ringW then d - g.jmax else 0
  kv : ∀ l, s.kv l =
    if g.isOwner l then UndoLog.writeUp (g.slot l) (flatRow K g toks l) 0 d (s₀.kv l)
    else s₀.kv l
  dseq : ∀ q, q ≠ toks.length → s.dseq q = (toks[q]?).getD (s₀.dseq q)
  idle : s.inj = none
  float : s.bxOn = false

variable {s₀ s : Session T X R} {d : Nat}

/-- The row a step stores. -/
theorem Stepping.row (h : Stepping K g toks s₀ d s) (hd : d < toks.length)
    (hcov : g.Suffices toks.length) (head : Bool) {l : Nat} (howner : g.isOwner l = true) :
    (tick K g head none s).session.kv l (g.slot l d) = flatRow K g toks l d := by
  have hplain := g4KvStep_err K g false none s fun _ _ => rfl
  have hloop : (tick K g false none s).session.kv =
      (layerLoop K g none (List.range g.nl) (s.disarm.slide g)
        (K.ple s.bxOn (s.dseq s.dpos) (s.inj.getD (K.embed (s.dseq s.dpos))))).session.kv := by
    simp only [tick, hplain, Session.advance]
    simp only [g4KvStep] at hplain ⊢
    split
    · rfl
    · rfl
  have htok : s.dseq s.dpos = toks[d] := by
    rw [h.dpos, h.dseq d (by omega), List.getElem?_eq_getElem hd]
    rfl
  rw [tick_kv_ok head none s (g4KvStep_err K g head none s fun _ _ => rfl), hloop, htok, h.idle,
    h.float, List.range_eq_range']
  refine layerLoop_flat hd g.nl 0 (by omega) (s.disarm.slide g) _ (by simpa using h.dpos)
    (by simpa using h.float) (by simp [flat])
    (by rw [slide_dpos]; exact fun hring => slide_span_lt g s.disarm hring) ?_ (by omega) l howner
  intro l' hl' p hp hne
  obtain ⟨hlt, hnear⟩ := window_held (hcov.mono (by omega)) hl' hp hne
  have hsource := (g.source_spec hl').1
  refine ⟨?_, ?_⟩
  · rw [← g.slot_source hl', ← g.slot_source hl']
    exact (g.slot_ne hlt hnear).symm
  · rw [slide_kv, disarm_kv, h.kv, if_pos hsource, ← g.slot_source hl']
    exact UndoLog.writeUp_highest (Nat.zero_le p) (by omega) fun q hq hqd =>
      g.slot_ne hq fun hringed => by have := hnear hringed; omega

theorem Stepping.tick (h : Stepping K g toks s₀ d s) (hd : d < toks.length)
    (hcov : g.Suffices toks.length) :
    Stepping K g toks s₀ (d + 1) (Kv.tick K g (d + 1 == toks.length) none s).session := by
  obtain ⟨-, hdpos, hcommit, hdseq⟩ := tick_counters K g (d + 1 == toks.length) none s
  obtain ⟨row, hdom, hall, -, hidle, hkv, -⟩ := tick_journal K g (d + 1 == toks.length) none s
  have hbased : Based g s := by
    have hj := g.jmax_pos
    have hcommit := h.commitPos
    have hdpos := h.dpos
    constructor
    · split at hcommit <;> omega
    · intro hring
      rw [if_pos hring] at hcommit
      omega
  constructor
  · rw [hdpos, h.dpos]
    rfl
  · rw [hcommit, slide_baseAt g hbased, baseAt, h.commitPos, h.dpos]
    split <;> omega
  · intro l
    funext q
    rw [hkv, h.dpos]
    cases howner : g.isOwner l with
    | true =>
        obtain ⟨r, hr⟩ := Option.isSome_iff_exists.mp
          (hall (g4KvStep_err K g _ none s fun _ _ => rfl) l howner)
        have hstored := h.row hd hcov (d + 1 == toks.length) howner
        rw [hkv, h.dpos, if_pos rfl, hr, Option.getD_some] at hstored
        rw [if_pos rfl, UndoLog.writeUp_succ, Nat.zero_add, Function.update_apply, hr,
          Option.getD_some, hstored, h.kv, if_pos howner]
    | false =>
        have hnone : row l = none := by
          cases hrow : row l with
          | none => rfl
          | some r =>
              have := hdom l (by rw [hrow]; rfl)
              rw [howner] at this
              cases this
        rw [hnone, Option.getD_none, ite_self, h.kv, howner]
        rfl
  · intro q hq
    rw [hdseq q ?_, h.dseq q hq]
    rw [h.dpos]
    by_cases hlast : d + 1 = toks.length
    · exact Or.inl (by omega)
    · exact Or.inr (beq_eq_false_iff_ne.mpr hlast)
  · exact hidle
  · exact (runOp_bxOn K g (.tick (d + 1 == toks.length) none) rfl s).trans h.float

theorem Stepping.ticks (hcov : g.Suffices toks.length) (n : Nat) (hn : d + n = toks.length)
    (h : Stepping K g toks s₀ d s) :
    Stepping K g toks s₀ toks.length (runOps K g
      ((List.range' d n).map fun i => .tick (i + 1 == toks.length) none) s).session := by
  induction n generalizing d s with
  | zero =>
      obtain rfl : d = toks.length := by omega
      exact h
  | succ n ih =>
      rw [List.range'_succ, List.map_cons,
        runOps_cons_session K g (.tick (d + 1 == toks.length) none) _ s (tick_healthy K g _ s)]
      exact ih (by omega) (h.tick (by omega) hcov)

/-- The prefill leaves the rows of the reference. -/
theorem Stepping.prefill {s : Session T X R} (hdpos : s.dpos = 0) (hcommit : s.commitPos = 0)
    (hidle : s.inj = none) (hfloat : s.bxOn = false) (hne : toks ≠ [])
    (hroom : toks.length ≤ g.pmax) (hcov : g.Suffices toks.length) :
    Stepping K g toks s toks.length ((Call.prefill toks noFaults).exec K g s).session := by
  have hacc : (Feed.prefill toks).accepts g.pmax s.dpos = true := by
    simp [Feed.accepts, hne, hdpos, hroom]
  have hexec := ((Feed.prefill toks).exec_ok K g s hacc).1
  change (Call.prefill toks noFaults).exec K g s = _ at hexec
  rw [hexec]
  have hstart : Stepping K g toks s 0 (s.feed toks) := by
    refine ⟨hdpos, by simp [Session.feed, hcommit], fun l => ?_, fun q _ => ?_, hidle, hfloat⟩
    · split <;> rfl
    · simp [Session.feed, hdpos]
  rw [Feed.ops, runOps_cons_session K g _ _ s rfl, prefillTicks, List.range_eq_range']
  exact hstart.ticks hcov toks.length (by omega)

end Stepped

/-! The calls behind the two -/

section Behind

variable {K : Kernels T X R} {g : Geometry} {s : Session T X R}

/-- The cells the batch leaves as they were: the journal, and the token behind the prompt,
which the head of the last step predicts. -/
def Taint.ofBatch (n : Nat) : Taint where
  slot _ _ := false
  entry _ _ := true
  seq q := q == n
  inj := false

theorem slide_idem (s : Session T X R) : (s.slide g).slide g = s.slide g := by
  by_cases hslides : s.slides g
  · have hfree : ¬(s.slide g).slides g := fun hagain => by
      have hlt := slide_span_lt g s hslides.1
      have hfull := hagain.2
      rw [slide_dpos] at hfull
      omega
    rw [Session.slide, if_neg hfree]
  · have hsame : s.slide g = s := if_neg hslides
    rw [hsame, hsame]

theorem disarm_slide (s : Session T X R) : (s.slide g).disarm = s.disarm.slide g := by
  have hslides : s.disarm.slides g ↔ s.slides g := Iff.rfl
  unfold Session.slide
  by_cases h : s.slides g
  · rw [if_pos h, if_pos (hslides.mpr h)]
    rfl
  · rw [if_neg h, if_neg fun h' => h (hslides.mp h')]

theorem feed_slide (s : Session T X R) (toks : List T) :
    (s.slide g).feed toks = (s.feed toks).slide g := by
  have hslides : (s.feed toks).slides g ↔ s.slides g := Iff.rfl
  unfold Session.slide
  by_cases h : s.slides g
  · rw [if_pos h, if_pos (hslides.mpr h)]
    rfl
  · rw [if_neg h, if_neg fun h' => h (hslides.mp h')]

/-- A step slides the journal itself, so it does not matter whether that has been done. -/
theorem g4KvStep_slide (head : Bool) (f : Option Fault) (s : Session T X R) :
    g4KvStep K g head f (s.slide g) = g4KvStep K g head f s := by
  simp only [g4KvStep, slide_dseq, slide_dpos, slide_bxOn, slide_inj, disarm_slide, slide_idem]

theorem tick_slide (head : Bool) (f : Option Fault) (s : Session T X R) :
    tick K g head f (s.slide g) = tick K g head f s := by
  simp only [tick, g4KvStep_slide]

variable {tok : T} {f : Option Fault}

theorem decodeLogits_slide (hroom : s.dpos + 1 < g.pmax) :
    (Call.decodeLogits tok f).exec K g (s.slide g) = (Call.decodeLogits tok f).exec K g s := by
  have hfree : ¬g.pmax ≤ s.dpos + 1 := by omega
  simp only [Call.exec, Call.queue, gemma4KvDecodeLogits, slide_dpos, hfree, if_false, runOps,
    runOp, feed_slide, tick_slide]

theorem observations_slide (hroom : s.dpos + 1 < g.pmax) (cs : List (Call T X R)) :
    observations K g (.decodeLogits tok f :: cs) (s.slide g) =
      observations K g (.decodeLogits tok f :: cs) s := by
  simp only [observations, Call.observe, decodeLogits_slide hroom, Call.restored]

theorem taint_slide (hroom : s.dpos + 1 < g.pmax) (cs : List (Call T X R)) (τ : Taint) :
    Taint.run K g (.decodeLogits tok f :: cs) (s.slide g) τ =
      Taint.run K g (.decodeLogits tok f :: cs) s τ := by
  have hfree : ¬g.pmax ≤ s.dpos + 1 := by omega
  simp only [Taint.run, decodeLogits_slide hroom, Taint.call, Call.queue, gemma4KvDecodeLogits,
    slide_dpos, hfree, if_false, Taint.ops, runOp, feed_slide, tick_slide, Taint.spares,
    Taint.after, g4KvStep_slide, slide_idem]
  rfl

/-- A ring keeps the last positions whether the ones before were written or not. -/
theorem sinkLayer_eq {toks : List T} {l : Nat} (howner : g.isOwner l = true) (m : Nat → R) :
    sinkLayer K g l ((flat K g toks g.nl).rows l) m =
      UndoLog.writeUp (g.slot l) (flatRow K g toks l) 0 toks.length m := by
  simp only [sinkLayer, flat_rows_length howner (Geometry.lt_nl_of_isOwner howner)]
  cases hringed : g.isRinged l with
  | false => rfl
  | true =>
      have hw := g.ringW_pos hringed
      have hskip := @UndoLog.writeUp_skip _ _ (g.slot l) 0 _ (flatRow K g toks l) m toks.length
        (toks.length - g.ringW) (by omega)
        fun p hp _ => ⟨p + g.ringW, by omega, by omega, by
          simp only [Geometry.slot, hringed, if_true]
          exact Nat.add_mod_right p g.ringW⟩
      rw [Nat.zero_add] at hskip
      exact hskip

/-- After the slide of the next step the two sessions differ in the cells of `Taint.ofBatch`. -/
theorem batch_shadowed {toks : List T} (hdpos : s.dpos = 0) (hcommit : s.commitPos = 0)
    (hidle : s.inj = none) (hfloat : s.bxOn = false) (hne : toks ≠ [])
    (hroom : toks.length ≤ g.pmax) (hcov : g.Suffices toks.length) :
    Shadowed g (Taint.ofBatch toks.length)
      (((Call.prefill toks noFaults).exec K g s).session.slide g)
      ((prefillBatch K g toks s).slide g) := by
  have hstep := @Stepping.prefill _ _ _ K g toks _ hdpos hcommit hidle hfloat hne
    hroom hcov
  have hbatch : (prefillBatch K g toks s).dpos = toks.length := rfl
  have hzero : (prefillBatch K g toks s).commitPos = 0 := hcommit
  refine ⟨⟨?_, ?_, ?_⟩, ?_, ?_, ?_, ?_⟩
  · rw [slide_dpos, slide_dpos, hstep.dpos, hbatch]
  · rw [slide_bxOn, slide_bxOn, hstep.float]
    exact hfloat
  · rintro l howner q q' ⟨rfl, -⟩
    have hcache : (prefillBatch K g toks s).kv l =
        sinkLayer K g l ((flat K g toks g.nl).rows l) (s.kv l) := by
      have hcomputes := (@batchUpTo_computes _ _ _ K g toks s.kv _ (Nat.le_refl g.nl)).cache l
      rw [if_pos ⟨howner, Geometry.lt_nl_of_isOwner howner⟩] at hcomputes
      exact hcomputes
    rw [slide_kv, slide_kv, hstep.kv, if_pos howner, hcache, sinkLayer_eq howner]
  · have hj := g.jmax_pos
    rw [slide_commitPos, slide_commitPos, hzero, hbatch, hstep.dpos, hstep.commitPos]
    simp only [Session.slides, hbatch, hzero, hstep.dpos, hstep.commitPos]
    by_cases hw : 0 < g.ringW
    · simp only [hw, true_and, if_true]
      split <;> split <;> omega
    · simp only [hw, false_and, if_false]
  · intro l j _ _ hclean
    cases hclean
  · intro q hclean
    have hq : q ≠ toks.length := beq_eq_false_iff_ne.mp hclean
    rw [slide_dseq, slide_dseq, hstep.dseq q hq]
    rfl
  · intro _
    rw [slide_inj, slide_inj, hstep.idle]
    exact hidle

end Behind

/-- The batched prefill of the head of a prompt is as good as the one that steps: after the
decode of the last token and any calls behind it, as long as no rewind takes back a row from
the journal of the prompt's own steps. -/
theorem batched_prefill_transparent (K : Kernels T X R) (g : Geometry) (toks : List T)
    (s : Session T X R) (tok : T) (f : Option Fault) (cs : List (Call T X R))
    (hcold : s.dpos = 0 ∧ s.commitPos = 0) (hidle : s.inj = none) (hfloat : s.bxOn = false)
    (hne : toks ≠ []) (hroom : toks.length + 1 < g.pmax) (hring : g.Suffices toks.length)
    (hcs : ∀ c ∈ cs, c.isForward = true)
    (hspare : (Taint.run K g (.decodeLogits tok f :: cs)
      ((Call.prefill toks noFaults).exec K g s).session
      (Taint.ofBatch toks.length)).isSome = true) :
    observations K g (.decodeLogits tok f :: cs) (prefillBatch K g toks s) =
      observations K g (.decodeLogits tok f :: cs)
        ((Call.prefill toks noFaults).exec K g s).session := by
  have hstep := @Stepping.prefill _ _ _ K g toks _ hcold.1 hcold.2 hidle hfloat hne
    (by omega) hring
  have hroom' : ((Call.prefill toks noFaults).exec K g s).session.dpos + 1 < g.pmax := by
    rw [hstep.dpos]
    exact hroom
  have hshadow := @batch_shadowed _ _ _ K g s toks hcold.1 hcold.2 hidle hfloat hne (by omega) hring
  rw [← observations_slide hroom', ← observations_slide (s := prefillBatch K g toks s) hroom]
  refine hshadow.run _ ?_ (by rw [taint_slide hroom']; exact hspare)
  intro c hc
  rcases List.mem_cons.mp hc with rfl | hc
  · rfl
  · exact hcs c hc

/-- Every position adds what it sees, so that a row read in another's place shows. -/
def addKernels : Kernels Nat Nat Nat where
  embed tok := tok
  ple _ _ x := x
  kvRow _ l pos x := x + pos + 8 * l
  layer _ _ _ x rows := x + rows.sum
  argmax _ x := x % 8
  batchRow _ _ _ _ := 0
  attenuate _ r := r
  zero := 0

theorem batched_prefill_transparent_three :
    observations addKernels (soloGeometry 2 8 2 4 (by decide) (by decide))
        [.decodeLogits 4 none, .decode 1 noFaults, .rewind 1]
        (prefillBatch addKernels (soloGeometry 2 8 2 4 (by decide) (by decide)) [1, 2, 3]
          (Session.opened (fun _ => 0) (fun _ _ => 100) (fun _ _ => 200))) =
      observations addKernels (soloGeometry 2 8 2 4 (by decide) (by decide))
        [.decodeLogits 4 none, .decode 1 noFaults, .rewind 1]
        ((Call.prefill [1, 2, 3] noFaults).exec addKernels
          (soloGeometry 2 8 2 4 (by decide) (by decide))
          (Session.opened (fun _ => 0) (fun _ _ => 100) (fun _ _ => 200))).session :=
  batched_prefill_transparent addKernels (soloGeometry 2 8 2 4 (by decide) (by decide)) [1, 2, 3]
    _ 4 none _ ⟨rfl, rfl⟩ rfl rfl (by decide) (by decide) (Or.inr (Or.inl (Nat.le_refl 2)))
    (by decide) (by decide)

end ShannonPrime.Kv
