import Mathlib.Data.Fin.VecNotation
import ShannonPrime.Cpu.BlockCache
import ShannonPrime.Lib.Traverse
import ShannonPrime.Lib.BlockFile

/-!
The backend of the second ring: two stores of blocks, one for each stream, each behind a cache
that is written through. With the caches or without them, every read delivers the same blocks.
-/

namespace ShannonPrime.Cpu.Ring2

/-- A store of blocks by their offsets. A write that fails leaves the store as it was; a read
that fails has no outcome. -/
structure BlockStore (D : Type*) where
  write : D → UInt64 → Block → Option D
  read : D → UInt64 → Option Block
  read_write : ∀ {d d' : D} {off : UInt64} {data : Block}, write d off data = some d' →
    ∀ off', read d' off' = if off' = off then some data else read d off'

/-- The stores of the two streams, the sizes of their blocks and their caches. -/
structure OptaneBe (D : Type*) where
  r : Fin 2 → D
  blk : Fin 2 → Nat
  cache : Fin 2 → BlkCache

def streamOf (which : Int) : Option (Fin 2) :=
  if which = 0 then some 0 else if which = 1 then some 1 else none

/-- What a call delivers when it returns 0: a block, or nothing, for each request. -/
abbrev Delivered := Option (List (Option Block))

section Calls

variable {D : Type*} (S : BlockStore D)

def OptaneBe.setCache (b : OptaneBe D) (w : Fin 2) (c : BlkCache) : OptaneBe D :=
  { b with cache := Function.update b.cache w c }

/-- Through to the store, and into the cache. -/
def obeWrite (b : OptaneBe D) (which : Int) (off : UInt64) (src : Block) :
    Delivered × OptaneBe D :=
  match streamOf which with
  | none => (none, b)
  | some w =>
      if src.length ≠ b.blk w then (none, b)
      else
        match S.write (b.r w) off src with
        | none => (none, b)
        | some d =>
            let b := { b with r := Function.update b.r w d }
            (some [], b.setCache w ((b.cache w).put off src))

def obeRead (b : OptaneBe D) (which : Int) (off : UInt64) (len : Nat) : Delivered × OptaneBe D :=
  match streamOf which with
  | none => (none, b)
  | some w =>
      if len ≠ b.blk w then (none, b)
      else
        let c := b.cache w
        match c.find off with
        | some s => (some [some (c.slab s)], b.setCache w { c.touch s with hits := c.hits + 1 })
        | none =>
            match S.read (b.r w) off with
            | none => (none, b)
            | some p =>
                if c.nslot = 0 then (some [some p], b)
                else
                  let c := c.put off p
                  (some [some p], b.setCache w { c with misses := c.misses + 1 })

/-- All from the stores, stream by stream; requests of neither stream are left out. -/
def obeReadBatch (b : OptaneBe D) (reqs : List (Int × UInt64)) (len : Nat) :
    Delivered × OptaneBe D :=
  (reqs.mapM fun req =>
    match streamOf req.1 with
    | none => some none
    | some w => if len ≠ b.blk w then none else (S.read (b.r w) req.2).map some, b)

/-- A request that the cache has served, or one that is left for the device. -/
inductive Slot where
  | hit (data : Block)
  | miss (w : Fin 2) (off : UInt64)

/-- One request against the cache. -/
def probe (b : OptaneBe D) (w : Fin 2) (off : UInt64) : OptaneBe D × Slot :=
  let c := b.cache w
  match c.find off with
  | some s => (b.setCache w { c.touch s with hits := c.hits + 1 }, .hit (c.slab s))
  | none =>
      (if c.nslot = 0 then b else b.setCache w { c with misses := c.misses + 1 }, .miss w off)

/-- The requests in their order, until one that is refused. -/
def probeAll (len : Fin 2 → Nat) : OptaneBe D → List (Int × UInt64) →
    OptaneBe D × Option (List Slot)
  | b, [] => (b, some [])
  | b, req :: reqs =>
      match streamOf req.1 with
      | none => (b, none)
      | some w =>
          if len w ≠ b.blk w then (b, none)
          else
            let rest := probeAll len (probe b w req.2).1 reqs
            (rest.1, rest.2.map fun slots => (probe b w req.2).2 :: slots)

/-- What the request's buffer has when the device's batches are done. -/
def deliver (r : Fin 2 → D) : Slot → Option Block
  | .hit data => some data
  | .miss w off => S.read (r w) off

/-- The blocks that a stream's device batch has read, in the order of the requests. -/
def missesOf (w : Fin 2) (done : List (Slot × Block)) : List (UInt64 × Block) :=
  done.filterMap fun x =>
    match x.1 with
    | .hit _ => none
    | .miss w' off => if w' = w then some (off, x.2) else none

def insertMisses (b : OptaneBe D) (done : List (Slot × Block)) : OptaneBe D :=
  { b with cache := fun w =>
      (missesOf w done).foldl (fun c x => c.put x.1 x.2) (b.cache w) }

/-- Hits from the caches, misses from the two devices, which go into the caches when all of
them have been read. -/
def obeReadBatch2 (b : OptaneBe D) (reqs : List (Int × UInt64)) (len : Fin 2 → Nat) :
    Delivered × OptaneBe D :=
  match probeAll len b reqs with
  | (b, none) => (none, b)
  | (b, some slots) =>
      match slots.mapM (deliver S b.r) with
      | none => (none, b)
      | some blocks => (some (blocks.map some), insertMisses b (slots.zip blocks))

inductive Call where
  | write (which : Int) (off : UInt64) (src : Block)
  | read (which : Int) (off : UInt64) (len : Nat)
  | readBatch (reqs : List (Int × UInt64)) (len : Nat)
  | readBatch2 (reqs : List (Int × UInt64)) (len : Fin 2 → Nat)

def step (b : OptaneBe D) : Call → Delivered × OptaneBe D
  | .write which off src => obeWrite S b which off src
  | .read which off len => obeRead S b which off len
  | .readBatch reqs len => obeReadBatch S b reqs len
  | .readBatch2 reqs len => obeReadBatch2 S b reqs len

/-- What a sequence of calls delivers, one after the other. -/
def run (b : OptaneBe D) : List Call → List Delivered
  | [] => []
  | call :: calls => (step S b call).1 :: run (step S b call).2 calls

/-! ## The stores alone -/

/-- A call on the stores themselves. -/
def direct (blk : Fin 2 → Nat) (r : Fin 2 → D) : Call → Delivered × (Fin 2 → D)
  | .write which off src =>
      match streamOf which with
      | none => (none, r)
      | some w =>
          if src.length ≠ blk w then (none, r)
          else
            match S.write (r w) off src with
            | none => (none, r)
            | some d => (some [], Function.update r w d)
  | .read which off len =>
      ((streamOf which).bind fun w =>
        if len ≠ blk w then none else (S.read (r w) off).map fun p => [some p], r)
  | .readBatch reqs len =>
      (reqs.mapM fun req =>
        match streamOf req.1 with
        | none => some none
        | some w => if len ≠ blk w then none else (S.read (r w) req.2).map some, r)
  | .readBatch2 reqs len =>
      ((reqs.mapM fun req => (streamOf req.1).bind fun w =>
        if len w ≠ blk w then none else S.read (r w) req.2).map fun blocks => blocks.map some, r)

def directRun (blk : Fin 2 → Nat) (r : Fin 2 → D) : List Call → List Delivered
  | [] => []
  | call :: calls =>
      (direct S blk r call).1 :: directRun blk (direct S blk r call).2 calls

end Calls

/-! ## Every call delivers what the stores have -/

section Refinement

variable {D : Type*} {S : BlockStore D} {b : OptaneBe D} {w : Fin 2} {c : BlkCache}
variable {off : UInt64}

variable (S) in
/-- Both caches have what their stores have. -/
def Coherent (b : OptaneBe D) : Prop := ∀ w, (b.cache w).Coherent (S.read (b.r w))

theorem Coherent.setCache (h : Coherent S b) (hc : c.Coherent (S.read (b.r w))) :
    Coherent S (b.setCache w c) := by
  intro w'
  by_cases hw : w' = w
  · subst hw
    simp only [OptaneBe.setCache, Function.update_self]
    exact hc
  · simp only [OptaneBe.setCache, Function.update_of_ne hw]
    exact h w'

variable (S) in
/-- The call has delivered what the stores have, and left them as it leaves the stores. -/
structure Direct (b : OptaneBe D) (call : Call) (res : Delivered × OptaneBe D) : Prop where
  delivered : res.1 = (direct S b.blk b.r call).1
  stores : res.2.r = (direct S b.blk b.r call).2
  blk : res.2.blk = b.blk
  coherent : Coherent S res.2

theorem obeWrite_direct (h : Coherent S b) (which : Int) (off : UInt64) (src : Block) :
    Direct S b (.write which off src) (obeWrite S b which off src) := by
  rw [obeWrite]
  cases hw : streamOf which with
  | none => exact ⟨by simp only [direct, hw], by simp only [direct, hw], rfl, h⟩
  | some w =>
      by_cases hlen : src.length = b.blk w
      · cases hwrite : S.write (b.r w) off src with
        | none =>
            simp only [hlen, hwrite, ne_eq, not_true_eq_false, if_false]
            exact ⟨by simp [direct, hw, hlen, hwrite], by simp [direct, hw, hlen, hwrite], rfl, h⟩
        | some d =>
            simp only [hlen, hwrite, ne_eq, not_true_eq_false, if_false]
            refine ⟨by simp [direct, hw, hlen, hwrite], by simp [direct, hw, hlen, hwrite,
              OptaneBe.setCache], rfl, ?_⟩
            have hread := S.read_write hwrite
            intro w'
            by_cases hww : w' = w
            · subst hww
              simp only [OptaneBe.setCache, Function.update_self]
              apply (h w').put
              · intro off' hne
                rw [hread, if_neg hne]
              · rw [hread, if_pos rfl]
            · simp only [OptaneBe.setCache, Function.update_of_ne hww]
              exact h w'
      · simp only [ne_eq, hlen, not_false_eq_true, if_true]
        exact ⟨by simp [direct, hw, hlen], by simp [direct, hw, hlen], rfl, h⟩

theorem obeRead_direct (h : Coherent S b) (which : Int) (off : UInt64) (len : Nat) :
    Direct S b (.read which off len) (obeRead S b which off len) := by
  rw [obeRead]
  cases hw : streamOf which with
  | none => exact ⟨by simp only [direct, hw, Option.bind_none], rfl, rfl, h⟩
  | some w =>
      by_cases hlen : len = b.blk w
      · simp only [hlen, ne_eq, not_true_eq_false, if_false]
        cases hfind : (b.cache w).find off with
        | some s =>
            obtain ⟨hread, htouch⟩ := (h w).find_some hfind
            refine ⟨by simp [direct, hw, hread], rfl, rfl, h.setCache ?_⟩
            exact htouch.count _ _
        | none =>
            cases hread : S.read (b.r w) off with
            | none => exact ⟨by simp [direct, hw, hread], rfl, rfl, h⟩
            | some p =>
                dsimp only
                split
                · exact ⟨by simp [direct, hw, hread], rfl, rfl, h⟩
                · refine ⟨by simp [direct, hw, hread], rfl, rfl, h.setCache ?_⟩
                  exact ((h w).put (fun _ _ => rfl) hread).count _ _
      · simp only [ne_eq, hlen, not_false_eq_true, if_true]
        exact ⟨by simp [direct, hw, hlen], rfl, rfl, h⟩

theorem obeReadBatch_direct (h : Coherent S b) (reqs : List (Int × UInt64)) (len : Nat) :
    Direct S b (.readBatch reqs len) (obeReadBatch S b reqs len) := ⟨rfl, rfl, rfl, h⟩

/-! ### The batch over both streams -/

/-- A request is a hit of what the store has, or a miss. -/
theorem probe_spec (h : Coherent S b) (w : Fin 2) (off : UInt64) :
    Coherent S (probe b w off).1 ∧ (probe b w off).1.r = b.r ∧ (probe b w off).1.blk = b.blk ∧
      deliver S b.r (probe b w off).2 = S.read (b.r w) off := by
  rw [probe]
  cases hfind : (b.cache w).find off with
  | some s =>
      obtain ⟨hread, htouch⟩ := (h w).find_some hfind
      exact ⟨h.setCache (htouch.count _ _), rfl, rfl, hread.symm⟩
  | none =>
      dsimp only
      split
      · exact ⟨h, rfl, rfl, rfl⟩
      · exact ⟨h.setCache ((h w).count _ _), rfl, rfl, rfl⟩

theorem probeAll_spec (h : Coherent S b) (len : Fin 2 → Nat) (reqs : List (Int × UInt64)) :
    Coherent S (probeAll len b reqs).1 ∧ (probeAll len b reqs).1.r = b.r ∧
      (probeAll len b reqs).1.blk = b.blk ∧
      (probeAll len b reqs).2.bind (fun slots => slots.mapM (deliver S b.r)) =
        reqs.mapM fun req => (streamOf req.1).bind fun w =>
          if len w ≠ b.blk w then none else S.read (b.r w) req.2 := by
  induction reqs generalizing b with
  | nil => exact ⟨h, rfl, rfl, rfl⟩
  | cons req reqs ih =>
      rw [probeAll, List.mapM_cons]
      cases hw : streamOf req.1 with
      | none => exact ⟨h, rfl, rfl, rfl⟩
      | some w =>
          dsimp only
          by_cases hlen : len w = b.blk w
          · obtain ⟨hcoh, hr, hblk, hone⟩ := probe_spec h w req.2
            obtain ⟨hcoh', hr', hblk', hall⟩ := ih hcoh
            rw [if_neg (not_not.mpr hlen)]
            refine ⟨hcoh', hr'.trans hr, hblk'.trans hblk, ?_⟩
            rw [hr, hblk] at hall
            rw [Option.bind_some, if_neg (not_not.mpr hlen), ← hall, ← hone]
            cases (probeAll len (probe b w req.2).1 reqs).2 with
            | none => cases deliver S b.r (probe b w req.2).2 <;> rfl
            | some slots => exact List.mapM_cons
          · rw [if_pos hlen, Option.bind_some, if_pos hlen]
            exact ⟨h, rfl, rfl, rfl⟩

theorem coherent_foldl {read : UInt64 → Option Block} {l : List (UInt64 × Block)}
    (hc : c.Coherent read) (hl : ∀ x ∈ l, read x.1 = some x.2) :
    (l.foldl (fun c x => c.put x.1 x.2) c).Coherent read := by
  induction l generalizing c with
  | nil => exact hc
  | cons x l ih =>
      apply ih
      · exact hc.put (fun _ _ => rfl) (hl x List.mem_cons_self)
      · exact fun y hy => hl y (List.mem_cons_of_mem _ hy)

theorem insertMisses_coherent (h : Coherent S b) {done : List (Slot × Block)}
    (hdone : ∀ x ∈ done, deliver S b.r x.1 = some x.2) : Coherent S (insertMisses b done) := by
  intro w
  apply coherent_foldl (h w)
  intro x hx
  obtain ⟨⟨slot, data⟩, hmem, hx⟩ := List.mem_filterMap.mp hx
  have hread := hdone _ hmem
  cases slot with
  | hit data => cases hx
  | miss w' off =>
      dsimp only at hx
      split at hx
      · rename_i hww
        cases hx
        rw [← hww]
        exact hread
      · cases hx

theorem obeReadBatch2_direct (h : Coherent S b) (reqs : List (Int × UInt64))
    (len : Fin 2 → Nat) : Direct S b (.readBatch2 reqs len) (obeReadBatch2 S b reqs len) := by
  obtain ⟨hcoh, hr, hblk, hall⟩ := probeAll_spec h len reqs
  rw [obeReadBatch2]
  have hsplit : probeAll len b reqs = ((probeAll len b reqs).1, (probeAll len b reqs).2) := rfl
  rw [hsplit]
  generalize (probeAll len b reqs).1 = b₁ at hcoh hr hblk
  cases hslots : (probeAll len b reqs).2 with
  | none =>
      rw [hslots, Option.bind_none] at hall
      exact ⟨by simp only [direct, ← hall, Option.map_none], hr, hblk, hcoh⟩
  | some slots =>
      rw [hslots, Option.bind_some, ← hr] at hall
      dsimp only
      cases hblocks : slots.mapM (deliver S b₁.r) with
      | none =>
          rw [hblocks, hr] at hall
          exact ⟨by simp only [direct, ← hall, Option.map_none], hr, hblk, hcoh⟩
      | some blocks =>
          rw [hblocks, hr] at hall
          refine ⟨by simp only [direct, ← hall, Option.map_some], hr, hblk, ?_⟩
          exact insertMisses_coherent hcoh (Traverse.mapM_zip hblocks)

theorem step_direct (h : Coherent S b) (call : Call) : Direct S b call (step S b call) := by
  cases call with
  | write which off src => exact obeWrite_direct h which off src
  | read which off len => exact obeRead_direct h which off len
  | readBatch reqs len => exact obeReadBatch_direct h reqs len
  | readBatch2 reqs len => exact obeReadBatch2_direct h reqs len

/-- Any sequence of calls delivers what the stores have. -/
theorem run_direct (h : Coherent S b) (calls : List Call) :
    run S b calls = directRun S b.blk b.r calls := by
  induction calls generalizing b with
  | nil => rfl
  | cons call calls ih =>
      have hstep := step_direct h call
      rw [run, directRun, ih hstep.coherent, hstep.delivered, hstep.stores, hstep.blk]

/-- A backend with caches of so many slots, none of them in use. -/
def opened (r : Fin 2 → D) (blk : Fin 2 → Nat) (junk : Fin 2 → BlkCache) (nslot : Fin 2 → Nat) :
    OptaneBe D := ⟨r, blk, fun w => .new (junk w) (nslot w)⟩

/-- With caches of whatever size every call delivers what it does without them. -/
theorem cache_transparent (S : BlockStore D) (r : Fin 2 → D) (blk : Fin 2 → Nat)
    (junk : Fin 2 → BlkCache) (nslot : Fin 2 → Nat) (calls : List Call) :
    run S (opened r blk junk nslot) calls = run S (opened r blk junk fun _ => 0) calls := by
  have hopened : ∀ nslot, Coherent S (opened r blk junk nslot) := by
    intro nslot w
    exact BlkCache.coherent_new _ _ _
  rw [run_direct (hopened nslot), run_direct (hopened fun _ => 0)]
  rfl

end Refinement

/-- A store in memory that takes every write. -/
def memory : BlockStore (UInt64 → Option Block) where
  write d off data := some (Function.update d off (some data))
  read d off := d off
  read_write := by
    intro d d' off data hwrite off'
    cases hwrite
    rw [Function.update_apply]

def emptyCache : BlkCache :=
  ⟨fun _ => [], fun _ => 0, fun _ => none, ⟨fun _ => none, fun _ => none, none, none⟩, 0, 0, 0, 0, 0⟩

/-- A block is written, and read back alone and next to one of the other stream. -/
theorem cache_transparent_memory :
    run memory (opened (fun _ _ => some [7]) (fun _ => 1) (fun _ => emptyCache) fun _ => 1)
        [.write 0 64 [1], .read 0 64 1, .readBatch2 [(0, 64), (1, 0)] fun _ => 1] =
      run memory (opened (fun _ _ => some [7]) (fun _ => 1) (fun _ => emptyCache) fun _ => 0)
        [.write 0 64 [1], .read 0 64 1, .readBatch2 [(0, 64), (1, 0)] fun _ => 1] :=
  cache_transparent memory _ _ _ (fun _ => 1) _

end ShannonPrime.Cpu.Ring2

/-!
One stream's file of blocks (`ring2_disk.c`). Its callers keep to whole blocks within the size
that the file is opened with, and to them it is a store of blocks.
-/

namespace ShannonPrime.Cpu.Ring2

open BlockFile

/-- `ring2_disk`, of which the backend uses one file. The file never shrinks below the size it
is opened with. -/
structure Ring2Disk where
  block : Nat
  capacity : Nat
  file : File
  block_pos : 0 < block
  presized : capacity ≤ file.size

def ring2DiskOpen (bytesPerFile blockBytes : Nat) : Option Ring2Disk :=
  if h : 0 < blockBytes then
    some ⟨blockBytes, bytesPerFile, presized bytesPerFile, h, Nat.le_refl _⟩
  else none

/-- `src` is one block. -/
def ring2DiskWrite (r : Ring2Disk) (off : UInt64) (src : Block) : Ring2Disk :=
  { r with
    file := pwrite r.file off.toNat src
    presized := r.presized.trans (Nat.le_max_left _ _) }

def ring2DiskRead (r : Ring2Disk) (off : UInt64) : Option Block :=
  if (pread r.file off.toNat r.block).length = r.block then
    some (pread r.file off.toNat r.block)
  else none

/-- A whole block within the size that the file is opened with. -/
def InBlocks (block capacity : Nat) (off : UInt64) : Prop :=
  block ∣ off.toNat ∧ off.toNat + block ≤ capacity

instance (block capacity : Nat) (off : UInt64) : Decidable (InBlocks block capacity off) :=
  inferInstanceAs (Decidable (_ ∧ _))

/-- The file as a store to callers that keep to its blocks; no other call is made. -/
def diskStore : BlockStore Ring2Disk where
  write r off src :=
    if InBlocks r.block r.capacity off ∧ src.length = r.block then some (ring2DiskWrite r off src)
    else none
  read r off := if InBlocks r.block r.capacity off then ring2DiskRead r off else none
  read_write := by
    intro r r' off src hwrite off'
    split at hwrite
    · rename_i hcall
      obtain ⟨⟨hdvd, hfits⟩, hlen⟩ := hcall
      cases hwrite
      have hblock : (ring2DiskWrite r off src).block = r.block := rfl
      have hcapacity : (ring2DiskWrite r off src).capacity = r.capacity := rfl
      have hfile : (ring2DiskWrite r off src).file = pwrite r.file off.toNat src := rfl
      rw [hblock, hcapacity]
      split
      · rename_i hin
        obtain ⟨hdvd', hfits'⟩ := hin
        have hsize := r.presized
        rw [ring2DiskRead, ring2DiskRead, hblock, hfile]
        split
        · rename_i hall
          split
          · rename_i hsame
            rw [hsame, ← hlen, pread_pwrite]
          · rename_i hother
            have hne : off'.toNat ≠ off.toNat := fun heq => hother (UInt64.toNat_inj.mp heq)
            have hapart := apart_of_dvd hdvd hdvd' hne
            rw [pread_pwrite_apart (by omega) (by rwa [hlen]), if_pos (pread_length (by omega))]
        · rename_i hshort
          refine absurd (pread_length ?_) hshort
          rw [pwrite]
          dsimp only
          omega
      · rename_i hin
        rw [if_neg]
        rintro rfl
        exact hin ⟨hdvd, hfits⟩
    · cases hwrite

variable {r : Ring2Disk} {off : UInt64} {src : Block}

/-- A call that keeps to the blocks is a call on the file. -/
theorem diskStore_write (h : InBlocks r.block r.capacity off) (hlen : src.length = r.block) :
    diskStore.write r off src = some (ring2DiskWrite r off src) := if_pos ⟨h, hlen⟩

theorem diskStore_read (h : InBlocks r.block r.capacity off) :
    diskStore.read r off = ring2DiskRead r off := if_pos h

/-- A block that was never written is read as zeros. -/
theorem ring2DiskOpen_read {bytesPerFile blockBytes : Nat}
    (hopen : ring2DiskOpen bytesPerFile blockBytes = some r)
    (h : InBlocks r.block r.capacity off) :
    diskStore.read r off = some (List.replicate r.block 0) := by
  rw [diskStore_read h]
  rw [ring2DiskOpen] at hopen
  split at hopen
  · cases hopen
    rw [ring2DiskRead, pread_presized h.2, List.length_replicate, if_pos rfl]
  · cases hopen

end ShannonPrime.Cpu.Ring2
