import ShannonPrime.Lib.ProbeRemoval
import ShannonPrime.Lib.Recency

/-!
The cache of blocks that have been read or written, by their offsets: a slab of slots, a hash
table from offsets to slots, and the slots in the order of their last use.
-/

namespace ShannonPrime.Cpu

open LinearProbe Recency

abbrev Block := List UInt8

/-- The splitmix64 finalizer. -/
def bcHash64 (x : UInt64) : UInt32 :=
  let x := (x ^^^ (x >>> 30)) * 0xBF58476D1CE4E5B9
  let x := (x ^^^ (x >>> 27)) * 0x94D049BB133111EB
  (x ^^^ (x >>> 31)).toUInt32

/-- A cell of the hash table has a slot or nothing (in the source the slot and one, or 0). -/
structure BlkCache where
  slab : Nat → Block
  off : Nat → UInt64
  hash : Nat → Option Nat
  lru : Links Nat
  nslot : Nat
  hcap : Nat
  used : Nat
  hits : Nat
  misses : Nat

namespace BlkCache

def home (c : BlkCache) (off : UInt64) : Nat := (bcHash64 off).toNat &&& (c.hcap - 1)

/-- An empty cache of so many slots. The arrays come with arbitrary contents. -/
def new (junk : BlkCache) (nslot : Nat) : BlkCache :=
  { junk with
    hash := fun _ => none
    lru := { junk.lru with head := none, tail := none }
    nslot := nslot
    hcap := doubled (nslot * 2) (2 ^ 0) (nslot * 2)
    used := 0
    hits := 0
    misses := 0 }

/-- With fewer than eight slots there is no cache. -/
def init (junk : BlkCache) (bytes blk : Nat) : BlkCache :=
  if bytes / blk < 8 then new junk 0 else new junk (bytes / blk)

/-- `bc_find`: the slot of an offset. -/
def find (c : BlkCache) (off : UInt64) : Option Nat :=
  if c.nslot = 0 then none else get c.hcap c.home c.off c.hash off

def touch (c : BlkCache) (s : Nat) : BlkCache := { c with lru := Recency.touch c.lru s }

def hashRemove (c : BlkCache) (off : UInt64) : BlkCache :=
  { c with hash := remove c.hcap c.home c.off c.hash off }

/-- A slot that is free: the next one that has not been used, or that of the block used longest
ago, which leaves. -/
def claim (c : BlkCache) : BlkCache × Nat :=
  if c.used < c.nslot then ({ c with used := c.used + 1 }, c.used)
  else
    let s := c.lru.tail.getD 0
    let c := { c with lru := unlink c.lru s }
    (c.hashRemove (c.off s), s)

/-- A free slot gets a block. -/
def fill (c : BlkCache) (s : Nat) (off : UInt64) (data : Block) : BlkCache :=
  let c := { c with
    off := Function.update c.off s off
    slab := Function.update c.slab s data }
  { c with
    hash := insert c.hcap c.home c.off c.hash s
    lru := pushFront c.lru s }

/-- `bc_put`: the block of an offset is updated, or goes into a free slot. -/
def put (c : BlkCache) (off : UInt64) (data : Block) : BlkCache :=
  if c.nslot = 0 then c
  else
    match c.find off with
    | some s => { c with slab := Function.update c.slab s data }.touch s
    | none => c.claim.1.fill c.claim.2 off data

/-! ## The invariant -/

/-- The slots in use are those in the table and in the order of use, under different offsets,
and each has the block that its offset is read as. -/
structure Valid (c : BlkCache) (read : UInt64 → Option Block) (order : List Nat) : Prop where
  good : Good c.hcap c.home c.off c.hash
  room : c.nslot < c.hcap
  used_le : c.used ≤ c.nslot
  load : load c.hcap c.hash = c.used
  slots : ∀ s, (∃ i, c.hash i = some s) ↔ s < c.used
  lru : Represents c.lru order
  order : ∀ s, s ∈ order ↔ s < c.used
  blocks : ∀ s < c.used, read (c.off s) = some (c.slab s)

/-- A cache that is on is valid. -/
def Coherent (c : BlkCache) (read : UInt64 → Option Block) : Prop :=
  0 < c.nslot → ∃ order, c.Valid read order

variable {c : BlkCache} {read read' : UInt64 → Option Block} {order : List Nat} {s : Nat}
variable {off : UInt64} {data : Block}

theorem home_lt (hcap : 0 < c.hcap) (off : UInt64) : c.home off < c.hcap := by
  have hle : c.home off ≤ c.hcap - 1 := Nat.and_le_right
  omega

theorem coherent_new (junk : BlkCache) (nslot : Nat) (read : UInt64 → Option Block) :
    (new junk nslot).Coherent read := by
  intro hpos
  have hpos' : 0 < nslot := hpos
  obtain ⟨hone, htarget⟩ := le_doubled (nslot * 2) (2 ^ 0) (nslot * 2) Nat.one_pos (by omega)
  have hcap : 0 < (new junk nslot).hcap := hone
  refine ⟨[], good_empty (home_lt hcap) hcap, ?_, Nat.zero_le _, load_empty _, ?_, ?_, ?_, ?_⟩
  · change nslot < doubled (nslot * 2) (2 ^ 0) (nslot * 2)
    omega
  · intro s
    constructor
    · rintro ⟨i, ⟨⟩⟩
    · intro hs
      exact absurd hs (Nat.not_lt_zero s)
  · exact ⟨List.nodup_nil, rfl, rfl, trivial⟩
  · intro s
    constructor
    · rintro ⟨⟩
    · intro hs
      exact absurd hs (Nat.not_lt_zero s)
  · intro s hs
    exact absurd hs (Nat.not_lt_zero s)

theorem coherent_init (junk : BlkCache) (bytes blk : Nat) (read : UInt64 → Option Block) :
    (init junk bytes blk).Coherent read := by
  unfold init
  split <;> exact coherent_new junk _ read

/-- A slot that is found has its offset. -/
theorem Valid.find_some (h : c.Valid read order) (hfind : c.find off = some s) :
    s < c.used ∧ c.off s = off ∧ read off = some (c.slab s) := by
  unfold find at hfind
  split at hfind
  · cases hfind
  · obtain ⟨hkey, hslot⟩ := h.good.get_eq_some.mp hfind
    have hs := (h.slots s).mp hslot
    have hblock := h.blocks s hs
    rw [hkey] at hblock
    exact ⟨hs, hkey, hblock⟩

/-- An offset that is not found is that of no slot. -/
theorem Valid.find_none (h : c.Valid read order) (hon : c.nslot ≠ 0) (hfind : c.find off = none) :
    ∀ s < c.used, c.off s ≠ off := by
  rw [find, if_neg hon, h.good.get_eq_none] at hfind
  intro s hs
  obtain ⟨i, hi⟩ := (h.slots s).mpr hs
  exact hfind i s hi

theorem Valid.off_inj (h : c.Valid read order) {s' : Nat} (hs : s < c.used) (hs' : s' < c.used)
    (hoff : c.off s = c.off s') : s = s' := by
  obtain ⟨i, hi⟩ := (h.slots s).mpr hs
  obtain ⟨j, hj⟩ := (h.slots s').mpr hs'
  rw [h.good.unique i j s s' hi hj hoff, hj, Option.some_inj] at hi
  exact hi.symm

theorem Valid.touch (h : c.Valid read order) (hs : s < c.used) :
    (c.touch s).Valid read (s :: order.erase s) := by
  have hmem : s ∈ order := (h.order s).mpr hs
  refine ⟨h.good, h.room, h.used_le, h.load, h.slots, h.lru.touch hmem, ?_, h.blocks⟩
  intro x
  have horder := h.order x
  by_cases hx : x = s
  · subst hx
    exact ⟨fun _ => hs, fun _ => List.mem_cons_self⟩
  · rw [List.mem_cons, List.mem_erase_of_ne hx, horder]
    exact ⟨fun hor => hor.resolve_left hx, Or.inr⟩

/-- A slot in use gets a new block of its offset. -/
theorem Valid.update (h : c.Valid read order) (hs : s < c.used) (hkey : c.off s = off)
    (hother : ∀ off', off' ≠ off → read' off' = read off') (hread : read' off = some data) :
    ({ c with slab := Function.update c.slab s data } : BlkCache).Valid read' order := by
  refine ⟨h.good, h.room, h.used_le, h.load, h.slots, h.lru, h.order, ?_⟩
  intro x hx
  dsimp only at hx ⊢
  by_cases hxs : x = s
  · subst hxs
    rw [Function.update_self, hkey]
    exact hread
  · rw [Function.update_of_ne hxs, hother]
    · exact h.blocks x hx
    · rw [← hkey]
      exact fun heq => hxs (h.off_inj hx hs heq)

/-- What a slot that has been claimed leaves: the others as they were. -/
structure Claimed (c : BlkCache) (read : UInt64 → Option Block) (order : List Nat) (s : Nat) :
    Prop where
  good : Good c.hcap c.home c.off c.hash
  room : c.nslot < c.hcap
  used_le : c.used ≤ c.nslot
  lt : s < c.used
  load : LinearProbe.load c.hcap c.hash + 1 = c.used
  slots : ∀ x, (∃ i, c.hash i = some x) ↔ x < c.used ∧ x ≠ s
  lru : Represents c.lru order
  order : ∀ x, x ∈ order ↔ x < c.used ∧ x ≠ s
  blocks : ∀ x < c.used, x ≠ s → read (c.off x) = some (c.slab x)

/-- In a full cache the slot at the tail is found under its offset. -/
theorem Valid.tail (h : c.Valid read order) (hon : c.nslot ≠ 0) (hfull : ¬ c.used < c.nslot) :
    ∃ s, c.lru.tail.getD 0 = s ∧ order.getLast? = some s ∧ s ∈ order ∧ s < c.used ∧
      get c.hcap c.home c.off c.hash (c.off s) = some s := by
  have hused := h.used_le
  have hne : order ≠ [] := by
    apply List.ne_nil_of_mem
    exact (h.order 0).mpr (by omega)
  obtain ⟨s, hs⟩ : ∃ s, order.getLast? = some s := ⟨_, List.getLast?_eq_some_getLast hne⟩
  have hmem : s ∈ order := List.mem_of_getLast? hs
  have hlt := (h.order s).mp hmem
  refine ⟨s, ?_, hs, hmem, hlt, h.good.get_eq_some.mpr ⟨rfl, (h.slots s).mpr hlt⟩⟩
  rw [h.lru.tail, hs]
  rfl

theorem Valid.claim (h : c.Valid read order) (hon : c.nslot ≠ 0) :
    c.claim.1.Claimed read (order.erase c.claim.2) c.claim.2 ∧
      ∀ x < c.claim.1.used, x ≠ c.claim.2 → x < c.used ∧ c.claim.1.off x = c.off x ∧
        c.claim.1.slab x = c.slab x := by
  rw [BlkCache.claim]
  split
  · rename_i hlt
    have hless : ∀ x, x < c.used ↔ x < c.used + 1 ∧ x ≠ c.used := by
      intro x
      omega
    have hfresh : c.used ∉ order := fun hmem => Nat.lt_irrefl _ ((h.order _).mp hmem)
    rw [List.erase_of_not_mem hfresh]
    refine ⟨⟨h.good, h.room, hlt, Nat.lt_succ_self _, congrArg (· + 1) h.load, ?_, h.lru,
      ?_, ?_⟩, ?_⟩
    · intro x
      rw [h.slots x]
      exact hless x
    · intro x
      rw [h.order x]
      exact hless x
    · intro x hx hne
      exact h.blocks x ((hless x).mpr ⟨hx, hne⟩)
    · intro x hx hne
      exact ⟨(hless x).mpr ⟨hx, hne⟩, rfl, rfl⟩
  · rename_i hfull
    obtain ⟨s, htail, -, hmem, hlt, hget⟩ := h.tail hon hfull
    obtain ⟨hgood, hload, hslots⟩ := h.good.remove hget
    have hload' := h.load
    simp only [htail]
    refine ⟨⟨hgood, h.room, h.used_le, hlt, ?_, ?_, h.lru.unlink hmem, ?_, ?_⟩,
      fun x hx _ => ⟨hx, rfl, rfl⟩⟩
    · exact hload.trans hload'
    · intro x
      have hx := hslots x
      rw [h.slots x] at hx
      exact hx.trans and_comm
    · intro x
      rw [h.lru.nodup.mem_erase_iff, h.order x]
      exact and_comm
    · intro x hx _
      exact h.blocks x hx

/-- The claimed slot gets a block of an offset that no other has. -/
theorem Claimed.fill (h : c.Claimed read order s) (hnew : ∀ x < c.used, x ≠ s → c.off x ≠ off)
    (hother : ∀ off', off' ≠ off → read' off' = read off') (hread : read' off = some data) :
    (c.fill s off data).Valid read' (s :: order) := by
  have hcells : ∀ i x, c.hash i = some x → Function.update c.off s off x = c.off x := by
    intro i x hi
    exact Function.update_of_ne ((h.slots x).mp ⟨i, hi⟩).2 _ _
  have hgood : Good c.hcap c.home (Function.update c.off s off) c.hash := h.good.congr_key hcells
  have hused := h.used_le
  have hroom := h.room
  have hload := h.load
  have hnone : get c.hcap c.home (Function.update c.off s off) c.hash
      (Function.update c.off s off s) = none := by
    rw [hgood.get_eq_none, Function.update_self]
    intro i x hi
    obtain ⟨hx, hne⟩ := (h.slots x).mp ⟨i, hi⟩
    rw [hcells i x hi]
    exact hnew x hx hne
  obtain ⟨hgood', hload', hslots⟩ := hgood.insert hnone (by omega)
  have hs : s ∉ order := fun hmem => ((h.order s).mp hmem).2 rfl
  have hless : ∀ x, x = s ∨ (x < c.used ∧ x ≠ s) ↔ x < c.used := by
    intro x
    have hlt := h.lt
    constructor
    · rintro (rfl | ⟨hx, -⟩)
      · exact hlt
      · exact hx
    · intro hx
      by_cases hxs : x = s
      · exact Or.inl hxs
      · exact Or.inr ⟨hx, hxs⟩
  refine ⟨hgood', h.room, h.used_le, hload'.trans hload, ?_, h.lru.pushFront hs, ?_, ?_⟩
  · intro x
    exact (hslots x).trans ((or_congr_right (h.slots x)).trans (hless x))
  · intro x
    rw [List.mem_cons, h.order x]
    exact hless x
  · intro x hx
    dsimp only [BlkCache.fill] at hx ⊢
    by_cases hxs : x = s
    · subst hxs
      rw [Function.update_self, Function.update_self]
      exact hread
    · rw [Function.update_of_ne hxs, Function.update_of_ne hxs, hother _ (hnew x hx hxs)]
      exact h.blocks x hx hxs

/-- A block that is found is the one that its offset is read as. -/
theorem Coherent.find_some (h : c.Coherent read) (hfind : c.find off = some s) :
    read off = some (c.slab s) ∧ (c.touch s).Coherent read := by
  have hon : c.nslot ≠ 0 := by
    intro hoff
    rw [find, if_pos hoff] at hfind
    cases hfind
  obtain ⟨order, hvalid⟩ := h (Nat.pos_of_ne_zero hon)
  obtain ⟨hs, -, hread⟩ := hvalid.find_some hfind
  exact ⟨hread, fun _ => ⟨_, hvalid.touch hs⟩⟩

/-- The counters do not matter. -/
theorem Coherent.count (h : c.Coherent read) (hits misses : Nat) :
    Coherent { c with hits := hits, misses := misses } read := by
  intro hpos
  obtain ⟨order, hv⟩ := h hpos
  exact ⟨order, hv.good, hv.room, hv.used_le, hv.load, hv.slots, hv.lru, hv.order, hv.blocks⟩

/-- After a block has gone in, and been written if it is not the one that was there. -/
theorem Coherent.put (h : c.Coherent read)
    (hother : ∀ off', off' ≠ off → read' off' = read off') (hread : read' off = some data) :
    (c.put off data).Coherent read' := by
  intro hpos
  rw [BlkCache.put] at hpos ⊢
  split at hpos
  · rename_i hoff
    rw [hoff] at hpos
    cases hpos
  · rename_i hon
    rw [if_neg hon]
    obtain ⟨order, hvalid⟩ := h (Nat.pos_of_ne_zero hon)
    cases hfind : c.find off with
    | some s =>
        obtain ⟨hs, hkey, -⟩ := hvalid.find_some hfind
        exact ⟨_, (hvalid.update hs hkey hother hread).touch hs⟩
    | none =>
        obtain ⟨hclaimed, hsame⟩ := hvalid.claim hon
        have hnew := hvalid.find_none hon hfind
        refine ⟨_, hclaimed.fill (fun x hx hne => ?_) hother hread⟩
        obtain ⟨hlt, hoff, -⟩ := hsame x hx hne
        rw [hoff]
        exact hnew x hlt

end BlkCache

end ShannonPrime.Cpu
