import ShannonPrime.Cpu.BlockCache
import ShannonPrime.Lib.ProbeRemoval

/-!
Runs of the block cache. What it is for is a list of offsets with their blocks, the one used last
first; the slots, the table and the links hold that list after any calls, and none of the loops
over the table runs on.
-/

namespace ShannonPrime.Cpu.BlkCache

open LinearProbe Recency

/-! ## The calls, with no result where a loop does not end -/

def findWithin (c : BlkCache) (off : UInt64) : Option (Option Nat) :=
  if c.nslot = 0 then some none else getWithin c.hcap c.home c.off c.hash off

def claimWithin (c : BlkCache) : Option (BlkCache × Nat) :=
  if c.used < c.nslot then some ({ c with used := c.used + 1 }, c.used)
  else
    let s := c.lru.tail.getD 0
    let c := { c with lru := unlink c.lru s }
    (removeWithin c.hcap c.home c.off c.hash (c.off s)).map fun hash => ({ c with hash := hash }, s)

def fillWithin (c : BlkCache) (s : Nat) (off : UInt64) (data : Block) : Option BlkCache :=
  let c := { c with
    off := Function.update c.off s off
    slab := Function.update c.slab s data }
  (LinearProbe.insertWithin c.hcap c.home c.off c.hash s).map fun hash =>
    { c with hash := hash, lru := pushFront c.lru s }

def putWithin (c : BlkCache) (off : UInt64) (data : Block) : Option BlkCache :=
  if c.nslot = 0 then some c
  else
    (c.findWithin off).bind fun
      | some s => some ({ c with slab := Function.update c.slab s data }.touch s)
      | none => c.claimWithin.bind fun p => p.1.fillWithin p.2 off data

variable {c : BlkCache} {read : UInt64 → Option Block} {order : List Nat} {s : Nat}
variable {off : UInt64} {data : Block}

theorem Valid.findWithin_eq (h : c.Valid read order) (off : UInt64) :
    c.findWithin off = some (c.find off) := by
  rw [findWithin, find]
  split
  · rfl
  · exact h.good.getWithin_eq off

theorem Valid.claimWithin_eq (h : c.Valid read order) (hon : c.nslot ≠ 0) :
    c.claimWithin = some c.claim := by
  rw [claimWithin, BlkCache.claim]
  split
  · rfl
  · rename_i hfull
    obtain ⟨s, htail, -, -, -, hget⟩ := h.tail hon hfull
    simp only [htail]
    have hremove := h.good.removeWithin_eq hget
    change (removeWithin c.hcap c.home c.off c.hash (c.off s)).map _ = _
    rw [hremove]
    rfl

theorem Claimed.fillWithin_eq (h : c.Claimed read order s) (off : UInt64) (data : Block) :
    c.fillWithin s off data = some (c.fill s off data) := by
  obtain ⟨e, he, hfree⟩ := exists_free h.good.room
  have hinsert : LinearProbe.insertWithin c.hcap c.home (Function.update c.off s off) c.hash s =
      some (LinearProbe.insert c.hcap c.home (Function.update c.off s off) c.hash s) :=
    insertWithin_eq h.good.home_lt he hfree s
  rw [fillWithin]
  change (LinearProbe.insertWithin c.hcap c.home (Function.update c.off s off) c.hash s).map _ = _
  rw [hinsert]
  rfl

theorem Valid.putWithin_eq (h : c.Valid read order) (off : UInt64) (data : Block) :
    c.putWithin off data = some (c.put off data) := by
  rw [BlkCache.putWithin, BlkCache.put]
  split
  · rfl
  · rename_i hon
    rw [h.findWithin_eq, Option.bind_some]
    cases c.find off with
    | some s => rfl
    | none =>
        dsimp only
        rw [h.claimWithin_eq hon, Option.bind_some]
        exact (h.claim hon).1.fillWithin_eq off data

/-! ## What the cache is for -/

/-- Offsets and their blocks, the one used last first. -/
abbrev Lru := List (UInt64 × Block)

/-- The entries of all other offsets. -/
def others (off : UInt64) (l : Lru) : Lru := l.filter fun e => e.1 != off

/-- The entry of an offset comes first. -/
def use (off : UInt64) (l : Lru) : Lru := (l.filter fun e => e.1 == off) ++ others off l

/-- A block comes first; of the other entries those used last stay, as many as there is room
for. -/
def store (n : Nat) (off : UInt64) (data : Block) (l : Lru) : Lru :=
  if n = 0 then l else (off, data) :: (others off l).take (n - 1)

/-- What slot `s` has. -/
def entry (c : BlkCache) (s : Nat) : UInt64 × Block := (c.off s, c.slab s)

/-- The slots in their order make up the list. -/
structure Holds (c : BlkCache) (read : UInt64 → Option Block) (order : List Nat) (l : Lru) :
    Prop where
  valid : c.Valid read order
  entries : l = order.map c.entry

theorem Valid.others_eq (h : c.Valid read order) (hs : s < c.used) :
    others (c.off s) (order.map c.entry) = (order.erase s).map c.entry := by
  rw [others, List.filter_map, h.lru.nodup.erase_eq_filter]
  congr 1
  apply List.filter_congr
  intro x hx
  have hxs := (h.order x).mp hx
  rw [Function.comp_apply, entry, Bool.eq_iff_iff, bne_iff_ne, bne_iff_ne]
  constructor
  · rintro hne rfl
    exact hne rfl
  · exact fun hne heq => hne (h.off_inj hxs hs heq)

theorem Valid.own_eq (h : c.Valid read order) (hs : s < c.used) :
    (order.map c.entry).filter (fun e => e.1 == c.off s) = [c.entry s] := by
  have hone : order.filter (fun x => x == s) = [s] := by
    rw [List.filter_beq, List.count_eq_one_of_mem h.lru.nodup ((h.order s).mpr hs)]
    rfl
  rw [List.filter_map]
  have hsame : order.filter ((fun e : UInt64 × Block => e.1 == c.off s) ∘ c.entry) =
      order.filter fun x => x == s := by
    apply List.filter_congr
    intro x hx
    have hxs := (h.order x).mp hx
    rw [Function.comp_apply, entry, Bool.eq_iff_iff, beq_iff_eq, beq_iff_eq]
    exact ⟨h.off_inj hxs hs, fun heq => heq ▸ rfl⟩
  rw [hsame, hone]
  rfl

theorem Valid.others_absent (h : c.Valid read order) (hnone : ∀ s < c.used, c.off s ≠ off) :
    others off (order.map c.entry) = order.map c.entry := by
  rw [others, List.filter_eq_self]
  intro e he
  obtain ⟨s, hs, rfl⟩ := List.mem_map.mp he
  rw [bne_iff_ne]
  exact hnone s ((h.order s).mp hs)

theorem Valid.length (h : c.Valid read order) : order.length = c.used := by
  have hperm : order.Perm (List.range c.used) :=
    (List.perm_ext_iff_of_nodup h.lru.nodup List.nodup_range).mpr fun s =>
      (h.order s).trans List.mem_range.symm
  rw [hperm.length_eq, List.length_range]

theorem Holds.touch {l : Lru} (h : c.Holds read order l) (hs : s < c.used) :
    (c.touch s).Holds read (s :: order.erase s) (use (c.off s) l) := by
  refine ⟨h.valid.touch hs, ?_⟩
  rw [use, h.entries, h.valid.own_eq hs, h.valid.others_eq hs]
  rfl

/-- The slot that is claimed leaves those used last. -/
theorem Valid.claim_order (h : c.Valid read order) (hon : c.nslot ≠ 0) :
    order.erase c.claim.2 = order.take (c.nslot - 1) := by
  have hlen := h.length
  have hused := h.used_le
  rw [BlkCache.claim]
  split
  · have hfresh : c.used ∉ order := fun hmem => Nat.lt_irrefl _ ((h.order _).mp hmem)
    rw [List.erase_of_not_mem hfresh, List.take_of_length_le (by omega)]
  · rename_i hfull
    obtain ⟨s, htail, hlast, -⟩ := h.tail hon hfull
    simp only [htail]
    obtain ⟨front, rfl⟩ := List.getLast?_eq_some_iff.mp hlast
    have hnodup := h.lru.nodup
    rw [List.nodup_append] at hnodup
    have hout : s ∉ front := fun hmem =>
      hnodup.2.2 s hmem s (List.mem_singleton_self s) rfl
    rw [List.length_append, List.length_singleton] at hlen
    rw [List.erase_append_right _ hout, List.erase_cons_head, List.append_nil,
      List.take_left' (by omega)]

/-- A block is put in: the cache holds what the list becomes. -/
theorem Holds.put {l : Lru} (h : c.Holds read order l) (off : UInt64) (data : Block)
    (hon : c.nslot ≠ 0) :
    ∃ order', (c.put off data).Holds (Function.update read off (some data)) order'
      (store c.nslot off data l) := by
  have hlen := h.valid.length
  have hused := h.valid.used_le
  have hother : ∀ off', off' ≠ off → Function.update read off (some data) off' = read off' :=
    fun off' hne => Function.update_of_ne hne _ _
  have hread : Function.update read off (some data) off = some data := Function.update_self _ _ _
  rw [BlkCache.put, store, if_neg hon, if_neg hon, h.entries]
  cases hfind : c.find off with
  | some s =>
      dsimp only
      obtain ⟨hs, hkey, -⟩ := h.valid.find_some hfind
      have hmem : s ∈ order := (h.valid.order s).mpr hs
      refine ⟨s :: order.erase s, (h.valid.update hs hkey hother hread).touch hs, ?_⟩
      have hshort : ((order.erase s).map c.entry).length ≤ c.nslot - 1 := by
        rw [List.length_map, List.length_erase_of_mem hmem]
        omega
      rw [← hkey, h.valid.others_eq hs, List.take_of_length_le hshort, List.map_cons]
      congr 1
      · exact Prod.ext rfl (Function.update_self s data c.slab).symm
      · symm
        apply List.map_congr_left
        intro x hx
        have hxs : x ≠ s := (h.valid.lru.nodup.mem_erase_iff.mp hx).1
        have hslab : Function.update c.slab s data x = c.slab x := Function.update_of_ne hxs _ _
        exact Prod.ext rfl hslab
  | none =>
      dsimp only
      have hnew := h.valid.find_none hon hfind
      obtain ⟨hclaimed, hsame⟩ := h.valid.claim hon
      refine ⟨c.claim.2 :: order.erase c.claim.2, hclaimed.fill (fun x hx hne => ?_) hother hread, ?_⟩
      · obtain ⟨hlt, hoff, -⟩ := hsame x hx hne
        rw [hoff]
        exact hnew x hlt
      · rw [h.valid.others_absent hnew, List.map_cons, h.valid.claim_order hon, List.map_take]
        congr 1
        · exact Prod.ext (Function.update_self c.claim.2 off c.claim.1.off).symm
            (Function.update_self c.claim.2 data c.claim.1.slab).symm
        · rw [← List.map_take, ← List.map_take, ← h.valid.claim_order hon]
          symm
          apply List.map_congr_left
          intro x hx
          obtain ⟨hlt, hne⟩ := (hclaimed.order x).mp hx
          obtain ⟨-, hoff, hslab⟩ := hsame x hlt hne
          have hoff' : Function.update c.claim.1.off c.claim.2 off x = c.claim.1.off x :=
            Function.update_of_ne hne _ _
          have hslab' : Function.update c.claim.1.slab c.claim.2 data x = c.claim.1.slab x :=
            Function.update_of_ne hne _ _
          exact Prod.ext (hoff'.trans hoff) (hslab'.trans hslab)

/-! ## Runs -/

/-- The calls, one after another, on an empty cache, and the list they stand for. A slot that is
touched is one in use. -/
inductive Run (junk : BlkCache) (bytes blk : Nat) : BlkCache → Lru → Prop
  | init : Run junk bytes blk (init junk bytes blk) []
  | find {c : BlkCache} {l : Lru} (off : UInt64) (r : Option Nat) (h : Run junk bytes blk c l)
      (hfind : c.findWithin off = some r) : Run junk bytes blk c l
  | touch {c : BlkCache} {l : Lru} (s : Nat) (h : Run junk bytes blk c l) (hs : s < c.used) :
      Run junk bytes blk (c.touch s) (use (c.off s) l)
  | put {c c' : BlkCache} {l : Lru} (off : UInt64) (data : Block) (h : Run junk bytes blk c l)
      (hput : c.putWithin off data = some c') : Run junk bytes blk c' (store c.nslot off data l)

/-- Every slot in use has one place in the order, one offset of its own, and one cell, which the
search for its offset reaches past cells of other offsets. -/
structure Bijective (c : BlkCache) (order : List Nat) : Prop where
  lru : Represents c.lru order
  listed : ∀ s, s ∈ order ↔ s < c.used
  own : ∀ s < c.used, ∀ s' < c.used, c.off s = c.off s' → s = s'
  cell : ∀ s < c.used, ∃ i, c.hash i = some s ∧ ∀ i', c.hash i' = some s → i' = i
  reached : ∀ i s, c.hash i = some s → s < c.used ∧
    ∃ d < c.hcap, i = (c.home (c.off s) + d) % c.hcap ∧
      ∀ d' < d, ∃ s', c.hash ((c.home (c.off s) + d') % c.hcap) = some s' ∧ c.off s' ≠ c.off s

theorem Valid.bijective (h : c.Valid read order) : c.Bijective order where
  lru := h.lru
  listed := h.order
  own s hs s' hs' hoff := h.off_inj hs hs' hoff
  cell s hs := by
    obtain ⟨i, hi⟩ := (h.slots s).mpr hs
    exact ⟨i, hi, fun i' hi' => h.good.unique i' i s s hi' hi rfl⟩
  reached i s hi := by
    have hs := (h.slots s).mp ⟨i, hi⟩
    obtain ⟨d, hd, hloc, hpass, -⟩ := h.good.locate_spec (c.off s)
    have hget : get c.hcap c.home c.off c.hash (c.off s) = some s :=
      h.good.get_eq_some.mpr ⟨rfl, i, hi⟩
    refine ⟨hs, d, hd, ?_, hpass⟩
    rw [← hloc]
    exact h.good.unique i _ s s hi hget rfl

/-- What a run keeps: a cache that is off holds nothing. -/
def Kept (c : BlkCache) (l : Lru) : Prop :=
  if c.nslot = 0 then c.used = 0 ∧ l = [] else ∃ read order, c.Holds read order l

theorem put_nslot (c : BlkCache) (off : UInt64) (data : Block) :
    (c.put off data).nslot = c.nslot := by
  rw [BlkCache.put]
  split
  · rfl
  · split
    · rfl
    · change c.claim.1.nslot = c.nslot
      rw [BlkCache.claim]
      split <;> rfl

theorem kept_init (junk : BlkCache) (bytes blk : Nat) : (init junk bytes blk).Kept [] := by
  have hcoherent := coherent_init junk bytes blk fun _ => none
  have hused : (init junk bytes blk).used = 0 := by
    rw [init]
    split <;> rfl
  rw [Kept]
  split
  · exact ⟨hused, rfl⟩
  · rename_i hon
    obtain ⟨order, hvalid⟩ := hcoherent (Nat.pos_of_ne_zero hon)
    have hempty : order = [] := by
      rw [← List.length_eq_zero_iff, hvalid.length, hused]
    exact ⟨_, order, hvalid, by rw [hempty]; rfl⟩

theorem Kept.putWithin_eq {l : Lru} (h : c.Kept l) (off : UInt64) (data : Block) :
    c.putWithin off data = some (c.put off data) := by
  rw [Kept] at h
  split at h
  · rename_i hoff
    rw [BlkCache.putWithin, BlkCache.put, if_pos hoff, if_pos hoff]
  · obtain ⟨read, order, hholds⟩ := h
    exact hholds.valid.putWithin_eq off data

theorem Run.kept {junk : BlkCache} {bytes blk : Nat} {l : Lru} (h : Run junk bytes blk c l) :
    c.Kept l := by
  induction h with
  | init => exact kept_init junk bytes blk
  | find off r _ _ ih => exact ih
  | @touch c l s _ hs ih =>
      rw [Kept] at ih ⊢
      split at ih
      · omega
      · rename_i hon
        obtain ⟨read, order, hholds⟩ := ih
        have hon' : (c.touch s).nslot ≠ 0 := hon
        rw [if_neg hon']
        exact ⟨read, _, hholds.touch hs⟩
  | @put c c' l off data _ hput ih =>
      rw [ih.putWithin_eq, Option.some_inj] at hput
      rw [← hput, Kept, put_nslot]
      rw [Kept] at ih
      split at ih
      · rename_i hoff
        rw [if_pos hoff, BlkCache.put, if_pos hoff, store, if_pos hoff]
        exact ih
      · rename_i hon
        obtain ⟨read, order, hholds⟩ := ih
        rw [if_neg hon]
        exact ⟨_, hholds.put off data hon⟩

/-- An offset is found if it is in the list, in a slot that has its block. -/
theorem Holds.find {l : Lru} (h : c.Holds read order l) (hon : c.nslot ≠ 0) (off : UInt64) :
    ((c.find off).isSome = true ↔ off ∈ l.map Prod.fst) ∧
      ∀ s, c.find off = some s → (off, c.slab s) ∈ l := by
  have hmem : ∀ s < c.used, (c.off s, c.slab s) ∈ l := by
    intro s hs
    rw [h.entries]
    exact List.mem_map.mpr ⟨s, (h.valid.order s).mpr hs, rfl⟩
  cases hfind : c.find off with
  | some s =>
      obtain ⟨hs, hkey, -⟩ := h.valid.find_some hfind
      have hentry := hmem s hs
      rw [hkey] at hentry
      refine ⟨⟨fun _ => List.mem_map.mpr ⟨_, hentry, rfl⟩, fun _ => rfl⟩, fun s' hs' => ?_⟩
      rw [← Option.some.inj hs']
      exact hentry
  | none =>
      have hnone := h.valid.find_none hon hfind
      refine ⟨⟨fun hsome => absurd hsome Bool.false_ne_true, fun hin => ?_⟩,
        fun s hs => absurd hs.symm (Option.some_ne_none s)⟩
      rw [h.entries, List.map_map] at hin
      obtain ⟨s, hs, hoff⟩ := List.mem_map.mp hin
      exact absurd hoff (hnone s ((h.valid.order s).mp hs))

/-- After any calls every loop ends, an offset is found if it is in the list, and the slots, the
cells and the links are in bijection with it. -/
theorem cache_runs {junk : BlkCache} {bytes blk : Nat} {c : BlkCache} {l : Lru}
    (h : Run junk bytes blk c l) :
    (∀ off, ∃ r, c.findWithin off = some r ∧ (r.isSome = true ↔ off ∈ l.map Prod.fst) ∧
      ∀ s, r = some s → (off, c.slab s) ∈ l) ∧
    (∀ off data, ∃ c', c.putWithin off data = some c') ∧
    (0 < c.nslot → ∃ order, c.Bijective order ∧ l = order.map fun s => (c.off s, c.slab s)) := by
  have hkept := h.kept
  refine ⟨fun off => ?_, fun off data => ⟨_, hkept.putWithin_eq off data⟩, fun hon => ?_⟩
  · rw [Kept] at hkept
    split at hkept
    · rename_i hoff
      obtain ⟨-, rfl⟩ := hkept
      refine ⟨none, by rw [findWithin, if_pos hoff], ?_, fun s hs => ?_⟩
      · exact ⟨fun hsome => absurd hsome Bool.false_ne_true, fun hin => absurd hin List.not_mem_nil⟩
      · exact absurd hs.symm (Option.some_ne_none s)
    · rename_i hon
      obtain ⟨read, order, hholds⟩ := hkept
      exact ⟨_, hholds.valid.findWithin_eq off, hholds.find hon off⟩
  · rw [Kept, if_neg (by omega)] at hkept
    obtain ⟨read, order, hholds⟩ := hkept
    exact ⟨order, hholds.valid.bijective, hholds.entries⟩

/-- Arrays of zeros. -/
def zeros : BlkCache :=
  ⟨fun _ => [], fun _ => 0, fun _ => none, ⟨fun _ => none, fun _ => none, none, none⟩, 0, 0, 0, 0, 0⟩

/-- A cache of eight slots after one block. -/
theorem cache_runs_one : ∃ c r, Run zeros 512 64 c [(7, [1])] ∧
    c.findWithin 7 = some r ∧ r.isSome = true := by
  have hinit : Run zeros 512 64 (init zeros 512 64) [] := Run.init
  obtain ⟨-, hput, -⟩ := cache_runs hinit
  obtain ⟨c, hc⟩ := hput 7 [1]
  have hrun : Run zeros 512 64 c [(7, [1])] := Run.put 7 [1] hinit hc
  obtain ⟨hfind, -⟩ := cache_runs hrun
  obtain ⟨r, hr, hiff, -⟩ := hfind 7
  exact ⟨c, r, hrun, hr, hiff.mpr List.mem_cons_self⟩

end ShannonPrime.Cpu.BlkCache
