import Mathlib.Data.List.Perm.Basic
import ShannonPrime.Kv.Step
import ShannonPrime.Lib.Buffer

/-!
The ring of a sliding-window owner after a batched prefill. The sink kernel writes the last
positions, a block each and the blocks in any order; a step writes one position at a time. Both
leave in a slot the row of the last position that falls on it.
-/

namespace ShannonPrime.Kv

variable {F : Type*}

/-- A position of the source copied to its slot. -/
def ringWrite (src : Nat → F) (W kvd : Nat) (dst : Nat → F) (p : Nat) : Nat → F :=
  Buffer.store dst (p % W * kvd) kvd fun i => src (p * kvd + i)

/-- The position of a block: the last `W` positions are kept. -/
def sinkPosition (n W block : Nat) : Nat := (if W < n then n - W else 0) + block

/-- `k_ring_sink`, one block of it. -/
def kRingSink (src : Nat → F) (n W kvd : Nat) (dst : Nat → F) (block : Nat) : Nat → F :=
  if n ≤ sinkPosition n W block then dst else ringWrite src W kvd dst (sinkPosition n W block)

/-- The blocks of a launch. -/
def sinkBlocks (n W : Nat) : Nat := if n < W then n else W

/-- The launch, its blocks in the order in which they happen to run. -/
def sinkLaunch (order : List Nat) (src dst : Nat → F) (n W kvd : Nat) : Nat → F :=
  order.foldl (kRingSink src n W kvd) dst

/-- The ring writes of `n` steps, each at its own position. -/
def stepWrites (src dst : Nat → F) (n W kvd : Nat) : Nat → F :=
  (List.range n).foldl (ringWrite src W kvd) dst

/-- `p` is the last of the first `n` positions on the slot. -/
structure LastOn (n W slot p : Nat) : Prop where
  lt : p < n
  on : p % W = slot
  last : ∀ p' < n, p' % W = slot → p' ≤ p

section Writes

variable {src dst : Nat → F} {W kvd : Nat}

theorem cell_ne {s s' i i' : Nat} (hi : i < kvd) (hi' : i' < kvd) (hs : s ≠ s') :
    s * kvd + i ≠ s' * kvd + i' := by
  intro heq
  have hslot : (s * kvd + i) / kvd = (s' * kvd + i') / kvd := by rw [heq]
  rw [Nat.add_comm, Nat.add_comm (s' * kvd), Nat.add_mul_div_right _ _ (by omega),
    Nat.add_mul_div_right _ _ (by omega), Nat.div_eq_of_lt hi, Nat.div_eq_of_lt hi', Nat.zero_add,
    Nat.zero_add] at hslot
  exact hs hslot

theorem ringWrite_on (p : Nat) {i : Nat} (hi : i < kvd) :
    ringWrite src W kvd dst p (p % W * kvd + i) = src (p * kvd + i) := Buffer.store_inside hi

theorem ringWrite_off {p s i : Nat} (hi : i < kvd) (hs : p % W ≠ s) :
    ringWrite src W kvd dst p (s * kvd + i) = dst (s * kvd + i) := by
  apply Buffer.store_outside
  by_contra hinside
  obtain ⟨i', hi', hcell⟩ : ∃ i', i' < kvd ∧ s * kvd + i = p % W * kvd + i' :=
    ⟨s * kvd + i - p % W * kvd, by omega, by omega⟩
  exact cell_ne hi hi' (Ne.symm hs) hcell

/-- A slot that no position of the list falls on. -/
theorem writes_off {ps : List Nat} {s i : Nat} (hi : i < kvd) (hs : ∀ p ∈ ps, p % W ≠ s) :
    ps.foldl (ringWrite src W kvd) dst (s * kvd + i) = dst (s * kvd + i) := by
  induction ps generalizing dst with
  | nil => rfl
  | cons p ps ih =>
      rw [List.foldl_cons, ih fun p' hp' => hs p' (List.mem_cons_of_mem _ hp')]
      exact ringWrite_off hi (hs p List.mem_cons_self)

/-- The position after which the slot is left alone. -/
theorem writes_on {before after : List Nat} {p i : Nat} (hi : i < kvd)
    (hlast : ∀ p' ∈ after, p' % W ≠ p % W) :
    (before ++ p :: after).foldl (ringWrite src W kvd) dst (p % W * kvd + i) =
      src (p * kvd + i) := by
  rw [List.foldl_append, List.foldl_cons, writes_off hi hlast, ringWrite_on p hi]

end Writes

section Sink

variable {src dst : Nat → F} {n W kvd : Nat} {order : List Nat}

theorem sinkPosition_lt {block : Nat} (hblock : block < sinkBlocks n W) :
    sinkPosition n W block < n := by
  unfold sinkBlocks at hblock
  unfold sinkPosition
  split at hblock <;> split <;> omega

theorem sinkPosition_ge (block : Nat) : n ≤ sinkPosition n W block + W := by
  unfold sinkPosition
  split <;> omega

/-- Kept positions are less than a lap apart. -/
theorem sinkPosition_slot {block block' : Nat} (hblock : block < sinkBlocks n W)
    (hblock' : block' < sinkBlocks n W)
    (hslot : sinkPosition n W block % W = sinkPosition n W block' % W) : block = block' := by
  have hlt := sinkPosition_lt hblock
  have hlt' := sinkPosition_lt hblock'
  have hge := sinkPosition_ge (n := n) (W := W) block
  have hge' := sinkPosition_ge (n := n) (W := W) block'
  have hsame : sinkPosition n W block = sinkPosition n W block' := by
    rcases Nat.lt_trichotomy (sinkPosition n W block) (sinkPosition n W block') with h | h | h
    · exact absurd hslot (ring_slot_ne h (by omega))
    · exact h
    · exact absurd hslot.symm (ring_slot_ne h (by omega))
  unfold sinkPosition at hsame
  omega

theorem sinkLaunch_eq (horder : ∀ block ∈ order, block < sinkBlocks n W) :
    sinkLaunch order src dst n W kvd =
      (order.map (sinkPosition n W)).foldl (ringWrite src W kvd) dst := by
  rw [sinkLaunch, List.foldl_map]
  refine List.foldl_ext _ _ _ fun m block hblock => ?_
  exact if_neg (Nat.not_le.mpr (sinkPosition_lt (horder block hblock)))

/-- A slot after the launch. -/
theorem sinkLaunch_slot (hW : 0 < W) (horder : order.Perm (List.range (sinkBlocks n W)))
    {s i : Nat} (hi : i < kvd) :
    (∀ p, LastOn n W s p → sinkLaunch order src dst n W kvd (s * kvd + i) = src (p * kvd + i)) ∧
      ((∀ p < n, p % W ≠ s) →
        sinkLaunch order src dst n W kvd (s * kvd + i) = dst (s * kvd + i)) := by
  have hblocks : ∀ block ∈ order, block < sinkBlocks n W := fun block hblock =>
    List.mem_range.mp (horder.mem_iff.mp hblock)
  rw [sinkLaunch_eq hblocks]
  constructor
  · intro p hp
    have hkept : n ≤ p + W := by
      by_contra hold
      have hlater := hp.last (p + W) (by omega) (by rw [Nat.add_mod_right, hp.on])
      omega
    obtain ⟨block, hblock, rfl⟩ : ∃ block, block < sinkBlocks n W ∧ sinkPosition n W block = p := by
      have hlt := hp.lt
      refine ⟨p - (if W < n then n - W else 0), ?_, ?_⟩
      · unfold sinkBlocks
        split <;> split <;> omega
      · unfold sinkPosition
        split <;> omega
    obtain ⟨before, after, rfl⟩ := List.append_of_mem (horder.mem_iff.mpr (List.mem_range.mpr hblock))
    have hnodup : (before ++ block :: after).Nodup := horder.nodup_iff.mpr List.nodup_range
    have hnew : block ∉ after := (List.nodup_cons.mp (List.nodup_append.mp hnodup).2.1).1
    rw [List.map_append, List.map_cons, ← hp.on]
    refine writes_on hi fun p' hp' hslot => ?_
    obtain ⟨block', hblock', rfl⟩ := List.mem_map.mp hp'
    have hlt' := hblocks block' (List.mem_append_right _ (List.mem_cons_of_mem _ hblock'))
    rw [sinkPosition_slot hlt' hblock hslot] at hblock'
    exact hnew hblock'
  · intro hnone
    refine writes_off hi fun p hp => ?_
    obtain ⟨block, hblock, rfl⟩ := List.mem_map.mp hp
    exact hnone _ (sinkPosition_lt (hblocks block hblock))

/-- A slot after the steps. -/
theorem stepWrites_slot {s i : Nat} (hi : i < kvd) :
    (∀ p, LastOn n W s p → stepWrites src dst n W kvd (s * kvd + i) = src (p * kvd + i)) ∧
      ((∀ p < n, p % W ≠ s) → stepWrites src dst n W kvd (s * kvd + i) = dst (s * kvd + i)) := by
  constructor
  · intro p hp
    have hsplit : List.range n = List.range p ++ p :: List.range' (p + 1) (n - p - 1) := by
      have hlt := hp.lt
      rw [List.range_eq_range', List.range_eq_range', ← List.range'_succ,
        show n - p - 1 + 1 = n - p by omega]
      have hjoin := List.range'_append_1 (s := 0) (m := p) (n := n - p)
      rw [Nat.zero_add, Nat.add_sub_cancel' hlt.le] at hjoin
      exact hjoin.symm
    rw [stepWrites, hsplit, ← hp.on]
    refine writes_on hi fun p' hp' hslot => ?_
    obtain ⟨hlow, hhigh⟩ := List.mem_range'_1.mp hp'
    have hle := hp.last p' (by omega) (hslot.trans hp.on)
    omega
  · intro hnone
    exact writes_off hi fun p hp => hnone p (List.mem_range.mp hp)

theorem exists_lastOn {s p : Nat} (hp : p < n) (hon : p % W = s) : ∃ p', LastOn n W s p' := by
  induction hgap : n - p using Nat.strong_induction_on generalizing p with
  | _ gap ih =>
      by_cases hlast : ∀ p' < n, p' % W = s → p' ≤ p
      · exact ⟨p, hp, hon, hlast⟩
      · push Not at hlast
        obtain ⟨p', hp', hon', hlt⟩ := hlast
        exact ih (n - p') (by omega) hp' hon' rfl

theorem ringWrite_empty (p : Nat) : ringWrite src W 0 dst p = dst := by
  funext a
  exact Buffer.store_outside (by omega)

theorem sinkLaunch_eq_stepWrites (hW : 0 < W)
    (horder : order.Perm (List.range (sinkBlocks n W))) :
    sinkLaunch order src dst n W kvd = stepWrites src dst n W kvd := by
  rcases Nat.eq_zero_or_pos kvd with rfl | hpos
  · have hnone : ∀ ps : List Nat, ps.foldl (ringWrite src W 0) dst = dst := by
      intro ps
      induction ps with
      | nil => rfl
      | cons p ps ih => rw [List.foldl_cons, ringWrite_empty, ih]
    rw [sinkLaunch_eq fun block hblock => List.mem_range.mp (horder.mem_iff.mp hblock), hnone,
      stepWrites, hnone]
  · funext a
    have hi : a % kvd < kvd := Nat.mod_lt a hpos
    have hcell : a = a / kvd * kvd + a % kvd := (Nat.div_add_mod' a kvd).symm
    obtain ⟨hsink, hsink'⟩ := @sinkLaunch_slot F src dst n W kvd order hW horder (a / kvd) _ hi
    obtain ⟨hstep, hstep'⟩ := @stepWrites_slot F src dst n W kvd (a / kvd) _ hi
    rw [hcell]
    by_cases hreached : ∃ p, p < n ∧ p % W = a / kvd
    · obtain ⟨p, hp, hon⟩ := hreached
      obtain ⟨last, hlast⟩ := exists_lastOn hp hon
      rw [hsink last hlast, hstep last hlast]
    · have hnone : ∀ p < n, p % W ≠ a / kvd := fun p hp hon => hreached ⟨p, hp, hon⟩
      rw [hsink' hnone, hstep' hnone]

/-- Whatever the order of the blocks, the sink leaves in each slot the last position that falls on
it and other slots alone, as the steps do, and no two blocks write one slot. -/
theorem ring_sink_steps (src dst : Nat → F) (n W kvd : Nat) (hW : 0 < W) (order : List Nat)
    (horder : order.Perm (List.range (sinkBlocks n W))) :
    (∀ s i, i < kvd →
      (∀ p, LastOn n W s p →
        sinkLaunch order src dst n W kvd (s * kvd + i) = src (p * kvd + i)) ∧
      ((∀ p < n, p % W ≠ s) →
        sinkLaunch order src dst n W kvd (s * kvd + i) = dst (s * kvd + i))) ∧
    sinkLaunch order src dst n W kvd = stepWrites src dst n W kvd ∧
    ∀ block ∈ order, ∀ block' ∈ order,
      sinkPosition n W block % W = sinkPosition n W block' % W → block = block' := by
  refine ⟨fun s i hi => sinkLaunch_slot hW horder hi, sinkLaunch_eq_stepWrites hW horder,
    fun block hblock block' hblock' => ?_⟩
  exact sinkPosition_slot (List.mem_range.mp (horder.mem_iff.mp hblock))
    (List.mem_range.mp (horder.mem_iff.mp hblock'))

/-- Seven positions in a ring of three, the blocks in the reverse order. -/
theorem ring_sink_seven :
    sinkLaunch [2, 1, 0] (fun a => a) (fun _ => 100) 7 3 2 =
      stepWrites (fun a => a) (fun _ => 100) 7 3 2 :=
  (ring_sink_steps (fun a => a) (fun _ => 100) 7 3 2 (by decide) [2, 1, 0] (by decide)).2.1

end Sink

end ShannonPrime.Kv
