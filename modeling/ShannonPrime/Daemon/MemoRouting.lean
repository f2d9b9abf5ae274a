import ShannonPrime.Lib.Shuffle
import ShannonPrime.Lib.Words
import ShannonPrime.Lib.Traverse

/-!
The routing of the memory model: for each layer the heads that are to be active, drawn from the
root label of an encoded query. Whatever the label is, the shuffle of a layer is a permutation
of its heads, so a layer's mask has as many bits as were asked for and none past the last head.
-/

namespace ShannonPrime.Daemon

open Shuffle Traverse WordBits

/-- Bytes `8..20` of the encoded tree. -/
def kste_tier0_root (encode : List Int → Vector UInt8 64) (query : List Int) : List UInt8 :=
  (encode query).toList.extract 8 20

def fnv1a64 (bytes : List UInt8) : UInt64 :=
  bytes.foldl (fun h b => (h ^^^ b.toUInt64) * 0x100000001b3) 0xcbf29ce484222325

/-- The draw, and the state after it. -/
def splitmix64 (state : UInt64) : UInt64 × UInt64 :=
  let state := state + 0x9E3779B97F4A7C15
  let z := (state ^^^ (state >>> 30)) * 0xBF58476D1CE4E5B9
  let z := (z ^^^ (z >>> 27)) * 0x94D049BB133111EB
  (z ^^^ (z >>> 31), state)

/-- `r % (i + 1)` of the next draw. -/
def drawBelow (state : UInt64) (i : Nat) : Nat × UInt64 :=
  let r := splitmix64 state
  ((r.1 % (UInt64.ofNat i + 1)).toNat, r.2)

/-- `perm` of one layer. -/
def layerPerm (tier0_hash : UInt64) (n_heads : Nat) (l : Nat) : Option (List Nat) := do
  let state := tier0_hash ^^^ (UInt64.ofNat l * 0xDEADBEEFCAFEBABE)
  let state := (splitmix64 state).2
  let shuffled ← ((List.range n_heads).drop 1).reverse.foldlM (step drawBelow)
    (state, List.range n_heads)
  some shuffled.2

/-- The bits of one layer; `perm[..k]` needs `k` entries. -/
def layerMask (tier0_hash : UInt64) (n_heads k_per_layer : Nat) (l : Nat) : Option UInt64 := do
  let perm ← layerPerm tier0_hash n_heads l
  if k_per_layer ≤ perm.length then (perm.take k_per_layer).foldlM setBit 0 else none

structure RoutingMask where
  active : List UInt64
  k_per_layer : Nat
  n_layers : Nat
  n_heads : Nat
  source_tier0_hash : UInt64

/-- `compute_memory_routing`. There is no result at all where an index is out of bounds. -/
def compute_memory_routing (encode : List Int → Vector UInt8 64) (grounding_query : List Int)
    (n_layers n_heads k_per_layer : Nat) : Option (Except String RoutingMask) :=
  if k_per_layer > n_heads then
    some (.error s!"k_per_layer ({k_per_layer}) > n_heads ({n_heads})")
  else if n_heads > 64 then
    some (.error
      s!"n_heads ({n_heads}) > 64 (RoutingMask bitmap limit; relax if Qwen5+ exceeds this)")
  else if n_layers = 0 then some (.error "n_layers == 0")
  else do
    let tier0_hash := fnv1a64 (kste_tier0_root encode grounding_query)
    let active ← (List.range n_layers).mapM (layerMask tier0_hash n_heads k_per_layer)
    some (.ok { active, k_per_layer, n_layers, n_heads, source_tier0_hash := tier0_hash })

/-- What a mask promises: one word a layer, each with as many bits as the mask says, none of
them past the last head. -/
structure RoutingMask.Exact (m : RoutingMask) : Prop where
  layers : m.active.length = m.n_layers
  heads : ∀ word ∈ m.active, (bits word).length = m.k_per_layer
  inside : ∀ word ∈ m.active, ∀ h ∈ bits word, h < m.n_heads

theorem drawBelow_le (state : UInt64) (i : Nat) : (drawBelow state i).1 ≤ i := by
  have hbound : (UInt64.ofNat i + 1).toNat = (i % 2 ^ 64 + 1) % 2 ^ 64 := by
    rw [UInt64.toNat_add, UInt64.toNat_ofNat', UInt64.toNat_one]
  have hword := (splitmix64 state).1.toNat_lt
  rw [drawBelow, UInt64.toNat_mod, hbound]
  rcases Nat.eq_zero_or_pos ((i % 2 ^ 64 + 1) % 2 ^ 64) with hzero | hpos
  · rw [hzero, Nat.mod_zero]
    omega
  · have hlt := Nat.mod_lt (splitmix64 state).1.toNat hpos
    omega

theorem layerPerm_perm (tier0_hash : UInt64) (n_heads l : Nat) :
    ∃ perm, layerPerm tier0_hash n_heads l = some perm ∧ perm.Perm (List.range n_heads) := by
  have hinside : ∀ i ∈ ((List.range n_heads).drop 1).reverse, i < (List.range n_heads).length := by
    intro i hi
    rw [List.length_range]
    exact List.mem_range.mp (List.mem_of_mem_drop (List.mem_reverse.mp hi))
  obtain ⟨shuffled, hrun, hperm⟩ := shuffle_perm drawBelow_le
    (p := ((splitmix64 (tier0_hash ^^^ (UInt64.ofNat l * 0xDEADBEEFCAFEBABE))).2,
      List.range n_heads)) hinside
  refine ⟨shuffled.2, ?_, hperm⟩
  rw [layerPerm, hrun]
  rfl

/-- The first heads of the permutation are distinct, and the mask is the set of them. -/
theorem layerMask_exact (tier0_hash : UInt64) {n_heads k_per_layer : Nat}
    (hk : k_per_layer ≤ n_heads) (hheads : n_heads ≤ 64) (l : Nat) :
    ∃ word, layerMask tier0_hash n_heads k_per_layer l = some word ∧
      (bits word).length = k_per_layer ∧ ∀ h ∈ bits word, h < n_heads := by
  obtain ⟨perm, hrun, hperm⟩ := layerPerm_perm tier0_hash n_heads l
  have hlength : perm.length = n_heads := by rw [hperm.length_eq, List.length_range]
  have hmem : ∀ h ∈ perm.take k_per_layer, h < n_heads := fun h hh =>
    List.mem_range.mp (hperm.mem_iff.mp (List.mem_of_mem_take hh))
  have hnodup : (perm.take k_per_layer).Nodup :=
    (hperm.nodup_iff.mpr List.nodup_range).take
  obtain ⟨word, hword, hbits⟩ := setBits_perm (fun h hh => (hmem h hh).trans_le hheads) hnodup
  refine ⟨word, ?_, ?_, fun h hh => hmem h (hbits.mem_iff.mp hh)⟩
  · rw [layerMask, hrun, Option.bind_eq_bind, Option.bind_some, if_pos (by omega)]
    exact hword
  · rw [hbits.length_eq, List.length_take]
    omega

theorem compute_memory_routing_guarded (encode : List Int → Vector UInt8 64) (query : List Int)
    (n_layers : Nat) {n_heads k_per_layer : Nat} (hk : k_per_layer ≤ n_heads)
    (hguard : 64 < n_heads ∨ n_layers = 0) :
    ∃ e, compute_memory_routing encode query n_layers n_heads k_per_layer = some (.error e) := by
  rw [compute_memory_routing, if_neg (by omega)]
  split
  case isTrue => exact ⟨_, rfl⟩
  case isFalse hheads =>
      rw [if_pos (by omega)]
      exact ⟨_, rfl⟩

/-- For heads that fit the word and at least one layer the mask is exact, whatever the label
of the query is; for the others there is an error. -/
theorem compute_memory_routing_exact (encode : List Int → Vector UInt8 64) (query : List Int)
    (n_layers : Nat) {n_heads k_per_layer : Nat} (hk : k_per_layer ≤ n_heads) :
    if n_heads ≤ 64 ∧ n_layers ≠ 0 then
      ∃ m, compute_memory_routing encode query n_layers n_heads k_per_layer = some (.ok m) ∧
        m.n_layers = n_layers ∧ m.n_heads = n_heads ∧ m.k_per_layer = k_per_layer ∧ m.Exact
    else ∃ e, compute_memory_routing encode query n_layers n_heads k_per_layer =
      some (.error e) := by
  split
  case isTrue hin =>
      obtain ⟨hheads, hlayers⟩ := hin
      obtain ⟨active, hrun, hlength, hall⟩ := mapM_all fun l (_ : l ∈ List.range n_layers) =>
        layerMask_exact (fnv1a64 (kste_tier0_root encode query)) hk hheads l
      rw [List.length_range] at hlength
      let tier0_hash := fnv1a64 (kste_tier0_root encode query)
      refine ⟨⟨active, k_per_layer, n_layers, n_heads, tier0_hash⟩, ?_, rfl, rfl, rfl, hlength,
        fun word hw => (hall word hw).1, fun word hw => (hall word hw).2⟩
      rw [compute_memory_routing, if_neg (by omega), if_neg (by omega), if_neg hlayers]
      simp only [hrun, Option.bind_eq_bind, Option.bind_some]
      rfl
  case isFalse hout =>
      exact compute_memory_routing_guarded encode query n_layers hk (by omega)

theorem compute_memory_routing_exact_seven :
    ∃ m, compute_memory_routing (fun _ => Vector.replicate 64 0) [3, 1, 2] 2 14 7 =
      some (.ok m) ∧ m.n_layers = 2 ∧ m.n_heads = 14 ∧ m.k_per_layer = 7 ∧ m.Exact := by
  have hrun := compute_memory_routing_exact (fun _ => Vector.replicate 64 0) [3, 1, 2] 2
    (show 7 ≤ 14 by decide)
  rwa [if_pos (by decide)] at hrun

/-- One head more than the word has bits. -/
theorem compute_memory_routing_past :
    ¬ ∃ m, compute_memory_routing (fun _ => Vector.replicate 64 0) [3, 1, 2] 2 65 7 =
      some (.ok m) := by
  rintro ⟨m, hm⟩
  simp [compute_memory_routing] at hm

end ShannonPrime.Daemon
