import ShannonPrime.Lib.ProbeRemoval
import ShannonPrime.Tokenizer.Gemma4Build

/-!
The two hash tables of the tokenizer as arrays: entries with a flag, and keys with one that
stands for an empty cell. A search has no result where it runs on past a full round. Sized for
the puts that follow, a table stays at most half full, so every search ends, and it finds what
was put first.
-/

namespace ShannonPrime.Tokenizer

open LinearProbe

/-- `while (cap < want * 2) cap <<= 1`, at most `fuel` turns of it. -/
def capFor (want : UInt64) : Nat → UInt64 → Option UInt64
  | 0, _ => none
  | fuel + 1, cap => if cap < want * 2 then capFor want fuel (cap <<< 1) else some cap

/-- The loop of the searches: past the used cells of other keys, around by the mask. -/
def probe (used same : Nat → Bool) (mask : Nat) : Nat → Nat → Option Nat
  | 0, _ => none
  | fuel + 1, i => if used i && !same i then probe used same mask fuel ((i + 1) &&& mask) else some i

/-- `sp_hent`; `key` stands for its `klen` bytes. -/
structure SpHent where
  key : List UInt8
  val : Int
  used : Bool

/-- `sp_hmap` -/
structure SpHmap where
  e : Nat → SpHent
  mask : Nat

namespace SpHmap

def init (want : UInt64) : Option SpHmap :=
  (capFor want 65 16).map fun cap => ⟨fun _ => ⟨[], 0, false⟩, cap.toNat - 1⟩

/-- Where the search for a key ends. -/
def slot (m : SpHmap) (k : List UInt8) : Option Nat :=
  probe (fun i => (m.e i).used) (fun i => (m.e i).key == k) m.mask (m.mask + 1)
    ((fnv1a k).toNat &&& m.mask)

def put (m : SpHmap) (k : List UInt8) (v : Int) : Option SpHmap :=
  (m.slot k).map fun i =>
    if (m.e i).used then m else { m with e := Function.update m.e i ⟨k, v, true⟩ }

def get (m : SpHmap) (k : List UInt8) (dflt : Int) : Option Int :=
  (m.slot k).map fun i => if (m.e i).used then (m.e i).val else dflt

/-- The entries in use. -/
def cells (m : SpHmap) (i : Nat) : Option (List UInt8 × Int) :=
  if (m.e i).used then some ((m.e i).key, (m.e i).val) else none

end SpHmap

/-- `g4_pairkey`, `g4_pairrank` and `g4_pairmask` -/
structure G4Pairs where
  key : Nat → UInt64
  rank : Nat → Int
  mask : Nat

def pairKey (l r : UInt32) : UInt64 := (l.toUInt64 <<< 32) ||| r.toUInt64

namespace G4Pairs

/-- The ranks come with arbitrary contents. -/
def init (rank : Nat → Int) (nm : UInt64) : Option G4Pairs :=
  (capFor nm 65 16).map fun cap => ⟨fun _ => g4EmptyKey, rank, cap.toNat - 1⟩

def slot (t : G4Pairs) (key : UInt64) : Option Nat :=
  probe (fun i => t.key i != g4EmptyKey) (fun i => t.key i == key) t.mask (t.mask + 1)
    (g4Slot key t.mask)

/-- `g4_pair_put` -/
def put (t : G4Pairs) (key : UInt64) (rank : Int) : Option G4Pairs :=
  (t.slot key).map fun i =>
    if t.key i != g4EmptyKey then t
    else { t with key := Function.update t.key i key, rank := Function.update t.rank i rank }

/-- `g4_pair_rank` -/
def rankOf (t : G4Pairs) (l r : UInt32) : Option Int :=
  (t.slot (pairKey l r)).map fun i => if t.key i != g4EmptyKey then t.rank i else -1

def cells (t : G4Pairs) (i : Nat) : Option (UInt64 × Int) :=
  if t.key i != g4EmptyKey then some (t.key i, t.rank i) else none

end G4Pairs

/-! ## The size -/

/-- The capacity is a power of two and at least twice what is wanted. -/
theorem capFor_eq {want : UInt64} (hwant : want.toNat ≤ 2 ^ 62) (fuel p : Nat) (hp : p ≤ 63)
    (hfuel : 63 < p + fuel) {c : UInt64} (hc : c.toNat = 2 ^ p) :
    ∃ q cap, capFor want fuel c = some cap ∧ cap.toNat = 2 ^ q ∧ p ≤ q ∧
      2 * want.toNat ≤ 2 ^ q := by
  have hdouble : (want * 2).toNat = 2 * want.toNat := by
    have htwo : (2 : UInt64).toNat = 2 := rfl
    rw [UInt64.toNat_mul, htwo, Nat.mod_eq_of_lt (by omega), Nat.mul_comm]
  induction fuel generalizing p c with
  | zero => omega
  | succ fuel ih =>
      rw [capFor]
      split
      · rename_i hlt
        rw [UInt64.lt_iff_toNat_lt, hc, hdouble] at hlt
        have hpow : 2 ^ p < 2 ^ 63 := by omega
        have hp' : p < 63 := (Nat.pow_lt_pow_iff_right (by decide)).mp hpow
        have hshift : (c <<< 1).toNat = 2 ^ (p + 1) := by
          have hone : (1 : UInt64).toNat % 64 = 1 := rfl
          rw [UInt64.toNat_shiftLeft, hone, hc, Nat.shiftLeft_eq, pow_succ]
          apply Nat.mod_eq_of_lt
          omega
        obtain ⟨q, cap, hrun, hcap, hle, htwice⟩ := ih (p + 1) hp' (by omega) hshift
        exact ⟨q, cap, hrun, hcap, by omega, htwice⟩
      · rename_i hge
        rw [UInt64.lt_iff_toNat_lt, hc, hdouble, Nat.not_lt] at hge
        exact ⟨p, c, rfl, hc, le_refl p, hge⟩

/-- A table of the capacity wraps around by its mask. -/
theorem capFor_sixteen {want : UInt64} (hwant : want.toNat ≤ 2 ^ 62) :
    ∃ cap, capFor want 65 16 = some cap ∧ 16 ≤ cap.toNat ∧ 2 * want.toNat ≤ cap.toNat ∧
      ∀ i, i &&& (cap.toNat - 1) = i % cap.toNat := by
  obtain ⟨q, cap, hrun, hcap, hq, htwice⟩ :=
    capFor_eq hwant 65 4 (by decide) (by decide) (show (16 : UInt64).toNat = 2 ^ 4 from rfl)
  refine ⟨cap, hrun, ?_, hcap ▸ htwice, fun i => ?_⟩
  · have hpow : 2 ^ 4 ≤ 2 ^ q := Nat.pow_le_pow_right (Nat.zero_lt_succ 1) hq
    rwa [hcap]
  · rw [hcap, Nat.and_two_pow_sub_one_eq_mod]

/-! ## The search -/

variable {K V : Type} [DecidableEq K]

/-- A search over arrays is one over the entries they hold. -/
theorem probe_eq {cells : Nat → Option (K × V)} {used same : Nat → Bool} {mask : Nat} {k : K}
    (hmask : ∀ i, i &&& mask = i % (mask + 1))
    (hstop : ∀ i, (used i && !same i) = !(cells i).all fun a => decide (a.1 = k)) (fuel i : Nat) :
    probe used same mask fuel i =
      walkWithin (mask + 1) (fun i => (cells i).all fun a => decide (a.1 = k)) fuel i := by
  induction fuel generalizing i with
  | zero => rfl
  | succ fuel ih =>
      rw [probe, walkWithin, hstop, hmask, ih]
      cases (cells i).all fun a => decide (a.1 = k) <;> rfl

/-- Puts one after another, each of which is one into the table. -/
theorem foldlM_put {M : Type} {step : M → K × V → Option M} {cells : M → Nat → Option (K × V)}
    {cap : Nat} {home : K → Nat} {P : M → Prop} {l : List (K × V)}
    (hstep : ∀ p ∈ l, ∀ m, P m → Good cap home Prod.fst (cells m) → ∃ m', step m p = some m' ∧ P m' ∧
      cells m' = LinearProbe.put cap home Prod.fst (cells m) p) {m : M} (hm : P m)
    (hgood : Good cap home Prod.fst (cells m)) (hroom : load cap (cells m) + l.length < cap) :
    ∃ m', l.foldlM step m = some m' ∧ P m' ∧ Good cap home Prod.fst (cells m') ∧
      load cap (cells m') ≤ load cap (cells m) + l.length ∧
      ∀ k, get cap home Prod.fst (cells m') k =
        (get cap home Prod.fst (cells m) k).or (l.find? fun p => decide (p.1 = k)) := by
  induction l generalizing m with
  | nil => exact ⟨m, rfl, hm, hgood, Nat.le_add_right _ _, fun k => (Option.or_none).symm⟩
  | cons p l ih =>
      rw [List.length_cons] at hroom
      obtain ⟨m', hrun, hm', hcells⟩ := hstep p List.mem_cons_self m hm hgood
      obtain ⟨hgood', hload, hget⟩ := hgood.put p (by omega)
      rw [← hcells] at hgood' hload hget
      obtain ⟨m'', hrun', hm'', hgood'', hload', hget'⟩ :=
        ih (fun p' hp' => hstep p' (List.mem_cons_of_mem _ hp')) hm' hgood' (by omega)
      refine ⟨m'', ?_, hm'', hgood'', ?_, fun k => ?_⟩
      · rw [List.foldlM_cons, hrun]
        exact hrun'
      · rw [List.length_cons]
        omega
      · rw [hget', hget, Option.or_assoc, List.find?_cons]
        by_cases hk : p.1 = k
        · rw [if_pos hk, decide_eq_true hk, Option.some_or]
        · rw [if_neg hk, decide_eq_false hk, Option.none_or]

/-! ## The maps -/

/-- What the puts are into: a table with room for them all and for as much again. -/
structure Sized (want mask : Nat) : Prop where
  room : 16 ≤ mask + 1
  half : 2 * want ≤ mask + 1
  wrap : ∀ i, i &&& mask = i % (mask + 1)

theorem Sized.exists_cap {want : UInt64} (hwant : want.toNat ≤ 2 ^ 62) :
    ∃ cap, capFor want 65 16 = some cap ∧ Sized want.toNat (cap.toNat - 1) := by
  obtain ⟨cap, hrun, hroom, hhalf, hwrap⟩ := capFor_sixteen hwant
  have hcap : cap.toNat - 1 + 1 = cap.toNat := by omega
  exact ⟨cap, hrun, by omega, by omega, by rwa [hcap]⟩

/-- From the empty table on: no more puts than were wanted leave half of it free. -/
theorem Sized.foldlM_put {M : Type} {step : M → K × V → Option M}
    {cells : M → Nat → Option (K × V)} {home : K → Nat} {P : M → Prop} {want mask : Nat}
    {l : List (K × V)} (hsized : Sized want mask) (hhome : ∀ k, home k ≤ mask)
    (hstep : ∀ p ∈ l, ∀ m, P m → Good (mask + 1) home Prod.fst (cells m) →
      ∃ m', step m p = some m' ∧ P m' ∧
        cells m' = LinearProbe.put (mask + 1) home Prod.fst (cells m) p)
    {m : M} (hm : P m) (hempty : cells m = fun _ => none) (hl : l.length ≤ want) :
    ∃ m', l.foldlM step m = some m' ∧ P m' ∧ Good (mask + 1) home Prod.fst (cells m') ∧
      2 * load (mask + 1) (cells m') ≤ mask + 1 ∧
      ∀ k, get (mask + 1) home Prod.fst (cells m') k = l.find? fun p => decide (p.1 = k) := by
  have hgood : Good (mask + 1) home Prod.fst (cells m) := by
    rw [hempty]
    exact good_empty (fun k => Nat.lt_succ_of_le (hhome k)) mask.succ_pos
  have hload : load (mask + 1) (cells m) = 0 := by
    rw [hempty]
    exact load_empty _
  have hhalf := hsized.half
  have hroom := hsized.room
  obtain ⟨m', hrun, hm', hgood', hload', hget⟩ :=
    Tokenizer.foldlM_put hstep hm hgood (by omega)
  refine ⟨m', hrun, hm', hgood', by omega, fun k => ?_⟩
  rw [hget, hempty]
  exact Option.none_or

namespace SpHmap

variable {m : SpHmap}

theorem slot_eq (hwrap : ∀ i, i &&& m.mask = i % (m.mask + 1)) (k : List UInt8) :
    m.slot k = locateWithin (m.mask + 1) (fun k => (fnv1a k).toNat &&& m.mask) Prod.fst m.cells k := by
  apply probe_eq hwrap
  intro i
  rw [cells]
  cases (m.e i).used with
  | false => rfl
  | true =>
      rw [if_pos rfl, Option.all_some, Bool.true_and, Bool.beq_eq_decide_eq]

theorem cells_isSome (i : Nat) : (m.cells i).isSome = (m.e i).used := by
  rw [cells]
  cases (m.e i).used <;> rfl

theorem put_eq (hwrap : ∀ i, i &&& m.mask = i % (m.mask + 1))
    (hgood : Good (m.mask + 1) (fun k => (fnv1a k).toNat &&& m.mask) Prod.fst m.cells)
    (p : List UInt8 × Int) :
    ∃ m', m.put p.1 p.2 = some m' ∧ m'.mask = m.mask ∧
      m'.cells = LinearProbe.put (m.mask + 1) (fun k => (fnv1a k).toNat &&& m.mask) Prod.fst
        m.cells p := by
  rw [put, slot_eq hwrap, hgood.locateWithin_eq, LinearProbe.put, LinearProbe.get, cells_isSome]
  generalize locate (m.mask + 1) (fun k => (fnv1a k).toNat &&& m.mask) Prod.fst m.cells p.1 = i
  rw [Option.map_some]
  cases hused : (m.e i).used with
  | true =>
      exact ⟨m, rfl, rfl, rfl⟩
  | false =>
      refine ⟨{ m with e := Function.update m.e i ⟨p.1, p.2, true⟩ }, rfl, rfl, ?_⟩
      rw [if_neg Bool.false_ne_true]
      funext j
      simp only [cells, Function.update_apply]
      split <;> rfl

theorem get_eq (hwrap : ∀ i, i &&& m.mask = i % (m.mask + 1))
    (hgood : Good (m.mask + 1) (fun k => (fnv1a k).toNat &&& m.mask) Prod.fst m.cells)
    (k : List UInt8) (dflt : Int) :
    m.get k dflt = some (((LinearProbe.get (m.mask + 1) (fun k => (fnv1a k).toNat &&& m.mask)
      Prod.fst m.cells k).map Prod.snd).getD dflt) := by
  rw [get, slot_eq hwrap, hgood.locateWithin_eq, Option.map_some, LinearProbe.get]
  generalize locate (m.mask + 1) (fun k => (fnv1a k).toNat &&& m.mask) Prod.fst m.cells k = i
  rw [cells]
  cases (m.e i).used <;> rfl

end SpHmap

namespace G4Pairs

variable {t : G4Pairs}

theorem slot_eq (hwrap : ∀ i, i &&& t.mask = i % (t.mask + 1)) (key : UInt64) :
    t.slot key = locateWithin (t.mask + 1) (fun k => g4Slot k t.mask) Prod.fst t.cells key := by
  apply probe_eq hwrap
  intro i
  rw [cells]
  cases t.key i != g4EmptyKey with
  | false => rfl
  | true =>
      rw [if_pos rfl, Option.all_some, Bool.true_and, Bool.beq_eq_decide_eq]

theorem cells_isSome (i : Nat) : (t.cells i).isSome = (t.key i != g4EmptyKey) := by
  rw [cells]
  cases t.key i != g4EmptyKey <;> rfl

/-- The key of an empty cell is none that is put. -/
theorem put_eq (hwrap : ∀ i, i &&& t.mask = i % (t.mask + 1))
    (hgood : Good (t.mask + 1) (fun k => g4Slot k t.mask) Prod.fst t.cells) {p : UInt64 × Int}
    (hp : p.1 ≠ g4EmptyKey) :
    ∃ t', t.put p.1 p.2 = some t' ∧ t'.mask = t.mask ∧
      t'.cells = LinearProbe.put (t.mask + 1) (fun k => g4Slot k t.mask) Prod.fst t.cells p := by
  rw [put, slot_eq hwrap, hgood.locateWithin_eq, LinearProbe.put, LinearProbe.get, cells_isSome]
  generalize locate (t.mask + 1) (fun k => g4Slot k t.mask) Prod.fst t.cells p.1 = i
  rw [Option.map_some]
  cases hused : t.key i != g4EmptyKey with
  | true =>
      exact ⟨t, rfl, rfl, rfl⟩
  | false =>
      refine ⟨{ t with key := Function.update t.key i p.1, rank := Function.update t.rank i p.2 },
        rfl, rfl, ?_⟩
      rw [if_neg Bool.false_ne_true]
      funext j
      simp only [cells, Function.update_apply]
      split
      · exact if_pos (bne_iff_ne.mpr hp)
      · rfl

theorem rankOf_eq (hwrap : ∀ i, i &&& t.mask = i % (t.mask + 1))
    (hgood : Good (t.mask + 1) (fun k => g4Slot k t.mask) Prod.fst t.cells) (l r : UInt32) :
    t.rankOf l r = some (((LinearProbe.get (t.mask + 1) (fun k => g4Slot k t.mask) Prod.fst t.cells
      (pairKey l r)).map Prod.snd).getD (-1)) := by
  rw [rankOf, slot_eq hwrap, hgood.locateWithin_eq, Option.map_some, LinearProbe.get]
  generalize locate (t.mask + 1) (fun k => g4Slot k t.mask) Prod.fst t.cells (pairKey l r) = i
  rw [cells]
  cases t.key i != g4EmptyKey <;> rfl

end G4Pairs

/-! ## Runs of puts -/

theorem SpHmap.puts_eq {want : UInt64} (hwant : want.toNat ≤ 2 ^ 62) :
    ∃ m₀, SpHmap.init want = some m₀ ∧ ∀ l : List (List UInt8 × Int), l.length ≤ want.toNat →
      ∃ m, l.foldlM (fun m p => m.put p.1 p.2) m₀ = some m ∧
        2 * load (m.mask + 1) m.cells ≤ m.mask + 1 ∧
        ∀ k dflt, m.get k dflt =
          some (((l.find? fun p => decide (p.1 = k)).map Prod.snd).getD dflt) := by
  obtain ⟨cap, hcap, hsized⟩ := Sized.exists_cap hwant
  refine ⟨⟨fun _ => ⟨[], 0, false⟩, cap.toNat - 1⟩, by rw [init, hcap]; rfl, fun l hl => ?_⟩
  generalize cap.toNat - 1 = mask at hsized ⊢
  have hstep : ∀ p ∈ l, ∀ m : SpHmap, m.mask = mask →
      Good (mask + 1) (fun k => (fnv1a k).toNat &&& mask) Prod.fst m.cells →
      ∃ m', m.put p.1 p.2 = some m' ∧ m'.mask = mask ∧ m'.cells =
        LinearProbe.put (mask + 1) (fun k => (fnv1a k).toNat &&& mask) Prod.fst m.cells p := by
    rintro p - m rfl hgood
    exact put_eq hsized.wrap hgood p
  obtain ⟨m, hrun, rfl, hgood, hload, hget⟩ :=
    hsized.foldlM_put (m := ⟨fun _ => ⟨[], 0, false⟩, mask⟩) (fun k => Nat.and_le_right) hstep rfl
      rfl hl
  refine ⟨m, hrun, hload, fun k dflt => ?_⟩
  rw [get_eq hsized.wrap hgood, hget]

theorem G4Pairs.puts_eq (rank : Nat → Int) {want : UInt64} (hwant : want.toNat ≤ 2 ^ 62) :
    ∃ t₀, G4Pairs.init rank want = some t₀ ∧ ∀ l : List (UInt64 × Int), l.length ≤ want.toNat →
      (∀ p ∈ l, p.1 ≠ g4EmptyKey) →
      ∃ t, l.foldlM (fun t p => t.put p.1 p.2) t₀ = some t ∧
        2 * load (t.mask + 1) t.cells ≤ t.mask + 1 ∧
        ∀ left right, t.rankOf left right =
          some (((l.find? fun p => decide (p.1 = pairKey left right)).map Prod.snd).getD (-1)) := by
  obtain ⟨cap, hcap, hsized⟩ := Sized.exists_cap hwant
  refine ⟨⟨fun _ => g4EmptyKey, rank, cap.toNat - 1⟩, by rw [init, hcap]; rfl, fun l hl hkeys => ?_⟩
  generalize cap.toNat - 1 = mask at hsized ⊢
  have hslot : ∀ k, g4Slot k mask ≤ mask := fun k => Nat.and_le_right
  have hstep : ∀ p ∈ l, ∀ t : G4Pairs, t.mask = mask →
      Good (mask + 1) (fun k => g4Slot k mask) Prod.fst t.cells →
      ∃ t', t.put p.1 p.2 = some t' ∧ t'.mask = mask ∧ t'.cells =
        LinearProbe.put (mask + 1) (fun k => g4Slot k mask) Prod.fst t.cells p := by
    rintro p hp t rfl hgood
    exact put_eq hsized.wrap hgood (hkeys p hp)
  obtain ⟨t, hrun, rfl, hgood, hload, hget⟩ :=
    hsized.foldlM_put (m := ⟨fun _ => g4EmptyKey, rank, mask⟩) hslot hstep rfl rfl hl
  refine ⟨t, hrun, hload, fun left right => ?_⟩
  rw [rankOf_eq hsized.wrap hgood, hget]

/-- No more puts than the table was made for: they all end, as does every search after them, at
most half of the table is in use, and a key has the value it was first put with. -/
theorem hash_maps_first_put {want : UInt64} (hwant : want.toNat ≤ 2 ^ 62) :
    (∃ m₀, SpHmap.init want = some m₀ ∧ ∀ l : List (List UInt8 × Int), l.length ≤ want.toNat →
      ∃ m, l.foldlM (fun m p => m.put p.1 p.2) m₀ = some m ∧
        2 * load (m.mask + 1) m.cells ≤ m.mask + 1 ∧
        ∀ k dflt, m.get k dflt =
          some (((l.find? fun p => decide (p.1 = k)).map Prod.snd).getD dflt)) ∧
    ∀ rank, ∃ t₀, G4Pairs.init rank want = some t₀ ∧
      ∀ l : List (UInt64 × Int), l.length ≤ want.toNat → (∀ p ∈ l, p.1 ≠ g4EmptyKey) →
        ∃ t, l.foldlM (fun t p => t.put p.1 p.2) t₀ = some t ∧
          2 * load (t.mask + 1) t.cells ≤ t.mask + 1 ∧
          ∀ left right, t.rankOf left right =
            some (((l.find? fun p => decide (p.1 = pairKey left right)).map Prod.snd).getD (-1)) :=
  ⟨SpHmap.puts_eq hwant, fun rank => G4Pairs.puts_eq rank hwant⟩

theorem hash_maps_first_put_twice :
    (∃ m₀ m, SpHmap.init 2 = some m₀ ∧
      [([97], 1), ([97], 2)].foldlM (fun m p => m.put p.1 p.2) m₀ = some m ∧
      m.get [97] (-1) = some 1 ∧ m.get [98] (-1) = some (-1)) ∧
    ∃ t₀ t, G4Pairs.init (fun _ => 0) 2 = some t₀ ∧
      [(pairKey 5 7, 3), (pairKey 5 7, 4)].foldlM (fun t p => t.put p.1 p.2) t₀ = some t ∧
      t.rankOf 5 7 = some 3 ∧ t.rankOf 7 5 = some (-1) := by
  obtain ⟨⟨m₀, hm₀, hm⟩, hpairs⟩ := hash_maps_first_put (show (2 : UInt64).toNat ≤ 2 ^ 62 by decide)
  obtain ⟨t₀, ht₀, ht⟩ := hpairs fun _ => 0
  obtain ⟨m, hputs, -, hget⟩ := hm [([97], 1), ([97], 2)] (by decide)
  obtain ⟨t, hputs', -, hrank⟩ := ht [(pairKey 5 7, 3), (pairKey 5 7, 4)] (by decide) (by decide)
  exact ⟨⟨m₀, m, hm₀, hputs, hget _ _, hget _ _⟩, t₀, t, ht₀, hputs', hrank _ _, hrank _ _⟩

end ShannonPrime.Tokenizer
