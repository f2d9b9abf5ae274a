import ShannonPrime.Model.Adapter
import Mathlib.Algebra.BigOperators.Group.List.Basic
import Mathlib.Algebra.Order.Ring.Abs
import Mathlib.Tactic.Ring

/-!
When the tables of the adapters are large enough. Every norm and every packed tensor has its
place; the synthetic tensors of Qwen2.5 are counted exactly, while those of the other builder
leave no place for the head of an untied model, which shows where the layers use all of theirs.
-/

namespace ShannonPrime.Model

open CInt

section Run

variable (m : SpModel) (mem : Memory) {caps : Caps}

def Taken.isLoaded : Taken → Bool
  | .loaded => true
  | .rejected _ | .exhausted _ => false

namespace Add

def isNorm : Add → Bool
  | .norm _ => true
  | .q8 _ => false

def loads : Add → Bool
  | .norm name => (copy_f32 m mem name).isLoaded
  | .q8 name => (rebuild_q8 m mem name).isLoaded

/-- The tensor slots it takes: none for a norm that is not there. -/
def slots (a : Add) : Nat := if a.isNorm && !a.loads m mem then 0 else 1

def norms (a : Add) : Nat := if a.isNorm then 1 else 0

def packs (a : Add) : Nat := if a.isNorm then 0 else 1

@[simp] theorem loads_norm (name : String) :
    (norm name).loads m mem = (copy_f32 m mem name).isLoaded := rfl

@[simp] theorem loads_q8 (name : String) :
    (q8 name).loads m mem = (rebuild_q8 m mem name).isLoaded := rfl

@[simp] theorem slots_norm (name : String) :
    (norm name).slots m mem = if (copy_f32 m mem name).isLoaded then 1 else 0 := by
  rw [slots, loads_norm]
  cases (copy_f32 m mem name).isLoaded <;> rfl

@[simp] theorem slots_q8 (name : String) : (q8 name).slots m mem = 1 := rfl

@[simp] theorem norms_norm (name : String) : (norm name).norms = 1 := rfl

@[simp] theorem norms_q8 (name : String) : (q8 name).norms = 0 := rfl

@[simp] theorem packs_norm (name : String) : (norm name).packs = 0 := rfl

@[simp] theorem packs_q8 (name : String) : (q8 name).packs = 1 := rfl

end Add

/-- What a run of additions does to the counts. -/
structure Moves (s s' : Filled) (slots norms packs : Nat) (ok : Bool) : Prop where
  ti : s'.ti = s.ti + slots
  ni : s'.ni ≤ s.ni + norms
  ai : s'.ai ≤ s.ai + packs
  rc : s'.rc = (s.rc || !ok)

theorem newT_some {s : Filled} (h : s.ti + 1 ≤ caps.n_t) :
    newT caps s = some { s with ti := s.ti + 1 } := if_pos h

theorem newT_none {s : Filled} (h : caps.n_t < s.ti + 1) : newT caps s = none :=
  if_neg (by omega)

/-- With room in each table an addition takes what it takes, and notes a failure. -/
theorem add_moves {s : Filled} {a : Add} (hti : s.ti + a.slots m mem ≤ caps.n_t)
    (hni : s.ni + a.norms ≤ caps.norm_cap) (hai : s.ai + a.packs ≤ caps.arena_cap) :
    ∃ s', add m mem caps s a = some s' ∧
      Moves s s' (a.slots m mem) a.norms a.packs (a.loads m mem) := by
  cases a with
  | norm name =>
      rw [Add.slots_norm] at hti
      rw [Add.slots_norm, Add.loads_norm]
      cases hcopy : copy_f32 m mem name with
      | loaded =>
          rw [hcopy] at hti
          refine ⟨{ s with ti := s.ti + 1, ni := s.ni + 1 }, ?_, rfl, le_refl _,
            Nat.le_add_right _ _, by simp [Taken.isLoaded]⟩
          simp only [add, addNorm, hcopy, newT_some hti, Option.bind_eq_bind, Option.bind_some]
          exact if_pos hni
      | rejected e | exhausted e =>
          refine ⟨{ s with rc := true, error := e }, ?_, rfl, Nat.le_add_right _ _,
            Nat.le_add_right _ _, by simp [Taken.isLoaded]⟩
          simp only [add, addNorm, hcopy]
  | q8 name =>
      have hslot : newT caps s = some { s with ti := s.ti + 1 } := newT_some hti
      rw [Add.slots_q8, Add.loads_q8]
      cases hpack : rebuild_q8 m mem name with
      | loaded =>
          refine ⟨{ s with ti := s.ti + 1, ai := s.ai + 1 }, ?_, rfl, Nat.le_add_right _ _,
            le_refl _, by simp [Taken.isLoaded]⟩
          simp only [add, addQ8, hslot, hpack, Option.bind_eq_bind, Option.bind_some]
          exact if_pos hai
      | rejected e =>
          refine ⟨{ s with ti := s.ti + 1, rc := true, error := e }, ?_, rfl,
            Nat.le_add_right _ _, Nat.le_add_right _ _, by simp [Taken.isLoaded]⟩
          simp only [add, addQ8, hslot, hpack, Option.bind_eq_bind, Option.bind_some]
      | exhausted e =>
          refine ⟨{ s with ti := s.ti + 1, rc := true, error := e }, ?_, rfl,
            Nat.le_add_right _ _, Nat.le_add_right _ _, by simp [Taken.isLoaded]⟩
          simp only [add, addQ8, hslot, hpack, Option.bind_eq_bind, Option.bind_some]
          exact if_pos hai

/-- Without a tensor slot left there is no place to write to. -/
theorem add_short {s : Filled} {a : Add} (hfull : s.ti ≤ caps.n_t)
    (hti : caps.n_t < s.ti + a.slots m mem) : add m mem caps s a = none := by
  cases a with
  | norm name =>
      rw [Add.slots_norm] at hti
      cases hcopy : copy_f32 m mem name with
      | loaded =>
          rw [hcopy] at hti
          simp only [add, addNorm, hcopy, newT_none hti, Option.bind_eq_bind, Option.bind_none]
      | rejected e | exhausted e =>
          rw [hcopy] at hti
          exact absurd hfull (Nat.not_le.mpr hti)
  | q8 name =>
      have hslot : newT caps s = none := newT_none hti
      simp only [add, addQ8, hslot, Option.bind_eq_bind, Option.bind_none]

def slotsOf (l : List Add) : Nat := (l.map fun a => a.slots m mem).sum

def normsOf (l : List Add) : Nat := (l.map Add.norms).sum

def packsOf (l : List Add) : Nat := (l.map Add.packs).sum

@[simp] theorem normsOf_nil : normsOf [] = 0 := rfl

@[simp] theorem normsOf_cons (a : Add) (l : List Add) :
    normsOf (a :: l) = a.norms + normsOf l := List.sum_cons

@[simp] theorem packsOf_nil : packsOf [] = 0 := rfl

@[simp] theorem packsOf_cons (a : Add) (l : List Add) :
    packsOf (a :: l) = a.packs + packsOf l := List.sum_cons

theorem Moves.trans {s s' s'' : Filled} {slots slots' norms norms' packs packs' : Nat}
    {ok ok' : Bool} (h : Moves s s' slots norms packs ok)
    (h' : Moves s' s'' slots' norms' packs' ok') :
    Moves s s'' (slots + slots') (norms + norms') (packs + packs') (ok && ok') where
  ti := by rw [h'.ti, h.ti, Nat.add_assoc]
  ni := by have := h.ni; have := h'.ni; omega
  ai := by have := h.ai; have := h'.ai; omega
  rc := by rw [h'.rc, h.rc, Bool.or_assoc, Bool.not_and]

theorem adds_moves {l : List Add} {s : Filled} (hti : s.ti + slotsOf m mem l ≤ caps.n_t)
    (hni : s.ni + normsOf l ≤ caps.norm_cap) (hai : s.ai + packsOf l ≤ caps.arena_cap) :
    ∃ s', l.foldlM (add m mem caps) s = some s' ∧
      Moves s s' (slotsOf m mem l) (normsOf l) (packsOf l) (l.all fun a => a.loads m mem) := by
  induction l generalizing s with
  | nil => exact ⟨s, rfl, rfl, le_refl _, le_refl _, by simp⟩
  | cons a l ih =>
      simp only [slotsOf, List.map_cons, List.sum_cons, normsOf_cons, packsOf_cons] at hti hni hai
      simp only [slotsOf, List.map_cons, List.sum_cons, normsOf_cons, packsOf_cons] at ih ⊢
      have hroom : s.ti + a.slots m mem ≤ caps.n_t := by omega
      obtain ⟨s₁, hstep, hmoves⟩ := add_moves m mem hroom (by omega) (by omega)
      have hti₁ := hmoves.ti
      have hni₁ := hmoves.ni
      have hai₁ := hmoves.ai
      obtain ⟨s', hrun, hmoves'⟩ := ih (s := s₁) (by omega) (by omega) (by omega)
      refine ⟨s', ?_, hmoves.trans hmoves'⟩
      rw [List.foldlM_cons, hstep]
      exact hrun

theorem adds_short {l : List Add} {s : Filled} (hfull : s.ti ≤ caps.n_t)
    (hti : caps.n_t < s.ti + slotsOf m mem l) (hni : s.ni + normsOf l ≤ caps.norm_cap)
    (hai : s.ai + packsOf l ≤ caps.arena_cap) : l.foldlM (add m mem caps) s = none := by
  induction l generalizing s with
  | nil =>
      simp only [slotsOf, List.map_nil, List.sum_nil] at hti
      omega
  | cons a l ih =>
      simp only [slotsOf, List.map_cons, List.sum_cons, normsOf_cons, packsOf_cons] at hti hni hai
      simp only [slotsOf] at ih
      rw [List.foldlM_cons]
      rcases Nat.lt_or_ge caps.n_t (s.ti + a.slots m mem) with hshort | hroom
      · rw [add_short m mem hfull hshort]
        rfl
      · obtain ⟨s₁, hstep, hmoves⟩ := add_moves m mem hroom (by omega) (by omega)
        have hti₁ := hmoves.ti
        have hni₁ := hmoves.ni
        have hai₁ := hmoves.ai
        rw [hstep]
        exact ih (s := s₁) (by omega) (by omega) (by omega) (by omega)

theorem Add.slots_le (a : Add) : a.slots m mem ≤ 1 := by
  unfold Add.slots
  split <;> omega

theorem Add.slots_eq_one_iff (a : Add) :
    a.slots m mem = 1 ↔ (a.isNorm = true → a.loads m mem = true) := by
  unfold Add.slots
  cases a.isNorm <;> cases a.loads m mem <;> simp

/-- A list takes a slot an addition, but for the norms that are not there. -/
theorem slotsOf_le (l : List Add) : slotsOf m mem l ≤ l.length ∧
    (slotsOf m mem l = l.length ↔ ∀ a ∈ l, a.isNorm = true → a.loads m mem = true) := by
  induction l with
  | nil => simp [slotsOf]
  | cons a l ih =>
      have hcons : slotsOf m mem (a :: l) = a.slots m mem + slotsOf m mem l := rfl
      have ha := a.slots_le m mem
      have hone := a.slots_eq_one_iff m mem
      rw [hcons, List.length_cons, List.forall_mem_cons, ← hone, ← ih.2]
      omega

/-- Every norm is there, and every packed tensor outside the last stage. -/
def Full : List (List Add) → Prop
  | [] => True
  | l :: ls => (∀ a ∈ l, a.isNorm = true → a.loads m mem = true) ∧
      (ls ≠ [] → ∀ a ∈ l, a.loads m mem = true) ∧ Full ls

def total (f : List Add → Nat) (ls : List (List Add)) : Nat := (ls.map f).sum

/-- Where at most one tensor slot is missing, it is missed when and only when nothing fails
before the last stage and that stage takes all of its slots. -/
theorem addStages_none_iff {ls : List (List Add)} (hls : ∀ l ∈ ls, l ≠ []) {s : Filled}
    (hfull : s.ti ≤ caps.n_t) (hti : s.ti + total List.length ls ≤ caps.n_t + 1)
    (hni : s.ni + total normsOf ls ≤ caps.norm_cap)
    (hai : s.ai + total packsOf ls ≤ caps.arena_cap) :
    addStages m mem caps ls s = none ↔
      s.rc = false ∧ s.ti + total List.length ls = caps.n_t + 1 ∧ Full m mem ls := by
  induction ls generalizing s with
  | nil =>
      simp only [total, List.map_nil, List.sum_nil, addStages]
      constructor
      · intro h
        cases h
      · rintro ⟨-, heq, -⟩
        omega
  | cons l ls ih =>
      have hcons : ∀ f, total f (l :: ls) = f l + total f ls := fun f => rfl
      rw [hcons] at hti hni hai ⊢
      rw [addStages]
      cases hrc : s.rc with
      | true => simp
      | false =>
          rw [if_neg (by simp)]
          obtain ⟨hle, hnorms⟩ := slotsOf_le m mem l
          rcases Nat.lt_or_ge caps.n_t (s.ti + slotsOf m mem l) with hshort | hroom
          · -- the stage itself runs out
            rw [adds_short m mem hfull hshort (by omega) (by omega), Option.bind_none]
            have hrest : ls = [] := by
              cases ls with
              | nil => rfl
              | cons l' ls' =>
                  have hpos := List.length_pos_iff.mpr
                    (hls l' (List.mem_cons_of_mem _ List.mem_cons_self))
                  have hcons' : total List.length (l' :: ls') = l'.length + total List.length ls' :=
                    rfl
                  omega
            have heq : s.ti + (l.length + total List.length ls) = caps.n_t + 1 := by omega
            have hall : slotsOf m mem l = l.length := by omega
            exact iff_of_true rfl ⟨rfl, heq, hnorms.mp hall, fun hne => absurd hrest hne,
              by rw [hrest]; trivial⟩
          · obtain ⟨s₁, hrun, hmoves⟩ := adds_moves m mem hroom (by omega) (by omega)
            have hti₁ := hmoves.ti
            have hni₁ := hmoves.ni
            have hai₁ := hmoves.ai
            have hrc₁ : s₁.rc = !l.all fun a => a.loads m mem := by
              rw [hmoves.rc, hrc, Bool.false_or]
            rw [hrun, Option.bind_some, ih (fun l hl => hls l (List.mem_cons_of_mem _ hl))
              (by omega) (by omega) (by omega) (by omega), hrc₁, Bool.not_eq_false',
              List.all_eq_true]
            constructor
            · rintro ⟨hall, heq, hrest⟩
              have hnormsAll : ∀ a ∈ l, a.isNorm = true → a.loads m mem = true :=
                fun a ha _ => hall a ha
              have hslots := hnorms.mpr hnormsAll
              exact ⟨rfl, by omega, hnormsAll, fun _ => hall, hrest⟩
            · rintro ⟨-, heq, hnormsAll, hall, hrest⟩
              have hslots := hnorms.mpr hnormsAll
              have hmore : ls ≠ [] := by
                rintro rfl
                simp only [total, List.map_nil, List.sum_nil] at heq
                omega
              exact ⟨hall hmore, by omega, hrest⟩

end Run

/-! ## The counts of the architectures -/

theorem total_const {f : List Add → Nat} {ls : List (List Add)} {c : Nat} (h : ∀ l ∈ ls, f l = c) :
    total f ls = ls.length * c := by
  induction ls with
  | nil => simp [total]
  | cons l ls ih =>
      have hrest := ih fun l hl => h l (List.mem_cons_of_mem _ hl)
      rw [total] at hrest ⊢
      rw [List.map_cons, List.sum_cons, hrest, h l List.mem_cons_self, List.length_cons]
      ring

theorem total_layers {f : List Add → Nat} {layer : Nat → List Add} {c : Nat}
    (h : ∀ i, f (layer i) = c) (n : Nat) : total f ((List.range n).map layer) = n * c := by
  rw [total_const (c := c), List.length_map, List.length_range]
  intro l hl
  obtain ⟨i, -, rfl⟩ := List.mem_map.mp hl
  exact h i

/-- The head of the model is a tensor of its own. -/
def SpModel.Untied (m : SpModel) : Prop := (m.find_tensor "output.weight").isSome = true

instance (m : SpModel) : Decidable m.Untied :=
  inferInstanceAs (Decidable ((m.find_tensor "output.weight").isSome = true))

theorem headAdds_counts (m : SpModel) :
    (headAdds m).length = (if m.Untied then 3 else 2) ∧ normsOf (headAdds m) = 1 ∧
      packsOf (headAdds m) = if m.Untied then 2 else 1 := by
  by_cases huntied : m.Untied
  · have hsome : (m.find_tensor "output.weight").isSome = true := huntied
    rw [if_pos huntied, if_pos huntied, headAdds, if_pos hsome]
    exact ⟨rfl, rfl, rfl⟩
  · have hnone : ¬ (m.find_tensor "output.weight").isSome = true := huntied
    rw [if_neg huntied, if_neg huntied, headAdds, if_neg hnone]
    exact ⟨rfl, rfl, rfl⟩

/-- The tensors and norms of a layer of the first builder. -/
def layerTensors (sai : ArchInfo) : Nat :=
  if sai.arch_id = archIdGemma3 then 13 else if sai.has_qk_norm then 11 else 9

theorem qwen3Layer_counts (sai : ArchInfo) (i : Nat) :
    (qwen3Layer sai i).length = layerTensors sai ∧
      normsOf (qwen3Layer sai i) = layerTensors sai - 7 ∧ packsOf (qwen3Layer sai i) = 7 := by
  unfold qwen3Layer layerTensors
  split
  case isTrue => simp
  case isFalse =>
      split <;> simp

theorem layerTensors_cases (sai : ArchInfo) : layerTensors sai ≤ 13 ∧
    (layerTensors sai = 13 ↔ sai.arch_id = archIdGemma3) ∧
    (layerTensors sai ≠ 13 → layerTensors sai ≤ 11) := by
  unfold layerTensors
  split
  case isTrue hgemma => simp [hgemma]
  case isFalse hother =>
      split <;> simp [hother]

theorem layerTensors_pos (sai : ArchInfo) : 0 < layerTensors sai := by
  unfold layerTensors
  split
  case isTrue => decide
  case isFalse => split <;> decide

theorem tableSize_some {base each : Int} {n_layers : UInt32} (hbase : 0 ≤ base ∧ base ≤ 3)
    (heach : 0 ≤ each) (hsize : |wrap n_layers.toNat| * each ≤ 2 ^ 31 - 4) :
    tableSize base each n_layers = some (base + wrap n_layers.toNat * each) := by
  have habs : |wrap n_layers.toNat * each| ≤ 2 ^ 31 - 4 := by
    rwa [abs_mul, abs_of_nonneg heach]
  obtain ⟨hlow, hhigh⟩ := abs_le.mp habs
  rw [tableSize, checked_of_fits ⟨by omega, by omega⟩]
  exact checked_of_fits ⟨by omega, by omega⟩

theorem tableSize_none {base each : Int} {n_layers : UInt32}
    (hlayers : ¬ Fits (wrap n_layers.toNat * each)) : tableSize base each n_layers = none := by
  rw [tableSize, checked, if_neg hlayers]
  rfl

theorem qwen3Sizes_eq (n_layers : UInt32) :
    qwen3Sizes n_layers = if |wrap n_layers.toNat| ≤ 165191049 then
      some (2 + wrap n_layers.toNat * 13, 1 + wrap n_layers.toNat * 6,
        2 + wrap n_layers.toNat * 7) else none := by
  split
  case isTrue hbound =>
      rw [qwen3Sizes, tableSize_some (by decide) (by decide) (by omega),
        tableSize_some (by decide) (by decide) (by omega),
        tableSize_some (by decide) (by decide) (by omega)]
      rfl
  case isFalse hpast =>
      have hover : ¬ Fits (wrap n_layers.toNat * 13) := by
        rw [abs_le] at hpast
        unfold Fits
        omega
      rw [qwen3Sizes, tableSize_none hover]
      rfl

theorem qwen25Sizes_eq {has_output_w : Nat} (hout : has_output_w ≤ 1) (n_layers : UInt32) :
    qwen25Sizes has_output_w n_layers = if |wrap n_layers.toNat| ≤ 178956970 then
      some (2 + has_output_w + wrap n_layers.toNat * 12, 1 + wrap n_layers.toNat * 5,
        1 + has_output_w + wrap n_layers.toNat * 7) else none := by
  split
  case isTrue hbound =>
      rw [qwen25Sizes, tableSize_some ⟨by omega, by omega⟩ (by decide) (by omega),
        tableSize_some (by decide) (by decide) (by omega),
        tableSize_some ⟨by omega, by omega⟩ (by decide) (by omega)]
      rfl
  case isFalse hpast =>
      have hover : ¬ Fits (wrap n_layers.toNat * 12) := by
        rw [abs_le] at hpast
        unfold Fits
        omega
      rw [qwen25Sizes, tableSize_none hover]
      rfl

/-- The number of layers as an `int`: itself, or negative from `2 ^ 31` on. -/
theorem wrap_layers (n_layers : UInt32) :
    0 ≤ wrap n_layers.toNat ↔ n_layers.toNat < 2 ^ 31 ∧ wrap n_layers.toNat = n_layers.toNat := by
  have hword := n_layers.toNat_lt
  constructor
  · intro hpos
    rcases Nat.lt_or_ge n_layers.toNat (2 ^ 31) with hlow | hhigh
    · exact ⟨hlow, wrap_of_fits ⟨by omega, by omega⟩⟩
    · have hturn : wrap (n_layers.toNat - 2 ^ 32) = wrap n_layers.toNat :=
        Int.sub_bmod_right n_layers.toNat (2 ^ 32)
      rw [wrap_of_fits ⟨by omega, by omega⟩] at hturn
      omega
  · rintro ⟨-, heq⟩
    omega

/-- A builder runs out of a table where the formulas overflow, or where the tables are there and
the stages need more of one. -/
theorem build_none_iff (m : SpModel) (mem : Memory) (tag : String)
    (sizes : Option (Int × Int × Int)) (layers : List (List Add)) :
    build m mem tag sizes layers = none ↔ ∀ size, sizes = some size →
      ∃ caps, allocate mem size.1 size.2.1 size.2.2 = some caps ∧
        addStages m mem caps (headAdds m :: layers) ⟨0, 0, 0, false, ""⟩ = none := by
  cases sizes with
  | none => simp [build]
  | some size =>
      rw [build, Option.bind_eq_bind, Option.bind_some]
      cases hcaps : allocate mem size.1 size.2.1 size.2.2 with
      | none => simp [hcaps]
      | some caps =>
          cases hrun : addStages m mem caps (headAdds m :: layers) ⟨0, 0, 0, false, ""⟩ with
          | none => simp [hcaps, hrun]
          | some s =>
              simp only [hrun, Option.bind_eq_bind, Option.bind_some]
              split
              case isTrue => simp [hcaps, hrun]
              case isFalse => split <;> simp [hcaps, hrun]

theorem allocate_nonneg {mem : Memory} {n_t norm_cap arena_cap : Nat} (caps : Caps) :
    allocate mem n_t norm_cap arena_cap = some caps ↔
      mem.tables = true ∧ caps = ⟨n_t, norm_cap, arena_cap⟩ := by
  unfold allocate
  by_cases htables : mem.tables = true
  · simp [htables, eq_comm]
  · simp [htables]

theorem allocate_negative {mem : Memory} {n_t : Int} (hneg : n_t < 0) (norm_cap arena_cap : Int) :
    allocate mem n_t norm_cap arena_cap = none :=
  if_neg fun h => absurd h.2.1 (by omega)

/-- The stages of a builder for the layers of a model, in tables of given sizes. -/
theorem stages_short_iff (m : SpModel) (mem : Memory) {layer : Nat → List Add} {n each norms : Nat}
    (hlength : ∀ i, (layer i).length = each) (hpos : 0 < each)
    (hnorms : ∀ i, normsOf (layer i) = norms) (hpacks : ∀ i, packsOf (layer i) = 7) {caps : Caps}
    (hti : (headAdds m).length + n * each ≤ caps.n_t + 1)
    (hni : 1 + n * norms ≤ caps.norm_cap)
    (hai : packsOf (headAdds m) + n * 7 ≤ caps.arena_cap) :
    addStages m mem caps (headAdds m :: (List.range n).map layer) ⟨0, 0, 0, false, ""⟩ = none ↔
      (headAdds m).length + n * each = caps.n_t + 1 ∧
        Full m mem (headAdds m :: (List.range n).map layer) := by
  obtain ⟨-, hheadNorms, -⟩ := headAdds_counts m
  have hne : ∀ l ∈ headAdds m :: (List.range n).map layer, l ≠ [] := by
    intro l hl
    rcases List.mem_cons.mp hl with rfl | hl
    · exact List.cons_ne_nil _ _
    · obtain ⟨i, -, rfl⟩ := List.mem_map.mp hl
      exact List.ne_nil_of_length_pos (by rw [hlength]; exact hpos)
  have hcons : ∀ f, total f (headAdds m :: (List.range n).map layer) =
      f (headAdds m) + total f ((List.range n).map layer) := fun f => rfl
  have htotal := hcons List.length
  have htotalNorms := hcons normsOf
  have htotalPacks := hcons packsOf
  rw [total_layers hlength] at htotal
  rw [total_layers hnorms, hheadNorms] at htotalNorms
  rw [total_layers hpacks] at htotalPacks
  rw [addStages_none_iff m mem hne (Nat.zero_le _) (by dsimp only; omega) (by dsimp only; omega)
    (by dsimp only; omega), htotal]
  simp

theorem build_sized (m : SpModel) (mem : Memory) (tag : String) (n_t norm_cap arena_cap : Nat)
    (layers : List (List Add)) :
    build m mem tag (some ((n_t : Int), (norm_cap : Int), (arena_cap : Int))) layers = none ↔
      mem.tables = true ∧ addStages m mem ⟨n_t, norm_cap, arena_cap⟩ (headAdds m :: layers)
        ⟨0, 0, 0, false, ""⟩ = none := by
  rw [build_none_iff]
  constructor
  · intro h
    obtain ⟨caps, hcaps, hrun⟩ := h _ rfl
    obtain ⟨htables, rfl⟩ := (allocate_nonneg caps).mp hcaps
    exact ⟨htables, hrun⟩
  · rintro ⟨htables, hrun⟩ size hsize
    obtain rfl := Option.some.inj hsize
    exact ⟨_, (allocate_nonneg _).mpr ⟨htables, rfl⟩, hrun⟩

theorem build_negative (m : SpModel) (mem : Memory) (tag : String) {n_t norm_cap arena_cap : Int}
    (hneg : n_t < 0) (layers : List (List Add)) :
    build m mem tag (some (n_t, norm_cap, arena_cap)) layers ≠ none := by
  rw [ne_eq, build_none_iff]
  intro h
  obtain ⟨caps, hcaps, -⟩ := h _ rfl
  rw [allocate_negative hneg] at hcaps
  cases hcaps

/-- The first builder is past the checks before its tables. -/
structure Reaches (base : Nat) (m : SpModel) (mem : Memory) : Prop where
  model : mem.model = true
  struct : base ≤ m.arch_struct_size
  vocab : m.arch_struct.vocab_size = m.vocab_size

/-- The models whose head takes the slot that the first builder does not have: the head is a
tensor of its own, every layer uses all of its slots, and nothing fails before the end. -/
structure HeadUncounted (m : SpModel) (mem : Memory) : Prop where
  untied : m.Untied
  layers : m.arch_struct.arch_id = archIdGemma3 ∨ m.arch_struct.n_layers = 0
  allocated : m.arch_struct.n_layers.toNat < 2 ^ 31 ∧ mem.tables = true
  loaded : Full m mem (headAdds m ::
    (List.range m.arch_struct.n_layers.toNat).map (qwen3Layer m.arch_struct))

/-- The tensors of a model are one more than the slots for an untied model without a slot to
spare in its layers. -/
theorem head_over_iff (m : SpModel) (n_layers : UInt32) :
    (headAdds m).length + n_layers.toNat * layerTensors m.arch_struct =
        2 + n_layers.toNat * 13 + 1 ↔
      m.Untied ∧ (m.arch_struct.arch_id = archIdGemma3 ∨ n_layers = 0) := by
  obtain ⟨hhead, -, -⟩ := headAdds_counts m
  obtain ⟨hmost, hgemma, -⟩ := layerTensors_cases m.arch_struct
  have hlayers : n_layers.toNat * layerTensors m.arch_struct ≤ n_layers.toNat * 13 :=
    Nat.mul_le_mul_left _ hmost
  rw [hhead]
  split
  case isTrue huntied =>
      have heq : n_layers.toNat * layerTensors m.arch_struct = n_layers.toNat * 13 ↔
          m.arch_struct.arch_id = archIdGemma3 ∨ n_layers = 0 := by
        rw [mul_eq_mul_left_iff, hgemma, ← UInt32.toNat_inj, UInt32.toNat_zero]
      rw [← heq]
      constructor
      · intro h
        exact ⟨huntied, by omega⟩
      · rintro ⟨-, h⟩
        omega
  case isFalse htied =>
      constructor
      · intro h
        omega
      · rintro ⟨h, -⟩
        exact absurd h htied

theorem build_qwen3_none_iff (m : SpModel) (mem : Memory) :
    build m mem "adapter" (qwen3Sizes m.arch_struct.n_layers)
        ((List.range m.arch_struct.n_layers.toNat).map (qwen3Layer m.arch_struct)) = none ↔
      (|wrap m.arch_struct.n_layers.toNat| ≤ 165191049 → HeadUncounted m mem) := by
  rw [qwen3Sizes_eq]
  split
  case isFalse hpast => exact iff_of_true rfl fun hbound => absurd hbound hpast
  case isTrue hbound =>
      rw [forall_prop_of_true hbound]
      rcases lt_or_ge (wrap m.arch_struct.n_layers.toNat) 0 with hneg | hpos
      · have hlarge : ¬ HeadUncounted m mem := by
          intro h
          have hsmall := h.allocated.1
          rw [wrap_of_fits ⟨by omega, by omega⟩] at hneg
          omega
        exact iff_of_false (build_negative m mem _ (by omega) _) hlarge
      · obtain ⟨hsmall, hwrap⟩ := (wrap_layers m.arch_struct.n_layers).mp hpos
        have hrun := build_sized m mem "adapter" (2 + m.arch_struct.n_layers.toNat * 13)
          (1 + m.arch_struct.n_layers.toNat * 6) (2 + m.arch_struct.n_layers.toNat * 7)
          ((List.range m.arch_struct.n_layers.toNat).map (qwen3Layer m.arch_struct))
        push_cast at hrun
        have hmost := (layerTensors_cases m.arch_struct).1
        obtain ⟨hhead, -, hheadPacks⟩ := headAdds_counts m
        have hlayers : m.arch_struct.n_layers.toNat * layerTensors m.arch_struct ≤
            m.arch_struct.n_layers.toNat * 13 := Nat.mul_le_mul_left _ hmost
        have hnorms : m.arch_struct.n_layers.toNat * (layerTensors m.arch_struct - 7) ≤
            m.arch_struct.n_layers.toNat * 6 := Nat.mul_le_mul_left _ (by omega)
        rw [hwrap, hrun, stages_short_iff m mem (fun i => (qwen3Layer_counts _ i).1)
          (layerTensors_pos _) (fun i => (qwen3Layer_counts _ i).2.1)
          (fun i => (qwen3Layer_counts _ i).2.2) (by dsimp only; rw [hhead]; split <;> omega)
          (by dsimp only; omega) (by dsimp only; rw [hheadPacks]; split <;> omega), head_over_iff]
        constructor
        · rintro ⟨htables, ⟨huntied, hall⟩, hloaded⟩
          exact ⟨huntied, hall, ⟨hsmall, htables⟩, hloaded⟩
        · rintro ⟨huntied, hall, ⟨-, htables⟩, hloaded⟩
          exact ⟨htables, ⟨huntied, hall⟩, hloaded⟩

theorem qwen25Layer_counts (i : Nat) : (qwen25Layer i).length = 12 ∧ normsOf (qwen25Layer i) = 5 ∧
    packsOf (qwen25Layer i) = 7 := by
  simp [qwen25Layer]

/-- The second builder counts the head: only its formulas can fail it. -/
theorem build_qwen25_none_iff (m : SpModel) (mem : Memory) :
    build m mem "adapter25" (qwen25Sizes (if (m.find_tensor "output.weight").isSome then 1 else 0)
        m.arch_struct.n_layers) ((List.range m.arch_struct.n_layers.toNat).map qwen25Layer) = none ↔
      178956970 < |wrap m.arch_struct.n_layers.toNat| := by
  obtain ⟨has, hhas⟩ : ∃ has, (if (m.find_tensor "output.weight").isSome then 1 else 0) = has :=
    ⟨_, rfl⟩
  obtain ⟨hle, hhead, hheadPacks⟩ : has ≤ 1 ∧ (headAdds m).length = 2 + has ∧
      packsOf (headAdds m) = 1 + has := by
    obtain ⟨hhead, -, hheadPacks⟩ := headAdds_counts m
    split at hhas
    case isTrue hhasHead =>
        have huntied : m.Untied := hhasHead
        rw [hhead, hheadPacks, if_pos huntied, if_pos huntied]
        omega
    case isFalse hnoHead =>
        have htied : ¬ m.Untied := hnoHead
        rw [hhead, hheadPacks, if_neg htied, if_neg htied]
        omega
  rw [hhas, qwen25Sizes_eq hle]
  split
  case isFalse hpast => exact iff_of_true rfl (not_le.mp hpast)
  case isTrue hbound =>
      apply iff_of_false _ (not_lt.mpr hbound)
      rcases lt_or_ge (wrap m.arch_struct.n_layers.toNat) 0 with hneg | hpos
      · exact build_negative m mem _ (by omega) _
      · obtain ⟨-, hwrap⟩ := (wrap_layers m.arch_struct.n_layers).mp hpos
        have hrun := build_sized m mem "adapter25" (2 + has + m.arch_struct.n_layers.toNat * 12)
          (1 + m.arch_struct.n_layers.toNat * 5) (1 + has + m.arch_struct.n_layers.toNat * 7)
          ((List.range m.arch_struct.n_layers.toNat).map qwen25Layer)
        push_cast at hrun
        rw [hwrap, hrun, stages_short_iff m mem (fun i => (qwen25Layer_counts i).1) (by decide)
          (fun i => (qwen25Layer_counts i).2.1) (fun i => (qwen25Layer_counts i).2.2)
          (by dsimp only; omega) (by dsimp only; omega) (by dsimp only; omega)]
        rintro ⟨-, hover, -⟩
        dsimp only at hover
        omega

theorem refused_or {α : Type} {p : Prop} [Decidable p] {a : α} {r : Option α} :
    (if p then some a else r) ≠ none ↔ (¬ p → r ≠ none) := by
  split
  case isTrue h => exact iff_of_true (Option.some_ne_none a) fun hp => absurd h hp
  case isFalse h => exact ⟨fun hr _ => hr, fun hr => hr h⟩

/-- No builder writes past a table of its own, but for the head of an untied model in the first
one; the formulas overflow from about 165 million layers on. -/
theorem adapters_fit_iff (base : Nat) (m : SpModel) (mem : Memory) :
    (sp_model_to_qwen3 base m mem ≠ none ↔ (Reaches base m mem →
      |wrap m.arch_struct.n_layers.toNat| ≤ 165191049 ∧ ¬ HeadUncounted m mem)) ∧
    (sp_model_to_qwen25 base m mem ≠ none ↔ (m.arch_id = archIdQwen25 → Reaches base m mem →
      |wrap m.arch_struct.n_layers.toNat| ≤ 178956970)) := by
  have hreaches : Reaches base m mem ↔ ¬ mem.model = false ∧ ¬ m.arch_struct_size < base ∧
      ¬ m.arch_struct.vocab_size ≠ m.vocab_size := by
    constructor
    · intro h
      exact ⟨by rw [h.model]; decide, not_lt.mpr h.struct, not_not.mpr h.vocab⟩
    · rintro ⟨hmodel, hstruct, hvocab⟩
      exact ⟨(Bool.not_eq_false _).mp hmodel, not_lt.mp hstruct, not_not.mp hvocab⟩
  rw [hreaches]
  constructor
  · rw [sp_model_to_qwen3, refused_or, refused_or, refused_or, and_imp, and_imp]
    simp only [ne_eq, build_qwen3_none_iff, Classical.not_imp]
  · rw [sp_model_to_qwen25, refused_or, refused_or, refused_or, refused_or]
    simp only [ne_eq, build_qwen25_none_iff, not_lt]
    constructor
    · rintro h harch ⟨hmodel, hstruct, hvocab⟩
      exact h (not_not.mpr harch) hstruct hvocab hmodel
    · intro h harch hstruct hvocab hmodel
      exact h (not_not.mp harch) ⟨hmodel, hstruct, hvocab⟩

/-- A Gemma3 model of one layer with a head of its own and every tensor in the file. -/
def untiedGemma3 : SpModel where
  find_tensor name :=
    if name ∈ ["output_norm.weight", "blk.0.attn_norm.weight", "blk.0.ffn_norm.weight",
        "blk.0.attn_q_norm.weight", "blk.0.attn_k_norm.weight", "blk.0.post_attention_norm.weight",
        "blk.0.post_ffw_norm.weight"] then some ⟨.f32, [1], 4, true⟩
    else if name ∈ ["token_embd.weight", "output.weight", "blk.0.attn_q.weight",
        "blk.0.attn_k.weight", "blk.0.attn_v.weight", "blk.0.attn_output.weight",
        "blk.0.ffn_gate.weight", "blk.0.ffn_up.weight", "blk.0.ffn_down.weight"] then
      some ⟨.okQ8, [1, 1], 1, true⟩
    else some ⟨.frobeniusScaleFp32, [1], 4, true⟩
  arch_id := archIdGemma3
  vocab_size := 1
  arch_struct_size := 256
  arch_struct := ⟨archIdGemma3, 1, 1, true⟩

/-- Its head takes one of the fifteen tensor slots, and the last norm finds none. -/
theorem adapter_past_tables :
    (sp_model_to_qwen3 56 untiedGemma3 ⟨true, true, fun _ => true, true⟩).isNone = true := by
  decide

end ShannonPrime.Model
