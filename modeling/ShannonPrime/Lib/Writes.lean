import Mathlib.Data.List.Nodup
import Mathlib.Data.List.Perm.Basic
import Mathlib.Logic.Function.Basic

/-!
The writes of a kernel to one buffer, as a list of addresses and values. Where the threads of a
grid write distinct cells, each is written once, and the buffer holds the values whatever order
the writes have.
-/

namespace ShannonPrime.Writes

variable {α ι : Type*}

/-- The buffer after some writes. -/
def run (m : Nat → α) (ws : List (Nat × α)) : Nat → α :=
  ws.foldl (fun m w => Function.update m w.1 w.2) m

/-- The writes reach these cells, each once and with its value. -/
structure Exactly (ws : List (Nat × α)) (cells : Nat → Prop) (value : Nat → α) : Prop where
  once : (ws.map Prod.fst).Nodup
  mem : ∀ w, w ∈ ws ↔ cells w.1 ∧ w.2 = value w.1

variable {ws : List (Nat × α)} {cells cells' : Nat → Prop} {value value' : Nat → α}

theorem Exactly.mem_address (h : Exactly ws cells value) {a : Nat} :
    a ∈ ws.map Prod.fst ↔ cells a := by
  constructor
  · intro ha
    obtain ⟨w, hw, rfl⟩ := List.mem_map.mp ha
    exact ((h.mem w).mp hw).1
  · intro ha
    exact List.mem_map.mpr ⟨(a, value a), (h.mem _).mpr ⟨ha, rfl⟩, rfl⟩

theorem exactly_nil (value : Nat → α) : Exactly [] (fun _ => False) value :=
  ⟨List.nodup_nil, fun _ => ⟨fun h => absurd h List.not_mem_nil, fun h => h.1.elim⟩⟩

theorem exactly_single (value : Nat → α) (a : Nat) :
    Exactly [(a, value a)] (fun b => b = a) value := by
  refine ⟨List.nodup_singleton a, fun w => ?_⟩
  rw [List.mem_singleton]
  constructor
  · rintro rfl
    exact ⟨rfl, rfl⟩
  · rintro ⟨ha, hv⟩
    exact Prod.ext ha (hv.trans (congrArg value ha))

theorem Exactly.congr (h : Exactly ws cells value) (hcells : ∀ a, cells a ↔ cells' a)
    (hvalue : ∀ a, cells a → value a = value' a) : Exactly ws cells' value' := by
  refine ⟨h.once, fun w => ?_⟩
  rw [h.mem, ← hcells]
  constructor
  · rintro ⟨hw, hv⟩
    exact ⟨hw, hv.trans (hvalue _ hw)⟩
  · rintro ⟨hw, hv⟩
    exact ⟨hw, hv.trans (hvalue _ hw).symm⟩

/-- The writes of threads that reach distinct cells. -/
theorem exactly_flatMap {l : List ι} {part : ι → List (Nat × α)} {reach : ι → Nat → Prop}
    (hl : l.Nodup) (hpart : ∀ i ∈ l, Exactly (part i) (reach i) value)
    (hdisjoint : ∀ i ∈ l, ∀ j ∈ l, ∀ a, reach i a → reach j a → i = j) :
    Exactly (l.flatMap part) (fun a => ∃ i ∈ l, reach i a) value := by
  refine ⟨?_, fun w => ?_⟩
  · rw [List.map_flatMap, List.nodup_flatMap]
    refine ⟨fun i hi => (hpart i hi).once, hl.imp_of_mem fun {i j} hi hj hne => ?_⟩
    apply List.disjoint_left.mpr
    intro a ha ha'
    rw [(hpart i hi).mem_address] at ha
    rw [(hpart j hj).mem_address] at ha'
    exact hne (hdisjoint i hi j hj a ha ha')
  · rw [List.mem_flatMap]
    constructor
    · rintro ⟨i, hi, hw⟩
      obtain ⟨hreach, hv⟩ := ((hpart i hi).mem w).mp hw
      exact ⟨⟨i, hi, hreach⟩, hv⟩
    · rintro ⟨⟨i, hi, hreach⟩, hv⟩
      exact ⟨i, hi, ((hpart i hi).mem w).mpr ⟨hreach, hv⟩⟩

/-- A buffer that is passed on from some base on. -/
theorem Exactly.shift (h : Exactly ws cells value) (base : Nat)
    (hvalue : ∀ a, cells a → value a = value' (base + a)) :
    Exactly (ws.map fun w => (base + w.1, w.2)) (fun a => ∃ b, cells b ∧ a = base + b) value' := by
  refine ⟨?_, fun w => ?_⟩
  · rw [List.map_map]
    have hmap : (Prod.fst ∘ fun w : Nat × α => (base + w.1, w.2)) = (base + ·) ∘ Prod.fst := rfl
    rw [hmap, ← List.map_map]
    exact h.once.map fun a b hab => Nat.add_left_cancel hab
  · rw [List.mem_map]
    constructor
    · rintro ⟨v, hv, rfl⟩
      obtain ⟨hcell, heq⟩ := (h.mem v).mp hv
      exact ⟨⟨v.1, hcell, rfl⟩, heq.trans (hvalue _ hcell)⟩
    · rintro ⟨⟨b, hb, hw⟩, hv⟩
      refine ⟨(b, value b), (h.mem _).mpr ⟨hb, rfl⟩, Prod.ext hw.symm ?_⟩
      rw [hv, hw, hvalue b hb]

theorem run_append (m : Nat → α) (ws ws' : List (Nat × α)) :
    run m (ws ++ ws') = run (run m ws) ws' := List.foldl_append

theorem run_outside (m : Nat → α) {a : Nat} (ha : a ∉ ws.map Prod.fst) : run m ws a = m a := by
  induction ws generalizing m with
  | nil => rfl
  | cons w ws ih =>
      rw [List.map_cons, List.mem_cons, not_or] at ha
      exact (ih _ ha.2).trans (Function.update_of_ne ha.1 _ _)

/-- A cell that is written holds its value. -/
theorem Exactly.run_inside (h : Exactly ws cells value) (m : Nat → α) {a : Nat} (ha : cells a) :
    run m ws a = value a := by
  obtain ⟨before, after, rfl⟩ := List.append_of_mem ((h.mem (a, value a)).mpr ⟨ha, rfl⟩)
  have honce := h.once
  rw [List.map_append, List.map_cons, List.nodup_append] at honce
  have hafter : a ∉ after.map Prod.fst := (List.nodup_cons.mp honce.2.1).1
  have hstep : run m (before ++ (a, value a) :: after) =
      run (Function.update (run m before) a (value a)) after := by
    rw [run_append]
    rfl
  rw [hstep, run_outside _ hafter, Function.update_self]

theorem Exactly.run_outside (h : Exactly ws cells value) (m : Nat → α) {a : Nat} (ha : ¬ cells a) :
    run m ws a = m a :=
  Writes.run_outside m fun hmem => ha (h.mem_address.mp hmem)

/-- The order of the writes makes no difference. -/
theorem Exactly.perm (h : Exactly ws cells value) {ws' : List (Nat × α)} (hperm : ws'.Perm ws) :
    Exactly ws' cells value :=
  ⟨(hperm.map Prod.fst).nodup_iff.mpr h.once, fun w => hperm.mem_iff.trans (h.mem w)⟩

/-- Blocks of `w` threads that share the numbers below `n`, those beyond writing nothing. -/
theorem exactly_tiles {w n : Nat} (hw : 0 < w) {part : Nat → List (Nat × α)}
    {reach : Nat → Nat → Prop} (hpart : ∀ j < n, Exactly (part j) (reach j) value)
    (hbeyond : ∀ j, n ≤ j → part j = [])
    (hdisjoint : ∀ i < n, ∀ j < n, ∀ a, reach i a → reach j a → i = j) :
    Exactly ((List.range ((n + (w - 1)) / w)).flatMap fun b => (List.range w).flatMap fun t =>
      part (b * w + t)) (fun a => ∃ j < n, reach j a) value := by
  have hall : ∀ j, Exactly (part j) (fun a => j < n ∧ reach j a) value := by
    intro j
    rcases Nat.lt_or_ge j n with hj | hj
    · exact (hpart j hj).congr (fun a => ⟨fun h => ⟨hj, h⟩, fun h => h.2⟩) fun _ _ => rfl
    · rw [hbeyond j hj]
      exact (exactly_nil value).congr (fun a => ⟨False.elim, fun h => by omega⟩) fun _ _ => rfl
  have hsplit : ∀ b t, t < w → (b * w + t) / w = b ∧ (b * w + t) % w = t := by
    intro b t ht
    constructor
    · rw [Nat.mul_comm, Nat.mul_add_div hw, Nat.div_eq_of_lt ht, Nat.add_zero]
    · rw [Nat.mul_comm, Nat.mul_add_mod, Nat.mod_eq_of_lt ht]
  have hblock : ∀ b ∈ List.range ((n + (w - 1)) / w),
      Exactly ((List.range w).flatMap fun t => part (b * w + t))
        (fun a => ∃ t ∈ List.range w, b * w + t < n ∧ reach (b * w + t) a) value := by
    intro b _
    refine exactly_flatMap List.nodup_range (fun t _ => hall (b * w + t)) ?_
    rintro t _ t' _ a ⟨hj, ha⟩ ⟨hj', ha'⟩
    have := hdisjoint _ hj _ hj' a ha ha'
    omega
  refine (exactly_flatMap List.nodup_range hblock ?_).congr ?_ fun _ _ => rfl
  · rintro b _ b' _ a ⟨t, ht, hj, ha⟩ ⟨t', ht', hj', ha'⟩
    have heq := hdisjoint _ hj _ hj' a ha ha'
    rw [← (hsplit b t (List.mem_range.mp ht)).1, heq, (hsplit b' t' (List.mem_range.mp ht')).1]
  · intro a
    constructor
    · rintro ⟨b, -, t, -, hj, ha⟩
      exact ⟨_, hj, ha⟩
    · rintro ⟨j, hj, ha⟩
      have hdiv : j / w * w + j % w = j := Nat.div_add_mod' j w
      have hb : j / w < (n + (w - 1)) / w := by
        rw [Nat.div_lt_iff_lt_mul hw]
        have hmod := Nat.mod_lt (n + (w - 1)) hw
        have hceil := Nat.div_add_mod' (n + (w - 1)) w
        omega
      refine ⟨j / w, List.mem_range.mpr hb, j % w, List.mem_range.mpr (Nat.mod_lt j hw), ?_, ?_⟩
      · rwa [hdiv]
      · rwa [hdiv]

/-- The cells of a buffer from its start on, each written once. -/
theorem Exactly.addresses {n : Nat} (h : Exactly ws (· < n) value) :
    (ws.map Prod.fst).Perm (List.range n) :=
  (List.perm_ext_iff_of_nodup h.once List.nodup_range).mpr fun _ =>
    h.mem_address.trans List.mem_range.symm

/-! The turns of a loop that starts at the thread's number -/

/-- `for (c = start; c < n; c += stride)`, at most `fuel` turns of it. -/
def strides (stride n : Nat) : Nat → Nat → List Nat
  | 0, _ => []
  | fuel + 1, c => if c < n then c :: strides stride n fuel (c + stride) else []

theorem mem_strides {stride n fuel start c : Nat} (hstride : 0 < stride) (hfuel : n ≤ start + fuel) :
    c ∈ strides stride n fuel start ↔ start ≤ c ∧ c < n ∧ c % stride = start % stride := by
  induction fuel generalizing start with
  | zero =>
      constructor
      · exact fun h => absurd h List.not_mem_nil
      · rintro ⟨hle, hlt, -⟩
        omega
  | succ fuel ih =>
      rw [strides]
      split
      · rw [List.mem_cons, ih (by omega), Nat.add_mod_right]
        constructor
        · rintro (rfl | ⟨hle, hlt, hmod⟩)
          · exact ⟨Nat.le_refl _, by assumption, rfl⟩
          · exact ⟨by omega, hlt, hmod⟩
        · rintro ⟨hle, hlt, hmod⟩
          rcases Nat.eq_or_lt_of_le hle with rfl | hafter
          · exact Or.inl rfl
          · have hdvd : stride ∣ c - start :=
              Nat.dvd_of_mod_eq_zero (Nat.sub_mod_eq_zero_of_mod_eq hmod)
            have := Nat.le_of_dvd (by omega) hdvd
            exact Or.inr ⟨by omega, hlt, hmod⟩
      · constructor
        · exact fun h => absurd h List.not_mem_nil
        · rintro ⟨hle, hlt, -⟩
          omega

theorem strides_nodup {stride n fuel start : Nat} (hstride : 0 < stride) :
    (strides stride n fuel start).Nodup := by
  have hlow : ∀ fuel start, ∀ c ∈ strides stride n fuel start, start ≤ c := by
    intro fuel
    induction fuel with
    | zero => exact fun start c hc => absurd hc List.not_mem_nil
    | succ fuel ih =>
        intro start c hc
        rw [strides] at hc
        split at hc
        · rcases List.mem_cons.mp hc with rfl | hlater
          · exact Nat.le_refl _
          · exact Nat.le_trans (Nat.le_add_right _ _) (ih _ c hlater)
        · exact absurd hc List.not_mem_nil
  induction fuel generalizing start with
  | zero => exact List.nodup_nil
  | succ fuel ih =>
      rw [strides]
      split
      · refine List.nodup_cons.mpr ⟨fun hmem => ?_, ih⟩
        have := hlow fuel _ _ hmem
        omega
      · exact List.nodup_nil

/-- The threads of a block share the numbers below `n`. -/
theorem exactly_strides {stride n : Nat} (hstride : 0 < stride) {part : Nat → List (Nat × α)}
    {reach : Nat → Nat → Prop} (hpart : ∀ c < n, Exactly (part c) (reach c) value)
    (hdisjoint : ∀ c < n, ∀ d < n, ∀ a, reach c a → reach d a → c = d) :
    Exactly ((List.range stride).flatMap fun t => (strides stride n n t).flatMap part)
      (fun a => ∃ c < n, reach c a) value := by
  have hbelow : ∀ t, ∀ c ∈ strides stride n n t, c < n := fun t c hc =>
    ((mem_strides hstride (Nat.le_add_left n t)).mp hc).2.1
  have hthread : ∀ t ∈ List.range stride, Exactly ((strides stride n n t).flatMap part)
      (fun a => ∃ c ∈ strides stride n n t, reach c a) value := fun t _ =>
    exactly_flatMap (strides_nodup hstride) (fun c hc => hpart c (hbelow t c hc))
      fun c hc d hd => hdisjoint c (hbelow t c hc) d (hbelow t d hd)
  refine (exactly_flatMap List.nodup_range hthread ?_).congr ?_ fun a _ => rfl
  · rintro t ht t' ht' a ⟨c, hc, ha⟩ ⟨d, hd, ha'⟩
    obtain rfl := hdisjoint c (hbelow t c hc) d (hbelow t' d hd) a ha ha'
    have hmod := ((mem_strides hstride (Nat.le_add_left n t)).mp hc).2.2
    have hmod' := ((mem_strides hstride (Nat.le_add_left n t')).mp hd).2.2
    rw [Nat.mod_eq_of_lt (List.mem_range.mp ht)] at hmod
    rw [Nat.mod_eq_of_lt (List.mem_range.mp ht')] at hmod'
    omega
  · intro a
    constructor
    · rintro ⟨t, -, c, hc, ha⟩
      exact ⟨c, hbelow t c hc, ha⟩
    · rintro ⟨c, hc, ha⟩
      have hmod : c % stride < stride := Nat.mod_lt c hstride
      refine ⟨c % stride, List.mem_range.mpr hmod, c, ?_, ha⟩
      exact (mem_strides hstride (Nat.le_add_left n _)).mpr
        ⟨Nat.mod_le c stride, hc, (Nat.mod_eq_of_lt hmod).symm⟩

end ShannonPrime.Writes
