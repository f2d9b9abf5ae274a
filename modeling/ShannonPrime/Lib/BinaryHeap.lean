import Mathlib.Order.Lattice
import Mathlib.Logic.Function.Basic
import Mathlib.Logic.Equiv.Basic
import Mathlib.Tactic.Common

/-!
The binary heap in an array: an entry goes in at the end and is sifted up, the first entry
comes out and the last one is sifted down from its place. `before` says which of two entries
is to come out first.
-/

namespace ShannonPrime.BinaryHeap

variable {α : Type*}

/-- The array and how many of its entries are used. -/
structure Heap (α : Type*) where
  e : Nat → α
  n : Nat

def swap (e : Nat → α) (i j : Nat) : Nat → α :=
  Function.update (Function.update e i (e j)) j (e i)

section Operations

variable (before : α → α → Bool)

/-- The sift from `i` towards the root, in at most `fuel` swaps. -/
def siftUp : Nat → (Nat → α) → Nat → Nat → α
  | 0, e, _ => e
  | fuel + 1, e, i =>
      if 0 < i ∧ before (e i) (e ((i - 1) / 2)) then
        siftUp fuel (swap e i ((i - 1) / 2)) ((i - 1) / 2)
      else e

def push (h : Heap α) (x : α) : Heap α :=
  ⟨siftUp before h.n (Function.update h.e h.n x) h.n, h.n + 1⟩

/-- The child `c` where it is used and comes before entry `m`. -/
def pick (n : Nat) (e : Nat → α) (c m : Nat) : Nat := if c < n ∧ before (e c) (e m) then c else m

/-- The first of an entry and its children. -/
def least (n : Nat) (e : Nat → α) (i : Nat) : Nat :=
  pick before n e (2 * i + 2) (pick before n e (2 * i + 1) i)

/-- The sift from `i` away from the root. -/
def siftDown (n : Nat) : Nat → (Nat → α) → Nat → Nat → α
  | 0, e, _ => e
  | fuel + 1, e, i =>
      if least before n e i = i then e
      else siftDown n fuel (swap e i (least before n e i)) (least before n e i)

/-- The first entry, and the heap without it. -/
def pop (h : Heap α) : α × Heap α :=
  (h.e 0, ⟨siftDown before (h.n - 1) (h.n - 1) (Function.update h.e 0 (h.e (h.n - 1))) 0, h.n - 1⟩)

end Operations

/-- The heap with an entry in the place of the first one. -/
def replace (before : α → α → Bool) (h : Heap α) (x : α) : Heap α :=
  ⟨siftDown before h.n h.n (Function.update h.e 0 x) 0, h.n⟩

/-! ## The entries -/

/-- The entry is one of those in use. -/
def Mem (x : α) (e : Nat → α) (n : Nat) : Prop := ∃ i < n, e i = x

section Entries

variable {e : Nat → α} {i j k n : Nat} {x : α}

theorem swap_left (e : Nat → α) (i j : Nat) : swap e i j i = e j := by
  by_cases h : i = j
  · subst h
    exact Function.update_self _ _ _
  · rw [swap, Function.update_of_ne h, Function.update_self]

theorem swap_right (e : Nat → α) (i j : Nat) : swap e i j j = e i := Function.update_self _ _ _

theorem swap_of_ne (hi : k ≠ i) (hj : k ≠ j) : swap e i j k = e k := by
  rw [swap, Function.update_of_ne hj, Function.update_of_ne hi]

theorem swap_comm (e : Nat → α) (i j : Nat) : swap e i j = swap e j i := by
  funext k
  by_cases hki : k = i
  · rw [hki, swap_left, swap_right]
  · by_cases hkj : k = j
    · rw [hkj, swap_left, swap_right]
    · rw [swap_of_ne hki hkj, swap_of_ne hkj hki]

theorem mem_swap (hi : i < n) (hj : j < n) : Mem x (swap e i j) n ↔ Mem x e n := by
  constructor
  · rintro ⟨k, hk, rfl⟩
    by_cases hki : k = i
    · exact ⟨j, hj, by rw [hki, swap_left]⟩
    · by_cases hkj : k = j
      · exact ⟨i, hi, by rw [hkj, swap_right]⟩
      · exact ⟨k, hk, (swap_of_ne hki hkj).symm⟩
  · rintro ⟨k, hk, rfl⟩
    by_cases hki : k = i
    · exact ⟨j, hj, by rw [hki, swap_right]⟩
    · by_cases hkj : k = j
      · exact ⟨i, hi, by rw [hkj, swap_left]⟩
      · exact ⟨k, hk, swap_of_ne hki hkj⟩

variable {before : α → α → Bool}

theorem mem_siftUp (fuel : Nat) (hi : i < n) :
    Mem x (siftUp before fuel e i) n ↔ Mem x e n := by
  induction fuel generalizing e i with
  | zero => exact Iff.rfl
  | succ fuel ih =>
      rw [siftUp]
      split
      · rw [ih (by omega), mem_swap hi (by omega)]
      · exact Iff.rfl

theorem pick_eq (before : α → α → Bool) (n : Nat) (e : Nat → α) (c m : Nat) :
    pick before n e c m = m ∨ (pick before n e c m = c ∧ c < n) := by
  unfold pick
  split
  · rename_i h
    exact Or.inr ⟨rfl, h.1⟩
  · exact Or.inl rfl

/-- The first of the three is the entry itself or a child in use. -/
theorem least_eq (before : α → α → Bool) (n : Nat) (e : Nat → α) (i : Nat) :
    least before n e i = i ∨
      ((least before n e i = 2 * i + 1 ∨ least before n e i = 2 * i + 2) ∧
        least before n e i < n) := by
  unfold least
  rcases pick_eq before n e (2 * i + 2) (pick before n e (2 * i + 1) i) with h | h
  · rw [h]
    rcases pick_eq before n e (2 * i + 1) i with h' | h'
    · exact Or.inl h'
    · rw [h'.1]
      exact Or.inr ⟨Or.inl rfl, h'.2⟩
  · rw [h.1]
    exact Or.inr ⟨Or.inr rfl, h.2⟩

theorem mem_siftDown (fuel : Nat) (hi : i < n) :
    Mem x (siftDown before n fuel e i) n ↔ Mem x e n := by
  induction fuel generalizing e i with
  | zero => exact Iff.rfl
  | succ fuel ih =>
      rw [siftDown]
      split
      · exact Iff.rfl
      · rename_i hne
        rcases least_eq before n e i with h | h
        · exact absurd h hne
        · rw [ih h.2, mem_swap hi h.2]

variable {h : Heap α}

theorem mem_push (y : α) :
    Mem x (push before h y).e (push before h y).n ↔ x = y ∨ Mem x h.e h.n := by
  rw [push, mem_siftUp _ (Nat.lt_succ_self h.n)]
  constructor
  · rintro ⟨i, hi, rfl⟩
    by_cases hlast : i = h.n
    · left
      rw [hlast, Function.update_self]
    · right
      exact ⟨i, by omega, (Function.update_of_ne hlast _ _).symm⟩
  · rintro (rfl | ⟨i, hi, rfl⟩)
    · exact ⟨h.n, Nat.lt_succ_self _, Function.update_self _ _ _⟩
    · exact ⟨i, by omega, Function.update_of_ne (by omega) _ _⟩

theorem mem_pop (hn : 0 < h.n) :
    Mem x h.e h.n ↔ x = (pop before h).1 ∨ Mem x (pop before h).2.e (pop before h).2.n := by
  have hafter : Mem x (pop before h).2.e (pop before h).2.n ↔
      Mem x (Function.update h.e 0 (h.e (h.n - 1))) (h.n - 1) := by
    by_cases hone : h.n - 1 = 0
    · constructor
      · rintro ⟨i, hi, -⟩
        exact absurd hi (by simp only [pop]; omega)
      · rintro ⟨i, hi, -⟩
        omega
    · exact mem_siftDown _ (by omega)
  rw [hafter, pop]
  constructor
  · rintro ⟨i, hi, rfl⟩
    by_cases hfirst : i = 0
    · left
      rw [hfirst]
    · right
      by_cases hlast : i = h.n - 1
      · exact ⟨0, by omega, by rw [Function.update_self, hlast]⟩
      · exact ⟨i, by omega, Function.update_of_ne hfirst _ _⟩
  · rintro (rfl | ⟨i, hi, rfl⟩)
    · exact ⟨0, hn, rfl⟩
    · by_cases hfirst : i = 0
      · subst hfirst
        exact ⟨h.n - 1, by omega, by rw [Function.update_self]⟩
      · exact ⟨i, by omega, (Function.update_of_ne hfirst _ _).symm⟩

theorem mem_replace (hn : 0 < h.n) (y : α) :
    Mem x (replace before h y).e (replace before h y).n ↔ x = y ∨ ∃ i, 0 < i ∧ i < h.n ∧ h.e i = x := by
  rw [replace, mem_siftDown _ hn]
  constructor
  · rintro ⟨i, hi, rfl⟩
    rcases Nat.eq_zero_or_pos i with rfl | hpos
    · left
      exact Function.update_self _ _ _
    · right
      exact ⟨i, hpos, hi, (Function.update_of_ne hpos.ne' _ _).symm⟩
  · rintro (rfl | ⟨i, hpos, hi, rfl⟩)
    · exact ⟨0, hn, Function.update_self _ _ _⟩
    · exact ⟨i, hi, Function.update_of_ne hpos.ne' _ _⟩

@[simp] theorem replace_n (y : α) : (replace before h y).n = h.n := rfl

@[simp] theorem push_n (y : α) : (push before h y).n = h.n + 1 := rfl

@[simp] theorem pop_n : (pop before h).2.n = h.n - 1 := rfl

end Entries

/-! ## Distinct entries -/

section Distinct

variable {e : Nat → α} {i j n : Nat} {before : α → α → Bool} {h : Heap α} {x : α}

/-- No entry in use stands twice. -/
def Distinct (e : Nat → α) (n : Nat) : Prop := ∀ i < n, ∀ j < n, e i = e j → i = j

/-- Where an entry stands after the swap of two others. -/
theorem swap_apply (e : Nat → α) (i j k : Nat) : swap e i j k = e (Equiv.swap i j k) := by
  rw [Equiv.swap_apply_def]
  split
  · rename_i hki
    rw [hki, swap_left]
  · split
    · rename_i hki hkj
      rw [hkj, swap_right]
    · rename_i hki hkj
      exact swap_of_ne hki hkj

theorem Distinct.swap (hd : Distinct e n) (hi : i < n) (hj : j < n) :
    Distinct (swap e i j) n := by
  have hlt : ∀ k, k < n → Equiv.swap i j k < n := by
    intro k hk
    rw [Equiv.swap_apply_def]
    split
    · exact hj
    · split
      · exact hi
      · exact hk
  intro a ha b hb hab
  rw [swap_apply, swap_apply] at hab
  exact (Equiv.swap i j).injective (hd _ (hlt a ha) _ (hlt b hb) hab)

theorem Distinct.siftUp (fuel : Nat) (hi : i < n) (hd : Distinct e n) :
    Distinct (siftUp before fuel e i) n := by
  induction fuel generalizing e i with
  | zero => exact hd
  | succ fuel ih =>
      rw [BinaryHeap.siftUp]
      split
      · exact ih (by omega) (hd.swap hi (by omega))
      · exact hd

theorem Distinct.siftDown (fuel : Nat) (hi : i < n) (hd : Distinct e n) :
    Distinct (siftDown before n fuel e i) n := by
  induction fuel generalizing e i with
  | zero => exact hd
  | succ fuel ih =>
      rw [BinaryHeap.siftDown]
      split
      · exact hd
      · rename_i hne
        have hlt := ((least_eq before n e i).resolve_left hne).2
        exact ih hlt (hd.swap hi hlt)

/-- An entry put where none like it stands elsewhere. -/
theorem Distinct.update (hd : ∀ a < n, ∀ b < n, a ≠ i → b ≠ i → e a = e b → a = b)
    (hx : ∀ k < n, k ≠ i → e k ≠ x) : Distinct (Function.update e i x) n := by
  intro a ha b hb hab
  by_cases hai : a = i
  · by_cases hbi : b = i
    · rw [hai, hbi]
    · rw [hai, Function.update_self, Function.update_of_ne hbi] at hab
      exact absurd hab.symm (hx b hb hbi)
  · by_cases hbi : b = i
    · rw [hbi, Function.update_self, Function.update_of_ne hai] at hab
      exact absurd hab (hx a ha hai)
    · rw [Function.update_of_ne hai, Function.update_of_ne hbi] at hab
      exact hd a ha b hb hai hbi hab

theorem Distinct.push (hd : Distinct h.e h.n) (hx : ¬ Mem x h.e h.n) :
    Distinct (push before h x).e (push before h x).n := by
  refine Distinct.siftUp _ (Nat.lt_succ_self h.n) (Distinct.update ?_ ?_)
  · intro a ha b hb hane hbne
    rw [push_n] at ha hb
    exact hd a (by omega) b (by omega)
  · intro k hk hne hke
    rw [push_n] at hk
    exact hx ⟨k, by omega, hke⟩

theorem Distinct.replace (hn : 0 < h.n) (hd : Distinct h.e h.n) (hx : ¬ Mem x h.e h.n) :
    Distinct (replace before h x).e (replace before h x).n := by
  refine Distinct.siftDown _ hn (Distinct.update ?_ ?_)
  · intro a ha b hb _ _
    exact hd a ha b hb
  · intro k hk _ hke
    exact hx ⟨k, hk, hke⟩

end Distinct

/-! ## What lies past the entries -/

section Past

variable {e e' : Nat → α} {i j n : Nat} {before : α → α → Bool} {h h' : Heap α}

theorem swap_congr (he : ∀ k < n, e k = e' k) (hi : i < n) (hj : j < n) :
    ∀ k < n, swap e i j k = swap e' i j k := by
  intro k hk
  rw [swap_apply, swap_apply]
  apply he
  rw [Equiv.swap_apply_def]
  split
  · exact hj
  · split
    · exact hi
    · exact hk

theorem siftUp_congr (fuel : Nat) (he : ∀ k < n, e k = e' k) (hi : i < n) :
    ∀ k < n, siftUp before fuel e i k = siftUp before fuel e' i k := by
  induction fuel generalizing e e' i with
  | zero => exact he
  | succ fuel ih =>
      have hparent : (i - 1) / 2 < n := by omega
      rw [siftUp, siftUp, he i hi, he _ hparent]
      split
      · exact ih (swap_congr he hi hparent) hparent
      · exact he

theorem pick_congr (he : ∀ k < n, e k = e' k) {c m : Nat} (hm : m < n) :
    pick before n e c m = pick before n e' c m := by
  unfold pick
  by_cases hc : c < n
  · rw [he c hc, he m hm]
  · rw [if_neg fun h => hc h.1, if_neg fun h => hc h.1]

theorem least_congr (he : ∀ k < n, e k = e' k) (hi : i < n) :
    least before n e i = least before n e' i := by
  have hfirst : pick before n e (2 * i + 1) i = pick before n e' (2 * i + 1) i :=
    pick_congr he hi
  have hlt : pick before n e' (2 * i + 1) i < n := by
    rcases pick_eq before n e' (2 * i + 1) i with hstay | hchild
    · omega
    · omega
  rw [least, least, hfirst]
  exact pick_congr he hlt

theorem siftDown_congr (fuel : Nat) (he : ∀ k < n, e k = e' k) (hi : i < n) :
    ∀ k < n, siftDown before n fuel e i k = siftDown before n fuel e' i k := by
  induction fuel generalizing e e' i with
  | zero => exact he
  | succ fuel ih =>
      rw [siftDown, siftDown, least_congr he hi]
      split
      · exact he
      · rename_i hne
        have hlt := ((least_eq before n e' i).resolve_left hne).2
        exact ih (swap_congr he hi hlt) hlt

theorem update_congr (he : ∀ k < n, k ≠ i → e k = e' k) (x : α) :
    ∀ k < n, Function.update e i x k = Function.update e' i x k := by
  intro k hk
  by_cases hki : k = i
  · rw [hki, Function.update_self, Function.update_self]
  · rw [Function.update_of_ne hki, Function.update_of_ne hki]
    exact he k hk hki

/-- Two heaps with the same entries in use. -/
def Agrees (h h' : Heap α) : Prop := h.n = h'.n ∧ ∀ k < h.n, h.e k = h'.e k

theorem Agrees.push (ha : Agrees h h') (x : α) : Agrees (push before h x) (push before h' x) := by
  obtain ⟨hn, he⟩ := ha
  refine ⟨by rw [push_n, push_n, hn], ?_⟩
  simp only [BinaryHeap.push]
  rw [← hn]
  exact siftUp_congr _ (update_congr (fun k hk hne => he k (by omega)) x) (Nat.lt_succ_self h.n)

theorem Agrees.replace (ha : Agrees h h') (hpos : 0 < h.n) (x : α) :
    Agrees (replace before h x) (replace before h' x) := by
  obtain ⟨hn, he⟩ := ha
  refine ⟨hn, ?_⟩
  simp only [BinaryHeap.replace]
  rw [← hn]
  exact siftDown_congr _ (update_congr (fun k hk _ => he k hk) x) hpos

end Past

/-! ## The order -/

section Order

variable {κ : Type*} [LinearOrder κ] {before : α → α → Bool} {key : α → κ}
variable {e : Nat → α} {i n : Nat}

/-- `before` compares a key of the entries. -/
def Compares (before : α → α → Bool) (key : α → κ) : Prop :=
  ∀ a b, before a b = true ↔ key a < key b

/-- No entry comes before its parent. -/
def Ordered (key : α → κ) (e : Nat → α) (n : Nat) : Prop :=
  ∀ j, 0 < j → j < n → key (e ((j - 1) / 2)) ≤ key (e j)

/-- In order but for the entry at `i` and its parent. -/
structure OrderedUp (key : α → κ) (e : Nat → α) (n i : Nat) : Prop where
  others : ∀ j, 0 < j → j < n → j ≠ i → key (e ((j - 1) / 2)) ≤ key (e j)
  children : 0 < i → ∀ j, 0 < j → j < n → (j - 1) / 2 = i → key (e ((i - 1) / 2)) ≤ key (e j)

/-- In order but for the entry at `i` and its children. -/
structure OrderedDown (key : α → κ) (e : Nat → α) (n i : Nat) : Prop where
  others : ∀ j, 0 < j → j < n → (j - 1) / 2 ≠ i → key (e ((j - 1) / 2)) ≤ key (e j)
  children : 0 < i → ∀ j, 0 < j → j < n → (j - 1) / 2 = i → key (e ((i - 1) / 2)) ≤ key (e j)

theorem OrderedUp.swap (h : OrderedUp key e n i) (hpos : 0 < i) (hi : i < n)
    (hlt : key (e i) < key (e ((i - 1) / 2))) :
    OrderedUp key (swap e i ((i - 1) / 2)) n ((i - 1) / 2) := by
  constructor
  · intro j hj hjn hne
    by_cases hji : j = i
    · subst hji
      rw [swap_right, swap_left]
      exact hlt.le
    · rw [swap_of_ne hji hne]
      by_cases hpi : (j - 1) / 2 = i
      · rw [hpi, swap_left]
        exact h.children hpos j hj hjn hpi
      · by_cases hpp : (j - 1) / 2 = (i - 1) / 2
        · rw [hpp, swap_right]
          have hold := h.others j hj hjn hji
          rw [hpp] at hold
          exact hlt.le.trans hold
        · rw [swap_of_ne hpi hpp]
          exact h.others j hj hjn hji
  · intro hparent j hj hjn hjp
    have hup := h.others ((i - 1) / 2) hparent (by omega) (by omega)
    rw [swap_of_ne (by omega) (by omega)]
    by_cases hji : j = i
    · subst hji
      rw [swap_left]
      exact hup
    · rw [swap_of_ne hji (by omega)]
      have hold := h.others j hj hjn hji
      rw [hjp] at hold
      exact hup.trans hold

theorem OrderedUp.ordered (h : OrderedUp key e n i)
    (hstop : 0 < i → key (e ((i - 1) / 2)) ≤ key (e i)) : Ordered key e n := by
  intro j hj hjn
  by_cases hji : j = i
  · subst hji
    exact hstop hj
  · exact h.others j hj hjn hji

theorem OrderedUp.siftUp (hb : Compares before key) {fuel : Nat} (hfuel : i ≤ fuel) (hi : i < n)
    (h : OrderedUp key e n i) : Ordered key (siftUp before fuel e i) n := by
  induction fuel generalizing e i with
  | zero => exact h.ordered fun hpos => absurd hpos (by omega)
  | succ fuel ih =>
      rw [BinaryHeap.siftUp]
      split
      · rename_i hswap
        obtain ⟨hpos, hlt⟩ := hswap
        exact ih (by omega) (by omega) (h.swap hpos hi ((hb _ _).mp hlt))
      · rename_i hswap
        refine h.ordered fun hpos => not_lt.mp fun hlt => hswap ⟨hpos, ?_⟩
        exact (hb _ _).mpr hlt

theorem Ordered.push (hb : Compares before key) {h : Heap α} (horder : Ordered key h.e h.n)
    (y : α) : Ordered key (push before h y).e (push before h y).n := by
  apply OrderedUp.siftUp hb (Nat.le_refl _) (Nat.lt_succ_self h.n)
  constructor
  · intro j hj hjn hne
    rw [Function.update_of_ne hne, Function.update_of_ne (by omega)]
    exact horder j hj (by omega)
  · intro _ j _ hjn hjp
    omega

theorem key_pick_le (hb : Compares before key) (n : Nat) (e : Nat → α) (c m : Nat) :
    key (e (pick before n e c m)) ≤ key (e m) := by
  unfold pick
  split
  · rename_i h
    exact ((hb _ _).mp h.2).le
  · exact le_refl _

theorem key_pick_le_child (hb : Compares before key) {n c : Nat} (e : Nat → α) (m : Nat)
    (hc : c < n) : key (e (pick before n e c m)) ≤ key (e c) := by
  unfold pick
  split
  · exact le_refl _
  · rename_i h
    exact not_lt.mp fun hlt => h ⟨hc, (hb _ _).mpr hlt⟩

theorem key_least_le (hb : Compares before key) {j : Nat} (hj : 0 < j) (hjn : j < n)
    (hji : (j - 1) / 2 = i) : key (e (least before n e i)) ≤ key (e j) := by
  have hchild : j = 2 * i + 1 ∨ j = 2 * i + 2 := by omega
  unfold least
  rcases hchild with rfl | rfl
  · exact (key_pick_le hb _ _ _ _).trans (key_pick_le_child hb _ _ hjn)
  · exact key_pick_le_child hb _ _ hjn

theorem OrderedDown.swap (hb : Compares before key) (h : OrderedDown key e n i)
    (hne : least before n e i ≠ i) :
    OrderedDown key (swap e i (least before n e i)) n (least before n e i) := by
  have hmin : ∀ j, 0 < j → j < n → (j - 1) / 2 = i → key (e (least before n e i)) ≤ key (e j) :=
    fun j hj hjn hji => key_least_le hb hj hjn hji
  obtain ⟨hchild, hlt⟩ : (least before n e i = 2 * i + 1 ∨ least before n e i = 2 * i + 2) ∧
      least before n e i < n := (least_eq before n e i).resolve_left hne
  have hup : key (e (least before n e i)) ≤ key (e i) :=
    (key_pick_le hb _ _ _ _).trans (key_pick_le hb _ _ _ _)
  generalize least before n e i = m at hne hmin hchild hlt hup
  constructor
  · intro j hj hjn hjm
    by_cases hji : j = i
    · subst hji
      rw [swap_left, swap_of_ne (by omega) (by omega)]
      exact h.children hj m (by omega) hlt (by omega)
    · by_cases hjm' : j = m
      · subst hjm'
        have hparent : (j - 1) / 2 = i := by omega
        rw [hparent, swap_left, swap_right]
        exact hup
      · rw [swap_of_ne hji hjm']
        by_cases hpi : (j - 1) / 2 = i
        · rw [hpi, swap_left]
          exact hmin j hj hjn hpi
        · rw [swap_of_ne hpi hjm]
          exact h.others j hj hjn hpi
  · intro _ j hj hjn hjm
    have hparent : (m - 1) / 2 = i := by omega
    rw [hparent, swap_left, swap_of_ne (by omega) (by omega)]
    have hold := h.others j hj hjn (by omega)
    rwa [hjm] at hold

theorem OrderedDown.siftDown (hb : Compares before key) {fuel : Nat} (hfuel : n ≤ i + fuel)
    (h : OrderedDown key e n i) : Ordered key (siftDown before n fuel e i) n := by
  induction fuel generalizing e i with
  | zero =>
      intro j hj hjn
      exact h.others j hj hjn (by omega)
  | succ fuel ih =>
      rw [BinaryHeap.siftDown]
      split
      · rename_i hstop
        intro j hj hjn
        by_cases hji : (j - 1) / 2 = i
        · have hle := key_least_le hb (e := e) hj hjn hji
          rw [hstop] at hle
          rwa [hji]
        · exact h.others j hj hjn hji
      · rename_i hne
        have hchild := (least_eq before n e i).resolve_left hne
        exact ih (by omega) (h.swap hb hne)

theorem Ordered.pop (hb : Compares before key) {h : Heap α} (horder : Ordered key h.e h.n) :
    Ordered key (pop before h).2.e (pop before h).2.n := by
  apply OrderedDown.siftDown hb (by omega)
  constructor
  · intro j hj hjn hjp
    rw [Function.update_of_ne (by omega), Function.update_of_ne (by omega)]
    exact horder j hj (by omega)
  · intro hpos
    exact absurd hpos (Nat.lt_irrefl 0)

theorem Ordered.replace (hb : Compares before key) {h : Heap α} (horder : Ordered key h.e h.n)
    (y : α) : Ordered key (replace before h y).e (replace before h y).n := by
  apply OrderedDown.siftDown hb (by omega)
  constructor
  · intro j hj hjn hjp
    rw [Function.update_of_ne hjp, Function.update_of_ne (by omega)]
    exact horder j hj hjn
  · intro hpos
    exact absurd hpos (Nat.lt_irrefl 0)

/-- The first entry of the heap is a least one. -/
theorem Ordered.first_le (horder : Ordered key e n) {x : α} (hx : Mem x e n) :
    key (e 0) ≤ key x := by
  obtain ⟨j, hj, rfl⟩ := hx
  induction j using Nat.strongRecOn with
  | ind j ih =>
      by_cases hfirst : j = 0
      · rw [hfirst]
      · exact (ih ((j - 1) / 2) (by omega) (by omega)).trans (horder j (by omega) hj)

end Order

end ShannonPrime.BinaryHeap
