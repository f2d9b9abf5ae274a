import Mathlib.Data.List.Sort

/-!
Sorting by a key, entries of one key left in the order they came in. The result holds,
key by key, what the list held; two lists sort alike exactly when they agree key by key.
-/

namespace ShannonPrime.StableSort

variable {α κ : Type*} [LinearOrder κ] (key : α → κ)

def sortBy (l : List α) : List α := l.insertionSort fun a b => key a ≤ key b

theorem sortBy_perm (l : List α) : (sortBy key l).Perm l := List.perm_insertionSort _ l

theorem sortBy_sorted (l : List α) : (sortBy key l).Pairwise fun a b => key a ≤ key b := by
  have hsorted := List.pairwise_insertionSort (fun a b : α => key a ≤ key b) l
  exact hsorted

/-- The entries of a key. -/
def ofKey (k : κ) (l : List α) : List α := l.filter fun a => key a = k

theorem mem_ofKey {k : κ} {l : List α} {a : α} : a ∈ ofKey key k l ↔ a ∈ l ∧ key a = k := by
  simp [ofKey]

theorem ofKey_cons (k : κ) (a : α) (l : List α) :
    ofKey key k (a :: l) = if key a = k then a :: ofKey key k l else ofKey key k l := by
  simp only [ofKey, List.filter_cons, decide_eq_true_eq]

/-- Sorting keeps the entries of each key as they were. -/
theorem ofKey_sortBy (k : κ) (l : List α) : ofKey key k (sortBy key l) = ofKey key k l := by
  have hequal : (ofKey key k l).Pairwise fun a b => key a ≤ key b := by
    apply List.Pairwise.imp_of_mem (R := fun _ _ => True)
    · intro a b ha hb _
      rw [(mem_ofKey key).mp ha |>.2, (mem_ofKey key).mp hb |>.2]
    · exact List.pairwise_of_forall fun _ _ => trivial
  have hsub : (ofKey key k l).Sublist (sortBy key l) :=
    List.sublist_insertionSort hequal List.filter_sublist
  have hinto : (ofKey key k l).Sublist (ofKey key k (sortBy key l)) := by
    have hfiltered := hsub.filter fun a => decide (key a = k)
    simpa only [ofKey, List.filter_filter, Bool.and_self] using hfiltered
  have hlen : (ofKey key k (sortBy key l)).length = (ofKey key k l).length :=
    ((sortBy_perm key l).filter _).length_eq
  exact (hinto.eq_of_length hlen.symm).symm

/-- A sorted list is determined by what it holds of each key. -/
theorem eq_of_ofKey {l l' : List α} (hl : l.Pairwise fun a b => key a ≤ key b)
    (hl' : l'.Pairwise fun a b => key a ≤ key b) (h : ∀ k, ofKey key k l = ofKey key k l') :
    l = l' := by
  have hmem : ∀ {s t : List α}, (∀ k, ofKey key k s = ofKey key k t) → ∀ a ∈ s, a ∈ t := by
    intro s t heq a ha
    have hin := (mem_ofKey key).mpr ⟨ha, rfl⟩
    rw [heq] at hin
    exact ((mem_ofKey key).mp hin).1
  induction l generalizing l' with
  | nil =>
      cases l' with
      | nil => rfl
      | cons b t' =>
          have hb := hmem (fun k => (h k).symm) b List.mem_cons_self
          cases hb
  | cons a t ih =>
      cases l' with
      | nil =>
          have ha := hmem h a List.mem_cons_self
          cases ha
      | cons b t' =>
          rw [List.pairwise_cons] at hl hl'
          have hab : key b ≤ key a := by
            rcases List.mem_cons.mp (hmem h a List.mem_cons_self) with rfl | ha
            · exact le_rfl
            · exact hl'.1 a ha
          have hba : key a ≤ key b := by
            rcases List.mem_cons.mp (hmem (fun k => (h k).symm) b List.mem_cons_self) with
              rfl | hb
            · exact le_rfl
            · exact hl.1 b hb
          have hkey : key b = key a := le_antisymm hab hba
          have hfirst := h (key a)
          rw [ofKey_cons, ofKey_cons, if_pos rfl, if_pos hkey, List.cons.injEq] at hfirst
          obtain ⟨rfl, _⟩ := hfirst
          congr 1
          apply ih hl.2 hl'.2
          intro k
          have hk := h k
          rw [ofKey_cons, ofKey_cons] at hk
          by_cases ha : key a = k
          · rw [if_pos ha, if_pos ha] at hk
            exact (List.cons.inj hk).2
          · rw [if_neg ha, if_neg ha] at hk
            exact hk

theorem sortBy_eq_iff (l l' : List α) :
    sortBy key l = sortBy key l' ↔ ∀ k, ofKey key k l = ofKey key k l' := by
  constructor
  · intro h k
    rw [← ofKey_sortBy key k l, h, ofKey_sortBy]
  · intro h
    apply eq_of_ofKey key (sortBy_sorted key l) (sortBy_sorted key l')
    intro k
    rw [ofKey_sortBy, ofKey_sortBy, h]

end ShannonPrime.StableSort

/-!
The `k` least elements of a set, in order of a key that tells its elements apart. They are
determined by the set, and sorting any list of it and cutting the result finds them.
-/

namespace ShannonPrime.KLeast

variable {α κ : Type*} [LinearOrder κ] {key : α → κ} {S : α → Prop} {k : Nat} {r r' : List α}

/-- `r` lists the `k` least elements of `S`, or all of them where there are fewer. -/
structure Least (key : α → κ) (S : α → Prop) (k : Nat) (r : List α) : Prop where
  sorted : r.Pairwise fun x y => key x < key y
  inside : ∀ x ∈ r, S x
  short : r.length ≤ k
  full : ∀ x, S x → x ∉ r → r.length = k ∧ ∀ y ∈ r, key y < key x

theorem Least.nodup (h : Least key S k r) : r.Nodup :=
  h.sorted.imp fun hlt heq => absurd hlt (by rw [heq]; exact lt_irrefl _)

/-- What one list leaves out is above all of it, so another list with it would be longer. -/
theorem Least.subset (h : Least key S k r) (h' : Least key S k r') : ∀ x ∈ r, x ∈ r' := by
  intro x hx
  by_contra hout
  obtain ⟨hlength, habove⟩ := h'.full x (h.inside x hx) hout
  have hsub : ∀ y ∈ r', y ∈ r := by
    intro y hy
    by_contra hy'
    have hlow := habove y hy
    have hhigh := (h.full y (h'.inside y hy) hy').2 x hx
    exact lt_asymm hlow hhigh
  have hcons : (x :: r').Subperm r := by
    apply List.subperm_of_subset (List.nodup_cons.mpr ⟨hout, h'.nodup⟩)
    exact List.cons_subset.mpr ⟨hx, hsub⟩
  have hle := hcons.length_le
  have hshort := h.short
  rw [List.length_cons] at hle
  omega

theorem Least.unique (h : Least key S k r) (h' : Least key S k r') : r = r' := by
  have hperm : r.Perm r' := (List.perm_ext_iff_of_nodup h.nodup h'.nodup).mpr fun x =>
    ⟨h.subset h' x, h'.subset h x⟩
  apply hperm.eq_of_pairwise _ h.sorted h'.sorted
  intro x y _ _ hxy hyx
  exact absurd hyx (lt_asymm hxy)

theorem Least.congr {S' : α → Prop} (h : Least key S k r) (hS : ∀ x, S' x ↔ S x) :
    Least key S' k r where
  sorted := h.sorted
  inside := fun x hx => (hS x).mpr (h.inside x hx)
  short := h.short
  full := fun x hx => h.full x ((hS x).mp hx)

/-- A list whose elements have different keys is sorted strictly. -/
theorem sortBy_strict {l : List α} (hkey : l.Pairwise fun x y => key x ≠ key y) :
    (StableSort.sortBy key l).Pairwise fun x y => key x < key y := by
  have hne := ((StableSort.sortBy_perm key l).pairwise_iff fun h => h.symm).mpr hkey
  exact (StableSort.sortBy_sorted key l).imp₂ (fun _ _ hle hlt => lt_of_le_of_ne hle hlt) hne

theorem take_sortBy_least {l : List α} (hkey : l.Pairwise fun x y => key x ≠ key y) (k : Nat) :
    Least key (· ∈ l) k ((StableSort.sortBy key l).take k) where
  sorted := (sortBy_strict hkey).sublist (List.take_sublist k _)
  inside := fun x hx => (StableSort.sortBy_perm key l).mem_iff.mp (List.mem_of_mem_take hx)
  short := List.length_take_le k _
  full := by
    intro x hx hout
    have hx' := (StableSort.sortBy_perm key l).mem_iff.mpr hx
    have hstrict := sortBy_strict hkey
    rw [← List.take_append_drop k (StableSort.sortBy key l)] at hx' hstrict
    rcases List.mem_append.mp hx' with hin | hlate
    · exact absurd hin hout
    · refine ⟨?_, fun y hy => (List.pairwise_append.mp hstrict).2.2 y hy x hlate⟩
      have hlong := List.length_pos_of_mem hlate
      rw [List.length_drop] at hlong
      rw [List.length_take]
      omega

end ShannonPrime.KLeast

/-!
The `m` largest elements of what streams by. The buffer takes everything until it holds `m`, is
sorted then, and from there on gives up its least element for a larger one.
-/

namespace ShannonPrime.TopM

open StableSort

variable {F : Type*} [LinearOrder F]

/-- One element comes by; none when the buffer is full and empty. -/
def insertTop (m : Nat) (top : List F) (s : F) : Option (List F) :=
  if top.length < m then
    let top' := top ++ [s]
    some (if top'.length = m then sortBy id top' else top')
  else top.head?.map fun t => if t < s then sortBy id (s :: top.tail) else top

/-- What the buffer holds of `l`: all of it while there is room, the last of the sorted list
after that. -/
def largest (m : Nat) (l : List F) : List F :=
  if l.length < m then l else (sortBy id l).drop (l.length - m)

/-- `top` are `m` of the elements of `l`, or all of them, and none of the others is larger. -/
structure Largest (m : Nat) (l top : List F) : Prop where
  length_eq : top.length = min m l.length
  others : ∃ rest, (rest ++ top).Perm l ∧ ∀ x ∈ rest, ∀ y ∈ top, x ≤ y

/-- Two sorted lists, one below the other, are the sorted list of what they hold. -/
theorem sortBy_eq_append {l low high : List F} (hperm : (low ++ high).Perm l)
    (hlow : low.Pairwise (· ≤ ·)) (hhigh : high.Pairwise (· ≤ ·))
    (hbelow : ∀ x ∈ low, ∀ y ∈ high, x ≤ y) : sortBy id l = low ++ high := by
  refine ((sortBy_perm id l).trans hperm.symm).eq_of_pairwise ?_ (sortBy_sorted id l)
    (List.pairwise_append.mpr ⟨hlow, hhigh, hbelow⟩)
  exact fun x y _ _ hxy hyx => le_antisymm hxy hyx

theorem sortBy_length (l : List F) : (sortBy id l).length = l.length := (sortBy_perm id l).length_eq

theorem largest_spec (m : Nat) (l : List F) : Largest m l (largest m l) := by
  rw [largest]
  split
  · exact ⟨by omega, [], List.Perm.refl l, fun _ hx => nomatch hx⟩
  · refine ⟨by rw [List.length_drop, sortBy_length]; omega,
      (sortBy id l).take (l.length - m), ?_, ?_⟩
    · rw [List.take_append_drop]
      exact sortBy_perm id l
    · have hsorted := sortBy_sorted id l
      rw [← List.take_append_drop (l.length - m) (sortBy id l)] at hsorted
      exact (List.pairwise_append.mp hsorted).2.2

section Split

variable {l low rest : List F} {t s : F} (hsplit : sortBy id l = low ++ t :: rest)
include hsplit

/-- An element above `t` goes behind it. -/
theorem sortBy_concat_above (hlarger : t < s) :
    sortBy id (l ++ [s]) = (low ++ [t]) ++ sortBy id (s :: rest) := by
  have hsorted := sortBy_sorted id l
  have hperm := sortBy_perm id l
  rw [hsplit] at hsorted hperm
  obtain ⟨hlow, htop, hbelow⟩ := List.pairwise_append.mp hsorted
  have habove : ∀ y ∈ sortBy id (s :: rest), t ≤ y := by
    intro y hy
    rcases List.mem_cons.mp ((sortBy_perm id _).mem_iff.mp hy) with rfl | hy
    · exact hlarger.le
    · exact (List.pairwise_cons.mp htop).1 y hy
  refine sortBy_eq_append ?_ ?_ (sortBy_sorted id _) ?_
  · calc (low ++ [t] ++ sortBy id (s :: rest)).Perm (low ++ [t] ++ (s :: rest)) :=
          (sortBy_perm id _).append_left _
      _ = low ++ t :: ([s] ++ rest) := by simp
      _ |>.Perm (low ++ t :: (rest ++ [s])) := (List.perm_append_comm.cons t).append_left low
      _ = low ++ t :: rest ++ [s] := by simp
      _ |>.Perm (l ++ [s]) := hperm.append_right [s]
  · exact List.pairwise_append.mpr ⟨hlow, List.pairwise_singleton _ _, fun x hx y hy =>
      hbelow x hx y (List.mem_singleton.mp hy ▸ List.mem_cons_self)⟩
  · intro x hx y hy
    rcases List.mem_append.mp hx with hx | hx
    · exact (hbelow x hx t List.mem_cons_self).trans (habove y hy)
    · rw [List.mem_singleton.mp hx]
      exact habove y hy

/-- One that is not above `t` goes before it. -/
theorem sortBy_concat_below (hsmaller : s ≤ t) :
    sortBy id (l ++ [s]) = sortBy id (s :: low) ++ t :: rest := by
  have hsorted := sortBy_sorted id l
  have hperm := sortBy_perm id l
  rw [hsplit] at hsorted hperm
  obtain ⟨_, htop, hbelow⟩ := List.pairwise_append.mp hsorted
  refine sortBy_eq_append ?_ (sortBy_sorted id _) htop ?_
  · calc (sortBy id (s :: low) ++ t :: rest).Perm (s :: low ++ t :: rest) :=
          (sortBy_perm id _).append_right _
      _ = [s] ++ (low ++ t :: rest) := by simp
      _ |>.Perm (low ++ t :: rest ++ [s]) := List.perm_append_comm
      _ |>.Perm (l ++ [s]) := hperm.append_right [s]
  · intro x hx y hy
    rcases List.mem_cons.mp ((sortBy_perm id _).mem_iff.mp hx) with rfl | hx
    · rcases List.mem_cons.mp hy with rfl | hy
      · exact hsmaller
      · exact hsmaller.trans ((List.pairwise_cons.mp htop).1 y hy)
    · exact hbelow x hx y hy

end Split

/-- One more element. -/
theorem insertTop_largest {m : Nat} (hm : 0 < m) (l : List F) (s : F) :
    insertTop m (largest m l) s = some (largest m (l ++ [s])) := by
  rcases Nat.lt_or_ge l.length m with hroom | hfull
  · have hhold : largest m l = l := if_pos hroom
    rw [hhold, insertTop, if_pos hroom, largest]
    dsimp only
    rw [List.length_append, List.length_singleton]
    rcases Nat.lt_or_ge (l.length + 1) m with hmore | hlast
    · rw [if_neg (by omega), if_pos hmore]
    · rw [if_pos (by omega), if_neg (by omega), show l.length + 1 - m = 0 by omega, List.drop_zero]
  · have hlength : (largest m l).length = m := by
      rw [(largest_spec m l).length_eq]
      omega
    have hlow : ((sortBy id l).take (l.length - m)).length = l.length - m := by
      rw [List.length_take, sortBy_length]
      omega
    have hsplit : sortBy id l = (sortBy id l).take (l.length - m) ++ largest m l := by
      rw [largest, if_neg (by omega), List.take_append_drop]
    have hnext : largest m (l ++ [s]) = (sortBy id (l ++ [s])).drop (l.length + 1 - m) := by
      rw [largest, if_neg (by rw [List.length_append]; omega), List.length_append,
        List.length_singleton]
    generalize (sortBy id l).take (l.length - m) = low at hsplit hlow
    rw [insertTop, if_neg (by omega), hnext]
    cases htop : largest m l with
    | nil =>
        rw [htop, List.length_nil] at hlength
        omega
    | cons t rest =>
        rw [htop] at hsplit
        rw [List.head?_cons, Option.map_some, List.tail_cons]
        congr 1
        split
        · rename_i hlarger
          rw [sortBy_concat_above hsplit hlarger, show l.length + 1 - m = (low ++ [t]).length by
            rw [List.length_append, List.length_singleton]; omega, List.drop_left]
        · rename_i hnot
          rw [sortBy_concat_below hsplit (not_lt.mp hnot),
            show l.length + 1 - m = (sortBy id (s :: low)).length by
              rw [sortBy_length, List.length_cons]; omega, List.drop_left]

/-- The whole stream, by induction on it. -/
theorem foldlM_insertTop {m : Nat} (hm : 0 < m) (l l' : List F) :
    l'.foldlM (insertTop m) (largest m l) = some (largest m (l ++ l')) := by
  induction l' generalizing l with
  | nil => rw [List.append_nil]; rfl
  | cons s l' ih =>
      rw [List.foldlM_cons, insertTop_largest hm, Option.bind_eq_bind, Option.bind_some, ih,
        List.append_assoc, List.singleton_append]

end ShannonPrime.TopM
