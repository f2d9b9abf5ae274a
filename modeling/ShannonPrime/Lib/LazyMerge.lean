import ShannonPrime.Lib.PairMerge

/-!
The merging of neighbours with a linked array and a heap of pairs. An entry of the heap may
be outdated: one of its symbols has been consumed, or the right one has grown. The left one
cannot have changed while the right one lives, since it grows only by consuming it; so what
is noted of the two is enough to tell.
-/

namespace ShannonPrime.PairMerge

open BinaryHeap

variable {σ κ τ : Type*}

/-- What there is to know of the symbols: whether one has been consumed, the rank of a pair,
the symbol that takes the left one's place, the right one when it has been consumed, what is
noted of a pair, and whether two symbols are still as noted. -/
structure Rule (σ κ τ : Type*) where
  dead : σ → Bool
  rank : σ → σ → Option κ
  join : σ → σ → κ → σ
  kill : σ → σ
  tag : σ → σ → τ
  fresh : σ → σ → τ → Bool

structure Node (σ : Type*) where
  prev : Option Nat
  next : Option Nat
  val : σ

structure Entry (κ τ : Type*) where
  rank : κ
  left : Nat
  right : Nat
  tag : τ

/-- The symbols, the heap, and the most entries that the heap has had. -/
structure State (σ κ τ : Type*) where
  node : Nat → Node σ
  heap : Heap (Entry κ τ)
  peak : Nat

section Fast

variable [LinearOrder κ]

/-- The lower rank first, the left one of two equal ranks. -/
def Entry.before (a b : Entry κ τ) : Bool :=
  decide (a.rank < b.rank) || (decide (a.rank = b.rank) && decide (a.left < b.left))

variable (R : Rule σ κ τ)

/-- The pair goes into the heap if there are both symbols and they have a rank. -/
def tryPair (s : State σ κ τ) (l r : Option Nat) : State σ κ τ :=
  match l, r with
  | some l, some r =>
      match R.rank (s.node l).val (s.node r).val with
      | some k =>
          { s with
            heap := push Entry.before s.heap ⟨k, l, r, R.tag (s.node l).val (s.node r).val⟩
            peak := max s.peak (s.heap.n + 1) }
      | none => s
  | _, _ => s

/-- The links and the symbols after the pair of an entry has become one. -/
def mergeNodes (node : Nat → Node σ) (e : Entry κ τ) : Nat → Node σ :=
  let left := node e.left
  let right := node e.right
  let joined := Function.update node e.left ⟨left.prev, right.next, R.join left.val right.val e.rank⟩
  let killed := Function.update joined e.right { right with val := R.kill right.val }
  match right.next with
  | some c => Function.update killed c { killed c with prev := some e.left }
  | none => killed

def merge (s : State σ κ τ) (e : Entry κ τ) : State σ κ τ :=
  let s := { s with node := mergeNodes R s.node e }
  tryPair R (tryPair R s (s.node e.left).prev (some e.left)) (some e.left) (s.node e.left).next

/-- The entry is outdated. -/
def stale (node : Nat → Node σ) (e : Entry κ τ) : Bool :=
  R.dead (node e.left).val || R.dead (node e.right).val ||
    !R.fresh (node e.left).val (node e.right).val e.tag

/-- The first entry comes out and its pair becomes one, unless it is outdated. -/
def step (s : State σ κ τ) : State σ κ τ :=
  let e := (pop Entry.before s.heap).1
  let s := { s with heap := (pop Entry.before s.heap).2 }
  if stale R s.node e then s else merge R s e

/-- Until the heap is empty, at most `fuel` times. -/
def loop : Nat → State σ κ τ → State σ κ τ
  | 0, s => s
  | fuel + 1, s => if s.heap.n = 0 then s else loop fuel (step R s)

/-- The symbols in a row; the array beyond them is as it was. -/
def row (vs : List σ) (junk : Nat → Node σ) (i : Nat) : Node σ :=
  match vs[i]? with
  | some v => ⟨if i = 0 then none else some (i - 1), if i + 1 < vs.length then some (i + 1) else none, v⟩
  | none => junk i

/-- The neighbours of the row, from the left. -/
def start (n : Nat) (s : State σ κ τ) : State σ κ τ :=
  (List.range' 1 (n - 1)).foldl (fun s i => tryPair R s (some (i - 1)) (some i)) s

/-- The symbols from an index on, along the links. -/
def walk (node : Nat → Node σ) : Nat → Option Nat → List σ
  | fuel + 1, some i => (node i).val :: walk node fuel (node i).next
  | _, _ => []

/-- The whole: the symbols, the contents of the fresh array and heap. -/
def run (vs : List σ) (junk : Nat → Node σ) (garbage : Nat → Entry κ τ) : State σ κ τ :=
  loop R (3 * vs.length) (start R vs.length ⟨row vs junk, ⟨garbage, 0⟩, 0⟩)

/-- The symbols that are left. -/
def result (s : State σ κ τ) (n : Nat) : List σ := walk s.node n (some 0)

end Fast

/-! ## What the symbols have to satisfy -/

/-- `Ok` holds of symbols that have not been consumed, `Adj` of two that are neighbours; a
symbol grows when it is joined, and its growth shows in what was noted of it. -/
structure Lawful (R : Rule σ κ τ) (Ok : σ → Prop) (Adj : σ → σ → Prop) (size : σ → Nat) :
    Prop where
  alive : ∀ {a}, Ok a → R.dead a = false
  dead_kill : ∀ a, R.dead (R.kill a) = true
  ok_join : ∀ {a b k}, Ok a → Ok b → Adj a b → R.rank a b = some k → Ok (R.join a b k)
  adj_left : ∀ {a b c k}, Ok a → Ok b → Adj a b → Adj b c → R.rank a b = some k →
    Adj (R.join a b k) c
  adj_right : ∀ {z a b k}, Ok a → Ok b → Adj z a → Adj a b → R.rank a b = some k →
    Adj z (R.join a b k)
  size_join : ∀ {a b k}, Ok a → Ok b → size a < size (R.join a b k)
  fresh_tag : ∀ {a b k}, Ok a → Ok b → R.rank a b = some k → R.fresh a b (R.tag a b) = true
  fresh_size : ∀ {a b b' k}, Ok a → Ok b → Ok b' → R.rank a b' = some k →
    R.fresh a b (R.tag a b') = true → size b = size b'

/-! ## The links -/

section Links

variable {node : Nat → Node σ} {idx : List Nat} {i l r : Nat}

/-- The indices of the symbols that are left, as the links have them. -/
structure Linked (node : Nat → Node σ) (idx : List Nat) : Prop where
  sorted : idx.Pairwise (· < ·)
  next : ∀ {i l}, idx[i]? = some l → (node l).next = idx[i + 1]?
  prev : ∀ {i l}, idx[i + 1]? = some l → (node l).prev = idx[i]?
  first : ∀ {l}, idx[0]? = some l → (node l).prev = none

theorem Linked.lt (h : Linked node idx) {j : Nat} (hi : idx[i]? = some l) (hj : idx[j]? = some r)
    (hij : i < j) : l < r := by
  obtain ⟨hi', rfl⟩ := List.getElem?_eq_some_iff.mp hi
  obtain ⟨hj', rfl⟩ := List.getElem?_eq_some_iff.mp hj
  exact List.pairwise_iff_getElem.mp h.sorted i j hi' hj' hij

theorem Linked.pos_unique (h : Linked node idx) {j : Nat} (hi : idx[i]? = some l)
    (hj : idx[j]? = some l) : i = j := by
  rcases Nat.lt_trichotomy i j with hlt | heq | hlt
  · exact absurd (h.lt hi hj hlt) (Nat.lt_irrefl l)
  · exact heq
  · exact absurd (h.lt hj hi hlt) (Nat.lt_irrefl l)

/-- The symbol after one that is left stands behind it. -/
theorem Linked.at_next (h : Linked node idx) (hl : l ∈ idx) (hnext : (node l).next = some r) :
    ∃ i, idx[i]? = some l ∧ idx[i + 1]? = some r := by
  obtain ⟨i, hi⟩ := List.mem_iff_getElem?.mp hl
  refine ⟨i, hi, ?_⟩
  rw [← h.next hi, hnext]

theorem Linked.next_mem (h : Linked node idx) (hl : l ∈ idx) (hnext : (node l).next = some r) :
    r ∈ idx := by
  obtain ⟨i, -, hr⟩ := h.at_next hl hnext
  exact List.mem_of_getElem? hr

theorem Linked.next_lt (h : Linked node idx) (hl : l ∈ idx) (hnext : (node l).next = some r) :
    l < r := by
  obtain ⟨i, hi, hr⟩ := h.at_next hl hnext
  exact h.lt hi hr (Nat.lt_succ_self i)

theorem Linked.next_prev (h : Linked node idx) (hl : l ∈ idx) (hnext : (node l).next = some r) :
    (node r).prev = some l := by
  obtain ⟨i, hi, hr⟩ := h.at_next hl hnext
  rw [h.prev hr, hi]

theorem Linked.prev_next (h : Linked node idx) (hr : r ∈ idx) (hprev : (node r).prev = some l) :
    l ∈ idx ∧ (node l).next = some r := by
  obtain ⟨i, hi⟩ := List.mem_iff_getElem?.mp hr
  cases i with
  | zero =>
      rw [h.first hi] at hprev
      cases hprev
  | succ i =>
      rw [h.prev hi] at hprev
      exact ⟨List.mem_of_getElem? hprev, by rw [h.next hprev, hi]⟩

/-- The pair of an entry, neighbours at a position. -/
structure Pair (node : Nat → Node σ) (idx : List Nat) (i : Nat) (e : Entry κ τ) : Prop where
  linked : Linked node idx
  left : idx[i]? = some e.left
  right : idx[i + 1]? = some e.right

variable {R : Rule σ κ τ} {e : Entry κ τ}

theorem Pair.lt (h : Pair node idx i e) : e.left < e.right :=
  h.linked.lt h.left h.right (Nat.lt_succ_self i)

theorem Pair.after_ne (h : Pair node idx i e) {c : Nat} (hc : (node e.right).next = some c) :
    e.right < c :=
  h.linked.next_lt (List.mem_of_getElem? h.right) hc

theorem Pair.node_left (h : Pair node idx i e) :
    mergeNodes R node e e.left = ⟨(node e.left).prev, (node e.right).next,
      R.join (node e.left).val (node e.right).val e.rank⟩ := by
  have hlt := h.lt
  simp only [mergeNodes]
  cases hc : (node e.right).next with
  | none =>
      dsimp only
      rw [Function.update_of_ne (Nat.ne_of_lt hlt), Function.update_self]
  | some c =>
      have hlt' := h.after_ne hc
      dsimp only
      rw [Function.update_of_ne (by omega), Function.update_of_ne (Nat.ne_of_lt hlt),
        Function.update_self]

theorem Pair.val_right (h : Pair node idx i e) :
    (mergeNodes R node e e.right).val = R.kill (node e.right).val := by
  simp only [mergeNodes]
  cases hc : (node e.right).next with
  | none =>
      dsimp only
      rw [Function.update_self]
  | some c =>
      have hlt' := h.after_ne hc
      dsimp only
      rw [Function.update_of_ne (Nat.ne_of_lt hlt'), Function.update_self]

/-- The symbol behind the pair is linked back to the left one; nothing else changes. -/
theorem mergeNodes_other {x : Nat} (hl : x ≠ e.left) (hr : x ≠ e.right) :
    mergeNodes R node e x =
      { node x with prev := if (node e.right).next = some x then some e.left else (node x).prev } := by
  simp only [mergeNodes]
  cases hc : (node e.right).next with
  | none =>
      dsimp only
      rw [Function.update_of_ne hr, Function.update_of_ne hl, if_neg (Option.some_ne_none x).symm]
  | some c =>
      dsimp only
      by_cases hx : x = c
      · subst hx
        rw [Function.update_self, Function.update_of_ne hr, Function.update_of_ne hl, if_pos rfl]
      · rw [Function.update_of_ne hx, Function.update_of_ne hr, Function.update_of_ne hl,
          if_neg fun heq => hx (Option.some_inj.mp heq).symm]

/-- The indices of the pair's neighbours close up. -/
theorem Pair.linked_merge (h : Pair node idx i e) :
    Linked (mergeNodes R node e) (idx.eraseIdx (i + 1)) := by
  obtain ⟨hlinked, hleft, hright⟩ := h
  have hpair : Pair node idx i e := ⟨hlinked, hleft, hright⟩
  have hat : ∀ j x : Nat, (idx.eraseIdx (i + 1))[j]? = some x →
      idx[if j < i + 1 then j else j + 1]? = some x := by
    intro j x hx
    rw [List.getElem?_eraseIdx] at hx
    split at hx <;> rename_i hj
    · rw [if_pos hj]
      exact hx
    · rw [if_neg hj]
      exact hx
  have hne : ∀ j x : Nat, (idx.eraseIdx (i + 1))[j]? = some x → x ≠ e.right := by
    rintro j x hx rfl
    have hpos := hlinked.pos_unique (hat j _ hx) hright
    split at hpos <;> omega
  have hneleft : ∀ j x : Nat, j ≠ i → (idx.eraseIdx (i + 1))[j]? = some x → x ≠ e.left := by
    rintro j x hji hx rfl
    have hpos := hlinked.pos_unique (hat j _ hx) hleft
    split at hpos <;> omega
  have hafter : (node e.right).next = idx[i + 2]? := hlinked.next hright
  refine ⟨hlinked.sorted.sublist (List.eraseIdx_sublist _ _), ?_, ?_, ?_⟩
  · intro j x hx
    rw [List.getElem?_eraseIdx]
    by_cases hji : j = i
    · subst hji
      have hx' := hat j x hx
      rw [if_pos (Nat.lt_succ_self j), hleft, Option.some_inj] at hx'
      subst hx'
      rw [hpair.node_left, if_neg (by omega)]
      exact hafter
    · have hx' := hlinked.next (hat j x hx)
      rw [mergeNodes_other (hneleft j x hji hx) (hne j x hx)]
      dsimp only
      rw [hx']
      by_cases hlt : j < i + 1
      · rw [if_pos hlt, if_pos (by omega)]
      · rw [if_neg hlt, if_neg (by omega)]
  · intro j x hx
    rw [List.getElem?_eraseIdx]
    by_cases hji : j + 1 = i
    · have hx' := hat (j + 1) x hx
      rw [if_pos (by omega)] at hx'
      have hxl : x = e.left := by
        rw [hji, hleft] at hx'
        exact (Option.some_inj.mp hx').symm
      rw [hxl, hpair.node_left, if_pos (by omega)]
      rw [hxl] at hx'
      exact hlinked.prev hx'
    · have hx' := hat (j + 1) x hx
      rw [mergeNodes_other (hneleft (j + 1) x hji hx) (hne (j + 1) x hx)]
      dsimp only
      by_cases hlt : j + 1 < i + 1
      · rw [if_pos hlt] at hx'
        have hfar : ¬(node e.right).next = some x := by
          rw [hafter]
          intro hc
          have hpos := hlinked.pos_unique hx' hc
          omega
        rw [if_neg hfar, if_pos (by omega), hlinked.prev hx']
      · rw [if_neg hlt] at hx'
        by_cases hlast : j = i
        · subst hlast
          rw [if_pos (by rw [hafter]; exact hx'), if_pos (Nat.lt_succ_self j), hleft]
        · have hfar : ¬(node e.right).next = some x := by
            rw [hafter]
            intro hc
            have hpos := hlinked.pos_unique hx' hc
            omega
          rw [if_neg hfar, if_neg (by omega), hlinked.prev hx']
  · intro x hx
    by_cases hzero : i = 0
    · subst hzero
      have hx' := hat 0 x hx
      rw [if_pos (Nat.lt_succ_self 0), hleft, Option.some_inj] at hx'
      subst hx'
      rw [hpair.node_left]
      exact hlinked.first hleft
    · have hx' := hat 0 x hx
      rw [if_pos (by omega)] at hx'
      rw [mergeNodes_other (hneleft 0 x (Ne.symm hzero) hx) (hne 0 x hx)]
      dsimp only
      have hfar : ¬(node e.right).next = some x := by
        rw [hafter]
        intro hc
        have hpos := hlinked.pos_unique hx' hc
        omega
      rw [if_neg hfar, hlinked.first hx']

theorem Pair.mem_erase (h : Pair node idx i e) {x : Nat} :
    x ∈ idx.eraseIdx (i + 1) ↔ x ∈ idx ∧ x ≠ e.right := by
  rw [List.mem_eraseIdx_iff_getElem?]
  constructor
  · rintro ⟨j, hj, hx⟩
    refine ⟨List.mem_of_getElem? hx, ?_⟩
    rintro rfl
    exact hj (h.linked.pos_unique hx h.right)
  · rintro ⟨hx, hne⟩
    obtain ⟨j, hj⟩ := List.mem_iff_getElem?.mp hx
    refine ⟨j, ?_, hj⟩
    rintro rfl
    rw [h.right, Option.some_inj] at hj
    exact hne hj.symm

theorem Pair.next_left (h : Pair node idx i e) :
    (node e.left).next = some e.right := by
  rw [h.linked.next h.left, h.right]

theorem Pair.left_mem (h : Pair node idx i e) : e.left ∈ idx :=
  List.mem_of_getElem? h.left

theorem Pair.right_mem (h : Pair node idx i e) : e.right ∈ idx :=
  List.mem_of_getElem? h.right

end Links

/-! ## The invariant -/

section Invariant

/-- The entry is one of the heap's. -/
def InHeap (e : Entry κ τ) (s : State σ κ τ) : Prop := Mem e s.heap.e s.heap.n

variable (R : Rule σ κ τ) (Ok : σ → Prop) (Adj : σ → σ → Prop) (size : σ → Nat)

/-- What is known of an entry: of its symbols each is left or consumed, and while both are left
they are neighbours, the left one is as it was noted, and the right one is or has grown. -/
structure Noted (node : Nat → Node σ) (idx : List Nat) (e : Entry κ τ) : Prop where
  left : e.left ∈ idx ∨ R.dead (node e.left).val = true
  right : e.right ∈ idx ∨ R.dead (node e.right).val = true
  live : e.left ∈ idx → e.right ∈ idx → (node e.left).next = some e.right ∧
    ∃ b, Ok b ∧ e.tag = R.tag (node e.left).val b ∧ R.rank (node e.left).val b = some e.rank ∧
      (b = (node e.right).val ∨ size b < size (node e.right).val)

/-- The pair is in the heap if it has a rank. -/
def Queued (s : State σ κ τ) (l r : Nat) : Prop :=
  ∀ k, R.rank (s.node l).val (s.node r).val = some k →
    InHeap ⟨k, l, r, R.tag (s.node l).val (s.node r).val⟩ s

/-- All neighbours are in the heap. -/
def Covered (s : State σ κ τ) (idx : List Nat) : Prop :=
  ∀ l ∈ idx, ∀ r, (s.node l).next = some r → Queued R s l r

variable {R Ok Adj size}

/-- At most `m` more entries, the symbols unchanged. -/
structure Grown (s s' : State σ κ τ) (m : Nat) : Prop where
  node : s'.node = s.node
  mem : ∀ e, InHeap e s → InHeap e s'
  le : s.heap.n ≤ s'.heap.n
  size : s'.heap.n ≤ s.heap.n + m
  peak : s'.peak ≤ max s.peak s'.heap.n

theorem Grown.refl (s : State σ κ τ) (m : Nat) : Grown s s m :=
  ⟨rfl, fun _ h => h, le_refl _, Nat.le_add_right _ _, le_max_left _ _⟩

theorem Grown.trans {s s' s'' : State σ κ τ} {m m' : Nat} (h : Grown s s' m)
    (h' : Grown s' s'' m') : Grown s s'' (m + m') := by
  have hle := h'.le
  have hsize := h.size
  have hsize' := h'.size
  have hpeak := h.peak
  have hpeak' := h'.peak
  refine ⟨h'.node.trans h.node, fun e he => h'.mem e (h.mem e he), h.le.trans hle, ?_, ?_⟩ <;>
    omega

theorem Queued.grown {s s' : State σ κ τ} {m l r : Nat} (h : Queued R s l r)
    (hgrown : Grown s s' m) : Queued R s' l r := by
  intro k hk
  rw [hgrown.node] at hk ⊢
  exact hgrown.mem _ (h k hk)

variable {s : State σ κ τ} {idx : List Nat}

/-! ## One round -/

section Round

variable {i : Nat} {e : Entry κ τ}

variable (law : Lawful R Ok Adj size)

include law

/-- An entry is known in the same way when another pair has become one. -/
theorem Noted.merge {node : Nat → Node σ} (h : Pair node idx i e)
    (hok : ∀ i ∈ idx, Ok (node i).val) {e' : Entry κ τ} (hnoted : Noted R Ok size node idx e') :
    Noted R Ok size (mergeNodes R node e) (idx.eraseIdx (i + 1)) e' := by
  have hleft := hok _ h.left_mem
  have hright := hok _ h.right_mem
  have hdead : ∀ x, (x ∈ idx ∨ R.dead (node x).val = true) →
      x ∈ idx.eraseIdx (i + 1) ∨ R.dead (mergeNodes R node e x).val = true := by
    intro x hx
    by_cases hxr : x = e.right
    · right
      rw [hxr, h.val_right]
      exact law.dead_kill _
    · rcases hx with hmem | hd
      · exact Or.inl (h.mem_erase.mpr ⟨hmem, hxr⟩)
      · by_cases hxl : x = e.left
        · rw [hxl, law.alive hleft] at hd
          cases hd
        · right
          rw [mergeNodes_other hxl hxr]
          exact hd
  refine ⟨hdead _ hnoted.left, hdead _ hnoted.right, fun hl hr => ?_⟩
  obtain ⟨hl, hlr⟩ := h.mem_erase.mp hl
  obtain ⟨hr, hrr⟩ := h.mem_erase.mp hr
  obtain ⟨hnext, b, hb, htag, hrank, hsize⟩ := hnoted.live hl hr
  have hll : e'.left ≠ e.left := by
    intro heq
    rw [heq, h.next_left, Option.some_inj] at hnext
    exact hrr hnext.symm
  rw [mergeNodes_other hll hlr]
  refine ⟨hnext, b, hb, htag, hrank, ?_⟩
  by_cases hrl : e'.right = e.left
  · right
    have hgrow := law.size_join hleft hright (k := e.rank)
    rw [hrl, h.node_left]
    rw [hrl] at hsize
    rcases hsize with rfl | hlt
    · exact hgrow
    · exact hlt.trans hgrow
  · rw [mergeNodes_other hrl hrr]
    exact hsize

end Round

variable [LinearOrder κ]

def Entry.key (e : Entry κ τ) : κ ×ₗ Nat := toLex (e.rank, e.left)

theorem compares : Compares (Entry.before : Entry κ τ → Entry κ τ → Bool) Entry.key := by
  intro a b
  simp only [Entry.before, Entry.key, Prod.Lex.toLex_lt_toLex, Bool.or_eq_true, Bool.and_eq_true,
    decide_eq_true_eq]

variable (R Ok Adj size)

structure Base (s : State σ κ τ) (idx : List Nat) : Prop where
  linked : Linked s.node idx
  ok : ∀ i ∈ idx, Ok (s.node i).val
  adj : ∀ l ∈ idx, ∀ r, (s.node l).next = some r → Adj (s.node l).val (s.node r).val
  noted : ∀ e, InHeap e s → Noted R Ok size s.node idx e
  ordered : Ordered Entry.key s.heap.e s.heap.n

variable {R Ok Adj size}

theorem tryPair_grown (s : State σ κ τ) (l r : Option Nat) : Grown s (tryPair R s l r) 1 := by
  match l, r with
  | none, _ => exact .refl s 1
  | some _, none => exact .refl s 1
  | some l, some r =>
      simp only [tryPair]
      cases R.rank (s.node l).val (s.node r).val with
      | none => exact .refl s 1
      | some k =>
          exact ⟨rfl, fun e he => (mem_push _).mpr (Or.inr he), Nat.le_succ _, le_refl _, le_refl _⟩

theorem tryPair_queued (s : State σ κ τ) (l r : Nat) :
    Queued R (tryPair R s (some l) (some r)) l r := by
  intro k hk
  rw [(tryPair_grown s (some l) (some r)).node] at hk ⊢
  simp only [tryPair, hk]
  exact (mem_push _).mpr (Or.inl rfl)

/-- Neighbours may go into the heap. -/
theorem Base.tryPair (h : Base R Ok Adj size s idx) {l r : Option Nat}
    (hpair : ∀ a b, l = some a → r = some b → a ∈ idx ∧ (s.node a).next = some b) :
    Base R Ok Adj size (tryPair R s l r) idx := by
  match l, r with
  | none, _ => exact h
  | some _, none => exact h
  | some l, some r =>
      obtain ⟨hl, hnext⟩ := hpair l r rfl rfl
      have hr := h.linked.next_mem hl hnext
      simp only [PairMerge.tryPair]
      cases hrank : R.rank (s.node l).val (s.node r).val with
      | none => exact h
      | some k =>
          refine ⟨h.linked, h.ok, h.adj, fun e he => ?_, h.ordered.push compares _⟩
          rcases (mem_push _).mp he with rfl | hold
          · exact ⟨Or.inl hl, Or.inl hr, fun _ _ =>
              ⟨hnext, _, h.ok r hr, rfl, hrank, Or.inl rfl⟩⟩
          · exact h.noted e hold

/-- The pair of an entry becomes one. -/
theorem Base.mergeNodes {i : Nat} {e : Entry κ τ} (law : Lawful R Ok Adj size)
    (h : Base R Ok Adj size s idx) (hp : Pair s.node idx i e)
    (hrank : R.rank (s.node e.left).val (s.node e.right).val = some e.rank) :
    Base R Ok Adj size { s with node := mergeNodes R s.node e } (idx.eraseIdx (i + 1)) := by
  have hleft := h.ok _ hp.left_mem
  have hright := h.ok _ hp.right_mem
  have hadj := h.adj _ hp.left_mem _ hp.next_left
  refine ⟨hp.linked_merge, ?_, ?_, fun e' he' => (h.noted e' he').merge law hp h.ok, h.ordered⟩
  · intro x hx
    obtain ⟨hx, hxr⟩ := hp.mem_erase.mp hx
    by_cases hxl : x = e.left
    · subst hxl
      dsimp only
      rw [hp.node_left]
      exact law.ok_join hleft hright hadj hrank
    · dsimp only
      rw [mergeNodes_other hxl hxr]
      exact h.ok x hx
  · intro x hx r hnext
    obtain ⟨hx, hxr⟩ := hp.mem_erase.mp hx
    dsimp only at hnext ⊢
    by_cases hxl : x = e.left
    · subst hxl
      rw [hp.node_left] at hnext ⊢
      have hafter := hp.after_ne hnext
      have hlt := hp.lt
      rw [mergeNodes_other (by omega) (by omega)]
      exact law.adj_left hleft hright hadj (h.adj _ hp.right_mem _ hnext) hrank
    · rw [mergeNodes_other hxl hxr] at hnext ⊢
      by_cases hrl : r = e.left
      · subst hrl
        rw [hp.node_left]
        exact law.adj_right hleft hright (h.adj _ hx _ hnext) hadj hrank
      · have hrr : r ≠ e.right := by
          rintro rfl
          have hback := h.linked.next_prev hx hnext
          rw [h.linked.next_prev hp.left_mem hp.next_left, Option.some_inj] at hback
          exact hxl hback.symm
        rw [mergeNodes_other hrl hrr]
        exact h.adj _ hx _ hnext

end Invariant

end ShannonPrime.PairMerge
