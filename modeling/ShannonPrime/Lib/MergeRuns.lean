import Mathlib.Data.List.Chain
import ShannonPrime.Lib.LazyMerge

/-!
The fast merging of neighbours against the plain one: each round either drops an entry that
is outdated or merges what the plain procedure would.
-/

namespace ShannonPrime.PairMerge

open BinaryHeap

variable {σ κ τ : Type*}

/-- The symbols at the indices. -/
def vals (node : Nat → Node σ) (idx : List Nat) : List σ := idx.map fun i => (node i).val

/-- Symbols in a row, each next to the one behind it. -/
def Chained (Ok : σ → Prop) (Adj : σ → σ → Prop) (l : List σ) : Prop :=
  (∀ v ∈ l, Ok v) ∧ l.IsChain Adj

section Links

variable {node : Nat → Node σ} {idx : List Nat} {i : Nat} {R : Rule σ κ τ} {e : Entry κ τ}

/-- A merge of the linked symbols is one of the list. -/
theorem Pair.vals_merge (h : Pair node idx i e) :
    vals (mergeNodes R node e) (idx.eraseIdx (i + 1)) =
      mergeAt R.join e.rank i (vals node idx) := by
  obtain ⟨pre, post, hidx, hlen⟩ := exists_split h.left h.right
  have hsorted := h.linked.sorted
  rw [hidx] at hsorted
  obtain ⟨-, hpair, hbefore⟩ := List.pairwise_append.mp hsorted
  obtain ⟨hleft, hrest⟩ := List.pairwise_cons.mp hpair
  obtain ⟨hright, -⟩ := List.pairwise_cons.mp hrest
  have hsame : ∀ x ∈ idx, x ≠ e.left → x ≠ e.right →
      (mergeNodes R node e x).val = (node x).val := by
    intro x _ hl hr
    rw [mergeNodes_other hl hr]
  have hpre : vals (mergeNodes R node e) pre = vals node pre := by
    apply List.map_congr_left
    intro x hx
    have hltl := hbefore x hx e.left List.mem_cons_self
    have hltr := hbefore x hx e.right (List.mem_cons_of_mem _ List.mem_cons_self)
    apply hsame x _ (Nat.ne_of_lt hltl) (Nat.ne_of_lt hltr)
    rw [hidx]
    exact List.mem_append_left _ hx
  have hpost : vals (mergeNodes R node e) post = vals node post := by
    apply List.map_congr_left
    intro x hx
    have hltl := hleft x (List.mem_cons_of_mem _ hx)
    have hltr := hright x hx
    apply hsame x _ (Nat.ne_of_gt hltl) (Nat.ne_of_gt hltr)
    rw [hidx]
    exact List.mem_append_right _ (List.mem_cons_of_mem _ (List.mem_cons_of_mem _ hx))
  have herase : idx.eraseIdx (i + 1) = pre ++ e.left :: post := by
    rw [hidx, ← hlen, List.eraseIdx_append_of_length_le (Nat.le_add_right _ 1),
      Nat.add_sub_cancel_left]
    rfl
  have hvals : vals node idx =
      vals node pre ++ (node e.left).val :: (node e.right).val :: vals node post := by
    rw [hidx]
    simp only [vals, List.map_append, List.map_cons]
  have hlen' : (vals node pre).length = i := by
    rw [vals, List.length_map, hlen]
  rw [herase, hvals, ← hlen', mergeAt_split, ← hpre, ← hpost]
  simp only [vals, List.map_append, List.map_cons, h.node_left]

theorem vals_getElem? {a : σ} (hi : (vals node idx)[i]? = some a) :
    ∃ l, idx[i]? = some l ∧ (node l).val = a := by
  rw [vals, List.getElem?_map, Option.map_eq_some_iff] at hi
  exact hi

theorem getElem?_vals {l : Nat} (hi : idx[i]? = some l) :
    (vals node idx)[i]? = some (node l).val := by
  rw [vals, List.getElem?_map, hi]
  rfl

/-- The links lead through the indices. -/
theorem Linked.walk (h : Linked node idx) (fuel : Nat) (hfuel : idx.length ≤ i + fuel) :
    walk node fuel idx[i]? = vals node (idx.drop i) := by
  induction fuel generalizing i with
  | zero =>
      rw [List.drop_eq_nil_of_le (by omega)]
      rfl
  | succ fuel ih =>
      cases hi : idx[i]? with
      | none =>
          rw [List.drop_eq_nil_of_le (List.getElem?_eq_none_iff.mp hi)]
          rfl
      | some l =>
          obtain ⟨hlt, hget⟩ := List.getElem?_eq_some_iff.mp hi
          rw [PairMerge.walk, h.next hi, ih (by omega), List.drop_eq_getElem_cons hlt, hget]
          rfl

end Links

/-! ## What the symbols stand for -/

section Meaning

variable {ρ : Type*} {f : σ → ρ} {rank : ρ → ρ → Option κ} {join : ρ → ρ → κ → ρ}
variable {R : Rule σ κ τ} {Ok : σ → Prop} {Adj : σ → σ → Prop} {size : σ → Nat}
variable {l : List σ} {i : Nat} {k : κ}

/-- Neighbours rank as what they stand for, and join to what their meanings join to. -/
structure Image (R : Rule σ κ τ) (Ok : σ → Prop) (Adj : σ → σ → Prop) (f : σ → ρ)
    (rank : ρ → ρ → Option κ) (join : ρ → ρ → κ → ρ) : Prop where
  rank : ∀ {a b}, Ok a → Ok b → Adj a b → R.rank a b = rank (f a) (f b)
  join : ∀ {a b k}, Ok a → Ok b → Adj a b → R.rank a b = some k →
    f (R.join a b k) = join (f a) (f b) k

theorem Chained.merge (law : Lawful R Ok Adj size) (h : Chained Ok Adj l)
    (hranked : RankedAt R.rank l i k) : Chained Ok Adj (mergeAt R.join k i l) := by
  obtain ⟨a, b, ha, hb, hrank⟩ := hranked
  obtain ⟨pre, post, rfl, rfl⟩ := exists_split ha hb
  rw [mergeAt_split]
  obtain ⟨hok, hchain⟩ := h
  obtain ⟨hpre, hrest, hbefore⟩ := List.isChain_append.mp hchain
  obtain ⟨hab, hpost⟩ := List.isChain_cons_cons.mp hrest
  have hoka : Ok a := hok a (by simp)
  have hokb : Ok b := hok b (by simp)
  constructor
  · intro v hv
    rcases List.mem_append.mp hv with hpre' | hpost'
    · exact hok v (List.mem_append_left _ hpre')
    · rcases List.mem_cons.mp hpost' with rfl | hpost'
      · exact law.ok_join hoka hokb hab hrank
      · exact hok v (by simp [hpost'])
  · apply List.isChain_append.mpr
    refine ⟨hpre, ?_, ?_⟩
    · cases post with
      | nil => exact List.isChain_singleton _
      | cons c post =>
          obtain ⟨hbc, hpost⟩ := List.isChain_cons_cons.mp hpost
          exact List.isChain_cons_cons.mpr ⟨law.adj_left hoka hokb hab hbc hrank, hpost⟩
    · intro x hx y hy
      rw [List.head?_cons, Option.mem_some_iff] at hy
      subst hy
      exact law.adj_right hoka hokb (hbefore x hx a rfl) hab hrank

theorem Image.rankedAt (im : Image R Ok Adj f rank join) (h : Chained Ok Adj l) {k : κ} :
    RankedAt rank (l.map f) i k ↔ RankedAt R.rank l i k := by
  have hpair : ∀ a b, l[i]? = some a → l[i + 1]? = some b → R.rank a b = rank (f a) (f b) := by
    intro a b ha hb
    have hlt := (List.getElem?_eq_some_iff.mp hb).1
    have hadj := List.isChain_iff_getElem.mp h.2 i hlt
    rw [List.getElem?_eq_getElem (Nat.lt_of_succ_lt hlt), Option.some_inj] at ha
    rw [List.getElem?_eq_getElem hlt, Option.some_inj] at hb
    subst ha hb
    exact im.rank (h.1 _ (List.getElem_mem _)) (h.1 _ (List.getElem_mem _)) hadj
  simp only [RankedAt, List.getElem?_map, Option.map_eq_some_iff]
  constructor
  · rintro ⟨-, -, ⟨a, ha, rfl⟩, ⟨b, hb, rfl⟩, hrank⟩
    exact ⟨a, b, ha, hb, (hpair a b ha hb).trans hrank⟩
  · rintro ⟨a, b, ha, hb, hrank⟩
    exact ⟨f a, f b, ⟨a, ha, rfl⟩, ⟨b, hb, rfl⟩, (hpair a b ha hb).symm.trans hrank⟩

theorem Image.mergeAt (im : Image R Ok Adj f rank join) (h : Chained Ok Adj l)
    (hranked : RankedAt R.rank l i k) :
    (mergeAt R.join k i l).map f = PairMerge.mergeAt join k i (l.map f) := by
  obtain ⟨a, b, ha, hb, hrank⟩ := hranked
  obtain ⟨pre, post, rfl, rfl⟩ := exists_split ha hb
  have hadj := (List.isChain_cons_cons.mp (List.isChain_append.mp h.2).2.1).1
  have hjoin := im.join (h.1 a (by simp)) (h.1 b (by simp)) hadj hrank
  rw [mergeAt_split]
  simp only [List.map_append, List.map_cons, hjoin]
  rw [← List.length_map f, mergeAt_split]

end Meaning

section Steps

variable {R : Rule σ κ τ} {Ok : σ → Prop} {Adj : σ → σ → Prop} {size : σ → Nat}
variable {s : State σ κ τ} {idx : List Nat}

theorem inHeap_first (hn : 0 < s.heap.n) : InHeap (s.heap.e 0) s := ⟨0, hn, rfl⟩

/-- Neighbours with a rank keep a heap from being empty. -/
theorem Covered.inHeap (hcover : Covered R s idx) (hlinked : Linked s.node idx) {j : Nat} {k : κ}
    (hranked : RankedAt R.rank (vals s.node idx) j k) :
    ∃ l, idx[j]? = some l ∧ ∃ r t, InHeap ⟨k, l, r, t⟩ s := by
  obtain ⟨a, b, ha, hb, hrank⟩ := hranked
  obtain ⟨l, hl, rfl⟩ := vals_getElem? ha
  obtain ⟨r, hr, rfl⟩ := vals_getElem? hb
  have hnext : (s.node l).next = some r := by rw [hlinked.next hl, hr]
  exact ⟨l, hl, r, _, hcover l (List.mem_of_getElem? hl) r hnext k hrank⟩

variable [LinearOrder κ]

/-- The symbols and heap without the first entry. -/
def popped (s : State σ κ τ) : State σ κ τ := { s with heap := (pop Entry.before s.heap).2 }

theorem step_eq (R : Rule σ κ τ) (s : State σ κ τ) :
    step R s = if stale R s.node (s.heap.e 0) then popped s
      else merge R (popped s) (s.heap.e 0) := rfl

/-- The pair of the entry has become one. -/
def joined (R : Rule σ κ τ) (s : State σ κ τ) (e : Entry κ τ) : State σ κ τ :=
  { s with node := mergeNodes R s.node e }

/-- The pair on the left has been tried. -/
def leftTried (R : Rule σ κ τ) (s : State σ κ τ) (e : Entry κ τ) : State σ κ τ :=
  tryPair R (joined R s e) ((joined R s e).node e.left).prev (some e.left)

theorem merge_eq (R : Rule σ κ τ) (s : State σ κ τ) (e : Entry κ τ) :
    merge R s e =
      tryPair R (leftTried R s e) (some e.left) ((joined R s e).node e.left).next := rfl

theorem inHeap_popped {e : Entry κ τ} (hn : 0 < s.heap.n) :
    InHeap e s ↔ e = s.heap.e 0 ∨ InHeap e (popped s) := mem_pop hn

theorem Base.popped (h : Base R Ok Adj size s idx) (hn : 0 < s.heap.n) :
    Base R Ok Adj size (popped s) idx :=
  ⟨h.linked, h.ok, h.adj, fun e he => h.noted e ((inHeap_popped hn).mpr (Or.inr he)),
    h.ordered.pop compares⟩

theorem Covered.best_none (hcover : Covered R s idx) (hlinked : Linked s.node idx)
    (hn : s.heap.n = 0) : best R.rank (vals s.node idx) = none := by
  cases hbest : best R.rank (vals s.node idx) with
  | none => rfl
  | some r =>
      obtain ⟨-, -, -, -, j, hj, -⟩ := hcover.inHeap hlinked (best_eq_some hbest).1
      omega

/-- The first entry of the heap is the least of the neighbours. -/
theorem Covered.leastAt (h : Base R Ok Adj size s idx) (hcover : Covered R s idx) {i : Nat}
    (hp : Pair s.node idx i (s.heap.e 0))
    (hrank : R.rank (s.node (s.heap.e 0).left).val (s.node (s.heap.e 0).right).val =
      some (s.heap.e 0).rank) :
    LeastAt R.rank (vals s.node idx) i (s.heap.e 0).rank := by
  refine ⟨⟨_, _, getElem?_vals hp.left, getElem?_vals hp.right, hrank⟩, fun j k' hj => ?_⟩
  obtain ⟨l, hl, r, t, hin⟩ := hcover.inHeap h.linked hj
  have hle := h.ordered.first_le hin
  rcases Prod.Lex.toLex_le_toLex.mp hle with hlt | ⟨heq, hleft⟩
  · exact Or.inl hlt
  · refine Or.inr ⟨heq, ?_⟩
    by_contra hji
    have hback := h.linked.lt hl hp.left (Nat.lt_of_not_le hji)
    exact absurd hleft (Nat.not_le.mpr hback)

section Lawful

variable (law : Lawful R Ok Adj size)

include law

/-- An entry that is not outdated stands for neighbours as they are. -/
theorem Base.current (h : Base R Ok Adj size s idx) {e : Entry κ τ} (he : InHeap e s)
    (hstale : stale R s.node e = false) :
    ∃ i, Pair s.node idx i e ∧
      R.rank (s.node e.left).val (s.node e.right).val = some e.rank := by
  simp only [stale, Bool.or_eq_false_iff, Bool.not_eq_false'] at hstale
  obtain ⟨⟨hdl, hdr⟩, hfresh⟩ := hstale
  have hnoted := h.noted e he
  have hl : e.left ∈ idx := by
    rcases hnoted.left with hmem | hd
    · exact hmem
    · rw [hdl] at hd
      cases hd
  have hr : e.right ∈ idx := by
    rcases hnoted.right with hmem | hd
    · exact hmem
    · rw [hdr] at hd
      cases hd
  obtain ⟨hnext, b, hb, htag, hrank, hsize⟩ := hnoted.live hl hr
  obtain ⟨i, hi, hi'⟩ := h.linked.at_next hl hnext
  refine ⟨i, ⟨h.linked, hi, hi'⟩, ?_⟩
  rcases hsize with rfl | hlt
  · exact hrank
  · rw [htag] at hfresh
    have heq := law.fresh_size (h.ok _ hl) (h.ok _ hr) hb hrank hfresh
    exact absurd heq.symm (Nat.ne_of_lt hlt)

/-- An entry that is outdated is that of no neighbours. -/
theorem Covered.popped (h : Base R Ok Adj size s idx) (hcover : Covered R s idx)
    (hn : 0 < s.heap.n) (hstale : stale R s.node (s.heap.e 0) = true) :
    Covered R (popped s) idx := by
  intro l hl r hnext k hk
  rcases (inHeap_popped hn).mp (hcover l hl r hnext k hk) with hfirst | hrest
  · have hr := h.linked.next_mem hl hnext
    rw [← hfirst] at hstale
    simp only [stale, law.alive (h.ok l hl), law.alive (h.ok r hr),
      law.fresh_tag (h.ok l hl) (h.ok r hr) hk] at hstale
    cases hstale
  · exact hrest

/-- What a merge leaves: its neighbours in the heap, with at most two entries more. -/
theorem merge_round {i : Nat} {e : Entry κ τ} (h : Base R Ok Adj size s idx)
    (hp : Pair s.node idx i e)
    (hrank : R.rank (s.node e.left).val (s.node e.right).val = some e.rank)
    (hcover : ∀ l ∈ idx, l ≠ e.left → ∀ r, (s.node l).next = some r → Queued R s l r) :
    Base R Ok Adj size (merge R s e) (idx.eraseIdx (i + 1)) ∧
      Covered R (merge R s e) (idx.eraseIdx (i + 1)) ∧ Grown (joined R s e) (merge R s e) 2 := by
  have hbase : Base R Ok Adj size (joined R s e) _ := h.mergeNodes law hp hrank
  have hleft : e.left ∈ idx.eraseIdx (i + 1) :=
    hp.mem_erase.mpr ⟨hp.left_mem, Nat.ne_of_lt hp.lt⟩
  have hgrown : Grown (joined R s e) (leftTried R s e) 1 := tryPair_grown _ _ _
  have hbase' : Base R Ok Adj size (leftTried R s e) (idx.eraseIdx (i + 1)) := by
    apply hbase.tryPair
    intro a b ha hb
    rw [← Option.some_inj.mp hb]
    exact hbase.linked.prev_next hleft ha
  have hgrown' : Grown (leftTried R s e) (merge R s e) 1 := tryPair_grown _ _ _
  refine ⟨?_, ?_, hgrown.trans hgrown'⟩
  · apply hbase'.tryPair
    intro a b ha hb
    rw [← Option.some_inj.mp ha, hgrown.node]
    exact ⟨hleft, hb⟩
  · intro l hl r hnext
    rw [hgrown'.node, hgrown.node] at hnext
    by_cases hll : l = e.left
    · subst hll
      rw [merge_eq, hnext]
      exact tryPair_queued _ _ _
    · apply Queued.grown _ hgrown'
      by_cases hrl : r = e.left
      · subst hrl
        rw [leftTried, hbase.linked.next_prev hl hnext]
        exact tryPair_queued _ _ _
      · -- neither of the two is of the pair, nor did the pair's entry stand for them
        apply Queued.grown _ hgrown
        obtain ⟨hl', hlr⟩ := hp.mem_erase.mp hl
        have hr := hp.mem_erase.mp (hbase.linked.next_mem hl hnext)
        intro k hk
        simp only [joined, mergeNodes_other hll hlr] at hnext
        simp only [joined, mergeNodes_other hll hlr, mergeNodes_other hrl hr.2] at hk ⊢
        exact hcover l hl' hll r hnext k hk

/-- One round: an entry less, or what the plain procedure merges and two entries at most in
place of the one. -/
structure Round (R : Rule σ κ τ) (s s' : State σ κ τ) (idx idx' : List Nat) : Prop where
  first : idx'[0]? = idx[0]?
  peak : s'.peak ≤ max s.peak s'.heap.n
  vals : (idx' = idx ∧ vals s'.node idx' = vals s.node idx ∧ s'.heap.n + 1 = s.heap.n) ∨
    (idx'.length + 1 = idx.length ∧ s'.heap.n ≤ s.heap.n + 1 ∧ idx' ≠ [] ∧
      ∃ k i, best R.rank (vals s.node idx) = some (k, i) ∧
        PairMerge.vals s'.node idx' = mergeAt R.join k i (PairMerge.vals s.node idx))

theorem step_spec (h : Base R Ok Adj size s idx) (hcover : Covered R s idx)
    (hn : 0 < s.heap.n) :
    ∃ idx', Base R Ok Adj size (step R s) idx' ∧ Covered R (step R s) idx' ∧
      Round R s (step R s) idx idx' := by
  have hpop : (popped s).heap.n = s.heap.n - 1 := rfl
  rw [step_eq]
  cases hstale : stale R s.node (s.heap.e 0) with
  | true =>
      rw [if_pos rfl]
      refine ⟨idx, h.popped hn, hcover.popped law h hn hstale, rfl, le_max_left _ _, Or.inl ?_⟩
      exact ⟨rfl, rfl, by omega⟩
  | false =>
      rw [if_neg Bool.false_ne_true]
      obtain ⟨i, hp, hrank⟩ := h.current law (inHeap_first hn) hstale
      have hleast := hcover.leastAt h hp hrank
      have hrest : ∀ l ∈ idx, l ≠ (s.heap.e 0).left → ∀ r, (s.node l).next = some r →
          Queued R (popped s) l r := by
        intro l hl hne r hnext k hk
        rcases (inHeap_popped hn).mp (hcover l hl r hnext k hk) with hfirst | hold
        · rw [← hfirst] at hne
          exact absurd rfl hne
        · exact hold
      obtain ⟨hbase, hcovered, hgrown⟩ := merge_round law (h.popped hn) hp hrank hrest
      have hlen := List.length_eraseIdx_of_lt (List.getElem?_eq_some_iff.mp hp.right).1
      have hsize : (merge R (popped s) (s.heap.e 0)).heap.n ≤ s.heap.n - 1 + 2 := hgrown.size
      have hfirst : (idx.eraseIdx (i + 1))[0]? = idx[0]? :=
        List.getElem?_eraseIdx_of_lt (Nat.succ_pos i)
      have hvals : vals (merge R (popped s) (s.heap.e 0)).node (idx.eraseIdx (i + 1)) =
          mergeAt R.join (s.heap.e 0).rank i (vals s.node idx) := by
        rw [hgrown.node]
        exact hp.vals_merge
      have hmem : (s.heap.e 0).left ∈ idx.eraseIdx (i + 1) :=
        hp.mem_erase.mpr ⟨hp.left_mem, Nat.ne_of_lt hp.lt⟩
      refine ⟨_, hbase, hcovered, hfirst, hgrown.peak, Or.inr ?_⟩
      have hlt := (List.getElem?_eq_some_iff.mp hp.right).1
      exact ⟨by omega, by omega, List.ne_nil_of_mem hmem, _, i, hleast.best, hvals⟩

/-- With fuel for the entries and two for each symbol the heap runs empty, at the symbols of
the plain procedure. -/
theorem loop_spec (fuel : Nat) {m B : Nat} (h : Base R Ok Adj size s idx) (hcover : Covered R s idx)
    (hfuel : s.heap.n + 2 * idx.length ≤ fuel) (hm : idx.length ≤ m)
    (hB : s.heap.n + idx.length ≤ B + 1) (hpeak : s.peak ≤ B) :
    ∃ idx', Base R Ok Adj size (loop R fuel s) idx' ∧ (loop R fuel s).heap.n = 0 ∧
      idx'[0]? = idx[0]? ∧ idx'.length ≤ idx.length ∧
      vals (loop R fuel s).node idx' = naive R.rank R.join m (vals s.node idx) ∧
      (loop R fuel s).peak ≤ B := by
  induction fuel generalizing s idx m with
  | zero =>
      have hn : s.heap.n = 0 := by omega
      refine ⟨idx, h, hn, rfl, le_refl _, ?_, hpeak⟩
      rw [naive_of_best_none m (hcover.best_none h.linked hn)]
      rfl
  | succ fuel ih =>
      rw [loop]
      by_cases hn : s.heap.n = 0
      · rw [if_pos hn]
        refine ⟨idx, h, hn, rfl, le_refl _, ?_, hpeak⟩
        rw [naive_of_best_none m (hcover.best_none h.linked hn)]
      · rw [if_neg hn]
        obtain ⟨idx', hbase, hcovered, hfirst, hpeak', hvals⟩ :=
          step_spec law h hcover (Nat.pos_of_ne_zero hn)
        rcases hvals with ⟨rfl, hsame, hless⟩ | ⟨hlen, hless, hne, k, i, hbest, hmerged⟩
        · obtain ⟨idx'', hbase', hzero, hfirst', hle, hnaive, hpeak''⟩ :=
            ih hbase hcovered (by omega) hm (by omega) (by omega)
          exact ⟨idx'', hbase', hzero, hfirst', hle, by rw [hnaive, hsame], hpeak''⟩
        · have hpos : 0 < idx'.length := List.length_pos_iff.mpr hne
          obtain ⟨m, rfl⟩ : ∃ m', m = m' + 1 := ⟨m - 1, by omega⟩
          obtain ⟨idx'', hbase', hzero, hfirst', hle, hnaive, hpeak''⟩ :=
            ih (m := m) hbase hcovered (by omega) (by omega) (by omega) (by omega)
          refine ⟨idx'', hbase', hzero, hfirst'.trans hfirst, by omega, ?_, hpeak''⟩
          rw [hnaive, hmerged, naive, hbest]

end Lawful

/-! ## The whole run -/

section Run

variable {vs : List σ} {junk : Nat → Node σ} {garbage : Nat → Entry κ τ}

theorem row_get {i : Nat} {v : σ} (hv : vs[i]? = some v) :
    row vs junk i = ⟨if i = 0 then none else some (i - 1),
      if i + 1 < vs.length then some (i + 1) else none, v⟩ := by
  rw [row, hv]

theorem row_of_lt {i : Nat} (hi : i < vs.length) :
    row vs junk i = ⟨if i = 0 then none else some (i - 1),
      if i + 1 < vs.length then some (i + 1) else none, vs[i]⟩ :=
  row_get (List.getElem?_eq_getElem hi)

theorem linked_row : Linked (row vs junk) (List.range vs.length) := by
  refine ⟨List.pairwise_lt_range, ?_, ?_, ?_⟩
  · intro i l hl
    obtain ⟨hi, rfl⟩ := List.getElem?_eq_some_iff.mp hl
    rw [List.length_range] at hi
    rw [List.getElem_range, row_of_lt hi]
    dsimp only
    split
    · rename_i hlt
      rw [List.getElem?_range hlt]
    · rename_i hge
      rw [List.getElem?_eq_none (by rw [List.length_range]; omega)]
  · intro i l hl
    obtain ⟨hi, rfl⟩ := List.getElem?_eq_some_iff.mp hl
    rw [List.length_range] at hi
    rw [List.getElem_range, row_of_lt hi, List.getElem?_range (by omega)]
    rfl
  · intro l hl
    obtain ⟨hi, rfl⟩ := List.getElem?_eq_some_iff.mp hl
    rw [List.length_range] at hi
    rw [List.getElem_range, row_of_lt hi]
    rfl

theorem vals_row : vals (row vs junk) (List.range vs.length) = vs := by
  apply List.ext_getElem
  · rw [vals, List.length_map, List.length_range]
  · intro i hi hi'
    simp only [vals, List.getElem_map, List.getElem_range, row_of_lt hi']

variable (R vs junk garbage) in
/-- The row with an empty heap. -/
def fresh : State σ κ τ := ⟨row vs junk, ⟨garbage, 0⟩, 0⟩

theorem Base.fresh (h : Chained Ok Adj vs) :
    Base R Ok Adj size (fresh vs junk garbage) (List.range vs.length) := by
  refine ⟨linked_row, ?_, ?_, ?_, ?_⟩
  · intro i hi
    rw [List.mem_range] at hi
    simp only [PairMerge.fresh, row_of_lt hi]
    exact h.1 _ (List.getElem_mem hi)
  · intro l hl r hnext
    rw [List.mem_range] at hl
    simp only [PairMerge.fresh, row_of_lt hl] at hnext ⊢
    split at hnext
    · rename_i hlt
      cases hnext
      rw [row_of_lt hlt]
      exact List.isChain_iff_getElem.mp h.2 l hlt
    · cases hnext
  · rintro e ⟨i, hi, -⟩
    exact absurd hi (Nat.not_lt_zero i)
  · intro j _ hj
    exact absurd hj (Nat.not_lt_zero j)

theorem start_succ {R : Rule σ κ τ} (m : Nat) (s : State σ κ τ) :
    start R (m + 2) s = tryPair R (start R (m + 1) s) (some m) (some (m + 1)) := by
  have hrange : List.range' 1 (m + 1) = List.range' 1 m ++ [m + 1] := by
    rw [List.range'_1_concat, Nat.add_comm 1 m]
  simp only [start, Nat.add_sub_cancel, Nat.add_succ_sub_one, hrange, List.foldl_append,
    List.foldl_cons, List.foldl_nil]

/-- After the first `m` neighbours. -/
theorem start_spec (h : Base R Ok Adj size (fresh vs junk garbage) (List.range vs.length))
    {m : Nat} (hm : m < vs.length) :
    Base R Ok Adj size (start R (m + 1) (fresh vs junk garbage)) (List.range vs.length) ∧
      (start R (m + 1) (fresh vs junk garbage)).node = row vs junk ∧
      (start R (m + 1) (fresh vs junk garbage)).heap.n ≤ m ∧
      (start R (m + 1) (fresh vs junk garbage)).peak ≤ m ∧
      ∀ l < m, Queued R (start R (m + 1) (fresh vs junk garbage)) l (l + 1) := by
  induction m with
  | zero =>
      exact ⟨h, rfl, le_refl 0, le_refl 0, fun l hl => absurd hl (Nat.not_lt_zero l)⟩
  | succ m ih =>
      obtain ⟨hbase, hnode, hn, hpeak, hqueued⟩ := ih (by omega)
      have hgrown := tryPair_grown (R := R) (start R (m + 1) (fresh vs junk garbage))
        (some m) (some (m + 1))
      have hsize := hgrown.size
      have hpeak' := hgrown.peak
      rw [start_succ]
      refine ⟨?_, hgrown.node.trans hnode, by omega, by omega, fun l hl => ?_⟩
      · apply hbase.tryPair
        intro a b ha hb
        cases ha
        cases hb
        rw [hnode, row_of_lt (by omega)]
        exact ⟨List.mem_range.mpr (by omega), if_pos (by omega)⟩
      · by_cases hlast : l = m
        · subst hlast
          exact tryPair_queued _ _ _
        · exact (hqueued l (by omega)).grown hgrown

/-- The fast procedure gives what the plain one does, and never holds more than two entries
for each symbol but the first. -/
theorem run_eq_naive (law : Lawful R Ok Adj size) (h : Chained Ok Adj vs)
    (junk : Nat → Node σ) (garbage : Nat → Entry κ τ) :
    (run R vs junk garbage).heap.n = 0 ∧
      result (run R vs junk garbage) vs.length = naive R.rank R.join vs.length vs ∧
      (run R vs junk garbage).peak ≤ 2 * (vs.length - 1) := by
  have hfresh : Base R Ok Adj size (fresh vs junk garbage) (List.range vs.length) :=
    Base.fresh h
  rcases Nat.eq_zero_or_pos vs.length with hzero | hpos
  · rw [List.length_eq_zero_iff] at hzero
    subst hzero
    exact ⟨rfl, rfl, le_refl 0⟩
  · obtain ⟨m, hm⟩ : ∃ m, vs.length = m + 1 := ⟨vs.length - 1, by omega⟩
    obtain ⟨hbase, hnode, hn, hpeak, hqueued⟩ := start_spec hfresh (m := m) (by omega)
    rw [← hm] at hbase hnode hn hpeak hqueued
    have hcover : Covered R (start R vs.length (fresh vs junk garbage)) (List.range vs.length) := by
      intro l hl r hnext
      rw [List.mem_range] at hl
      rw [hnode, row_of_lt hl] at hnext
      dsimp only at hnext
      split at hnext
      · rename_i hlt
        cases hnext
        exact hqueued l (by omega)
      · cases hnext
    obtain ⟨idx', hbase', hempty, hfirst, hle, hvals, hpeak'⟩ :=
      loop_spec law (3 * vs.length) (m := vs.length) (B := 2 * (vs.length - 1)) hbase hcover
        (by rw [List.length_range]; omega) (by rw [List.length_range])
        (by rw [List.length_range]; omega) (by omega)
    rw [List.length_range] at hle
    have hwalk := hbase'.linked.walk (i := 0) vs.length (by omega)
    rw [hfirst, List.getElem?_range hpos, List.drop_zero, hvals, hnode, vals_row] at hwalk
    exact ⟨hempty, hwalk, hpeak'⟩

end Run

section Meaning

variable {ρ : Type*} {f : σ → ρ} {rank : ρ → ρ → Option κ} {join : ρ → ρ → κ → ρ}
variable {l l' : List σ}

/-- The merges of symbols are those of what they stand for. -/
theorem Merged.map (law : Lawful R Ok Adj size) (im : Image R Ok Adj f rank join)
    (h : Chained Ok Adj l) (hmerged : Merged R.rank R.join l l') :
    Merged rank join (l.map f) (l'.map f) ∧ Chained Ok Adj l' := by
  induction hmerged with
  | done hnone => exact ⟨.done fun i k hk => hnone i k ((im.rankedAt h).mp hk), h⟩
  | merge hleast _ ih =>
      obtain ⟨hmap, hchained⟩ := ih (h.merge law hleast.1)
      rw [im.mergeAt h hleast.1] at hmap
      refine ⟨.merge ⟨(im.rankedAt h).mpr hleast.1, fun j k' hj => ?_⟩ hmap, hchained⟩
      exact hleast.2 j k' ((im.rankedAt h).mp hj)

/-- The fast procedure on symbols does the merges of what they stand for. -/
theorem run_merged (law : Lawful R Ok Adj size) (im : Image R Ok Adj f rank join) {vs : List σ}
    (h : Chained Ok Adj vs) (junk : Nat → Node σ) (garbage : Nat → Entry κ τ) :
    Merged rank join (vs.map f) ((result (run R vs junk garbage) vs.length).map f) ∧
      Chained Ok Adj (result (run R vs junk garbage) vs.length) ∧
      (run R vs junk garbage).heap.n = 0 ∧
      (run R vs junk garbage).peak ≤ 2 * (vs.length - 1) := by
  obtain ⟨hempty, hresult, hpeak⟩ := run_eq_naive law h junk garbage
  have hnaive : Merged R.rank R.join vs (naive R.rank R.join vs.length vs) :=
    naive_merged (le_refl vs.length)
  obtain ⟨hmerged, hchained⟩ := Merged.map law im h hnaive
  rw [hresult]
  exact ⟨hmerged, hchained, hempty, hpeak⟩

end Meaning

end Steps

end ShannonPrime.PairMerge
