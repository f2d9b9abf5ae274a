import Mathlib.Algebra.Order.Field.Basic
import Mathlib.Algebra.BigOperators.Field
import Mathlib.Algebra.Order.BigOperators.Group.Finset
import Mathlib.Data.List.Nodup
import Mathlib.Logic.Function.Basic
import Mathlib.Tactic.FieldSimp
import Mathlib.Tactic.Linarith

/-!
The router of the mixture of experts: softmax over the logits of a token, the most probable
experts one after another, and their weights scaled to one. Arithmetic is exact, but a logit
may be infinite or no number, and then so may what comes of it.
-/

namespace ShannonPrime.Diffusion

/-- A float without rounding: a number, an infinity, or no number. -/
inductive Val (K : Type)
  | nan
  | neg
  | fin (x : K)
  | pos
  deriving DecidableEq

namespace Val

variable {K : Type} [Field K] [LinearOrder K]

/-- `a > b`, false where one of them is no number. -/
def gt : Val K → Val K → Bool
  | .nan, _ => false
  | _, .nan => false
  | .neg, _ => false
  | .fin _, .neg => true
  | .fin a, .fin b => decide (b < a)
  | .fin _, .pos => false
  | .pos, .pos => false
  | .pos, _ => true

def add : Val K → Val K → Val K
  | .nan, _ => .nan
  | _, .nan => .nan
  | .pos, .neg => .nan
  | .neg, .pos => .nan
  | .pos, _ => .pos
  | .neg, _ => .neg
  | .fin _, .pos => .pos
  | .fin _, .neg => .neg
  | .fin a, .fin b => .fin (a + b)

def negate : Val K → Val K
  | .nan => .nan
  | .neg => .pos
  | .fin a => .fin (-a)
  | .pos => .neg

def sub (a b : Val K) : Val K := a.add b.negate

/-- A number over zero is infinite, zero over zero no number. -/
def div : Val K → Val K → Val K
  | .nan, _ => .nan
  | _, .nan => .nan
  | .fin a, .fin b =>
      if b = 0 then (if a = 0 then .nan else if 0 < a then .pos else .neg) else .fin (a / b)
  | .fin _, _ => .fin 0
  | .pos, .fin b => if b < 0 then .neg else .pos
  | .neg, .fin b => if b < 0 then .pos else .neg
  | _, _ => .nan

def exp (e : K → K) : Val K → Val K
  | .nan => .nan
  | .neg => .fin 0
  | .fin x => .fin (e x)
  | .pos => .pos

end Val

section Router

variable {K : Type} [Field K] [LinearOrder K]

/-- The loop for `mx`. -/
def maxLogit (lt : Nat → Val K) (NE : Nat) : Val K :=
  (List.range' 1 (NE - 1)).foldl (fun mx i => if (lt i).gt mx then lt i else mx) (lt 0)

/-- `expf(lt[i] - mx)` -/
def shifted (e : K → K) (lt : Nat → Val K) (NE i : Nat) : Val K :=
  ((lt i).sub (maxLogit lt NE)).exp e

/-- `se` -/
def expSum (e : K → K) (lt : Nat → Val K) (NE : Nat) : Val K :=
  (List.range NE).foldl (fun se i => se.add (shifted e lt NE i)) (.fin 0)

/-- `h_logits` after the softmax. -/
def softmax (e : K → K) (lt : Nat → Val K) (NE i : Nat) : Val K :=
  (shifted e lt NE i).div (expSum e lt NE)

/-- The scan for `best` and `bv`. -/
def scanBest (h : Nat → Val K) (used : Nat → Bool) (NE : Nat) : Option Nat × Val K :=
  (List.range NE).foldl
    (fun s i => if !used i && (h i).gt s.2 then (some i, h i) else s) (none, .fin (-1))

def firstUnused (used : Nat → Bool) (NE : Nat) : Nat :=
  ((List.range NE).find? fun i => !used i).getD 0

/-- `used`, and the experts picked with their values. -/
structure Picks (K : Type) where
  used : Nat → Bool
  out : List (Nat × Val K)

/-- One turn of the loop over `k`. Where no value compares, the first unused expert is picked
with weight zero. -/
def pick (h : Nat → Val K) (NE : Nat) (s : Picks K) : Picks K :=
  let best := scanBest h s.used NE
  let p : Nat × Val K :=
    match best.1 with
    | some i => (i, best.2)
    | none => (firstUnused s.used NE, .fin 0)
  ⟨Function.update s.used p.1 true, s.out ++ [p]⟩

def picks (h : Nat → Val K) (NE NU : Nat) : Picks K :=
  (List.range NU).foldl (fun s _ => pick h NE s) ⟨fun _ => false, []⟩

/-- `wsum` -/
def weightSum (out : List (Nat × Val K)) : Val K :=
  out.foldl (fun s p => s.add p.2) (.fin 0)

/-- The weights scaled to one, or equal ones. -/
def renorm (NU : Nat) (out : List (Nat × Val K)) : List (Nat × Val K) :=
  if (weightSum out).gt (.fin 0) then out.map fun p => (p.1, p.2.div (weightSum out))
  else out.map fun p => (p.1, .fin (1 / NU))

/-- The routing of one token, from its logits. -/
def route (e : K → K) (NE NU : Nat) (lt : Nat → Val K) : List (Nat × Val K) :=
  renorm NU (picks (softmax e lt NE) NE NU).out

end Router

/-! Softmax -/

namespace Val

section

variable {K : Type} [Field K]

@[simp] theorem nan_add (a : Val K) : nan.add a = nan := by cases a <;> rfl

@[simp] theorem add_nan (a : Val K) : a.add nan = nan := by cases a <;> rfl

end

section

variable {K : Type} [LinearOrder K]

@[simp] theorem gt_nan (a : Val K) : a.gt nan = false := by cases a <;> rfl

@[simp] theorem gt_self (a : Val K) : a.gt a = false := by
  cases a with
  | fin x => exact decide_eq_false (lt_irrefl x)
  | _ => rfl

theorem gt_trans {a b c : Val K} (hab : a.gt b = true) (hbc : b.gt c = true) : a.gt c = true := by
  cases a <;> cases b <;> cases c <;> simp only [gt, decide_eq_true_eq, reduceCtorEq] at hab hbc ⊢
  exact hbc.trans hab

end

variable {K : Type} [Field K] [LinearOrder K] {e : K → K}

@[simp] theorem div_nan (a : Val K) : a.div nan = nan := by cases a <;> rfl

/-- A value less one that it does not exceed has a power that is no number, or is not
negative. -/
theorem exp_sub_cases (hexp : ∀ x, 0 < e x) {a m : Val K} (h : a.gt m = false) :
    (a.sub m).exp e = nan ∨ ∃ s, 0 ≤ s ∧ (a.sub m).exp e = fin s := by
  cases a with
  | nan =>
      left
      rw [sub, nan_add]
      rfl
  | neg =>
      cases m with
      | nan => exact Or.inl rfl
      | neg => exact Or.inl rfl
      | fin y => exact Or.inr ⟨0, le_refl 0, rfl⟩
      | pos => exact Or.inr ⟨0, le_refl 0, rfl⟩
  | fin x =>
      cases m with
      | nan => exact Or.inl rfl
      | neg => exact absurd h Bool.true_eq_false_eq_False
      | fin y => exact Or.inr ⟨e (x + -y), (hexp _).le, rfl⟩
      | pos => exact Or.inr ⟨0, le_refl 0, rfl⟩
  | pos =>
      cases m with
      | nan => exact Or.inl rfl
      | neg => exact absurd h Bool.true_eq_false_eq_False
      | fin y => exact absurd h Bool.true_eq_false_eq_False
      | pos => exact Or.inl rfl

theorem exp_sub_self (hexp : ∀ x, 0 < e x) (m : Val K) :
    (m.sub m).exp e = nan ∨ ∃ s, 0 < s ∧ (m.sub m).exp e = fin s := by
  cases m with
  | nan => exact Or.inl rfl
  | neg => exact Or.inl rfl
  | fin x => exact Or.inr ⟨e (x + -x), hexp _, rfl⟩
  | pos => exact Or.inl rfl

end Val

section Softmax

variable {K : Type} [Field K] [LinearOrder K] {e : K → K} {lt : Nat → Val K} {NE : Nat}

omit [Field K] in
/-- The maximum is one of the logits, and none exceeds it. -/
theorem maxLogit_spec (lt : Nat → Val K) (hNE : 0 < NE) :
    (∃ j < NE, maxLogit lt NE = lt j) ∧
      (maxLogit lt NE ≠ .nan → ∀ i < NE, (lt i).gt (maxLogit lt NE) = false) := by
  have hloop : ∀ n, (∃ j < n + 1, (List.range' 1 n).foldl
        (fun mx i => if (lt i).gt mx then lt i else mx) (lt 0) = lt j) ∧
      ((List.range' 1 n).foldl (fun mx i => if (lt i).gt mx then lt i else mx) (lt 0) ≠ .nan →
        ∀ i < n + 1, (lt i).gt ((List.range' 1 n).foldl
          (fun mx i => if (lt i).gt mx then lt i else mx) (lt 0)) = false) := by
    intro n
    induction n with
    | zero =>
        refine ⟨⟨0, by omega, rfl⟩, fun _ i hi => ?_⟩
        obtain rfl : i = 0 := by omega
        exact Val.gt_self _
    | succ n ih =>
        obtain ⟨⟨j, hj, hmx⟩, hall⟩ := ih
        rw [List.range'_concat, List.foldl_append, List.foldl_cons, List.foldl_nil]
        generalize (List.range' 1 n).foldl
          (fun mx i => if (lt i).gt mx then lt i else mx) (lt 0) = mx at hmx hall
        simp only [Nat.one_mul]
        split
        · rename_i hgt
          refine ⟨⟨1 + n, by omega, rfl⟩, fun _ i hi => ?_⟩
          have hnum : mx ≠ .nan := by
            intro hnan
            rw [hnan, Val.gt_nan] at hgt
            exact absurd hgt Bool.false_ne_true
          rcases Nat.lt_or_ge i (n + 1) with hold | hnew
          · by_contra hmore
            rw [Bool.not_eq_false] at hmore
            have := Val.gt_trans hmore hgt
            rw [hall hnum i hold] at this
            exact absurd this Bool.false_ne_true
          · obtain rfl : i = 1 + n := by omega
            exact Val.gt_self _
        · rename_i hngt
          refine ⟨⟨j, by omega, hmx⟩, fun hnum i hi => ?_⟩
          rcases Nat.lt_or_ge i (n + 1) with hold | hnew
          · exact hall hnum i hold
          · obtain rfl : i = 1 + n := by omega
            exact Bool.eq_false_iff.mpr hngt
  have hlast := hloop (NE - 1)
  rw [Nat.sub_add_cancel hNE] at hlast
  exact hlast

omit [LinearOrder K] in
/-- A sum with no number among its terms. -/
theorem sum_nan {f : Nat → Val K} {n j : Nat} (hj : j < n) (hf : f j = .nan) :
    (List.range n).foldl (fun (s : Val K) i => s.add (f i)) (.fin 0) = .nan := by
  induction n with
  | zero => exact absurd hj (Nat.not_lt_zero j)
  | succ n ih =>
      rw [List.range_succ, List.foldl_append, List.foldl_cons, List.foldl_nil]
      rcases Nat.lt_succ_iff_lt_or_eq.mp hj with hold | rfl
      · rw [ih hold, Val.nan_add]
      · rw [hf, Val.add_nan]

omit [LinearOrder K] in
theorem sum_fin {f : Nat → Val K} {s : Nat → K} {n : Nat} (hf : ∀ i < n, f i = .fin (s i)) :
    (List.range n).foldl (fun (s : Val K) i => s.add (f i)) (.fin 0) =
      .fin (∑ i ∈ Finset.range n, s i) := by
  induction n with
  | zero => rfl
  | succ n ih =>
      rw [List.range_succ, List.foldl_append, List.foldl_cons, List.foldl_nil,
        ih fun i hi => hf i (by omega), hf n (Nat.lt_succ_self n), Finset.sum_range_succ]
      rfl

variable [IsStrictOrderedRing K]

/-- What the softmax gives: no number anywhere, or probabilities. -/
structure Probabilities (h : Nat → Val K) (NE : Nat) (p : Nat → K) : Prop where
  value : ∀ i < NE, h i = .fin (p i)
  nonneg : ∀ i < NE, 0 ≤ p i
  total : ∑ i ∈ Finset.range NE, p i = 1

theorem softmax_cases (hexp : ∀ x, 0 < e x) (lt : Nat → Val K) (hNE : 0 < NE) :
    (∀ i < NE, softmax e lt NE i = .nan) ∨ ∃ p, Probabilities (softmax e lt NE) NE p := by
  obtain ⟨⟨j, hj, hmx⟩, hall⟩ := maxLogit_spec lt hNE
  have hnan : ∀ k < NE, shifted e lt NE k = .nan → ∀ i < NE, softmax e lt NE i = .nan := by
    intro k hk hshift i _
    rw [softmax, expSum, sum_nan hk hshift, Val.div_nan]
  have hself : shifted e lt NE j = .nan ∨ ∃ s, 0 < s ∧ shifted e lt NE j = .fin s := by
    rw [shifted, ← hmx]
    exact Val.exp_sub_self hexp _
  rcases hself with hself | ⟨top, htop, hself⟩
  · exact Or.inl (hnan j hj hself)
  · by_cases hany : ∃ k < NE, shifted e lt NE k = .nan
    · obtain ⟨k, hk, hshift⟩ := hany
      exact Or.inl (hnan k hk hshift)
    · right
      have hnum : maxLogit lt NE ≠ .nan := by
        intro hmax
        refine hany ⟨j, hj, ?_⟩
        rw [shifted, hmax]
        cases lt j <;> rfl
      have hterm : ∀ i, ∃ s, i < NE → 0 ≤ s ∧ shifted e lt NE i = .fin s := by
        intro i
        by_cases hi : i < NE
        · rcases Val.exp_sub_cases hexp (hall hnum i hi) with hbad | ⟨s, hs, heq⟩
          · exact absurd ⟨i, hi, hbad⟩ hany
          · exact ⟨s, fun _ => ⟨hs, heq⟩⟩
        · exact ⟨0, fun h => absurd h hi⟩
      choose s hs using hterm
      have hsum : expSum e lt NE = .fin (∑ i ∈ Finset.range NE, s i) :=
        sum_fin fun i hi => (hs i hi).2
      have hpos : 0 < ∑ i ∈ Finset.range NE, s i := by
        refine Finset.sum_pos' (fun i hi => (hs i (Finset.mem_range.mp hi)).1)
          ⟨j, Finset.mem_range.mpr hj, ?_⟩
        have heq : (Val.fin (s j)) = .fin top := (hs j hj).2.symm.trans hself
        rw [Val.fin.inj heq]
        exact htop
      refine ⟨fun i => s i / ∑ i ∈ Finset.range NE, s i, ?_, ?_, ?_⟩
      · intro i hi
        rw [softmax, hsum, (hs i hi).2]
        exact if_neg hpos.ne'
      · intro i hi
        exact div_nonneg (hs i hi).1 hpos.le
      · rw [← Finset.sum_div, div_self hpos.ne']

/-- The softmax of finite logits, each less `m`. -/
def prob (e : K → K) (x : Nat → K) (m : K) (NE i : Nat) : K :=
  e (x i - m) / ∑ j ∈ Finset.range NE, e (x j - m)

/-- Ordinary logits have their probabilities. -/
theorem softmax_ordinary (hexp : ∀ x, 0 < e x) {x : Nat → K} (hNE : 0 < NE)
    (hlt : ∀ i < NE, lt i = .fin (x i)) :
    ∃ m, maxLogit lt NE = .fin m ∧ Probabilities (softmax e lt NE) NE (prob e x m NE) := by
  obtain ⟨⟨j, hj, hmx⟩, -⟩ := maxLogit_spec lt hNE
  have hshift : ∀ i < NE, shifted e lt NE i = .fin (e (x i - x j)) := by
    intro i hi
    rw [shifted, hmx, hlt i hi, hlt j hj, sub_eq_add_neg]
    rfl
  have hpos : 0 < ∑ i ∈ Finset.range NE, e (x i - x j) :=
    Finset.sum_pos (fun i _ => hexp _) ⟨0, Finset.mem_range.mpr hNE⟩
  refine ⟨x j, hmx.trans (hlt j hj), ?_, ?_, ?_⟩
  · intro i hi
    rw [softmax, expSum, sum_fin hshift, hshift i hi]
    exact if_neg hpos.ne'
  · intro i _
    exact div_nonneg (hexp _).le hpos.le
  · simp only [prob]
    rw [← Finset.sum_div, div_self hpos.ne']

end Softmax

/-! The picks -/

section Picks

variable {K : Type} [Field K] [LinearOrder K] {h : Nat → Val K} {used : Nat → Bool} {NE : Nat}

/-- What the scan finds is an expert not yet used. -/
theorem scanBest_some {i : Nat} (hi : (scanBest h used NE).1 = some i) :
    i < NE ∧ used i = false := by
  unfold scanBest at hi
  induction NE with
  | zero => exact absurd hi (Option.some_ne_none i).symm
  | succ n ih =>
      rw [List.range_succ, List.foldl_append, List.foldl_cons, List.foldl_nil] at hi
      split at hi
      · rename_i htaken
        obtain rfl := Option.some.inj hi
        rw [Bool.and_eq_true, Bool.not_eq_true'] at htaken
        exact ⟨Nat.lt_succ_self _, htaken.1⟩
      · obtain ⟨hlt, hfree⟩ := ih hi
        exact ⟨by omega, hfree⟩

theorem scanBest_nan (hh : ∀ i < NE, h i = .nan) : scanBest h used NE = (none, .fin (-1)) := by
  unfold scanBest
  induction NE with
  | zero => rfl
  | succ n ih =>
      rw [List.range_succ, List.foldl_append, List.foldl_cons, List.foldl_nil,
        ih fun i hi => hh i (by omega), hh n (Nat.lt_succ_self n)]
      exact if_neg (by rw [Bool.and_eq_true]; exact fun hgt => Bool.false_ne_true hgt.2)

theorem firstUnused_spec (hfree : ∃ i < NE, used i = false) :
    firstUnused used NE < NE ∧ used (firstUnused used NE) = false := by
  obtain ⟨i, hi, hused⟩ := hfree
  obtain ⟨j, hfind⟩ : ∃ j, (List.range NE).find? (fun i => !used i) = some j := by
    rw [← Option.isSome_iff_exists, List.find?_isSome]
    exact ⟨i, List.mem_range.mpr hi, by rw [hused]; rfl⟩
  rw [firstUnused, hfind, Option.getD_some]
  refine ⟨List.mem_range.mp (List.mem_of_find?_eq_some hfind), ?_⟩
  have := List.find?_some hfind
  rwa [Bool.not_eq_true'] at this

variable [IsStrictOrderedRing K] {p : Nat → K}

/-- Among probabilities the scan finds the greatest. -/
theorem scanBest_prob (hp : Probabilities h NE p) (hfree : ∃ i < NE, used i = false) :
    ∃ b < NE, scanBest h used NE = (some b, .fin (p b)) ∧
      ∀ i < NE, used i = false → p i ≤ p b := by
  have hloop : ∀ n ≤ NE,
      ((∀ i < n, used i = true) ∧ scanBest h used n = (none, .fin (-1))) ∨
      ∃ b < n, scanBest h used n = (some b, .fin (p b)) ∧
        ∀ i < n, used i = false → p i ≤ p b := by
    intro n
    induction n with
    | zero => exact fun _ => Or.inl ⟨fun i hi => absurd hi (Nat.not_lt_zero i), rfl⟩
    | succ n ih =>
        intro hn
        have hvalue := hp.value n (by omega)
        have hnonneg := hp.nonneg n (by omega)
        have hstep : scanBest h used (n + 1) =
            if !used n && (h n).gt (scanBest h used n).2 then (some n, h n)
            else scanBest h used n := by
          rw [scanBest, List.range_succ, List.foldl_append]
          rfl
        rw [hstep, hvalue]
        cases hun : used n with
        | true =>
            have hskip : (!true && (Val.fin (p n)).gt (scanBest h used n).2) = false := rfl
            rw [hskip, if_neg Bool.false_ne_true]
            rcases ih (by omega) with ⟨hall, hnone⟩ | ⟨b, hb, hbest, hmax⟩
            · left
              refine ⟨fun i hi => ?_, hnone⟩
              rcases Nat.lt_succ_iff_lt_or_eq.mp hi with hold | rfl
              · exact hall i hold
              · exact hun
            · right
              refine ⟨b, by omega, hbest, fun i hi hfree => ?_⟩
              rcases Nat.lt_succ_iff_lt_or_eq.mp hi with hold | rfl
              · exact hmax i hold hfree
              · rw [hun] at hfree
                exact absurd hfree.symm Bool.false_ne_true
        | false =>
            right
            rcases ih (by omega) with ⟨hall, hnone⟩ | ⟨b, hb, hbest, hmax⟩
            · have htake : (!false && (Val.fin (p n)).gt (scanBest h used n).2) = true := by
                rw [hnone]
                exact decide_eq_true (by linarith)
              rw [htake, if_pos rfl]
              refine ⟨n, Nat.lt_succ_self n, rfl, fun i hi hfree => ?_⟩
              rcases Nat.lt_succ_iff_lt_or_eq.mp hi with hold | rfl
              · rw [hall i hold] at hfree
                exact absurd hfree.symm Bool.false_ne_true
              · exact le_refl _
            · rcases lt_or_ge (p b) (p n) with hmore | hnot
              · have htake : (!false && (Val.fin (p n)).gt (scanBest h used n).2) = true := by
                  rw [hbest]
                  exact decide_eq_true hmore
                rw [htake, if_pos rfl]
                refine ⟨n, Nat.lt_succ_self n, rfl, fun i hi hfree => ?_⟩
                rcases Nat.lt_succ_iff_lt_or_eq.mp hi with hold | rfl
                · exact (hmax i hold hfree).trans hmore.le
                · exact le_refl _
              · have hskip : (!false && (Val.fin (p n)).gt (scanBest h used n).2) = false := by
                  rw [hbest]
                  exact decide_eq_false (not_lt.mpr hnot)
                rw [hskip, if_neg Bool.false_ne_true]
                refine ⟨b, by omega, hbest, fun i hi hfree => ?_⟩
                rcases Nat.lt_succ_iff_lt_or_eq.mp hi with hold | rfl
                · exact hmax i hold hfree
                · exact hnot
  rcases hloop NE (le_refl NE) with ⟨hall, -⟩ | hfound
  · obtain ⟨i, hi, hfree⟩ := hfree
    rw [hall i hi] at hfree
    exact absurd hfree.symm Bool.false_ne_true
  · exact hfound

/-- The picks so far: which experts they are, and that none is picked twice. -/
structure Picked (NE k : Nat) (s : Picks K) : Prop where
  count : s.out.length = k
  used : ∀ i, s.used i = true ↔ i ∈ s.out.map Prod.fst
  distinct : (s.out.map Prod.fst).Nodup
  inside : ∀ q ∈ s.out, q.1 < NE

omit [Field K] [LinearOrder K] [IsStrictOrderedRing K] in
/-- With fewer picks than experts there is one left. -/
theorem Picked.free {k : Nat} {s : Picks K} (hs : Picked NE k s) (hk : k < NE) :
    ∃ i < NE, s.used i = false := by
  by_contra hnone
  have hall : List.range NE ⊆ s.out.map Prod.fst := by
    intro i hi
    rw [← hs.used]
    by_contra hfree
    exact hnone ⟨i, List.mem_range.mp hi, Bool.eq_false_iff.mpr hfree⟩
  have hle := (List.subperm_of_subset List.nodup_range hall).length_le
  rw [List.length_range, List.length_map, hs.count] at hle
  omega

omit [Field K] [LinearOrder K] [IsStrictOrderedRing K] in
theorem Picked.add {k : Nat} {s : Picks K} (hs : Picked NE k s) (q : Nat × Val K) (hq : q.1 < NE)
    (hfree : s.used q.1 = false) :
    Picked NE (k + 1) ⟨Function.update s.used q.1 true, s.out ++ [q]⟩ where
  count := by rw [List.length_append, List.length_singleton, hs.count]
  used i := by
    rw [List.map_append, List.map_singleton, List.mem_append, List.mem_singleton, ← hs.used]
    simp only
    by_cases hi : i = q.1
    · rw [hi, Function.update_self]
      exact ⟨fun _ => Or.inr rfl, fun _ => rfl⟩
    · rw [Function.update_of_ne hi]
      exact ⟨Or.inl, fun hor => hor.resolve_right hi⟩
  distinct := by
    rw [List.map_append, List.map_singleton]
    refine List.Nodup.append hs.distinct (List.nodup_singleton _) ?_
    intro i hi hiq
    obtain rfl := List.mem_singleton.mp hiq
    rw [← hs.used, hfree] at hi
    exact absurd hi Bool.false_ne_true
  inside r hr := by
    rcases List.mem_append.mp hr with hold | hnew
    · exact hs.inside r hold
    · rw [List.mem_singleton.mp hnew]
      exact hq

/-- What one turn picks. -/
def picked (h : Nat → Val K) (NE : Nat) (s : Picks K) : Nat × Val K :=
  match (scanBest h s.used NE).1 with
  | some i => (i, (scanBest h s.used NE).2)
  | none => (firstUnused s.used NE, .fin 0)

omit [IsStrictOrderedRing K] in
theorem picked_free {s : Picks K} (hfree : ∃ i < NE, s.used i = false) :
    (picked h NE s).1 < NE ∧ s.used (picked h NE s).1 = false := by
  unfold picked
  split
  · rename_i i hi
    exact scanBest_some hi
  · exact firstUnused_spec hfree

/-- The picks are distinct experts. Of values that are no numbers each has weight zero; of
probabilities each has its own, and none that is left exceeds one picked. -/
theorem picks_spec {k : Nat} (hk : k ≤ NE) :
    Picked NE k (picks h NE k) ∧
      ((∀ i < NE, h i = .nan) → ∀ q ∈ (picks h NE k).out, q.2 = .fin 0) ∧
      ∀ p, Probabilities h NE p → (∀ q ∈ (picks h NE k).out, q.2 = .fin (p q.1)) ∧
        ∀ i < NE, (picks h NE k).used i = false → ∀ q ∈ (picks h NE k).out, p i ≤ p q.1 := by
  induction k with
  | zero =>
      refine ⟨⟨rfl, fun i => ⟨fun hf => absurd hf Bool.false_ne_true, fun hf => ?_⟩,
        List.nodup_nil, fun q hq => absurd hq List.not_mem_nil⟩,
        fun _ q hq => absurd hq List.not_mem_nil, fun p _ =>
        ⟨fun q hq => absurd hq List.not_mem_nil, fun i _ _ q hq => absurd hq List.not_mem_nil⟩⟩
      exact absurd hf List.not_mem_nil
  | succ k ih =>
      obtain ⟨hpicked, hnan, hprob⟩ := ih (by omega)
      have hstep : picks h NE (k + 1) =
          ⟨Function.update (picks h NE k).used (picked h NE (picks h NE k)).1 true,
            (picks h NE k).out ++ [picked h NE (picks h NE k)]⟩ := by
        rw [picks, List.range_succ, List.foldl_append]
        rfl
      rw [hstep]
      generalize picks h NE k = s at hpicked hnan hprob
      have hfree := hpicked.free (by omega)
      obtain ⟨hlt, hunused⟩ := picked_free (h := h) hfree
      refine ⟨hpicked.add _ hlt hunused, fun hall q hq => ?_, fun p hp => ?_⟩
      · rcases List.mem_append.mp hq with hold | hnew
        · exact hnan hall q hold
        · rw [List.mem_singleton.mp hnew, picked, scanBest_nan hall]
      · obtain ⟨hvalue, hmax⟩ := hprob p hp
        obtain ⟨b, hb, hbest, hgreatest⟩ := scanBest_prob hp hfree
        have hpick : picked h NE s = (b, .fin (p b)) := by
          rw [picked, hbest]
        rw [hpick]
        refine ⟨fun q hq => ?_, fun i hi hfree' q hq => ?_⟩
        · rcases List.mem_append.mp hq with hold | hnew
          · exact hvalue q hold
          · rw [List.mem_singleton.mp hnew]
        · have hib : i ≠ b := by
            rintro rfl
            simp only [Function.update_self] at hfree'
            exact absurd hfree' Bool.true_eq_false_eq_False
          simp only [Function.update_of_ne hib] at hfree'
          rcases List.mem_append.mp hq with hold | hnew
          · exact hmax i hi hfree' q hold
          · rw [List.mem_singleton.mp hnew]
            exact hgreatest i hi hfree'

end Picks

/-! The weights -/

section Weights

variable {K : Type} [Field K] [LinearOrder K] {NE NU : Nat}

omit [LinearOrder K] in
theorem weightSum_eq {out : List (Nat × Val K)} {w : Nat → K}
    (hout : ∀ q ∈ out, q.2 = .fin (w q.1)) :
    weightSum out = .fin (out.map fun q => w q.1).sum := by
  have hloop : ∀ (l : List (Nat × Val K)) (c : K), (∀ q ∈ l, q.2 = .fin (w q.1)) →
      l.foldl (fun (s : Val K) p => s.add p.2) (.fin c) =
        .fin (c + (l.map fun q => w q.1).sum) := by
    intro l
    induction l with
    | nil =>
        intro c _
        rw [List.map_nil, List.sum_nil, add_zero]
        rfl
    | cons q l ih =>
        intro c hl
        have hadd : (Val.fin c).add (.fin (w q.1)) = .fin (c + w q.1) := rfl
        rw [List.foldl_cons, hl q List.mem_cons_self, hadd,
          ih _ fun r hr => hl r (List.mem_cons_of_mem _ hr), List.map_cons, List.sum_cons, add_assoc]
  rw [weightSum, hloop out 0 hout, zero_add]

/-- The experts of a token and their weights. -/
structure Routed (NE NU : Nat) (r : List (Nat × Val K)) (w : Nat → K) : Prop where
  count : r.length = NU
  distinct : (r.map Prod.fst).Nodup
  inside : ∀ q ∈ r, q.1 < NE
  weight : ∀ q ∈ r, q.2 = .fin (w q.1)
  total : (r.map fun q => w q.1).sum = 1

variable [IsStrictOrderedRing K] {e : K → K} {lt : Nat → Val K}

omit [LinearOrder K] [IsStrictOrderedRing K] in
/-- A weight for each pick makes a routing, where the weights sum to one. -/
theorem Picked.routed {s : Picks K} (hs : Picked NE NU s) (f : Nat × Val K → Val K) {w : Nat → K}
    (hweight : ∀ q ∈ s.out, f q = .fin (w q.1)) (htotal : (s.out.map fun q => w q.1).sum = 1) :
    Routed NE NU (s.out.map fun q => (q.1, f q)) w where
  count := by rw [List.length_map, hs.count]
  distinct := by
    rw [List.map_map]
    exact hs.distinct
  inside q hq := by
    obtain ⟨r, hr, rfl⟩ := List.mem_map.mp hq
    exact hs.inside r hr
  weight q hq := by
    obtain ⟨r, hr, rfl⟩ := List.mem_map.mp hq
    exact hweight r hr
  total := by
    rw [List.map_map]
    exact htotal

/-- The picked probabilities do not sum to zero: were all of them zero, so would be what is
left. -/
theorem pickedSum_pos {h : Nat → Val K} {p : Nat → K} (hp : Probabilities h NE p) (hNU : 1 ≤ NU)
    (hNE : NU ≤ NE) : 0 < ((picks h NE NU).out.map fun q => p q.1).sum := by
  obtain ⟨hpicked, -, hprob⟩ := picks_spec (h := h) hNE
  obtain ⟨-, hmax⟩ := hprob p hp
  generalize picks h NE NU = s at hpicked hmax
  have hnonneg : ∀ x ∈ s.out.map fun q => p q.1, 0 ≤ x := by
    intro x hx
    obtain ⟨q, hq, rfl⟩ := List.mem_map.mp hx
    exact hp.nonneg q.1 (hpicked.inside q hq)
  refine lt_of_le_of_ne (List.sum_nonneg hnonneg) fun hzero => ?_
  have hall : ∀ q ∈ s.out, p q.1 = 0 := fun q hq =>
    (List.all_zero_of_le_zero_le_of_sum_eq_zero hnonneg hzero.symm)
      (List.mem_map.mpr ⟨q, hq, rfl⟩)
  have hnone : ∀ i ∈ Finset.range NE, p i = 0 := by
    intro i hi
    have hi' := Finset.mem_range.mp hi
    by_cases hused : s.used i = true
    · obtain ⟨q, hq, rfl⟩ := List.mem_map.mp ((hpicked.used i).mp hused)
      exact hall q hq
    · obtain ⟨q, hq⟩ : ∃ q, q ∈ s.out :=
        List.exists_mem_of_length_pos (by rw [hpicked.count]; omega)
      have hle := hmax i hi' (Bool.eq_false_iff.mpr hused) q hq
      rw [hall q hq] at hle
      exact le_antisymm hle (hp.nonneg i hi')
  have htotal := hp.total
  rw [Finset.sum_eq_zero hnone] at htotal
  exact zero_ne_one htotal

/-- Where the values are probabilities, the weights are scaled by their sum. -/
theorem renorm_prob {h : Nat → Val K} {p : Nat → K} (hp : Probabilities h NE p) (hNU : 1 ≤ NU)
    (hNE : NU ≤ NE) :
    renorm NU (picks h NE NU).out =
      (picks h NE NU).out.map fun q => (q.1, q.2.div (weightSum (picks h NE NU).out)) := by
  have hvalue := ((picks_spec (h := h) hNE).2.2 p hp).1
  have hgt : (weightSum (picks h NE NU).out).gt (.fin 0) = true := by
    rw [weightSum_eq hvalue]
    exact decide_eq_true (pickedSum_pos hp hNU hNE)
  rw [renorm, if_pos hgt]

/-- Where the values are probabilities the weights are theirs, scaled. -/
theorem route_prob {p : Nat → K} (hp : Probabilities (softmax e lt NE) NE p) (hNU : 1 ≤ NU)
    (hNE : NU ≤ NE) :
    ∃ c, 0 < c ∧ Routed NE NU (route e NE NU lt) (fun i => p i / c) ∧
      ∀ i < NE, i ∉ (route e NE NU lt).map Prod.fst → ∀ q ∈ route e NE NU lt, p i ≤ p q.1 := by
  obtain ⟨hpicked, -, hprob⟩ := picks_spec (h := softmax e lt NE) hNE
  obtain ⟨hvalue, hmax⟩ := hprob p hp
  have hpos := pickedSum_pos hp hNU hNE
  rw [route, renorm_prob hp hNU hNE]
  generalize picks (softmax e lt NE) NE NU = s at hpicked hvalue hmax hpos
  have hsum := weightSum_eq hvalue
  refine ⟨(s.out.map fun q => p q.1).sum, hpos, hpicked.routed _ ?_ ?_, ?_⟩
  · intro q hq
    rw [hsum, hvalue q hq]
    exact if_neg hpos.ne'
  · simp only [div_eq_mul_inv]
    rw [List.sum_map_mul_right, mul_inv_cancel₀ hpos.ne']
  · intro i hi hnot q hq
    rw [List.map_map] at hnot
    obtain ⟨r, hr, rfl⟩ := List.mem_map.mp hq
    refine hmax i hi (Bool.eq_false_iff.mpr fun hused => hnot ?_) r hr
    exact (hpicked.used i).mp hused

/-- Where no value is a number the weights are equal. -/
theorem route_nan (hnan : ∀ i < NE, softmax e lt NE i = .nan) (hNU : 1 ≤ NU) (hNE : NU ≤ NE) :
    Routed NE NU (route e NE NU lt) (fun _ => 1 / (NU : K)) := by
  obtain ⟨hpicked, hzero, -⟩ := picks_spec (h := softmax e lt NE) hNE
  have hvalue := hzero hnan
  have hroute : route e NE NU lt = renorm NU (picks (softmax e lt NE) NE NU).out := rfl
  rw [hroute]
  generalize picks (softmax e lt NE) NE NU = s at hpicked hvalue
  have hsum : weightSum s.out = .fin 0 := by
    rw [weightSum_eq (w := fun _ => 0) hvalue]
    rw [List.map_const', List.sum_replicate, nsmul_zero]
  have hgt : (weightSum s.out).gt (.fin 0) = false := by
    rw [hsum]
    exact Val.gt_self _
  rw [renorm, hgt, if_neg Bool.false_ne_true]
  refine hpicked.routed _ (fun q _ => rfl) ?_
  have hNU' : (NU : K) ≠ 0 := Nat.cast_ne_zero.mpr (by omega)
  rw [List.map_const', List.sum_replicate, hpicked.count, nsmul_eq_mul, mul_one_div_cancel hNU']

/-- Every token is routed, whatever its logits are. -/
theorem route_spec (hexp : ∀ x, 0 < e x) (lt : Nat → Val K) (hNU : 1 ≤ NU) (hNE : NU ≤ NE) :
    ∃ w, Routed NE NU (route e NE NU lt) w := by
  rcases softmax_cases hexp lt (by omega : 0 < NE) with hnan | ⟨p, hp⟩
  · exact ⟨_, route_nan hnan hNU hNE⟩
  · obtain ⟨c, -, hrouted, -⟩ := route_prob hp hNU hNE
    exact ⟨_, hrouted⟩

end Weights

end ShannonPrime.Diffusion
