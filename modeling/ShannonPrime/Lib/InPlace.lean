import Mathlib.Data.List.Range
import Mathlib.Logic.Function.Basic
import Mathlib.Tactic.Ring

/-!
Loops that work on an array in place, each round on cells of its own: the loop leaves in
the cells of a round what that round makes of the array the loop began with.
-/

namespace ShannonPrime.InPlace

variable {V : Type*}

/-- Round `i` changes its own cells only, and what it puts there depends on them only. -/
structure Local (step : (Nat → V) → Nat → Nat → V) (cells : Nat → Nat → Prop) : Prop where
  keeps : ∀ s i c, ¬ cells i c → step s i c = s c
  reads : ∀ s s' i, (∀ c, cells i c → s c = s' c) →
    ∀ c, cells i c → step s i c = step s' i c

/-- Different rounds have different cells. -/
def Apart (n : Nat) (cells : Nat → Nat → Prop) : Prop :=
  ∀ i j c, i < n → j < n → cells i c → cells j c → i = j

variable {step : (Nat → V) → Nat → Nat → V} {cells : Nat → Nat → Prop} {n : Nat} {s : Nat → V}

theorem Local.foldl_other (h : Local step cells) {c : Nat} (hc : ∀ i, i < n → ¬ cells i c) :
    (List.range n).foldl step s c = s c := by
  induction n with
  | zero => rfl
  | succ n ih =>
      rw [List.range_succ, List.foldl_append, List.foldl_cons, List.foldl_nil,
        h.keeps _ _ _ (hc n (Nat.lt_succ_self n))]
      exact ih fun i hi => hc i (hi.trans (Nat.lt_succ_self n))

theorem Local.foldl_own (h : Local step cells) (hapart : Apart n cells) {i c : Nat} (hi : i < n)
    (hc : cells i c) : (List.range n).foldl step s c = step s i c := by
  induction n with
  | zero => exact absurd hi (Nat.not_lt_zero i)
  | succ n ih =>
      have hrest : Apart n cells := fun i j c hi hj =>
        hapart i j c (hi.trans (Nat.lt_succ_self n)) (hj.trans (Nat.lt_succ_self n))
      rw [List.range_succ, List.foldl_append, List.foldl_cons, List.foldl_nil]
      rcases Nat.lt_succ_iff_lt_or_eq.mp hi with hlt | rfl
      · have hnot : ¬ cells n c := fun hn =>
          absurd (hapart i n c hi (Nat.lt_succ_self n) hc hn) (Nat.ne_of_lt hlt)
        rw [h.keeps _ _ _ hnot]
        exact ih hrest hlt
      · apply h.reads _ _ _ _ _ hc
        intro c' hc'
        apply h.foldl_other
        intro j hj hjc
        exact absurd (hapart j i c' (hj.trans hi) hi hjc hc') (Nat.ne_of_lt hj)

/-! Butterflies -/

/-- Blocks of `2 * half` cells: of every two cells `half` apart the first gets `f` of the
two, the second `g`. -/
def pairs (half : Nat) (f g : Nat → V → V → V) (s : Nat → V) (c : Nat) : V :=
  if c % (2 * half) < half then f (c % (2 * half)) (s c) (s (c + half))
  else g (c % (2 * half) - half) (s (c - half)) (s c)

/-- The pairs of vector `v` of the block at `i`, the vectors being of `W` lanes. -/
structure Lanes (W half : Nat) (f g : Nat → V → V → V) (i : Nat)
    (round : (Nat → V) → Nat → Nat → V) : Prop where
  low : ∀ s v l, l < W → round s v (i + W * v + l) =
    f (W * v + l) (s (i + W * v + l)) (s (i + half + W * v + l))
  high : ∀ s v l, l < W → round s v (i + half + W * v + l) =
    g (W * v + l) (s (i + W * v + l)) (s (i + half + W * v + l))
  other : ∀ s v c, (∀ l, l < W → c ≠ i + W * v + l ∧ c ≠ i + half + W * v + l) →
    round s v c = s c

/-- The cells of a vector. -/
def vectorCells (W half i v c : Nat) : Prop :=
  ∃ l, l < W ∧ (c = i + W * v + l ∨ c = i + half + W * v + l)

theorem Lanes.local {W half i : Nat} {f g : Nat → V → V → V}
    {round : (Nat → V) → Nat → Nat → V} (h : Lanes W half f g i round) :
    Local round (vectorCells W half i) where
  keeps s v c hc := h.other s v c fun l hl =>
    ⟨fun hlow => hc ⟨l, hl, Or.inl hlow⟩, fun hhigh => hc ⟨l, hl, Or.inr hhigh⟩⟩
  reads s s' v hagree := by
    rintro c ⟨l, hl, rfl | rfl⟩
    · rw [h.low s v l hl, h.low s' v l hl, hagree _ ⟨l, hl, Or.inl rfl⟩,
        hagree _ ⟨l, hl, Or.inr rfl⟩]
    · rw [h.high s v l hl, h.high s' v l hl, hagree _ ⟨l, hl, Or.inl rfl⟩,
        hagree _ ⟨l, hl, Or.inr rfl⟩]

/-- A lane of a vector is a number below the number of lanes. -/
theorem lane_lt {W m v l : Nat} (hv : v < m) (hl : l < W) : W * v + l < W * m := by
  calc W * v + l < W * v + W := Nat.add_lt_add_left hl _
    _ = W * (v + 1) := (Nat.mul_succ W v).symm
    _ ≤ W * m := Nat.mul_le_mul_left W hv

/-- The vectors of a block one after another: the pairs of the block, and nothing else. -/
theorem Lanes.block {W m i : Nat} {f g : Nat → V → V → V}
    {round : (Nat → V) → Nat → Nat → V} (h : Lanes W (W * m) f g i round) (s : Nat → V) :
    (∀ k, k < W * m → (List.range m).foldl round s (i + k) = f k (s (i + k)) (s (i + W * m + k))) ∧
    (∀ k, k < W * m →
      (List.range m).foldl round s (i + W * m + k) = g k (s (i + k)) (s (i + W * m + k))) ∧
    ∀ c, c < i ∨ i + 2 * (W * m) ≤ c → (List.range m).foldl round s c = s c := by
  have hapart : Apart m (vectorCells W (W * m) i) := by
    rintro v v' c hv hv' ⟨l, hl, hc⟩ ⟨l', hl', hc'⟩
    have hlane := lane_lt hv hl
    have hlane' := lane_lt hv' hl'
    have hsame : W * v + l = W * v' + l' := by omega
    have hdiv := congrArg (· / W) hsame
    simpa [Nat.mul_add_div (show 0 < W by omega), Nat.div_eq_of_lt hl, Nat.div_eq_of_lt hl']
      using hdiv
  have hsplit : ∀ k, k < W * m → k / W < m ∧ k % W < W ∧ W * (k / W) + k % W = k := by
    intro k hk
    have hW : 0 < W := Nat.pos_of_ne_zero fun h0 => by simp [h0] at hk
    exact ⟨(Nat.div_lt_iff_lt_mul hW).mpr (by rwa [Nat.mul_comm]), Nat.mod_lt _ hW,
      Nat.div_add_mod k W⟩
  refine ⟨fun k hk => ?_, fun k hk => ?_, fun c hc => ?_⟩
  · obtain ⟨hv, hl, hk'⟩ := hsplit k hk
    have hown := h.local.foldl_own (s := s) hapart hv (c := i + W * (k / W) + k % W)
      ⟨k % W, hl, Or.inl rfl⟩
    rw [h.low s _ _ hl, Nat.add_assoc, Nat.add_assoc, hk'] at hown
    exact hown
  · obtain ⟨hv, hl, hk'⟩ := hsplit k hk
    have hown := h.local.foldl_own (s := s) hapart hv (c := i + W * m + W * (k / W) + k % W)
      ⟨k % W, hl, Or.inr rfl⟩
    rw [h.high s _ _ hl, Nat.add_assoc (i + W * m), Nat.add_assoc i (W * (k / W)), hk'] at hown
    exact hown
  · apply h.local.foldl_other
    rintro v hv ⟨l, hl, hcell⟩
    have hlane := lane_lt hv hl
    omega

/-- All blocks: the pairs of the whole array. -/
theorem Lanes.loop {W m half G : Nat} (hhalf : half = W * m) {f g : Nat → V → V → V}
    {round : Nat → (Nat → V) → Nat → Nat → V}
    (h : ∀ i, Lanes W half f g i (round i)) (s : Nat → V) (c : Nat) :
    (List.range G).foldl
        (fun s b => (List.range m).foldl (round (b * (2 * half))) s) s c =
      if c < G * (2 * half) then pairs half f g s c else s c := by
  subst hhalf
  induction G generalizing c with
  | zero => simp
  | succ G ih =>
      obtain ⟨hlow, hhigh, hother⟩ := (h (G * (2 * (W * m)))).block
        ((List.range G).foldl (fun s b => (List.range m).foldl (round (b * (2 * (W * m)))) s) s)
      rw [List.range_succ, List.foldl_append, List.foldl_cons, List.foldl_nil]
      have hnext : (G + 1) * (2 * (W * m)) = G * (2 * (W * m)) + 2 * (W * m) := Nat.succ_mul ..
      rcases Nat.lt_or_ge c (G * (2 * (W * m))) with hbefore | hfrom
      · rw [hother c (Or.inl hbefore), ih, if_pos hbefore, if_pos (by omega)]
      · rcases Nat.lt_or_ge c ((G + 1) * (2 * (W * m))) with hin | hafter
        · obtain ⟨r, rfl⟩ := Nat.exists_eq_add_of_le hfrom
          have hr : r < 2 * (W * m) := by omega
          have hmod : (G * (2 * (W * m)) + r) % (2 * (W * m)) = r := by
            rw [Nat.add_comm, Nat.add_mul_mod_self_right, Nat.mod_eq_of_lt hr]
          rw [if_pos hin, pairs, hmod]
          split
          · rename_i hfirst
            rw [hlow r hfirst, ih, if_neg (by omega), ih, if_neg (by omega),
              Nat.add_right_comm]
          · rename_i hsecond
            obtain ⟨k, rfl⟩ := Nat.exists_eq_add_of_le (Nat.not_lt.mp hsecond)
            have hback : G * (2 * (W * m)) + (W * m + k) - W * m = G * (2 * (W * m)) + k := by
              omega
            rw [hback, Nat.add_sub_cancel_left, ← Nat.add_assoc, hhigh k (by omega), ih,
              if_neg (by omega), ih, if_neg (by omega)]
        · rw [hother c (Or.inr (by omega)), ih, if_neg (by omega), if_neg (by omega)]

end ShannonPrime.InPlace
