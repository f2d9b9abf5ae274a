import Mathlib.Logic.Function.Basic
import Mathlib.Data.Set.Basic

/-!
A generic undo log. A memory is written at one address per position; before
each write the old value is saved in a log. Restoring the log from the highest
position down recovers every earlier snapshot, also when an address was
written many times in between. Nothing here says when a log entry may be
reused: `Coherent` is the hypothesis that the entries are still the right ones.
-/

namespace ShannonPrime.UndoLog

variable {A V : Type*}

/-- Undo the `n` positions below `hi`, the highest first. -/
def restoreDown [DecidableEq A] (addr : Nat → A) (log : Nat → V) : Nat → Nat → (A → V) → A → V
  | _, 0, mem => mem
  | hi, n + 1, mem =>
      restoreDown addr log (hi - 1) n
        (Function.update mem (addr (hi - 1)) (log (hi - 1)))

/-- The log is coherent on `[lo, hi)` with the snapshots `snap`: each entry is
the value its own position overwrote, and a position changes no other address. -/
structure Coherent (addr : Nat → A) (log : Nat → V) (snap : Nat → A → V)
    (lo hi : Nat) : Prop where
  saved : ∀ p, lo ≤ p → p < hi → log p = snap p (addr p)
  frame : ∀ p, lo ≤ p → p < hi → ∀ a, a ≠ addr p → snap (p + 1) a = snap p a

variable {addr : Nat → A} {log log' : Nat → V} {snap snap' : Nat → A → V}
  {lo hi : Nat}

theorem Coherent.empty (h : hi ≤ lo) : Coherent addr log snap lo hi :=
  ⟨by intro p hlo hhi; omega, by intro p hlo hhi; omega⟩

theorem Coherent.mono {lo' hi' : Nat} (h : Coherent addr log snap lo hi)
    (hlo : lo ≤ lo') (hhi : hi' ≤ hi) : Coherent addr log snap lo' hi' :=
  ⟨fun p h1 h2 => h.saved p (by omega) (by omega),
    fun p h1 h2 => h.frame p (by omega) (by omega)⟩

/-- Coherence only looks at the entries of `[lo, hi)` and the snapshots of
`[lo, hi]`. -/
theorem Coherent.congr (h : Coherent addr log snap lo hi)
    (hlog : ∀ p, lo ≤ p → p < hi → log' p = log p)
    (hsnap : ∀ p, lo ≤ p → p ≤ hi → snap' p = snap p) :
    Coherent addr log' snap' lo hi := by
  constructor
  · intro p h1 h2
    rw [hlog p h1 h2, hsnap p h1 (by omega)]
    exact h.saved p h1 h2
  · intro p h1 h2 a ha
    rw [hsnap p h1 (by omega), hsnap (p + 1) (by omega) (by omega)]
    exact h.frame p h1 h2 a ha

/-- One more position: its entry holds what it overwrote. -/
theorem Coherent.snoc (h : Coherent addr log snap lo hi)
    (hsaved : log hi = snap hi (addr hi))
    (hframe : ∀ a, a ≠ addr hi → snap (hi + 1) a = snap hi a) :
    Coherent addr log snap lo (hi + 1) := by
  constructor
  · intro p h1 h2
    rcases Nat.lt_succ_iff_lt_or_eq.mp h2 with hlt | heq
    · exact h.saved p h1 hlt
    · rw [heq]; exact hsaved
  · intro p h1 h2 a ha
    rcases Nat.lt_succ_iff_lt_or_eq.mp h2 with hlt | heq
    · exact h.frame p h1 hlt a ha
    · rw [heq] at ha ⊢; exact hframe a ha

/-- Restoring `n` positions below `hi` recovers the snapshot at `hi - n`. The
memory may differ from the snapshot at `hi` on the addresses being restored. -/
theorem restoreDown_eq_snap [DecidableEq A] (n : Nat) (hn : lo + n ≤ hi)
    (h : Coherent addr log snap lo hi) (mem : A → V)
    (hmem : ∀ a, (∀ p, hi - n ≤ p → p < hi → a ≠ addr p) → mem a = snap hi a) :
    restoreDown addr log hi n mem = snap (hi - n) := by
  induction n generalizing hi mem with
  | zero =>
      funext a
      exact hmem a (by intro p h1 h2; omega)
  | succ n ih =>
      obtain ⟨top, rfl⟩ : ∃ top, hi = top + 1 := ⟨hi - 1, by omega⟩
      simp only [restoreDown, Nat.add_sub_cancel]
      have hsub : top + 1 - (n + 1) = top - n := by omega
      rw [hsub]
      refine ih (by omega) (h.mono (Nat.le_refl _) (by omega)) _ ?_
      intro a ha
      by_cases hat : a = addr top
      · subst hat
        rw [Function.update_self]
        exact h.saved top (by omega) (by omega)
      · rw [Function.update_of_ne hat, ← h.frame top (by omega) (by omega) a hat]
        refine hmem a ?_
        intro p h1 h2
        rcases Nat.lt_succ_iff_lt_or_eq.mp h2 with hlt | heq
        · exact ha p (by omega) hlt
        · rw [heq]; exact hat

/-- What an address holds after restoring depends on the entries restored and, when
none of them is for it, on what it held before. -/
theorem restoreDown_congr [DecidableEq A] {mem mem' : A → V} (n : Nat) (a : A)
    (hlog : ∀ i < n, log (hi - 1 - i) = log' (hi - 1 - i))
    (hmem : (∃ i < n, a = addr (hi - 1 - i)) ∨ mem a = mem' a) :
    restoreDown addr log hi n mem a = restoreDown addr log' hi n mem' a := by
  induction n generalizing hi mem mem' with
  | zero =>
      rcases hmem with ⟨i, hi, _⟩ | heq
      · exact absurd hi (Nat.not_lt_zero i)
      · exact heq
  | succ n ih =>
      have hnext : ∀ i, hi - 1 - 1 - i = hi - 1 - (i + 1) := by omega
      have htop : log (hi - 1) = log' (hi - 1) := hlog 0 (Nat.succ_pos n)
      simp only [restoreDown]
      apply ih
      · intro i hin
        rw [hnext]
        exact hlog (i + 1) (Nat.succ_lt_succ hin)
      · by_cases ha : a = addr (hi - 1)
        · right
          rw [ha, Function.update_self, Function.update_self, htop]
        · rw [Function.update_of_ne ha, Function.update_of_ne ha]
          rcases hmem with ⟨i, hin, hai⟩ | heq
          · cases i with
            | zero => exact absurd hai ha
            | succ i =>
                left
                exact ⟨i, Nat.lt_of_succ_lt_succ hin, by rw [hnext]; exact hai⟩
          · exact Or.inr heq

/-- An address none of the restored positions writes keeps its value. -/
theorem restoreDown_frame [DecidableEq A] {mem : A → V} (n : Nat) (hn : n ≤ hi) (a : A)
    (ha : ∀ p, hi - n ≤ p → p < hi → a ≠ addr p) :
    restoreDown addr log hi n mem a = mem a := by
  induction n generalizing hi mem with
  | zero => rfl
  | succ n ih =>
      obtain ⟨top, rfl⟩ : ∃ top, hi = top + 1 := ⟨hi - 1, by omega⟩
      simp only [restoreDown, Nat.add_sub_cancel]
      rw [ih (by omega) fun p h1 h2 => ha p (by omega) (by omega),
        Function.update_of_ne (ha top (by omega) (by omega))]

/-- An address gets the entry of the lowest restored position that wrote it. -/
theorem restoreDown_lowest [DecidableEq A] {mem : A → V} (n : Nat) (hn : n ≤ hi) (p : Nat)
    (hlo : hi - n ≤ p) (hhi : p < hi) (hfirst : ∀ q, hi - n ≤ q → q < p → addr p ≠ addr q) :
    restoreDown addr log hi n mem (addr p) = log p := by
  induction n generalizing hi mem with
  | zero => omega
  | succ n ih =>
      obtain ⟨top, rfl⟩ : ∃ top, hi = top + 1 := ⟨hi - 1, by omega⟩
      simp only [restoreDown, Nat.add_sub_cancel]
      rcases Nat.lt_succ_iff_lt_or_eq.mp hhi with hlt | rfl
      · exact ih (by omega) (by omega) hlt fun q h1 h2 => hfirst q (by omega) h2
      · rw [restoreDown_frame n (by omega) _ fun q h1 h2 => hfirst q (by omega) h2,
          Function.update_self]

/-! Writing forward -/

/-- Write the positions `[lo, lo + n)` in order, each at its address. -/
def writeUp [DecidableEq A] (addr : Nat → A) (row : Nat → V) (lo n : Nat) (mem : A → V) : A → V :=
  (List.range' lo n).foldl (fun m p => Function.update m (addr p) (row p)) mem

section Forward

variable [DecidableEq A] {row : Nat → V} {mem : A → V} {n : Nat}

theorem writeUp_succ :
    writeUp addr row lo (n + 1) mem =
      Function.update (writeUp addr row lo n mem) (addr (lo + n)) (row (lo + n)) := by
  simp [writeUp, List.range'_1_concat]

/-- An address none of the positions has keeps its value. -/
theorem writeUp_frame {a : A} (ha : ∀ p, lo ≤ p → p < lo + n → addr p ≠ a) :
    writeUp addr row lo n mem a = mem a := by
  induction n with
  | zero => rfl
  | succ n ih =>
      rw [writeUp_succ, Function.update_of_ne (ha (lo + n) (by omega) (by omega)).symm]
      exact ih fun p h1 h2 => ha p h1 (by omega)

/-- An address holds the row of the highest position that has it. -/
theorem writeUp_highest {p : Nat} (hlo : lo ≤ p) (hhi : p < lo + n)
    (hlast : ∀ q, p < q → q < lo + n → addr q ≠ addr p) :
    writeUp addr row lo n mem (addr p) = row p := by
  induction n with
  | zero => omega
  | succ n ih =>
      rw [writeUp_succ]
      rcases Nat.lt_or_ge p (lo + n) with hlt | hge
      · rw [Function.update_of_ne (hlast (lo + n) hlt (by omega)).symm]
        exact ih hlt fun q h1 h2 => hlast q h1 (by omega)
      · obtain rfl : p = lo + n := by omega
        rw [Function.update_self]

/-- Either no position has an address, or a highest one does. -/
theorem highest_or_none (addr : Nat → A) (lo n : Nat) (a : A) :
    (∀ p, lo ≤ p → p < lo + n → addr p ≠ a) ∨
      ∃ p, lo ≤ p ∧ p < lo + n ∧ addr p = a ∧ ∀ q, p < q → q < lo + n → addr q ≠ a := by
  induction n with
  | zero => exact Or.inl fun p h1 h2 => by omega
  | succ n ih =>
      by_cases htop : addr (lo + n) = a
      · exact Or.inr ⟨lo + n, by omega, by omega, htop, fun q h1 h2 => by omega⟩
      · rcases ih with hnone | ⟨p, hlo, hhi, hat, hlast⟩
        · refine Or.inl fun p h1 h2 => ?_
          rcases Nat.lt_or_ge p (lo + n) with hlt | hge
          · exact hnone p h1 hlt
          · obtain rfl : p = lo + n := by omega
            exact htop
        · refine Or.inr ⟨p, hlo, by omega, hat, fun q h1 h2 => ?_⟩
          rcases Nat.lt_or_ge q (lo + n) with hlt | hge
          · exact hlast q h1 hlt
          · obtain rfl : q = lo + n := by omega
            exact htop

/-- The first positions need not be written when the rest writes their addresses again. -/
theorem writeUp_skip {k : Nat} (hk : k ≤ n)
    (hagain : ∀ p, p < lo + k → lo ≤ p → ∃ q, p < q ∧ q < lo + n ∧ addr q = addr p) :
    writeUp addr row (lo + k) (n - k) mem = writeUp addr row lo n mem := by
  funext a
  rcases highest_or_none addr lo n a with hnone | ⟨p, hlo, hhi, rfl, hlast⟩
  · rw [writeUp_frame hnone, writeUp_frame fun p h1 h2 => hnone p (by omega) (by omega)]
  · have hkept : lo + k ≤ p := by
      by_contra hearly
      obtain ⟨q, hq, hqn, hsame⟩ := hagain p (by omega) hlo
      exact hlast q hq hqn hsame
    rw [writeUp_highest hlo hhi hlast,
      writeUp_highest hkept (by omega) fun q h1 h2 => hlast q h1 (by omega)]

end Forward

end ShannonPrime.UndoLog
