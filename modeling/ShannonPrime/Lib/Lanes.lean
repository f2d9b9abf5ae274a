import ShannonPrime.Lib.CInt
import ShannonPrime.Lib.Reduction

/-!
Vectors of 32 signed lanes that make a dot product of bytes: every step adds four products
to each lane, rotations then add the lanes up, and a scalar loop takes the elements that
fill no vector. An addition that leaves the range of an `int32_t` has no value here, so a
result shows that nothing overflowed.
-/

namespace ShannonPrime.Lanes

open CInt

/-- The lanes of a vector. -/
abbrev Vec := Nat → Option Int

def zero : Vec := fun _ => some 0

/-- Lane by lane. -/
def add (u v : Vec) : Vec := fun l => do checked ((← u l) + (← v l))

/-- Rotation to the right by `n` bytes. -/
def ror (v : Vec) (n : Nat) : Vec := fun l => v ((l + n / 4) % 32)

/-- Four products of the bytes from `k` on are added to every lane. -/
def mulAcc (acc : Vec) (a w : Nat → Int) (k : Nat) : Vec := fun l => do
  checked ((← acc l) + ∑ i ∈ Finset.range 4, a (k + (4 * l + i)) * w (k + (4 * l + i)))

/-- Five rotations leave the total in lane 0. -/
def hsum (v : Vec) : Option Int :=
  let v := add v (ror v 64)
  let v := add v (ror v 32)
  let v := add v (ror v 16)
  let v := add v (ror v 8)
  let v := add v (ror v 4)
  v 0

/-- The dot of `n` elements: whole vectors of 128, then the rest. -/
def dot (a w : Nat → Int) (n : Nat) : Option Int := do
  let nb := n / 128 * 128
  let acc := (List.range (n / 128)).foldl (fun acc b => mulAcc acc a w (128 * b)) zero
  sumFrom (← hsum acc) (n - nb) fun k => a (nb + k) * w (nb + k)

/-- The lanes have these values, none of them beyond the bound. -/
def Holds (v : Vec) (f : Nat → Int) (B : Int) : Prop :=
  ∀ l, l < 32 → v l = some (f l) ∧ -B ≤ f l ∧ f l ≤ B

variable {v : Vec} {f : Nat → Int} {B : Int}

theorem Holds.add_ror (h : Holds v f B) (n : Nat) (hB : 2 * B < 2 ^ 31) :
    Holds (add v (ror v n)) (fun l => f l + f ((l + n / 4) % 32)) (2 * B) := by
  intro l hl
  obtain ⟨hv, hlo, hhi⟩ := h l hl
  obtain ⟨hv', hlo', hhi'⟩ := h ((l + n / 4) % 32) (Nat.mod_lt _ (by norm_num))
  constructor
  · unfold add ror
    rw [hv, hv']
    apply checked_of_fits
    constructor <;> omega
  · beta_reduce
    constructor <;> omega

/-- The horizontal sum. -/
theorem Holds.hsum (h : Holds v f B) (hB : 32 * B < 2 ^ 31) (hpos : 0 ≤ B) :
    hsum v = some (∑ l ∈ Finset.range 32, f l) := by
  have htree : Reduction.tree (fun o v t => v t + v ((t + o) % 32)) 5 f 0 =
      ∑ l ∈ Finset.range (2 ^ 5), f l := by
    apply Reduction.tree_zero
    intro i hi v t ht
    have hpow : 2 ^ i ≤ 2 ^ 4 := Nat.pow_le_pow_right (by norm_num) (by omega)
    have hmod : (t + 2 ^ i) % 32 = t + 2 ^ i := Nat.mod_eq_of_lt (by omega)
    rw [hmod]
  have h1 := h.add_ror 64 (by omega)
  have h2 := h1.add_ror 32 (by omega)
  have h3 := h2.add_ror 16 (by omega)
  have h4 := h3.add_ror 8 (by omega)
  have h5 := h4.add_ror 4 (by omega)
  have hlane := (h5 0 (by norm_num)).1
  exact hlane.trans (congrArg some htree)

variable {a w : Nat → Int} {C : Int}

theorem mulAcc_eq {k l : Nat} {x : Int} (hv : v l = some x)
    (hfits : Fits (x + ∑ i ∈ Finset.range 4, a (k + (4 * l + i)) * w (k + (4 * l + i)))) :
    mulAcc v a w k l =
      some (x + ∑ i ∈ Finset.range 4, a (k + (4 * l + i)) * w (k + (4 * l + i))) := by
  unfold mulAcc
  rw [hv]
  exact checked_of_fits hfits

/-- The lanes after some blocks of 128 elements. -/
theorem fold_holds {n : Nat} (h : ∀ k, k < 128 * n → -C ≤ a k * w k ∧ a k * w k ≤ C)
    (hC : 0 ≤ C) (hbound : n * (4 * C) < 2 ^ 31) :
    Holds ((List.range n).foldl (fun acc b => mulAcc acc a w (128 * b)) zero)
      (fun l => ∑ b ∈ Finset.range n, ∑ i ∈ Finset.range 4,
        a (128 * b + (4 * l + i)) * w (128 * b + (4 * l + i)))
      (n * (4 * C)) := by
  induction n with
  | zero =>
      intro l _
      simp [zero]
  | succ n ih =>
      intro l hl
      have hsplit : ((n + 1 : Nat) : Int) * (4 * C) = n * (4 * C) + 4 * C := by
        push_cast
        ring
      obtain ⟨hv, hlo, hhi⟩ := ih (fun k hk => h k (by omega)) (by omega) l hl
      have hfour := sum_bounds (n := 4) (f := fun i =>
        a (128 * n + (4 * l + i)) * w (128 * n + (4 * l + i))) fun i hi => h _ (by omega)
      beta_reduce at hv hlo hhi ⊢
      rw [List.range_succ, List.foldl_append, List.foldl_cons, List.foldl_nil,
        Finset.sum_range_succ _ n]
      constructor
      · apply mulAcc_eq hv
        constructor <;> omega
      · constructor <;> omega

/-- The dot of the elements, without overflow. -/
theorem dot_eq {n : Nat} (h : ∀ k, k < n → -C ≤ a k * w k ∧ a k * w k ≤ C) (hC : 0 ≤ C)
    (hbound : n * C < 2 ^ 31) : dot a w n = some (∑ k ∈ Finset.range n, a k * w k) := by
  have hparts : n = 128 * (n / 128) + (n - n / 128 * 128) := by omega
  have hsplit : (n : Int) * C = 32 * ((n / 128 : Nat) * (4 * C)) + (n - n / 128 * 128 : Nat) * C := by
    conv_lhs => rw [hparts]
    push_cast
    ring
  have hrest : 0 ≤ ((n - n / 128 * 128 : Nat) : Int) * C := by positivity
  have hlanes := fold_holds (n := n / 128) (fun k hk => h k (by omega)) hC
    (by omega)
  have hhsum := hlanes.hsum (by omega) (by positivity)
  have hblocks : ∑ l ∈ Finset.range 32, ∑ b ∈ Finset.range (n / 128), ∑ i ∈ Finset.range 4,
        a (128 * b + (4 * l + i)) * w (128 * b + (4 * l + i)) =
      ∑ k ∈ Finset.range (128 * (n / 128)), a k * w k := by
    rw [Finset.sum_comm, ← Reduction.sum_blocks 128 (n / 128) fun k => a k * w k]
    apply Finset.sum_congr rfl
    intro b _
    exact Reduction.sum_blocks 4 32 fun r => a (128 * b + r) * w (128 * b + r)
  have hvec := sum_bounds (n := 128 * (n / 128)) (f := fun k => a k * w k)
    fun k hk => h k (by omega)
  have hvec' : ((128 * (n / 128) : Nat) : Int) * C = 32 * ((n / 128 : Nat) * (4 * C)) := by
    push_cast
    ring
  have hneg : ((128 * (n / 128) : Nat) : Int) * -C = -(((128 * (n / 128) : Nat) : Int) * C) := by
    ring
  unfold dot
  dsimp only
  rw [hhsum, hblocks]
  simp only [Option.bind_eq_bind, Option.bind_some]
  rw [sumFrom_eq (B := ((128 * (n / 128) : Nat) : Int) * C) (C := C) (by omega)
    (fun k hk => h _ (by omega)) (by omega)]
  conv_rhs => rw [hparts, Finset.sum_range_add]
  rw [Nat.mul_comm (n / 128) 128]

end ShannonPrime.Lanes
