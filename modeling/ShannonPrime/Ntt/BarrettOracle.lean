import ShannonPrime.Ntt.Hvx

/-!
The products of residues that the oracle answers (`sp_compute_crt_imp.c`): one after another
on the scalar pipe, or 32 at a time on vectors. No word of the scalar reduction wraps, and
every lane gives the scalar product.
-/

namespace ShannonPrime.Ntt

open Buffer (forCells store)

/-- `sp_barrett_reduce32_scalar` -/
def barrettReduce32Scalar (x q mu : Nat) : Nat := barrettReduce x q mu % 2 ^ 32

/-- `sp_modmul_scalar_q1` -/
def modmulScalarQ1 (a b : Nat) : Nat := barrettReduce32Scalar (a * b % 2 ^ 64) q1.q q1.mu

/-- `sp_modmul_scalar_q2` -/
def modmulScalarQ2 (a b : Nat) : Nat := barrettReduce32Scalar (a * b % 2 ^ 64) q2.q q2.mu

def Prime.modmulScalar : Prime → Nat → Nat → Nat
  | .first => modmulScalarQ1
  | .second => modmulScalarQ2

/-- `sp_barrett_reduce32_hvx_lane`, one lane; the splats hold the modulus, the modulus less
one and the factor. -/
def barrettReduce32HvxLane (a b q qMinus1 mu : Nat) : Nat :=
  let x := Hvx.widen a b
  let sh := (x.2 >>> 29) ||| (x.1 <<< 3 % 2 ^ 32)
  let p := Hvx.widen sh mu
  let qhat := (p.2 >>> 31) ||| (p.1 <<< 1 % 2 ^ 32)
  let r0 := Hvx.vsub x.2 (Hvx.widen qhat q).2
  let r1 := if r0 > qMinus1 then Hvx.vsub r0 q else r0
  if r1 > qMinus1 then Hvx.vsub r1 q else r1

/-- A buffer of the call: where it lies and its words. -/
structure Words where
  addr : Nat
  cells : Nat → Nat

/-- The pointers of a vector run lie on vectors. -/
def Words.aligned (w : Words) : Bool := w.addr % 128 == 0

/-- `sp_barrett_vec_run` -/
def barrettVecRun (M : Modulus) (a b r : Words) (n : Nat) : Option (Nat → Nat) :=
  if n % 32 ≠ 0 then none
  else if !a.aligned || !b.aligned || !r.aligned then none
  else
    some ((List.range (n / 32)).foldl
      (fun out i => store out (32 * i) 32 fun l =>
        barrettReduce32HvxLane (a.cells (32 * i + l)) (b.cells (32 * i + l)) M.q (M.q - 1) M.mu)
      r.cells)

/-- `mode` -/
inductive Mode
  | scalar
  | vector

/-- `sp_compute_barrett_oracle`, over buffers of `n` words. -/
def barrettOracle (p : Prime) (mode : Mode) (a b r : Words) (n : Nat) : Option (Nat → Nat) :=
  match mode with
  | .scalar => some (forCells n (fun i _ => p.modmulScalar (a.cells i) (b.cells i)) r.cells)
  | .vector => barrettVecRun p.modulus a b r n

/-- What the vector path asks of its buffers. -/
def Mode.admits (mode : Mode) (a b r : Words) (n : Nat) : Prop :=
  match mode with
  | .scalar => True
  | .vector => n % 32 = 0 ∧ a.aligned ∧ b.aligned ∧ r.aligned

/-- No word of the reduction of `x` wraps, and what the quotient leaves fits the result. -/
structure Unwrapped (M : Modulus) (x : Nat) : Prop where
  product : x < 2 ^ 64
  quotient : (x >>> 29) * M.mu < 2 ^ 64
  back : ((x >>> 29) * M.mu) >>> 31 * M.q ≤ x
  rest : x - ((x >>> 29) * M.mu) >>> 31 * M.q < 2 ^ 32

theorem Modulus.unwrapped (M : Modulus) {x : Nat} (hx : x < 2 ^ 60) : Unwrapped M x := by
  obtain ⟨hle, hrest, -⟩ := Barrett.rest_spec (B := 2 ^ 29) (by omega) M.lower.le hx
  have hestimate : ((x >>> 29) * M.mu) >>> 31 = Barrett.estimate (2 ^ 29) M.q x := by
    rw [Nat.shiftRight_eq_div_pow, Nat.shiftRight_eq_div_pow, M.mu_eq_factor]
    rfl
  have hupper := M.upper
  constructor
  case product => omega
  case quotient =>
    rw [Nat.shiftRight_eq_div_pow]
    exact M.quotient_lt hx
  case back =>
    rw [hestimate]
    exact hle
  case rest =>
    rw [hestimate]
    exact lt_of_lt_of_le hrest (by omega)

section

variable {a b : Nat}

/-- With the splats of a modulus the lane is that of the transforms. -/
theorem barrettReduce32HvxLane_eq (M : Modulus) (ha : a < M.q) (hb : b < M.q) :
    barrettReduce32HvxLane a b M.q (M.q - 1) M.mu = a * b % M.q := by
  rw [← Modulus.modmul_eq ha hb, ← Hvx.barrettLane_eq ha hb]
  rfl

theorem barrettReduce32Scalar_eq (M : Modulus) (ha : a < M.q) (hb : b < M.q) :
    barrettReduce32Scalar (a * b % 2 ^ 64) M.q M.mu = a * b % M.q := by
  have hword : a * b < 2 ^ 64 := (Modulus.mul_lt_of_lt ha hb).trans (by omega)
  rw [Nat.mod_eq_of_lt hword]
  exact Modulus.modmul_eq ha hb

theorem Prime.modmulScalar_eq (p : Prime) (ha : a < p.modulus.q) (hb : b < p.modulus.q) :
    p.modmulScalar a b = a * b % p.modulus.q := by
  cases p
  case first => exact barrettReduce32Scalar_eq q1 ha hb
  case second => exact barrettReduce32Scalar_eq q2 ha hb

end

theorem barrettVecRun_eq (M : Modulus) {a b r : Words} {n : Nat} (hn : n % 32 = 0)
    (ha : a.aligned) (hb : b.aligned) (hr : r.aligned) :
    barrettVecRun M a b r n = some (forCells n
      (fun i _ => barrettReduce32HvxLane (a.cells i) (b.cells i) M.q (M.q - 1) M.mu) r.cells) := by
  have hvectors : 32 * (n / 32) = n := by omega
  rw [barrettVecRun, if_neg (not_not.mpr hn), if_neg (by simp [ha, hb, hr]),
    Buffer.foldl_store fun i => barrettReduce32HvxLane (a.cells i) (b.cells i) M.q (M.q - 1) M.mu,
    hvectors]

/-- On residues of either prime no word of the scalar reduction wraps, and both modes give
the product in every word. -/
theorem barrettOracle_exact (p : Prime) (mode : Mode) (a b r : Words) (n : Nat)
    (ha : ∀ i, i < n → a.cells i < p.modulus.q) (hb : ∀ i, i < n → b.cells i < p.modulus.q)
    (hmode : mode.admits a b r n) :
    (∀ i, i < n → Unwrapped p.modulus (a.cells i * b.cells i)) ∧
    ∃ out, barrettOracle p mode a b r n = some out ∧
      (∀ i, i < n → out i = a.cells i * b.cells i % p.modulus.q) ∧
      ∀ i, n ≤ i → out i = r.cells i := by
  refine ⟨fun i hi => p.modulus.unwrapped (Modulus.mul_lt_of_lt (ha i hi) (hb i hi)), ?_⟩
  cases mode with
  | scalar =>
      refine ⟨_, rfl, fun i hi => ?_, fun i hi => if_neg (Nat.not_lt.mpr hi)⟩
      rw [forCells, if_pos hi]
      exact p.modmulScalar_eq (ha i hi) (hb i hi)
  | vector =>
      obtain ⟨hn, hla, hlb, hlr⟩ := hmode
      refine ⟨_, barrettVecRun_eq p.modulus hn hla hlb hlr, fun i hi => ?_,
        fun i hi => if_neg (Nat.not_lt.mpr hi)⟩
      rw [forCells, if_pos hi]
      exact barrettReduce32HvxLane_eq p.modulus (ha i hi) (hb i hi)

/-- The largest residues of the first prime, on one vector. -/
theorem barrettOracle_exact_largest :
    ∃ out, barrettOracle .first .vector ⟨0, fun _ => q1.q - 1⟩ ⟨128, fun _ => q1.q - 1⟩
      ⟨256, fun _ => 0⟩ 32 = some out ∧ ∀ i, i < 32 → out i = 1 := by
  have hlt : q1.q - 1 < q1.q := Nat.sub_lt q1.q_pos Nat.one_pos
  have hsquare : (q1.q - 1) * (q1.q - 1) % q1.q = 1 := by decide
  obtain ⟨-, out, hrun, hin, -⟩ := barrettOracle_exact .first .vector ⟨0, fun _ => q1.q - 1⟩
    ⟨128, fun _ => q1.q - 1⟩ ⟨256, fun _ => 0⟩ 32 (fun _ _ => hlt) (fun _ _ => hlt)
    ⟨rfl, rfl, rfl, rfl⟩
  exact ⟨out, hrun, fun i hi => (hin i hi).trans hsquare⟩

end ShannonPrime.Ntt
