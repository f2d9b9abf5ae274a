import Mathlib.RingTheory.RootsOfUnity.PrimitiveRoots
import ShannonPrime.Ntt.Paths

/-!
Products of polynomials by the transforms: the inverse transform over the context's tables
(`sp_compute_ntt_intt_imp.c`), the pointwise product on the host
(`sp_ntt_4_polymul_smoke.rs`), and both together with any of the forward paths. The result
is the product modulo `x ^ N + 1`.
-/

namespace ShannonPrime.Ntt

open Buffer (forCells vec)
open Finset (sum_congr mem_range)

/-- One stage of `ntt_inverse_one_hvx_vtcm`, over the array and the offset into the tables of
the stages. -/
def inverseStage (M : Modulus) (N : Nat) (wInv wInvStages : Nat → Nat) (st : (Nat → Nat) × Nat)
    (s : Nat) : (Nat → Nat) × Nat :=
  let half := 2 ^ s
  let step := N / (2 * half)
  let out :=
    if half ≥ 32 then Hvx.stage M N half (fun k => wInvStages (st.2 + k)) st.1
    else M.stageScalar N half (fun k => wInv (k * step)) st.1
  (out, st.2 + half)

/-- `ntt_inverse_one_hvx_vtcm` -/
def inverseOne (M : Modulus) (N logN ninv : Nat) (ipsiPow wInv wInvStages : Nat → Nat)
    (inp out : Nat → Nat) : Nat → Nat :=
  let out := forCells N (fun j _ => inp j % M.q) out
  let st := (List.range logN).foldl (inverseStage M N wInv wInvStages)
    (bitReverse N logN out, 0)
  forCells N (fun j x => M.modmul (M.modmul x ninv) (ipsiPow j)) st.1

/-- `sp_compute_intt_hvx_oracle` -/
def inttOracle (ctx : Option Context) (size : Size) (words : List Nat) (locals : Locals) :
    Option (List Nat) := do
  let v ← ctx
  let N := size.len
  some (vec N (inverseOne v.modulus N (ilog2 N) v.ninv v.ipsiPow v.wInv v.wInvStages
    (fun j => words.getD j 0) locals.out))

/-- `barrett_reduce` of the host, its product of 128 bits. -/
def barrettReduceHost (x q mu : Nat) : Nat :=
  let qhat := (((x >>> 29) * mu) >>> 31) % 2 ^ 64
  let r := (x + (2 ^ 64 - qhat * q % 2 ^ 64)) % 2 ^ 64
  let s := if r ≥ q then r - q else r
  if s ≥ q then s - q else s

/-- `pointwise_mul_q` -/
def pointwiseMulQ (M : Modulus) (a b : List Nat) : List Nat :=
  List.zipWith (fun x y => barrettReduceHost (x * y) M.q M.mu % 2 ^ 32) a b

/-- The forward paths. -/
inductive Path
  | scalar
  | hvx
  | vtcm

/-- The forward transform by a path, given the context. -/
def Path.forward (path : Path) (ctx : Option Context) (p : Prime) (size : Size)
    (inp : Nat → Int) (locals : Locals) : Option (List Nat) :=
  match path with
  | .scalar => oracle p size inp locals
  | .hvx => hvxOracle p size inp locals
  | .vtcm => Vtcm.oracle ctx p size inp locals

/-- The three calls for one prime. -/
def polymul (path : Path) (ctx : Option Context) (p : Prime) (size : Size) (a b : Nat → Int)
    (la lb lc : Locals) : Option (List Nat) := do
  let fa ← path.forward ctx p size a la
  let fb ← path.forward ctx p size b lb
  inttOracle ctx size (pointwiseMulQ p.modulus fa fb) lc

/-- Forward and back, without a product. -/
def roundTrip (path : Path) (ctx : Option Context) (p : Prime) (size : Size) (a : Nat → Int)
    (la lc : Locals) : Option (List Nat) := do
  let fa ← path.forward ctx p size a la
  inttOracle ctx size fa lc

/-! The inverse is the transform with the inverse root -/

/-- The twiddles of the inverse stages. -/
def invTwiddle (p : Prime) (size : Size) (s k : Nat) : Nat :=
  iomegaOf p size ^ (k * (size.len / (2 * 2 ^ s))) % p.modulus.q

variable {p : Prime} {size : Size}

theorem Context.Built.invTwiddle {c : Context} (h : c.Built p size) (s k : Nat)
    (hs : s < size.log) (hk : k < 2 ^ s) :
    c.wInvStages (2 ^ s - 1 + k) = Ntt.invTwiddle p size s k ∧
      c.wInv (k * (size.len / (2 * 2 ^ s))) = Ntt.invTwiddle p size s k := by
  have htable : c.wInv (k * (size.len / (2 * 2 ^ s))) = _ := h.wInv _ (Arena.stride_lt hs hk)
  exact ⟨(h.invStages s k hs hk).trans htable, htable⟩

/-- A stage of the inverse, at its place in the tables of the stages. -/
theorem inverseStage_eq {c : Context} (h : c.Built p size) {s : Nat} (hs : s < size.log)
    {st : (Nat → Nat) × Nat} (hoff : st.2 = 2 ^ s - 1)
    (hout : p.modulus.Residues (2 ^ size.log) st.1) :
    (inverseStage p.modulus size.len c.wInv c.wInvStages st s).1 =
        p.modulus.stageCells (2 ^ size.log) (2 ^ s) (invTwiddle p size s) st.1 ∧
      (inverseStage p.modulus size.len c.wInv c.wInvStages st s).2 = 2 ^ (s + 1) - 1 := by
  have hblock := Modulus.block_dvd hs
  have hpos := Nat.two_pow_pos s
  have hdouble : 2 ^ (s + 1) = 2 * 2 ^ s := pow_succ' 2 s
  refine ⟨?_, by simp only [inverseStage]; omega⟩
  simp only [inverseStage, hoff, Size.len_eq]
  split
  · rename_i hlong
    have hw : ∀ k, k < 2 ^ s → c.wInvStages (2 ^ s - 1 + k) = invTwiddle p size s k :=
      fun k hk => (h.invTwiddle s k hs hk).1
    have hres : p.modulus.Residues (2 ^ s) fun k => c.wInvStages (2 ^ s - 1 + k) := by
      intro k hk
      have hlt : invTwiddle p size s k < p.modulus.q := mod_residue p _
      rwa [← hw k hk] at hlt
    rw [Hvx.stage_eq (long_stage hlong) hlong hblock hres hout]
    exact stageCells_twiddles hs hw st.1
  · rw [Modulus.stageScalar_eq hpos hblock]
    exact stageCells_twiddles hs (fun k hk => (h.invTwiddle s k hs hk).2) st.1

/-- The words that go into the transform. -/
def reducedWords (p : Prime) (words : List Nat) (j : Nat) : Nat := words.getD j 0 % p.modulus.q

/-- One coefficient of the inverse. -/
def inverseWord (p : Prime) (size : Size) (words : List Nat) (k : Nat) : Nat :=
  p.modulus.modmul
    (p.modulus.modmul
      (p.modulus.transform size.log (invTwiddle p size) (reducedWords p words) k)
      (p.modulus.modinv (size.len % p.modulus.q)))
    (ipsiOf p size ^ k % p.modulus.q)

theorem invTwiddle_residues : p.modulus.StageResidues size.log (invTwiddle p size) :=
  fun _ _ _ _ => mod_residue p _

theorem inttOracle_eq {c : Context} (h : c.Built p size) (words : List Nat) (locals : Locals) :
    inttOracle (some c) size words locals = some (vec size.len (inverseWord p size words)) := by
  let out := forCells size.len (fun j _ => words.getD j 0 % p.modulus.q) locals.out
  have hout : p.modulus.Residues (2 ^ size.log) out := by
    intro j hj
    have hcell : out j = words.getD j 0 % p.modulus.q := if_pos hj
    rw [hcell]
    exact mod_residue p _
  have hrun : ((List.range size.log).foldl
      (inverseStage p.modulus size.len c.wInv c.wInvStages)
      (bitReverse size.len size.log out, 0)).1 =
        p.modulus.transform size.log (invTwiddle p size) out :=
    Modulus.run_eq_transform Prod.fst (fun s st => st.2 = 2 ^ s - 1)
      (fun s st hs hoff hres => inverseStage_eq h hs hoff hres) invTwiddle_residues rfl rfl hout
  simp only [inttOracle, Option.bind_eq_bind, Option.bind_some, h.modulus, h.ninv, ilog2_len,
    inverseOne]
  rw [hrun]
  apply congrArg some
  apply Buffer.vec_congr
  intro k hk
  have hsame : p.modulus.transform size.log (invTwiddle p size) out k =
      p.modulus.transform size.log (invTwiddle p size) (reducedWords p words) k :=
    Modulus.transform_congr (fun _ _ _ _ => rfl) (fun j hj => if_pos hj) hk
  rw [forCells, if_pos hk, hsame, h.ipsiPow k hk]
  rfl

/-! Over the ring -/

section

variable (p size)

/-- The root of `x ^ N + 1` and its inverse in the ring. -/
def psiR : ZMod p.modulus.q := psiOf p size

def ipsiR : ZMod p.modulus.q := ipsiOf p size

theorem psi_modinv : psiOf p size * ipsiOf p size % p.modulus.q = 1 := by
  cases p <;> cases size <;> decide +kernel

theorem psiR_pow_len : psiR p size ^ size.len = -1 := by
  have hroot := congrArg (Nat.cast : Nat → ZMod p.modulus.q) (psiOf_spec p size).2
  rw [ZMod.natCast_mod, Nat.cast_pow, Nat.cast_sub p.modulus.q_pos, ZMod.natCast_self, zero_sub,
    Nat.cast_one] at hroot
  exact hroot

theorem psiR_mul_ipsiR : psiR p size * ipsiR p size = 1 := by
  have hinv := congrArg (Nat.cast : Nat → ZMod p.modulus.q) (psi_modinv p size)
  rwa [ZMod.natCast_mod, Nat.cast_mul, Nat.cast_one] at hinv

theorem len_mul_ninv :
    (size.len : ZMod p.modulus.q) * p.modulus.modinv (size.len % p.modulus.q) = 1 := by
  have hinv := congrArg (Nat.cast : Nat → ZMod p.modulus.q) (len_modinv p size)
  rwa [ZMod.natCast_mod, Nat.cast_mul, Nat.cast_one] at hinv

theorem ipsiR_pow_len : ipsiR p size ^ size.len = -1 := by
  have hprod : psiR p size ^ size.len * ipsiR p size ^ size.len = 1 := by
    rw [← mul_pow, psiR_mul_ipsiR, one_pow]
  rw [psiR_pow_len] at hprod
  linear_combination -hprod

/-- The square of a root of the length's polynomial is a root of half the length's. -/
theorem square_pow_half {z : ZMod p.modulus.q} (hz : z ^ size.len = -1) :
    (z ^ 2) ^ 2 ^ (size.log - 1) = -1 := by
  have hlog := size.log_pos
  have hdouble : 2 * 2 ^ (size.log - 1) = size.len := by
    rw [← pow_succ', Nat.sub_add_cancel hlog, Size.len_eq]
  rw [← pow_mul, hdouble, hz]

theorem omegaOf_cast : (omegaOf p size : ZMod p.modulus.q) = psiR p size ^ 2 := by
  rw [omegaOf, Modulus.modmul_cast (psiOf_spec p size).1 (psiOf_spec p size).1, pow_two]
  rfl

theorem iomegaOf_cast : (iomegaOf p size : ZMod p.modulus.q) = ipsiR p size ^ 2 := by
  rw [iomegaOf, Modulus.modmul_cast (ipsiOf_lt p size) (ipsiOf_lt p size), pow_two]
  rfl

theorem fwdTwiddle_twiddles :
    p.modulus.Twiddles size.log (psiR p size ^ 2) (fwdTwiddle p size) := by
  intro s k hs hk
  refine ⟨mod_residue p _, ?_⟩
  have hstride : size.len / (2 * 2 ^ s) = 2 ^ (size.log - 1 - s) := Arena.stride_eq hs
  rw [fwdTwiddle, ZMod.natCast_mod, Nat.cast_pow, omegaOf_cast, hstride]

theorem invTwiddle_twiddles :
    p.modulus.Twiddles size.log (ipsiR p size ^ 2) (invTwiddle p size) := by
  intro s k hs hk
  refine ⟨mod_residue p _, ?_⟩
  have hstride : size.len / (2 * 2 ^ s) = 2 ^ (size.log - 1 - s) := Arena.stride_eq hs
  rw [invTwiddle, ZMod.natCast_mod, Nat.cast_pow, iomegaOf_cast, hstride]

theorem weighted_residues (inp : Nat → Int) :
    p.modulus.Residues (2 ^ size.log) (weighted p size inp) :=
  fun _ _ => Modulus.modmul_lt (p.modulus.signedReduce_lt _) (mod_residue p _)

variable {p size}

theorem weighted_cast (inp : Nat → Int) (j : Nat) :
    (weighted p size inp j : ZMod p.modulus.q) = inp j * psiR p size ^ j := by
  rw [weighted, Modulus.modmul_cast (p.modulus.signedReduce_lt _) (mod_residue p _),
    p.modulus.signedReduce_cast, ZMod.natCast_mod, Nat.cast_pow]
  rfl

/-- The input as ring elements. -/
def castInput (p : Prime) (inp : Nat → Int) (j : Nat) : ZMod p.modulus.q := inp j

/-- Word `j` of the forward transform is the value at an odd power of the root. -/
theorem forward_cast (inp : Nat → Int) {j : Nat} (hj : j < size.len) :
    (p.modulus.transform size.log (fwdTwiddle p size) (weighted p size inp) j :
        ZMod p.modulus.q) =
      ∑ i ∈ Finset.range size.len, castInput p inp i * (psiR p size ^ (2 * j + 1)) ^ i := by
  obtain ⟨_, hcast⟩ := Modulus.transform_spec (fwdTwiddle_twiddles p size)
    (weighted_residues p size inp) hj
  rw [hcast, Radix2.stages_all (square_pow_half p size (psiR_pow_len p size)) _ hj]
  refine sum_congr rfl fun i _ => ?_
  rw [weighted_cast, castInput, mul_assoc, ← pow_mul, ← pow_mul, ← pow_add]
  congr 2
  ring

/-- Of words that are the values of a polynomial at the odd powers of the root, the inverse
gives the coefficients. -/
theorem inverse_of_values {words : List Nat} {coeff : Nat → ZMod p.modulus.q}
    (hwords : ∀ j, j < size.len → (words.getD j 0 : ZMod p.modulus.q) =
      ∑ i ∈ Finset.range size.len, coeff i * (psiR p size ^ (2 * j + 1)) ^ i)
    {k : Nat} (hk : k < size.len) :
    inverseWord p size words k < p.modulus.q ∧
      (inverseWord p size words k : ZMod p.modulus.q) = coeff k := by
  have hninv := modinv_lt p (size.len % p.modulus.q)
  have hres : p.modulus.Residues (2 ^ size.log) (reducedWords p words) :=
    fun _ _ => mod_residue p _
  obtain ⟨hlt, hcast⟩ := Modulus.transform_spec (invTwiddle_twiddles p size) hres hk
  have hscaled := Modulus.modmul_lt hlt hninv
  refine ⟨Modulus.modmul_lt hscaled (mod_residue p _), ?_⟩
  -- the words are the transform of the coefficients times the powers of the root
  have hvalues : ∀ j, j < size.len → (reducedWords p words j : ZMod p.modulus.q) =
      ∑ i ∈ Finset.range size.len, coeff i * psiR p size ^ i * (psiR p size ^ 2) ^ (j * i) := by
    intro j hj
    rw [reducedWords, ZMod.natCast_mod, hwords j hj]
    refine sum_congr rfl fun i _ => ?_
    rw [← pow_mul, ← pow_mul, mul_assoc, ← pow_add]
    congr 2
    ring
  have hsquares : psiR p size ^ 2 * ipsiR p size ^ 2 = 1 := by
    rw [← mul_pow, psiR_mul_ipsiR, one_pow]
  have hback : (p.modulus.transform size.log (invTwiddle p size) (reducedWords p words) k :
      ZMod p.modulus.q) = size.len * (coeff k * psiR p size ^ k) := by
    calc (p.modulus.transform size.log (invTwiddle p size) (reducedWords p words) k :
          ZMod p.modulus.q)
        = ∑ j ∈ Finset.range size.len,
            (reducedWords p words j : ZMod p.modulus.q) * (ipsiR p size ^ 2) ^ (k * j) := by
          rw [hcast]
          exact Radix2.stages_all (square_pow_half p size (ipsiR_pow_len p size)) _ hk
      _ = ∑ j ∈ Finset.range size.len, (∑ i ∈ Finset.range size.len,
            coeff i * psiR p size ^ i * (psiR p size ^ 2) ^ (j * i)) *
              (ipsiR p size ^ 2) ^ (k * j) :=
          sum_congr rfl fun j hj => by rw [hvalues j (mem_range.mp hj)]
      _ = 2 ^ size.log * (coeff k * psiR p size ^ k) :=
          Radix2.inverse_transform (square_pow_half p size (psiR_pow_len p size)) hsquares _ hk
      _ = size.len * (coeff k * psiR p size ^ k) := by
          rw [Size.len_eq, Nat.cast_pow, Nat.cast_ofNat]
  have hpair : psiR p size ^ k * ipsiR p size ^ k = 1 := by
    rw [← mul_pow, psiR_mul_ipsiR, one_pow]
  have hipsi : ((ipsiOf p size ^ k % p.modulus.q : Nat) : ZMod p.modulus.q) = ipsiR p size ^ k := by
    rw [ZMod.natCast_mod, Nat.cast_pow]
    rfl
  rw [inverseWord, Modulus.modmul_cast hscaled (mod_residue p _), Modulus.modmul_cast hlt hninv,
    hback, hipsi]
  linear_combination
    (coeff k * psiR p size ^ k * ipsiR p size ^ k) * len_mul_ninv p size + coeff k * hpair

/-! The product -/

theorem vec_getD {n : Nat} (f : Nat → Nat) {j : Nat} (hj : j < n) : (vec n f).getD j 0 = f j := by
  simp [vec, hj]

theorem forward_eq {c : Context} (h : c.Built p size) (path : Path) (inp : Nat → Int)
    (locals : Locals) :
    path.forward (some c) p size inp locals = some (forwardWords p size inp) := by
  cases path with
  | scalar => exact oracle_eq p size locals inp
  | hvx => exact hvxOracle_eq p size locals inp
  | vtcm => exact Vtcm.oracle_eq h inp locals

theorem forwardWords_cast (inp : Nat → Int) {j : Nat} (hj : j < size.len) :
    (forwardWords p size inp).getD j 0 < p.modulus.q ∧
    ((forwardWords p size inp).getD j 0 : ZMod p.modulus.q) =
      ∑ i ∈ Finset.range size.len, castInput p inp i * (psiR p size ^ (2 * j + 1)) ^ i := by
  rw [forwardWords, vec_getD _ hj]
  exact ⟨(Modulus.transform_spec (fwdTwiddle_twiddles p size)
    (weighted_residues p size inp) hj).1, forward_cast inp hj⟩

/-- The host's product of residues is the device's. -/
theorem barrettReduceHost_eq (M : Modulus) {x : Nat} (hx : x < 2 ^ 60) :
    barrettReduceHost x M.q M.mu = barrettReduce x M.q M.mu := by
  have hprod : x / 2 ^ 29 * M.mu < 2 ^ 64 := M.quotient_lt hx
  have hshort : x / 2 ^ 29 * M.mu / 2 ^ 31 < 2 ^ 64 := (Nat.div_le_self _ _).trans_lt hprod
  rw [barrettReduceHost, barrettReduce, Nat.shiftRight_eq_div_pow, Nat.shiftRight_eq_div_pow,
    Nat.shiftRight_eq_div_pow, Nat.mod_eq_of_lt hprod, Nat.mod_eq_of_lt hshort]

theorem pointwiseMulQ_getD (M : Modulus) (f g : Nat → Nat) {n j : Nat} (hj : j < n)
    (hf : f j < M.q) (hg : g j < M.q) :
    ((pointwiseMulQ M (vec n f) (vec n g)).getD j 0 : ZMod M.q) = f j * g j := by
  have hword : (pointwiseMulQ M (vec n f) (vec n g)).getD j 0 = M.modmul (f j) (g j) := by
    simp [pointwiseMulQ, vec, hj, Modulus.modmul,
      barrettReduceHost_eq M (Modulus.mul_lt_of_lt hf hg)]
  rw [hword, Modulus.modmul_cast hf hg]

/-- For every prime and length and by every forward path the calls give the coefficients of
the product modulo `x ^ N + 1`, and forward and back give the input, reduced. -/
theorem polymul_exact (path : Path) (p : Prime) (size : Size) (a b : Nat → Int)
    (arena : Nat → Nat) (la lb lc : Locals) :
    (∃ words, polymul path (initOne p size arena) p size a b la lb lc = some words ∧
      words.length = size.len ∧ ∀ k, k < size.len → words.getD k 0 < p.modulus.q ∧
        (words.getD k 0 : ZMod p.modulus.q) =
          (Radix2.product size.len (castInput p a) (castInput p b)).coeff k) ∧
    ∃ words, roundTrip path (initOne p size arena) p size a la lc = some words ∧
      words.length = size.len ∧
        ∀ k, k < size.len → (words.getD k 0 : Int) = a k % p.modulus.q := by
  obtain ⟨c, hinit, hbuilt⟩ := initOne_spec p size arena
  have hlen : size.len ≠ 0 := (Nat.two_pow_pos size.log).ne'
  rw [hinit]
  constructor
  · refine ⟨vec size.len (inverseWord p size
      (pointwiseMulQ p.modulus (forwardWords p size a) (forwardWords p size b))), ?_, ?_, ?_⟩
    · rw [polymul, forward_eq hbuilt, forward_eq hbuilt, Option.bind_eq_bind, Option.bind_some,
        Option.bind_some]
      exact inttOracle_eq hbuilt _ lc
    · simp [vec]
    · intro k hk
      rw [vec_getD _ hk]
      refine inverse_of_values (fun j hj => ?_) hk
      obtain ⟨hlta, hcasta⟩ := forwardWords_cast (p := p) a hj
      obtain ⟨hltb, hcastb⟩ := forwardWords_cast (p := p) b hj
      have hz : (psiR p size ^ (2 * j + 1)) ^ size.len = -1 := by
        rw [← pow_mul, Nat.mul_comm, pow_mul, psiR_pow_len,
          Odd.neg_one_pow (odd_two_mul_add_one j)]
      rw [Radix2.product_eval hlen _ _ hz, ← hcasta, ← hcastb]
      rw [forwardWords, vec_getD _ hj] at hlta hltb
      rw [forwardWords, forwardWords, pointwiseMulQ_getD _ _ _ hj hlta hltb, vec_getD _ hj,
        vec_getD _ hj]
  · refine ⟨vec size.len (inverseWord p size (forwardWords p size a)), ?_, ?_, ?_⟩
    · rw [roundTrip, forward_eq hbuilt, Option.bind_eq_bind, Option.bind_some]
      exact inttOracle_eq hbuilt _ lc
    · simp [vec]
    · intro k hk
      obtain ⟨hlt, hcast⟩ := inverse_of_values (p := p)
        (fun j hj => (forwardWords_cast a hj).2) hk
      rw [vec_getD _ hk]
      have hsame : (((inverseWord p size (forwardWords p size a) k : Nat) : Int) :
          ZMod p.modulus.q) = (a k : Int) := by
        rw [Int.cast_natCast, hcast]
        rfl
      rw [ZMod.intCast_eq_intCast_iff'] at hsame
      rw [← hsame, Int.emod_eq_of_lt (Int.natCast_nonneg _) (by exact_mod_cast hlt)]

end

end ShannonPrime.Ntt

/-!
What the words of the scalar transform mean: word `k` is the value of the input, read as a
polynomial, at the odd power `2k + 1` of a primitive root of unity of order `2N`.
-/

namespace ShannonPrime.Ntt

open Finset (sum_congr)

variable (p : Prime) (size : Size)

theorem two_mul_len : 2 * size.len = 2 ^ (size.log + 1) := by
  rw [Size.len_eq, pow_succ']

/-- Modulo an odd prime minus one is not one. -/
theorem neg_one_ne_one : (-1 : ZMod p.modulus.q) ≠ 1 := by
  cases p <;> decide

/-- What the search finds has order `2N`. -/
theorem psiR_primitive : IsPrimitiveRoot (psiR p size) (2 * size.len) := by
  have hhalf : ¬ psiR p size ^ 2 ^ size.log = 1 := by
    rw [← Size.len_eq, psiR_pow_len]
    exact neg_one_ne_one p
  have hfull : psiR p size ^ 2 ^ (size.log + 1) = 1 := by
    rw [← two_mul_len, Nat.mul_comm, pow_mul, psiR_pow_len, neg_one_sq]
  rw [two_mul_len, ← orderOf_eq_prime_pow hhalf hfull]
  exact IsPrimitiveRoot.orderOf (psiR p size)

/-- The value at an odd power of the root, over the integers. -/
def oddValue (inp : Nat → Int) (k : Nat) : Int :=
  ∑ j ∈ Finset.range size.len, inp j * (psiOf p size : Int) ^ (j * (2 * k + 1))

theorem oddValue_cast (inp : Nat → Int) (k : Nat) :
    (oddValue p size inp k : ZMod p.modulus.q) =
      ∑ i ∈ Finset.range size.len, castInput p inp i * (psiR p size ^ (2 * k + 1)) ^ i := by
  rw [oddValue, Int.cast_sum]
  refine sum_congr rfl fun j _ => ?_
  rw [Int.cast_mul, Int.cast_pow, Int.cast_natCast, castInput, ← pow_mul, Nat.mul_comm j]
  rfl

/-- The scalar oracle answers for every prime, length and input, and its words are the
residues of the values at the odd powers of a primitive root. -/
theorem oracle_evaluates (inp : Nat → Int) (locals : Locals) :
    ∃ words, oracle p size inp locals = some words ∧ words.length = size.len ∧
      IsPrimitiveRoot (psiOf p size : ZMod p.modulus.q) (2 * size.len) ∧
      ∀ k, k < size.len → (words.getD k 0 : Int) =
        (∑ j ∈ Finset.range size.len, inp j * (psiOf p size : Int) ^ (j * (2 * k + 1))) %
          p.modulus.q := by
  refine ⟨forwardWords p size inp, oracle_eq p size locals inp, ?_, psiR_primitive p size, ?_⟩
  · simp [forwardWords, Buffer.vec]
  · intro k hk
    obtain ⟨hlt, hcast⟩ := forwardWords_cast (p := p) inp hk
    have hsame : (((forwardWords p size inp).getD k 0 : Int) : ZMod p.modulus.q) =
        oddValue p size inp k := by
      rw [Int.cast_natCast, hcast, oddValue_cast]
    rw [ZMod.intCast_eq_intCast_iff'] at hsame
    rw [← oddValue, ← hsame]
    exact (Int.emod_eq_of_lt (Int.natCast_nonneg _) (by exact_mod_cast hlt)).symm

end ShannonPrime.Ntt
