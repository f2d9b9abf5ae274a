import ShannonPrime.Ntt.BarrettOracle
import ShannonPrime.Ntt.Batch

/-!
The product of two residues on wide lanes: 52-bit multiplications (`avx512_ifma.c`), 32-bit
ones on the two halves of a lane and the scalar of the batch (`cpu_overlay.c`), and 32-bit
words alone (`ptx_ntt.cuh`). Each of them is the remainder, and no widening multiplication
loses a bit of an operand.
-/

namespace ShannonPrime.Ntt

open Buffer (forCells store)

/-- Two conditional subtractions, as every one of the kernels ends. -/
def correct (q r : Nat) : Nat :=
  let s := if r ≥ q then r - q else r
  if s ≥ q then s - q else s

/-- The quotient estimate that the kernels share. -/
def Modulus.qhat (M : Modulus) (x : Nat) : Nat := ((x >>> 29) * M.mu) >>> 31

namespace Ifma

/-! The intrinsics, on one 64-bit lane -/

/-- `_mm512_madd52lo_epu64` -/
def madd52lo (acc a b : Nat) : Nat :=
  (acc + (a % 2 ^ 52) * (b % 2 ^ 52) % 2 ^ 52) % 2 ^ 64

/-- `_mm512_madd52hi_epu64` -/
def madd52hi (acc a b : Nat) : Nat :=
  (acc + (a % 2 ^ 52) * (b % 2 ^ 52) / 2 ^ 52) % 2 ^ 64

/-- `_mm512_slli_epi64` -/
def slli (a n : Nat) : Nat := a <<< n % 2 ^ 64

/-- `_mm512_mullo_epi64` -/
def mullo (a b : Nat) : Nat := a * b % 2 ^ 64

/-! The lanes of `sp_avx512_ifma_modmul` -/

def x (a b : Nat) : Nat := madd52lo 0 a b ||| slli (madd52hi 0 a b) 52

def qhatNum (a b : Nat) : Nat := x a b >>> 29

def qhat (mu a b : Nat) : Nat :=
  slli (madd52hi 0 (qhatNum a b) mu) 21 ||| madd52lo 0 (qhatNum a b) mu >>> 31

def lane (q mu a b : Nat) : Nat :=
  let r := Avx2.subEpi64 (x a b) (mullo (qhat mu a b) q)
  let s := if r ≥ q then Avx2.subEpi64 r q else r
  let t := if s ≥ q then Avx2.subEpi64 s q else s
  t % 2 ^ 32

/-- What the 52-bit multiplications of a lane take. -/
def operands (mu a b : Nat) : List Nat := [a, b, qhatNum a b, mu]

/-- `sp_avx512_ifma_modmul`, eight lanes a turn. -/
def modmul (a b : Nat → Nat) (q mu N : Nat) (out : Nat → Nat) : Nat → Nat :=
  (List.range ((N + 7) / 8)).foldl
    (fun out i => store out (8 * i) 8 fun l => lane q mu (a (8 * i + l)) (b (8 * i + l))) out

end Ifma

/-- What the 32-bit multiplications of `ntb_barrett4` take. -/
def Avx2.barrett4Operands (M : Modulus) (x : Nat) : List Nat :=
  [x >>> 29, M.mu, Avx2.mulEpu32 (x >>> 29) M.mu >>> 31, M.q]

/-- What the 32-bit multiplications of `ntb_modmul8` take: the words of both lanes, then the
operands of both reductions. -/
def Avx2.modmul8Operands (M : Modulus) (a w : Nat) : List Nat :=
  [a % 2 ^ 32, w % 2 ^ 32] ++ Avx2.barrett4Operands M (Avx2.mulEpu32 a w) ++
    [a >>> 32, w >>> 32] ++ Avx2.barrett4Operands M (Avx2.mulEpu32 (a >>> 32) (w >>> 32))

namespace Ptx

/-- `barrett_reduce32_ref` -/
def barrettReduce32Ref (x q mu : Nat) : Nat := barrettReduce x q mu % 2 ^ 32

/-- `modmul_ref_q1` -/
def modmulRefQ1 (a b : Nat) : Nat := barrettReduce32Ref (a * b % 2 ^ 64) q1.q q1.mu

/-- `modmul_ref_q2` -/
def modmulRefQ2 (a b : Nat) : Nat := barrettReduce32Ref (a * b % 2 ^ 64) q2.q q2.mu

/-! The instructions, on 32-bit registers -/

/-- `mul.lo.u32` -/
def mulLo (a b : Nat) : Nat := a * b % 2 ^ 32

/-- `mul.hi.u32` -/
def mulHi (a b : Nat) : Nat := a * b / 2 ^ 32

/-- `shf.r.wrap.b32` -/
def shfRWrap (lo hi n : Nat) : Nat := (hi * 2 ^ 32 + lo) >>> (n % 32) % 2 ^ 32

/-- `sub.u32` -/
def sub (a b : Nat) : Nat := (a + 2 ^ 32 - b) % 2 ^ 32

/-! The registers of `ptx_modmul_q1` and `ptx_modmul_q2` -/

def shLo (a b : Nat) : Nat := shfRWrap (mulLo a b) (mulHi a b) 29

def qhat (mu a b : Nat) : Nat :=
  shfRWrap (mulLo (shLo a b) mu) (mulHi (shLo a b) mu) 31

def rlo (q mu a b : Nat) : Nat := sub (mulLo a b) (mulLo (qhat mu a b) q)

def modmul (q mu a b : Nat) : Nat := correct q (rlo q mu a b)

/-- `ptx_modmul_q1` -/
def modmulQ1 (a b : Nat) : Nat := modmul 1073738753 1073744895 a b

/-- `ptx_modmul_q2` -/
def modmulQ2 (a b : Nat) : Nat := modmul 1073732609 1073751039 a b

end Ptx

/-! On residues -/

/-- What the shared estimate leaves: no wrap, and less than three times the modulus. -/
theorem Modulus.qhat_spec (M : Modulus) {x : Nat} (hx : x < 2 ^ 60) :
    M.qhat x < 2 ^ 31 ∧ M.qhat x * M.q ≤ x ∧ x - M.qhat x * M.q < 3 * M.q ∧
      correct M.q (x - M.qhat x * M.q) = x % M.q := by
  have hlower := M.lower
  have hestimate : M.qhat x = Barrett.estimate (2 ^ 29) M.q x := by
    rw [qhat, Nat.shiftRight_eq_div_pow, Nat.shiftRight_eq_div_pow, M.mu_eq_factor]
    rfl
  obtain ⟨hle, hrest, hmod⟩ := Barrett.rest_spec (B := 2 ^ 29) (by omega) hlower.le hx
  rw [hestimate]
  have hquotient : x / M.q < 2 ^ 31 := Nat.div_lt_of_lt_mul (by omega)
  have hbelow : Barrett.estimate (2 ^ 29) M.q x ≤ x / M.q := Barrett.estimate_le (by omega)
  exact ⟨by omega, hle, hrest, (Barrett.correct_twice hrest).trans hmod⟩

/-- The factor of a modulus has at most 32 bits. -/
theorem Modulus.mu_le (M : Modulus) : M.mu ≤ 2 ^ 31 := by
  rw [M.mu_eq]
  exact (Nat.div_le_div_left M.lower.le (by omega)).trans (by omega)

/-- The product of the shifted number and the factor. -/
theorem Modulus.shifted_mul_lt (M : Modulus) {x : Nat} (hx : x < 2 ^ 60) :
    (x >>> 29) * M.mu < 2 ^ 62 := by
  have hmu := M.mu_le
  have hshift : x >>> 29 < 2 ^ 31 := by
    rw [Nat.shiftRight_eq_div_pow]
    omega
  calc (x >>> 29) * M.mu ≤ (2 ^ 31 - 1) * 2 ^ 31 := Nat.mul_le_mul (by omega) hmu
    _ < 2 ^ 62 := by omega

variable {M : Modulus} {a b c d : Nat}

namespace Ifma

/-- The two halves of a 52-bit product, put together. -/
theorem madd52_join (ha : a < 2 ^ 52) (hb : b < 2 ^ 52) (hab : a * b < 2 ^ 64) :
    madd52lo 0 a b ||| slli (madd52hi 0 a b) 52 = a * b := by
  have hlow : madd52lo 0 a b = a * b % 2 ^ 52 := by
    rw [madd52lo, Nat.mod_eq_of_lt ha, Nat.mod_eq_of_lt hb]
    omega
  have hhigh : madd52hi 0 a b = a * b / 2 ^ 52 := by
    rw [madd52hi, Nat.mod_eq_of_lt ha, Nat.mod_eq_of_lt hb]
    omega
  have hshift : slli (a * b / 2 ^ 52) 52 = a * b / 2 ^ 52 * 2 ^ 52 := by
    rw [slli, Nat.shiftLeft_eq]
    omega
  rw [hlow, hhigh, hshift, Hvx.or_eq_add (by omega)]
  omega

/-- Bits 31 and up of a 52-bit product. -/
theorem madd52_shift (ha : a < 2 ^ 52) (hb : b < 2 ^ 52) (hab : a * b < 2 ^ 64) :
    slli (madd52hi 0 a b) 21 ||| madd52lo 0 a b >>> 31 = (a * b) >>> 31 := by
  have hlow : madd52lo 0 a b >>> 31 = a * b % 2 ^ 52 / 2 ^ 31 := by
    rw [madd52lo, Nat.mod_eq_of_lt ha, Nat.mod_eq_of_lt hb, Nat.shiftRight_eq_div_pow]
    omega
  have hhigh : madd52hi 0 a b = a * b / 2 ^ 52 := by
    rw [madd52hi, Nat.mod_eq_of_lt ha, Nat.mod_eq_of_lt hb]
    omega
  have hshift : slli (a * b / 2 ^ 52) 21 = a * b / 2 ^ 52 * 2 ^ 21 := by
    rw [slli, Nat.shiftLeft_eq]
    omega
  rw [hlow, hhigh, hshift, Nat.or_comm, Hvx.or_eq_add (by omega), Nat.shiftRight_eq_div_pow]
  omega

theorem x_eq (ha : a < M.q) (hb : b < M.q) : x a b = a * b := by
  have hupper := M.upper
  have hproduct := Modulus.mul_lt_of_lt ha hb
  exact madd52_join (by omega) (by omega) (by omega)

theorem operands_lt (ha : a < M.q) (hb : b < M.q) : ∀ y ∈ operands M.mu a b, y < 2 ^ 52 := by
  have hupper := M.upper
  have hmu := M.mu_le
  have hproduct := Modulus.mul_lt_of_lt ha hb
  have hnum : qhatNum a b < 2 ^ 52 := by
    rw [qhatNum, x_eq ha hb, Nat.shiftRight_eq_div_pow]
    omega
  intro y hy
  simp only [operands, List.mem_cons, List.not_mem_nil, or_false] at hy
  rcases hy with rfl | rfl | rfl | rfl
  · omega
  · omega
  · exact hnum
  · omega

theorem qhat_eq (ha : a < M.q) (hb : b < M.q) : qhat M.mu a b = M.qhat (a * b) := by
  have hproduct := Modulus.mul_lt_of_lt ha hb
  have hshifted := M.shifted_mul_lt hproduct
  have hmu := M.mu_le
  have hnum : qhatNum a b = (a * b) >>> 29 := by rw [qhatNum, x_eq ha hb]
  have hword : (a * b) >>> 29 < 2 ^ 52 := by
    rw [Nat.shiftRight_eq_div_pow]
    omega
  rw [qhat, hnum]
  exact madd52_shift hword (by omega) (by omega)

theorem subEpi64_eq {r y : Nat} (hy : y ≤ r) (hr : r < 2 ^ 64) : Avx2.subEpi64 r y = r - y := by
  rw [Avx2.subEpi64]
  omega

/-- A masked subtraction of the modulus. -/
theorem maskSub_eq {q r : Nat} (hr : r < 2 ^ 64) :
    (if r ≥ q then Avx2.subEpi64 r q else r) = if r ≥ q then r - q else r := by
  split
  · exact subEpi64_eq ‹_› hr
  · rfl

theorem lane_eq (ha : a < M.q) (hb : b < M.q) : lane M.q M.mu a b = a * b % M.q := by
  have hword := M.q_lt_word
  have hproduct := Modulus.mul_lt_of_lt ha hb
  obtain ⟨-, hle, hrest, hcorrect⟩ := M.qhat_spec hproduct
  have hr : Avx2.subEpi64 (x a b) (mullo (qhat M.mu a b) M.q) =
      a * b - M.qhat (a * b) * M.q := by
    rw [x_eq ha hb, qhat_eq ha hb, mullo, Nat.mod_eq_of_lt (by omega)]
    exact subEpi64_eq hle (by omega)
  have hlt : a * b % M.q < M.q := Nat.mod_lt _ M.q_pos
  have hcut : a * b % M.q % 2 ^ 32 = a * b % M.q := Nat.mod_eq_of_lt (by omega)
  rw [← hcut, ← hcorrect]
  simp only [lane]
  rw [hr]
  generalize a * b - M.qhat (a * b) * M.q = r at hrest
  have hfirst : (if r ≥ M.q then r - M.q else r) < 2 ^ 64 := by
    split <;> omega
  rw [maskSub_eq (r := r) (by omega), maskSub_eq hfirst]
  rfl

theorem modmul_eq {A B out : Nat → Nat} {N : Nat} (hN : N % 8 = 0) :
    modmul A B M.q M.mu N out = forCells N (fun i _ => lane M.q M.mu (A i) (B i)) out := by
  have hturns : 8 * ((N + 7) / 8) = N := by omega
  rw [modmul, Buffer.foldl_store fun i => lane M.q M.mu (A i) (B i), hturns]

end Ifma

namespace Avx2

theorem barrett4Operands_lt (M : Modulus) {x : Nat} (hx : x < 2 ^ 60) :
    ∀ y ∈ barrett4Operands M x, y < 2 ^ 32 := by
  have hmu := M.mu_le
  have hword := M.q_lt_word
  obtain ⟨hquotient, -⟩ := M.qhat_spec hx
  have hshift : x >>> 29 < 2 ^ 32 := by
    rw [Nat.shiftRight_eq_div_pow]
    omega
  have hqh : mulEpu32 (x >>> 29) M.mu >>> 31 = M.qhat x := by
    rw [mulEpu32, Nat.mod_eq_of_lt hshift, Nat.mod_eq_of_lt (by omega), Modulus.qhat]
  intro y hy
  simp only [barrett4Operands, List.mem_cons, List.not_mem_nil, or_false] at hy
  rcases hy with rfl | rfl | rfl | rfl
  · exact hshift
  · omega
  · omega
  · exact hword

theorem modmul8Operands_lt (ha : a < M.q) (hb : b < M.q) (hc : c < M.q) (hd : d < M.q) :
    ∀ y ∈ modmul8Operands M (pack a b) (pack c d), y < 2 ^ 32 := by
  have hword := M.q_lt_word
  have heven : mulEpu32 (pack a b) (pack c d) = a * c := by
    rw [mulEpu32, pack_mod (by omega), pack_mod (by omega)]
  have hhigh : pack a b >>> 32 = b := by
    rw [Nat.shiftRight_eq_div_pow, pack_div (by omega)]
  have hhigh' : pack c d >>> 32 = d := by
    rw [Nat.shiftRight_eq_div_pow, pack_div (by omega)]
  have hodd : mulEpu32 b d = b * d := by
    rw [mulEpu32, Nat.mod_eq_of_lt (by omega), Nat.mod_eq_of_lt (by omega)]
  intro y hy
  rw [modmul8Operands, heven, hhigh, hhigh', hodd, pack_mod (by omega), pack_mod (by omega)] at hy
  simp only [List.mem_append, List.mem_cons, List.not_mem_nil, or_false] at hy
  rcases hy with (((rfl | rfl) | hy) | rfl | rfl) | hy
  · omega
  · omega
  · exact barrett4Operands_lt M (Modulus.mul_lt_of_lt ha hc) y hy
  · omega
  · omega
  · exact barrett4Operands_lt M (Modulus.mul_lt_of_lt hb hd) y hy

end Avx2

namespace Ptx

/-- The funnel shift of a product is the product, shifted, when that fits a word. -/
theorem shfRWrap_mul {n : Nat} (hn : n < 32) (hfits : (a * b) >>> n < 2 ^ 32) :
    shfRWrap (mulLo a b) (mulHi a b) n = (a * b) >>> n := by
  have hjoin : mulHi a b * 2 ^ 32 + mulLo a b = a * b := Nat.div_add_mod' (a * b) (2 ^ 32)
  rw [shfRWrap, hjoin, Nat.mod_eq_of_lt hn, Nat.mod_eq_of_lt hfits]

/-- The registers hold the exact shift, the exact estimate and the exact rest. -/
structure Exact (M : Modulus) (a b : Nat) : Prop where
  shifted : shLo a b = (a * b) >>> 29
  quotient : qhat M.mu a b = M.qhat (a * b)
  rest : rlo M.q M.mu a b + M.qhat (a * b) * M.q = a * b

theorem exact (M : Modulus) (ha : a < M.q) (hb : b < M.q) : Exact M a b := by
  have hupper := M.upper
  have hproduct := Modulus.mul_lt_of_lt ha hb
  obtain ⟨hquotient, hle, hrest, -⟩ := M.qhat_spec hproduct
  have hshifted : shLo a b = (a * b) >>> 29 := by
    refine shfRWrap_mul (by omega) ?_
    rw [Nat.shiftRight_eq_div_pow]
    omega
  have hqhat : qhat M.mu a b = M.qhat (a * b) := by
    rw [qhat, hshifted]
    exact shfRWrap_mul (by omega) (lt_trans hquotient (by omega))
  refine ⟨hshifted, hqhat, ?_⟩
  -- the high words cancel, the rest being below one word
  rw [rlo, hqhat, sub, mulLo, mulLo]
  omega

theorem modmul_eq (M : Modulus) (ha : a < M.q) (hb : b < M.q) :
    modmul M.q M.mu a b = a * b % M.q := by
  obtain ⟨-, -, -, hcorrect⟩ := M.qhat_spec (Modulus.mul_lt_of_lt ha hb)
  have hrest : rlo M.q M.mu a b = a * b - M.qhat (a * b) * M.q :=
    Nat.eq_sub_of_add_eq (exact M ha hb).rest
  rw [modmul, hrest]
  exact hcorrect

/-- The host's fallback is the reference of the oracle. -/
theorem barrettReduce32Ref_eq (M : Modulus) (ha : a < M.q) (hb : b < M.q) :
    barrettReduce32Ref (a * b % 2 ^ 64) M.q M.mu = a * b % M.q :=
  barrettReduce32Scalar_eq M ha hb

end Ptx

/-- Of two residues every kernel gives the product's remainder: the 52-bit lanes over whole
arrays, both halves of a packed lane, the scalar of the batch, and the 32-bit words for the
two primes, on the device and on the host. The multiplications take no operand wider than
their lanes, and neither the scalar nor the 32-bit words lose what the quotient leaves. -/
theorem modmul_exact (M : Modulus) :
    (∀ A B out N, N % 8 = 0 → (∀ i, i < N → A i < M.q ∧ B i < M.q) →
      (∀ i, i < N → Ifma.modmul A B M.q M.mu N out i = A i * B i % M.q) ∧
      ∀ i, N ≤ i → Ifma.modmul A B M.q M.mu N out i = out i) ∧
    (∀ a b, a < M.q → b < M.q →
      (∀ y ∈ Ifma.operands M.mu a b, y < 2 ^ 52) ∧
      Batch.ntbBar M (a * b) = a * b % M.q ∧ Unwrapped M (a * b)) ∧
    (∀ a b c d, a < M.q → b < M.q → c < M.q → d < M.q →
      Avx2.modmul8 M (Avx2.pack a b) (Avx2.pack c d) =
        Avx2.pack (a * c % M.q) (b * d % M.q) ∧
      ∀ y ∈ Avx2.modmul8Operands M (Avx2.pack a b) (Avx2.pack c d), y < 2 ^ 32) ∧
    (∀ a b, a < q1.q → b < q1.q →
      Ptx.modmulQ1 a b = a * b % q1.q ∧ Ptx.modmulRefQ1 a b = a * b % q1.q ∧
      Ptx.Exact q1 a b) ∧
    ∀ a b, a < q2.q → b < q2.q →
      Ptx.modmulQ2 a b = a * b % q2.q ∧ Ptx.modmulRefQ2 a b = a * b % q2.q ∧
      Ptx.Exact q2 a b := by
  refine ⟨fun A B out N hN hAB => ?_, fun a b ha hb => ?_, fun a b c d ha hb hc hd => ?_,
    fun a b ha hb => ?_, fun a b ha hb => ?_⟩
  · rw [Ifma.modmul_eq hN]
    refine ⟨fun i hi => ?_, fun i hi => if_neg (Nat.not_lt.mpr hi)⟩
    rw [forCells, if_pos hi]
    exact Ifma.lane_eq (hAB i hi).1 (hAB i hi).2
  · exact ⟨Ifma.operands_lt ha hb, Modulus.modmul_eq ha hb,
      M.unwrapped (Modulus.mul_lt_of_lt ha hb)⟩
  · refine ⟨?_, Avx2.modmul8Operands_lt ha hb hc hd⟩
    rw [Avx2.modmul8_pack ha hb hc hd, Modulus.modmul_eq ha hc, Modulus.modmul_eq hb hd]
  · exact ⟨Ptx.modmul_eq q1 ha hb, Ptx.barrettReduce32Ref_eq q1 ha hb, Ptx.exact q1 ha hb⟩
  · exact ⟨Ptx.modmul_eq q2 ha hb, Ptx.barrettReduce32Ref_eq q2 ha hb, Ptx.exact q2 ha hb⟩

/-- The largest residue of the first prime, squared on eight lanes and on 32-bit words. -/
theorem modmul_exact_largest :
    Ifma.modmul (fun _ => q1.q - 1) (fun _ => q1.q - 1) q1.q q1.mu 8 (fun _ => 0) 7 = 1 ∧
    Ptx.modmulQ1 (q1.q - 1) (q1.q - 1) = 1 := by
  have hlt : q1.q - 1 < q1.q := Nat.sub_lt q1.q_pos Nat.one_pos
  have hsquare : (q1.q - 1) * (q1.q - 1) % q1.q = 1 := by decide
  obtain ⟨hifma, -, -, hptx, -⟩ := modmul_exact q1
  have hlanes := (hifma (fun _ => q1.q - 1) (fun _ => q1.q - 1) (fun _ => 0) 8 rfl
    fun _ _ => ⟨hlt, hlt⟩).1 7 (by omega)
  exact ⟨hlanes.trans hsquare, (hptx _ _ hlt hlt).1.trans hsquare⟩

end ShannonPrime.Ntt
