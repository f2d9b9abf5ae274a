import ShannonPrime.Lib.CInt
import ShannonPrime.Lib.Words
import ShannonPrime.Ntt.Hvx

/-!
The packed arithmetic of the batched transform (`cpu_overlay.c`): two residues in a 64-bit
lane, multiplied as even and odd halves. On residues both halves are the scalar operation.
-/

namespace ShannonPrime.Ntt.Avx2

/-! The intrinsics, on one 64-bit lane -/

/-- Two words as one lane, the first one low. -/
def pack (lo hi : Nat) : Nat := lo + hi * 2 ^ 32

/-- `_mm256_mul_epu32` -/
def mulEpu32 (a b : Nat) : Nat := (a % 2 ^ 32) * (b % 2 ^ 32)

/-- `_mm256_sub_epi64` -/
def subEpi64 (a b : Nat) : Nat := (a + 2 ^ 64 - b) % 2 ^ 64

/-- `_mm256_cmpgt_epi64`: a signed comparison, all bits or none. -/
def cmpgtEpi64 (a b : Nat) : Nat :=
  if Word64.wrap a > Word64.wrap b then 2 ^ 64 - 1 else 0

/-- An operation on both words of a lane. -/
def epi32 (f : Nat → Nat → Nat) (a b : Nat) : Nat :=
  pack (f (a % 2 ^ 32) (b % 2 ^ 32)) (f (a / 2 ^ 32) (b / 2 ^ 32))

/-- `_mm256_add_epi32` -/
def addEpi32 (a b : Nat) : Nat := epi32 (fun x y => (x + y) % 2 ^ 32) a b

/-- `_mm256_sub_epi32` -/
def subEpi32 (a b : Nat) : Nat := epi32 (fun x y => (x + 2 ^ 32 - y) % 2 ^ 32) a b

/-- `_mm256_cmpgt_epi32` -/
def cmpgtEpi32 (a b : Nat) : Nat :=
  epi32 (fun x y => if CInt.wrap x > CInt.wrap y then 2 ^ 32 - 1 else 0) a b

/-! The operations of the batch -/

/-- `ntb_barrett4` -/
def barrett4 (M : Modulus) (x : Nat) : Nat :=
  let qh := mulEpu32 (x >>> 29) M.mu >>> 31
  let r := subEpi64 x (mulEpu32 qh M.q)
  let s := subEpi64 r (cmpgtEpi64 r (M.q - 1) &&& M.q)
  subEpi64 s (cmpgtEpi64 s (M.q - 1) &&& M.q)

/-- `ntb_modmul8` -/
def modmul8 (M : Modulus) (a w : Nat) : Nat :=
  let re := barrett4 M (mulEpu32 a w)
  let ro := barrett4 M (mulEpu32 (a >>> 32) (w >>> 32))
  re ||| (ro <<< 32 % 2 ^ 64)

/-- `ntb_modadd8` -/
def modadd8 (M : Modulus) (a b : Nat) : Nat :=
  let s := addEpi32 a b
  let ge := cmpgtEpi32 s (pack (M.q - 1) (M.q - 1))
  subEpi32 s (ge &&& pack M.q M.q)

/-- `ntb_modsub8` -/
def modsub8 (M : Modulus) (a b : Nat) : Nat :=
  let d := subEpi32 a b
  let lt := cmpgtEpi32 b a
  addEpi32 d (lt &&& pack M.q M.q)

/-! On residues -/

section

variable {a b c d : Nat}

theorem pack_mod (h : a < 2 ^ 32) : pack a b % 2 ^ 32 = a := by
  unfold pack
  omega

theorem pack_div (h : a < 2 ^ 32) : pack a b / 2 ^ 32 = b := by
  unfold pack
  omega

theorem epi32_pack (f : Nat → Nat → Nat) (ha : a < 2 ^ 32) (hc : c < 2 ^ 32) :
    epi32 f (pack a b) (pack c d) = pack (f a c) (f b d) := by
  rw [epi32, pack_mod ha, pack_mod hc, pack_div ha, pack_div hc]

theorem and_pack (ha : a < 2 ^ 32) (hc : c < 2 ^ 32) :
    pack a b &&& pack c d = pack (a &&& c) (b &&& d) := by
  have hmod : (pack a b &&& pack c d) % 2 ^ 32 = a &&& c := by
    rw [Nat.and_mod_two_pow, pack_mod ha, pack_mod hc]
  have hdiv : (pack a b &&& pack c d) / 2 ^ 32 = b &&& d := by
    rw [Nat.and_div_two_pow, pack_div ha, pack_div hc]
  have hsplit := Nat.div_add_mod (pack a b &&& pack c d) (2 ^ 32)
  rw [hmod, hdiv] at hsplit
  rw [← hsplit, pack]
  ring

theorem ones_and {n x : Nat} (h : x < 2 ^ n) : 2 ^ n - 1 &&& x = x := by
  rw [Nat.and_comm, Nat.and_two_pow_sub_one_eq_mod, Nat.mod_eq_of_lt h]

end

variable {M : Modulus} {a b c d x : Nat}

/-- A conditional subtraction by a mask. -/
theorem subtract_masked {r : Nat} (hr : r < 3 * M.q) :
    subEpi64 r (cmpgtEpi64 r (M.q - 1) &&& M.q) = if r ≥ M.q then r - M.q else r := by
  have hupper := M.upper
  have hlower := M.lower
  have hsigned : Word64.wrap r = r := Word64.wrap_of_fits ⟨by omega, by omega⟩
  have hsigned' : Word64.wrap (M.q - 1 : Nat) = (M.q - 1 : Nat) :=
    Word64.wrap_of_fits ⟨by omega, by omega⟩
  rw [cmpgtEpi64, hsigned, hsigned']
  rcases Nat.lt_or_ge r M.q with hlt | hge
  · rw [if_neg (by omega), if_neg (by omega), Nat.zero_and, subEpi64]
    omega
  · have hfits : M.q < 2 ^ 64 := by omega
    rw [if_pos (by omega), if_pos hge, ones_and hfits, subEpi64]
    omega

theorem barrett4_eq (hx : x < 2 ^ 60) : barrett4 M x = x % M.q := by
  have hlower := M.lower
  have hupper := M.upper
  obtain ⟨hle, hrest, hmod⟩ := Barrett.rest_spec (B := 2 ^ 29) (by omega) M.lower.le hx
  have hmu := Hvx.mu_lt M
  have hqh : mulEpu32 (x >>> 29) M.mu >>> 31 = Barrett.estimate (2 ^ 29) M.q x := by
    rw [mulEpu32, Nat.shiftRight_eq_div_pow, Nat.shiftRight_eq_div_pow,
      Nat.mod_eq_of_lt (show x / 2 ^ 29 < 2 ^ 32 by omega), Nat.mod_eq_of_lt (by omega),
      M.mu_eq_factor]
    rfl
  have hquotient : Barrett.estimate (2 ^ 29) M.q x < 2 ^ 32 := by
    have hbelow : Barrett.estimate (2 ^ 29) M.q x ≤ x / M.q := Barrett.estimate_le (by omega)
    have hbound : x / M.q < 2 ^ 32 := Nat.div_lt_of_lt_mul (by omega)
    omega
  have hr : subEpi64 x (mulEpu32 (Barrett.estimate (2 ^ 29) M.q x) M.q) =
      Barrett.rest (2 ^ 29) M.q x := by
    rw [mulEpu32, Nat.mod_eq_of_lt hquotient, Nat.mod_eq_of_lt M.q_lt_word, subEpi64, Barrett.rest]
    omega
  simp only [barrett4]
  rw [hqh, hr, subtract_masked hrest, subtract_masked (by split <;> omega), ← hmod]
  exact Barrett.correct_twice hrest

theorem modmul8_pack (ha : a < M.q) (hb : b < M.q) (hc : c < M.q) (hd : d < M.q) :
    modmul8 M (pack a b) (pack c d) = pack (M.modmul a c) (M.modmul b d) := by
  have hword := M.q_lt_word
  have heven : mulEpu32 (pack a b) (pack c d) = a * c := by
    rw [mulEpu32, pack_mod (by omega), pack_mod (by omega)]
  have hodd : mulEpu32 (pack a b >>> 32) (pack c d >>> 32) = b * d := by
    rw [Nat.shiftRight_eq_div_pow, Nat.shiftRight_eq_div_pow, pack_div (by omega),
      pack_div (by omega), mulEpu32, Nat.mod_eq_of_lt (by omega), Nat.mod_eq_of_lt (by omega)]
  have hlow := Modulus.modmul_lt ha hc
  have hhigh := Modulus.modmul_lt hb hd
  rw [modmul8, heven, hodd, barrett4_eq (Modulus.mul_lt_of_lt ha hc),
    barrett4_eq (Modulus.mul_lt_of_lt hb hd), ← Modulus.modmul_eq ha hc,
    ← Modulus.modmul_eq hb hd, Nat.shiftLeft_eq, Nat.mod_eq_of_lt (by omega),
    Hvx.or_eq_add (by omega), pack, Nat.add_comm]

/-- One word of a comparison, masked. -/
def maskWord (M : Modulus) (x y : Nat) : Nat :=
  (if CInt.wrap x > CInt.wrap y then 2 ^ 32 - 1 else 0) &&& M.q

theorem maskWord_eq {x y : Nat} (hx : x < 2 ^ 31) (hy : y < 2 ^ 31) :
    maskWord M x y = if x > y then M.q else 0 := by
  have hwrap : CInt.wrap x = x := CInt.wrap_of_fits ⟨by omega, by omega⟩
  have hwrap' : CInt.wrap y = y := CInt.wrap_of_fits ⟨by omega, by omega⟩
  rw [maskWord, hwrap, hwrap']
  rcases Nat.lt_or_ge y x with hgt | hle
  · rw [if_pos (by omega), if_pos hgt, ones_and M.q_lt_word]
  · rw [if_neg (by omega), if_neg (by omega), Nat.zero_and]

/-- The comparison of two lanes, masked word by word. -/
theorem cmpgtEpi32_mask (ha : a < 2 ^ 32) (hc : c < 2 ^ 32) :
    cmpgtEpi32 (pack a b) (pack c d) &&& pack M.q M.q =
      pack (maskWord M a c) (maskWord M b d) := by
  rw [cmpgtEpi32, epi32_pack _ ha hc, and_pack (by split <;> omega) M.q_lt_word]
  rfl

theorem modadd8_pack (ha : a < M.q) (hb : b < M.q) (hc : c < M.q) (hd : d < M.q) :
    modadd8 M (pack a b) (pack c d) = pack (M.modadd a c) (M.modadd b d) := by
  have hupper := M.upper
  have hword : ∀ x y, x < M.q → y < M.q →
      (((x + y) % 2 ^ 32 + 2 ^ 32 - maskWord M ((x + y) % 2 ^ 32) (M.q - 1)) % 2 ^ 32 =
        M.modadd x y) := by
    intro x y hx hy
    have hsum : (x + y) % 2 ^ 32 = x + y := Nat.mod_eq_of_lt (by omega)
    rw [hsum, maskWord_eq (by omega) (by omega), Modulus.modadd_eq hx hy]
    split <;> split <;> omega
  have hsum : addEpi32 (pack a b) (pack c d) =
      pack ((a + c) % 2 ^ 32) ((b + d) % 2 ^ 32) := epi32_pack _ (by omega) (by omega)
  simp only [modadd8]
  rw [hsum, cmpgtEpi32_mask (by omega) (by omega), subEpi32, epi32_pack _ (by omega)
    (by rw [maskWord_eq (by omega) (by omega)]; split <;> omega), hword a c ha hc, hword b d hb hd]

theorem modsub8_pack (ha : a < M.q) (hb : b < M.q) (hc : c < M.q) (hd : d < M.q) :
    modsub8 M (pack a b) (pack c d) = pack (M.modsub a c) (M.modsub b d) := by
  have hupper := M.upper
  have hword : ∀ x y, x < M.q → y < M.q →
      (((x + 2 ^ 32 - y) % 2 ^ 32 + maskWord M y x) % 2 ^ 32 = M.modsub x y) := by
    intro x y hx hy
    rw [maskWord_eq (by omega) (by omega), Modulus.modsub_eq hy]
    split <;> split <;> omega
  have hdiff : subEpi32 (pack a b) (pack c d) =
      pack ((a + 2 ^ 32 - c) % 2 ^ 32) ((b + 2 ^ 32 - d) % 2 ^ 32) :=
    epi32_pack _ (by omega) (by omega)
  simp only [modsub8]
  rw [hdiff, cmpgtEpi32_mask (by omega) (by omega), addEpi32, epi32_pack _ (by omega)
    (by rw [maskWord_eq (by omega) (by omega)]; split <;> omega), hword a c ha hc, hword b d hb hd]

end ShannonPrime.Ntt.Avx2
