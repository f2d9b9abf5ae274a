import ShannonPrime.Lib.Modular
import Mathlib.Data.ZMod.Basic

/-!
Arithmetic modulo the primes of the transforms (`sp_compute_ntt_imp.c`): the Barrett
product in 64-bit words, sums and differences in 32-bit words, powers, and the search for a
root of minus one.
-/

namespace ShannonPrime.Ntt

/-- A modulus of 30 bits with its Barrett factor. -/
structure Modulus where
  q : Nat
  mu : Nat
  lower : 2 ^ 29 < q
  upper : q < 2 ^ 30
  mu_eq : mu = 2 ^ 60 / q

/-- `SP_NTT_Q1`, `SP_MU_Q1` -/
def q1 : Modulus := ⟨1073738753, 1073744895, by decide, by decide, by decide⟩

/-- `SP_NTT_Q2`, `SP_MU_Q2` -/
def q2 : Modulus := ⟨1073732609, 1073751039, by decide, by decide, by decide⟩

/-! The words -/

def barrettReduce (x q mu : Nat) : Nat :=
  let qhat := ((x >>> 29) * mu % 2 ^ 64) >>> 31
  let r := (x + (2 ^ 64 - qhat * q % 2 ^ 64)) % 2 ^ 64
  let s := if r ≥ q then r - q else r
  if s ≥ q then s - q else s

namespace Modulus

def modmul (M : Modulus) (a b : Nat) : Nat := barrettReduce (a * b) M.q M.mu % 2 ^ 32

def modadd (M : Modulus) (a b : Nat) : Nat :=
  let s := (a + b) % 2 ^ 32
  if s ≥ M.q then s - M.q else s

def modsub (M : Modulus) (a b : Nat) : Nat :=
  if a ≥ b then a - b else (a + M.q + 2 ^ 32 - b) % 2 ^ 32

/-- The loop of `modpow`, by the number of bits of the exponent's word. -/
def modpowFrom (M : Modulus) : Nat → Nat → Nat → Nat → Nat
  | 0, result, _, _ => result
  | fuel + 1, result, b, e =>
      if e = 0 then result
      else M.modpowFrom fuel (if e % 2 = 1 then M.modmul result b else result) (M.modmul b b) (e / 2)

def modpow (M : Modulus) (base e : Nat) : Nat := M.modpowFrom 64 (1 % M.q) (base % M.q) e

/-- Fermat, the modulus being prime. -/
def modinv (M : Modulus) (a : Nat) : Nat := M.modpow a (M.q - 2)

/-- The candidates from `a` on. -/
def findPsiFrom (M : Modulus) (N : Nat) : Nat → Nat → Nat
  | 0, _ => 0
  | fuel + 1, a =>
      let psi := M.modpow a ((M.q - 1) / (2 * N))
      if psi = 0 then M.findPsiFrom N fuel (a + 1)
      else if M.modpow psi N = M.q - 1 then psi
      else M.findPsiFrom N fuel (a + 1)

def findPsi (M : Modulus) (N : Nat) : Nat := M.findPsiFrom N (M.q - 2) 2

/-! Residues -/

variable (M : Modulus)

theorem q_pos : 0 < M.q := by
  have := M.lower
  omega

theorem one_lt_q : 1 < M.q := by
  have := M.lower
  omega

instance : NeZero M.q := ⟨M.q_pos.ne'⟩

instance : Fact (1 < M.q) := ⟨M.one_lt_q⟩

theorem q_lt_word : M.q < 2 ^ 32 := by
  have := M.upper
  omega

theorem mu_eq_factor : M.mu = Barrett.factor (2 ^ 29) M.q := M.mu_eq

/-- The quotient times the factor fits a word. -/
theorem quotient_lt {x : Nat} (hx : x < 2 ^ 60) : x / 2 ^ 29 * M.mu < 2 ^ 64 := by
  have hshift : x / 2 ^ 29 < 2 ^ 31 := by omega
  have hmu : M.mu ≤ 2 ^ 31 := by
    rw [M.mu_eq]
    exact (Nat.div_le_div_left M.lower.le (by omega)).trans (by omega)
  calc x / 2 ^ 29 * M.mu ≤ 2 ^ 31 * 2 ^ 31 := Nat.mul_le_mul hshift.le hmu
    _ < 2 ^ 64 := by omega

/-- No word of the reduction wraps below `2 ^ 60`. -/
theorem barrettReduce_eq {x : Nat} (hx : x < 2 ^ 60) : barrettReduce x M.q M.mu = x % M.q := by
  obtain ⟨hle, hrest, hmod⟩ := Barrett.rest_spec (B := 2 ^ 29) (by omega) M.lower.le hx
  have hprod := M.quotient_lt hx
  have hqhat : ((x >>> 29) * M.mu % 2 ^ 64) >>> 31 = Barrett.estimate (2 ^ 29) M.q x := by
    rw [Nat.shiftRight_eq_div_pow, Nat.shiftRight_eq_div_pow, Nat.mod_eq_of_lt hprod,
      M.mu_eq_factor]
    rfl
  have hr : (x + (2 ^ 64 - Barrett.estimate (2 ^ 29) M.q x * M.q % 2 ^ 64)) % 2 ^ 64 =
      Barrett.rest (2 ^ 29) M.q x := by
    have hword : Barrett.estimate (2 ^ 29) M.q x * M.q < 2 ^ 64 := by omega
    rw [Nat.mod_eq_of_lt hword, Barrett.rest]
    omega
  rw [barrettReduce, hqhat, hr, ← hmod]
  exact Barrett.correct_twice hrest

variable {M} {a b : Nat}

theorem modmul_eq_of_lt (h : a * b < 2 ^ 60) : M.modmul a b = a * b % M.q := by
  rw [modmul, M.barrettReduce_eq h]
  exact Nat.mod_eq_of_lt ((Nat.mod_lt _ M.q_pos).trans M.q_lt_word)

theorem mul_lt_of_lt (ha : a < M.q) (hb : b < M.q) : a * b < 2 ^ 60 := by
  have hupper := M.upper
  calc a * b < 2 ^ 30 * 2 ^ 30 :=
        Nat.mul_lt_mul_of_lt_of_le (ha.trans hupper) (hb.trans hupper).le (by omega)
    _ = 2 ^ 60 := by norm_num

theorem modmul_eq (ha : a < M.q) (hb : b < M.q) : M.modmul a b = a * b % M.q :=
  modmul_eq_of_lt (mul_lt_of_lt ha hb)

theorem modmul_lt (ha : a < M.q) (hb : b < M.q) : M.modmul a b < M.q := by
  rw [modmul_eq ha hb]
  exact Nat.mod_lt _ M.q_pos

theorem modmul_cast (ha : a < M.q) (hb : b < M.q) : (M.modmul a b : ZMod M.q) = a * b := by
  rw [modmul_eq ha hb, ZMod.natCast_mod, Nat.cast_mul]

theorem modadd_eq (ha : a < M.q) (hb : b < M.q) :
    M.modadd a b = if a + b ≥ M.q then a + b - M.q else a + b := by
  have hupper := M.upper
  have hword : (a + b) % 2 ^ 32 = a + b := Nat.mod_eq_of_lt (by omega)
  rw [modadd, hword]

theorem modadd_lt (ha : a < M.q) (hb : b < M.q) : M.modadd a b < M.q := by
  rw [modadd_eq ha hb]
  split <;> omega

theorem modadd_cast (ha : a < M.q) (hb : b < M.q) : (M.modadd a b : ZMod M.q) = a + b := by
  rw [modadd_eq ha hb]
  split
  · rename_i hge
    rw [Nat.cast_sub hge, Nat.cast_add, ZMod.natCast_self, sub_zero]
  · exact Nat.cast_add a b

theorem modsub_eq (hb : b < M.q) :
    M.modsub a b = if a ≥ b then a - b else a + M.q - b := by
  have hupper := M.upper
  rw [modsub]
  split
  · rfl
  · have hturn : a + M.q + 2 ^ 32 - b = a + M.q - b + 2 ^ 32 := by omega
    rw [hturn, Nat.add_mod_right, Nat.mod_eq_of_lt (by omega)]

theorem modsub_lt (ha : a < M.q) (hb : b < M.q) : M.modsub a b < M.q := by
  rw [modsub_eq hb]
  split <;> omega

theorem modsub_cast (hb : b < M.q) : (M.modsub a b : ZMod M.q) = a - b := by
  rw [modsub_eq hb]
  split
  · rename_i hge
    exact Nat.cast_sub hge
  · rw [Nat.cast_sub (by omega), Nat.cast_add, ZMod.natCast_self, add_zero]

/-! Powers -/

theorem modpowFrom_eq (fuel : Nat) {result b e : Nat} (hresult : result < M.q) (hb : b < M.q)
    (he : e < 2 ^ fuel) : M.modpowFrom fuel result b e = result * b ^ e % M.q := by
  induction fuel generalizing result b e with
  | zero =>
      obtain rfl : e = 0 := by simpa using he
      rw [modpowFrom, pow_zero, mul_one, Nat.mod_eq_of_lt hresult]
  | succ fuel ih =>
      rw [modpowFrom]
      split
      · rename_i hzero
        rw [hzero, pow_zero, mul_one, Nat.mod_eq_of_lt hresult]
      · have hhalf : e / 2 < 2 ^ fuel := by
          rw [pow_succ] at he
          omega
        have hsquare : (M.modmul b b) ^ (e / 2) ≡ b ^ (2 * (e / 2)) [MOD M.q] := by
          rw [modmul_eq hb hb, pow_mul, pow_two]
          exact (Nat.mod_modEq _ _).pow _
        have hbits := Nat.div_add_mod e 2
        split
        · rename_i hodd
          rw [ih (modmul_lt hresult hb) (modmul_lt hb hb) hhalf]
          have hmul : M.modmul result b ≡ result * b [MOD M.q] := by
            rw [modmul_eq hresult hb]
            exact Nat.mod_modEq _ _
          have hexp : result * b ^ e = result * b * b ^ (2 * (e / 2)) := by
            conv_lhs => rw [← hbits, hodd, pow_succ']
            ring
          rw [hexp]
          exact hmul.mul hsquare
        · rename_i heven
          rw [ih hresult (modmul_lt hb hb) hhalf]
          have hexp : b ^ e = b ^ (2 * (e / 2)) := by
            conv_lhs => rw [← hbits, show e % 2 = 0 by omega, add_zero]
          rw [hexp]
          exact Nat.ModEq.mul_left result hsquare

theorem modpow_eq {e : Nat} (he : e < 2 ^ 64) : M.modpow a e = a ^ e % M.q := by
  rw [modpow, modpowFrom_eq 64 (Nat.mod_lt _ M.q_pos) (Nat.mod_lt _ M.q_pos) he,
    Nat.mod_eq_of_lt M.one_lt_q, one_mul, ← Nat.pow_mod]

/-- Of the search only the end matters: what it finds is a root of minus one. -/
theorem findPsiFrom_spec {N : Nat} (hN : N < 2 ^ 64) (fuel a : Nat) :
    M.findPsiFrom N fuel a = 0 ∨
      M.findPsiFrom N fuel a < M.q ∧ M.findPsiFrom N fuel a ^ N % M.q = M.q - 1 := by
  induction fuel generalizing a with
  | zero => exact Or.inl rfl
  | succ fuel ih =>
      rw [findPsiFrom]
      split
      · exact ih (a + 1)
      · split
        · rename_i hroot
          rw [modpow_eq hN] at hroot
          refine Or.inr ⟨?_, hroot⟩
          rw [modpow_eq]
          · exact Nat.mod_lt _ M.q_pos
          · exact (Nat.div_le_self _ _).trans_lt (by have := M.upper; omega)
        · exact ih (a + 1)

end Modulus

/-! The engine's primes and lengths -/

/-- `q_idx` -/
inductive Prime
  | first
  | second
  deriving DecidableEq, Repr

def Prime.modulus : Prime → Modulus
  | .first => q1
  | .second => q2

/-- The lengths that `sp_tw_n_idx` admits. -/
inductive Size
  | n128
  | n256
  | n512
  deriving DecidableEq, Repr

def Size.log : Size → Nat
  | .n128 => 7
  | .n256 => 8
  | .n512 => 9

def Size.len (N : Size) : Nat := 2 ^ N.log

end ShannonPrime.Ntt
