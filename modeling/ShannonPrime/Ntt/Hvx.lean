import ShannonPrime.Lib.CInt
import ShannonPrime.Ntt.Scalar

/-!
The vector transform (`sp_compute_ntt_hvx_imp.c`): stages of 32 and more butterflies run on
vectors of 32 words, their products taken in two 32-bit halves. On residues every lane is
the scalar operation, so a stage is the scalar stage.
-/

namespace ShannonPrime.Ntt

open Buffer (forCells store)

namespace Hvx

/-! One lane -/

/-- The word of a value. -/
def word (x : Int) : Nat := (x % 2 ^ 32).toNat

/-- The value of a word, signed. -/
def signed (x : Nat) : Int := CInt.wrap x

/-- `Q6_W_vmpye_VwVuh`: the word times the low halfword of the other, high and low word. -/
def vmpye (a b : Nat) : Nat × Nat :=
  let prod := signed a * ((b % 2 ^ 16 : Nat) : Int)
  (word (prod / 2 ^ 16), word (prod * 2 ^ 16))

/-- `Q6_W_vmpyoacc_WVwVh`: the word times the high halfword, onto such a pair. -/
def vmpyoacc (acc : Nat × Nat) (a b : Nat) : Nat × Nat :=
  let prod := signed a * ((b / 2 ^ 16 : Nat) : Int).bmod (2 ^ 16) + signed acc.1
  (word (prod / 2 ^ 16), word prod % 2 ^ 16 * 2 ^ 16 + acc.2 / 2 ^ 16)

/-- The product in two words. -/
def widen (a b : Nat) : Nat × Nat := vmpyoacc (vmpye a b) a b

/-- `Q6_Vw_vsub_VwVw` -/
def vsub (a b : Nat) : Nat := (a + 2 ^ 32 - b) % 2 ^ 32

/-- `Q6_Vw_vadd_VwVw` -/
def vadd (a b : Nat) : Nat := (a + b) % 2 ^ 32

/-- `sp_barrett_reduce32_hvx_lane_ntt1` -/
def barrettLane (M : Modulus) (a b : Nat) : Nat :=
  let x := widen a b
  let sh := (x.2 >>> 29) ||| (x.1 <<< 3 % 2 ^ 32)
  let p := widen sh M.mu
  let qhat := (p.2 >>> 31) ||| (p.1 <<< 1 % 2 ^ 32)
  let r0 := vsub x.2 (widen qhat M.q).2
  let r1 := if r0 > M.q - 1 then vsub r0 M.q else r0
  if r1 > M.q - 1 then vsub r1 M.q else r1

/-- `sp_modadd_hvx_lane_ntt1` -/
def modaddLane (M : Modulus) (a b : Nat) : Nat :=
  let sum := vadd a b
  if sum > M.q - 1 then vsub sum M.q else sum

/-- `sp_modsub_hvx_lane_ntt1` -/
def modsubLane (M : Modulus) (a b : Nat) : Nat :=
  let diff := vsub a b
  if b > a then vadd diff M.q else diff

/-! The stages -/

/-- Vector `v` of the butterflies of the block at `i`. -/
def round (M : Modulus) (half : Nat) (w : Nat → Nat) (i : Nat) (out : Nat → Nat) (v : Nat) :
    Nat → Nat :=
  let u := fun l => out (i + 32 * v + l)
  let red := fun l => barrettLane M (out (i + half + 32 * v + l)) (w (32 * v + l))
  let low := store out (i + 32 * v) 32 fun l => modaddLane M (u l) (red l)
  store low (i + half + 32 * v) 32 fun l => modsubLane M (u l) (red l)

/-- `sp_ntt_butterfly_stage_hvx` -/
def stage (M : Modulus) (N half : Nat) (w out : Nat → Nat) : Nat → Nat :=
  (List.range (N / (2 * half))).foldl
    (fun out b => (List.range (half / 32)).foldl (round M half w (b * (2 * half))) out) out

/-- One stage of `ntt_forward_one_hvx`, over the array and the scratch of twiddles. -/
def forwardStage (M : Modulus) (N : Nat) (wFwd : Nat → Nat) (st : (Nat → Nat) × (Nat → Nat))
    (s : Nat) : (Nat → Nat) × (Nat → Nat) :=
  let half := 2 ^ s
  let step := N / (2 * half)
  if half ≥ 32 then
    let wCompact := forCells half (fun k _ => wFwd (k * step)) st.2
    (stage M N half wCompact st.1, wCompact)
  else (M.stageScalar N half (fun k => wFwd (k * step)) st.1, st.2)

/-- `ntt_forward_one_hvx` -/
def forwardOne (M : Modulus) (N logN : Nat) (psiPow wFwd : Nat → Nat) (inp : Nat → Int)
    (out scratch : Nat → Nat) : Nat → Nat :=
  ((List.range logN).foldl (forwardStage M N wFwd)
    (bitReverse N logN (M.preWeight N psiPow inp out), scratch)).1

/-! A lane on residues -/

section

variable {a b : Nat}

theorem signed_of_lt (h : a < 2 ^ 31) : signed a = a :=
  CInt.wrap_of_fits ⟨by omega, by omega⟩

theorem widen_eq (ha : a < 2 ^ 31) (hb : b < 2 ^ 31) :
    widen a b = (a * b / 2 ^ 32, a * b % 2 ^ 32) := by
  have hlow : a * (b % 2 ^ 16) < 2 ^ 31 * 2 ^ 16 :=
    Nat.mul_lt_mul_of_lt_of_le ha (by omega) (by omega)
  have hhigh : a * (b / 2 ^ 16) ≤ 2 ^ 31 * 2 ^ 15 := Nat.mul_le_mul ha.le (by omega)
  have hhalf : ((b / 2 ^ 16 : Nat) : Int).bmod (2 ^ 16) = (b / 2 ^ 16 : Nat) :=
    Int.bmod_eq_of_le (by omega) (by omega)
  have hsplit : a * b = a * (b / 2 ^ 16) * 2 ^ 16 + a * (b % 2 ^ 16) := by
    calc a * b = a * (2 ^ 16 * (b / 2 ^ 16) + b % 2 ^ 16) := by rw [Nat.div_add_mod]
      _ = a * (b / 2 ^ 16) * 2 ^ 16 + a * (b % 2 ^ 16) := by ring
  have heven : vmpye a b = (a * (b % 2 ^ 16) / 2 ^ 16, a * (b % 2 ^ 16) * 2 ^ 16 % 2 ^ 32) := by
    simp only [vmpye, signed_of_lt ha, ← Nat.cast_mul]
    generalize a * (b % 2 ^ 16) = lo at hlow
    simp only [word]
    refine Prod.ext ?_ ?_
    · simp only
      omega
    · simp only
      omega
  have hacc : signed (a * (b % 2 ^ 16) / 2 ^ 16) = (a * (b % 2 ^ 16) / 2 ^ 16 : Nat) :=
    signed_of_lt (by omega)
  simp only [widen, heven, vmpyoacc, signed_of_lt ha, hhalf, hacc, ← Nat.cast_mul, ← Nat.cast_add]
  rw [hsplit]
  generalize a * (b % 2 ^ 16) = lo at hlow
  generalize a * (b / 2 ^ 16) = hi at hhigh
  simp only [word]
  refine Prod.ext ?_ ?_
  · simp only
    omega
  · simp only
    omega

/-- Two words shifted into one. -/
theorem or_eq_add {i : Nat} (hb : b < 2 ^ i) : b ||| a * 2 ^ i = a * 2 ^ i + b := by
  rw [Nat.or_comm, Nat.mul_comm, Nat.two_pow_add_eq_or_of_lt hb]

end

section

variable {M : Modulus} {a b : Nat}

theorem mu_lt (M : Modulus) : M.mu < 2 ^ 31 := by
  have hlower := M.lower
  rw [M.mu_eq]
  exact Nat.div_lt_of_lt_mul (by omega)

/-- No carry between the halves is lost. -/
theorem barrettLane_eq (ha : a < M.q) (hb : b < M.q) : barrettLane M a b = M.modmul a b := by
  have hlower := M.lower
  have hupper := M.upper
  have hx := Modulus.mul_lt_of_lt ha hb
  obtain ⟨hle, hrest, hmod⟩ := Barrett.rest_spec (B := 2 ^ 29) (by omega) M.lower.le hx
  have hprod : widen a b = (a * b / 2 ^ 32, a * b % 2 ^ 32) := widen_eq (by omega) (by omega)
  rw [Modulus.modmul_eq ha hb, ← hmod]
  rw [Barrett.rest] at hrest ⊢
  generalize a * b = x at hx hle hrest hprod ⊢
  have hsh : (x % 2 ^ 32) >>> 29 ||| ((x / 2 ^ 32) <<< 3 % 2 ^ 32) = x / 2 ^ 29 := by
    have hhigh : (x / 2 ^ 32) <<< 3 % 2 ^ 32 = x / 2 ^ 32 * 2 ^ 3 := by
      rw [Nat.shiftLeft_eq]
      exact Nat.mod_eq_of_lt (by omega)
    rw [hhigh, Nat.shiftRight_eq_div_pow, or_eq_add (by omega)]
    omega
  have hshort : x / 2 ^ 29 < 2 ^ 31 := by omega
  have hquot : widen (x / 2 ^ 29) M.mu =
      (x / 2 ^ 29 * M.mu / 2 ^ 32, x / 2 ^ 29 * M.mu % 2 ^ 32) := widen_eq hshort (mu_lt M)
  have hest : Barrett.estimate (2 ^ 29) M.q x = x / 2 ^ 29 * M.mu / 2 ^ 31 := by
    rw [M.mu_eq_factor]
    rfl
  have hqhat : (x / 2 ^ 29 * M.mu % 2 ^ 32) >>> 31 ||| ((x / 2 ^ 29 * M.mu / 2 ^ 32) <<< 1 % 2 ^ 32) =
      Barrett.estimate (2 ^ 29) M.q x := by
    have hwide : x / 2 ^ 29 * M.mu < 2 ^ 31 * 2 ^ 31 :=
      Nat.mul_lt_mul_of_lt_of_le hshort (mu_lt M).le (by omega)
    rw [hest]
    generalize x / 2 ^ 29 * M.mu = y at hwide
    have hhigh : (y / 2 ^ 32) <<< 1 % 2 ^ 32 = y / 2 ^ 32 * 2 ^ 1 := by
      rw [Nat.shiftLeft_eq]
      exact Nat.mod_eq_of_lt (by omega)
    rw [hhigh, Nat.shiftRight_eq_div_pow, or_eq_add (by omega)]
    omega
  have hback : widen (Barrett.estimate (2 ^ 29) M.q x) M.q =
      (Barrett.estimate (2 ^ 29) M.q x * M.q / 2 ^ 32,
        Barrett.estimate (2 ^ 29) M.q x * M.q % 2 ^ 32) := by
    have hquotient : Barrett.estimate (2 ^ 29) M.q x ≤ x / M.q := Barrett.estimate_le (by omega)
    have hbound : x / M.q < 2 ^ 31 := Nat.div_lt_of_lt_mul (by omega)
    exact widen_eq (by omega) (by omega)
  simp only [barrettLane, hprod, hsh, hquot, hqhat, hback]
  generalize Barrett.estimate (2 ^ 29) M.q x * M.q = y at hle hrest ⊢
  have hr0 : vsub (x % 2 ^ 32) (y % 2 ^ 32) = x - y := by
    unfold vsub
    omega
  have hsub : ∀ r, r < 3 * M.q →
      (if r > M.q - 1 then vsub r M.q else r) = if r ≥ M.q then r - M.q else r := by
    intro r hr
    unfold vsub
    split <;> split <;> omega
  rw [hr0, hsub _ hrest, hsub _ (by split <;> omega)]
  exact Barrett.correct_twice hrest

theorem modaddLane_eq (ha : a < M.q) (hb : b < M.q) : modaddLane M a b = M.modadd a b := by
  have hupper := M.upper
  have hsum : vadd a b = a + b := Nat.mod_eq_of_lt (by omega)
  rw [Modulus.modadd_eq ha hb, modaddLane, hsum]
  unfold vsub
  split <;> split <;> omega

theorem modsubLane_eq (ha : a < M.q) (hb : b < M.q) : modsubLane M a b = M.modsub a b := by
  have hupper := M.upper
  rw [Modulus.modsub_eq hb]
  simp only [modsubLane, vadd, vsub]
  split <;> split <;> omega

/-! A stage on residues -/

theorem round_lanes {half : Nat} (hhalf : 32 ≤ half) (w : Nat → Nat) (i : Nat) :
    InPlace.Lanes 32 half (fun k u t => modaddLane M u (barrettLane M t (w k)))
      (fun k u t => modsubLane M u (barrettLane M t (w k))) i (round M half w i) where
  low out v l hl := by
    rw [round, Buffer.store_outside (Or.inl (by omega)), Buffer.store_inside hl]
  high out v l hl := by
    rw [round, Buffer.store_inside hl]
  other out v c hc := by
    have hlow : c < i + 32 * v ∨ i + 32 * v + 32 ≤ c := by
      by_contra hin
      exact (hc (c - (i + 32 * v)) (by omega)).1 (by omega)
    have hhigh : c < i + half + 32 * v ∨ i + half + 32 * v + 32 ≤ c := by
      by_contra hin
      exact (hc (c - (i + half + 32 * v)) (by omega)).2 (by omega)
    rw [round, Buffer.store_outside hhigh, Buffer.store_outside hlow]

/-- A stage on vectors is the stage cell by cell. -/
theorem stage_eq {N half : Nat} (hhalf : 32 ∣ half) (hpos : 32 ≤ half) (hN : 2 * half ∣ N)
    {w out : Nat → Nat} (hw : M.Residues half w) (hout : M.Residues N out) :
    stage M N half w out = M.stageCells N half w out := by
  funext c
  have hloop := InPlace.Lanes.loop (G := N / (2 * half)) (Nat.mul_div_cancel' hhalf).symm
    (round_lanes (M := M) hpos w) out c
  rw [Nat.div_mul_cancel hN] at hloop
  rw [stage, hloop, Modulus.stageCells]
  split
  · rename_i hc
    simp only [InPlace.pairs]
    split
    · rename_i hlow
      have hpartner := hout _ (Modulus.partner_lt hN hc hlow)
      have htwiddle := hw _ hlow
      rw [barrettLane_eq hpartner htwiddle,
        modaddLane_eq (hout c hc) (Modulus.modmul_lt hpartner htwiddle)]
      rfl
    · rename_i hhigh
      have htwiddle := hw _ (Modulus.high_index_lt (by omega) hhigh)
      have hpartner := hout (c - half) (by omega)
      rw [barrettLane_eq (hout c hc) htwiddle,
        modsubLane_eq hpartner (Modulus.modmul_lt (hout c hc) htwiddle)]
      rfl
  · rfl

end

end Hvx

end ShannonPrime.Ntt
