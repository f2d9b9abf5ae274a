import ShannonPrime.Lib.Buffer
import ShannonPrime.Lib.InPlace
import ShannonPrime.Lib.Radix2
import ShannonPrime.Ntt.Residue

/-!
The scalar transform (`sp_compute_ntt_imp.c`): weights, bit reversal in place and stages of
butterflies, over an array of residues.
-/

namespace ShannonPrime.Ntt

open Function (update)
open Buffer (forCells)

/-! Bit reversal -/

/-- The loop of `bitrev_u32`: the bits of `x` from the lowest on, shifted into `r`. -/
def bitrevFrom : Nat → Nat → Nat → Nat
  | 0, r, _ => r
  | b + 1, r, x => bitrevFrom b (2 * r + x % 2) (x / 2)

def bitrev (x logN : Nat) : Nat := bitrevFrom logN 0 x

/-- The loop of `ilog2_u32`, by the bits of the word that are left. -/
def ilog2From : Nat → Nat → Nat → Nat
  | 0, l, _ => l
  | fuel + 1, l, n => if 2 ^ l < n then ilog2From fuel (l + 1) n else l

def ilog2 (n : Nat) : Nat := ilog2From 32 0 n

/-- A cell whose reversal is higher is swapped with it. -/
def swapRound (logN : Nat) (out : Nat → Nat) (i : Nat) : Nat → Nat :=
  let j := bitrev i logN
  if i < j then update (update out i (out j)) j (out i) else out

def bitReverse (N logN : Nat) (out : Nat → Nat) : Nat → Nat :=
  (List.range N).foldl (swapRound logN) out

namespace Modulus

variable (M : Modulus)

/-- `v = in % q; if (v < 0) v += q;` -/
def signedReduce (x : Int) : Nat :=
  let v := x.tmod M.q
  (if v < 0 then v + M.q else v).toNat

def preWeight (N : Nat) (psiPow : Nat → Nat) (inp : Nat → Int) (out : Nat → Nat) : Nat → Nat :=
  forCells N (fun j _ => M.modmul (M.signedReduce (inp j)) (psiPow j)) out

/-- One butterfly of the block at `i`, in place. -/
def butterfly (half : Nat) (w : Nat → Nat) (i : Nat) (out : Nat → Nat) (k : Nat) : Nat → Nat :=
  let u := out (i + k)
  let v := M.modmul (out (i + k + half)) (w k)
  update (update out (i + k) (M.modadd u v)) (i + k + half) (M.modsub u v)

/-- `sp_ntt_butterfly_stage_scalar`, with the twiddle of butterfly `k` as `w k`. -/
def stageScalar (N half : Nat) (w : Nat → Nat) (out : Nat → Nat) : Nat → Nat :=
  (List.range (N / (2 * half))).foldl
    (fun out b => (List.range half).foldl (M.butterfly half w (b * (2 * half))) out) out

/-- `ntt_forward_one_scalar`; the stages have `len` at 2, 4, up to `N`. -/
def forwardOne (N logN : Nat) (psiPow wFwd : Nat → Nat) (inp : Nat → Int) (out : Nat → Nat) :
    Nat → Nat :=
  (List.range logN).foldl
    (fun out s => M.stageScalar N (2 ^ s) (fun k => wFwd (k * (N / (2 * 2 ^ s)))) out)
    (bitReverse N logN (M.preWeight N psiPow inp out))

end Modulus

/-! Where the bits go -/

theorem bitrevFrom_eq (n r x : Nat) : bitrevFrom n r x = r * 2 ^ n + Radix2.rev n x := by
  induction n generalizing r x with
  | zero => simp [bitrevFrom, Radix2.rev]
  | succ n ih =>
      rw [bitrevFrom, ih, Radix2.rev, pow_succ]
      ring

theorem bitrev_eq (x n : Nat) : bitrev x n = Radix2.rev n x := by
  rw [bitrev, bitrevFrom_eq, zero_mul, zero_add]

theorem ilog2From_eq (n fuel l : Nat) (hl : l ≤ n) (hfuel : n ≤ l + fuel) :
    ilog2From fuel l (2 ^ n) = n := by
  induction fuel generalizing l with
  | zero => exact Nat.le_antisymm hl hfuel
  | succ fuel ih =>
      rw [ilog2From]
      rcases Nat.lt_or_eq_of_le hl with hlt | rfl
      · rw [if_pos (Nat.pow_lt_pow_right (by omega) hlt)]
        exact ih (l + 1) hlt (by omega)
      · exact if_neg (lt_irrefl _)

theorem ilog2_two_pow {n : Nat} (hn : n ≤ 32) : ilog2 (2 ^ n) = n :=
  ilog2From_eq n 32 0 (Nat.zero_le n) (by omega)

/-- The two cells of a swap. -/
def swapCells (n i c : Nat) : Prop :=
  i < Radix2.rev n i ∧ (c = i ∨ c = Radix2.rev n i)

section

variable {n i : Nat} {out : Nat → Nat}

theorem swapRound_lower (h : i < Radix2.rev n i) : swapRound n out i i = out (Radix2.rev n i) := by
  rw [swapRound, bitrev_eq, if_pos h, Function.update_of_ne h.ne, Function.update_self]

theorem swapRound_upper (h : i < Radix2.rev n i) : swapRound n out i (Radix2.rev n i) = out i := by
  rw [swapRound, bitrev_eq, if_pos h, Function.update_self]

theorem swapRound_local (n : Nat) : InPlace.Local (swapRound n) (swapCells n) where
  keeps out i c hc := by
    rw [swapRound, bitrev_eq]
    split
    · rename_i hi
      have hlow : c ≠ i := fun h => hc ⟨hi, Or.inl h⟩
      have hup : c ≠ Radix2.rev n i := fun h => hc ⟨hi, Or.inr h⟩
      rw [Function.update_of_ne hup, Function.update_of_ne hlow]
    · rfl
  reads out out' i hagree := by
    rintro c ⟨hi, rfl | rfl⟩
    · rw [swapRound_lower hi, swapRound_lower hi, hagree _ ⟨hi, Or.inr rfl⟩]
    · rw [swapRound_upper hi, swapRound_upper hi, hagree _ ⟨hi, Or.inl rfl⟩]

/-- Reversal pairs the cells, so no cell is swapped twice. -/
theorem swapCells_apart (n : Nat) : InPlace.Apart (2 ^ n) (swapCells n) := by
  rintro i j c hi hj ⟨hup, hc⟩ ⟨hup', hc'⟩
  have hback := Radix2.rev_rev n i hi
  have hback' := Radix2.rev_rev n j hj
  rcases hc with rfl | rfl
  · rcases hc' with rfl | rfl
    · rfl
    · rw [hback'] at hup
      omega
  · rcases hc' with hc' | hc'
    · rw [← hc', hback] at hup'
      omega
    · rw [← hback, hc', hback']

theorem bitReverse_apply (n : Nat) (out : Nat → Nat) (c : Nat) :
    bitReverse (2 ^ n) n out c = if c < 2 ^ n then out (Radix2.rev n c) else out c := by
  have hlocal := swapRound_local n
  have hapart := swapCells_apart n
  rw [bitReverse]
  split
  · rename_i hc
    have hback := Radix2.rev_rev n c hc
    rcases lt_trichotomy c (Radix2.rev n c) with hlt | heq | hgt
    · rw [hlocal.foldl_own hapart hc ⟨hlt, Or.inl rfl⟩, swapRound_lower hlt]
    · -- a palindrome stays where it is
      rw [← heq]
      apply hlocal.foldl_other
      rintro i hi ⟨hup, rfl | hci⟩
      · omega
      · have hi' : i = c := by rw [← Radix2.rev_rev n i hi, ← hci, ← heq]
        rw [hi', ← heq] at hup
        omega
    · have hup : Radix2.rev n c < Radix2.rev n (Radix2.rev n c) := by rwa [hback]
      have hown := hlocal.foldl_own (s := out) hapart (Radix2.rev_lt n c) ⟨hup, Or.inr rfl⟩
      rwa [swapRound_upper hup, hback] at hown
  · rename_i hc
    apply hlocal.foldl_other
    rintro i hi ⟨_, rfl | rfl⟩
    · exact hc hi
    · exact hc (Radix2.rev_lt n i)

end

/-! What the loops leave -/

namespace Modulus

section

variable (M : Modulus)

theorem signedReduce_eq (x : Int) : (M.signedReduce x : Int) = x % M.q := by
  have hq : (0 : Int) < M.q := by exact_mod_cast M.q_pos
  have hlo := Int.emod_nonneg x hq.ne'
  have hhi := Int.emod_lt_of_pos x hq
  rw [signedReduce, Int.tmod_eq_emod, Int.natAbs_natCast]
  split
  · rw [Nat.cast_zero, sub_zero, if_neg (by omega), Int.toNat_of_nonneg hlo]
  · rw [if_pos (by omega), sub_add_cancel, Int.toNat_of_nonneg hlo]

theorem signedReduce_lt (x : Int) : M.signedReduce x < M.q := by
  have hhi := Int.emod_lt_of_pos x (show (0 : Int) < M.q by exact_mod_cast M.q_pos)
  rw [← M.signedReduce_eq] at hhi
  exact_mod_cast hhi

theorem signedReduce_cast (x : Int) : (M.signedReduce x : ZMod M.q) = x := by
  have hcast := congrArg (Int.cast : Int → ZMod M.q) (M.signedReduce_eq x)
  rwa [Int.cast_natCast, ZMod.intCast_mod] at hcast

end

variable {M : Modulus}

/-- What a butterfly with the twiddles `w` puts into its first cell. -/
def sumCell (M : Modulus) (w : Nat → Nat) (k u t : Nat) : Nat := M.modadd u (M.modmul t (w k))

/-- What it puts into its second cell. -/
def diffCell (M : Modulus) (w : Nat → Nat) (k u t : Nat) : Nat := M.modsub u (M.modmul t (w k))

theorem butterfly_lanes {half : Nat} (hhalf : 0 < half) (w : Nat → Nat) (i : Nat) :
    InPlace.Lanes 1 half (M.sumCell w) (M.diffCell w) i (M.butterfly half w i) where
  low out k l hl := by
    obtain rfl : l = 0 := by omega
    have hne : i + k ≠ i + k + half := by omega
    simp only [Nat.one_mul, Nat.add_zero, butterfly]
    rw [Function.update_of_ne hne, Function.update_self, Nat.add_right_comm]
    rfl
  high out k l hl := by
    obtain rfl : l = 0 := by omega
    simp only [Nat.one_mul, Nat.add_zero, butterfly]
    rw [Nat.add_right_comm, Function.update_self]
    rfl
  other out k c hc := by
    obtain ⟨hlow, hhigh⟩ := hc 0 Nat.one_pos
    simp only [Nat.one_mul, Nat.add_zero] at hlow hhigh
    rw [Nat.add_right_comm] at hhigh
    rw [butterfly, Function.update_of_ne hhigh, Function.update_of_ne hlow]

/-- A stage over the first `N` cells, cell by cell. -/
def stageCells (M : Modulus) (N half : Nat) (w out : Nat → Nat) (c : Nat) : Nat :=
  if c < N then InPlace.pairs half (M.sumCell w) (M.diffCell w) out c else out c

theorem stageScalar_eq {N half : Nat} (hhalf : 0 < half) (hN : 2 * half ∣ N) (w out : Nat → Nat) :
    M.stageScalar N half w out = M.stageCells N half w out := by
  funext c
  have hloop := InPlace.Lanes.loop (G := N / (2 * half)) (Nat.one_mul half).symm
    (butterfly_lanes (M := M) hhalf w) out c
  rwa [Nat.div_mul_cancel hN] at hloop

/-- Bit reversal and stages with the twiddles `w s` in stage `s`, over `2 ^ n` cells. -/
def transform (M : Modulus) (n : Nat) (w : Nat → Nat → Nat) (out : Nat → Nat) : Nat → Nat :=
  (List.range n).foldl (fun out s => M.stageCells (2 ^ n) (2 ^ s) (w s) out)
    (bitReverse (2 ^ n) n out)

theorem block_dvd {n s : Nat} (hs : s < n) : 2 * 2 ^ s ∣ 2 ^ n := by
  rw [← pow_succ']
  exact Nat.pow_dvd_pow 2 hs

/-! Residues -/

/-- The cells of an array of `N` are residues. -/
def Residues (M : Modulus) (N : Nat) (out : Nat → Nat) : Prop := ∀ c, c < N → out c < M.q

theorem preWeight_apply (N : Nat) (psiPow : Nat → Nat) (inp : Nat → Int) (out : Nat → Nat) {c : Nat}
    (hc : c < N) :
    M.preWeight N psiPow inp out c = M.modmul (M.signedReduce (inp c)) (psiPow c) :=
  if_pos hc

theorem preWeight_residues {N : Nat} {psiPow : Nat → Nat} (hpsi : M.Residues N psiPow)
    (inp : Nat → Int) (out : Nat → Nat) : M.Residues N (M.preWeight N psiPow inp out) := by
  intro c hc
  rw [preWeight_apply N psiPow inp out hc]
  exact modmul_lt (M.signedReduce_lt _) (hpsi c hc)

theorem bitReverse_residues {n : Nat} {out : Nat → Nat} (h : M.Residues (2 ^ n) out) :
    M.Residues (2 ^ n) (bitReverse (2 ^ n) n out) := by
  intro c hc
  rw [bitReverse_apply, if_pos hc]
  exact h _ (Radix2.rev_lt n c)

/-- The partner of a cell in the first half of its block lies in the array. -/
theorem partner_lt {N half c : Nat} (hN : 2 * half ∣ N) (hc : c < N)
    (hlow : c % (2 * half) < half) : c + half < N := by
  obtain ⟨G, rfl⟩ := hN
  have hdiv : c / (2 * half) < G := Nat.div_lt_of_lt_mul hc
  have hsplit := Nat.div_add_mod c (2 * half)
  have hblock : 2 * half * (c / (2 * half) + 1) ≤ 2 * half * G := Nat.mul_le_mul_left _ hdiv
  rw [Nat.mul_succ] at hblock
  omega

/-- The twiddle of a cell in the second half. -/
theorem high_index_lt {half c : Nat} (hhalf : 0 < half) (hhigh : ¬ c % (2 * half) < half) :
    c % (2 * half) - half < half := by
  have := Nat.mod_lt c (show 0 < 2 * half by omega)
  omega

/-- A stage keeps the residues, and over the ring it is a stage of butterflies. -/
theorem stageCells_spec {N half : Nat} (hhalf : 0 < half) (hN : 2 * half ∣ N) {w out : Nat → Nat}
    (hw : M.Residues half w) (hout : M.Residues N out) {c : Nat} (hc : c < N) :
    M.stageCells N half w out c < M.q ∧
      (M.stageCells N half w out c : ZMod M.q) =
        Radix2.butterflies half (fun k => (w k : ZMod M.q)) (fun c => (out c : ZMod M.q)) c := by
  rw [stageCells, if_pos hc, InPlace.pairs, Radix2.butterflies]
  split
  · rename_i hlow
    have hself := hout c hc
    have hpartner := hout _ (partner_lt hN hc hlow)
    have hmul := modmul_lt hpartner (hw _ hlow)
    exact ⟨modadd_lt hself hmul, by
      rw [sumCell, modadd_cast hself hmul, modmul_cast hpartner (hw _ hlow)]⟩
  · rename_i hhigh
    have hindex := hw _ (high_index_lt hhalf hhigh)
    have hself := hout c hc
    have hpartner := hout (c - half) (by omega)
    have hmul := modmul_lt hself hindex
    exact ⟨modsub_lt hpartner hmul, by
      rw [diffCell, modsub_cast hmul, modmul_cast hself hindex]⟩

theorem stageCells_residues {N half : Nat} (hhalf : 0 < half) (hN : 2 * half ∣ N)
    {w out : Nat → Nat} (hw : M.Residues half w) (hout : M.Residues N out) :
    M.Residues N (M.stageCells N half w out) :=
  fun _ hc => (stageCells_spec hhalf hN hw hout hc).1

/-- A stage reads the twiddles of its half and the cells of its array only. -/
theorem stageCells_congr {N half : Nat} (hhalf : 0 < half) (hN : 2 * half ∣ N)
    {w w' out out' : Nat → Nat} (hw : ∀ k, k < half → w k = w' k)
    (hout : ∀ c, c < N → out c = out' c) {c : Nat} (hc : c < N) :
    M.stageCells N half w out c = M.stageCells N half w' out' c := by
  rw [stageCells, stageCells, if_pos hc, if_pos hc, InPlace.pairs, InPlace.pairs]
  split
  · rename_i hlow
    rw [sumCell, sumCell, hw _ hlow, hout c hc, hout _ (partner_lt hN hc hlow)]
  · rename_i hhigh
    rw [diffCell, diffCell, hw _ (high_index_lt hhalf hhigh), hout c hc,
      hout _ ((Nat.sub_le c half).trans_lt hc)]

/-- The twiddles of every stage are residues. -/
def StageResidues (M : Modulus) (n : Nat) (w : Nat → Nat → Nat) : Prop :=
  ∀ s, s < n → M.Residues (2 ^ s) (w s)

/-- Stages over any state, each of which does to the array in it what the stage does cell by
cell as long as the array holds residues, make the transform. -/
theorem run_eq_transform {S : Type*} (view : S → Nat → Nat) (inv : Nat → S → Prop)
    {stage : S → Nat → S} {n : Nat} {w : Nat → Nat → Nat}
    (hstage : ∀ s st, s < n → inv s st → M.Residues (2 ^ n) (view st) →
      view (stage st s) = M.stageCells (2 ^ n) (2 ^ s) (w s) (view st) ∧ inv (s + 1) (stage st s))
    (hw : M.StageResidues n w) {st : S} (hinv : inv 0 st) {out : Nat → Nat}
    (hview : view st = bitReverse (2 ^ n) n out) (hout : M.Residues (2 ^ n) out) :
    view ((List.range n).foldl stage st) = M.transform n w out := by
  have hrun : ∀ t, t ≤ n →
      view ((List.range t).foldl stage st) =
        (List.range t).foldl (fun out s => M.stageCells (2 ^ n) (2 ^ s) (w s) out)
          (bitReverse (2 ^ n) n out) ∧
      inv t ((List.range t).foldl stage st) ∧
      M.Residues (2 ^ n) (view ((List.range t).foldl stage st)) := by
    intro t ht
    induction t with
    | zero =>
        refine ⟨hview, hinv, ?_⟩
        rw [List.range_zero, List.foldl_nil, hview]
        exact bitReverse_residues hout
    | succ t ih =>
        obtain ⟨heq, hinv', hres⟩ := ih (by omega)
        obtain ⟨hnext, hinv''⟩ := hstage t _ ht hinv' hres
        simp only [List.range_succ, List.foldl_append, List.foldl_cons, List.foldl_nil]
        refine ⟨?_, hinv'', ?_⟩
        · rw [hnext, heq]
        · rw [hnext]
          exact stageCells_residues (Nat.two_pow_pos t) (block_dvd ht) (hw t ht) hres
  exact (hrun n (Nat.le_refl n)).1

theorem transform_congr {n : Nat} {w w' : Nat → Nat → Nat} {out out' : Nat → Nat}
    (hw : ∀ s k, s < n → k < 2 ^ s → w s k = w' s k) (hout : ∀ c, c < 2 ^ n → out c = out' c)
    {c : Nat} (hc : c < 2 ^ n) : M.transform n w out c = M.transform n w' out' c := by
  have hrun : ∀ t, t ≤ n → ∀ c, c < 2 ^ n →
      (List.range t).foldl (fun out s => M.stageCells (2 ^ n) (2 ^ s) (w s) out)
        (bitReverse (2 ^ n) n out) c =
      (List.range t).foldl (fun out s => M.stageCells (2 ^ n) (2 ^ s) (w' s) out)
        (bitReverse (2 ^ n) n out') c := by
    intro t ht
    induction t with
    | zero =>
        intro c hc
        rw [List.range_zero, List.foldl_nil, List.foldl_nil, bitReverse_apply, bitReverse_apply,
          if_pos hc, if_pos hc, hout _ (Radix2.rev_lt n c)]
    | succ t ih =>
        intro c hc
        simp only [List.range_succ, List.foldl_append, List.foldl_cons, List.foldl_nil]
        exact stageCells_congr (Nat.two_pow_pos t) (block_dvd ht) (fun k hk => hw t k ht hk)
          (ih (by omega)) hc
  exact hrun n (Nat.le_refl n) c hc

/-- The scalar transform, with the tables it is given. -/
theorem forwardOne_eq {n : Nat} {psiPow wFwd : Nat → Nat} (hpsi : M.Residues (2 ^ n) psiPow)
    (hw : M.StageResidues n fun s k => wFwd (k * (2 ^ n / (2 * 2 ^ s)))) (inp : Nat → Int)
    (out : Nat → Nat) :
    M.forwardOne (2 ^ n) n psiPow wFwd inp out =
      M.transform n (fun s k => wFwd (k * (2 ^ n / (2 * 2 ^ s))))
        (M.preWeight (2 ^ n) psiPow inp out) := by
  have hstage : ∀ s out, s < n → True → M.Residues (2 ^ n) out →
      M.stageScalar (2 ^ n) (2 ^ s) (fun k => wFwd (k * (2 ^ n / (2 * 2 ^ s)))) out =
        M.stageCells (2 ^ n) (2 ^ s) (fun k => wFwd (k * (2 ^ n / (2 * 2 ^ s)))) out ∧ True :=
    fun s out hs _ _ => ⟨stageScalar_eq (Nat.two_pow_pos s) (block_dvd hs) _ out, trivial⟩
  exact run_eq_transform id (fun _ _ => True) hstage hw trivial rfl (preWeight_residues hpsi inp out)

/-- The twiddles of the stages are the powers of the root `ω`. -/
def Twiddles (M : Modulus) (n : Nat) (ω : ZMod M.q) (w : Nat → Nat → Nat) : Prop :=
  ∀ s k, s < n → k < 2 ^ s → w s k < M.q ∧ (w s k : ZMod M.q) = ω ^ (k * 2 ^ (n - 1 - s))

/-- Over the ring the transform is the radix-2 transform. -/
theorem transform_spec {n : Nat} {ω : ZMod M.q} {w : Nat → Nat → Nat} (hw : M.Twiddles n ω w)
    {out : Nat → Nat} (hout : M.Residues (2 ^ n) out) {c : Nat} (hc : c < 2 ^ n) :
    M.transform n w out c < M.q ∧
      (M.transform n w out c : ZMod M.q) =
        Radix2.stages n ω (fun c => (out c : ZMod M.q)) n c := by
  have hrun : ∀ t, t ≤ n → ∀ c, c < 2 ^ n →
      (List.range t).foldl (fun out s => M.stageCells (2 ^ n) (2 ^ s) (w s) out)
        (bitReverse (2 ^ n) n out) c < M.q ∧
      ((List.range t).foldl (fun out s => M.stageCells (2 ^ n) (2 ^ s) (w s) out)
        (bitReverse (2 ^ n) n out) c : ZMod M.q) =
        Radix2.stages n ω (fun c => (out c : ZMod M.q)) t c := by
    intro t ht
    induction t with
    | zero =>
        intro c hc
        refine ⟨bitReverse_residues hout c hc, ?_⟩
        rw [List.range_zero, List.foldl_nil, bitReverse_apply, if_pos hc]
        rfl
    | succ t ih =>
        intro c hc
        have hprev := ih (by omega)
        have hblock : 2 * 2 ^ t ∣ 2 ^ n := block_dvd ht
        rw [List.range_succ, List.foldl_append, List.foldl_cons, List.foldl_nil]
        obtain ⟨hlt, hcast⟩ := stageCells_spec (Nat.two_pow_pos t) hblock
          (fun k hk => (hw t k ht hk).1) (fun c hc => (hprev c hc).1) hc
        refine ⟨hlt, ?_⟩
        rw [hcast, Radix2.stages_succ, Radix2.butterflies, Radix2.butterflies]
        split
        · rename_i hlow
          rw [(hprev c hc).2, (hprev _ (partner_lt hblock hc hlow)).2, (hw t _ ht hlow).2]
        · rename_i hhigh
          rw [(hprev c hc).2, (hprev _ ((Nat.sub_le c (2 ^ t)).trans_lt hc)).2,
            (hw t _ ht (high_index_lt (Nat.two_pow_pos t) hhigh)).2]
  exact hrun n (Nat.le_refl n) c hc

end Modulus

end ShannonPrime.Ntt
