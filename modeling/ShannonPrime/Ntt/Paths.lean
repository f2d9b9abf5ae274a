import ShannonPrime.Ntt.Hvx
import ShannonPrime.Ntt.Twiddle

/-!
The three entries of the forward transform: the scalar oracle, the vector oracle with the
tables of its call (`sp_compute_ntt_hvx_imp.c`), and the vector oracle over the context's
tables (`sp_compute_ntt_hvx_vtcm_imp.c`). They answer the same words.
-/

namespace ShannonPrime.Ntt

open Buffer (forCells vec)

/-- The locals of a call, with whatever is in them. -/
structure Locals where
  psiPow : Nat → Nat
  wFwd : Nat → Nat
  twiddles : Nat → Nat
  out : Nat → Nat

/-- `sp_compute_ntt_oracle` -/
def oracle (p : Prime) (size : Size) (inp : Nat → Int) (locals : Locals) : Option (List Nat) :=
  let M := p.modulus
  let N := size.len
  let psi := M.findPsi N
  if psi = 0 then none
  else
    let omega := M.modmul psi psi
    let psiPow := M.powers psi 0 N locals.psiPow
    let wFwd := M.powers omega 0 (N / 2) locals.wFwd
    some (vec N (M.forwardOne N (ilog2 N) psiPow wFwd inp locals.out))

/-- `sp_compute_ntt_hvx_oracle` -/
def hvxOracle (p : Prime) (size : Size) (inp : Nat → Int) (locals : Locals) : Option (List Nat) :=
  let M := p.modulus
  let N := size.len
  let psi := M.findPsi N
  if psi = 0 then none
  else
    let omega := M.modmul psi psi
    let psiPow := M.powers psi 0 N locals.psiPow
    let wFwd := M.powers omega 0 (N / 2) locals.wFwd
    some (vec N (Hvx.forwardOne M N (ilog2 N) psiPow wFwd inp locals.out locals.twiddles))

namespace Vtcm

/-- One stage of `sp_ntt3_forward_one_hvx_vtcm`, over the array and the scratch of twiddles;
stage `s + 1` has its twiddles at `2 ^ s - 1`. -/
def forwardStage (M : Modulus) (N : Nat) (wFwdStages : Nat → Nat)
    (st : (Nat → Nat) × (Nat → Nat)) (s : Nat) : (Nat → Nat) × (Nat → Nat) :=
  let half := 2 ^ s
  let src := fun k => wFwdStages (2 ^ s - 1 + k)
  if half ≥ 32 then
    let wScratch := forCells half (fun k _ => src k) st.2
    (Hvx.stage M N half wScratch st.1, wScratch)
  else (M.stageScalar N half src st.1, st.2)

/-- `sp_ntt3_forward_one_hvx_vtcm` -/
def forwardOne (M : Modulus) (N logN : Nat) (psiPow wFwdStages : Nat → Nat) (inp : Nat → Int)
    (out scratch : Nat → Nat) : Nat → Nat :=
  ((List.range logN).foldl (forwardStage M N wFwdStages)
    (bitReverse N logN (M.preWeight N psiPow inp out), scratch)).1

/-- `sp_compute_ntt_hvx_vtcm_oracle`, with the context that `sp_compute_ntt_twiddle_view` finds. -/
def oracle (ctx : Option Context) (p : Prime) (size : Size) (inp : Nat → Int) (locals : Locals) :
    Option (List Nat) := do
  let v ← ctx
  if v.modulus.q ≠ p.modulus.q ∨ v.modulus.mu ≠ p.modulus.mu ∨ size.len ≠ v.N then none
  else
    let N := size.len
    some (vec N (forwardOne v.modulus N (ilog2 N) v.psiPow v.wFwdStages inp locals.out
      locals.twiddles))

end Vtcm

/-! Each is the transform -/

section

variable {M : Modulus} {n : Nat}

/-- A long stage is made of whole vectors. -/
theorem long_stage {s : Nat} (h : 2 ^ s ≥ 32) : 32 ∣ 2 ^ s := by
  have hfive : 5 ≤ s := by
    by_contra hshort
    have hle : 2 ^ s ≤ 2 ^ 4 := Nat.pow_le_pow_right (by omega) (by omega)
    omega
  exact Nat.pow_dvd_pow 2 hfive

/-- Stages with the same twiddles are the same. -/
theorem stageCells_twiddles {s : Nat} (hs : s < n) {w w' : Nat → Nat}
    (hw : ∀ k, k < 2 ^ s → w k = w' k) (out : Nat → Nat) :
    M.stageCells (2 ^ n) (2 ^ s) w out = M.stageCells (2 ^ n) (2 ^ s) w' out := by
  funext c
  rcases Nat.lt_or_ge c (2 ^ n) with hc | hc
  · exact Modulus.stageCells_congr (Nat.two_pow_pos s) (Modulus.block_dvd hs) hw
      (fun _ _ => rfl) hc
  · exact (if_neg (Nat.not_lt.mpr hc)).trans (if_neg (Nat.not_lt.mpr hc)).symm

/-- A stage that runs on vectors once it is long enough, its twiddles copied to the scratch. -/
def mixedStage (M : Modulus) (N : Nat) (w : Nat → Nat) (st : (Nat → Nat) × (Nat → Nat)) (s : Nat) :
    (Nat → Nat) × (Nat → Nat) :=
  if 2 ^ s ≥ 32 then
    (Hvx.stage M N (2 ^ s) (forCells (2 ^ s) (fun k _ => w k) st.2) st.1,
      forCells (2 ^ s) (fun k _ => w k) st.2)
  else (M.stageScalar N (2 ^ s) w st.1, st.2)

theorem mixedStage_eq {s : Nat} (hs : s < n) {w : Nat → Nat} {st : (Nat → Nat) × (Nat → Nat)}
    (hw : M.Residues (2 ^ s) w) (hout : M.Residues (2 ^ n) st.1) :
    (mixedStage M (2 ^ n) w st s).1 = M.stageCells (2 ^ n) (2 ^ s) w st.1 := by
  have hblock := Modulus.block_dvd hs
  rw [mixedStage]
  split
  · rename_i hlong
    have hvectors : 32 ∣ 2 ^ s := long_stage hlong
    have hcopy : ∀ k, k < 2 ^ s → forCells (2 ^ s) (fun k _ => w k) st.2 k = w k :=
      fun k hk => if_pos hk
    have hscratch : M.Residues (2 ^ s) (forCells (2 ^ s) (fun k _ => w k) st.2) := by
      intro k hk
      rw [hcopy k hk]
      exact hw k hk
    rw [Hvx.stage_eq hvectors hlong hblock hscratch hout]
    exact stageCells_twiddles hs hcopy st.1
  · exact Modulus.stageScalar_eq (Nat.two_pow_pos s) hblock w st.1

/-- The vector paths, with the tables they are given. -/
theorem foldl_mixedStage {w : Nat → Nat → Nat} (hw : M.StageResidues n w) {out : Nat → Nat}
    (hout : M.Residues (2 ^ n) out) (scratch : Nat → Nat) :
    ((List.range n).foldl (fun st s => mixedStage M (2 ^ n) (w s) st s)
      (bitReverse (2 ^ n) n out, scratch)).1 = M.transform n w out := by
  have hstage : ∀ s (st : (Nat → Nat) × (Nat → Nat)), s < n → True → M.Residues (2 ^ n) st.1 →
      (mixedStage M (2 ^ n) (w s) st s).1 = M.stageCells (2 ^ n) (2 ^ s) (w s) st.1 ∧ True :=
    fun s st hs _ hres => ⟨mixedStage_eq hs (hw s hs) hres, trivial⟩
  exact Modulus.run_eq_transform Prod.fst (fun _ _ => True) hstage hw trivial rfl hout

theorem Hvx.forwardOne_eq {psiPow wFwd : Nat → Nat} (hpsi : M.Residues (2 ^ n) psiPow)
    (hw : M.StageResidues n fun s k => wFwd (k * (2 ^ n / (2 * 2 ^ s)))) (inp : Nat → Int)
    (out scratch : Nat → Nat) :
    Hvx.forwardOne M (2 ^ n) n psiPow wFwd inp out scratch =
      M.transform n (fun s k => wFwd (k * (2 ^ n / (2 * 2 ^ s))))
        (M.preWeight (2 ^ n) psiPow inp out) :=
  foldl_mixedStage hw (Modulus.preWeight_residues hpsi inp out) scratch

theorem Vtcm.forwardOne_eq {psiPow wFwdStages : Nat → Nat} (hpsi : M.Residues (2 ^ n) psiPow)
    (hw : M.StageResidues n fun s k => wFwdStages (2 ^ s - 1 + k)) (inp : Nat → Int)
    (out scratch : Nat → Nat) :
    Vtcm.forwardOne M (2 ^ n) n psiPow wFwdStages inp out scratch =
      M.transform n (fun s k => wFwdStages (2 ^ s - 1 + k))
        (M.preWeight (2 ^ n) psiPow inp out) :=
  foldl_mixedStage hw (Modulus.preWeight_residues hpsi inp out) scratch

end

/-! The tables of a prime and a length -/

section

variable (p : Prime) (size : Size)

/-- The twiddles of the forward stages. -/
def fwdTwiddle (s k : Nat) : Nat :=
  omegaOf p size ^ (k * (size.len / (2 * 2 ^ s))) % p.modulus.q

/-- The weighted input. -/
def weighted (inp : Nat → Int) (j : Nat) : Nat :=
  p.modulus.modmul (p.modulus.signedReduce (inp j)) (psiOf p size ^ j % p.modulus.q)

/-- The transform of an input, as all paths have it. -/
def forwardWords (inp : Nat → Int) : List Nat :=
  vec size.len (p.modulus.transform size.log (fwdTwiddle p size) (weighted p size inp))

theorem mod_residue (x : Nat) : x % p.modulus.q < p.modulus.q := Nat.mod_lt _ p.modulus.q_pos

variable {p size}

/-- Tables with the right powers in them give the transform. -/
theorem vec_transform {psiPow : Nat → Nat} {w : Nat → Nat → Nat} (inp : Nat → Int)
    (out : Nat → Nat) (hpsi : ∀ j, j < size.len → psiPow j = psiOf p size ^ j % p.modulus.q)
    (hw : ∀ s k, s < size.log → k < 2 ^ s → w s k = fwdTwiddle p size s k) :
    vec size.len (p.modulus.transform size.log w
      (p.modulus.preWeight size.len psiPow inp out)) = forwardWords p size inp := by
  apply Buffer.vec_congr
  intro c hc
  apply Modulus.transform_congr hw _ hc
  intro j hj
  have hcell := Modulus.preWeight_apply (M := p.modulus) size.len psiPow inp out hj
  rw [hcell, hpsi j hj]
  rfl

theorem residues_of_eq {psiPow : Nat → Nat}
    (hpsi : ∀ j, j < size.len → psiPow j = psiOf p size ^ j % p.modulus.q) :
    p.modulus.Residues (2 ^ size.log) psiPow := by
  intro j hj
  rw [hpsi j hj]
  exact mod_residue p _

theorem stageResidues_of_eq {w : Nat → Nat → Nat}
    (hw : ∀ s k, s < size.log → k < 2 ^ s → w s k = fwdTwiddle p size s k) :
    p.modulus.StageResidues size.log w := by
  intro s hs k hk
  rw [hw s k hs hk]
  exact mod_residue p _

end

/-! The tables of a call -/

section

variable (p : Prime) (size : Size) (locals : Locals)

theorem call_psiPow (j : Nat) (hj : j < size.len) :
    p.modulus.powers (psiOf p size) 0 size.len locals.psiPow j =
      psiOf p size ^ j % p.modulus.q := by
  rw [Modulus.powers_eq (psiOf_spec p size).1]
  have hcell : Buffer.store locals.psiPow 0 size.len (fun j => psiOf p size ^ j % p.modulus.q)
      (0 + j) = psiOf p size ^ j % p.modulus.q := Buffer.store_inside hj
  rwa [Nat.zero_add] at hcell

theorem call_wFwd (s k : Nat) (hs : s < size.log) (hk : k < 2 ^ s) :
    p.modulus.powers (omegaOf p size) 0 (size.len / 2) locals.wFwd
      (k * (size.len / (2 * 2 ^ s))) = fwdTwiddle p size s k := by
  rw [Modulus.powers_eq (omegaOf_lt p size)]
  have hcell : Buffer.store locals.wFwd 0 (size.len / 2)
      (fun j => omegaOf p size ^ j % p.modulus.q) (0 + k * (size.len / (2 * 2 ^ s))) =
        fwdTwiddle p size s k := Buffer.store_inside (Arena.stride_lt hs hk)
  rwa [Nat.zero_add] at hcell

theorem oracle_eq (inp : Nat → Int) : oracle p size inp locals = some (forwardWords p size inp) := by
  have hwords := vec_transform inp locals.out (call_psiPow p size locals) (call_wFwd p size locals)
  have hrun := Modulus.forwardOne_eq (residues_of_eq (call_psiPow p size locals))
    (stageResidues_of_eq (call_wFwd p size locals)) inp locals.out
  simp only [oracle]
  rw [if_neg (findPsi_ne_zero p size), ilog2_len, ← hwords]
  exact congrArg (fun out => some (vec size.len out)) hrun

theorem hvxOracle_eq (inp : Nat → Int) :
    hvxOracle p size inp locals = some (forwardWords p size inp) := by
  have hwords := vec_transform inp locals.out (call_psiPow p size locals) (call_wFwd p size locals)
  have hrun := Hvx.forwardOne_eq (residues_of_eq (call_psiPow p size locals))
    (stageResidues_of_eq (call_wFwd p size locals)) inp locals.out locals.twiddles
  simp only [hvxOracle]
  rw [if_neg (findPsi_ne_zero p size), ilog2_len, ← hwords]
  exact congrArg (fun out => some (vec size.len out)) hrun

end

/-! The tables of a context -/

theorem Context.Built.fwdTwiddle {c : Context} {p : Prime} {size : Size} (h : c.Built p size)
    (s k : Nat) (hs : s < size.log) (hk : k < 2 ^ s) :
    c.wFwdStages (2 ^ s - 1 + k) = Ntt.fwdTwiddle p size s k := by
  have htable : c.wFwd (k * (size.len / (2 * 2 ^ s))) = _ := h.wFwd _ (Arena.stride_lt hs hk)
  rw [h.fwdStages s k hs hk, htable]
  rfl

theorem Vtcm.oracle_eq {c : Context} {p : Prime} {size : Size} (h : c.Built p size)
    (inp : Nat → Int) (locals : Locals) :
    Vtcm.oracle (some c) p size inp locals = some (forwardWords p size inp) := by
  have hwords := vec_transform inp locals.out h.psiPow h.fwdTwiddle
  have hrun := Vtcm.forwardOne_eq (residues_of_eq h.psiPow) (stageResidues_of_eq h.fwdTwiddle) inp
    locals.out locals.twiddles
  have hview : ¬ (c.modulus.q ≠ p.modulus.q ∨ c.modulus.mu ≠ p.modulus.mu ∨ size.len ≠ c.N) := by
    rw [h.modulus, h.len]
    simp
  simp only [Vtcm.oracle, Option.bind_eq_bind, Option.bind_some]
  rw [if_neg hview, h.modulus, ilog2_len, ← hwords]
  exact congrArg (fun out => some (vec size.len out)) hrun

/-- The three paths answer the same words, whatever is in their locals and in the arena. -/
theorem forward_paths_agree (p : Prime) (size : Size) (inp : Nat → Int) (arena : Nat → Nat)
    (scalar hvx vtcm : Locals) :
    ∃ words, oracle p size inp scalar = some words ∧ hvxOracle p size inp hvx = some words ∧
      Vtcm.oracle (initOne p size arena) p size inp vtcm = some words := by
  obtain ⟨c, hinit, hbuilt⟩ := initOne_spec p size arena
  refine ⟨forwardWords p size inp, oracle_eq p size scalar inp, hvxOracle_eq p size hvx inp, ?_⟩
  rw [hinit]
  exact Vtcm.oracle_eq hbuilt inp vtcm

end ShannonPrime.Ntt
