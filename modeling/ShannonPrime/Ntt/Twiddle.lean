import ShannonPrime.Ntt.Scalar

/-!
The twiddle contexts (`sp_compute_ntt_twiddle.c`): for a prime and a length the tables of
powers and the tables of the stages, laid out in one arena.
-/

namespace ShannonPrime.Ntt

open Function (update)

namespace Modulus

/-- `acc = 1 % q; for (j = 0; j < n; j++) { tab[j] = acc; acc = acc * base; }`, the table at
`off`. -/
def powers (M : Modulus) (base off n : Nat) (mem : Nat → Nat) : Nat → Nat :=
  ((List.range n).foldl
    (fun st j => (update st.1 (off + j) st.2, M.modmul st.2 base)) (mem, 1 % M.q)).1

end Modulus

/-! The arena, in words -/

namespace Arena

def psiPow : Nat := 0

def ipsiPow (N : Nat) : Nat := psiPow + N

def wFwd (N : Nat) : Nat := ipsiPow N + N

def wInv (N : Nat) : Nat := wFwd N + N / 2

def wFwdStages (N : Nat) : Nat := wInv N + N / 2

def wInvStages (N : Nat) : Nat := wFwdStages N + (N - 1)

/-- One twiddle of a stage, copied to both tables of the stages. -/
def compactOne (N step off : Nat) (mem : Nat → Nat) (k : Nat) : Nat → Nat :=
  let mem := update mem (wFwdStages N + (off + k)) (mem (wFwd N + k * step))
  update mem (wInvStages N + (off + k)) (mem (wInv N + k * step))

/-- The stages one after another, each where the one before ended. -/
def compact (N logN : Nat) (mem : Nat → Nat) : (Nat → Nat) × Nat :=
  (List.range logN).foldl
    (fun st s =>
      ((List.range (2 ^ s)).foldl (compactOne N (N / (2 * 2 ^ s)) st.2) st.1, st.2 + 2 ^ s))
    (mem, 0)

end Arena

/-- `sp_tw_one_ctx`, with the arena it points to. -/
structure Context where
  N : Nat
  modulus : Modulus
  psi : Nat
  ipsi : Nat
  ninv : Nat
  vtcm : Nat → Nat

namespace Context

def psiPow (c : Context) (j : Nat) : Nat := c.vtcm (Arena.psiPow + j)

def ipsiPow (c : Context) (j : Nat) : Nat := c.vtcm (Arena.ipsiPow c.N + j)

def wFwd (c : Context) (j : Nat) : Nat := c.vtcm (Arena.wFwd c.N + j)

def wInv (c : Context) (j : Nat) : Nat := c.vtcm (Arena.wInv c.N + j)

def wFwdStages (c : Context) (j : Nat) : Nat := c.vtcm (Arena.wFwdStages c.N + j)

def wInvStages (c : Context) (j : Nat) : Nat := c.vtcm (Arena.wInvStages c.N + j)

end Context

/-- The tables of the powers of both roots and of their squares. -/
def fillPowers (M : Modulus) (N psi ipsi : Nat) (mem : Nat → Nat) : Nat → Nat :=
  let omega := M.modmul psi psi
  let iomega := M.modmul ipsi ipsi
  let mem := M.powers psi Arena.psiPow N mem
  let mem := M.powers ipsi (Arena.ipsiPow N) N mem
  let mem := M.powers omega (Arena.wFwd N) (N / 2) mem
  M.powers iomega (Arena.wInv N) (N / 2) mem

/-- `sp_tw_init_one`, over the arena that was granted. -/
def initOne (p : Prime) (size : Size) (arena : Nat → Nat) : Option Context :=
  let M := p.modulus
  let N := size.len
  let psi := M.findPsi N
  if psi = 0 then none
  else
    let ipsi := M.modinv psi
    let ninv := M.modinv (N % M.q)
    let st := Arena.compact N (ilog2 N) (fillPowers M N psi ipsi arena)
    if st.2 ≠ N - 1 then none
    else some { N := N, modulus := M, psi := psi, ipsi := ipsi, ninv := ninv, vtcm := st.1 }

/-! The tables -/

/-- A table filled cell after cell. -/
theorem store_succ (mem : Nat → Nat) (off n : Nat) (v : Nat → Nat) :
    Buffer.store mem off (n + 1) v = update (Buffer.store mem off n v) (off + n) (v n) := by
  funext c
  rcases eq_or_ne c (off + n) with rfl | hne
  · rw [Function.update_self, Buffer.store_inside (Nat.lt_succ_self n)]
  · rw [Function.update_of_ne hne]
    rcases Nat.lt_or_ge c (off + n) with hlt | hge
    · rcases Nat.lt_or_ge c off with hbefore | hfrom
      · rw [Buffer.store_outside (Or.inl hbefore), Buffer.store_outside (Or.inl hbefore)]
      · obtain ⟨j, rfl⟩ := Nat.exists_eq_add_of_le hfrom
        rw [Buffer.store_inside (by omega), Buffer.store_inside (by omega)]
    · rw [Buffer.store_outside (Or.inr (by omega)), Buffer.store_outside (Or.inr hge)]

namespace Modulus

variable {M : Modulus} {base : Nat}

/-- A table holds the powers, and nothing else is written. -/
theorem powers_eq (hbase : base < M.q) (off n : Nat) (mem : Nat → Nat) :
    M.powers base off n mem = Buffer.store mem off n fun j => base ^ j % M.q := by
  have hloop : (List.range n).foldl
      (fun st j => (update st.1 (off + j) st.2, M.modmul st.2 base)) (mem, 1 % M.q) =
        (Buffer.store mem off n fun j => base ^ j % M.q, base ^ n % M.q) := by
    induction n with
    | zero =>
        have hnone : Buffer.store mem off 0 (fun j => base ^ j % M.q) = mem := by
          funext c
          exact Buffer.store_outside (by omega)
        rw [List.range_zero, List.foldl_nil, hnone, pow_zero]
    | succ n ih =>
        rw [List.range_succ, List.foldl_append, ih, List.foldl_cons, List.foldl_nil, store_succ,
          modmul_eq (Nat.mod_lt _ M.q_pos) hbase, Nat.mod_mul_mod, pow_succ]
  rw [powers, hloop]

end Modulus

namespace Arena

/-- The twiddles of one stage: the tables before the stages and the stages before this one
stay, and the stage is copied. -/
theorem compactOne_loop {N step : Nat} (off half : Nat) (hroom : off + half ≤ N - 1)
    (hstep : ∀ k, k < half → k * step < N / 2) (mem : Nat → Nat) :
    (∀ c, c < wFwdStages N →
      (List.range half).foldl (compactOne N step off) mem c = mem c) ∧
    (∀ j, j < off →
      (List.range half).foldl (compactOne N step off) mem (wFwdStages N + j) =
        mem (wFwdStages N + j) ∧
      (List.range half).foldl (compactOne N step off) mem (wInvStages N + j) =
        mem (wInvStages N + j)) ∧
    ∀ k, k < half →
      (List.range half).foldl (compactOne N step off) mem (wFwdStages N + (off + k)) =
        mem (wFwd N + k * step) ∧
      (List.range half).foldl (compactOne N step off) mem (wInvStages N + (off + k)) =
        mem (wInv N + k * step) := by
  have hlayout : wInvStages N = wFwdStages N + (N - 1) := rfl
  have hfwd : wInv N = wFwd N + N / 2 := rfl
  have hinv : wFwdStages N = wInv N + N / 2 := rfl
  induction half with
  | zero => exact ⟨fun _ _ => rfl, fun _ _ => ⟨rfl, rfl⟩, fun k hk => absurd hk (Nat.not_lt_zero k)⟩
  | succ half ih =>
      obtain ⟨hbefore, hstages, hcopied⟩ := ih (by omega) fun k hk => hstep k (by omega)
      have hread := hstep half (Nat.lt_succ_self half)
      rw [List.range_succ, List.foldl_append, List.foldl_cons, List.foldl_nil]
      generalize (List.range half).foldl (compactOne N step off) mem = mem' at *
      have hkeep : ∀ c, c ≠ wFwdStages N + (off + half) → c ≠ wInvStages N + (off + half) →
          compactOne N step off mem' half c = mem' c := by
        intro c hc hc'
        rw [compactOne, Function.update_of_ne hc', Function.update_of_ne hc]
      refine ⟨fun c hc => ?_, fun j hj => ⟨?_, ?_⟩, fun k hk => ?_⟩
      · rw [hkeep c (by omega) (by omega), hbefore c hc]
      · rw [hkeep _ (by omega) (by omega), (hstages j hj).1]
      · rw [hkeep _ (by omega) (by omega), (hstages j hj).2]
      · rcases Nat.lt_succ_iff_lt_or_eq.mp hk with hlt | rfl
        · rw [hkeep _ (by omega) (by omega), hkeep _ (by omega) (by omega)]
          exact hcopied k hlt
        · have hne : wInv N + k * step ≠ wFwdStages N + (off + k) := by omega
          have hne' : wFwdStages N + (off + k) ≠ wInvStages N + (off + k) := by omega
          constructor
          · rw [compactOne, Function.update_of_ne hne', Function.update_self,
              hbefore _ (by omega)]
          · rw [compactOne, Function.update_self, Function.update_of_ne hne, hbefore _ (by omega)]

theorem stride_eq {n s : Nat} (hs : s < n) : 2 ^ n / (2 * 2 ^ s) = 2 ^ (n - 1 - s) := by
  have hexp : n - (s + 1) = n - 1 - s := by omega
  rw [← pow_succ', Nat.pow_div hs (by omega), hexp]

theorem half_eq {n : Nat} (hn : 0 < n) : 2 ^ n / 2 = 2 ^ (n - 1) := by
  obtain ⟨m, rfl⟩ := Nat.exists_eq_add_of_lt hn
  rw [zero_add, pow_succ, Nat.mul_div_cancel _ (by omega), Nat.add_sub_cancel]

/-- A twiddle of a stage lies in the table it is copied from. -/
theorem stride_lt {n s k : Nat} (hs : s < n) (hk : k < 2 ^ s) :
    k * (2 ^ n / (2 * 2 ^ s)) < 2 ^ n / 2 := by
  have hsplit : n - 1 = s + (n - 1 - s) := by omega
  calc k * (2 ^ n / (2 * 2 ^ s)) = k * 2 ^ (n - 1 - s) := by rw [stride_eq hs]
    _ < 2 ^ s * 2 ^ (n - 1 - s) := Nat.mul_lt_mul_of_pos_right hk (Nat.two_pow_pos _)
    _ = 2 ^ n / 2 := by rw [← pow_add, ← hsplit, half_eq (by omega)]

theorem compact_succ (N t : Nat) (mem : Nat → Nat) :
    compact N (t + 1) mem =
      ((List.range (2 ^ t)).foldl (compactOne N (N / (2 * 2 ^ t)) (compact N t mem).2)
        (compact N t mem).1, (compact N t mem).2 + 2 ^ t) := by
  simp only [compact, List.range_succ, List.foldl_append, List.foldl_cons, List.foldl_nil]

/-- The stages below `t`, each in its place; the tables they came from are kept. -/
theorem compact_spec {n t : Nat} (ht : t ≤ n) (mem : Nat → Nat) :
    (compact (2 ^ n) t mem).2 = 2 ^ t - 1 ∧
    (∀ c, c < wFwdStages (2 ^ n) → (compact (2 ^ n) t mem).1 c = mem c) ∧
    ∀ s k, s < t → k < 2 ^ s →
      (compact (2 ^ n) t mem).1 (wFwdStages (2 ^ n) + (2 ^ s - 1 + k)) =
        mem (wFwd (2 ^ n) + k * (2 ^ n / (2 * 2 ^ s))) ∧
      (compact (2 ^ n) t mem).1 (wInvStages (2 ^ n) + (2 ^ s - 1 + k)) =
        mem (wInv (2 ^ n) + k * (2 ^ n / (2 * 2 ^ s))) := by
  induction t with
  | zero => exact ⟨rfl, fun _ _ => rfl, fun s k hs => absurd hs (Nat.not_lt_zero s)⟩
  | succ t ih =>
      obtain ⟨hoff, htables, hstages⟩ := ih (by omega)
      simp only [compact_succ]
      generalize compact (2 ^ n) t mem = st at hoff htables hstages ⊢
      have hpos := Nat.two_pow_pos t
      have hdouble : 2 ^ (t + 1) = 2 * 2 ^ t := pow_succ' 2 t
      have hlen : 2 ^ (t + 1) ≤ 2 ^ n := Nat.pow_le_pow_right (by omega) ht
      have hread : ∀ k, k < 2 ^ t → k * (2 ^ n / (2 * 2 ^ t)) < 2 ^ n / 2 := fun k hk =>
        stride_lt ht hk
      obtain ⟨hbefore, hearlier, hcopied⟩ :=
        compactOne_loop st.2 (2 ^ t) (by omega) hread st.1
      have hfwd : wInv (2 ^ n) = wFwd (2 ^ n) + 2 ^ n / 2 := rfl
      have hinv : wFwdStages (2 ^ n) = wInv (2 ^ n) + 2 ^ n / 2 := rfl
      refine ⟨by omega, fun c hc => (hbefore c hc).trans (htables c hc), fun s k hs hk => ?_⟩
      rcases Nat.lt_succ_iff_lt_or_eq.mp hs with hlt | rfl
      · have hplace : 2 ^ s - 1 + k < st.2 := by
          have hnext : 2 ^ (s + 1) ≤ 2 ^ t := Nat.pow_le_pow_right (by omega) hlt
          have hdouble' : 2 ^ (s + 1) = 2 * 2 ^ s := pow_succ' 2 s
          have hpos' := Nat.two_pow_pos s
          omega
        rw [(hearlier _ hplace).1, (hearlier _ hplace).2]
        exact hstages s k hlt hk
      · have hsource := hread k hk
        rw [← hoff, (hcopied k hk).1, (hcopied k hk).2, htables _ (by omega), htables _ (by omega)]
        exact ⟨rfl, rfl⟩

/-- The four tables of powers lie side by side. -/
theorem tables_apart {N j : Nat} (psi ipsi w w' mem : Nat → Nat) :
    let tables := Buffer.store (Buffer.store (Buffer.store (Buffer.store mem psiPow N psi)
      (ipsiPow N) N ipsi) (wFwd N) (N / 2) w) (wInv N) (N / 2) w'
    (j < N → tables (psiPow + j) = psi j ∧ tables (ipsiPow N + j) = ipsi j) ∧
    (j < N / 2 → tables (wFwd N + j) = w j ∧ tables (wInv N + j) = w' j) := by
  have hipsi : ipsiPow N = psiPow + N := rfl
  have hfwd : wFwd N = ipsiPow N + N := rfl
  have hinv : wInv N = wFwd N + N / 2 := rfl
  refine ⟨fun hj => ⟨?_, ?_⟩, fun hj => ⟨?_, ?_⟩⟩
  · rw [Buffer.store_outside (by omega), Buffer.store_outside (by omega),
      Buffer.store_outside (by omega), Buffer.store_inside hj]
  · rw [Buffer.store_outside (by omega), Buffer.store_outside (by omega), Buffer.store_inside hj]
  · rw [Buffer.store_outside (by omega), Buffer.store_inside hj]
  · exact Buffer.store_inside hj

end Arena

/-! What a context holds -/

theorem Size.len_eq (size : Size) : size.len = 2 ^ size.log := rfl

theorem Size.log_pos (size : Size) : 0 < size.log := by
  cases size <;> decide

theorem Size.log_le (size : Size) : size.log ≤ 9 := by
  cases size <;> decide

theorem ilog2_len (size : Size) : ilog2 size.len = size.log :=
  ilog2_two_pow (size.log_le.trans (by omega))

/-- The search ends on a root for every prime and length. -/
theorem findPsi_ne_zero (p : Prime) (size : Size) : p.modulus.findPsi size.len ≠ 0 := by
  cases p <;> cases size <;> decide +kernel

/-- The length has the inverse that Fermat promises. -/
theorem len_modinv (p : Prime) (size : Size) :
    size.len * p.modulus.modinv (size.len % p.modulus.q) % p.modulus.q = 1 := by
  cases p <;> cases size <;> decide +kernel

/-- The root and its inverse, of the length's context. -/
def psiOf (p : Prime) (size : Size) : Nat := p.modulus.findPsi size.len

def ipsiOf (p : Prime) (size : Size) : Nat := p.modulus.modinv (psiOf p size)

def omegaOf (p : Prime) (size : Size) : Nat := p.modulus.modmul (psiOf p size) (psiOf p size)

def iomegaOf (p : Prime) (size : Size) : Nat := p.modulus.modmul (ipsiOf p size) (ipsiOf p size)

/-- The tables of a context of this prime and length. -/
structure Context.Built (c : Context) (p : Prime) (size : Size) : Prop where
  len : c.N = size.len
  modulus : c.modulus = p.modulus
  ninv : c.ninv = p.modulus.modinv (size.len % p.modulus.q)
  psiPow : ∀ j, j < size.len → c.psiPow j = psiOf p size ^ j % p.modulus.q
  ipsiPow : ∀ j, j < size.len → c.ipsiPow j = ipsiOf p size ^ j % p.modulus.q
  wFwd : ∀ j, j < size.len / 2 → c.wFwd j = omegaOf p size ^ j % p.modulus.q
  wInv : ∀ j, j < size.len / 2 → c.wInv j = iomegaOf p size ^ j % p.modulus.q
  fwdStages : ∀ s k, s < size.log → k < 2 ^ s →
    c.wFwdStages (2 ^ s - 1 + k) = c.wFwd (k * (size.len / (2 * 2 ^ s)))
  invStages : ∀ s k, s < size.log → k < 2 ^ s →
    c.wInvStages (2 ^ s - 1 + k) = c.wInv (k * (size.len / (2 * 2 ^ s)))

section

variable (p : Prime) (size : Size)

theorem psiOf_spec : psiOf p size < p.modulus.q ∧
    psiOf p size ^ size.len % p.modulus.q = p.modulus.q - 1 := by
  have hlen : size.len < 2 ^ 64 := Nat.pow_lt_pow_right (by omega) (size.log_le.trans_lt (by omega))
  exact (Modulus.findPsiFrom_spec hlen _ _).resolve_left (findPsi_ne_zero p size)

theorem modinv_lt (a : Nat) : p.modulus.modinv a < p.modulus.q := by
  have hupper := p.modulus.upper
  rw [Modulus.modinv, Modulus.modpow_eq (by omega)]
  exact Nat.mod_lt _ p.modulus.q_pos

theorem ipsiOf_lt : ipsiOf p size < p.modulus.q := modinv_lt p _

theorem omegaOf_lt : omegaOf p size < p.modulus.q :=
  Modulus.modmul_lt (psiOf_spec p size).1 (psiOf_spec p size).1

theorem iomegaOf_lt : iomegaOf p size < p.modulus.q :=
  Modulus.modmul_lt (ipsiOf_lt p size) (ipsiOf_lt p size)

/-- The arena with the four tables of powers. -/
def tablesOf (arena : Nat → Nat) : Nat → Nat :=
  fillPowers p.modulus size.len (psiOf p size) (ipsiOf p size) arena

theorem tablesOf_eq (arena : Nat → Nat) : tablesOf p size arena =
    Buffer.store (Buffer.store (Buffer.store (Buffer.store arena
      Arena.psiPow size.len fun j => psiOf p size ^ j % p.modulus.q)
      (Arena.ipsiPow size.len) size.len fun j => ipsiOf p size ^ j % p.modulus.q)
      (Arena.wFwd size.len) (size.len / 2) fun j => omegaOf p size ^ j % p.modulus.q)
      (Arena.wInv size.len) (size.len / 2) fun j => iomegaOf p size ^ j % p.modulus.q := by
  simp only [tablesOf, fillPowers]
  rw [← omegaOf, ← iomegaOf, Modulus.powers_eq (psiOf_spec p size).1,
    Modulus.powers_eq (ipsiOf_lt p size),
    Modulus.powers_eq (omegaOf_lt p size), Modulus.powers_eq (iomegaOf_lt p size)]

/-- Given its arena, the context of every prime and length is made. -/
theorem initOne_eq (arena : Nat → Nat) : initOne p size arena = some
    { N := size.len
      modulus := p.modulus
      psi := psiOf p size
      ipsi := ipsiOf p size
      ninv := p.modulus.modinv (size.len % p.modulus.q)
      vtcm := (Arena.compact size.len size.log (tablesOf p size arena)).1 } := by
  have hentries : (Arena.compact size.len size.log (tablesOf p size arena)).2 = size.len - 1 :=
    (Arena.compact_spec (Nat.le_refl size.log) (tablesOf p size arena)).1
  simp only [initOne]
  rw [if_neg (findPsi_ne_zero p size), ilog2_len]
  exact if_neg (not_not.mpr hentries)

/-- The tables of powers lie before those of the stages. -/
theorem Arena.lt_stages {N j : Nat} :
    (j < N → Arena.psiPow + j < Arena.wFwdStages N ∧ Arena.ipsiPow N + j < Arena.wFwdStages N) ∧
    (j < N / 2 → Arena.wFwd N + j < Arena.wFwdStages N ∧
      Arena.wInv N + j < Arena.wFwdStages N) := by
  simp only [Arena.psiPow, Arena.ipsiPow, Arena.wFwd, Arena.wInv, Arena.wFwdStages]
  omega

/-- What it then holds. -/
theorem initOne_spec (arena : Nat → Nat) : ∃ c, initOne p size arena = some c ∧ c.Built p size := by
  refine ⟨_, initOne_eq p size arena, ?_⟩
  obtain ⟨_, hkeep, hstages⟩ : _ ∧ (∀ a, a < Arena.wFwdStages size.len →
      (Arena.compact size.len size.log (tablesOf p size arena)).1 a = tablesOf p size arena a) ∧ _ :=
    Arena.compact_spec (Nat.le_refl size.log) (tablesOf p size arena)
  have hread : ∀ j, (j < size.len →
      tablesOf p size arena (Arena.psiPow + j) = psiOf p size ^ j % p.modulus.q ∧
      tablesOf p size arena (Arena.ipsiPow size.len + j) = ipsiOf p size ^ j % p.modulus.q) ∧
    (j < size.len / 2 →
      tablesOf p size arena (Arena.wFwd size.len + j) = omegaOf p size ^ j % p.modulus.q ∧
      tablesOf p size arena (Arena.wInv size.len + j) = iomegaOf p size ^ j % p.modulus.q) := by
    intro j
    rw [tablesOf_eq]
    exact Arena.tables_apart _ _ _ _ arena
  exact {
    len := rfl
    modulus := rfl
    ninv := rfl
    psiPow := fun j hj => (hkeep _ (Arena.lt_stages.1 hj).1).trans ((hread j).1 hj).1
    ipsiPow := fun j hj => (hkeep _ (Arena.lt_stages.1 hj).2).trans ((hread j).1 hj).2
    wFwd := fun j hj => (hkeep _ (Arena.lt_stages.2 hj).1).trans ((hread j).2 hj).1
    wInv := fun j hj => (hkeep _ (Arena.lt_stages.2 hj).2).trans ((hread j).2 hj).2
    fwdStages := fun s k hs hk => (hstages s k hs hk).1.trans
      (hkeep _ (Arena.lt_stages.2 (Arena.stride_lt hs hk)).1).symm
    invStages := fun s k hs hk => (hstages s k hs hk).2.trans
      (hkeep _ (Arena.lt_stages.2 (Arena.stride_lt hs hk)).2).symm }

end

end ShannonPrime.Ntt
