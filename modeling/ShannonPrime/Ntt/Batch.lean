import ShannonPrime.Ntt.Avx2
import ShannonPrime.Ntt.Paths

/-!
The batched forward transform (`sp_ntt_fwd_batch`): items in groups of eight, transposed so
that the words of one row are one coefficient of each of them. Every item's row is the
transform of that item alone.
-/

namespace ShannonPrime.Ntt.Batch

open Avx2 (pack)
open Buffer (forCells store)

/-- One prime of a plan: its tables hold residues. -/
structure Channel where
  modulus : Modulus
  psiPow : Nat → Nat
  wFwd : Nat → Nat
  psiPow_lt : ∀ j, psiPow j < modulus.q
  wFwd_lt : ∀ j, wFwd j < modulus.q

/-- `ntt_fwd_plan`, for `2 ^ logN` coefficients. -/
structure Plan where
  logN : Nat
  first : Channel
  second : Channel
  bitrev : Nat → Nat
  logN_le : logN ≤ 9
  bitrev_eq : ∀ i, i < 2 ^ logN → bitrev i = Ntt.bitrev i logN

/-! Rows of eight words -/

/-- `_mm256_loadu_si256`, 64-bit lane `m`. -/
def loadu (x : Nat → Nat) (a m : Nat) : Nat := pack (x (a + 2 * m)) (x (a + 2 * m + 1))

/-- `_mm256_storeu_si256` -/
def storeu (x : Nat → Nat) (a : Nat) (r : Nat → Nat) : Nat → Nat :=
  store x a 8 fun l => if l % 2 = 0 then r (l / 2) % 2 ^ 32 else r (l / 2) / 2 ^ 32

/-- `ntb_bar` -/
def ntbBar (M : Modulus) (x : Nat) : Nat := barrettReduce x M.q M.mu % 2 ^ 32

/-- The items of a group from `g0` on, weighted, in reversed order, the rest of a row zero. -/
def gather (P : Channel) (N : Nat) (bitrev : Nat → Nat) (inp : Nat → Int) (inStride g0 gl : Nat)
    (x : Nat → Nat) : Nat → Nat :=
  forCells (N * 8) (fun c _ =>
    let j := bitrev (c / 8)
    let l := c % 8
    if l < gl then
      ntbBar P.modulus (P.modulus.signedReduce (inp ((g0 + l) * inStride + j)) * P.psiPow j)
    else 0) x

/-- One butterfly of the block at `i`, on two rows. -/
def butterfly8 (M : Modulus) (half : Nat) (w : Nat → Nat) (i : Nat) (x : Nat → Nat) (k : Nat) :
    Nat → Nat :=
  let ru := (i + k) * 8
  let rv := (i + k + half) * 8
  let v := fun m => Avx2.modmul8 M (loadu x rv m) (pack (w k) (w k))
  let low := storeu x ru fun m => Avx2.modadd8 M (loadu x ru m) (v m)
  storeu low rv fun m => Avx2.modsub8 M (loadu x ru m) (v m)

def stage8 (M : Modulus) (N half : Nat) (w x : Nat → Nat) : Nat → Nat :=
  (List.range (N / (2 * half))).foldl
    (fun x b => (List.range half).foldl (butterfly8 M half w (b * (2 * half))) x) x

/-- The rows of a group after the last stage. -/
def groupRows (P : Channel) (logN : Nat) (bitrev : Nat → Nat) (inp : Nat → Int)
    (inStride g0 gl : Nat) (x : Nat → Nat) : Nat → Nat :=
  let N := 2 ^ logN
  (List.range logN).foldl
    (fun x s => stage8 P.modulus N (2 ^ s) (fun k => P.wFwd (k * (N / (2 * 2 ^ s)))) x)
    (gather P N bitrev inp inStride g0 gl x)

/-- Back from lane to item. -/
def scatter (N outStride g0 gl : Nat) (x out : Nat → Nat) : Nat → Nat :=
  (List.range gl).foldl
    (fun out l => store out ((g0 + l) * outStride) N fun j => x (j * 8 + l)) out

/-- The memory of a call: both outputs and the rows, which the thread keeps. -/
structure Memory where
  out1 : Nat → Nat
  out2 : Nat → Nat
  rows : Nat → Nat

/-- One group of a call of `n` items, in one channel after the other. -/
def group (plan : Plan) (inp : Nat → Int) (inStride out1Stride out2Stride n : Nat) (mem : Memory)
    (g : Nat) : Memory :=
  let g0 := g * 8
  let gl := if n - g0 > 8 then 8 else n - g0
  let rows1 := groupRows plan.first plan.logN plan.bitrev inp inStride g0 gl mem.rows
  let rows2 := groupRows plan.second plan.logN plan.bitrev inp inStride g0 gl rows1
  { out1 := scatter (2 ^ plan.logN) out1Stride g0 gl rows1 mem.out1
    out2 := scatter (2 ^ plan.logN) out2Stride g0 gl rows2 mem.out2
    rows := rows2 }

/-- `sp_ntt_fwd_batch` -/
def fwdBatch (plan : Plan) (inp : Nat → Int) (inStride out1Stride out2Stride : Nat) (nb : Int)
    (mem : Memory) : Memory :=
  if nb ≤ 0 then mem
  else
    (List.range ((nb.toNat + 7) / 8)).foldl
      (group plan inp inStride out1Stride out2Stride nb.toNat) mem

/-! A butterfly on rows is a butterfly in every column -/

/-- Column `l` of the rows is the array `s`, and all words of the rows are residues. -/
def Column (M : Modulus) (N l : Nat) (x s : Nat → Nat) : Prop :=
  M.Residues (N * 8) x ∧ ∀ i, i < N → x (i * 8 + l) = s i

/-- Two halves of a lane, stored. -/
theorem storeu_pack {x f : Nat → Nat} {r : Nat → Nat} {a l : Nat}
    (hr : ∀ m, m < 4 → r m = pack (f (2 * m)) (f (2 * m + 1))) (hf : ∀ l, l < 8 → f l < 2 ^ 32)
    (hl : l < 8) : storeu x a r (a + l) = f l := by
  rw [storeu, Buffer.store_inside hl, hr (l / 2) (by omega)]
  split
  · have hlane : 2 * (l / 2) = l := by omega
    rw [Avx2.pack_mod (hf _ (by omega)), hlane]
  · have hlane : 2 * (l / 2) + 1 = l := by omega
    rw [Avx2.pack_div (hf _ (by omega)), hlane]

theorem storeu_outside {x r : Nat → Nat} {a c : Nat} (h : c < a ∨ a + 8 ≤ c) :
    storeu x a r c = x c := Buffer.store_outside h

variable {M : Modulus} {N half : Nat}

section

variable {w x : Nat → Nat} {i k : Nat}

/-- The rows of a butterfly afterwards. -/
theorem butterfly8_rows (hx : M.Residues (N * 8) x) (hw : w k < M.q) (hhalf : 0 < half)
    (hrow : i + k + half < N) {l : Nat} (hl : l < 8) :
    butterfly8 M half w i x k ((i + k) * 8 + l) =
      M.modadd (x ((i + k) * 8 + l)) (M.modmul (x ((i + k + half) * 8 + l)) (w k)) ∧
    butterfly8 M half w i x k ((i + k + half) * 8 + l) =
      M.modsub (x ((i + k) * 8 + l)) (M.modmul (x ((i + k + half) * 8 + l)) (w k)) ∧
    ∀ c, (c < (i + k) * 8 ∨ (i + k) * 8 + 8 ≤ c) →
      (c < (i + k + half) * 8 ∨ (i + k + half) * 8 + 8 ≤ c) →
      butterfly8 M half w i x k c = x c := by
  have hword := M.q_lt_word
  have hu : ∀ l, l < 8 → x ((i + k) * 8 + l) < M.q := fun l hl => hx _ (by omega)
  have ht : ∀ l, l < 8 → x ((i + k + half) * 8 + l) < M.q := fun l hl => hx _ (by omega)
  have hv : ∀ l, l < 8 → M.modmul (x ((i + k + half) * 8 + l)) (w k) < M.q :=
    fun l hl => Modulus.modmul_lt (ht l hl) hw
  have hprod : ∀ m, m < 4 →
      Avx2.modmul8 M (loadu x ((i + k + half) * 8) m) (pack (w k) (w k)) =
        pack (M.modmul (x ((i + k + half) * 8 + 2 * m)) (w k))
          (M.modmul (x ((i + k + half) * 8 + (2 * m + 1))) (w k)) := fun m hm =>
    Avx2.modmul8_pack (ht _ (by omega)) (ht (2 * m + 1) (by omega)) hw hw
  have hsum : ∀ m, m < 4 →
      Avx2.modadd8 M (loadu x ((i + k) * 8) m)
        (Avx2.modmul8 M (loadu x ((i + k + half) * 8) m) (pack (w k) (w k))) =
        pack (M.modadd (x ((i + k) * 8 + 2 * m)) (M.modmul (x ((i + k + half) * 8 + 2 * m)) (w k)))
          (M.modadd (x ((i + k) * 8 + (2 * m + 1)))
            (M.modmul (x ((i + k + half) * 8 + (2 * m + 1))) (w k))) := by
    intro m hm
    rw [hprod m hm]
    exact Avx2.modadd8_pack (hu _ (by omega)) (hu (2 * m + 1) (by omega)) (hv _ (by omega))
      (hv (2 * m + 1) (by omega))
  have hdiff : ∀ m, m < 4 →
      Avx2.modsub8 M (loadu x ((i + k) * 8) m)
        (Avx2.modmul8 M (loadu x ((i + k + half) * 8) m) (pack (w k) (w k))) =
        pack (M.modsub (x ((i + k) * 8 + 2 * m)) (M.modmul (x ((i + k + half) * 8 + 2 * m)) (w k)))
          (M.modsub (x ((i + k) * 8 + (2 * m + 1)))
            (M.modmul (x ((i + k + half) * 8 + (2 * m + 1))) (w k))) := by
    intro m hm
    rw [hprod m hm]
    exact Avx2.modsub8_pack (hu _ (by omega)) (hu (2 * m + 1) (by omega)) (hv _ (by omega))
      (hv (2 * m + 1) (by omega))
  refine ⟨?_, ?_, fun c hc hc' => ?_⟩
  · rw [butterfly8, storeu_outside (Or.inl (by omega))]
    exact storeu_pack (f := fun l => M.modadd (x ((i + k) * 8 + l))
      (M.modmul (x ((i + k + half) * 8 + l)) (w k))) hsum
      (fun l hl => (Modulus.modadd_lt (hu l hl) (hv l hl)).trans hword) hl
  · rw [butterfly8]
    exact storeu_pack (f := fun l => M.modsub (x ((i + k) * 8 + l))
      (M.modmul (x ((i + k + half) * 8 + l)) (w k))) hdiff
      (fun l hl => (Modulus.modsub_lt (hu l hl) (hv l hl)).trans hword) hl
  · rw [butterfly8, storeu_outside hc', storeu_outside hc]

/-- One butterfly keeps a column in step with the scalar one. -/
theorem Column.butterfly {l : Nat} {s : Nat → Nat} (h : Column M N l x s) (hl : l < 8)
    (hw : w k < M.q) (hhalf : 0 < half) (hrow : i + k + half < N) :
    Column M N l (butterfly8 M half w i x k) (M.butterfly half w i s k) := by
  obtain ⟨hx, hcol⟩ := h
  have hrows := fun {l : Nat} (hl : l < 8) => butterfly8_rows (i := i) hx hw hhalf hrow hl
  constructor
  · intro c hc
    have hsplit := Nat.div_add_mod c 8
    have hlane := Nat.mod_lt c (show 0 < 8 by omega)
    have hu : x ((i + k) * 8 + c % 8) < M.q := hx _ (by omega)
    have ht : x ((i + k + half) * 8 + c % 8) < M.q := hx _ (by omega)
    have hv := Modulus.modmul_lt ht hw
    obtain ⟨hlow, hhigh, hother⟩ := hrows hlane
    rcases eq_or_ne (c / 8) (i + k) with hfirst | hfirst
    · have hat : c = (i + k) * 8 + c % 8 := by omega
      rw [hat, hlow]
      exact Modulus.modadd_lt hu hv
    · rcases eq_or_ne (c / 8) (i + k + half) with hsecond | hsecond
      · have hat : c = (i + k + half) * 8 + c % 8 := by omega
        rw [hat, hhigh]
        exact Modulus.modsub_lt hu hv
      · rw [hother c (by omega) (by omega)]
        exact hx c hc
  · intro r hr
    obtain ⟨hlow, hhigh, hother⟩ := hrows hl
    rw [Modulus.butterfly]
    rcases eq_or_ne r (i + k + half) with rfl | hsecond
    · rw [Function.update_self, hhigh, hcol _ (by omega), hcol _ hrow]
    · rw [Function.update_of_ne hsecond]
      rcases eq_or_ne r (i + k) with rfl | hfirst
      · rw [Function.update_self, hlow, hcol _ hr, hcol _ hrow]
      · rw [Function.update_of_ne hfirst, hother _ (by omega) (by omega), hcol r hr]

end

/-- A stage keeps every column in step. -/
theorem Column.stage {l : Nat} {w x s : Nat → Nat} (h : Column M N l x s) (hl : l < 8)
    (hw : ∀ k, w k < M.q) (hhalf : 0 < half) (hN : 2 * half ∣ N) :
    Column M N l (stage8 M N half w x) (M.stageScalar N half w s) := by
  rw [stage8, Modulus.stageScalar]
  refine List.foldl_rel h fun b hb x s hblock => ?_
  refine List.foldl_rel hblock fun k hk x s hcol => ?_
  have hend : b * (2 * half) + 2 * half ≤ N := by
    have hb' : b < N / (2 * half) := List.mem_range.mp hb
    calc b * (2 * half) + 2 * half = (b + 1) * (2 * half) := (Nat.succ_mul ..).symm
      _ ≤ N / (2 * half) * (2 * half) := Nat.mul_le_mul_right _ hb'
      _ = N := Nat.div_mul_cancel hN
  have hk' : k < half := List.mem_range.mp hk
  exact hcol.butterfly hl (hw k) hhalf (by omega)

/-! A group is its items one by one -/

/-- The transform of one item. -/
def one (P : Channel) (logN : Nat) (inp : Nat → Int) (scratch : Nat → Nat) : Nat → Nat :=
  P.modulus.forwardOne (2 ^ logN) logN P.psiPow P.wFwd inp scratch

section

variable {P : Channel} {logN : Nat} {bitrev : Nat → Nat} {inp : Nat → Int}
  {inStride outStride g0 gl l : Nat}

theorem gather_residues (x : Nat → Nat) :
    P.modulus.Residues (2 ^ logN * 8) (gather P (2 ^ logN) bitrev inp inStride g0 gl x) := by
  intro c hc
  rw [gather, forCells, if_pos hc]
  simp only
  split
  · exact Modulus.modmul_lt (P.modulus.signedReduce_lt _) (P.psiPow_lt _)
  · exact P.modulus.q_pos

/-- The gather does for an item what weights and bit reversal do. -/
theorem gather_column (hrev : ∀ i, i < 2 ^ logN → bitrev i = Ntt.bitrev i logN) (hl : l < gl)
    (hgl : gl ≤ 8) (x scratch : Nat → Nat) :
    Column P.modulus (2 ^ logN) l (gather P (2 ^ logN) bitrev inp inStride g0 gl x)
      (bitReverse (2 ^ logN) logN (P.modulus.preWeight (2 ^ logN) P.psiPow
        (fun j => inp ((g0 + l) * inStride + j)) scratch)) := by
  refine ⟨gather_residues x, fun i hi => ?_⟩
  have hrow : (i * 8 + l) / 8 = i := by omega
  have hlane : (i * 8 + l) % 8 = l := by omega
  rw [gather, forCells, if_pos (by omega), hrow, hlane]
  simp only
  rw [if_pos hl, bitReverse_apply, if_pos hi, hrev i hi, bitrev_eq,
    Modulus.preWeight_apply _ _ _ _ (Radix2.rev_lt logN i)]
  rfl

/-- The rows of a group hold the transforms of its items. -/
theorem rows_eq_one (hrev : ∀ i, i < 2 ^ logN → bitrev i = Ntt.bitrev i logN) (hl : l < gl)
    (hgl : gl ≤ 8) (x scratch : Nat → Nat) {j : Nat} (hj : j < 2 ^ logN) :
    groupRows P logN bitrev inp inStride g0 gl x (j * 8 + l) =
      one P logN (fun j => inp ((g0 + l) * inStride + j)) scratch j := by
  have hstages : Column P.modulus (2 ^ logN) l (groupRows P logN bitrev inp inStride g0 gl x)
      (one P logN (fun j => inp ((g0 + l) * inStride + j)) scratch) :=
    List.foldl_rel (gather_column hrev hl hgl x scratch) fun s hs _ _ hcol =>
      hcol.stage (by omega) (fun _ => P.wFwd_lt _) (Nat.two_pow_pos s)
        (Modulus.block_dvd (List.mem_range.mp hs))
  exact hstages.2 j hj

theorem store_congr {F : Type*} {b : Nat → F} {off n : Nat} {v v' : Nat → F}
    (h : ∀ j, j < n → v j = v' j) : store b off n v = store b off n v' := by
  funext a
  simp only [store]
  split
  · exact h _ (by omega)
  · rfl

/-- Items written one after another, each its own transform. -/
def writeItems (P : Channel) (logN : Nat) (inp : Nat → Int) (inStride outStride : Nat)
    (scratch : Nat → Nat) (items : List Nat) (out : Nat → Nat) : Nat → Nat :=
  items.foldl (fun out b => store out (b * outStride) (2 ^ logN)
    (one P logN (fun j => inp (b * inStride + j)) scratch)) out

/-- A group in one channel writes its items. -/
theorem scatter_eq (hrev : ∀ i, i < 2 ^ logN → bitrev i = Ntt.bitrev i logN) (hgl : gl ≤ 8)
    (x scratch out : Nat → Nat) :
    scatter (2 ^ logN) outStride g0 gl (groupRows P logN bitrev inp inStride g0 gl x) out =
      writeItems P logN inp inStride outStride scratch ((List.range gl).map (g0 + ·)) out := by
  rw [writeItems, List.foldl_map]
  refine List.foldl_ext _ _ _ fun out l hl => ?_
  exact store_congr fun j hj => rows_eq_one hrev (List.mem_range.mp hl) hgl x scratch hj

theorem writeItems_append (scratch : Nat → Nat) (items items' : List Nat) (out : Nat → Nat) :
    writeItems P logN inp inStride outStride scratch (items ++ items') out =
      writeItems P logN inp inStride outStride scratch items'
        (writeItems P logN inp inStride outStride scratch items out) :=
  List.foldl_append

/-- Outside the items nothing is written. -/
theorem writeItems_outside (scratch : Nat → Nat) (n : Nat) (out : Nat → Nat) {a : Nat}
    (ha : ∀ b j, b < n → j < 2 ^ logN → a ≠ b * outStride + j) :
    writeItems P logN inp inStride outStride scratch (List.range n) out a = out a := by
  induction n with
  | zero => rfl
  | succ n ih =>
      rw [List.range_succ, writeItems_append]
      have hlast : a < n * outStride ∨ n * outStride + 2 ^ logN ≤ a := by
        by_contra hin
        exact ha n (a - n * outStride) (Nat.lt_succ_self n) (by omega) (by omega)
      exact (Buffer.store_outside hlast).trans
        (ih fun b j hb hj => ha b j (hb.trans (Nat.lt_succ_self n)) hj)

/-- Where the items do not overlap each is in its row. -/
theorem writeItems_row (scratch : Nat → Nat) {n : Nat} (out : Nat → Nat)
    (hstride : 2 ^ logN ≤ outStride) {b j : Nat} (hb : b < n) (hj : j < 2 ^ logN) :
    writeItems P logN inp inStride outStride scratch (List.range n) out (b * outStride + j) =
      one P logN (fun j => inp (b * inStride + j)) scratch j := by
  induction n with
  | zero => exact absurd hb (Nat.not_lt_zero b)
  | succ n ih =>
      rw [List.range_succ, writeItems_append]
      rcases Nat.lt_succ_iff_lt_or_eq.mp hb with hlt | rfl
      · have hbefore : b * outStride + outStride ≤ n * outStride := Buffer.block_le hlt
        exact (Buffer.store_outside (Or.inl (by omega))).trans (ih hlt)
      · exact Buffer.store_inside hj

end

/-! All groups -/

section

variable (plan : Plan) (inp : Nat → Int) (inStride out1Stride out2Stride : Nat) (mem : Memory)
  (scratch : Nat → Nat)

/-- The items of the groups before, and those of one more. -/
theorem range_groups (n g : Nat) (hg : g * 8 ≤ n) :
    List.range (g * 8) ++ (List.range (if n - g * 8 > 8 then 8 else n - g * 8)).map (g * 8 + ·) =
      List.range (min n ((g + 1) * 8)) := by
  rw [← List.range_add]
  congr 1
  split <;> omega

/-- After some groups the items up to there are written, in both channels. -/
theorem groups_out (n G : Nat) (hG : G ≤ (n + 7) / 8) :
    ((List.range G).foldl (group plan inp inStride out1Stride out2Stride n) mem).out1 =
        writeItems plan.first plan.logN inp inStride out1Stride scratch
          (List.range (min n (G * 8))) mem.out1 ∧
      ((List.range G).foldl (group plan inp inStride out1Stride out2Stride n) mem).out2 =
        writeItems plan.second plan.logN inp inStride out2Stride scratch
          (List.range (min n (G * 8))) mem.out2 := by
  induction G with
  | zero => simp [writeItems]
  | succ G ih =>
      obtain ⟨hout1, hout2⟩ := ih (by omega)
      have hfull : min n (G * 8) = G * 8 := by omega
      have hgl : (if n - G * 8 > 8 then 8 else n - G * 8) ≤ 8 := by
        split <;> omega
      rw [List.range_succ, List.foldl_append, List.foldl_cons, List.foldl_nil,
        ← range_groups n G (by omega), writeItems_append, writeItems_append, ← hfull, ← hout1,
        ← hout2, hfull]
      exact ⟨scatter_eq plan.bitrev_eq hgl _ scratch _, scatter_eq plan.bitrev_eq hgl _ scratch _⟩

/-- A call writes every item, in order, in both channels. -/
theorem fwdBatch_out (nb : Int) :
    (fwdBatch plan inp inStride out1Stride out2Stride nb mem).out1 =
        writeItems plan.first plan.logN inp inStride out1Stride scratch (List.range nb.toNat)
          mem.out1 ∧
      (fwdBatch plan inp inStride out1Stride out2Stride nb mem).out2 =
        writeItems plan.second plan.logN inp inStride out2Stride scratch (List.range nb.toNat)
          mem.out2 := by
  rw [fwdBatch]
  split
  · rename_i hnone
    rw [Int.toNat_of_nonpos hnone]
    exact ⟨rfl, rfl⟩
  · have hall : min nb.toNat ((nb.toNat + 7) / 8 * 8) = nb.toNat := by omega
    have hgroups := groups_out plan inp inStride out1Stride out2Stride mem scratch nb.toNat
      ((nb.toNat + 7) / 8) (Nat.le_refl _)
    rwa [hall] at hgroups

end

/-- What a channel's output `after` a call is: the transforms of the items, written in order
over what was there. Nothing else is touched, and where the rows are apart each is the
transform of its item. -/
structure Written (P : Channel) (logN : Nat) (inp : Nat → Int) (inStride outStride n : Nat)
    (scratch before after : Nat → Nat) : Prop where
  items : after = writeItems P logN inp inStride outStride scratch (List.range n) before
  outside : ∀ a, (∀ b j, b < n → j < 2 ^ logN → a ≠ b * outStride + j) → after a = before a
  row : 2 ^ logN ≤ outStride → ∀ b j, b < n → j < 2 ^ logN →
    after (b * outStride + j) = one P logN (fun j => inp (b * inStride + j)) scratch j

theorem written_of_eq {P : Channel} {logN : Nat} {inp : Nat → Int} {inStride outStride n : Nat}
    {scratch before after : Nat → Nat}
    (h : after = writeItems P logN inp inStride outStride scratch (List.range n) before) :
    Written P logN inp inStride outStride n scratch before after where
  items := h
  outside a ha := by
    rw [h]
    exact writeItems_outside scratch n before ha
  row hstride b j hb hj := by
    rw [h]
    exact writeItems_row scratch before hstride hb hj

/-- The tables of a prime and a length. -/
def Channel.ofPrime (p : Prime) (size : Size) : Channel where
  modulus := p.modulus
  psiPow j := psiOf p size ^ j % p.modulus.q
  wFwd j := omegaOf p size ^ j % p.modulus.q
  psiPow_lt _ := mod_residue p _
  wFwd_lt _ := mod_residue p _

def Plan.ofSize (size : Size) : Plan where
  logN := size.log
  first := Channel.ofPrime .first size
  second := Channel.ofPrime .second size
  bitrev i := Ntt.bitrev i size.log
  logN_le := size.log_le
  bitrev_eq _ _ := rfl

/-- With them an item's row is what every other path answers for it. -/
theorem one_ofPrime (p : Prime) (size : Size) (inp : Nat → Int) (scratch : Nat → Nat) :
    Buffer.vec size.len (one (Channel.ofPrime p size) size.log inp scratch) =
      forwardWords p size inp := by
  have hpsi : ∀ j, j < size.len → (Channel.ofPrime p size).psiPow j =
      psiOf p size ^ j % p.modulus.q := fun _ _ => rfl
  have hw : ∀ s k, s < size.log → k < 2 ^ s → (Channel.ofPrime p size).wFwd
      (k * (size.len / (2 * 2 ^ s))) = fwdTwiddle p size s k := fun _ _ _ _ => rfl
  have hone : one (Channel.ofPrime p size) size.log inp scratch = _ :=
    Modulus.forwardOne_eq (residues_of_eq hpsi) (stageResidues_of_eq hw) inp scratch
  rw [hone]
  exact vec_transform inp scratch hpsi hw

end ShannonPrime.Ntt.Batch
