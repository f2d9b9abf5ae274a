import ShannonPrime.Cuda.PackedExact
import ShannonPrime.Lib.Buffer
import ShannonPrime.Lib.Writes

/-!
The batched product of OK_Q4B weights: a quantiser with one row of blocks for each token, and a
kernel whose warps take one row of the weights against a tile of eight tokens. The operations on
floats obey no laws here, so equal results are made by the same operations in the same order.
-/

namespace ShannonPrime.Cuda.BatchedGemm

open Writes (strides)

/-- The operations on floats: `(float)a` and the constants, `fabsf`, `>`, `__float2int_rn`,
`__half2float`. -/
structure FloatOps (F : Type*) where
  ofInt : Int → F
  add : F → F → F
  mul : F → F → F
  div : F → F → F
  abs : F → F
  gt : F → F → Bool
  nearest : F → Int
  half : BitVec 16 → F

variable {F : Type*} (A : FloatOps F)

/-! The quantisers -/

def blockMax (x : Nat → F) (n b : Nat) : F :=
  (List.range 16).foldl
    (fun m i =>
      let a := if 16 * b + i < n then A.abs (x (16 * b + i)) else A.ofInt 0
      if A.gt a m then a else m) (A.ofInt 0)

/-- `scale` -/
def blockScale (x : Nat → F) (n b : Nat) : F :=
  if A.gt (blockMax A x n b) (A.ofInt 0) then
    A.mul (blockMax A x n b) (A.div (A.ofInt 1) (A.ofInt 127))
  else A.ofInt 1

/-- The code of an element, from the scale of its block. -/
def code (x : Nat → F) (n i : Nat) : BitVec 8 :=
  let inv := A.div (A.ofInt 1) (blockScale A x n (i / 16))
  let q := A.nearest (if i < n then A.mul (x i) inv else A.ofInt 0)
  BitVec.ofInt 8 (if 127 < q then 127 else if q < -127 then -127 else q)

/-- What a quantiser writes to the codes and to the scales. -/
structure Quantised (F : Type*) where
  qx : List (Nat × BitVec 8)
  sxb : List (Nat × F)

/-- `k_quant_act_int8`, a block of 256 threads. -/
def kQuantActInt8 (x : Nat → F) (n npad : Nat) : Quantised F where
  qx := (List.range 256).flatMap fun tid => (strides 256 (npad / 16) (npad / 16) tid).flatMap fun b =>
    (List.range 16).flatMap fun i => [(16 * b + i, code A x n (16 * b + i))]
  sxb := (List.range 256).flatMap fun tid => (strides 256 (npad / 16) (npad / 16) tid).flatMap fun b =>
    [(b, blockScale A x n b)]

/-- `k_quant_act_int8_batched`: the same block for each token, on its own part of the buffers. -/
def kQuantActInt8Batched (X : Nat → F) (n nIn npad : Nat) : Quantised F where
  qx := (List.range n).flatMap fun t =>
    (kQuantActInt8 A (fun i => X (t * nIn + i)) nIn npad).qx.map fun w => (t * npad + w.1, w.2)
  sxb := (List.range n).flatMap fun t =>
    (kQuantActInt8 A (fun i => X (t * nIn + i)) nIn npad).sxb.map fun w =>
      (t * (npad / 16) + w.1, w.2)

/-! The kernels -/

/-- The halvings by `__shfl_down_sync`, offsets from `2 ^ (k - 1)` down to 1. -/
def shfl : Nat → (Nat → F) → Nat → F
  | 0, v => v
  | k + 1, v => shfl k fun l => A.add (v l) (if l + 2 ^ k < 32 then v (l + 2 ^ k) else v l)

/-- A chunk of 32 weights of a row: four words. -/
def wordsOf (W : DevTensor F) (j c k : Nat) : BitVec 32 :=
  word W.codes (W.rowOff j + 16 * c + 4 * k)

/-- `wbsc * ((float)a0 * sxb[2 * c] + (float)a1 * sxb[2 * c + 1])` -/
def scaled (wbsc : F) (a : Int × Int) (s0 s1 : F) : F :=
  A.mul wbsc (A.add (A.mul (A.ofInt a.1) s0) (A.mul (A.ofInt a.2) s1))

/-- The two halves of a chunk in `k_gemv_q4b_dp4a_v2`: each word is unpacked where it is used. -/
def gemvHalves (wv q : Nat → BitVec 32) : Int × Int :=
  let u0 := spUnpack8 (wv 0)
  let a0 := dp4a u0.2 (q 1) (dp4a u0.1 (q 0) 0)
  let u1 := spUnpack8 (wv 1)
  let a0 := dp4a u1.2 (q 3) (dp4a u1.1 (q 2) a0)
  let u2 := spUnpack8 (wv 2)
  let a1 := dp4a u2.2 (q 5) (dp4a u2.1 (q 4) 0)
  let u3 := spUnpack8 (wv 3)
  let a1 := dp4a u3.2 (q 7) (dp4a u3.1 (q 6) a1)
  (a0, a1)

/-- `facc` of a lane. -/
def gemvLane (W : DevTensor F) (bscale : Nat → BitVec 16) (qx : Bytes) (sxb : Nat → F) (j lane : Nat) :
    F :=
  (strides 32 (W.nIn / 32) (W.nIn / 32) lane).foldl
    (fun facc c =>
      A.add facc (scaled A (A.half (bscale (j * W.bsNblk + c)))
        (gemvHalves (wordsOf W j c) fun k => word qx (32 * c + 4 * k)) (sxb (2 * c))
        (sxb (2 * c + 1)))) (A.ofInt 0)

/-- `k_gemv_q4b_dp4a_v2`: eight warps a block, a row each. -/
def kGemvQ4bDp4aV2 (W : DevTensor F) (bscale : Nat → BitVec 16) (qx : Bytes) (sxb : Nat → F) :
    List (Nat × F) :=
  (List.range ((W.nOut + 7) / 8)).flatMap fun bx => (List.range 8).flatMap fun warp =>
    let j := bx * 8 + warp
    if W.nOut ≤ j then [] else [(j, shfl A 5 (gemvLane A W bscale qx sxb j) 0)]

/-- `DP4A_TILE` -/
def dp4aTile : Nat := 8

/-- `wa`: the words of a chunk, unpacked once. -/
def unpacked (wv : Nat → BitVec 32) (i : Nat) : BitVec 32 :=
  if i % 2 = 0 then (spUnpack8 (wv (i / 2))).1 else (spUnpack8 (wv (i / 2))).2

/-- The two halves of a chunk in `k_gemm_q4b_dp4a`. -/
def gemmHalves (wa q : Nat → BitVec 32) : Int × Int :=
  let a0 := dp4a (wa 1) (q 1) (dp4a (wa 0) (q 0) 0)
  let a0 := dp4a (wa 3) (q 3) (dp4a (wa 2) (q 2) a0)
  let a1 := dp4a (wa 5) (q 5) (dp4a (wa 4) (q 4) 0)
  let a1 := dp4a (wa 7) (q 7) (dp4a (wa 6) (q 6) a1)
  (a0, a1)

/-- `facc[]` of a lane: every chunk is added to each token of the tile. -/
def gemmLane (W : DevTensor F) (bscale : Nat → BitVec 16) (npad : Nat) (qx : Bytes) (sxb : Nat → F)
    (j tb nt lane : Nat) : Nat → F :=
  (strides 32 (W.nIn / 32) (W.nIn / 32) lane).foldl
    (fun facc c =>
      let wa := unpacked (wordsOf W j c)
      let wbsc := A.half (bscale (j * W.bsNblk + c))
      (List.range nt).foldl
        (fun facc tt =>
          let qxi := fun k => word qx ((tb + tt) * npad + (32 * c + 4 * k))
          let sxt := fun b => sxb ((tb + tt) * (npad / 16) + b)
          Function.update facc tt (A.add (facc tt)
            (scaled A wbsc (gemmHalves wa qxi) (sxt (2 * c)) (sxt (2 * c + 1))))) facc)
    fun _ => A.ofInt 0

/-- A warp of `k_gemm_q4b_dp4a`, by its row and its tile of tokens. -/
def gemmWarp (W : DevTensor F) (bscale : Nat → BitVec 16) (npad : Nat) (qx : Bytes) (sxb : Nat → F)
    (n j tb : Nat) : List (Nat × F) :=
  if W.nOut ≤ j ∨ n ≤ tb then []
  else
    let nt := if n - tb < dp4aTile then n - tb else dp4aTile
    (List.range dp4aTile).flatMap fun tt =>
      let v := shfl A 5 (fun lane => gemmLane A W bscale npad qx sxb j tb nt lane tt) 0
      if tt < nt then [((tb + tt) * W.nOut + j, v)] else []

/-- `k_gemm_q4b_dp4a`: blocks of eight rows, by tiles of tokens. -/
def kGemmQ4bDp4a (W : DevTensor F) (bscale : Nat → BitVec 16) (npad : Nat) (qx : Bytes)
    (sxb : Nat → F) (n : Nat) : List (Nat × F) :=
  (List.range ((n + (dp4aTile - 1)) / dp4aTile)).flatMap fun ty =>
    (List.range ((W.nOut + 7) / 8)).flatMap fun bx => (List.range 8).flatMap fun warp =>
      gemmWarp A W bscale npad qx sxb n (bx * 8 + warp) (ty * dp4aTile)

/-- What a call of `gemm_q4b_dp4a_batched` writes, and whether it took the packed path. -/
structure Call (F : Type*) where
  taken : Bool
  quant : Quantised F
  y : List (Nat × F)

/-- `gemm_q4b_dp4a_batched`. A launch may be refused by its grid. -/
def gemmQ4bDp4aBatched (launch : Nat → Nat → Bool) (W : DevTensor F) (X : Nat → F) (nTok : Nat)
    (dqx : Bytes) (dsxb : Nat → F) : Call F :=
  match W.bscale with
  | none => ⟨false, ⟨[], []⟩, []⟩
  | some bscale =>
      if W.prec ≠ 4 then ⟨false, ⟨[], []⟩, []⟩
      else if W.nIn % 32 ≠ 0 then ⟨false, ⟨[], []⟩, []⟩
      else
        let npad := (W.nIn + 31) / 32 * 32
        if launch 1 nTok then
          let quant := kQuantActInt8Batched A X nTok W.nIn npad
          if launch ((W.nOut + 7) / 8) ((nTok + (dp4aTile - 1)) / dp4aTile) then
            ⟨true, quant, kGemmQ4bDp4a A W bscale npad (Writes.run dqx quant.qx)
              (Writes.run dsxb quant.sxb) nTok⟩
          else ⟨false, quant, []⟩
        else ⟨false, ⟨[], []⟩, []⟩

/-- One token alone, as `gemv_w_packed` runs it: its row of the output after the two kernels. -/
def gemvToken (W : DevTensor F) (bscale : Nat → BitVec 16) (x dY : Nat → F) (dqx : Bytes)
    (dsx : Nat → F) : Nat → F :=
  let quant := kQuantActInt8 A x W.nIn ((W.nIn + 31) / 32 * 32)
  Writes.run dY (kGemvQ4bDp4aV2 A W bscale (Writes.run dqx quant.qx) (Writes.run dsx quant.sxb))

/-! What the quantisers write -/

theorem kQuantActInt8_qx (x : Nat → F) (n npad : Nat) :
    Writes.Exactly (kQuantActInt8 A x n npad).qx (· < 16 * (npad / 16)) (code A x n) := by
  have hblock : ∀ b < npad / 16, Writes.Exactly
      ((List.range 16).flatMap fun i => [(16 * b + i, code A x n (16 * b + i))])
      (fun a => ∃ i ∈ List.range 16, a = 16 * b + i) (code A x n) := by
    intro b _
    refine Writes.exactly_flatMap List.nodup_range
      (fun i _ => Writes.exactly_single (code A x n) (16 * b + i)) ?_
    intro i _ i' _ a ha ha'
    omega
  refine (Writes.exactly_strides (by decide) hblock ?_).congr ?_ fun _ _ => rfl
  · rintro b _ b' _ a ⟨i, hi, ha⟩ ⟨i', hi', ha'⟩
    have := List.mem_range.mp hi
    have := List.mem_range.mp hi'
    omega
  · intro a
    constructor
    · rintro ⟨b, hb, i, hi, rfl⟩
      have := List.mem_range.mp hi
      omega
    · intro ha
      exact ⟨a / 16, by omega, a % 16, List.mem_range.mpr (Nat.mod_lt a (by decide)), by omega⟩

theorem kQuantActInt8_sxb (x : Nat → F) (n npad : Nat) :
    Writes.Exactly (kQuantActInt8 A x n npad).sxb (· < npad / 16) (blockScale A x n) := by
  refine (Writes.exactly_strides (by decide)
    (fun b _ => Writes.exactly_single (blockScale A x n) b) ?_).congr ?_ fun _ _ => rfl
  · intro b _ b' _ a ha ha'
    omega
  · intro a
    constructor
    · rintro ⟨b, hb, rfl⟩
      exact hb
    · exact fun ha => ⟨a, ha, rfl⟩

/-- The parts of `n` tokens, each of `w` cells. -/
theorem exactly_tokens {α : Type*} {n w : Nat} {part : Nat → List (Nat × α)} {f : Nat → Nat → α}
    (hpart : ∀ t, Writes.Exactly (part t) (· < w) (f t)) :
    Writes.Exactly ((List.range n).flatMap fun t => (part t).map fun p => (t * w + p.1, p.2))
      (· < n * w) (fun a => f (a / w) (a % w)) := by
  have hsplit : ∀ t a, a < w → (t * w + a) / w = t ∧ (t * w + a) % w = a := by
    intro t a ha
    rw [Nat.mul_comm]
    exact ⟨by rw [Nat.mul_add_div (by omega), Nat.div_eq_of_lt ha, Nat.add_zero],
      by rw [Nat.mul_add_mod, Nat.mod_eq_of_lt ha]⟩
  have htoken : ∀ t ∈ List.range n, Writes.Exactly ((part t).map fun p => (t * w + p.1, p.2))
      (fun a => ∃ b < w, a = t * w + b) (fun a => f (a / w) (a % w)) := by
    intro t _
    refine (hpart t).shift (t * w) fun a ha => ?_
    obtain ⟨hdiv, hmod⟩ := hsplit t a ha
    rw [hdiv, hmod]
  refine (Writes.exactly_flatMap List.nodup_range htoken ?_).congr ?_ fun _ _ => rfl
  · rintro t _ t' _ a ⟨b, hb, ha⟩ ⟨b', hb', ha'⟩
    rw [← (hsplit t b hb).1, ← ha, ha', (hsplit t' b' hb').1]
  · intro a
    constructor
    · rintro ⟨t, ht, b, hb, rfl⟩
      have := Buffer.block_le (w := w) (List.mem_range.mp ht)
      omega
    · intro ha
      have hw : 0 < w := Nat.pos_of_ne_zero fun h => by
        rw [h, Nat.mul_zero] at ha
        omega
      refine ⟨a / w, List.mem_range.mpr ((Nat.div_lt_iff_lt_mul hw).mpr ha), a % w,
        Nat.mod_lt a hw, (Nat.div_add_mod' a w).symm⟩

/-- The row of a token. -/
def tokenRow (X : Nat → F) (nIn t : Nat) : Nat → F := fun i => X (t * nIn + i)

theorem batched_qx (X : Nat → F) (n nIn : Nat) {npad : Nat} (hpad : 16 * (npad / 16) = npad) :
    Writes.Exactly (kQuantActInt8Batched A X n nIn npad).qx (· < n * npad)
      (fun a => code A (tokenRow X nIn (a / npad)) nIn (a % npad)) := by
  apply exactly_tokens (f := fun t => code A (tokenRow X nIn t) nIn)
  intro t
  have hrow := kQuantActInt8_qx A (tokenRow X nIn t) nIn npad
  rw [hpad] at hrow
  exact hrow

theorem batched_sxb (X : Nat → F) (n nIn npad : Nat) :
    Writes.Exactly (kQuantActInt8Batched A X n nIn npad).sxb (· < n * (npad / 16))
      (fun a => blockScale A (tokenRow X nIn (a / (npad / 16))) nIn (a % (npad / 16))) :=
  exactly_tokens (f := fun t => blockScale A (tokenRow X nIn t) nIn) fun t =>
    kQuantActInt8_sxb A (tokenRow X nIn t) nIn npad

/-! One cell of the output -/

/-- A loop over the chunks that keeps an accumulator for each token keeps them apart. -/
theorem foldl_tokens (add : Nat → Nat → F → F) (nt : Nat) (cs : List Nat) (facc : Nat → F)
    {tt : Nat} (htt : tt < nt) :
    cs.foldl (fun facc c => (List.range nt).foldl
        (fun facc tt => Function.update facc tt (add c tt (facc tt))) facc) facc tt =
      cs.foldl (fun acc c => add c tt acc) (facc tt) := by
  have hround : ∀ (c : Nat) (facc : Nat → F) (m : Nat), (List.range m).foldl
      (fun facc tt => Function.update facc tt (add c tt (facc tt))) facc tt =
        if tt < m then add c tt (facc tt) else facc tt := by
    intro c facc m
    induction m with
    | zero => rfl
    | succ m ih =>
        rw [List.range_succ, List.foldl_append, List.foldl_cons, List.foldl_nil]
        rcases Nat.lt_trichotomy tt m with hbelow | rfl | habove
        · rw [Function.update_of_ne (by omega), ih, if_pos hbelow, if_pos (by omega)]
        · rw [Function.update_self, ih, if_neg (lt_irrefl tt), if_pos (Nat.lt_succ_self tt)]
        · rw [Function.update_of_ne (by omega), ih, if_neg (by omega), if_neg (by omega)]
  induction cs generalizing facc with
  | nil => rfl
  | cons c cs ih =>
      rw [List.foldl_cons, ih, hround, if_pos htt]
      rfl

variable (W : DevTensor F) (bscale : Nat → BitVec 16)

/-- A lane of the batched kernel does for each token what one of the other kernel does. -/
theorem gemmLane_eq (npad : Nat) (qx : Bytes) (sxb : Nat → F) (j tb : Nat) {nt tt : Nat}
    (htt : tt < nt) (lane : Nat) :
    gemmLane A W bscale npad qx sxb j tb nt lane tt =
      gemvLane A W bscale (fun i => qx ((tb + tt) * npad + i))
        (fun b => sxb ((tb + tt) * (npad / 16) + b)) j lane :=
  foldl_tokens (fun c tt acc => A.add acc (scaled A (A.half (bscale (j * W.bsNblk + c)))
    (gemmHalves (unpacked (wordsOf W j c)) fun k => word qx ((tb + tt) * npad + (32 * c + 4 * k)))
    (sxb ((tb + tt) * (npad / 16) + 2 * c)) (sxb ((tb + tt) * (npad / 16) + (2 * c + 1))))) nt _ _ htt

/-- A lane reads the codes below `in` and their scales. -/
theorem gemvLane_congr {qx qx' : Bytes} {sxb sxb' : Nat → F} (hqx : ∀ i < W.nIn, qx i = qx' i)
    (hsxb : ∀ b < W.nIn / 16, sxb b = sxb' b) (j lane : Nat) :
    gemvLane A W bscale qx sxb j lane = gemvLane A W bscale qx' sxb' j lane := by
  unfold gemvLane
  apply List.foldl_ext
  intro acc c hc
  have hcn : c < W.nIn / 32 :=
    ((Writes.mem_strides (by decide) (Nat.le_add_left _ lane)).mp hc).2.1
  have hword : ∀ k < 8, word qx (32 * c + 4 * k) = word qx' (32 * c + 4 * k) := by
    intro k hk
    simp only [word, hqx _ (show 32 * c + 4 * k < W.nIn by omega),
      hqx _ (show 32 * c + 4 * k + 1 < W.nIn by omega),
      hqx _ (show 32 * c + 4 * k + 2 < W.nIn by omega),
      hqx _ (show 32 * c + 4 * k + 3 < W.nIn by omega)]
  have hhalves : (gemvHalves (wordsOf W j c) fun k => word qx (32 * c + 4 * k)) =
      gemvHalves (wordsOf W j c) fun k => word qx' (32 * c + 4 * k) := by
    simp only [gemvHalves, hword 0 (by decide), hword 1 (by decide), hword 2 (by decide),
      hword 3 (by decide), hword 4 (by decide), hword 5 (by decide), hword 6 (by decide),
      hword 7 (by decide)]
  rw [hhalves, hsxb (2 * c) (by omega), hsxb (2 * c + 1) (by omega)]

/-! What the kernels write -/

theorem kGemvQ4bDp4aV2_exactly (qx : Bytes) (sxb : Nat → F) :
    Writes.Exactly (kGemvQ4bDp4aV2 A W bscale qx sxb) (· < W.nOut)
      (fun j => shfl A 5 (gemvLane A W bscale qx sxb j) 0) := by
  generalize hvalue : (fun j => shfl A 5 (gemvLane A W bscale qx sxb j) 0) = value
  have hpart : ∀ j < W.nOut, Writes.Exactly
      (if W.nOut ≤ j then [] else [(j, value j)]) (fun a => a = j) value := by
    intro j hj
    rw [if_neg (Nat.not_le.mpr hj)]
    exact Writes.exactly_single value j
  have hrows := Writes.exactly_tiles (w := 8) (by decide) hpart (fun j hj => if_pos hj)
    fun i _ j _ a ha ha' => ha.symm.trans ha'
  rw [← hvalue] at hrows ⊢
  exact hrows.congr (fun a => ⟨fun ⟨j, hj, ha⟩ => ha ▸ hj, fun ha => ⟨a, ha, rfl⟩⟩) fun _ _ => rfl

/-- A cell of the batched output, from the scratch. -/
def gemmCell (npad : Nat) (qx : Bytes) (sxb : Nat → F) (t j : Nat) : F :=
  shfl A 5 (gemvLane A W bscale (fun i => qx (t * npad + i))
    (fun b => sxb (t * (npad / 16) + b)) j) 0

variable {W} in
theorem row_col {t j : Nat} (hj : j < W.nOut) :
    (t * W.nOut + j) / W.nOut = t ∧ (t * W.nOut + j) % W.nOut = j := by
  rw [Nat.mul_comm]
  exact ⟨by rw [Nat.mul_add_div (by omega), Nat.div_eq_of_lt hj, Nat.add_zero],
    by rw [Nat.mul_add_mod, Nat.mod_eq_of_lt hj]⟩

/-- A warp writes its row for every token of its tile; the last tile is cut off at `n`. -/
theorem gemmWarp_exactly (npad : Nat) (qx : Bytes) (sxb : Nat → F) {n j tb : Nat}
    (hj : j < W.nOut) (htb : tb < n) :
    Writes.Exactly (gemmWarp A W bscale npad qx sxb n j tb)
      (fun a => ∃ t, tb ≤ t ∧ t < tb + dp4aTile ∧ t < n ∧ a = t * W.nOut + j)
      (fun a => gemmCell A W bscale npad qx sxb (a / W.nOut) (a % W.nOut)) := by
  generalize hvalue : (fun a => gemmCell A W bscale npad qx sxb (a / W.nOut) (a % W.nOut)) = value
  have hcell : ∀ t, value (t * W.nOut + j) = gemmCell A W bscale npad qx sxb t j := by
    intro t
    obtain ⟨hdiv, hmod⟩ := row_col (t := t) hj
    rw [← hvalue]
    simp only [hdiv, hmod]
  rw [gemmWarp, if_neg (by omega)]
  simp only
  generalize hnt : (if n - tb < dp4aTile then n - tb else dp4aTile) = nt
  have hclamp : ∀ tt, tt < nt ↔ tt < dp4aTile ∧ tb + tt < n := by
    intro tt
    rw [← hnt]
    split <;> omega
  have htoken : ∀ tt ∈ List.range dp4aTile, Writes.Exactly
      (if tt < nt then [((tb + tt) * W.nOut + j,
        shfl A 5 (fun lane => gemmLane A W bscale npad qx sxb j tb nt lane tt) 0)] else [])
      (fun a => tt < nt ∧ a = (tb + tt) * W.nOut + j) value := by
    intro tt _
    split
    · rename_i htt
      have hlanes : (fun lane => gemmLane A W bscale npad qx sxb j tb nt lane tt) =
          gemvLane A W bscale (fun i => qx ((tb + tt) * npad + i))
            (fun b => sxb ((tb + tt) * (npad / 16) + b)) j :=
        funext fun lane => gemmLane_eq A W bscale npad qx sxb j tb htt lane
      have hvalue' : shfl A 5 (fun lane => gemmLane A W bscale npad qx sxb j tb nt lane tt) 0 =
          value ((tb + tt) * W.nOut + j) := by
        rw [hcell, hlanes]
        rfl
      rw [hvalue']
      exact (Writes.exactly_single value _).congr (fun a => ⟨fun h => ⟨htt, h⟩, fun h => h.2⟩)
        fun _ _ => rfl
    · rename_i htt
      exact (Writes.exactly_nil value).congr (fun a => ⟨False.elim, fun h => absurd h.1 htt⟩)
        fun _ _ => rfl
  refine (Writes.exactly_flatMap List.nodup_range htoken ?_).congr ?_ fun _ _ => rfl
  · rintro tt _ tt' _ a ⟨-, ha⟩ ⟨-, ha'⟩
    have hdiv := (row_col (t := tb + tt) hj).1
    rw [← ha, ha', (row_col (t := tb + tt') hj).1] at hdiv
    omega
  · intro a
    constructor
    · rintro ⟨tt, -, htt, rfl⟩
      obtain ⟨htile, hn⟩ := (hclamp tt).mp htt
      exact ⟨tb + tt, by omega, by omega, hn, rfl⟩
    · rintro ⟨t, hlo, hhi, hn, rfl⟩
      refine ⟨t - tb, List.mem_range.mpr (by omega), (hclamp _).mpr (by omega), ?_⟩
      rw [Nat.add_sub_cancel' hlo]

/-- Every cell of the output is written once, whatever the sizes leave in the last tile and the
last block. -/
theorem kGemmQ4bDp4a_exactly (npad : Nat) (qx : Bytes) (sxb : Nat → F) (n : Nat) :
    Writes.Exactly (kGemmQ4bDp4a A W bscale npad qx sxb n) (· < n * W.nOut)
      (fun a => gemmCell A W bscale npad qx sxb (a / W.nOut) (a % W.nOut)) := by
  have htile : ∀ ty ∈ List.range ((n + (dp4aTile - 1)) / dp4aTile), Writes.Exactly
      ((List.range ((W.nOut + 7) / 8)).flatMap fun bx => (List.range 8).flatMap fun warp =>
        gemmWarp A W bscale npad qx sxb n (bx * 8 + warp) (ty * dp4aTile))
      (fun a => ∃ j < W.nOut, ∃ t, ty * dp4aTile ≤ t ∧ t < ty * dp4aTile + dp4aTile ∧ t < n ∧
        a = t * W.nOut + j)
      (fun a => gemmCell A W bscale npad qx sxb (a / W.nOut) (a % W.nOut)) := by
    intro ty hty
    have htb : ty * dp4aTile < n := by
      have := List.mem_range.mp hty
      unfold dp4aTile at this ⊢
      omega
    refine Writes.exactly_tiles (w := 8) (by decide)
      (fun j hj => gemmWarp_exactly A W bscale npad qx sxb hj htb)
      (fun j hj => if_pos (Or.inl hj)) ?_
    rintro i hi j hj a ⟨t, -, -, -, rfl⟩ ⟨t', -, -, -, heq⟩
    have hmod := (row_col (t := t) hi).2
    rw [heq, (row_col (t := t') hj).2] at hmod
    exact hmod.symm
  refine (Writes.exactly_flatMap List.nodup_range htile ?_).congr ?_ fun _ _ => rfl
  · rintro ty _ ty' _ a ⟨j, hj, t, hlo, hhi, -, rfl⟩ ⟨j', hj', t', hlo', hhi', -, heq⟩
    have hdiv := (row_col (t := t) hj).1
    rw [heq, (row_col (t := t') hj').1] at hdiv
    unfold dp4aTile at hlo hhi hlo' hhi'
    omega
  · intro a
    constructor
    · rintro ⟨ty, -, j, hj, t, -, -, hn, rfl⟩
      have := Buffer.block_le (w := W.nOut) hn
      omega
    · intro ha
      have hout : 0 < W.nOut := Nat.pos_of_ne_zero fun h => by
        rw [h, Nat.mul_zero] at ha
        omega
      have hn : a / W.nOut < n := (Nat.div_lt_iff_lt_mul hout).mpr ha
      refine ⟨a / W.nOut / dp4aTile, List.mem_range.mpr ?_, a % W.nOut, Nat.mod_lt a hout,
        a / W.nOut, ?_, ?_, hn, (Nat.div_add_mod' a W.nOut).symm⟩
      all_goals
        unfold dp4aTile
        omega

/-! One token and many -/

variable {W}

/-- A row of the output for one activation. -/
def cell (W : DevTensor F) (x : Nat → F) (j : Nat) : F :=
  shfl A 5 (gemvLane A W bscale (code A x W.nIn) (blockScale A x W.nIn) j) 0

theorem padded (hin : W.nIn % 32 = 0) : (W.nIn + 31) / 32 * 32 = W.nIn := by omega

/-- A token alone has its row, whatever the scratch held. -/
theorem gemvToken_eq (hin : W.nIn % 32 = 0) (x dY : Nat → F) (dqx : Bytes) (dsx : Nat → F) {j : Nat}
    (hj : j < W.nOut) : gemvToken A W bscale x dY dqx dsx j = cell A bscale W x j := by
  generalize hqx : Writes.run dqx (kQuantActInt8 A x W.nIn W.nIn).qx = qx
  generalize hsxb : Writes.run dsx (kQuantActInt8 A x W.nIn W.nIn).sxb = sxb
  have hrun : gemvToken A W bscale x dY dqx dsx j =
      Writes.run dY (kGemvQ4bDp4aV2 A W bscale qx sxb) j := by
    rw [gemvToken, padded hin, hqx, hsxb]
  rw [hrun, (kGemvQ4bDp4aV2_exactly A W bscale qx sxb).run_inside dY hj, cell]
  congr 1
  funext lane
  apply gemvLane_congr
  · intro i hi
    rw [← hqx]
    exact (kQuantActInt8_qx A x W.nIn W.nIn).run_inside dqx (by omega)
  · intro b hb
    rw [← hsxb]
    exact (kQuantActInt8_sxb A x W.nIn W.nIn).run_inside dsx hb

/-- The scratch of many tokens has the same row in the part of its token. -/
theorem gemmCell_eq (hin : W.nIn % 32 = 0) (X : Nat → F) {n t j : Nat} (ht : t < n) (dqx : Bytes)
    (dsxb : Nat → F) :
    gemmCell A W bscale W.nIn (Writes.run dqx (kQuantActInt8Batched A X n W.nIn W.nIn).qx)
      (Writes.run dsxb (kQuantActInt8Batched A X n W.nIn W.nIn).sxb) t j =
        cell A bscale W (tokenRow X W.nIn t) j := by
  have hpad : 16 * (W.nIn / 16) = W.nIn := by omega
  have hsplit : ∀ {w a : Nat}, a < w → t * w + a < n * w ∧ (t * w + a) / w = t ∧
      (t * w + a) % w = a := by
    intro w a ha
    have hend := Buffer.block_le (w := w) ht
    refine ⟨by omega, ?_, ?_⟩
    · rw [Nat.mul_comm, Nat.mul_add_div (by omega), Nat.div_eq_of_lt ha, Nat.add_zero]
    · rw [Nat.mul_comm, Nat.mul_add_mod, Nat.mod_eq_of_lt ha]
  rw [gemmCell, cell]
  congr 1
  funext lane
  apply gemvLane_congr
  · intro i hi
    obtain ⟨hlt, hdiv, hmod⟩ := hsplit hi
    rw [(batched_qx A X n W.nIn hpad).run_inside dqx hlt, hdiv, hmod]
  · intro b hb
    obtain ⟨hlt, hdiv, hmod⟩ := hsplit hb
    rw [(batched_sxb A X n W.nIn W.nIn).run_inside dsxb hlt, hdiv, hmod]

/-! Exact arithmetic -/

section Exact

variable [Field F] [LinearOrder F]

/-- The operations without rounding. -/
def exactOps (C : Conversions F) : FloatOps F where
  ofInt := fun z => z
  add := (· + ·)
  mul := (· * ·)
  div := (· / ·)
  abs := fun x => |x|
  gt := fun x y => decide (y < x)
  nearest := C.nearest
  half := C.half

variable (C : Conversions F)

omit [LinearOrder F] in
theorem strided_foldl (stride n : Nat) (f : Nat → F) (fuel start : Nat) (acc : F) :
    Reduction.strided stride n f fuel start acc =
      (strides stride n fuel start).foldl (fun acc c => acc + f c) acc := by
  induction fuel generalizing start acc with
  | zero => rfl
  | succ fuel ih =>
      rw [Reduction.strided, strides]
      split
      · rw [List.foldl_cons]
        exact ih _ _
      · rfl

theorem shfl_exact (k : Nat) (v : Nat → F) :
    shfl (exactOps C) k v = Reduction.tree shflStep k v := by
  induction k generalizing v with
  | zero => rfl
  | succ k ih => exact ih _

/-- The kernel over exact numbers. -/
theorem gemv_exact (W : DevTensor F) (s : Scratch F) (j : Nat) :
    shfl (exactOps C) 5 (gemvLane (exactOps C) W bscale s.qx s.sxb j) 0 =
      gemvQ4bV2 C W s j bscale := by
  rw [shfl_exact, gemvQ4bV2]
  congr 1
  funext lane
  rw [Reduction.lane, strided_foldl, gemvLane]
  have hzero : (exactOps C).ofInt 0 = 0 := Int.cast_zero
  rw [hzero]
  rfl

theorem blockMax_exact (x : Nat → F) (n b : Nat) : blockMax (exactOps C) x n b = actMax x n b := by
  have hzero : (exactOps C).ofInt 0 = 0 := Int.cast_zero
  unfold blockMax actMax
  rw [hzero]
  apply List.foldl_ext
  intro m i _
  simp only [exactOps, decide_eq_true_eq]

theorem blockScale_exact (x : Nat → F) (n b : Nat) :
    blockScale (exactOps C) x n b = actScale x n b := by
  rw [blockScale, actScale, blockMax_exact]
  simp only [exactOps, decide_eq_true_eq, Int.cast_zero, Int.cast_one, Int.cast_ofNat]

theorem code_exact (x : Nat → F) (n i : Nat) :
    code (exactOps C) x n i = BitVec.ofInt 8 (actCode C x n i) := by
  rw [code, actCode, blockScale_exact]
  simp only [exactOps, Int.cast_zero, Int.cast_one]

/-- One token alone is the decode's product. -/
theorem gemvToken_exact {W : DevTensor F} (hin : W.nIn % 32 = 0) (x dY : Nat → F) (dqx : Bytes)
    (dsx : Nat → F) (s : Scratch F) {j : Nat} (hj : j < W.nOut) :
    gemvToken (exactOps C) W bscale x dY dqx dsx j =
      gemvQ4bV2 C W (quantActInt8 C x W.nIn W.nIn s) j bscale := by
  rw [gemvToken_eq _ _ hin x dY dqx dsx hj, ← gemv_exact, cell]
  congr 1
  funext lane
  apply gemvLane_congr
  · intro i hi
    rw [code_exact]
    exact (if_pos (by omega)).symm
  · intro b hb
    rw [blockScale_exact]
    exact (if_pos hb).symm

end Exact

/-- A grid that the device takes. -/
def gridFits (x y : Nat) : Bool := decide (0 < x ∧ x < 2 ^ 31 ∧ 0 < y ∧ y < 2 ^ 16)

/-- One row of thirty-two nibbles, with the scale 1. -/
def rowTensor : DevTensor ℚ where
  nIn := 32
  nOut := 1
  prec := 4
  f32 := none
  codes _ := 0x11
  rowOff r := 16 * r
  rowScale := none
  rowPrec _ := 4
  bscale := some fun _ => 0x3C00
  bsNblk := 1

end ShannonPrime.Cuda.BatchedGemm
