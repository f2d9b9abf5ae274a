import Mathlib.Algebra.BigOperators.ModEq
import ShannonPrime.Ntt.MatmulQ

/-!
A product of matrices of codes, sharded over two devices (`sp_trick1/src/lib.rs`,
`sp_trick1_smoke.rs`): each computes it modulo its own prime, on the host or on the DSP, and
the host recombines the residues.
-/

namespace ShannonPrime.Ntt

open Bounded (Buf Returns)
open Buffer (forCells store vec)
open CInt (wrap)

/-- A signed result of `bits` bits. -/
def Build.signed (build : Build) (bits : Nat) (x : Int) : Option Int :=
  match build with
  | .debug => if -2 ^ (bits - 1) ≤ x ∧ x < 2 ^ (bits - 1) then some x else none
  | .release => some (x.bmod (2 ^ bits))

/-- `lift_q8_to_zq`, of an `i8` code. -/
def liftQ8ToZq (code : Int) (q : Nat) : Nat :=
  if code ≥ 0 then (code % 2 ^ 32).toNat
  else ((q - -code) % 2 ^ 32).toNat

/-! The DSP -/

/-- Where the DSP maps the three buffers of a call. -/
structure Mapped where
  x : Nat
  w : Nat
  y : Nat

/-- `sp_compute_matmul_q` -/
def computeMatmulQ (qIdx batch dIn dOut : Int) (x w y : Buf Nat) : Option (Returns Nat) :=
  if qIdx < 0 ∨ qIdx > 1 then some .rejected
  else if batch < 1 ∨ dIn < 1 ∨ dOut < 32 then some .rejected
  else if dOut.tmod 32 ≠ 0 then some .rejected
  else if x.addr = 0 ∨ w.addr = 0 ∨ y.addr = 0 then some .rejected
  else if x.len ≠ wrap (wrap (batch * dIn) * 4) then some .rejected
  else if w.len ≠ wrap (wrap (dIn * dOut) * 4) then some .rejected
  else if y.len ≠ wrap (wrap (batch * dOut) * 4) then some .rejected
  else matmulQHvx qIdx batch dIn dOut x w y

/-- A slice of words as the DSP sees it. -/
def sliceBuf (addr : Nat) (l : List Nat) : Buf Nat :=
  ⟨addr, wrap (4 * l.length), fun i => l.getD i 0⟩

@[simp] theorem sliceBuf_len (addr : Nat) (l : List Nat) :
    (sliceBuf addr l).len = wrap (4 * l.length) := by
  rw [sliceBuf]

/-- `invoke_matmul_q`; a call that the DSP refuses is an error. -/
def invokeMatmulQ (build : Build) (m : Mapped) (qIdx : Int) (batch dIn dOut : Nat)
    (x w : List Nat) : Option (List Nat) := do
  let words ← build.signed 32 (wrap batch * wrap dOut)
  let yBytes ← build.word 64 (4 * (words % 2 ^ 64))
  match ← computeMatmulQ qIdx (wrap batch) (wrap dIn) (wrap dOut) (sliceBuf m.x x)
      (sliceBuf m.w w) ⟨m.y, wrap yBytes, fun _ => 0⟩ with
  | .rejected => none
  | .done out => some (vec (yBytes / 4) out)

/-- The device that computes a residue. -/
inductive Island
  | arm
  | dsp (m : Mapped)

def Island.matmul (island : Island) (build : Build) (qIdx : Int) (batch dIn dOut : Nat)
    (x w : List Nat) : Option (List Nat) :=
  match island with
  | .arm => (matmulQScalarRef build qIdx batch dIn dOut x w).map (vec (batch * dOut))
  | .dsp m => invokeMatmulQ build m qIdx batch dIn dOut x w

/-- Both residues and their recombination. -/
def shardedMatmul (build : Build) (first second : Island) (batch dIn dOut : Nat)
    (x w : List Int) : Option (List Int) := do
  let y1 ← first.matmul build 0 batch dIn dOut (x.map (liftQ8ToZq · q1.q))
    (w.map (liftQ8ToZq · q1.q))
  let y2 ← second.matmul build 1 batch dIn dOut (x.map (liftQ8ToZq · q2.q))
    (w.map (liftQ8ToZq · q2.q))
  garnerCombineQ1Q2Signed build y1 y2

/-! The signed product -/

/-- The loop over `k`. -/
def signedStep (build : Build) (dIn dOut b i : Nat) (x w : List Int) (acc : Int) (k : Nat) :
    Option Int := do
  let xv ← x[← build.word 64 (b * dIn + k : Nat)]?
  let wv ← w[← build.word 64 (k * dOut + i : Nat)]?
  let prod ← build.signed 64 (xv * wv)
  build.signed 64 (acc + prod)

def signedCell (build : Build) (dIn dOut b i : Nat) (x w : List Int) : Option Int :=
  (List.range dIn).foldlM (signedStep build dIn dOut b i x w) 0

/-- `matmul_int8_signed_ref` -/
def matmulInt8SignedRef (build : Build) (batch dIn dOut : Nat) (x w : List Int) :
    Option (List Int) := do
  let xLen ← build.word 64 (batch * dIn : Nat)
  let wLen ← build.word 64 (dIn * dOut : Nat)
  if x.length ≠ xLen ∨ w.length ≠ wLen then none
  else do
    let y ← (List.range batch).foldlM
      (fun y b => (List.range dOut).foldlM
        (fun y i => do
          let acc ← signedCell build dIn dOut b i x w
          some (store y (← build.word 64 (b * dOut + i : Nat)) 1 fun _ => acc))
        y)
      fun _ => 0
    some (vec (batch * dOut) y)

/-- The cells of the product of the codes. -/
def signedCells (dIn dOut : Nat) (x w : List Int) (c : Nat) : Int :=
  ∑ k ∈ Finset.range dIn, x.getD (c / dOut * dIn + k) 0 * w.getD (k * dOut + c % dOut) 0

/-! The codes -/

/-- A matrix of codes whose words have an `int` number of bytes. -/
structure Codes (l : List Int) (rows cols : Nat) : Prop where
  length : l.length = rows * cols
  code : ∀ c ∈ l, -128 ≤ c ∧ c ≤ 127
  bytes : 4 * (rows * cols) < 2 ^ 31

section

variable {M : Modulus} {c : Int}

theorem liftQ8ToZq_eq (hlo : -128 ≤ c) (hhi : c ≤ 127) : (liftQ8ToZq c M.q : Int) = c % M.q := by
  have hlower := M.lower
  have hupper := M.upper
  rw [liftQ8ToZq]
  split
  · rw [Int.emod_eq_of_lt (by omega) (by omega), Int.emod_eq_of_lt (by omega) (by omega),
      Int.toNat_of_nonneg (by omega)]
  · have hturn : c % M.q = c + M.q := by
      rw [← Int.add_emod_right, Int.emod_eq_of_lt (by omega) (by omega)]
    rw [Int.emod_eq_of_lt (by omega) (by omega), Int.toNat_of_nonneg (by omega), hturn]
    omega

theorem liftQ8ToZq_lt (hlo : -128 ≤ c) (hhi : c ≤ 127) : liftQ8ToZq c M.q < M.q := by
  have hpos : (0 : Int) < M.q := by exact_mod_cast M.q_pos
  have hlt := Int.emod_lt_of_pos c hpos
  rw [← liftQ8ToZq_eq hlo hhi] at hlt
  exact_mod_cast hlt

end

namespace Codes

variable {l : List Int} {rows cols : Nat}

theorem getD_code (h : Codes l rows cols) (i : Nat) : -128 ≤ l.getD i 0 ∧ l.getD i 0 ≤ 127 := by
  rw [List.getD_eq_getElem?_getD]
  cases hc : l[i]? with
  | none => decide
  | some c => exact h.code c (List.mem_of_getElem? hc)

/-- What the DSP reads of the residues. -/
theorem cells (M : Modulus) (addr : Nat) :
    (sliceBuf addr (l.map (liftQ8ToZq · M.q))).cells = fun i => liftQ8ToZq (l.getD i 0) M.q := by
  funext i
  change (l.map (liftQ8ToZq · M.q)).getD i 0 = _
  rw [List.getD_eq_getElem?_getD, List.getElem?_map, List.getD_eq_getElem?_getD]
  cases l[i]? with
  | none => rfl
  | some c => rfl

theorem len (h : Codes l rows cols) (M : Modulus) (addr : Nat) :
    (sliceBuf addr (l.map (liftQ8ToZq · M.q))).len = (4 * (rows * cols) : Nat) := by
  have hbytes := h.bytes
  rw [sliceBuf_len, List.length_map, h.length, Nat.cast_mul 4, Nat.cast_ofNat]
  exact CInt.wrap_of_fits ⟨by omega, by omega⟩

theorem matrix (h : Codes l rows cols) (M : Modulus) (addr : Nat) :
    Matrix (sliceBuf addr (l.map (liftQ8ToZq · M.q))) M rows cols where
  words := by
    have hbytes := h.bytes
    have hlen := h.len M addr
    exact ⟨by omega, hlen.ge⟩
  residue i _ := by
    rw [cells]
    exact liftQ8ToZq_lt (h.getD_code i).1 (h.getD_code i).2

/-- The residues of the codes, as the host passes them. -/
theorem residues_eq (h : Codes l rows cols) (M : Modulus) (addr : Nat) :
    l.map (liftQ8ToZq · M.q) =
      vec (rows * cols) (sliceBuf addr (l.map (liftQ8ToZq · M.q))).cells := by
  apply List.ext_getElem?
  intro i
  rw [vec, List.getElem?_map, List.getElem?_map, ← h.length]
  rcases Nat.lt_or_ge i l.length with hi | hi
  · have hcode : l.getD i 0 = l[i] := by
      rw [List.getD_eq_getElem?_getD, List.getElem?_eq_getElem hi, Option.getD_some]
    simp only [List.getElem?_range hi, List.getElem?_eq_getElem hi, Option.map_some, cells, hcode]
  · rw [List.getElem?_eq_none hi, List.getElem?_eq_none (by simpa using hi)]
    rfl

end Codes

/-! One device -/

/-- What a device asks of a call. -/
def Island.Admits (island : Island) (batch dIn dOut : Nat) : Prop :=
  match island with
  | .arm => True
  | .dsp m => 1 ≤ batch ∧ 1 ≤ dIn ∧ 32 ≤ dOut ∧ dOut % 32 = 0 ∧
      m.x ≠ 0 ∧ m.w ≠ 0 ∧ m.y ≠ 0 ∧ m.w % 128 = 0 ∧ m.y % 128 = 0

instance (island : Island) (batch dIn dOut : Nat) : Decidable (island.Admits batch dIn dOut) :=
  match island with
  | .arm => isTrue trivial
  | .dsp _ => inferInstanceAs (Decidable (_ ∧ _))

section

variable {batch dIn dOut : Nat} {x w : List Int} {M : Modulus}

theorem wrap_natCast {n : Nat} (h : n < 2 ^ 31) : wrap n = n :=
  CInt.wrap_of_fits ⟨by omega, by exact_mod_cast h⟩

theorem wrap_mul {r c : Nat} (h : 4 * (r * c) < 2 ^ 31) : wrap r * wrap c = (r * c : Nat) := by
  rcases Nat.eq_zero_or_pos r with rfl | hr
  · rw [Nat.zero_mul]
    exact Int.zero_mul _
  rcases Nat.eq_zero_or_pos c with rfl | hc
  · exact Int.mul_zero _
  have hrow : r ≤ r * c := Nat.le_mul_of_pos_right r hc
  have hcol : c ≤ r * c := Nat.le_mul_of_pos_left c hr
  rw [wrap_natCast (by omega), wrap_natCast (by omega), Nat.cast_mul]

theorem wrap_bytes {r c : Nat} (h : 4 * (r * c) < 2 ^ 31) :
    wrap (wrap (r * c) * 4) = (4 * (r * c) : Nat) := by
  rw [Bounded.wrap_row (by omega), Nat.cast_mul 4, Nat.cast_ofNat, mul_comm (4 : Int)]
  exact CInt.wrap_of_fits ⟨by omega, by omega⟩

theorem signed_of_fits (build : Build) {bits : Nat} (hbits : 0 < bits) {v : Int}
    (hlo : -2 ^ (bits - 1) ≤ v) (hhi : v < 2 ^ (bits - 1)) : build.signed bits v = some v := by
  cases build
  case debug => exact if_pos ⟨hlo, hhi⟩
  case release =>
    have hdouble : (2 : Int) ^ bits = 2 * 2 ^ (bits - 1) := by
      rw [← pow_succ', Nat.sub_add_cancel hbits]
    apply congrArg some
    apply Int.bmod_eq_of_le_mul_two
    · push_cast
      omega
    · push_cast
      omega

theorem computeMatmulQ_refuses {qIdx batch dIn dOut : Int} {x w y : Buf Nat}
    (h : ¬ MatmulAdmits qIdx batch dIn dOut x w y) :
    computeMatmulQ qIdx batch dIn dOut x w y = some .rejected := by
  unfold computeMatmulQ
  repeat' split
  all_goals first | rfl | exact matmulQHvx_rejects h

/-- A call that the DSP takes computes every cell of the product. -/
theorem computeMatmulQ_eq {qIdx : Int} {x w y : Buf Nat}
    (h : MatmulAdmits qIdx batch dIn dOut x w y) (hx : Matrix x (qMu qIdx) batch dIn)
    (hw : Matrix w (qMu qIdx) dIn dOut) (hy : y.Holds 4 batch dOut)
    (hxLen : x.len = (4 * (batch * dIn) : Nat)) (hwLen : w.len = (4 * (dIn * dOut) : Nat))
    (hyLen : y.len = (4 * (batch * dOut) : Nat)) :
    computeMatmulQ qIdx batch dIn dOut x w y = some (.done (forCells (batch * dOut)
      (fun c _ => matmulCells (qMu qIdx) dIn dOut x.cells w.cells c) y.cells)) := by
  obtain ⟨hprime, hbatch, hdIn, hdOut, hvectors, ⟨hxNull, hwNull, hyNull⟩, haligned⟩ := id h
  have htmod : (dOut : Int).tmod 32 = 0 := by
    rw [Int.tmod_eq_emod_of_nonneg (by omega), hvectors]
  rw [computeMatmulQ, if_neg (by omega), if_neg (by omega), if_neg (by omega), if_neg (by omega),
    if_neg (not_not.mpr (by rw [hxLen, wrap_bytes hx.words.lt])),
    if_neg (not_not.mpr (by rw [hwLen, wrap_bytes hw.words.lt])),
    if_neg (not_not.mpr (by rw [hyLen, wrap_bytes hy.lt])), matmulQHvx_admitted h]
  simp only [Int.toNat_natCast]
  rw [matmulRows_eq hx hw hy (by omega)]
  rfl

/-- A call whose dimensions the DSP takes after their casts. -/
theorem MatmulAdmits.of_wrap {qIdx : Int} {x w y : Buf Nat}
    (h : MatmulAdmits qIdx (wrap batch) (wrap dIn) (wrap dOut) x w y)
    (hx : 4 * (batch * dIn) < 2 ^ 31) (hy : 4 * (batch * dOut) < 2 ^ 31) :
    batch < 2 ^ 31 ∧ dIn < 2 ^ 31 ∧ dOut < 2 ^ 31 := by
  have hpos : ∀ n : Nat, 1 ≤ wrap n → 0 < n := by
    intro n hn
    by_contra hzero
    obtain rfl : n = 0 := by omega
    exact absurd hn (by decide)
  have hbatch := hpos batch h.someRows
  have hdIn := hpos dIn h.someTerms
  have hdOut := hpos dOut (by
    have := h.someVectors
    omega)
  have hrow : batch ≤ batch * dIn := Nat.le_mul_of_pos_right batch hdIn
  have hterm : dIn ≤ batch * dIn := Nat.le_mul_of_pos_left dIn hbatch
  have hcol : dOut ≤ batch * dOut := Nat.le_mul_of_pos_left dOut hbatch
  exact ⟨by omega, by omega, by omega⟩

/-- The call of the DSP, without the casts of the lengths. -/
theorem invokeMatmulQ_eq (build : Build) (m : Mapped) {qIdx : Int} (x w : List Nat)
    (hy : 4 * (batch * dOut) < 2 ^ 31) :
    invokeMatmulQ build m qIdx batch dIn dOut x w =
      (computeMatmulQ qIdx (wrap batch) (wrap dIn) (wrap dOut) (sliceBuf m.x x) (sliceBuf m.w w)
        ⟨m.y, (4 * (batch * dOut) : Nat), fun _ => 0⟩).bind fun
          | .rejected => none
          | .done out => some (vec (batch * dOut) out) := by
  have hwords : build.signed 32 (wrap batch * wrap dOut) = some ((batch * dOut : Nat) : Int) := by
    rw [wrap_mul hy]
    exact signed_of_fits build (by decide) (by omega) (by omega)
  have hbytes : build.word 64 (4 * (((batch * dOut : Nat) : Int) % 2 ^ 64)) =
      some (4 * (batch * dOut)) := by
    rw [Int.emod_eq_of_lt (by omega) (by omega)]
    exact word_of_lt build (x := 4 * (batch * dOut)) (by omega)
  have hlen : wrap (4 * (batch * dOut) : Nat) = (4 * (batch * dOut) : Nat) := wrap_natCast hy
  simp only [invokeMatmulQ, hwords, hbytes, Option.bind_eq_bind, Option.bind_some, hlen,
    Nat.mul_div_cancel_left _ (show 0 < 4 by decide)]

/-- What a device makes of the residues of the codes. -/
theorem Island.matmul_eq (island : Island) (build : Build) {qIdx : Int}
    (hprime : qIdx = 0 ∨ qIdx = 1) (hx : Codes x batch dIn) (hw : Codes w dIn dOut)
    (hy : 4 * (batch * dOut) < 2 ^ 31) :
    (island.Admits batch dIn dOut → island.matmul build qIdx batch dIn dOut
        (x.map (liftQ8ToZq · (qMu qIdx).q)) (w.map (liftQ8ToZq · (qMu qIdx).q)) =
      some (vec (batch * dOut) (matmulCells (qMu qIdx) dIn dOut
        (fun i => liftQ8ToZq (x.getD i 0) (qMu qIdx).q)
        (fun i => liftQ8ToZq (w.getD i 0) (qMu qIdx).q)))) ∧
    (¬ island.Admits batch dIn dOut → island.matmul build qIdx batch dIn dOut
        (x.map (liftQ8ToZq · (qMu qIdx).q)) (w.map (liftQ8ToZq · (qMu qIdx).q)) = none) := by
  cases island with
  | arm =>
      refine ⟨fun _ => ?_, fun h => absurd trivial h⟩
      have href := matmulQScalarRef_eq build (hx.matrix (qMu qIdx) 0) (hw.matrix (qMu qIdx) 0)
        (by omega)
      rw [← hx.residues_eq, ← hw.residues_eq, Codes.cells, Codes.cells] at href
      rw [Island.matmul, href, Option.map_some]
      apply congrArg some
      apply Buffer.vec_congr
      intro c hc
      exact if_pos hc
  | dsp m =>
      have hyHolds :
          Buf.Holds 4 (⟨m.y, (4 * (batch * dOut) : Nat), fun _ => 0⟩ : Buf Nat) batch dOut :=
        ⟨(Nat.cast_lt (n := 2 ^ 31)).mpr hy, le_refl _⟩
      rw [Island.matmul, invokeMatmulQ_eq build m _ _ hy]
      constructor
      · rintro ⟨hbatch, hdIn, hdOut, hvectors, hxNull, hwNull, hyNull, hwAligned, hyAligned⟩
        have hadmits : MatmulAdmits qIdx batch dIn dOut
            (sliceBuf m.x (x.map (liftQ8ToZq · (qMu qIdx).q)))
            (sliceBuf m.w (w.map (liftQ8ToZq · (qMu qIdx).q)))
            ⟨m.y, (4 * (batch * dOut) : Nat), fun _ => 0⟩ :=
          ⟨hprime, by omega, by omega, by omega, by omega, ⟨hxNull, hwNull, hyNull⟩,
            beq_iff_eq.mpr hwAligned, beq_iff_eq.mpr hyAligned⟩
        have hrow : batch ≤ batch * dIn := Nat.le_mul_of_pos_right batch (by omega)
        have hterm : dIn ≤ batch * dIn := Nat.le_mul_of_pos_left dIn (by omega)
        have hcol : dOut ≤ batch * dOut := Nat.le_mul_of_pos_left dOut (by omega)
        have hbytes := hx.bytes
        rw [wrap_natCast (n := batch) (by omega), wrap_natCast (n := dIn) (by omega),
          wrap_natCast (n := dOut) (by omega),
          computeMatmulQ_eq hadmits (hx.matrix _ _) (hw.matrix _ _) hyHolds (hx.len _ _)
            (hw.len _ _) rfl, Option.bind_some, Codes.cells, Codes.cells]
        apply congrArg some
        apply Buffer.vec_congr
        intro c hc
        exact if_pos hc
      · intro hnot
        rw [computeMatmulQ_refuses, Option.bind_some]
        intro h
        apply hnot
        obtain ⟨hbatch, hdIn, hdOut⟩ := h.of_wrap hx.bytes hy
        rw [wrap_natCast hbatch, wrap_natCast hdIn, wrap_natCast hdOut] at h
        obtain ⟨-, hrows, hterms, hvectors, hwhole, ⟨hxNull, hwNull, hyNull⟩, hw, hy⟩ := h
        exact ⟨by omega, by omega, by omega, by omega, hxNull, hwNull, hyNull, beq_iff_eq.mp hw,
          beq_iff_eq.mp hy⟩

/-! The cells -/

/-- A cell of the residues is the residue of the signed cell. -/
theorem matmulCells_lifted (hx : Codes x batch dIn) (hw : Codes w dIn dOut) (c : Nat) :
    (matmulCells M dIn dOut (fun i => liftQ8ToZq (x.getD i 0) M.q)
      (fun i => liftQ8ToZq (w.getD i 0) M.q) c : Int) = signedCells dIn dOut x w c % M.q := by
  rw [matmulCells, cellSum, Int.natCast_mod, Nat.cast_sum]
  apply Int.ModEq.sum
  intro k _
  have hxCode := hx.getD_code (c / dOut * dIn + k)
  have hwCode := hw.getD_code (k * dOut + c % dOut)
  rw [Nat.cast_mul, liftQ8ToZq_eq hxCode.1 hxCode.2, liftQ8ToZq_eq hwCode.1 hwCode.2]
  exact (Int.mod_modEq _ _).mul (Int.mod_modEq _ _)

theorem abs_code_mul {a b : Int} (ha : -128 ≤ a ∧ a ≤ 127) (hb : -128 ≤ b ∧ b ≤ 127) :
    |a * b| ≤ 2 ^ 14 := by
  rw [abs_mul]
  calc |a| * |b| ≤ 128 * 128 := by
        apply mul_le_mul _ _ (abs_nonneg b) (by decide)
        · exact abs_le.mpr ⟨ha.1, ha.2.trans (by decide)⟩
        · exact abs_le.mpr ⟨hb.1, hb.2.trans (by decide)⟩
    _ = 2 ^ 14 := by decide

theorem abs_terms (hx : Codes x batch dIn) (hw : Codes w dIn dOut) (b i m : Nat) :
    |∑ k ∈ Finset.range m, x.getD (b * dIn + k) 0 * w.getD (k * dOut + i) 0| ≤ m * 2 ^ 14 := by
  calc _ ≤ ∑ k ∈ Finset.range m, |x.getD (b * dIn + k) 0 * w.getD (k * dOut + i) 0| :=
        Finset.abs_sum_le_sum_abs _ _
    _ ≤ ∑ k ∈ Finset.range m, 2 ^ 14 :=
        Finset.sum_le_sum fun k _ => abs_code_mul (hx.getD_code _) (hw.getD_code _)
    _ = m * 2 ^ 14 := by rw [Finset.sum_const, Finset.card_range, nsmul_eq_mul]

theorem signedCells_small (hx : Codes x batch dIn) (hw : Codes w dIn dOut) {c : Nat}
    (hc : c < batch * dOut) : |signedCells dIn dOut x w c| < 2 ^ 47 := by
  have hpos : 0 < dOut := Nat.pos_of_mul_pos_left (Nat.zero_lt_of_lt hc)
  have hterm : dIn ≤ dIn * dOut := Nat.le_mul_of_pos_right dIn hpos
  have hbytes := hw.bytes
  calc |signedCells dIn dOut x w c| ≤ dIn * 2 ^ 14 := abs_terms hx hw _ _ _
    _ < 2 ^ 47 := by omega

/-- Below 2^47 the first residue never exceeds the second by more than the second prime: the
primes differ by 6144. -/
theorem residue_within {v : Int} (h : |v| < 2 ^ 47) : v % q1.q ≤ v % q2.q + q2.q := by
  obtain ⟨hlo, hhi⟩ := abs_lt.mp h
  have hfirst : v % q1.q = v - 1073738753 * (v / 1073738753) := Int.emod_def v _
  have hsecond : v % q2.q = v - 1073732609 * (v / 1073732609) := Int.emod_def v _
  have hlt : v % q1.q < 1073738753 := Int.emod_lt_of_pos v (by decide)
  have hnonneg : 0 ≤ v % q2.q := Int.emod_nonneg v (by decide)
  have hturns : -131074 < v / 1073738753 ∧ v / 1073738753 < 131074 := by omega
  rw [q2_q]
  -- past the bound the turns of the second prime are one more, and 6144 times those of the
  -- first lie between two multiples of 6144
  rcases lt_trichotomy (v / 1073732609) (v / 1073738753 + 1) with hturn | hturn | hturn
  · omega
  · omega
  · omega

/-- The two residues of a small sum recombine to it. -/
theorem garner_small (build : Build) {v : Int} (h : |v| < 2 ^ 47) {a b : Nat}
    (ha : (a : Int) = v % q1.q) (hb : (b : Int) = v % q2.q) :
    (garnerOne build a b).bind (garnerCentre build) = some v := by
  have hq1 : (0 : Int) < q1.q := by decide
  have hq2 : (0 : Int) < q2.q := by decide
  have haLt : a < q1.q := by
    have := Int.emod_lt_of_pos v hq1
    omega
  have hbLt : b < q2.q := by
    have := Int.emod_lt_of_pos v hq2
    omega
  have hwithin : a ≤ b + q2.q := by
    have := residue_within h
    omega
  obtain ⟨r, hr, hrec⟩ := (garnerSigned_recombines_iff build haLt hbLt).mpr hwithin
  obtain ⟨hlo, hhi⟩ := abs_lt.mp h
  have hhalf : (2 ^ 48 : Int) < mQ1Q2 := by decide
  rw [hr, hrec.only v (by omega) (by omega) ha.symm hb.symm]

/-! The signed product -/

theorem signedStep_eq (build : Build) (hx : Codes x batch dIn) (hw : Codes w dIn dOut)
    {b i k : Nat} (hb : b < batch) (hi : i < dOut) (hk : k < dIn) {s : Int}
    (hs : |s| ≤ k * 2 ^ 14) :
    signedStep build dIn dOut b i x w s k =
      some (s + x.getD (b * dIn + k) 0 * w.getD (k * dOut + i) 0) := by
  have hxBytes := hx.bytes
  have hwBytes := hw.bytes
  have hxCell : b * dIn + k < batch * dIn := Buffer.cell_lt hb hk
  have hwCell : k * dOut + i < dIn * dOut := Buffer.cell_lt hk hi
  have hterm : dIn ≤ dIn * dOut := Nat.le_mul_of_pos_right dIn (by omega)
  have hread : ∀ {l : List Int} {j : Nat}, j < l.length → l[j]? = some (l.getD j 0) := by
    intro l j hj
    rw [List.getD_eq_getElem?_getD, List.getElem?_eq_getElem hj, Option.getD_some]
  obtain ⟨hlo, hhi⟩ := abs_le.mp (abs_code_mul (hx.getD_code (b * dIn + k))
    (hw.getD_code (k * dOut + i)))
  obtain ⟨hslo, hshi⟩ := abs_le.mp hs
  rw [signedStep, word_of_lt build (by omega), word_of_lt build (by omega)]
  simp only [Option.bind_eq_bind, Option.bind_some, hread (hxCell.trans_eq hx.length.symm),
    hread (hwCell.trans_eq hw.length.symm)]
  generalize x.getD (b * dIn + k) 0 * w.getD (k * dOut + i) 0 = p at hlo hhi ⊢
  rw [signed_of_fits build (by decide) (by omega) (by omega), Option.bind_some]
  exact signed_of_fits build (by decide) (by omega) (by omega)

theorem signedCell_eq (build : Build) (hx : Codes x batch dIn) (hw : Codes w dIn dOut)
    {b i : Nat} (hb : b < batch) (hi : i < dOut) :
    signedCell build dIn dOut b i x w = some (signedCells dIn dOut x w (b * dOut + i)) := by
  have hrows : ∀ m, m ≤ dIn → (List.range m).foldlM (signedStep build dIn dOut b i x w) 0 =
      some (∑ k ∈ Finset.range m, x.getD (b * dIn + k) 0 * w.getD (k * dOut + i) 0) := by
    intro m hm
    induction m with
    | zero => rfl
    | succ m ih =>
        rw [List.range_succ, List.foldlM_append, ih (by omega), Option.bind_eq_bind,
          Option.bind_some, List.foldlM_cons,
          signedStep_eq build hx hw hb hi hm (abs_terms hx hw b i m), Finset.sum_range_succ]
        rfl
  rw [signedCells, Buffer.index_div hi, Buffer.index_mod hi]
  exact hrows dIn (le_refl dIn)

theorem matmulInt8SignedRef_eq (build : Build) (hx : Codes x batch dIn) (hw : Codes w dIn dOut)
    (hy : 4 * (batch * dOut) < 2 ^ 31) :
    matmulInt8SignedRef build batch dIn dOut x w =
      some (vec (batch * dOut) (signedCells dIn dOut x w)) := by
  have hxBytes := hx.bytes
  have hwBytes := hw.bytes
  have hrows := Buffer.foldl_store_rows (signedCells dIn dOut x w) (fun _ => 0) 1 dOut batch
  rw [Nat.one_mul] at hrows
  have hloop : (List.range batch).foldlM
      (fun y b => (List.range dOut).foldlM
        (fun y i => do
          let acc ← signedCell build dIn dOut b i x w
          some (store y (← build.word 64 (b * dOut + i : Nat)) 1 fun _ => acc))
        y)
      (fun _ => 0) =
      some (forCells (batch * dOut) (fun c _ => signedCells dIn dOut x w c) fun _ => 0) := by
    rw [← hrows]
    apply Traverse.foldlM_eq_some
    intro y b hb
    apply Traverse.foldlM_eq_some
    intro y i hi
    have hcell : b * dOut + i < batch * dOut :=
      Buffer.cell_lt (List.mem_range.mp hb) (List.mem_range.mp hi)
    rw [signedCell_eq build hx hw (List.mem_range.mp hb) (List.mem_range.mp hi),
      Option.bind_eq_bind, Option.bind_some, word_of_lt build (by omega), Option.bind_eq_bind,
      Option.bind_some, Nat.one_mul]
    apply congrArg some
    apply Buffer.store_congr
    intro l hl
    obtain rfl : l = 0 := by omega
    rfl
  rw [matmulInt8SignedRef, word_of_lt build (by omega), Option.bind_eq_bind, Option.bind_some,
    word_of_lt build (by omega), Option.bind_some, hx.length, hw.length, if_neg (by simp), hloop,
    Option.bind_eq_bind, Option.bind_some]
  apply congrArg some
  apply Buffer.vec_congr
  intro c hc
  exact if_pos hc

/-! The two devices -/

theorem lanes_vec {R : Type} {f : Nat → Nat → Option R} {n : Nat} {a b : Nat → Nat} {v : Nat → R}
    (h : ∀ c, c < n → f (a c) (b c) = some (v c)) :
    lanes f (vec n a) (vec n b) = some (vec n v) := by
  have hzip : (vec n a).zip (vec n b) = (List.range n).map fun c => (a c, b c) := List.zip_map'
  rw [lanes, if_neg (by simp [vec]), hzip, List.mapM_map]
  exact Traverse.mapM_eq_some fun c hc => h c (List.mem_range.mp hc)

end

/-- On either build and whichever device computes which residue, the sharded product answers
exactly when both devices take the call, and then with the signed product. -/
theorem sharded_exact (build : Build) (first second : Island) {batch dIn dOut : Nat}
    {x w : List Int} (hx : Codes x batch dIn) (hw : Codes w dIn dOut)
    (hy : 4 * (batch * dOut) < 2 ^ 31) :
    matmulInt8SignedRef build batch dIn dOut x w =
      some (vec (batch * dOut) (signedCells dIn dOut x w)) ∧
    ∀ out, shardedMatmul build first second batch dIn dOut x w = some out ↔
      first.Admits batch dIn dOut ∧ second.Admits batch dIn dOut ∧
        matmulInt8SignedRef build batch dIn dOut x w = some out := by
  have hsigned := matmulInt8SignedRef_eq build hx hw hy
  refine ⟨hsigned, fun out => ?_⟩
  have hzero : (0 : Int) = 0 ∨ (0 : Int) = 1 := Or.inl rfl
  have hone : (1 : Int) = 0 ∨ (1 : Int) = 1 := Or.inr rfl
  obtain ⟨htakes1, hrefuses1⟩ := first.matmul_eq build hzero hx hw hy
  obtain ⟨htakes2, hrefuses2⟩ := second.matmul_eq build hone hx hw hy
  have hfirst : (qMu 0) = q1 := rfl
  have hsecond : (qMu 1) = q2 := rfl
  rw [hfirst] at htakes1 hrefuses1
  rw [hsecond] at htakes2 hrefuses2
  rw [shardedMatmul, hsigned]
  by_cases h1 : first.Admits batch dIn dOut
  · by_cases h2 : second.Admits batch dIn dOut
    · rw [htakes1 h1, htakes2 h2, Option.bind_eq_bind, Option.bind_some, Option.bind_some,
        garnerCombineQ1Q2Signed, lanes_vec fun c hc => garner_small build
          (signedCells_small hx hw hc) (matmulCells_lifted hx hw c) (matmulCells_lifted hx hw c)]
      simp only [h1, h2, true_and]
    · rw [htakes1 h1, hrefuses2 h2]
      simp [h2]
  · rw [hrefuses1 h1]
    simp [h1]

/-- A row of the least code against columns of it, the first residue on the DSP. -/
theorem sharded_exact_least :
    shardedMatmul .debug (.dsp ⟨4, 128, 256⟩) .arm 1 2 32 [-128, -128]
      (List.replicate 64 (-128)) = some (List.replicate 32 32768) := by
  have hcodes : Codes [-128, -128] 1 2 := ⟨rfl, by decide, by decide⟩
  have hweights : Codes (List.replicate 64 (-128)) 2 32 := ⟨rfl, by decide, by decide⟩
  refine ((sharded_exact .debug (.dsp ⟨4, 128, 256⟩) .arm hcodes hweights (by decide)).2 _).mpr
    ⟨by decide, trivial, ?_⟩
  decide

end ShannonPrime.Ntt
