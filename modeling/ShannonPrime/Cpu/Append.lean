import ShannonPrime.Cpu.Forward

/-!
What a row of the network computes, position by position and layer by layer, with no
buffer in sight, and that both forwards compute it: `qwen3_forward` over a whole
sequence, `qwen3_mtp_forward` batch by batch over a cache that may hold anything beyond
the current position.
-/

namespace ShannonPrime.Cpu

open Buffer

variable {F : Type*}

namespace Model

variable (m : Model F)

section Rowwise

variable (L : Nat)

def normedRow (x : Nat → F) : List F := vec m.nEmbd (m.attnNorm L (vec m.nEmbd x))

/-- Head `h` of a projected row. -/
def headOf (row : Nat → F) (h : Nat) : List F :=
  vec m.headDim fun j => row (h * m.headDim + j)

def queryHead (pos : Nat) (x : Nat → F) (h : Nat) : Nat → F :=
  m.rope pos (vec m.headDim (m.attnQNorm L (m.headOf (m.attnQ L (m.normedRow L x)) h)))

def keyHead (pos : Nat) (x : Nat → F) (h : Nat) : Nat → F :=
  m.rope pos (vec m.headDim (m.attnKNorm L (m.headOf (m.attnK L (m.normedRow L x)) h)))

def valueHead (x : Nat → F) (h j : Nat) : F := m.attnV L (m.normedRow L x) (h * m.headDim + j)

/-- Head `h` of the attention at `pos`: it looks at the rows `0 .. pos`. -/
def attended (rows : Nat → Nat → F) (pos h : Nat) : Nat → F :=
  m.attnHead (vec m.headDim (m.queryHead L pos (rows pos) h))
    ((List.range (pos + 1)).map fun s =>
      vec m.headDim (m.keyHead L s (rows s) (h / m.group)))
    ((List.range (pos + 1)).map fun s =>
      vec m.headDim (m.valueHead L (rows s) (h / m.group)))

def attnRow (rows : Nat → Nat → F) (pos i : Nat) : F :=
  m.attended L rows pos (i / m.headDim) (i % m.headDim)

/-- The residual row after the attention. -/
def midRow (x ao : Nat → F) (i : Nat) : F := m.add (x i) (m.attnOutput L (vec m.qd ao) i)

def ffnRow (x : Nat → F) (i : Nat) : F :=
  m.siluMul (m.ffnGate L (vec m.nEmbd (m.ffnNorm L (vec m.nEmbd x))) i)
    (m.ffnUp L (vec m.nEmbd (m.ffnNorm L (vec m.nEmbd x))) i)

def tailRow (x ao : Nat → F) (i : Nat) : F :=
  m.add (m.midRow L x ao i) (m.ffnDown L (vec m.nFf (m.ffnRow L (m.midRow L x ao))) i)

end Rowwise

/-- The residual row at a position as it enters layer `L`, from the embedded rows `x₀`. -/
def residAt (x₀ : Nat → Nat → F) : Nat → Nat → Nat → F
  | 0, pos => x₀ pos
  | L + 1, pos => m.tailRow L (residAt x₀ L pos) (m.attnRow L (residAt x₀ L) pos)

def logitsRow (x : Nat → F) : Nat → F := m.output (vec m.nEmbd (m.outputNorm (vec m.nEmbd x)))

end Model

/-! ### The loops, row by row -/

section Loops

variable {x y b : Nat → F} {n w : Nat} {rows : Nat → Nat → F}

theorem normRows_rows {norm : List F → Nat → F} (y : Nat → F) (hx : Rows x 0 w n rows) :
    Rows (normRows w n norm x y) 0 w n (fun t => norm (vec w (rows t))) := by
  apply forBlocks_rows
  intro t ht i _
  have hslice := hx.slice_eq ht
  rw [Nat.zero_add] at hslice
  rw [hslice]

theorem matmul_rows {row : List F → Nat → F} {inn out off : Nat} (y : Nat → F)
    (hx : Rows x 0 inn n rows) :
    Rows (matmul row x n inn out y off) off out n (fun t => row (vec inn (rows t))) := by
  apply forBlocks_rows
  intro t ht i _
  have hslice := hx.slice_eq ht
  rw [Nat.zero_add] at hslice
  rw [hslice]

theorem matmul_outside {row : List F → Nat → F} {inn out off a : Nat}
    (h : a < off ∨ off + n * out ≤ a) : matmul row x n inn out y off a = y a :=
  forBlocks_outside h

variable {off first heads hd : Nat} {f : Nat → Nat → List F → Nat → F}

/-- Row `first + t` and head `h` are block `t * heads + h` from row `first` on. -/
theorem head_address (t h : Nat) :
    off + (first + t) * (heads * hd) + h * hd =
      off + first * (heads * hd) + (t * heads + h) * hd := by
  ring

theorem forHeads_eq :
    forHeads off first n heads hd f b =
      forBlocks (off + first * (heads * hd)) hd (n * heads)
        (fun i => f (first + i / heads) (i % heads)) b := by
  unfold forBlocks
  rw [← foldl_range_mul]
  unfold forHeads
  apply List.foldl_ext
  intro b t _
  apply List.foldl_ext
  intro b h hh
  have hlt : h < heads := List.mem_range.mp hh
  simp only [head_address, index_div hlt, index_mod hlt]

theorem forHeads_inside (off first : Nat) (b : Nat → F) (f : Nat → Nat → List F → Nat → F)
    {t h j : Nat} (ht : t < n) (hh : h < heads) (hj : j < hd) :
    forHeads off first n heads hd f b (off + (first + t) * (heads * hd) + (h * hd + j)) =
      f (first + t) h (slice b (off + (first + t) * (heads * hd) + h * hd) hd) j := by
  rw [forHeads_eq, ← Nat.add_assoc, head_address, Nat.add_assoc,
    forBlocks_inside (cell_lt ht hh) hj, index_div hh, index_mod hh]

theorem forHeads_outside {a : Nat}
    (h : a < off + first * (heads * hd) ∨ off + (first + n) * (heads * hd) ≤ a) :
    forHeads off first n heads hd f b a = b a := by
  rw [forHeads_eq]
  apply forBlocks_outside
  have hend : off + (first + n) * (heads * hd) =
      off + first * (heads * hd) + n * heads * hd := by ring
  omega

theorem forHeads_rows {t h j : Nat} (hb : Rows b (off + first * (heads * hd)) (heads * hd) n rows)
    (ht : t < n) (hh : h < heads) (hj : j < hd) :
    forHeads off first n heads hd f b (off + (first + t) * (heads * hd) + (h * hd + j)) =
      f (first + t) h (vec hd fun j => rows t (h * hd + j)) j := by
  rw [forHeads_inside off first b f ht hh hj]
  congr 1
  apply slice_eq_vec
  intro i hi
  rw [← hb t ht (h * hd + i) (cell_lt hh hi)]
  congr 1
  ring

/-- Rows that are normed, projected to heads and then rewritten head by head. -/
theorem project_heads (off first : Nat) (nx y : Nat → F) (f : Nat → Nat → List F → Nat → F)
    (norm row : List F → Nat → F) {t h j : Nat} (hx : Rows x 0 w n rows)
    (ht : t < n) (hh : h < heads) (hj : j < hd) :
    forHeads off first n heads hd f
        (matmul row (normRows w n norm x nx) n w (heads * hd) y (off + first * (heads * hd)))
        (off + (first + t) * (heads * hd) + (h * hd + j)) =
      f (first + t) h (vec hd fun j => row (vec w (norm (vec w (rows t)))) (h * hd + j)) j :=
  forHeads_rows (matmul_rows y (normRows_rows nx hx)) ht hh hj

end Loops

namespace Model

variable {m : Model F} {L n base off : Nat} {rows : Nat → Nat → F} {k v : Nat → F}

/-! ### One layer -/

/-- The K and V rows of layer `L` at the positions below `n`. -/
structure KvRows (m : Model F) (L : Nat) (rows : Nat → Nat → F) (off n : Nat)
    (k v : Nat → F) : Prop where
  key : ∀ s, s < n → ∀ h, h < m.nHeadKv → ∀ j, j < m.headDim →
    k (off + s * m.kvd + (h * m.headDim + j)) = m.keyHead L s (rows s) h j
  value : ∀ s, s < n → ∀ h, h < m.nHeadKv → ∀ j, j < m.headDim →
    v (off + s * m.kvd + (h * m.headDim + j)) = m.valueHead L (rows s) h j

theorem headRows_eq {b : Nat → F} {kvh pos : Nat} (row : Nat → Nat → F)
    (h : ∀ s, s ≤ pos → ∀ j, j < m.headDim →
      b (off + s * m.kvd + (kvh * m.headDim + j)) = row s j) :
    headRows b off m.kvd m.headDim kvh pos =
      (List.range (pos + 1)).map fun s => vec m.headDim (row s) := by
  unfold headRows
  apply List.map_congr_left
  intro s hs
  apply slice_eq_vec
  intro j hj
  rw [Nat.add_assoc (off + s * m.kvd)]
  exact h s (Nat.lt_succ_iff.mp (List.mem_range.mp hs)) j hj

/-- A head attends the rows it should, whatever lies behind them. -/
theorem KvRows.attnAt_eq {pos h : Nat} (hkv : KvRows m L rows off n k v) (hpos : pos < n)
    (hh : h < m.nHead) :
    m.attnAt k v off pos h (vec m.headDim (m.queryHead L pos (rows pos) h)) =
      m.attended L rows pos h := by
  have hkvh : h / m.group < m.nHeadKv := m.kvHead_lt hh
  unfold attnAt attended
  rw [headRows_eq (fun s => m.keyHead L s (rows s) (h / m.group)),
    headRows_eq (fun s => m.valueHead L (rows s) (h / m.group))]
  · intro s hs j hj
    exact hkv.value s (by omega) _ hkvh j hj
  · intro s hs j hj
    exact hkv.key s (by omega) _ hkvh j hj

/-- The query rows of a batch from position `base` on, projected, normed and rotated. -/
def QueryRows (m : Model F) (L base n : Nat) (rows : Nat → Nat → F) (q : Nat → F) : Prop :=
  ∀ t, t < n → ∀ h, h < m.nHead → ∀ j, j < m.headDim →
    q (t * m.qd + (h * m.headDim + j)) = m.queryHead L (base + t) (rows (base + t)) h j

theorem mtpQueries_rows {x nx q : Nat → F}
    (hx : Rows x 0 m.nEmbd n (fun t => rows (base + t))) :
    QueryRows m L base n rows
      (m.mtpQueries L base n (normRows m.nEmbd n (m.attnNorm L) x nx) q) := by
  intro t ht h hh j hj
  have hhead := project_heads 0 0 nx q
    (fun t _ qh => m.rope (base + t) (vec m.headDim (m.attnQNorm L qh)))
    (m.attnNorm L) (m.attnQ L) hx ht hh hj
  simp only [Nat.zero_mul, Nat.zero_add] at hhead
  exact hhead

/-- The loop over token-head pairs is the loop over tokens and their heads. -/
theorem mtpAttention_eq (q ao : Nat → F) :
    m.mtpAttention off base n q k v ao =
      forHeads 0 0 n m.nHead m.headDim
        (fun t h _ => m.attnAt k v off (base + t) h
          (slice q (t * m.qd + h * m.headDim) m.headDim)) ao := by
  rw [forHeads_eq]
  unfold mtpAttention forBlocks
  apply List.foldl_ext
  intro ao th _
  have haddr : th / m.nHead * m.qd + th % m.nHead * m.headDim =
      0 + 0 * (m.nHead * m.headDim) + th * m.headDim := by
    calc th / m.nHead * m.qd + th % m.nHead * m.headDim
        = (m.nHead * (th / m.nHead) + th % m.nHead) * m.headDim := by
          unfold Config.qd
          ring
      _ = 0 + 0 * (m.nHead * m.headDim) + th * m.headDim := by
          rw [Nat.div_add_mod]
          ring
  simp only [haddr, Nat.zero_add]

/-- The attention writes the rows of the attended heads. -/
theorem mtpAttention_rows {q ao : Nat → F} (hq : QueryRows m L base n rows q)
    (hkv : KvRows m L rows off (base + n) k v) :
    Rows (m.mtpAttention off base n q k v ao) 0 m.qd n
      (fun t => m.attnRow L rows (base + t)) := by
  rw [mtpAttention_eq]
  intro t ht i hi
  have hhd : 0 < m.headDim := by
    apply Nat.pos_of_ne_zero
    intro hzero
    simp [Config.qd, hzero] at hi
  have hh : i / m.headDim < m.nHead := by
    rw [Nat.div_lt_iff_lt_mul hhd]
    exact hi
  have hcell := forHeads_inside 0 0 ao
    (fun t h _ => m.attnAt k v off (base + t) h
      (slice q (t * m.qd + h * m.headDim) m.headDim)) ht hh (Nat.mod_lt i hhd)
  have hslice : slice q (t * m.qd + i / m.headDim * m.headDim) m.headDim =
      vec m.headDim (m.queryHead L (base + t) (rows (base + t)) (i / m.headDim)) := by
    apply slice_eq_vec
    intro j hj
    rw [Nat.add_assoc]
    exact hq t ht _ hh j hj
  have hsplit : i / m.headDim * m.headDim + i % m.headDim = i := by
    rw [Nat.mul_comm]
    exact Nat.div_add_mod i m.headDim
  simp only [Nat.zero_add, hsplit, hslice, hkv.attnAt_eq (Nat.add_lt_add_left ht base) hh]
    at hcell
  rw [Nat.zero_add]
  exact hcell

/-- What follows the attention, row by row. -/
theorem layerTail_rows {w : Work F} {xs aos : Nat → Nat → F} (hx : Rows w.x 0 m.nEmbd n xs)
    (hao : Rows w.ao 0 m.qd n aos) :
    Rows (m.layerTail L n w).x 0 m.nEmbd n (fun t => m.tailRow L (xs t) (aos t)) := by
  have hmid : Rows _ 0 m.nEmbd n (fun t => m.midRow L (xs t) (aos t)) :=
    forCells_rows hx (matmul_rows w.ap hao)
  have hnormed : Rows _ 0 m.nEmbd n
      (fun t => m.ffnNorm L (vec m.nEmbd (m.midRow L (xs t) (aos t)))) :=
    normRows_rows w.nx hmid
  have hffn : Rows _ 0 m.nFf n (fun t => m.ffnRow L (m.midRow L (xs t) (aos t))) :=
    forCells_rows (matmul_rows w.g hnormed) (matmul_rows w.up hnormed)
  exact forCells_rows hmid (matmul_rows w.dn hffn)

section Layer

variable {cap nb : Nat} {x nx kc vc : Nat → F}

theorem mtpKeys_outside {a : Nat}
    (h : a < off + base * m.kvd ∨ off + (base + nb) * m.kvd ≤ a) :
    m.mtpKeys L off base nb nx kc a = kc a := by
  unfold mtpKeys
  have hend : off + base * m.kvd + nb * m.kvd = off + (base + nb) * m.kvd := by ring
  rw [forHeads_outside h, matmul_outside (by omega)]

/-- The new K and V rows join those of the positions below `base`. -/
theorem KvRows.append (nx : Nat → F) (hx : Rows x 0 m.nEmbd nb (fun t => rows (base + t)))
    (hkv : KvRows m L rows off base kc vc) :
    KvRows m L rows off (base + nb)
      (m.mtpKeys L off base nb (normRows m.nEmbd nb (m.attnNorm L) x nx) kc)
      (matmul (m.attnV L) (normRows m.nEmbd nb (m.attnNorm L) x nx) nb m.nEmbd m.kvd vc
        (off + base * m.kvd)) := by
  constructor
  · intro s hs h hh j hj
    rcases Nat.lt_or_ge s base with hold | hnew
    · have hcell : s * m.kvd + (h * m.headDim + j) < base * m.kvd :=
        cell_lt hold (cell_lt hh hj)
      rw [mtpKeys_outside (by omega)]
      exact hkv.key s hold h hh j hj
    · obtain ⟨t, rfl⟩ := Nat.exists_eq_add_of_le hnew
      exact project_heads off base nx kc
        (fun pos _ kh => m.rope pos (vec m.headDim (m.attnKNorm L kh)))
        (m.attnNorm L) (m.attnK L) hx (by omega) hh hj
  · intro s hs h hh j hj
    have hvalues : Rows (matmul (m.attnV L) (normRows m.nEmbd nb (m.attnNorm L) x nx) nb m.nEmbd
        m.kvd vc (off + base * m.kvd)) (off + base * m.kvd) m.kvd nb
        (fun t => m.attnV L (m.normedRow L (rows (base + t)))) :=
      matmul_rows vc (normRows_rows nx hx)
    have hij : h * m.headDim + j < m.kvd := cell_lt hh hj
    rcases Nat.lt_or_ge s base with hold | hnew
    · have hcell : s * m.kvd + (h * m.headDim + j) < base * m.kvd := cell_lt hold hij
      rw [matmul_outside (by omega)]
      exact hkv.value s hold h hh j hj
    · obtain ⟨t, rfl⟩ := Nat.exists_eq_add_of_le hnew
      have haddr : off + (base + t) * m.kvd + (h * m.headDim + j) =
          off + base * m.kvd + (t * m.kvd + (h * m.headDim + j)) := by ring
      rw [haddr]
      exact hvalues t (by omega) (h * m.headDim + j) hij

/-- The layer of an append computes the rows of its batch, and leaves the K and V rows of
every position so far in the cache. -/
theorem mtpLayer_rows {w : Work F} (hx : Rows w.x 0 m.nEmbd nb (fun t => rows (base + t)))
    (hkv : KvRows m L rows (L * cap * m.kvd) base kc vc) :
    Rows (m.mtpLayer cap base nb L (w, kc, vc)).1.x 0 m.nEmbd nb
        (fun t => m.tailRow L (rows (base + t)) (m.attnRow L rows (base + t))) ∧
      KvRows m L rows (L * cap * m.kvd) (base + nb) (m.mtpLayer cap base nb L (w, kc, vc)).2.1
        (m.mtpLayer cap base nb L (w, kc, vc)).2.2 := by
  have hnew := hkv.append w.nx hx
  constructor
  · exact layerTail_rows hx (mtpAttention_rows (mtpQueries_rows hx) hnew)
  · exact hnew

/-- A layer of an append leaves alone whatever is not a row of its batch. -/
theorem mtpLayer_outside {w : Work F} {a : Nat}
    (h : a < L * cap * m.kvd + base * m.kvd ∨ L * cap * m.kvd + (base + nb) * m.kvd ≤ a) :
    (m.mtpLayer cap base nb L (w, kc, vc)).2.1 a = kc a ∧
      (m.mtpLayer cap base nb L (w, kc, vc)).2.2 a = vc a := by
  have hend : L * cap * m.kvd + base * m.kvd + nb * m.kvd =
      L * cap * m.kvd + (base + nb) * m.kvd := by ring
  constructor
  · exact mtpKeys_outside h
  · exact matmul_outside (by omega)

/-- A layer of a whole sequence is an append at position 0, its K and V in buffers of
their own. -/
theorem forwardLayer_eq (s : Work F × (Nat → F) × (Nat → F)) :
    m.forwardLayer n L s = m.mtpLayer 0 0 n L s := by
  unfold forwardLayer mtpLayer mtpQueries mtpKeys
  simp [mtpAttention_eq]

end Layer

/-! ### A whole call -/

/-- The embedded rows of a token sequence. -/
def EmbedsAs (m : Model F) (tokens : List Int) (e : Nat → Nat → F) : Prop :=
  ∀ i tok, tokens[i]? = some tok → m.embedRow tok = some (e i)

theorem embedRows_rows {tokens : List Int} {e : Nat → Nat → F} (h : EmbedsAs m tokens e)
    (t : Nat) (x : Nat → F) :
    ∃ x', m.embedRows tokens t x = some x' ∧
      Rows x' (t * m.nEmbd) m.nEmbd tokens.length e ∧
      ∀ a, a < t * m.nEmbd → x' a = x a := by
  induction tokens generalizing t x e with
  | nil =>
      refine ⟨x, rfl, ?_, fun a _ => rfl⟩
      intro i hi
      exact absurd hi (Nat.not_lt_zero i)
  | cons tok rest ih =>
      have hrest : EmbedsAs m rest (fun i => e (i + 1)) := by
        intro i tok' htok
        exact h (i + 1) tok' (by simpa using htok)
      have hfirst : m.embedRow tok = some (e 0) := h 0 tok rfl
      obtain ⟨x', hx', hrows, hbefore⟩ :=
        ih hrest (t + 1) (store x (t * m.nEmbd) m.nEmbd (e 0))
      have hnext : (t + 1) * m.nEmbd = t * m.nEmbd + m.nEmbd := Nat.succ_mul _ _
      refine ⟨x', ?_, ?_, ?_⟩
      · simp only [embedRows, hfirst, Option.bind_some]
        exact hx'
      · intro i hi j hj
        cases i with
        | zero =>
            rw [Nat.zero_mul, Nat.zero_add, hbefore _ (by omega)]
            exact store_inside hj
        | succ i =>
            have haddr : t * m.nEmbd + ((i + 1) * m.nEmbd + j) =
                (t + 1) * m.nEmbd + (i * m.nEmbd + j) := by ring
            rw [haddr]
            exact hrows i (by simpa using hi) j hj
      · intro a ha
        rw [hbefore a (by omega), store_outside (Or.inl ha)]

theorem embedRows_none {tokens : List Int} (h : ∃ tok ∈ tokens, m.embedRow tok = none)
    (t : Nat) (x : Nat → F) : m.embedRows tokens t x = none := by
  induction tokens generalizing t x with
  | nil => simp at h
  | cons tok rest ih =>
      unfold embedRows
      cases htok : m.embedRow tok with
      | none => rfl
      | some e =>
          obtain ⟨tok', hmem, hnone⟩ := h
          have hlater : tok' ∈ rest := by
            rcases List.mem_cons.mp hmem with rfl | hlater
            · rw [htok] at hnone
              cases hnone
            · exact hlater
          exact ih ⟨tok', hlater, hnone⟩ _ _

theorem lmHead_rows {w : Work F} {xs : Nat → Nat → F} (logits : Nat → F)
    (hx : Rows w.x 0 m.nEmbd n xs) :
    Rows (m.lmHead n w logits) 0 m.nVocab n (fun t => m.logitsRow (xs t)) :=
  matmul_rows logits (normRows_rows w.nx hx)

/-- The `n` rows of a logits buffer. -/
def logitsRows (m : Model F) (n : Nat) (logits : Nat → F) : List (List F) :=
  (List.range n).map fun t => slice logits (t * m.nVocab) m.nVocab

theorem logitsRows_eq {logits : Nat → F} {xs : Nat → Nat → F}
    (h : Rows logits 0 m.nVocab n xs) :
    m.logitsRows n logits = (List.range n).map fun t => vec m.nVocab (xs t) := by
  unfold logitsRows
  apply List.map_congr_left
  intro t ht
  have hslice := h.slice_eq (List.mem_range.mp ht)
  rw [Nat.zero_add] at hslice
  exact hslice

theorem forwardLayers_rows {e : Nat → Nat → F} {w : Work F} (hx : Rows w.x 0 m.nEmbd n e)
    (k v : Nat → F) (l : Nat) :
    Rows ((List.range l).foldl (fun s L => m.forwardLayer n L s) (w, k, v)).1.x 0 m.nEmbd n
      (m.residAt e l) := by
  induction l with
  | zero => exact hx
  | succ l ih =>
      rw [List.range_succ, List.foldl_append, List.foldl_cons, List.foldl_nil, forwardLayer_eq]
      generalize (List.range l).foldl (fun s L => m.forwardLayer n L s) (w, k, v) = s at ih ⊢
      obtain ⟨w', k', v'⟩ := s
      have hnone : KvRows m l (m.residAt e l) (l * 0 * m.kvd) 0 k' v' := by
        constructor <;> intro s hs <;> omega
      have hrows : Rows w'.x 0 m.nEmbd n (fun t => m.residAt e l (0 + t)) := by
        simpa only [Nat.zero_add] using ih
      have hnext := (mtpLayer_rows hrows hnone).1
      simp only [Nat.zero_add] at hnext
      exact hnext

/-- One `qwen3_forward` call writes the logits rows of its tokens. -/
theorem forward_spec {tokens : List Int} {e : Nat → Nat → F} (h : EmbedsAs m tokens e)
    (w : Work F) (k v logits : Nat → F) :
    ∃ logits', m.forward tokens w k v logits = some logits' ∧
      Rows logits' 0 m.nVocab tokens.length
        (fun t => m.logitsRow (m.residAt e m.nLayers t)) := by
  obtain ⟨x, hx, hrows, -⟩ := embedRows_rows h 0 w.x
  rw [Nat.zero_mul] at hrows
  unfold forward
  rw [hx]
  exact ⟨_, rfl, lmHead_rows logits (forwardLayers_rows hrows k v m.nLayers)⟩

theorem forward_rows {tokens : List Int} {e : Nat → Nat → F} (h : EmbedsAs m tokens e)
    (w : Work F) (k v logits : Nat → F) :
    (m.forward tokens w k v logits).map (m.logitsRows tokens.length) =
      some ((List.range tokens.length).map fun t =>
        vec m.nVocab (m.logitsRow (m.residAt e m.nLayers t))) := by
  obtain ⟨logits', hforward, hrows⟩ := forward_spec h w k v logits
  rw [hforward]
  exact congrArg some (logitsRows_eq hrows)

/-- What the cache holds after the first `n` tokens: in every layer the K and V rows of
every position below `n`. -/
def Cached (m : Model F) (cap : Nat) (e : Nat → Nat → F) (n : Nat) (kc vc : Nat → F) : Prop :=
  ∀ L, L < m.nLayers → KvRows m L (m.residAt e L) (L * cap * m.kvd) n kc vc

theorem KvRows.congr {k' v' : Nat → F} (h : KvRows m L rows off n k v)
    (hk : ∀ a, off ≤ a → a < off + n * m.kvd → k' a = k a)
    (hv : ∀ a, off ≤ a → a < off + n * m.kvd → v' a = v a) : KvRows m L rows off n k' v' := by
  constructor
  · intro s hs h' hh j hj
    have hcell : s * m.kvd + (h' * m.headDim + j) < n * m.kvd := cell_lt hs (cell_lt hh hj)
    rw [hk _ (by omega) (by omega)]
    exact h.key s hs h' hh j hj
  · intro s hs h' hh j hj
    have hcell : s * m.kvd + (h' * m.headDim + j) < n * m.kvd := cell_lt hs (cell_lt hh hj)
    rw [hv _ (by omega) (by omega)]
    exact h.value s hs h' hh j hj

end Model

end ShannonPrime.Cpu
