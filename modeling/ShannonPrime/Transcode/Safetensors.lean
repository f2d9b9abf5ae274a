import ShannonPrime.Transcode.Emit

/-!
The safetensors file behind the transcoder (`st_open`, `st_source`, `st_read_row`): a scan of
the JSON header by hand, the lookup of a tensor, and its rows read at offsets that the header
and the GGUF dimensions give.
-/

namespace ShannonPrime.Transcode.Safetensors

def chr (c : Char) : Byte := BitVec.ofNat 8 c.toNat

/-! The C library, on the text up to its NUL -/

/-- `strchr`: from the character on, or nothing. -/
def strchr (c : Byte) (s : List Byte) : List Byte := s.dropWhile (· != c)

def strstr (pat : List Byte) : List Byte → Option (List Byte)
  | [] => if pat = [] then some [] else none
  | c :: s => if pat.isPrefixOf (c :: s) then some (c :: s) else strstr pat s

def isSpace (c : Byte) : Bool := c == 32 || (9 ≤ c.toNat && c.toNat ≤ 13)

def isDigit (c : Byte) : Bool := 48 ≤ c.toNat && c.toNat ≤ 57

def decimal (ds : List Byte) : Nat := ds.foldl (fun n c => 10 * n + (c.toNat - 48)) 0

/-- The sign of a number, and what follows it. -/
def sign : List Byte → Bool × List Byte
  | [] => (false, [])
  | c :: s => if c = chr '-' then (true, s) else if c = chr '+' then (false, s) else (false, c :: s)

/-- `strtoull(s, &end, 10)`: the value and `end`. A number past the type gives the greatest
value, a negative one its complement. -/
def strtoull (s : List Byte) : BitVec 64 × List Byte :=
  let d := sign (s.dropWhile isSpace)
  let ds := d.2.takeWhile isDigit
  if ds = [] then (0, s)
  else
    let n := decimal ds
    let v := if n < 2 ^ 64 then (if d.1 then -BitVec.ofNat 64 n else BitVec.ofNat 64 n)
      else BitVec.allOnes 64
    (v, d.2.dropWhile isDigit)

/-! The header -/

/-- `st_entry` -/
structure StEntry where
  name : List Byte
  isBf16 : Bool
  shape : List (BitVec 64)
  off : BitVec 64
  len : BitVec 64
  deriving DecidableEq

/-- `st_ctx` -/
structure StCtx where
  dataBase : Nat
  e : List StEntry
  deriving DecidableEq

/-- The `do` loop over a value: what it takes, and what is left. -/
def braces (depth : Int) : List Byte → List Byte × List Byte
  | [] => ([], [])
  | c :: s =>
      let d := if c = chr '\x7b' then depth + 1 else if c = chr '\x7d' then depth - 1 else depth
      if s = [] ∨ d = 0 then ([c], s) else (c :: (braces d s).1, (braces d s).2)

def isSeparator (c : Byte) : Bool := c == chr ',' || c == chr ' '

/-- The dimensions, while there is room for `room` of them. -/
def shapeLoop : Nat → List Byte → List (BitVec 64)
  | 0, _ => []
  | room + 1, sh =>
      let v := strtoull sh
      if v.2 = sh then []
      else
        let rest := v.2.dropWhile isSeparator
        v.1 :: (if rest.head? = some (chr ']') then [] else shapeLoop room rest)

/-- `shape` and `n_shape` of a value. -/
def shapeOf (vb : List Byte) : List (BitVec 64) :=
  match strstr (ascii "\"shape\"".toList) vb with
  | none => []
  | some sh =>
      match strchr (chr '[') sh with
      | [] => []
      | _ :: sh => shapeLoop 4 sh

/-- `off` and `len` of a value that has both. -/
def offsetsOf (vb : List Byte) : Option (BitVec 64 × BitVec 64) :=
  match strstr (ascii "\"data_offsets\"".toList) vb with
  | none => none
  | some of =>
      match strchr (chr '[') of with
      | [] => none
      | _ :: of =>
          let a := strtoull of
          let b := strtoull (a.2.dropWhile isSeparator)
          some (a.1, b.1 - a.1)

/-- What a key and its value add to the entries. -/
def entryOf (key value : List Byte) : Option StEntry :=
  if (ascii "__metadata__".toList).isPrefixOf key then none
  else
    let vb := value.take 511
    let isBf16 := (strstr (ascii "\"BF16\"".toList) vb).isSome
    if !isBf16 && (strstr (ascii "\"F32\"".toList) vb).isNone then none
    else
      (offsetsOf vb).map fun range => {
        name := key.take 127
        isBf16 := isBf16
        shape := shapeOf vb
        off := range.1
        len := range.2 }

/-- The scan of the header from `p` on. A turn takes at least one character. -/
def scan : Nat → List Byte → List StEntry
  | 0, _ => []
  | turns + 1, p =>
      match strchr (chr '"') p with
      | [] => []
      | _ :: k =>
          match strchr (chr '"') k with
          | [] => []
          | _ :: p =>
              match strchr (chr '\x7b') p with
              | [] => []
              | v0 =>
                  (entryOf (k.takeWhile (· != chr '"')) (braces 0 v0).1).toList ++
                    scan turns (braces 0 v0).2

/-- The entries of a header text. -/
def entries (h : List Byte) : List StEntry :=
  match strchr (chr '\x7b') h with
  | [] => []
  | _ :: p => scan (p.length + 1) p

/-- `st_open`, of the bytes of the file. -/
def stOpen (file : List Byte) : Option StCtx :=
  let hlen := LittleEndian.load (fun i => file.getD i 0) 0 8
  if file.length < 8 ∨ hlen = 0 ∨ 2 ^ 26 < hlen then none
  else if file.length < 8 + hlen then none
  else some ⟨8 + hlen, entries (((file.drop 8).take hlen).takeWhile (· != 0))⟩

/-! The source of a tensor -/

/-- `e->is_bf16 ? 2 : 4` -/
def StEntry.esz (e : StEntry) : Nat := if e.isBf16 then 2 else 4

/-- `st_find`, by the name that `st_map_name` gives. -/
def stFind (st : StCtx) (hf : List Byte) : Option StEntry := st.e.find? fun e => e.name = hf

/-- The comparison of `st_source`: the number of elements and the innermost dimension. -/
def shapeAgrees (W : GgufTensor) (e : StEntry) : Bool :=
  let gElems := (List.range W.nDims.toNat).foldl (fun n d => n * W.dims d) 1
  let sElems := if e.shape = [] then e.len / BitVec.ofNat 64 e.esz else e.shape.foldl (· * ·) 1
  gElems == sElems &&
    !(2 ≤ W.nDims.toNat && 2 ≤ e.shape.length && some (W.dims 0) != e.shape.getLast?)

/-- The columns and the rows that `add_q8`, `add_q4` and `add_q4b` ask for, those of all the
experts of a tensor of rank three; a negative `int` asks for none. -/
def matmulRows (W : GgufTensor) : Nat × Nat :=
  ((W.dimInt 0).toInt.toNat, W.totalRows.toInt.toNat)

/-- What `add_f32` asks for: one row of all elements. -/
def f32Rows (nElements : BitVec 64) : Nat × Nat := (((nElements.truncate 32).toInt).toNat, 1)

/-! Reading -/

/-- A position in the file and a number of bytes. -/
abbrev Span := Nat × Nat

def Span.Has (s : Span) (x : Nat) : Prop := s.1 ≤ x ∧ x < s.1 + s.2

/-- `fread` of `n` bytes, or fewer of them. -/
def fread (file : List Byte) (pos n : Nat) : Option (List Byte) :=
  if n = 0 ∨ pos + n ≤ file.length then some ((file.drop pos).take n) else none

def words (w n : Nat) (bs : List Byte) : List Nat :=
  (List.range n).map fun i => LittleEndian.load (fun k => bs.getD k 0) (i * w) w

/-- The loop over chunks of 4096 values: what was read, and the values widened. -/
def bf16Loop (file : List Byte) (pos left : Nat) : List Span × Option (List Nat) :=
  if _h : left = 0 then ([], some [])
  else
    let chunk := min left 4096
    match fread file pos (2 * chunk) with
    | none => ([], none)
    | some bs =>
        let r := bf16Loop file (pos + 2 * chunk) (left - chunk)
        ((pos, 2 * chunk) :: r.1, r.2.map ((words 2 chunk bs).map (· * 2 ^ 16) ++ ·))
termination_by left

/-- `off` of `st_read_row`, in 64 bits. -/
def rowOffset (st : StCtx) (e : StEntry) (j cols : Nat) : Nat :=
  (st.dataBase + e.off.toNat + j * (cols * e.esz)) % 2 ^ 64

/-- `st_read_row`: the spans read, and the row where it succeeds. A negative offset is
refused by the seek. -/
def stReadRow (file : List Byte) (st : StCtx) (e : StEntry) (j cols : Nat) :
    List Span × Option (List Nat) :=
  let off := rowOffset st e j cols
  if 2 ^ 63 ≤ off then ([], none)
  else if e.isBf16 then bf16Loop file off cols
  else
    match fread file off (4 * cols) with
    | none => ([], none)
    | some bs => ([(off, 4 * cols)], some (words 4 cols bs))

/-- The bytes of the file that the header declares to be the entry's. -/
def Declared (st : StCtx) (e : StEntry) (x : Nat) : Prop :=
  st.dataBase + e.off.toNat ≤ x ∧ x < st.dataBase + (e.off + e.len).toNat

/-- Row after row, up to the first that fails, a row fails or reads declared bytes alone. -/
def Confined (file : List Byte) (st : StCtx) (e : StEntry) (cols rows : Nat) : Prop :=
  ∀ j, j < rows → (∀ i, i < j → (stReadRow file st e i cols).2 ≠ none) →
    (stReadRow file st e j cols).2 = none ∨
      ∀ s ∈ (stReadRow file st e j cols).1, ∀ x, s.Has x → Declared st e x

/-- Where the first row starts. -/
def rowStart (st : StCtx) (e : StEntry) : Nat := (st.dataBase + e.off.toNat) % 2 ^ 64

/-- The rows that lie in the file. -/
def rowsHeld (file : List Byte) (st : StCtx) (e : StEntry) (cols rows : Nat) : Nat :=
  min rows ((file.length - rowStart st e) / (cols * e.esz))

/-- The declared length covers the rows that the file holds, and the start does not wrap. -/
def Covers (file : List Byte) (st : StCtx) (e : StEntry) (cols rows : Nat) : Prop :=
  rowsHeld file st e cols rows = 0 ∨
    st.dataBase + e.off.toNat < 2 ^ 64 ∧
      rowsHeld file st e cols rows * (cols * e.esz) ≤ (e.off + e.len).toNat - e.off.toNat

/-! What a row reads -/

section

variable {file : List Byte} {pos left : Nat}

theorem fread_eq_none {n : Nat} : fread file pos n = none ↔ 0 < n ∧ file.length < pos + n := by
  unfold fread
  split
  · rename_i hread
    exact ⟨fun h => absurd h (Option.some_ne_none _), fun h => by omega⟩
  · rename_i hshort
    exact ⟨fun _ => by omega, fun _ => rfl⟩

/-- The chunks are one span, or too long for the file. -/
theorem bf16Loop_spec (file : List Byte) (pos left : Nat) :
    ((bf16Loop file pos left).2 = none ↔ 0 < left ∧ file.length < pos + 2 * left) ∧
      ((bf16Loop file pos left).2 ≠ none →
        ∀ x, (∃ s ∈ (bf16Loop file pos left).1, s.Has x) ↔ pos ≤ x ∧ x < pos + 2 * left) := by
  induction left using Nat.strongRecOn generalizing pos with
  | ind left ih =>
      rw [bf16Loop]
      by_cases hleft : left = 0
      · rw [dif_pos hleft]
        refine ⟨⟨fun h => absurd h (Option.some_ne_none _), fun h => by omega⟩, fun _ x => ?_⟩
        constructor
        · rintro ⟨s, hs, -⟩
          exact absurd hs List.not_mem_nil
        · omega
      · rw [dif_neg hleft]
        obtain ⟨hnone, hspan⟩ := ih (left - min left 4096) (by omega) (pos + 2 * min left 4096)
        cases hread : fread file pos (2 * min left 4096) with
        | none =>
            obtain ⟨hpos, hshort⟩ := fread_eq_none.mp hread
            simp only [hread]
            exact ⟨⟨fun _ => by omega, fun _ => trivial⟩, fun h => absurd rfl h⟩
        | some bs =>
            have hin : ¬ (0 < 2 * min left 4096 ∧ file.length < pos + 2 * min left 4096) := by
              rw [← fread_eq_none, hread]
              exact Option.some_ne_none _
            simp only [hread, ne_eq, Option.map_eq_none_iff]
            rw [hnone]
            refine ⟨by omega, fun hsome x => ?_⟩
            have hrest := hspan (hnone.not.mpr hsome) x
            constructor
            · rintro ⟨s, hs, hx⟩
              rcases List.mem_cons.mp hs with rfl | hs
              · have hx' : pos ≤ x ∧ x < pos + 2 * min left 4096 := hx
                omega
              · have := hrest.mp ⟨s, hs, hx⟩
                omega
            · intro hx
              rcases Nat.lt_or_ge x (pos + 2 * min left 4096) with hfirst | hlater
              · exact ⟨_, List.mem_cons_self, hx.1, hfirst⟩
              · obtain ⟨s, hs, hsx⟩ := hrest.mpr ⟨hlater, by omega⟩
                exact ⟨s, List.mem_cons_of_mem _ hs, hsx⟩

/-- A row fails where its end is not in the file, and else reads from its offset on. -/
theorem stReadRow_spec {file : List Byte} (hfile : file.length < 2 ^ 63) (st : StCtx) (e : StEntry)
    (j : Nat) {cols : Nat} (hcols : 0 < cols) :
    ((stReadRow file st e j cols).2 = none ↔
        file.length < rowOffset st e j cols + cols * e.esz) ∧
      ((stReadRow file st e j cols).2 ≠ none → ∀ x,
        (∃ s ∈ (stReadRow file st e j cols).1, s.Has x) ↔
          rowOffset st e j cols ≤ x ∧ x < rowOffset st e j cols + cols * e.esz) := by
  unfold stReadRow
  simp only
  generalize rowOffset st e j cols = off
  split
  · exact ⟨⟨fun _ => by omega, fun _ => rfl⟩, fun h => absurd rfl h⟩
  · rename_i hoff
    cases hbf : e.isBf16 with
    | true =>
        obtain ⟨hnone, hspan⟩ := bf16Loop_spec file off cols
        have hesz : cols * e.esz = 2 * cols := by
          rw [StEntry.esz, hbf]
          exact Nat.mul_comm _ _
        rw [if_pos rfl, hesz]
        exact ⟨hnone.trans ⟨fun h => h.2, fun h => ⟨hcols, h⟩⟩, hspan⟩
    | false =>
        have hesz : cols * e.esz = 4 * cols := by
          rw [StEntry.esz, hbf]
          exact Nat.mul_comm _ _
        rw [if_neg Bool.false_ne_true, hesz]
        cases hread : fread file off (4 * cols) with
        | none => exact ⟨⟨fun _ => (fread_eq_none.mp hread).2, fun _ => rfl⟩, fun h => absurd rfl h⟩
        | some bs =>
            have hin : ¬ (0 < 4 * cols ∧ file.length < off + 4 * cols) := by
              rw [← fread_eq_none, hread]
              exact Option.some_ne_none _
            refine ⟨⟨fun h => absurd h (Option.some_ne_none _), fun h => by omega⟩, fun _ x => ?_⟩
            constructor
            · rintro ⟨s, hs, hx⟩
              obtain rfl := List.mem_singleton.mp hs
              exact hx
            · exact fun hx => ⟨_, List.mem_cons_self, hx⟩

end

section

variable {file : List Byte} {st : StCtx} {e : StEntry} {cols rows : Nat}

/-- A row that is asked for starts behind those before it: its offset has not wrapped. -/
theorem rowOffset_requested (hfile : file.length < 2 ^ 63) (hcols : 0 < cols) {j : Nat}
    (hbefore : ∀ i, i < j → (stReadRow file st e i cols).2 ≠ none) :
    rowOffset st e j cols = rowStart st e + j * (cols * e.esz) ∧
      (0 < j → rowStart st e + j * (cols * e.esz) ≤ file.length) := by
  have hshift : rowOffset st e j cols = (rowStart st e + j * (cols * e.esz)) % 2 ^ 64 := by
    rw [rowOffset, rowStart, Nat.mod_add_mod]
  induction j with
  | zero =>
      have hstart : rowStart st e < 2 ^ 64 := Nat.mod_lt _ (by omega)
      refine ⟨?_, fun h => absurd h (Nat.lt_irrefl 0)⟩
      rw [hshift, Nat.zero_mul, Nat.add_zero, Nat.mod_eq_of_lt hstart]
  | succ j ih =>
      have hprevious : rowOffset st e j cols = rowStart st e + j * (cols * e.esz) :=
        (ih (fun i hi => hbefore i (by omega)) (by rw [rowOffset, rowStart, Nat.mod_add_mod])).1
      have hread := hbefore j (Nat.lt_succ_self j)
      rw [ne_eq, (stReadRow_spec hfile st e j hcols).1, hprevious, Nat.not_lt] at hread
      have hnext : (j + 1) * (cols * e.esz) = j * (cols * e.esz) + cols * e.esz := by ring
      refine ⟨?_, fun _ => by omega⟩
      rw [hshift, Nat.mod_eq_of_lt (by omega)]

/-- The rows that lie in the file are read. -/
theorem read_of_held (hfile : file.length < 2 ^ 63) (hcols : 0 < cols) {j : Nat}
    (hheld : j < rowsHeld file st e cols rows) :
    ∀ i, i ≤ j → (stReadRow file st e i cols).2 ≠ none ∧
      rowOffset st e i cols = rowStart st e + i * (cols * e.esz) := by
  have hrb : 0 < cols * e.esz := Nat.mul_pos hcols (by rw [StEntry.esz]; split <;> omega)
  have hfits : (j + 1) * (cols * e.esz) ≤ file.length - rowStart st e := by
    apply (Nat.le_div_iff_mul_le hrb).mp
    exact le_trans hheld (Nat.min_le_right _ _)
  have hpos : 0 < (j + 1) * (cols * e.esz) := Nat.mul_pos (by omega) hrb
  intro i
  induction i using Nat.strongRecOn with
  | ind i ih =>
      intro hij
      have hoff : rowOffset st e i cols = rowStart st e + i * (cols * e.esz) :=
        (rowOffset_requested hfile hcols fun i' hi' => (ih i' hi' (by omega)).1).1
      refine ⟨?_, hoff⟩
      have hend : (i + 1) * (cols * e.esz) ≤ (j + 1) * (cols * e.esz) :=
        Nat.mul_le_mul_right _ (by omega)
      have hnext : (i + 1) * (cols * e.esz) = i * (cols * e.esz) + cols * e.esz := by ring
      rw [ne_eq, (stReadRow_spec hfile st e i hcols).1, hoff]
      omega

theorem confined_of_covers (hfile : file.length < 2 ^ 63) (hcols : 0 < cols)
    (h : Covers file st e cols rows) : Confined file st e cols rows := by
  have hrb : 0 < cols * e.esz := Nat.mul_pos hcols (by rw [StEntry.esz]; split <;> omega)
  intro j hj hbefore
  obtain ⟨hoff, -⟩ := rowOffset_requested hfile hcols hbefore
  obtain ⟨hnone, hspan⟩ := stReadRow_spec hfile st e j hcols
  by_cases hread : (stReadRow file st e j cols).2 = none
  · exact Or.inl hread
  · right
    intro s hs x hx
    obtain ⟨hlo, hhi⟩ := (hspan hread x).mp ⟨s, hs, hx⟩
    rw [hnone, hoff] at hread
    rw [hoff] at hlo hhi
    have hnext : (j + 1) * (cols * e.esz) = j * (cols * e.esz) + cols * e.esz := by ring
    have hheld : j + 1 ≤ rowsHeld file st e cols rows := by
      refine Nat.le_min.mpr ⟨hj, (Nat.le_div_iff_mul_le hrb).mpr ?_⟩
      omega
    rcases h with hnoheld | ⟨hwrap, hlen⟩
    · omega
    · have hstart : rowStart st e = st.dataBase + e.off.toNat := Nat.mod_eq_of_lt hwrap
      have hcover : (j + 1) * (cols * e.esz) ≤ rowsHeld file st e cols rows * (cols * e.esz) :=
        Nat.mul_le_mul_right _ hheld
      constructor
      · omega
      · omega

theorem covers_of_confined (hfile : file.length < 2 ^ 63) (hcols : 0 < cols)
    (h : Confined file st e cols rows) : Covers file st e cols rows := by
  have hrb : 0 < cols * e.esz := Nat.mul_pos hcols (by rw [StEntry.esz]; split <;> omega)
  rcases Nat.eq_zero_or_pos (rowsHeld file st e cols rows) with hzero | hheld
  · exact Or.inl hzero
  · right
    have hrows : rowsHeld file st e cols rows ≤ rows := Nat.min_le_left _ _
    -- every row held is read, so its bytes are declared
    have hdeclared : ∀ j, j < rowsHeld file st e cols rows → ∀ x,
        rowStart st e + j * (cols * e.esz) ≤ x →
        x < rowStart st e + j * (cols * e.esz) + cols * e.esz → Declared st e x := by
      intro j hj x hlo hhi
      have hread := read_of_held hfile hcols hj
      obtain ⟨hsome, hoff⟩ := hread j (le_refl j)
      rcases h j (by omega) fun i hi => (hread i (by omega)).1 with hnone | hspans
      · exact absurd hnone hsome
      · obtain ⟨s, hs, hx⟩ := ((stReadRow_spec hfile st e j hcols).2 hsome x).mpr
          ⟨by omega, by omega⟩
        exact hspans s hs x hx
    have hfirst := (hdeclared 0 hheld (rowStart st e) (by omega) (by omega)).1
    have hmod : rowStart st e ≤ st.dataBase + e.off.toNat := Nat.mod_le _ _
    have hword : rowStart st e < 2 ^ 64 := Nat.mod_lt _ (by omega)
    obtain ⟨last, hlast⟩ : ∃ last, rowsHeld file st e cols rows = last + 1 :=
      ⟨rowsHeld file st e cols rows - 1, by omega⟩
    have hnext : (last + 1) * (cols * e.esz) = last * (cols * e.esz) + cols * e.esz := by ring
    have hend := (hdeclared last (by omega)
      (rowStart st e + last * (cols * e.esz) + cols * e.esz - 1) (by omega) (by omega)).2
    rw [hlast]
    exact ⟨by omega, by omega⟩

/-- A row of no columns reads nothing. -/
theorem confined_of_empty (file : List Byte) (st : StCtx) (e : StEntry) (rows : Nat) :
    Confined file st e 0 rows := by
  intro j _ _
  right
  intro s hs x hx
  have hspan : s.2 = 0 := by
    unfold stReadRow at hs
    simp only at hs
    generalize rowOffset st e j 0 = off at hs
    split at hs
    · exact absurd hs List.not_mem_nil
    · split at hs
      · rw [bf16Loop, dif_pos rfl] at hs
        exact absurd hs List.not_mem_nil
      · split at hs
        · exact absurd hs List.not_mem_nil
        · rw [List.mem_singleton.mp hs]
  have hlt := hx.2
  have hle := hx.1
  omega

/-- The rows of a tensor stay in its declared range exactly when that range covers the rows
that the file holds. -/
theorem rows_confined_iff (file : List Byte) (st : StCtx) (e : StEntry) (cols rows : Nat)
    (hfile : file.length < 2 ^ 63) :
    Confined file st e cols rows ↔ Covers file st e cols rows := by
  rcases Nat.eq_zero_or_pos cols with rfl | hcols
  · refine ⟨fun _ => Or.inl ?_, fun _ => confined_of_empty file st e rows⟩
    rw [rowsHeld, Nat.zero_mul, Nat.div_zero, Nat.min_zero]
  · exact ⟨covers_of_confined hfile hcols, confined_of_covers hfile hcols⟩

end

/-! A header whose first length is short of its shape -/

def shortHeader : List Byte :=
  ascii ("\x7b\"model.language_model.norm.weight\":" ++
    "\x7b\"dtype\":\"F32\",\"shape\":[2],\"data_offsets\":[0,4]\x7d," ++
    "\"x\":\x7b\"dtype\":\"F32\",\"shape\":[1],\"data_offsets\":[4,8]\x7d\x7d").toList

def shortFile : List Byte :=
  LittleEndian.bytes 8 shortHeader.length ++ shortHeader ++ List.replicate 8 0

/-- The norm's entry: two values in four bytes. -/
def shortEntry : StEntry where
  name := ascii "model.language_model.norm.weight".toList
  isBf16 := false
  shape := [2]
  off := 0
  len := 4

/-- The entry behind it. -/
def nextEntry : StEntry where
  name := ascii "x".toList
  isBf16 := false
  shape := [1]
  off := 4
  len := 4

def shortCtx : StCtx := ⟨8 + shortHeader.length, [shortEntry, nextEntry]⟩

theorem shortHeader_length : shortHeader.length = 138 := by decide +kernel

theorem shortFile_length : shortFile.length = 154 := by
  rw [shortFile, List.length_append, List.length_append, shortHeader_length]
  rfl

theorem shortFile_small : shortFile.length < 2 ^ 63 := by
  rw [shortFile_length]
  decide

theorem shortCtx_dataBase : shortCtx.dataBase = 146 := by
  rw [shortCtx, shortHeader_length]

/-- All the rows of the file are held. -/
theorem short_rowsHeld {e : StEntry} {cols rows : Nat} :
    rowsHeld shortFile shortCtx e cols rows =
      min rows ((154 - (146 + e.off.toNat) % 2 ^ 64) / (cols * e.esz)) := by
  rw [rowsHeld, rowStart, shortFile_length, shortCtx_dataBase]

theorem rows_confined_next : Confined shortFile shortCtx nextEntry 1 1 :=
  (rows_confined_iff shortFile shortCtx nextEntry 1 1 shortFile_small).mpr
    (by rw [Covers, short_rowsHeld, shortCtx_dataBase]; decide)

/-- The file is accepted and the shape agrees, but the row that `add_f32` asks for runs into
the next tensor. -/
theorem row_past_range :
    stOpen shortFile = some shortCtx ∧
    stFind shortCtx shortEntry.name = some shortEntry ∧
    shapeAgrees ⟨ascii "output_norm.weight".toList, 1, fun d => if d = 0 then 2 else 0⟩
      shortEntry = true ∧
    f32Rows 2 = (2, 1) ∧ ¬ Confined shortFile shortCtx shortEntry 2 1 := by
  refine ⟨by decide +kernel, List.find?_cons_of_pos (decide_eq_true rfl), by decide, by decide,
    fun h => ?_⟩
  have hcovers := covers_of_confined shortFile_small (by decide) h
  rw [Covers, short_rowsHeld, shortCtx_dataBase] at hcovers
  revert hcovers
  decide

end ShannonPrime.Transcode.Safetensors
