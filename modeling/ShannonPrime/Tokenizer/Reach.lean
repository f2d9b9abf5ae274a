import ShannonPrime.Tokenizer.Tokfile

/-!
How far the loader of tokenizer files reads. Where the header's offset and size add up without
wrapping, every read lies in the file; where they wrap, the check of the header passes with no
room behind it, and the reads lie in the file just when the records themselves do.
-/

namespace ShannonPrime.Tokenizer

open Fetch
open Records

namespace View

variable (v : View)

/-! The records of a blob, where their lengths say -/

def typeId : Nat := v.word 4

def nv : Nat := v.word 8

def nm : Nat := v.word 12

def text (s : Nat × Nat) : List UInt8 := slice v.file (v.base + s.1) s.2

def tokenSpans : List (Nat × Nat) := Records.spans 4 v.word v.nv 16

def tokensEnd : Nat := finish 4 v.word v.nv 16

def tokens : List (List UInt8) := v.tokenSpans.map v.text

/-- The merges start behind the scores, which only an SPM vocabulary has. -/
def mergesStart (family : Family) : Nat :=
  if family = .spm then v.tokensEnd + v.nv * 4 else v.tokensEnd

def mergeSpans (family : Family) : List (Nat × Nat) :=
  Records.spans 4 v.word v.nm (v.mergesStart family)

def mergesEnd (family : Family) : Nat := finish 4 v.word v.nm (v.mergesStart family)

def merges (family : Family) : List (List UInt8) := (v.mergeSpans family).map v.text

/-- Where the last length of a merge ends. -/
def mergeLengthsEnd (family : Family) : Nat := lengthsEnd 4 v.word v.nm (v.mergesStart family)

/-- How far the sections are read: an SPM vocabulary without its byte tokens is refused before
its merges, of which else only the lengths are read; the lines of a Gemma 4 vocabulary are read
up to the first that is refused. -/
def sectionsReach (family : Family) : Nat :=
  match family with
  | .gpt2 => v.mergesEnd .gpt2
  | .spm => if spmBytes (vocabMap v.tokens) then v.mergeLengthsEnd .spm else v.mergesStart .spm
  | .gemma4 =>
      if v.nm ≤ 0x7FFFFFFF ∧ (v.merges .gemma4).dropLast.all (lineOk (vocabMap v.tokens)) then
        v.mergesEnd .gemma4
      else v.mergeLengthsEnd .gemma4

/-- How far the blob is read. -/
def reach (vocabSize : Nat) : Nat :=
  if v.word 0 ≠ sptbMagic then 4
  else
    match familyOf v.typeId with
    | none => 16
    | some family => if v.nv = 0 ∨ v.nv ≠ vocabSize then 16 else v.sectionsReach family

/-! Where the room is what the file has -/

/-- The blob lies in the file. -/
structure Bounded : Prop where
  size : v.file.length < 2 ^ 63
  room : v.base + v.bs ≤ v.file.length

/-- The end of the blob wraps. -/
structure Wrapped : Prop where
  size : v.file.length < 2 ^ 63
  word : v.base < 2 ^ 64
  wraps : 2 ^ 64 ≤ v.base + v.bs

variable {v}

theorem word_lt (v : View) (p : Nat) : v.word p < 2 ^ 32 := number_lt

theorem u32_bounded (h : v.Bounded) {pos : Nat} (hpos : pos ≤ v.bs) :
    v.u32 pos = if pos + 4 ≤ v.bs then .value (v.word pos, pos + 4) else .rejected := by
  have hsize := h.size
  have hroom := h.room
  have hword : (pos + 4) % 2 ^ 64 = pos + 4 := Nat.mod_eq_of_lt (by omega)
  rw [u32, hword]
  split
  · rw [if_neg (by omega)]
  · rw [if_pos (by omega), fetch_inside (by omega) (by omega), Outcome.value_bind,
      number_slice (Nat.le_refl 4)]
    rfl

/-- Records within the room are found where they lie; others are refused. -/
theorem records_bounded (h : v.Bounded) {n pos : Nat} (hpos : pos ≤ v.bs) :
    v.records n pos =
      if finish 4 v.word n pos ≤ v.bs then
        .value (Records.spans 4 v.word n pos, finish 4 v.word n pos)
      else .rejected := by
  have hsize := h.size
  have hroom := h.room
  induction n generalizing pos with
  | zero => exact (if_pos hpos).symm
  | succ n ih =>
      have hlen := v.word_lt pos
      have hend : pos + 4 + v.word pos ≤ finish 4 v.word n (pos + 4 + v.word pos) := le_finish
      rw [records, u32_bounded h hpos, finish, Records.spans]
      rcases Nat.lt_or_ge v.bs (pos + 4) with hshort | hfour
      · rw [if_neg (by omega), if_neg (by omega)]
        rfl
      · have hword : (pos + 4 + v.word pos) % 2 ^ 64 = pos + 4 + v.word pos :=
          Nat.mod_eq_of_lt (by omega)
        rw [if_pos hfour, Outcome.value_bind]
        simp only [hword]
        split
        · rw [if_neg (by omega)]
        · rw [ih (by omega)]
          split <;> rfl

theorem texts_inside (v : View) (hsize : v.file.length < 2 ^ 63) {l : List (Nat × Nat)}
    (h : ∀ s ∈ l, v.base + s.1 + s.2 ≤ v.file.length) : v.texts l = .value (l.map v.text) := by
  induction l with
  | nil => rfl
  | cons s l ih =>
      have hs := h s List.mem_cons_self
      rw [texts, fetch_inside (by omega) hs, Outcome.value_bind,
        ih fun t ht => h t (List.mem_cons_of_mem _ ht)]
      rfl

theorem lines_inside (v : View) (hsize : v.file.length < 2 ^ 63) (m : Hmap)
    {l : List (Nat × Nat)} (h : ∀ s ∈ l, v.base + s.1 + s.2 ≤ v.file.length) :
    v.lines m l = if (l.map v.text).all (lineOk m) then .value (l.map v.text) else .rejected := by
  induction l with
  | nil => rfl
  | cons s l ih =>
      have hs := h s List.mem_cons_self
      rw [lines, fetch_inside (by omega) hs, Outcome.value_bind,
        ih fun t ht => h t (List.mem_cons_of_mem _ ht), List.map_cons, List.all_cons, ← text]
      cases lineOk m (v.text s)
      case false => rfl
      case true =>
        rw [if_pos rfl, Bool.true_and]
        split <;> rfl

theorem spans_inside (h : v.Bounded) {n pos : Nat} (hend : finish 4 v.word n pos ≤ v.bs) :
    ∀ s ∈ Records.spans 4 v.word n pos, v.base + s.1 + s.2 ≤ v.file.length := by
  intro s hs
  have hroom := h.room
  have hlast := (mem_spans hs).2
  omega

/-- The tokens of a blob that has room for them. -/
theorem loadTokens_bounded (h : v.Bounded) {n pos : Nat} (hpos : pos ≤ v.bs) :
    v.loadTokens n pos =
      if finish 4 v.word n pos ≤ v.bs then
        .value ((Records.spans 4 v.word n pos).map v.text, finish 4 v.word n pos)
      else .rejected := by
  rw [loadTokens, records_bounded h hpos]
  split
  · rename_i hend
    rw [Outcome.value_bind]
    simp only [v.texts_inside h.size (spans_inside h hend), Outcome.value_bind]
  · rfl

theorem loadScores_bounded (h : v.Bounded) (m : Hmap) {n pos : Nat} (hn : n < 2 ^ 32)
    (hpos : pos ≤ v.bs) :
    v.loadScores m n pos =
      if pos + n * 4 ≤ v.bs ∧ spmBytes m then
        .value (slice v.file (v.base + pos) (n * 4), pos + n * 4)
      else .rejected := by
  have hsize := h.size
  have hroom := h.room
  have hword : (pos + n * 4) % 2 ^ 64 = pos + n * 4 := Nat.mod_eq_of_lt (by omega)
  rw [loadScores, hword]
  split
  · rw [if_neg (by omega)]
  · rw [fetch_inside (by omega) (by omega), Outcome.value_bind]
    cases spmBytes m
    case false => rw [if_neg Bool.false_ne_true, if_neg fun hb => Bool.false_ne_true hb.2]
    case true => rw [if_pos rfl, if_pos ⟨by omega, rfl⟩]

theorem loadMerges_bounded (h : v.Bounded) (family : Family) (m : Hmap) {n pos : Nat}
    (hpos : pos ≤ v.bs) : v.loadMerges family m n pos ≠ .fault := by
  rw [loadMerges, records_bounded h hpos]
  split
  · split
    · rename_i hend
      have hin := spans_inside h hend
      rw [Outcome.value_bind]
      cases family
      case gpt2 =>
        simp only [v.texts_inside h.size hin]
        exact fun hfault => (nomatch hfault)
      case spm => exact fun hfault => (nomatch hfault)
      case gemma4 =>
        simp only [g4Build, v.lines_inside h.size m hin]
        split
        · exact fun hfault => (nomatch hfault)
        · split
          · rw [Outcome.value_bind]
            split <;> exact fun hfault => (nomatch hfault)
          · exact fun hfault => (nomatch hfault)
    · exact fun hfault => (nomatch hfault)
  · split <;> exact fun hfault => (nomatch hfault)

theorem finishLoad_ne_fault (hdr : TokHeader) (family : Family) (nv : Nat)
    (tok : List (List UInt8)) (scores : List UInt8) (merges : List (List UInt8)) :
    finishLoad hdr family nv tok scores merges ≠ .fault := by
  rw [finishLoad]
  split <;> exact fun hfault => (nomatch hfault)

/-- Within the room of a blob nothing outside of the file is read. -/
theorem loadSections_bounded (h : v.Bounded) (hbs : 16 ≤ v.bs) (hdr : TokHeader)
    (family : Family) (n : Nat) : v.loadSections hdr family v.nv n ≠ .fault := by
  rw [loadSections, loadTokens_bounded h hbs]
  split
  · rename_i hend
    rw [Outcome.value_bind]
    have hmerges : ∀ (m : Hmap) (scores : List UInt8) (tok : List (List UInt8)) (pos : Nat),
        pos ≤ v.bs →
        (v.loadMerges family m n pos >>= finishLoad hdr family v.nv tok scores) ≠ .fault := by
      intro m scores tok pos hpos hfault
      rcases Outcome.bind_eq_fault.mp hfault with hfault | ⟨merges, -, hfault⟩
      · exact loadMerges_bounded h family m hpos hfault
      · exact finishLoad_ne_fault _ _ _ _ _ _ hfault
    dsimp only
    split
    · rw [loadScores_bounded h _ (show v.nv < 2 ^ 32 from v.word_lt 8) hend]
      split
      · rename_i hscores
        exact hmerges _ _ _ _ hscores.1
      · exact fun hfault => (nomatch hfault)
    · exact hmerges _ _ _ _ hend
  · exact fun hfault => (nomatch hfault)

/-- The blob behind its four counts. -/
def afterHead (v : View) (hdr : TokHeader) : Outcome TokFile :=
  match familyOf v.typeId with
  | none => .rejected
  | some family =>
      if v.nv = 0 ∨ v.nv ≠ hdr.vocabSize then .rejected
      else v.loadSections hdr family v.nv v.nm

theorem loadBlob_of_head {hdr : TokHeader}
    (h : ∀ pos, pos + 4 ≤ 16 → v.u32 pos = .value (v.word pos, pos + 4)) :
    v.loadBlob hdr = if v.word 0 ≠ sptbMagic then .rejected else v.afterHead hdr := by
  rw [loadBlob, h 0 (by omega), Outcome.value_bind]
  simp only [h 4 (by omega), h 8 (by omega), h 12 (by omega), Nat.zero_add, Outcome.value_bind]
  rfl

theorem loadBlob_bounded (h : v.Bounded) (hbs : 16 ≤ v.bs) (hdr : TokHeader) :
    v.loadBlob hdr ≠ .fault := by
  have hhead : ∀ pos, pos + 4 ≤ 16 → v.u32 pos = .value (v.word pos, pos + 4) := by
    intro pos hpos
    rw [u32_bounded h (by omega), if_pos (by omega)]
  rw [loadBlob_of_head hhead, afterHead]
  split
  · exact fun hfault => (nomatch hfault)
  · split
    · exact fun hfault => (nomatch hfault)
    · split
      · exact fun hfault => (nomatch hfault)
      · exact loadSections_bounded h hbs hdr _ v.nm

/-- Every byte has a token. -/
def allBytes (m : Hmap) : Bool := (List.range 256).all fun b => (hmapGet m (byteName b)).isSome

/-- What a blob with room for its merges is accepted for. -/
structure Sound (v : View) (family : Family) : Prop where
  room : v.mergesEnd family ≤ v.bs
  spm : family = .spm → spmBytes (vocabMap v.tokens) = true
  count : family = .gemma4 → 0 < v.nm ∧ v.nm ≤ 0x7FFFFFFF
  lines : family = .gemma4 → (v.merges family).all (lineOk (vocabMap v.tokens)) = true
  bytes : family = .gemma4 → allBytes (vocabMap v.tokens) = true

theorem loadMerges_sound (h : v.Bounded) {family : Family} (hsound : v.Sound family) :
    v.loadMerges family (vocabMap v.tokens) v.nm (v.mergesStart family) =
      .value (if family = .spm then [] else v.merges family) := by
  have hend : finish 4 v.word v.nm (v.mergesStart family) ≤ v.bs := hsound.room
  have hin := spans_inside h hend
  rw [loadMerges]
  split
  · rw [records_bounded h (le_finish.trans hend), if_pos hend, Outcome.value_bind]
    cases family
    case gpt2 =>
      dsimp only
      rw [v.texts_inside h.size hin]
      rfl
    case spm => rfl
    case gemma4 =>
      obtain ⟨hpos, hle⟩ := hsound.count rfl
      have hlines : (((Records.spans 4 v.word v.nm (v.mergesStart .gemma4)).map v.text).all
          (lineOk (vocabMap v.tokens))) = true := hsound.lines rfl
      have hbytes : ((List.range 256).all fun b =>
          (hmapGet (vocabMap v.tokens) (byteName b)).isSome) = true := hsound.bytes rfl
      dsimp only
      rw [g4Build, spans_length, if_neg (by omega), v.lines_inside h.size _ hin, if_pos hlines,
        Outcome.value_bind, if_pos hbytes]
      rfl
  · rename_i hnone
    have hzero : v.nm = 0 := by omega
    have hempty : v.merges family = [] := by
      rw [merges, mergeSpans, hzero]
      rfl
    rw [hempty, ite_self, if_neg]
    intro hg4
    exact hnone (hsound.count hg4).1

theorem loadSections_sound (h : v.Bounded) (hdr : TokHeader) {family : Family}
    (hsound : v.Sound family) :
    v.loadSections hdr family v.nv v.nm =
      finishLoad hdr family v.nv v.tokens
        (if family = .spm then slice v.file (v.base + v.tokensEnd) (v.nv * 4) else [])
        (if family = .spm then [] else v.merges family) := by
  have hmerges : v.mergesStart family ≤ v.bs := le_finish.trans hsound.room
  have hstart : v.tokensEnd ≤ v.mergesStart family := by
    rw [mergesStart]
    split <;> omega
  have hend : finish 4 v.word v.nv 16 ≤ v.bs := hstart.trans hmerges
  rw [loadSections, loadTokens_bounded h (le_finish.trans hend), if_pos hend, Outcome.value_bind]
  dsimp only
  split
  · rename_i hspm
    subst hspm
    have hroom : v.tokensEnd + v.nv * 4 ≤ v.bs := hmerges
    have hscores := loadScores_bounded h (vocabMap v.tokens)
      (show v.nv < 2 ^ 32 from v.word_lt 8) hend
    rw [if_pos ⟨hroom, hsound.spm rfl⟩] at hscores
    have hrest := loadMerges_sound h hsound
    rw [if_pos rfl] at hrest
    exact (congrArg (fun x => x >>= _) hscores).trans
      (congrArg (fun x => x >>= _) hrest)
  · rename_i hspm
    have hsame : v.mergesStart family = v.tokensEnd := if_neg hspm
    have hrest := loadMerges_sound h hsound
    rw [if_neg hspm, hsame] at hrest
    exact congrArg (fun x => x >>= _) hrest

/-! Where the room wraps -/

theorem u32_wrapped (h : v.Wrapped) {pos : Nat} (hpos : v.base + pos ≤ v.file.length + 2 ^ 32) :
    v.u32 pos =
      if v.base + (pos + 4) ≤ v.file.length then .value (v.word pos, pos + 4) else .fault := by
  have hsize := h.size
  have hwraps := h.wraps
  have hword : (pos + 4) % 2 ^ 64 = pos + 4 := Nat.mod_eq_of_lt (by omega)
  rw [u32, hword, if_neg (by omega)]
  split
  · rw [fetch_inside (by omega) (by omega), Outcome.value_bind, number_slice (Nat.le_refl 4)]
    rfl
  · rw [fetch_outside (by omega) (by omega) (by omega)]
    rfl

/-- No check stops the loop; it faults at the first length outside of the file. -/
theorem records_wrapped (h : v.Wrapped) {n pos : Nat}
    (hpos : v.base + pos ≤ v.file.length + 2 ^ 32) :
    v.records n pos =
      if n = 0 ∨ v.base + lengthsEnd 4 v.word n pos ≤ v.file.length then
        .value (Records.spans 4 v.word n pos, finish 4 v.word n pos)
      else .fault := by
  have hsize := h.size
  have hwraps := h.wraps
  induction n generalizing pos with
  | zero => rfl
  | succ n ih =>
      have hlen := v.word_lt pos
      rw [records, u32_wrapped h hpos, finish, Records.spans, lengthsEnd_succ]
      rcases Nat.lt_or_ge v.file.length (v.base + (pos + 4)) with hout | hin
      · have hlast : pos + 4 + v.word pos ≤ lengthsEnd 4 v.word n (pos + 4 + v.word pos) :=
          le_lengthsEnd
        rw [if_neg (by omega), if_neg (by split <;> omega)]
        rfl
      · have hword : (pos + 4 + v.word pos) % 2 ^ 64 = pos + 4 + v.word pos :=
          Nat.mod_eq_of_lt (by omega)
        rw [if_pos hin, Outcome.value_bind]
        simp only [hword]
        rw [if_neg (by omega), ih (by omega)]
        cases n with
        | zero =>
            rw [if_pos (Or.inl rfl), if_pos (Or.inr (by rwa [if_pos rfl]))]
            rfl
        | succ n =>
            simp only [Nat.succ_ne_zero, false_or, if_false]
            split <;> rfl

theorem texts_snoc (v : View) (hsize : v.file.length < 2 ^ 63) {l : List (Nat × Nat)}
    (h : ∀ s ∈ l, v.base + s.1 + s.2 ≤ v.file.length) (s : Nat × Nat) :
    v.texts (l ++ [s]) =
      (fetch v.file (v.base + s.1) s.2 >>= fun t => .value (l.map v.text ++ [t])) := by
  induction l with
  | nil =>
      rw [List.nil_append, texts]
      rfl
  | cons s' l ih =>
      have hs := h s' List.mem_cons_self
      rw [List.cons_append, texts, fetch_inside (by omega) hs, Outcome.value_bind,
        ih fun t ht => h t (List.mem_cons_of_mem _ ht)]
      cases fetch v.file (v.base + s.1) s.2 <;> rfl

theorem lines_snoc (v : View) (hsize : v.file.length < 2 ^ 63) (m : Hmap) {l : List (Nat × Nat)}
    (h : ∀ s ∈ l, v.base + s.1 + s.2 ≤ v.file.length) (s : Nat × Nat) :
    v.lines m (l ++ [s]) =
      if (l.map v.text).all (lineOk m) then
        fetch v.file (v.base + s.1) s.2 >>= fun t =>
          if lineOk m t then .value (l.map v.text ++ [t]) else .rejected
      else .rejected := by
  induction l with
  | nil =>
      rw [List.nil_append, lines]
      rfl
  | cons s' l ih =>
      have hs := h s' List.mem_cons_self
      rw [List.cons_append, lines, fetch_inside (by omega) hs, Outcome.value_bind,
        ih fun t ht => h t (List.mem_cons_of_mem _ ht), List.map_cons, List.all_cons, ← text]
      cases lineOk m (v.text s')
      case false => rfl
      case true =>
        rw [if_pos rfl, Bool.true_and]
        split
        · cases hlast : fetch v.file (v.base + s.1) s.2
          case value t =>
            simp only [Outcome.value_bind]
            split <;> rfl
          case rejected => rfl
          case fault => rfl
        · rfl

/-- All records but the last lie in the file once the lengths do. -/
theorem spans_before (v : View) {n pos : Nat}
    (h : v.base + lengthsEnd 4 v.word (n + 1) pos ≤ v.file.length) :
    ∀ s ∈ Records.spans 4 v.word n pos, v.base + s.1 + s.2 ≤ v.file.length := by
  intro s hs
  have hlast := (mem_spans hs).2
  have hbefore : finish 4 v.word n pos + 4 = lengthsEnd 4 v.word (n + 1) pos := rfl
  omega

/-- Tokens, or the merges that are all read: it is their end that decides. -/
theorem loadTokens_wrapped (h : v.Wrapped) {n pos : Nat} (hpos : v.base + pos ≤ v.file.length) :
    v.loadTokens n pos =
      if v.base + finish 4 v.word n pos ≤ v.file.length then
        .value ((Records.spans 4 v.word n pos).map v.text, finish 4 v.word n pos)
      else .fault := by
  have hsize := h.size
  rw [loadTokens, records_wrapped h (by omega)]
  cases n with
  | zero => exact (if_pos hpos).symm
  | succ n =>
      have hends : finish 4 v.word (n + 1) pos =
        lengthsEnd 4 v.word (n + 1) pos + v.word (finish 4 v.word n pos) := finish_succ
      simp only [Nat.succ_ne_zero, false_or]
      split
      · rename_i hlengths
        rw [Outcome.value_bind]
        simp only [spans_succ]
        rw [v.texts_snoc hsize (v.spans_before hlengths), fetch_from (by omega) (by omega)]
        simp only [hends, List.map_append, List.map_singleton, Nat.add_assoc]
        split <;> rfl
      · rw [if_neg (by omega)]
        rfl

theorem loadScores_wrapped (h : v.Wrapped) (m : Hmap) {n pos : Nat} (hn : n < 2 ^ 32)
    (hpos : v.base + pos ≤ v.file.length) :
    v.loadScores m n pos =
      if v.base + (pos + n * 4) ≤ v.file.length then
        if spmBytes m then .value (slice v.file (v.base + pos) (n * 4), pos + n * 4)
        else .rejected
      else .fault := by
  have hsize := h.size
  have hwraps := h.wraps
  have hword : (pos + n * 4) % 2 ^ 64 = pos + n * 4 := Nat.mod_eq_of_lt (by omega)
  rw [loadScores, hword, if_neg (by omega), fetch_from (by omega) hpos, Nat.add_assoc]
  split <;> rfl

/-- How far the merges are read. -/
def mergesReach (v : View) (family : Family) (m : Hmap) (n pos : Nat) : Nat :=
  match family with
  | .gpt2 => finish 4 v.word n pos
  | .spm => lengthsEnd 4 v.word n pos
  | .gemma4 =>
      if n ≤ 0x7FFFFFFF ∧ ((Records.spans 4 v.word n pos).map v.text).dropLast.all (lineOk m) then
        finish 4 v.word n pos
      else lengthsEnd 4 v.word n pos

theorem le_mergesReach (v : View) (family : Family) (m : Hmap) (n pos : Nat) :
    lengthsEnd 4 v.word n pos ≤ v.mergesReach family m n pos := by
  cases family
  case gpt2 => exact lengthsEnd_le_finish
  case spm => exact Nat.le_refl _
  case gemma4 =>
    rw [mergesReach]
    split
    · exact lengthsEnd_le_finish
    · exact Nat.le_refl _

theorem g4Build_wrapped (h : v.Wrapped) (m : Hmap) {n pos : Nat}
    (hlengths : v.base + lengthsEnd 4 v.word (n + 1) pos ≤ v.file.length) :
    v.g4Build m (Records.spans 4 v.word (n + 1) pos) = .fault ↔
      v.file.length < v.base + v.mergesReach .gemma4 m (n + 1) pos := by
  have hsize := h.size
  have hends : finish 4 v.word (n + 1) pos =
      lengthsEnd 4 v.word (n + 1) pos + v.word (finish 4 v.word n pos) := finish_succ
  rw [g4Build, spans_length, mergesReach]
  rcases Nat.lt_or_ge 0x7FFFFFFF (n + 1) with hmany | hfew
  · rw [if_pos (Or.inr hmany), if_neg fun hle => absurd hle.1 (Nat.not_le.mpr hmany)]
    exact ⟨fun hfault => (nomatch hfault), fun hlt => absurd hlt (by omega)⟩
  · rw [if_neg (by omega), spans_succ, v.lines_snoc hsize m (v.spans_before hlengths),
      List.map_append, List.map_singleton, List.dropLast_concat]
    cases hbefore : ((Records.spans 4 v.word n pos).map v.text).all (lineOk m) with
    | false =>
        rw [if_neg Bool.false_ne_true, if_neg fun hall => Bool.false_ne_true hall.2]
        exact ⟨fun hfault => (nomatch hfault), fun hlt => absurd hlt (by omega)⟩
    | true =>
        rw [if_pos rfl, if_pos ⟨hfew, rfl⟩, fetch_from (by omega) hlengths, hends,
          ← Nat.add_assoc]
        split
        · rename_i hin
          rw [Outcome.value_bind]
          refine ⟨fun hfault => ?_, fun hlt => absurd hlt (Nat.not_lt.mpr hin)⟩
          split at hfault
          · rw [Outcome.value_bind] at hfault
            split at hfault <;> exact (nomatch hfault)
          · exact (nomatch hfault)
        · rename_i hout
          exact ⟨fun _ => Nat.lt_of_not_le hout, fun _ => rfl⟩

theorem loadMerges_wrapped (h : v.Wrapped) (family : Family) (m : Hmap) {n pos : Nat}
    (hpos : v.base + pos ≤ v.file.length) :
    v.loadMerges family m n pos = .fault ↔
      v.file.length < v.base + v.mergesReach family m n pos := by
  have hsize := h.size
  rw [loadMerges]
  cases n with
  | zero =>
      have hnone : v.mergesReach family m 0 pos = pos := by
        cases family
        case gpt2 => rfl
        case spm => rfl
        case gemma4 =>
          rw [mergesReach]
          split <;> rfl
      rw [if_neg (Nat.lt_irrefl 0), hnone]
      constructor
      · intro hfault
        split at hfault <;> exact (nomatch hfault)
      · intro hlt
        omega
  | succ n =>
      have hreach := v.le_mergesReach family m (n + 1) pos
      rw [if_pos (Nat.succ_pos n)]
      rcases Nat.lt_or_ge v.file.length (v.base + lengthsEnd 4 v.word (n + 1) pos) with hout | hin
      · have hrecords : v.records (n + 1) pos = .fault := by
          rw [records_wrapped h (by omega)]
          exact if_neg (by omega)
        rw [hrecords, Outcome.fault_bind]
        exact iff_of_true rfl (by omega)
      · have hrecords : v.records (n + 1) pos =
            .value (Records.spans 4 v.word (n + 1) pos, finish 4 v.word (n + 1) pos) := by
          rw [records_wrapped h (by omega), if_pos (Or.inr hin)]
        cases family
        case gpt2 =>
          have htexts := loadTokens_wrapped h (n := n + 1) hpos
          rw [loadTokens, hrecords, Outcome.value_bind] at htexts
          rw [hrecords, Outcome.value_bind, mergesReach]
          dsimp only at htexts ⊢
          cases hread : v.texts (Records.spans 4 v.word (n + 1) pos) with
          | value t =>
              rw [hread, Outcome.value_bind] at htexts
              split at htexts
              · exact ⟨fun hfault => (nomatch hfault), fun hlt => absurd hlt (by omega)⟩
              · exact (nomatch htexts)
          | rejected =>
              rw [hread, Outcome.rejected_bind] at htexts
              split at htexts <;> exact (nomatch htexts)
          | fault =>
              rw [hread, Outcome.fault_bind] at htexts
              split at htexts
              · exact (nomatch htexts)
              · exact ⟨fun _ => by omega, fun _ => rfl⟩
        case spm =>
          rw [hrecords, Outcome.value_bind]
          exact ⟨fun hfault => (nomatch hfault), fun hlt => absurd hlt (Nat.not_lt.mpr hin)⟩
        case gemma4 =>
          rw [hrecords, Outcome.value_bind]
          exact g4Build_wrapped h m hin

/-- Where the room wraps the sections are read outside of the file just when they reach there. -/
theorem loadSections_wrapped (h : v.Wrapped) (hbase : v.base + 16 ≤ v.file.length)
    (hdr : TokHeader) (family : Family) :
    v.loadSections hdr family v.nv v.nm = .fault ↔
      v.file.length < v.base + v.sectionsReach family := by
  have hend : v.tokensEnd = finish 4 v.word v.nv 16 := rfl
  have hreach : v.sectionsReach family =
      if family = .spm ∧ spmBytes (vocabMap v.tokens) = false then v.mergesStart .spm
      else v.mergesReach family (vocabMap v.tokens) v.nm (v.mergesStart family) := by
    cases family
    case gpt2 => rfl
    case spm =>
      rw [sectionsReach]
      cases spmBytes (vocabMap v.tokens) <;> rfl
    case gemma4 => rfl
  have hstart : v.tokensEnd ≤ v.mergesStart family := by
    rw [mergesStart]
    split <;> omega
  have hmerges := v.le_mergesReach family (vocabMap v.tokens) v.nm (v.mergesStart family)
  have hlengths : v.mergesStart family ≤ lengthsEnd 4 v.word v.nm (v.mergesStart family) :=
    le_lengthsEnd
  have htail : ∀ (scores : List UInt8), v.base + v.mergesStart family ≤ v.file.length →
      ((v.loadMerges family (vocabMap v.tokens) v.nm (v.mergesStart family) >>=
        finishLoad hdr family v.nv v.tokens scores) = .fault ↔
          v.file.length <
            v.base + v.mergesReach family (vocabMap v.tokens) v.nm (v.mergesStart family)) := by
    intro scores hin
    rw [Outcome.bind_eq_fault, loadMerges_wrapped h family _ hin]
    constructor
    · rintro (hlt | ⟨merges, -, hfault⟩)
      · exact hlt
      · exact absurd hfault (finishLoad_ne_fault _ _ _ _ _ _)
    · exact Or.inl
  rw [loadSections, loadTokens_wrapped h hbase, hreach, ← hend]
  rcases Nat.lt_or_ge v.file.length (v.base + v.tokensEnd) with hout | hin
  · rw [if_neg (by omega)]
    refine ⟨fun _ => ?_, fun _ => rfl⟩
    split
    · rename_i hspm
      rw [hspm.1] at hstart
      omega
    · omega
  · rw [if_pos hin, Outcome.value_bind]
    dsimp only
    split
    · rename_i hspm
      subst hspm
      have hscores : v.mergesStart .spm = v.tokensEnd + v.nv * 4 := rfl
      rw [loadScores_wrapped h _ (show v.nv < 2 ^ 32 from v.word_lt 8) hin, ← hscores]
      rcases Nat.lt_or_ge v.file.length (v.base + v.mergesStart .spm) with hout' | hin'
      · rw [if_neg (by omega), Outcome.fault_bind]
        refine iff_of_true rfl ?_
        split <;> omega
      · rw [if_pos hin']
        cases hbytes : spmBytes (vocabMap v.tokens) with
        | false =>
            have hnone :
                spmBytes (vocabMap ((Records.spans 4 v.word v.nv 16).map v.text)) = false := hbytes
            rw [hnone, if_neg Bool.false_ne_true, if_pos ⟨rfl, rfl⟩]
            exact ⟨fun hfault => (nomatch hfault), fun hlt => absurd hlt (Nat.not_lt.mpr hin')⟩
        | true =>
            have hall :
                spmBytes (vocabMap ((Records.spans 4 v.word v.nv 16).map v.text)) = true := hbytes
            rw [hall, if_pos rfl, if_neg fun hno => Bool.noConfusion hno.2]
            exact htail _ hin'
    · rename_i hspm
      have hsame : v.mergesStart family = v.tokensEnd := if_neg hspm
      rw [if_neg fun hno => hspm hno.1, ← htail [] (by omega), hsame]
      rfl

/-- The sections start behind the counts. -/
theorem le_sectionsReach (v : View) (family : Family) : 16 ≤ v.sectionsReach family := by
  have htokens : 16 ≤ v.tokensEnd := le_finish
  have hstart : v.tokensEnd ≤ v.mergesStart family := by
    rw [mergesStart]
    split <;> omega
  have hlengths : v.mergesStart family ≤ v.mergeLengthsEnd family := le_lengthsEnd
  have hend : v.mergeLengthsEnd family ≤ v.mergesEnd family := lengthsEnd_le_finish
  cases family with
  | gpt2 => exact htokens.trans (hstart.trans (hlengths.trans hend))
  | spm =>
      rw [sectionsReach]
      split <;> omega
  | gemma4 =>
      rw [sectionsReach]
      split <;> omega

theorem le_reach (v : View) (vocabSize : Nat) : 4 ≤ v.reach vocabSize ∧
    (v.word 0 = sptbMagic → 16 ≤ v.reach vocabSize) := by
  rw [reach]
  split
  · rename_i hmagic
    exact ⟨Nat.le_refl 4, fun heq => absurd heq hmagic⟩
  · have hcounts : 16 ≤ (match familyOf v.typeId with
        | none => 16
        | some family => if v.nv = 0 ∨ v.nv ≠ vocabSize then 16 else v.sectionsReach family) := by
      split
      · exact Nat.le_refl 16
      · split
        · exact Nat.le_refl 16
        · exact v.le_sectionsReach _
    exact ⟨Nat.le_trans (by omega) hcounts, fun _ => hcounts⟩

/-- The counts are read one after another. -/
theorem loadBlob_head_fault (h : v.Wrapped) (hdr : TokHeader)
    (hfirst : v.base + 4 ≤ v.file.length) (hmagic : v.word 0 = sptbMagic)
    (hout : v.file.length < v.base + 16) : v.loadBlob hdr = .fault := by
  have hsize := h.size
  rw [loadBlob, u32_wrapped h (by omega), if_pos (by omega), Outcome.value_bind]
  dsimp only
  rw [if_neg (not_not.mpr hmagic), u32_wrapped h (by omega)]
  split
  · rename_i htype
    rw [Outcome.value_bind]
    dsimp only
    rw [u32_wrapped h (by omega)]
    split
    · rename_i hvocab
      rw [Outcome.value_bind]
      dsimp only
      rw [u32_wrapped h (by omega), if_neg (by omega)]
      rfl
    · rfl
  · rfl

theorem loadBlob_wrapped (h : v.Wrapped) (hbs : 16 ≤ v.bs) (hdr : TokHeader) :
    v.loadBlob hdr = .fault ↔ v.file.length < v.base + v.reach hdr.vocabSize := by
  have hsize := h.size
  obtain ⟨hfour, hcounts⟩ := v.le_reach hdr.vocabSize
  rcases Nat.lt_or_ge v.file.length (v.base + 4) with hout | hfirst
  · have hfault : v.u32 0 = .fault := by
      rw [u32, if_neg (by omega), Nat.add_zero, fetch_outside h.word (by omega) hout]
      rfl
    rw [loadBlob, hfault, Outcome.fault_bind]
    exact iff_of_true rfl (by omega)
  · rcases Nat.lt_or_ge v.file.length (v.base + 16) with hout | hin
    · rcases eq_or_ne (v.word 0) sptbMagic with hmagic | hmagic
      · have hreach := hcounts hmagic
        exact iff_of_true (loadBlob_head_fault h hdr hfirst hmagic hout) (by omega)
      · rw [reach, if_pos hmagic, loadBlob, u32_wrapped h (by omega), if_pos (by omega),
          Outcome.value_bind]
        dsimp only
        rw [if_pos hmagic]
        exact ⟨fun hfault => (nomatch hfault), fun hlt => absurd hlt (by omega)⟩
    · have hhead : ∀ pos, pos + 4 ≤ 16 → v.u32 pos = .value (v.word pos, pos + 4) := by
        intro pos hpos
        rw [u32_wrapped h (by omega), if_pos (by omega)]
      rw [loadBlob_of_head hhead, afterHead, reach]
      split
      · exact ⟨fun hfault => (nomatch hfault), fun hlt => absurd hlt (by omega)⟩
      · split
        · exact ⟨fun hfault => (nomatch hfault), fun hlt => absurd hlt (by omega)⟩
        · split
          · exact ⟨fun hfault => (nomatch hfault), fun hlt => absurd hlt (by omega)⟩
          · exact loadSections_wrapped h hin hdr _

end View

/-! The file -/

/-- The header of a file that is long enough for one. -/
def fileHeader (file : List UInt8) : TokHeader := tokHeader (slice file 0 tokHeaderSize)

/-- The blob of a file, where its header says. -/
def fileView (file : List UInt8) : View :=
  ⟨file, (fileHeader file).blobOffset, (fileHeader file).blobSize⟩

/-- The file passes the checks before the blob. -/
def HeaderAccepted (file : List UInt8) : Prop :=
  ¬ ftell file < tokHeaderSize + 16 ∧ headerOk (fileHeader file) file.length = true

theorem length_of_ftell {file : List UInt8} (h : ¬ ftell file < tokHeaderSize + 16) :
    144 ≤ file.length ∧ file.length < 2 ^ 63 := by
  have hsize : (tokHeaderSize : Int) + 16 = 144 := rfl
  rw [hsize, ftell] at h
  split at h
  · exact ⟨by omega, by assumption⟩
  · omega

theorem load_eq {file : List UInt8} (h : HeaderAccepted file) :
    spTokenizerLoadTokfile file = (fileView file).loadBlob (fileHeader file) := by
  obtain ⟨hshort, hok⟩ := h
  obtain ⟨hlen, -⟩ := length_of_ftell hshort
  have hhead : fetch file 0 tokHeaderSize = .value (slice file 0 tokHeaderSize) := by
    apply fetch_inside
    · omega
    · exact Nat.le_trans (by decide) hlen
  rw [spTokenizerLoadTokfile, if_neg hshort, hhead, Outcome.value_bind]
  exact if_pos hok

theorem load_rejected {file : List UInt8} (h : ¬ HeaderAccepted file) :
    spTokenizerLoadTokfile file = .rejected := by
  rw [spTokenizerLoadTokfile]
  split
  · rfl
  · rename_i hshort
    obtain ⟨hlen, -⟩ := length_of_ftell hshort
    have hhead : fetch file 0 tokHeaderSize = .value (slice file 0 tokHeaderSize) := by
      apply fetch_inside
      · omega
      · exact Nat.le_trans (by decide) hlen
    rw [hhead, Outcome.value_bind]
    exact if_neg fun hok => h ⟨hshort, hok⟩

theorem HeaderAccepted.facts {file : List UInt8} (h : HeaderAccepted file) :
    (fileView file).file.length < 2 ^ 63 ∧ 16 ≤ (fileView file).bs ∧
      ((fileView file).base + (fileView file).bs) % 2 ^ 64 ≤ (fileView file).file.length := by
  obtain ⟨hshort, hok⟩ := h
  simp only [headerOk, Bool.and_eq_true, decide_eq_true_eq] at hok
  exact ⟨(length_of_ftell hshort).2, hok.2, hok.1.2⟩

theorem fileView_base_lt (file : List UInt8) : (fileView file).base < 2 ^ 64 := by
  have hlt : (fileView file).base < 256 ^ 8 := number_lt
  exact hlt.trans_eq (by norm_num)

namespace View

/-- A blob whose header is accepted. -/
theorem loadBlob_ne_fault_iff {v : View} (hsize : v.file.length < 2 ^ 63) (hbs : 16 ≤ v.bs)
    (hword : v.base < 2 ^ 64) (hroom : (v.base + v.bs) % 2 ^ 64 ≤ v.file.length)
    (hdr : TokHeader) :
    v.loadBlob hdr ≠ .fault ↔
      v.base + v.bs < 2 ^ 64 ∨ v.base + v.reach hdr.vocabSize ≤ v.file.length := by
  rcases Nat.lt_or_ge (v.base + v.bs) (2 ^ 64) with hfits | hwraps
  · rw [Nat.mod_eq_of_lt hfits] at hroom
    exact iff_of_true (loadBlob_bounded ⟨hsize, hroom⟩ hbs hdr) (Or.inl hfits)
  · rw [or_iff_right (Nat.not_lt.mpr hwraps), Ne, loadBlob_wrapped ⟨hsize, hword, hwraps⟩ hbs,
      Nat.not_lt]

end View

/-- A header whose blob starts 16 bytes before the end of the address space and is 16 bytes
long. -/
def wrappingFile : List UInt8 :=
  [0x53, 0x50, 0x54, 0x4B, 0, 0, 0, 0, 128, 0, 0, 0] ++ List.replicate 24 0 ++
    [0xF0, 0xFF, 0xFF, 0xFF, 0xFF, 0xFF, 0xFF, 0xFF, 16, 0, 0, 0, 0, 0, 0, 0] ++
    List.replicate 92 0

end ShannonPrime.Tokenizer
