import ShannonPrime.Lib.Utf8
import ShannonPrime.Tokenizer.Transcoded

/-!
The daemon's own parser of the blob (`tokenizer.rs`), next to the engine's loader. Its strings
are UTF-8, and a merge without a space is an error to it.
-/

namespace ShannonPrime.Tokenizer

open Fetch
open Records

/-- A string is kept as its bytes. -/
structure SptbData where
  typeId : Nat
  vocab : List (List UInt8)
  merges : List (List UInt8 × List UInt8)
  deriving DecidableEq

/-- `SPTB: …` -/
inductive SptbError
  | truncatedMagic
  | badMagic (magic : Nat)
  | truncatedTypeId
  | truncatedVocabSize
  | truncatedNMerges
  | truncatedVocab (i : Nat)
  | truncatedScores
  | truncatedMerge (i : Nat)
  | noSeparator (i : Nat)
  deriving DecidableEq, Repr

def readU32 (buf : List UInt8) (pos : Nat) : Option (Nat × Nat) :=
  if pos + 4 ≤ buf.length then some (number buf pos 4, pos + 4) else none

/-- `from_utf8` accepts the bytes. -/
def isUtf8 (bytes : List UInt8) : Bool := (Utf8.fromUtf8 bytes).isSome

def readStr (buf : List UInt8) (pos : Nat) : Option (List UInt8 × Nat) := do
  let (len, pos) ← readU32 buf pos
  if pos + len ≤ buf.length ∧ isUtf8 (slice buf pos len) then some (slice buf pos len, pos + len)
  else none

/-- The first error, or what there is. -/
def orError {α : Type} (x : Option α) (e : SptbError) : Except SptbError α :=
  match x with
  | some a => .ok a
  | none => .error e

/-- Token `i` and the `n - 1` behind it. -/
def readVocab (buf : List UInt8) : Nat → Nat → Nat → Except SptbError (List (List UInt8) × Nat)
  | 0, _, pos => .ok ([], pos)
  | n + 1, i, pos => do
      let (s, pos) ← orError (readStr buf pos) (.truncatedVocab i)
      let (rest, pos) ← readVocab buf n (i + 1) pos
      .ok (s :: rest, pos)

/-- The two sides, split at the first space. -/
def splitMerge (s : List UInt8) : Option (List UInt8 × List UInt8) :=
  (s.findIdx? fun b => b == 0x20).map fun sep => (s.take sep, s.drop (sep + 1))

/-- Merge `i` and the `n - 1` behind it. -/
def readMerges (buf : List UInt8) :
    Nat → Nat → Nat → Except SptbError (List (List UInt8 × List UInt8) × Nat)
  | 0, _, pos => .ok ([], pos)
  | n + 1, i, pos => do
      let (s, pos) ← orError (readStr buf pos) (.truncatedMerge i)
      let pair ← orError (splitMerge s) (.noSeparator i)
      let (rest, pos) ← readMerges buf n (i + 1) pos
      .ok (pair :: rest, pos)

/-- The scores behind an SPM vocabulary are skipped. -/
def skipScores (blob : List UInt8) (typeId vocabSize pos : Nat) : Except SptbError Nat :=
  if typeId = 0 then
    if pos + vocabSize * 4 > blob.length then .error .truncatedScores
    else .ok (pos + vocabSize * 4)
  else .ok pos

/-- `parse_sptb` -/
def parseSptb (blob : List UInt8) : Except SptbError SptbData := do
  let (magic, pos) ← orError (readU32 blob 0) .truncatedMagic
  if magic ≠ sptbMagic then .error (.badMagic magic)
  else do
    let (typeId, pos) ← orError (readU32 blob pos) .truncatedTypeId
    let (vocabSize, pos) ← orError (readU32 blob pos) .truncatedVocabSize
    let (nMerges, pos) ← orError (readU32 blob pos) .truncatedNMerges
    let (vocab, pos) ← readVocab blob vocabSize 0 pos
    let pos ← skipScores blob typeId vocabSize pos
    let (merges, _) ← readMerges blob nMerges 0 pos
    .ok { typeId, vocab, merges }

/-! What the parser accepts -/

theorem except_bind_ok {ε α β : Type} {x : Except ε α} {f : α → Except ε β} {b : β} :
    (x >>= f) = .ok b ↔ ∃ a, x = .ok a ∧ f a = .ok b := by
  cases x with
  | error e => exact ⟨fun h => (nomatch h), fun ⟨_, h, _⟩ => (nomatch h)⟩
  | ok a =>
      constructor
      · intro h
        exact ⟨a, rfl, h⟩
      · rintro ⟨_, ⟨⟩, h⟩
        exact h

@[simp] theorem ok_bind {ε α β : Type} (a : α) (f : α → Except ε β) : (.ok a >>= f) = f a := rfl

theorem orError_ok {α : Type} {x : Option α} {e : SptbError} {a : α} :
    orError x e = .ok a ↔ x = some a := by
  cases x with
  | none => exact ⟨fun h => (nomatch h), fun h => (nomatch h)⟩
  | some a' =>
      constructor
      · rintro ⟨⟩
        rfl
      · rintro ⟨⟩
        rfl

section

variable {buf : List UInt8} {n i pos : Nat}

/-- The texts of the records that start at a position. -/
def recordTexts (buf : List UInt8) (n pos : Nat) : List (List UInt8) :=
  (Records.spans 4 (fun p => number buf p 4) n pos).map fun s => slice buf s.1 s.2

def recordsEnd (buf : List UInt8) (n pos : Nat) : Nat := finish 4 (fun p => number buf p 4) n pos

theorem recordTexts_succ : recordTexts buf (n + 1) pos =
    slice buf (pos + 4) (number buf pos 4) ::
      recordTexts buf n (pos + 4 + number buf pos 4) := rfl

theorem recordsEnd_succ : recordsEnd buf (n + 1) pos =
    recordsEnd buf n (pos + 4 + number buf pos 4) := rfl

/-- A string is read where its record lies in the buffer and is UTF-8. -/
theorem readStr_eq_some {r : List UInt8 × Nat} : readStr buf pos = some r ↔
    pos + 4 + number buf pos 4 ≤ buf.length ∧
      isUtf8 (slice buf (pos + 4) (number buf pos 4)) = true ∧
        r = (slice buf (pos + 4) (number buf pos 4), pos + 4 + number buf pos 4) := by
  rw [readStr, readU32]
  rcases Nat.lt_or_ge buf.length (pos + 4) with hshort | hin
  · rw [if_neg (by omega)]
    exact ⟨fun h => (nomatch h), fun h => absurd h.1 (by omega)⟩
  · rw [if_pos hin]
    simp only [Option.bind_eq_bind, Option.bind_some]
    split
    · rename_i hboth
      rw [Option.some_inj]
      exact ⟨fun h => ⟨hboth.1, hboth.2, h.symm⟩, fun h => h.2.2.symm⟩
    · rename_i hnot
      exact ⟨fun h => (nomatch h), fun h => absurd ⟨h.1, h.2.1⟩ hnot⟩

theorem readVocab_ok {r : List (List UInt8) × Nat} : readVocab buf n i pos = .ok r ↔
    (n = 0 ∨ recordsEnd buf n pos ≤ buf.length) ∧
      (∀ t ∈ recordTexts buf n pos, isUtf8 t = true) ∧
        r = (recordTexts buf n pos, recordsEnd buf n pos) := by
  induction n generalizing i pos r with
  | zero =>
      constructor
      · rintro ⟨⟩
        exact ⟨Or.inl rfl, List.forall_mem_nil _, rfl⟩
      · rintro ⟨-, -, rfl⟩
        rfl
  | succ n ih =>
      have hend : pos + 4 + number buf pos 4 ≤ recordsEnd buf n (pos + 4 + number buf pos 4) :=
        le_finish
      rw [readVocab, except_bind_ok, recordTexts_succ, recordsEnd_succ, List.forall_mem_cons]
      constructor
      · rintro ⟨⟨s, pos'⟩, hs, hrest⟩
        obtain ⟨hroom, hutf, hval⟩ := readStr_eq_some.mp (orError_ok.mp hs)
        cases hval
        obtain ⟨⟨rest, last⟩, hread, hr⟩ := except_bind_ok.mp hrest
        obtain ⟨hroom', hutf', hval⟩ := ih.mp hread
        cases hval
        cases hr
        refine ⟨Or.inr ?_, ⟨hutf, hutf'⟩, rfl⟩
        rcases hroom' with rfl | hle
        · exact hroom
        · exact hle
      · rintro ⟨hroom, ⟨hutf, hutf'⟩, rfl⟩
        have hle := hroom.resolve_left (Nat.succ_ne_zero n)
        exact ⟨_, orError_ok.mpr (readStr_eq_some.mpr ⟨hend.trans hle, hutf, rfl⟩),
          except_bind_ok.mpr ⟨_, ih.mpr ⟨Or.inr hle, hutf', rfl⟩, rfl⟩⟩

/-- The merges are read where each is UTF-8 and has a space. -/
theorem readMerges_ok {r : List (List UInt8 × List UInt8) × Nat} :
    readMerges buf n i pos = .ok r ↔
      (n = 0 ∨ recordsEnd buf n pos ≤ buf.length) ∧
        (∀ t ∈ recordTexts buf n pos, isUtf8 t = true) ∧
          (recordTexts buf n pos).mapM splitMerge = some r.1 ∧ r.2 = recordsEnd buf n pos := by
  induction n generalizing i pos r with
  | zero =>
      constructor
      · rintro ⟨⟩
        exact ⟨Or.inl rfl, List.forall_mem_nil _, rfl, rfl⟩
      · rintro ⟨-, -, hpairs, hend⟩
        obtain ⟨pairs, last⟩ := r
        cases hpairs
        cases hend
        rfl
  | succ n ih =>
      have hend : pos + 4 + number buf pos 4 ≤ recordsEnd buf n (pos + 4 + number buf pos 4) :=
        le_finish
      rw [readMerges, except_bind_ok, recordTexts_succ, recordsEnd_succ, List.forall_mem_cons,
        List.mapM_cons]
      constructor
      · rintro ⟨⟨s, pos'⟩, hs, hrest⟩
        obtain ⟨hroom, hutf, hval⟩ := readStr_eq_some.mp (orError_ok.mp hs)
        cases hval
        obtain ⟨pair, hpair, hrest⟩ := except_bind_ok.mp hrest
        obtain ⟨⟨rest, last⟩, hread, hr⟩ := except_bind_ok.mp hrest
        obtain ⟨hroom', hutf', hpairs, hlast⟩ := ih.mp hread
        cases hr
        refine ⟨Or.inr ?_, ⟨hutf, hutf'⟩, ?_, hlast⟩
        · rcases hroom' with rfl | hle
          · exact hroom
          · exact hle
        · rw [orError_ok.mp hpair, hpairs]
          rfl
      · rintro ⟨hroom, ⟨hutf, hutf'⟩, hall, hlast⟩
        have hle := hroom.resolve_left (Nat.succ_ne_zero n)
        obtain ⟨pair, hpair, hall⟩ := Option.bind_eq_some_iff.mp hall
        obtain ⟨pairs, hpairs, hr⟩ := Option.bind_eq_some_iff.mp hall
        refine ⟨_, orError_ok.mpr (readStr_eq_some.mpr ⟨hend.trans hle, hutf, rfl⟩),
          except_bind_ok.mpr ⟨pair, orError_ok.mpr hpair,
            except_bind_ok.mpr ⟨(pairs, r.2), ih.mpr ⟨Or.inr hle, hutf', hpairs, hlast⟩, ?_⟩⟩⟩
        obtain ⟨all, last⟩ := r
        cases hr
        rfl

/-- A blob of the Gemma 4 family with room for its records: every text has to be UTF-8 and every
merge to have a space. -/
theorem parseSptb_gemma4 {d : SptbData} (hmagic : number buf 0 4 = sptbMagic)
    (htype : number buf 4 4 = 4)
    (hroom : recordsEnd buf (number buf 12 4) (recordsEnd buf (number buf 8 4) 16) ≤ buf.length) :
    parseSptb buf = .ok d ↔
      (∀ t ∈ recordTexts buf (number buf 8 4) 16, isUtf8 t = true) ∧
      (∀ t ∈ recordTexts buf (number buf 12 4) (recordsEnd buf (number buf 8 4) 16),
        isUtf8 t = true) ∧
      (recordTexts buf (number buf 12 4) (recordsEnd buf (number buf 8 4) 16)).mapM splitMerge =
        some d.merges ∧
      d.typeId = 4 ∧ d.vocab = recordTexts buf (number buf 8 4) 16 := by
  have hmerges : recordsEnd buf (number buf 8 4) 16 ≤
      recordsEnd buf (number buf 12 4) (recordsEnd buf (number buf 8 4) 16) := le_finish
  have htokens : 16 ≤ recordsEnd buf (number buf 8 4) 16 := le_finish
  have hword : ∀ pos, pos + 4 ≤ 16 → ∀ e : SptbError,
      orError (readU32 buf pos) e = .ok (number buf pos 4, pos + 4) := by
    intro pos hpos e
    rw [readU32, if_pos (by omega)]
    rfl
  have hparse : parseSptb buf =
      (readVocab buf (number buf 8 4) 0 16 >>= fun r =>
        readMerges buf (number buf 12 4) 0 r.2 >>= fun q =>
          .ok { typeId := 4, vocab := r.1, merges := q.1 }) := by
    rw [parseSptb, hword 0 (by omega), ok_bind, hmagic]
    simp only [ne_eq, not_true_eq_false, if_false, Nat.zero_add, hword 4 (by omega),
      hword 8 (by omega), hword 12 (by omega), ok_bind, htype]
    rfl
  rw [hparse, except_bind_ok]
  constructor
  · rintro ⟨r, hvocab, hrest⟩
    obtain ⟨-, hutf, rfl⟩ := readVocab_ok.mp hvocab
    obtain ⟨q, hread, hd⟩ := except_bind_ok.mp hrest
    obtain ⟨-, hutf', hpairs, -⟩ := readMerges_ok.mp hread
    cases hd
    exact ⟨hutf, hutf', hpairs, rfl, rfl⟩
  · rintro ⟨hutf, hutf', hpairs, htypeId, hvocab⟩
    refine ⟨_, readVocab_ok.mpr ⟨Or.inr (hmerges.trans hroom), hutf, rfl⟩,
      except_bind_ok.mpr ⟨(d.merges, _), readMerges_ok.mpr ⟨Or.inr hroom, hutf', hpairs, rfl⟩, ?_⟩⟩
    obtain ⟨typeId, vocab, merges⟩ := d
    cases htypeId
    cases hvocab
    rfl

end

end ShannonPrime.Tokenizer
