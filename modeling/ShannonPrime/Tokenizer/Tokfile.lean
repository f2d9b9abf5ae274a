import ShannonPrime.Lib.Fetch
import ShannonPrime.Lib.Records
import ShannonPrime.Tokenizer.Gemma4Build

/-!
The loader of tokenizer files (`tokenizer.c`): the header, the blob behind it with its tokens,
scores and merges, and where the loader reads. The records of the blob lie where their lengths
say; the loader's own account of the room left is in 64-bit words.
-/

namespace ShannonPrime.Tokenizer

open Fetch
open Records

/-- What the loader reads of `sp_tok_header`. -/
structure TokHeader where
  magic : Nat
  headerSize : Nat
  vocabSize : Nat
  bosToken : Nat
  eosToken : Nat
  padToken : Nat
  unkToken : Nat
  blobOffset : Nat
  blobSize : Nat

def tokHeader (buf : List UInt8) : TokHeader where
  magic := number buf 0 4
  headerSize := number buf 8 4
  vocabSize := number buf 16 4
  bosToken := number buf 20 4
  eosToken := number buf 24 4
  padToken := number buf 28 4
  unkToken := number buf 32 4
  blobOffset := number buf 36 8
  blobSize := number buf 44 8

/-- `sp_tok_family` -/
inductive Family
  | gpt2
  | spm
  | gemma4
  deriving DecidableEq, Repr

/-- The family of a `type_id`, if it has one. -/
def familyOf (typeId : Nat) : Option Family :=
  if typeId = 0 then some .spm
  else if typeId = 2 then some .gpt2
  else if typeId = 4 then some .gemma4
  else none

/-- What a file is loaded to. -/
structure TokFile where
  family : Family
  tok : List (List UInt8)
  scores : List UInt8
  merges : List (List UInt8)
  bosId : Int
  eosId : Int
  padId : Int
  unkId : Int
  addBos : Bool
  deriving DecidableEq

/-- The file, where its blob starts, and what the header says its size is. -/
structure View where
  file : List UInt8
  base : Nat
  bs : Nat

/-- The number of 32 bits at a position of the blob. -/
def View.word (v : View) (p : Nat) : Nat := number v.file (v.base + p) 4

namespace View

/-- `tf_u32` -/
def u32 (v : View) (pos : Nat) : Outcome (Nat × Nat) :=
  if (pos + 4) % 2 ^ 64 > v.bs then .rejected
  else do
    let bytes ← fetch v.file (v.base + pos) 4
    .value (number bytes 0 4, (pos + 4) % 2 ^ 64)

/-- The loop over `n` records: where each lies, and where the next section starts. -/
def records (v : View) : Nat → Nat → Outcome (List (Nat × Nat) × Nat)
  | 0, pos => .value ([], pos)
  | n + 1, pos => do
      let (L, pos) ← v.u32 pos
      if (pos + L) % 2 ^ 64 > v.bs then .rejected
      else do
        let (rest, next) ← v.records n ((pos + L) % 2 ^ 64)
        .value ((pos, L) :: rest, next)

/-- The bytes of records, one after another. -/
def texts (v : View) : List (Nat × Nat) → Outcome (List (List UInt8))
  | [] => .value []
  | s :: rest => do
      let text ← fetch v.file (v.base + s.1) s.2
      let texts ← v.texts rest
      .value (text :: texts)

/-- The tokens, and the position behind them. -/
def loadTokens (v : View) (nv pos : Nat) : Outcome (List (List UInt8) × Nat) := do
  let (spans, pos) ← v.records nv pos
  let tok ← v.texts spans
  .value (tok, pos)

/-- Every byte has a token, by an id that an `int32_t` holds as it is. -/
def spmBytes (m : Hmap) : Bool :=
  (List.range 256).all fun b =>
    match hmapGet m (byteName b) with
    | some id => id % 2 ^ 32 < 2 ^ 31
    | none => false

/-- The scores of an SPM vocabulary, behind which its byte tokens are looked up. -/
def loadScores (v : View) (m : Hmap) (nv pos : Nat) : Outcome (List UInt8 × Nat) :=
  if (pos + nv * 4) % 2 ^ 64 > v.bs then .rejected
  else do
    let scores ← fetch v.file (v.base + pos) (nv * 4)
    if spmBytes m then .value (scores, (pos + nv * 4) % 2 ^ 64) else .rejected

/-- A merge of `sp_g4_build`: inert, or with both sides and the result in the vocabulary. -/
def lineOk (m : Hmap) (line : List UInt8) : Bool :=
  match g4Split line with
  | none => true
  | some (left, right) =>
      (hmapGet m left).isSome && (hmapGet m right).isSome && (hmapGet m (left ++ right)).isSome

def lines (v : View) (m : Hmap) : List (Nat × Nat) → Outcome (List (List UInt8))
  | [] => .value []
  | s :: rest => do
      let line ← fetch v.file (v.base + s.1) s.2
      if lineOk m line then do
        let lines ← v.lines m rest
        .value (line :: lines)
      else .rejected

/-- `sp_g4_build`, as far as it decides whether the file is accepted. -/
def g4Build (v : View) (m : Hmap) (spans : List (Nat × Nat)) : Outcome (List (List UInt8)) :=
  if spans.length = 0 ∨ spans.length > 0x7FFFFFFF then .rejected
  else do
    let lines ← v.lines m spans
    if (List.range 256).all fun b => (hmapGet m (byteName b)).isSome then .value lines
    else .rejected

def loadMerges (v : View) (family : Family) (m : Hmap) (nm pos : Nat) :
    Outcome (List (List UInt8)) :=
  if nm > 0 then do
    let (spans, _) ← v.records nm pos
    match family with
    | .gemma4 => v.g4Build m spans
    | .gpt2 => v.texts spans
    | .spm => .value []
  else if family = .gemma4 then .rejected
  else .value []

end View

/-- A special id of the header, as an `int32_t`; the largest word stands for none. -/
def specialId (x : Nat) : Int := if x = 0xFFFFFFFF then -1 else (x : Int).bmod (2 ^ 32)

/-- The specials, and the last check. -/
def finishLoad (hdr : TokHeader) (family : Family) (nv : Nat) (tok : List (List UInt8))
    (scores : List UInt8) (merges : List (List UInt8)) : Outcome TokFile :=
  let bos := specialId hdr.bosToken
  if family = .gemma4 ∧ (bos < 0 ∨ bos ≥ nv) then .rejected
  else
    .value
      { family, tok, scores, merges
        bosId := bos
        eosId := specialId hdr.eosToken
        padId := specialId hdr.padToken
        unkId := specialId hdr.unkToken
        addBos := family == .gemma4 }

/-- The sections of the blob, the family being known. -/
def View.loadSections (v : View) (hdr : TokHeader) (family : Family) (nv nm : Nat) :
    Outcome TokFile := do
  let (tok, pos) ← v.loadTokens nv 16
  let m := vocabMap tok
  let (scores, pos) ← if family = .spm then v.loadScores m nv pos else .value ([], pos)
  let merges ← v.loadMerges family m nm pos
  finishLoad hdr family nv tok scores merges

/-- `'SPTB'` -/
def sptbMagic : Nat := 0x42545053

def View.loadBlob (v : View) (hdr : TokHeader) : Outcome TokFile := do
  let (magic, pos) ← v.u32 0
  if magic ≠ sptbMagic then .rejected
  else do
    let (typeId, pos) ← v.u32 pos
    let (nv, pos) ← v.u32 pos
    let (nm, _) ← v.u32 pos
    match familyOf typeId with
    | none => .rejected
    | some family =>
        if nv = 0 ∨ nv ≠ hdr.vocabSize then .rejected
        else v.loadSections hdr family nv nm

/-- The size of a file as a `long`, which is -1 where it does not fit. -/
def ftell (file : List UInt8) : Int := if file.length < 2 ^ 63 then file.length else -1

/-- `SP_TOK_MAGIC` -/
def tokMagic : Nat := 0x4B545053

/-- `SP_TOK_HEADER_SIZE` -/
def tokHeaderSize : Nat := 128

/-- The check of the header; the sum is one of 64-bit words. -/
def headerOk (hdr : TokHeader) (fsz : Nat) : Bool :=
  hdr.magic == tokMagic && hdr.headerSize == tokHeaderSize &&
    (hdr.blobOffset + hdr.blobSize) % 2 ^ 64 ≤ fsz && hdr.blobSize ≥ 16

/-- `sp_tokenizer_load_tokfile` -/
def spTokenizerLoadTokfile (file : List UInt8) : Outcome TokFile :=
  if ftell file < tokHeaderSize + 16 then .rejected
  else do
    let buf ← fetch file 0 tokHeaderSize
    let hdr := tokHeader buf
    if headerOk hdr file.length then
      View.loadBlob ⟨file, hdr.blobOffset, hdr.blobSize⟩ hdr
    else .rejected

end ShannonPrime.Tokenizer
