import ShannonPrime.Daemon.Sampler
import ShannonPrime.Tokenizer.Gemma4RoundTrip
import ShannonPrime.Tokenizer.Sptb

/-!
The daemon's tokenizer (`tokenizer.rs`): the tokens of the blob as bytes, the ids that end a turn,
those that the sampler never emits, and the encoder, which for Gemma 4 is the engine's own.
-/

namespace ShannonPrime.Daemon

open Tokenizer PairMerge Utf8

/-! ## The engine's encoder -/

/-- What the fresh arrays of a call hold. -/
structure Scratch where
  junk : Nat → Node G4Sym
  garbage : Nat → G4Bigram

/-- A Gemma 4 tokenizer as the loader builds it: the beginning of the text is forced. -/
structure CTokenizer where
  vocab : Vocab
  merges : List (List UInt8)
  tables : Gemma4
  special : SpecialIds
  built : spG4Build vocab merges = .ok tables
  forced : special.addBos = true
  bos_nonneg : 0 ≤ special.bos

namespace CTokenizer

variable (c : CTokenizer)

/-- `sp_tokenizer_encode`, of a blob, which has no special tokens to cut the text at. -/
def call (mem : Scratch) (text : List UInt8) (cap : Nat) : Out :=
  spG4Encode c.tables c.special [] mem.junk mem.garbage text true cap fun _ => 0

/-- The strings that the plain procedure merges a text to. -/
def parts (s : List UInt8) : List (List UInt8) :=
  naive (mergeRank c.merges) (fun a b _ => a ++ b) (g4Chars s).length (g4Chars s)

/-- The ids of a run of newlines or of other bytes. -/
def runIds (piece : Bool × List UInt8) : List Int :=
  if piece.1 && (c.vocab.lookup piece.2).isSome then g4Ids c.tables piece.2
  else (c.parts piece.2).flatMap (g4Ids c.tables)

/-- The ids of a text, without the beginning. -/
def textIds (s : List UInt8) : List Int :=
  (g4Pieces (escape s).length (escape s)).flatMap c.runIds

theorem tables_vocab : c.tables.vocab = c.vocab := (spG4Build_holds c.built).1

theorem parts_merged (s : List UInt8) :
    Merged (mergeRank c.merges) (fun a b _ => a ++ b) (g4Chars s) (c.parts s) :=
  naive_merged (Nat.le_refl _)

end CTokenizer

/-- A text is not cut where there are no special tokens. -/
theorem encodeSpecials_nil {m : Type → Type} [Monad m] (fragment : List UInt8 → Out → m Out)
    (parseSpecial : Bool) (maxOut : Nat) (s : List UInt8) (fuel tstart i : Nat) (o : Out) :
    encodeSpecials fragment parseSpecial [] maxOut s fuel tstart i o =
      encodeSpecials fragment false [] maxOut s fuel tstart i o := by
  induction fuel generalizing tstart i o with
  | zero => rfl
  | succ fuel ih =>
      have hnone : (if parseSpecial then ([] : List Special).find? (Special.hits s i) else none) =
          none := by
        cases parseSpecial <;> rfl
      rw [encodeSpecials, encodeSpecials, hnone, ih, if_neg Bool.false_ne_true]

namespace CTokenizer

variable (c : CTokenizer) (mem : Scratch) (text : List UInt8)

/-- A call emits the beginning and the ids of the text, as far as there is room. -/
theorem call_eq (cap : Nat) : c.call mem text cap =
    (c.special.bos :: c.textIds text).foldl (emit cap) ⟨fun _ => 0, 0⟩ := by
  have hbos : bosIds c.special = [c.special.bos] := by
    rw [bosIds, c.forced, Bool.true_and, if_pos (decide_eq_true c.bos_nonneg)]
  have hruns : g4PieceIds c.tables mem.junk mem.garbage = c.runIds := by
    funext piece
    rw [g4PieceIds, runIds, c.tables_vocab, g4Parts_eq c.built]
    rfl
  have hplain : spG4Encode c.tables c.special [] mem.junk mem.garbage text false cap (fun _ => 0) =
      (bosIds c.special ++ (g4Pieces (escape text).length (escape text)).flatMap
        (g4PieceIds c.tables mem.junk mem.garbage)).foldl (emit cap) ⟨fun _ => 0, 0⟩ :=
    spG4Encode_ids c.built [] text cap _
  rw [hbos, hruns] at hplain
  rw [call, spG4Encode, encodeSpecials_nil, ← spG4Encode, hplain]
  rfl

theorem call_cnt (cap : Nat) : (c.call mem text cap).cnt = (c.textIds text).length + 1 := by
  rw [call_eq, cnt_foldl_emit, List.length_cons, Nat.zero_add]

/-- `encode`: a call that counts more than there is room for is made again, with room for that. -/
def encodeLoop (cap : Nat) : List Int :=
  let o := c.call mem text cap
  if o.cnt ≤ cap then o.ids else encodeLoop o.cnt
termination_by if (c.call mem text cap).cnt ≤ cap then 0 else 1
decreasing_by
  rename_i hfull
  have hfull : ¬(c.call mem text cap).cnt ≤ cap := hfull
  rw [if_neg hfull, if_pos]
  · exact Nat.one_pos
  · exact Nat.le_of_eq ((c.call_cnt mem text _).trans (c.call_cnt mem text cap).symm)

def encode : List Int := c.encodeLoop mem text (text.length + 16)

theorem encodeLoop_eq (cap : Nat) :
    c.encodeLoop mem text cap = c.special.bos :: c.textIds text := by
  have hfits : ∀ cap, (c.call mem text cap).cnt ≤ cap →
      (c.call mem text cap).ids = c.special.bos :: c.textIds text := by
    intro cap hle
    rw [call_cnt] at hle
    rw [call_eq, Out.ids_foldl (by rw [List.length_cons, Nat.zero_add]; exact hle)]
    rfl
  rw [encodeLoop]
  split
  · rename_i hle
    exact hfits cap hle
  · rw [encodeLoop]
    have hle : (c.call mem text (c.call mem text cap).cnt).cnt ≤ (c.call mem text cap).cnt := by
      rw [call_cnt, call_cnt]
    rw [if_pos hle]
    exact hfits _ hle

/-- The beginning, and the ids of the text. -/
theorem encode_eq : c.encode mem text = c.special.bos :: c.textIds text :=
  c.encodeLoop_eq mem text _

end CTokenizer

/-! ## The tokenizer -/

/-- `encode` -/
inductive EncodeError
  | unsupported (typeId : Nat)
  /-- `tokenizer encode: {e}` -/
  | inner (e : String)
  | noTemplate (archId : Nat)
  deriving DecidableEq, Repr

def typeBpeLlama3 : Nat := 1
def typeBpeGpt2 : Nat := 2
def typeGemma4Bpe : Nat := 4

def archQwen3 : Nat := 2
def archGemma3 : Nat := 3
def archQwen25 : Nat := 6
def archGemma4 : Nat := 7
def archQwen36 : Nat := 8

/-- `gpt2_char_to_byte` -/
def gpt2CharToByte (c : Char) : Option UInt8 :=
  let cp := c.toNat
  if 0x21 ≤ cp ∧ cp ≤ 0x7E then some (UInt8.ofNat cp)
  else if 0xA1 ≤ cp ∧ cp ≤ 0xAC then some (UInt8.ofNat cp)
  else if 0xAE ≤ cp ∧ cp ≤ 0xFF then some (UInt8.ofNat cp)
  else if 0x100 ≤ cp ∧ cp ≤ 0x120 then some (UInt8.ofNat (cp - 0x100))
  else if cp = 0x121 then some 0x7F
  else if 0x122 ≤ cp ∧ cp ≤ 0x142 then some (UInt8.ofNat (cp - 0x122 + 0x80))
  else if cp = 0x143 then some 0xAD
  else none

/-- `gpt2_decode`, of the bytes of a string. -/
def gpt2DecodeStr (s : List UInt8) : List UInt8 := (fromUtf8Lossy s).filterMap gpt2CharToByte

def bytesOf (s : String) : List UInt8 := encode s.toList

/-- The names that `find_eos_ids` looks for. -/
def eosNames (archId : Nat) : List (List UInt8) :=
  (if archId = archQwen3 ∨ archId = archQwen25 ∨ archId = archQwen36 then
    ["<|im_end|>", "<|endoftext|>"]
  else if archId = archGemma3 ∨ archId = archGemma4 then ["<eos>", "<end_of_turn>"]
  else []).map bytesOf

/-- The places of the texts that a predicate holds of. -/
def places (p : List UInt8 → Bool) (l : List (List UInt8)) : List Int :=
  (l.zipIdx.filter fun entry => p entry.1).map fun entry => entry.2

/-- `find_eos_ids` -/
def findEosIds (archId : Nat) (vocab : List (List UInt8)) : List Int :=
  places (fun tok => (eosNames archId).contains tok) vocab

/-- Ids are added that the list does not have. -/
def addNew (ids : List Int) (id : Int) : List Int := if ids.contains id then ids else ids ++ [id]

/-- The parts of `SptbTokenizer`; an encoder of the `tokenizers` package is a function. -/
structure SptbTokenizer where
  inner : Option (List Char → Except String (List Int))
  cTokenizer : Option CTokenizer
  idToBytes : List (List UInt8)
  eosIds : List Int
  archId : Nat
  typeId : Nat
  bosId : Option Nat
  configSuppress : List Int

inductive BuildError
  | sptb (e : SptbError)
  /-- `BPE::build: {e}` -/
  | bpe (e : String)
  | load (e : String)
  /-- `gemma4 C tokenizer vocab {cvs} != blob vocab {}` -/
  | vocabMismatch (cvs blob : Nat)

namespace SptbTokenizer

/-- The bytes of a token: its characters are those of the byte-level alphabet, or have U+2581 for
a space. -/
def tokenText (typeId : Nat) (s : List UInt8) : List UInt8 :=
  if typeId = typeBpeGpt2 ∨ typeId = typeBpeLlama3 then gpt2DecodeStr s else unescape s.length s

/-- The ids that end a turn: those of the architecture, those of `generation_config.json` that are
tokens, and Gemma's end of turn. -/
def eosOf (archId : Nat) (vocab : List (List UInt8)) (configEos : List Int) : List Int :=
  let eos := (configEos.filter fun e => asUsize e < vocab.length).foldl addNew
    (findEosIds archId vocab)
  if archId = archGemma3 ∨ archId = archGemma4 then
    match vocab.findIdx? fun t => t == bytesOf "<turn|>" with
    | some e => addNew eos e
    | none => eos
  else eos

/-- The encoder of the `tokenizers` package, for the byte-level families. -/
def buildInner (bpe : SptbData → Except String (List Char → Except String (List Int)))
    (data : SptbData) : Except BuildError (Option (List Char → Except String (List Int))) :=
  if data.typeId = typeBpeGpt2 ∨ data.typeId = typeBpeLlama3 then
    match bpe data with
    | .error e => .error (.bpe e)
    | .ok enc => .ok (some enc)
  else .ok none

/-- The engine's encoder, for the Gemma 4 family; its vocabulary has to be of the blob's size. -/
def buildEngine (load : Except String CTokenizer) (data : SptbData) :
    Except BuildError (Option CTokenizer) :=
  if data.typeId = typeGemma4Bpe then
    match load with
    | .error e => .error (.load e)
    | .ok c =>
        if c.vocab.tok.length ≠ data.vocab.length then
          .error (.vocabMismatch c.vocab.tok.length data.vocab.length)
        else .ok (some c)
  else .ok none

/-- `build`: the blob of the model, what the `tokenizers` package makes of it, what the engine makes
of the file, and the suppressed ids and ends of `generation_config.json`. -/
def build (blob : List UInt8) (archId : Nat)
    (bpe : SptbData → Except String (List Char → Except String (List Int)))
    (load : Except String CTokenizer) (config : List Int × List Int) :
    Except BuildError SptbTokenizer := do
  let data ← (parseSptb blob).mapError .sptb
  let inner ← buildInner bpe data
  let cTokenizer ← buildEngine load data
  .ok
    { inner, cTokenizer, archId
      idToBytes := data.vocab.map (tokenText data.typeId)
      eosIds := eosOf archId data.vocab config.2
      typeId := data.typeId
      bosId := data.vocab.findIdx? fun t => t == bytesOf "<bos>"
      configSuppress := config.1 }

variable (tk : SptbTokenizer)

/-- `encode` -/
def encode (mem : Scratch) (text : List Char) : Except EncodeError (List Int) :=
  match tk.cTokenizer with
  | some c => .ok (c.encode mem (Utf8.encode text))
  | none =>
      match tk.inner with
      | none => .error (.unsupported tk.typeId)
      | some enc => (enc text).mapError .inner

/-- `encode_no_bos` -/
def encodeNoBos (mem : Scratch) (text : List Char) : Except EncodeError (List Int) := do
  let ids ← tk.encode mem text
  if tk.cTokenizer.isSome then
    match tk.bosId with
    | some bos => if ids.head? = some (bos : Int) then .ok (ids.drop 1) else .ok ids
    | none => .ok ids
  else .ok ids

/-- `control_id` -/
def controlId (surface : List UInt8) : Option Nat := tk.idToBytes.findIdx? fun b => b == surface

/-- `decode_token` -/
def decodeToken (id : Int) : List UInt8 := (tk.idToBytes[asUsize id]?).getD []

/-- `turn_stop_ids` -/
def turnStopIds : List Int :=
  if tk.archId = archGemma3 ∨ tk.archId = archGemma4 then
    places (fun b => b == bytesOf "<|turn>" || b == bytesOf "<turn|>") tk.idToBytes
  else []

end SptbTokenizer

/-- `is_unused_reserve` -/
def isUnusedReserve (bytes : List UInt8) : Bool :=
  (bytesOf "<unused").isPrefixOf bytes && bytes.getLast? == some 0x3E

/-- `is_suppressed_control` -/
def isSuppressedControl (bytes : List UInt8) : Bool :=
  if bytes == bytesOf "<|turn>" || bytes == bytesOf "<turn|>" then false
  else
    let pipeControl := bytes.head? == some 0x3C && bytes.getLast? == some 0x3E &&
      bytes.contains 0x7C
    let namedSpecial := bytes == bytesOf "<pad>" || bytes == bytesOf "<bos>" ||
      bytes == bytesOf "<unk>" || bytes == bytesOf "<mask>" || isUnusedReserve bytes
    pipeControl || namedSpecial

/-- `suppress_token_ids` -/
def SptbTokenizer.suppressTokenIds (tk : SptbTokenizer) : List Int :=
  (tk.configSuppress.filter fun id => asUsize id < tk.idToBytes.length).foldl addNew
    (places isSuppressedControl tk.idToBytes)

end ShannonPrime.Daemon
