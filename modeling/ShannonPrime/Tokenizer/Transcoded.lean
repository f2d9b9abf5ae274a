import ShannonPrime.Lib.Records
import ShannonPrime.Tokenizer.Reach

/-!
The tokenizer file that the transcoder writes (`sp_transcode.c`), and what the loader makes of
it. The blob has scores only where the arrays have them; token types are in no section.
-/

namespace ShannonPrime.Tokenizer

open Fetch
open Records

/-- The tokenizer's keys of a GGUF file, one of another type counting as absent. -/
structure GgufTok where
  model : Option String
  pre : Option String
  tokens : Option (List (List UInt8))
  scores : Option (List (BitVec 32))
  merges : Option (List (List UInt8))
  bosTokenId : Option Nat
  eosTokenId : Option Nat
  paddingTokenId : Option Nat
  unknownTokenId : Option Nat

/-- The family tag, from the model's name and the name of its pre-tokenizer. -/
def typeIdOf (model pre : Option String) : Option Nat :=
  if model = some "llama" then some 0
  else if model = some "gemma4" ∨ model = some "gpt2" ∧ pre = some "gemma4" then some 4
  else if model = some "gpt2" then some 2
  else none

/-- The scores that are written: those of an SPM vocabulary, one for each token. -/
def scoresOf (g : GgufTok) (nv : Nat) : List (BitVec 32) :=
  match g.scores with
  | some scores => if g.model = some "llama" ∧ scores.length = nv then scores else []
  | none => []

def mergesOf (g : GgufTok) : List (List UInt8) := g.merges.getD []

def scoreBytes (scores : List (BitVec 32)) : List UInt8 := scores.flatMap fun s => leBytes 4 s.toNat

/-- The counts in front of the blob's sections. -/
def blobFields (typeId nv nm : Nat) : List (Nat × Nat) :=
  [(4, sptbMagic), (4, typeId), (4, nv), (4, nm)]

/-- The sections of the blob. -/
def blobSections (g : GgufTok) (tokens : List (List UInt8)) : List UInt8 :=
  put 4 tokens ++ (scoreBytes (scoresOf g tokens.length) ++ put 4 (mergesOf g))

/-- `build_tok_blob`: the blob, its family tag and the number of tokens. -/
def buildTokBlob (g : GgufTok) : Option (List UInt8 × Nat × Nat) := do
  let tokens ← g.tokens
  let typeId ← typeIdOf g.model g.pre
  let head := fields (blobFields typeId tokens.length (mergesOf g).length)
  some (head ++ blobSections g tokens, typeId, tokens.length)

/-- A special id as it is written. -/
def specialWord (id : Option Nat) : Nat := id.getD 0xFFFFFFFF

/-- The header, with the version `SP_MODEL_VER_MAJOR` and `SP_MODEL_VER_MINOR`. -/
def headerFields (crc typeId nv blobSize : Nat) (g : GgufTok) : List (Nat × Nat) :=
  [(4, tokMagic), (2, 0), (2, 1), (4, tokHeaderSize), (4, typeId), (4, nv),
    (4, specialWord g.bosTokenId), (4, specialWord g.eosTokenId),
    (4, specialWord g.paddingTokenId), (4, specialWord g.unknownTokenId),
    (8, tokHeaderSize), (8, blobSize), (4, crc), (72, 0)]

/-- `write_tokenizer`, with `sp_crc32` over the header before its checksum. -/
def writeTokenizer (crc32 : List UInt8 → Nat) (g : GgufTok) : Option (List UInt8) := do
  let (blob, typeId, nv) ← buildTokBlob g
  let crc := crc32 ((fields (headerFields 0 typeId nv blob.length g)).take 52)
  some (fields (headerFields crc typeId nv blob.length g) ++ blob)

/-! What is in the file -/

/-- The fields in front of the sections: the header's, and the blob's counts. -/
def fileFields (g : GgufTok) (tokens : List (List UInt8)) (typeId crc : Nat) : List (Nat × Nat) :=
  headerFields crc typeId tokens.length (16 + (blobSections g tokens).length) g ++
    blobFields typeId tokens.length (mergesOf g).length

/-- The file of these arrays, with some checksum. -/
structure Written (g : GgufTok) (tokens : List (List UInt8)) (typeId crc : Nat)
    (file : List UInt8) : Prop where
  tokens_eq : g.tokens = some tokens
  typeId_eq : typeIdOf g.model g.pre = some typeId
  file_eq : file = fields (fileFields g tokens typeId crc) ++ blobSections g tokens

theorem writeTokenizer_written {crc32 : List UInt8 → Nat} {g : GgufTok} {file : List UInt8}
    (h : writeTokenizer crc32 g = some file) :
    ∃ tokens typeId crc, Written g tokens typeId crc file := by
  rw [writeTokenizer] at h
  obtain ⟨⟨blob, typeId, nv⟩, hblob, hfile⟩ := Option.bind_eq_some_iff.mp h
  rw [buildTokBlob] at hblob
  obtain ⟨tokens, htokens, hblob⟩ := Option.bind_eq_some_iff.mp hblob
  obtain ⟨typeId', htype, hblob⟩ := Option.bind_eq_some_iff.mp hblob
  cases hblob
  have hcrc := Option.some.inj hfile
  refine ⟨tokens, typeId, crc32 ((fields (headerFields 0 typeId tokens.length
    (fields (blobFields typeId tokens.length (mergesOf g).length) ++
      blobSections g tokens).length g)).take 52), htokens, htype, ?_⟩
  have hlen : (fields (blobFields typeId tokens.length (mergesOf g).length) ++
      blobSections g tokens).length = 16 + (blobSections g tokens).length := by
    rw [List.length_append, fields_length]
    rfl
  rw [← hcrc, fileFields, ← hlen]
  simp only [fields, List.flatMap_append, List.append_assoc]

/-- The counts and lengths fit the 32 bits that they are written in, and the file a `long`. -/
structure Fits (g : GgufTok) (tokens : List (List UInt8)) (file : List UInt8) : Prop where
  count : tokens.length < 2 ^ 32
  mergeCount : (mergesOf g).length < 2 ^ 32
  token : ∀ t ∈ tokens, t.length < 2 ^ 32
  merge : ∀ l ∈ mergesOf g, l.length < 2 ^ 32
  size : file.length < 2 ^ 63

/-- The header that is read back. -/
def headerOf (g : GgufTok) (tokens : List (List UInt8)) : TokHeader where
  magic := tokMagic
  headerSize := tokHeaderSize
  vocabSize := tokens.length
  bosToken := specialWord g.bosTokenId % 2 ^ 32
  eosToken := specialWord g.eosTokenId % 2 ^ 32
  padToken := specialWord g.paddingTokenId % 2 ^ 32
  unkToken := specialWord g.unknownTokenId % 2 ^ 32
  blobOffset := tokHeaderSize
  blobSize := 16 + (blobSections g tokens).length

namespace Written

variable {g : GgufTok} {tokens : List (List UInt8)} {typeId crc : Nat} {file : List UInt8}

theorem fileFields_widths : (fileFields g tokens typeId crc).map Prod.fst =
    [4, 2, 2, 4, 4, 4, 4, 4, 4, 4, 8, 8, 4, 72, 4, 4, 4, 4] := rfl

theorem fileFields_length : (fields (fileFields g tokens typeId crc)).length = 144 := by
  rw [fields_length, fileFields_widths]
  rfl

theorem file_length (h : Written g tokens typeId crc file) :
    file.length = 144 + (blobSections g tokens).length := by
  have hlen := congrArg List.length h.file_eq
  rwa [List.length_append, fileFields_length] at hlen

/-- A number of the header or of the counts behind it, at the place that the widths before it
give. -/
theorem number_eq (h : Written g tokens typeId crc file) {i w n : Nat} (p : Nat)
    (hp : ([4, 2, 2, 4, 4, 4, 4, 4, 4, 4, 8, 8, 4, 72, 4, 4, 4, 4].take i).sum = p)
    (hi : (fileFields g tokens typeId crc)[i]? = some (w, n)) :
    number file p w = n % 256 ^ w := by
  have hfield := number_field (blobSections g tokens) hi
  rwa [← h.file_eq, fieldAt, List.map_take, fileFields_widths, hp] at hfield

theorem header_number {file : List UInt8} {p w : Nat} (hp : p + w ≤ 128) :
    number (slice file 0 tokHeaderSize) p w = number file p w := by
  have h := @number_slice_at file p 0 tokHeaderSize w hp
  rwa [Nat.zero_add] at h

theorem fileHeader_eq (h : Written g tokens typeId crc file) (hfits : Fits g tokens file) :
    fileHeader file = headerOf g tokens := by
  have hsize := hfits.size
  rw [h.file_length] at hsize
  have hnv : number file 16 4 = tokens.length := by
    refine (h.number_eq (i := 5) _ rfl rfl).trans (Nat.mod_eq_of_lt hfits.count)
  have hblob : number file 44 8 = 16 + (blobSections g tokens).length := by
    refine (h.number_eq (i := 11) _ rfl rfl).trans (Nat.mod_eq_of_lt (by omega))
  have hmagic : number file 0 4 = tokMagic := h.number_eq (i := 0) _ rfl rfl
  have hheader : number file 8 4 = tokHeaderSize := h.number_eq (i := 3) _ rfl rfl
  have hoffset : number file 36 8 = tokHeaderSize := h.number_eq (i := 10) _ rfl rfl
  have hbos : number file 20 4 = specialWord g.bosTokenId % 2 ^ 32 := h.number_eq (i := 6) _ rfl rfl
  have heos : number file 24 4 = specialWord g.eosTokenId % 2 ^ 32 := h.number_eq (i := 7) _ rfl rfl
  have hpad : number file 28 4 = specialWord g.paddingTokenId % 2 ^ 32 := h.number_eq (i := 8) _ rfl rfl
  have hunk : number file 32 4 = specialWord g.unknownTokenId % 2 ^ 32 := h.number_eq (i := 9) _ rfl rfl
  simp only [fileHeader, tokHeader, header_number (show 0 + 4 ≤ 128 by omega),
    header_number (show 8 + 4 ≤ 128 by omega), header_number (show 16 + 4 ≤ 128 by omega),
    header_number (show 20 + 4 ≤ 128 by omega), header_number (show 24 + 4 ≤ 128 by omega),
    header_number (show 28 + 4 ≤ 128 by omega), header_number (show 32 + 4 ≤ 128 by omega),
    header_number (show 36 + 8 ≤ 128 by omega), header_number (show 44 + 8 ≤ 128 by omega), headerOf,
    hnv, hblob, hmagic, hheader, hoffset, hbos, heos, hpad, hunk]

theorem fileView_eq (h : Written g tokens typeId crc file) (hfits : Fits g tokens file) :
    fileView file = ⟨file, 128, 16 + (blobSections g tokens).length⟩ := by
  rw [fileView, h.fileHeader_eq hfits]
  rfl

/-- The blob as the loader sees it. -/
def view (g : GgufTok) (tokens : List (List UInt8)) (file : List UInt8) : View :=
  ⟨file, 128, 16 + (blobSections g tokens).length⟩

theorem view_bounded (h : Written g tokens typeId crc file) (hfits : Fits g tokens file) :
    (view g tokens file).Bounded := by
  have hlen := h.file_length
  refine ⟨hfits.size, ?_⟩
  dsimp only [view]
  omega

theorem counts (h : Written g tokens typeId crc file) (hfits : Fits g tokens file) :
    (view g tokens file).word 0 = sptbMagic ∧ (view g tokens file).typeId = typeId % 2 ^ 32 ∧
      (view g tokens file).nv = tokens.length ∧
      (view g tokens file).nm = (mergesOf g).length := by
  have hmagic : number file 128 4 = sptbMagic := h.number_eq (i := 14) _ rfl rfl
  have htype : number file 132 4 = typeId % 2 ^ 32 := h.number_eq (i := 15) _ rfl rfl
  have hnv : number file 136 4 = tokens.length :=
    (h.number_eq (i := 16) _ rfl rfl).trans (Nat.mod_eq_of_lt hfits.count)
  have hnm : number file 140 4 = (mergesOf g).length :=
    (h.number_eq (i := 17) _ rfl rfl).trans (Nat.mod_eq_of_lt hfits.mergeCount)
  exact ⟨hmagic, htype, hnv, hnm⟩

/-- The tokens are found again, and what follows them. -/
theorem tokens_found (h : Written g tokens typeId crc file) (hfits : Fits g tokens file) :
    (view g tokens file).tokens = tokens ∧
      (view g tokens file).tokensEnd = 16 + (put 4 tokens).length := by
  have hput := @spans_put 4 (fields (fileFields g tokens typeId crc))
    (scoreBytes (scoresOf g tokens.length) ++ put 4 (mergesOf g)) file 128 16 fileFields_length
    tokens hfits.token h.file_eq
  rw [View.tokens, View.tokensEnd, View.tokenSpans, (h.counts hfits).2.2.1]
  exact hput

theorem scoreBytes_length (scores : List (BitVec 32)) :
    (scoreBytes scores).length = scores.length * 4 := by
  induction scores with
  | nil => rfl
  | cons s scores ih =>
      have hcons : scoreBytes (s :: scores) = leBytes 4 s.toNat ++ scoreBytes scores := rfl
      rw [hcons, List.length_append, leBytes_length, ih, List.length_cons]
      omega

/-- The merges are found again where the scores that were written end. -/
theorem merges_found (h : Written g tokens typeId crc file) (hfits : Fits g tokens file)
    {family : Family} (hstart : (view g tokens file).mergesStart family =
      16 + (put 4 tokens).length + (scoreBytes (scoresOf g tokens.length)).length) :
    (view g tokens file).merges family = mergesOf g ∧
      (view g tokens file).mergesEnd family = 16 + (blobSections g tokens).length := by
  have hput := @spans_put 4
    (fields (fileFields g tokens typeId crc) ++ put 4 tokens ++
      scoreBytes (scoresOf g tokens.length)) [] file 128
    (16 + (put 4 tokens).length + (scoreBytes (scoresOf g tokens.length)).length)
    (by
      simp only [List.length_append, fileFields_length]
      omega)
    (mergesOf g) hfits.merge (by
      simp only [List.append_assoc, List.append_nil]
      exact h.file_eq)
  rw [View.merges, View.mergesEnd, View.mergeSpans, (h.counts hfits).2.2.2, hstart]
  refine ⟨hput.1, hput.2.trans ?_⟩
  rw [blobSections]
  simp only [List.length_append]
  omega

end Written

/-! What the loader makes of it -/

/-- The id of a special key. -/
def idOf (id : Option Nat) : Int :=
  match id with
  | some id => id
  | none => -1

/-- Ids that an `int32_t` holds. -/
structure SmallIds (g : GgufTok) : Prop where
  bos : ∀ id ∈ g.bosTokenId, id < 2 ^ 31
  eos : ∀ id ∈ g.eosTokenId, id < 2 ^ 31
  pad : ∀ id ∈ g.paddingTokenId, id < 2 ^ 31
  unk : ∀ id ∈ g.unknownTokenId, id < 2 ^ 31

/-- What the loader asks of the arrays of each family. -/
structure Loadable (g : GgufTok) (tokens : List (List UInt8)) (family : Family) : Prop where
  nonempty : tokens ≠ []
  ids : tokens.length ≤ 2 ^ 31
  scored : family = .spm → ∃ scores, g.scores = some scores ∧ scores.length = tokens.length
  bytes : family ≠ .gpt2 → ∀ b < 256, byteName b ∈ tokens
  merges : family = .gemma4 → 0 < (mergesOf g).length ∧ (mergesOf g).length ≤ 0x7FFFFFFF ∧
    ∀ line ∈ mergesOf g, Resolves ⟨tokens, ids⟩ line
  bos : family = .gemma4 → ∃ id, g.bosTokenId = some id ∧ id < tokens.length

theorem specialId_word {id : Option Nat} (h : ∀ x ∈ id, x < 2 ^ 31) :
    specialId (specialWord id % 2 ^ 32) = idOf id := by
  cases id with
  | none => rfl
  | some x =>
      have hx : x < 2 ^ 31 := h x rfl
      have hword : specialWord (some x) % 2 ^ 32 = x := Nat.mod_eq_of_lt (show x < 2 ^ 32 by omega)
      rw [hword, specialId, if_neg (by omega)]
      exact Int.bmod_eq_of_le (by omega) (by omega)

theorem lineOk_iff {v : Vocab} {line : List UInt8} :
    View.lineOk (vocabMap v.tok) line = true ↔ Resolves v line := by
  rw [View.lineOk, Resolves]
  cases g4Split line with
  | none => exact iff_of_true rfl fun _ _ h => (nomatch h)
  | some sides =>
      simp only [Bool.and_eq_true, and_assoc]
      constructor
      · rintro ⟨hl, hr, hres⟩ l r hlr
        cases hlr
        exact ⟨Vocab.lookup_isSome.mp hl, Vocab.lookup_isSome.mp hr, Vocab.lookup_isSome.mp hres⟩
      · intro h
        obtain ⟨hl, hr, hres⟩ := h sides.1 sides.2 rfl
        exact ⟨Vocab.lookup_isSome.mpr hl, Vocab.lookup_isSome.mpr hr,
          Vocab.lookup_isSome.mpr hres⟩

theorem allBytes_of_mem {v : Vocab} (h : ∀ b < 256, byteName b ∈ v.tok) :
    View.allBytes (vocabMap v.tok) = true := by
  rw [View.allBytes, List.all_eq_true]
  intro b hb
  exact Vocab.lookup_isSome.mpr (h b (List.mem_range.mp hb))

theorem spmBytes_of_mem {v : Vocab} (h : ∀ b < 256, byteName b ∈ v.tok) :
    View.spmBytes (vocabMap v.tok) = true := by
  rw [View.spmBytes, List.all_eq_true]
  intro b hb
  obtain ⟨id, hid⟩ := Option.isSome_iff_exists.mp
    (Vocab.lookup_isSome.mpr (h b (List.mem_range.mp hb)))
  have hlt : id < 2 ^ 31 := Vocab.lookup_lt hid
  have hget : hmapGet (vocabMap v.tok) (byteName b) = some id := hid
  rw [hget]
  exact decide_eq_true (by omega)

theorem typeIdOf_cases {model pre : Option String} {typeId : Nat}
    (h : typeIdOf model pre = some typeId) :
    typeId % 2 ^ 32 = typeId ∧ ∃ family, familyOf typeId = some family ∧
      (family = .spm ↔ model = some "llama") := by
  rw [typeIdOf] at h
  split at h
  · rename_i hllama
    cases h
    exact ⟨rfl, .spm, rfl, iff_of_true rfl hllama⟩
  · rename_i hllama
    split at h
    · cases h
      exact ⟨rfl, .gemma4, rfl, iff_of_false (fun h => (nomatch h)) hllama⟩
    · split at h
      · cases h
        exact ⟨rfl, .gpt2, rfl, iff_of_false (fun h => (nomatch h)) hllama⟩
      · cases h

namespace Written

variable {g : GgufTok} {tokens : List (List UInt8)} {typeId crc : Nat} {file : List UInt8}

theorem headerAccepted (h : Written g tokens typeId crc file) (hfits : Fits g tokens file) :
    HeaderAccepted file := by
  have hlen := h.file_length
  have hsize := hfits.size
  constructor
  · rw [ftell, if_pos hsize, hlen]
    have hshort : (tokHeaderSize : Int) + 16 = 144 := rfl
    omega
  · rw [h.fileHeader_eq hfits]
    have hroom : (128 + (16 + (blobSections g tokens).length)) % 2 ^ 64 ≤ file.length := by
      rw [Nat.mod_eq_of_lt (by omega)]
      omega
    have hbs : 16 + (blobSections g tokens).length ≥ 16 := Nat.le_add_right _ _
    have hok : headerOk (headerOf g tokens) file.length =
        (decide ((128 + (16 + (blobSections g tokens).length)) % 2 ^ 64 ≤ file.length) &&
          decide (16 + (blobSections g tokens).length ≥ 16)) := rfl
    rw [hok, decide_eq_true hroom, decide_eq_true hbs]
    rfl

/-- The sections lie one behind the other where the scores are those that the loader expects. -/
theorem mergesStart_eq (h : Written g tokens typeId crc file) (hfits : Fits g tokens file)
    {family : Family} (hspm : family = .spm ↔ g.model = some "llama")
    (hscored : family = .spm → ∃ scores, g.scores = some scores ∧ scores.length = tokens.length) :
    (view g tokens file).mergesStart family =
      16 + (put 4 tokens).length + (scoreBytes (scoresOf g tokens.length)).length := by
  have hend := (h.tokens_found hfits).2
  rw [View.mergesStart, hend, scoreBytes_length]
  split
  · rename_i hfamily
    obtain ⟨scores, hscores, hlen⟩ := hscored hfamily
    have hwritten : scoresOf g tokens.length = scores := by
      rw [scoresOf, hscores]
      exact if_pos ⟨hspm.mp hfamily, hlen⟩
    rw [hwritten, hlen, (h.counts hfits).2.2.1]
  · rename_i hfamily
    have hnone : scoresOf g tokens.length = [] := by
      rw [scoresOf]
      split
      · exact if_neg fun hboth => hfamily (hspm.mpr hboth.1)
      · rfl
    rw [hnone]
    rfl

theorem sound (h : Written g tokens typeId crc file) (hfits : Fits g tokens file)
    {family : Family} (hspm : family = .spm ↔ g.model = some "llama")
    (hload : Loadable g tokens family) : (view g tokens file).Sound family := by
  obtain ⟨hmerges, hend⟩ := h.merges_found hfits (h.mergesStart_eq hfits hspm hload.scored)
  have htokens := (h.tokens_found hfits).1
  have hnm := (h.counts hfits).2.2.2
  constructor
  case room =>
    rw [hend]
    exact Nat.le_refl _
  case spm =>
    intro hfamily
    rw [htokens]
    exact spmBytes_of_mem (v := ⟨tokens, hload.ids⟩) (hload.bytes (by rw [hfamily]; decide))
  case count =>
    intro hfamily
    obtain ⟨hpos, hle, -⟩ := hload.merges hfamily
    rw [← hnm] at hpos hle
    exact ⟨hpos, hle⟩
  case lines =>
    intro hfamily
    rw [htokens, hmerges, List.all_eq_true]
    intro line hline
    exact (lineOk_iff (v := ⟨tokens, hload.ids⟩)).mpr ((hload.merges hfamily).2.2 line hline)
  case bytes =>
    intro hfamily
    rw [htokens]
    exact allBytes_of_mem (v := ⟨tokens, hload.ids⟩) (hload.bytes (by rw [hfamily]; decide))

end Written

/-- What the loader makes of the arrays: an SPM vocabulary keeps its scores and no merges. -/
def loadedOf (g : GgufTok) (tokens : List (List UInt8)) (family : Family) : TokFile where
  family := family
  tok := tokens
  scores := if family = .spm then scoreBytes (scoresOf g tokens.length) else []
  merges := if family = .spm then [] else mergesOf g
  bosId := idOf g.bosTokenId
  eosId := idOf g.eosTokenId
  padId := idOf g.paddingTokenId
  unkId := idOf g.unknownTokenId
  addBos := family == .gemma4

/-- The last check passes. -/
theorem finishLoad_eq {g : GgufTok} {tokens : List (List UInt8)} (hids : SmallIds g)
    {family : Family} (hload : Loadable g tokens family) :
    finishLoad (headerOf g tokens) family tokens.length tokens
        (if family = .spm then scoreBytes (scoresOf g tokens.length) else [])
        (if family = .spm then [] else mergesOf g) =
      .value (loadedOf g tokens family) := by
  simp only [finishLoad, headerOf, specialId_word hids.bos, specialId_word hids.eos,
    specialId_word hids.pad, specialId_word hids.unk]
  apply if_neg
  rintro ⟨hfamily, hbad⟩
  obtain ⟨id, hid, hlt⟩ := hload.bos hfamily
  have hbos : idOf g.bosTokenId = id := by
    rw [hid]
    rfl
  rw [hbos] at hbad
  omega

/-- The bytes of the scores stand behind the tokens. -/
theorem Written.scores_found {g : GgufTok} {tokens : List (List UInt8)} {typeId crc : Nat}
    {file : List UInt8} (h : Written g tokens typeId crc file) (hfits : Fits g tokens file)
    (hlen : (scoresOf g tokens.length).length = tokens.length) :
    slice file (128 + (view g tokens file).tokensEnd) ((view g tokens file).nv * 4) =
      scoreBytes (scoresOf g tokens.length) := by
  have hbefore : (fields (fileFields g tokens typeId crc) ++ put 4 tokens).length =
      128 + (view g tokens file).tokensEnd := by
    rw [(h.tokens_found hfits).2, List.length_append, fileFields_length]
    omega
  have hbytes : (scoreBytes (scoresOf g tokens.length)).length = (view g tokens file).nv * 4 := by
    rw [scoreBytes_length, hlen, (h.counts hfits).2.2.1]
  have hfile : file = (fields (fileFields g tokens typeId crc) ++ put 4 tokens) ++
      (scoreBytes (scoresOf g tokens.length) ++ put 4 (mergesOf g)) := by
    rw [List.append_assoc]
    exact h.file_eq
  have hslice := @slice_between (fields (fileFields g tokens typeId crc) ++ put 4 tokens)
    (put 4 (mergesOf g)) (scoreBytes (scoresOf g tokens.length))
  rwa [← hfile, hbefore, hbytes] at hslice

/-- A file that fits is accepted, and has the tokens, scores, merges and ids of the arrays. -/
theorem Written.loads {g : GgufTok} {tokens : List (List UInt8)} {typeId crc : Nat}
    {file : List UInt8} (h : Written g tokens typeId crc file) (hfits : Fits g tokens file)
    (hids : SmallIds g) {family : Family} (hfamily : familyOf typeId = some family)
    (hload : Loadable g tokens family) :
    spTokenizerLoadTokfile file = .value (loadedOf g tokens family) := by
  obtain ⟨hsmall, family', hfamily', hspm⟩ := typeIdOf_cases h.typeId_eq
  rw [hfamily, Option.some_inj] at hfamily'
  subst hfamily'
  have hbounded := h.view_bounded hfits
  have hsound := h.sound hfits hspm hload
  obtain ⟨hmagic, htype, hnv, hnm⟩ := h.counts hfits
  have hpos : tokens.length ≠ 0 := fun hzero => hload.nonempty (List.length_eq_zero_iff.mp hzero)
  have hhead : ∀ pos, pos + 4 ≤ 16 →
      (view g tokens file).u32 pos = .value ((view g tokens file).word pos, pos + 4) := by
    intro pos hpos
    have hbs : (view g tokens file).bs = 16 + (blobSections g tokens).length := rfl
    rw [View.u32_bounded hbounded (by omega), if_pos (by omega)]
  have hview : fileView file = view g tokens file := h.fileView_eq hfits
  have hscores : (if family = .spm then slice file (128 + (view g tokens file).tokensEnd)
      ((view g tokens file).nv * 4) else []) =
        if family = .spm then scoreBytes (scoresOf g tokens.length) else [] := by
    split
    · rename_i hfam
      apply h.scores_found hfits
      obtain ⟨scores, hg, hlen⟩ := hload.scored hfam
      rw [scoresOf, hg]
      dsimp only
      rw [if_pos ⟨hspm.mp hfam, hlen⟩, hlen]
    · rfl
  have hmerges := (h.merges_found hfits (h.mergesStart_eq hfits hspm hload.scored)).1
  rw [load_eq (h.headerAccepted hfits), hview, View.loadBlob_of_head hhead,
    if_neg (not_not.mpr hmagic), View.afterHead, htype, hsmall, hfamily]
  dsimp only
  have hvocab : (headerOf g tokens).vocabSize = tokens.length := rfl
  rw [h.fileHeader_eq hfits, if_neg (by rw [hnv, hvocab]; exact fun hbad => hbad.elim hpos (· rfl)),
    View.loadSections_sound hbounded (headerOf g tokens) hsound]
  have htokens := (h.tokens_found hfits).1
  have hbase : (view g tokens file).base = 128 := rfl
  have hfileEq : (view g tokens file).file = file := rfl
  rw [hbase, hfileEq, hscores, hmerges, htokens, hnv]
  exact finishLoad_eq hids hload

/-- A vocabulary of one token. -/
def oneToken (model : String) : GgufTok where
  model := some model
  pre := none
  tokens := some [[0x61]]
  scores := none
  merges := none
  bosTokenId := none
  eosTokenId := none
  paddingTokenId := none
  unknownTokenId := none

end ShannonPrime.Tokenizer
