import ShannonPrime.Lib.Layout
import ShannonPrime.Lib.Words

/-!
The emit list of `sp_transcode` and the model file written from it. The digests are
parameters. Offsets are those of bytes that are held in memory or in a file, so their sums
do not wrap; writes do not fail.
-/

namespace ShannonPrime.Transcode

open Layout

abbrev Byte := BitVec 8

def spHeaderSize : Nat := 512
def spTensorEntrySize : Nat := 256
def spDataRegionAlign : Nat := 65536
def spTensorAlign : Nat := 64
def spHeaderCrcCover : Nat := 360
def spModelMagic : Nat := 0x444D5053
def spModelVerMajor : Nat := 0
def spModelVerMinor : Nat := 1

/-- `sp_hash.h` -/
structure Hashes where
  xxh64 : List Byte → BitVec 64
  blake3 : List Byte → Fin 32 → Byte
  crc32 : List Byte → BitVec 32

/-- What an `add_*` fills in for a tensor it pushes. -/
structure Emission where
  name : List Byte
  dtypeId : BitVec 32
  nDims : BitVec 32
  dims : Fin 8 → BitVec 64
  blockSize : BitVec 32
  bytes : List Byte

/-- `emit_tensor`; the payload is `none` once it is streamed out. -/
structure EmitTensor where
  name : List Byte
  dtypeId : BitVec 32
  nDims : BitVec 32
  dims : Fin 8 → BitVec 64
  blockSize : BitVec 32
  bytes : Option (List Byte)
  sizeBytes : Nat
  dataOff : Nat
  blake3 : Fin 32 → Byte

def ascii (cs : List Char) : List Byte := cs.map fun c => BitVec.ofNat 8 c.toNat

/-- `snprintf(dst, cap, "%s", s)` -/
def snprintf (cap : Nat) (s : List Byte) : List Byte := s.take (cap - 1)

/-- A tensor as pushed and filled. -/
def Emission.push (e : Emission) : EmitTensor where
  name := snprintf 80 e.name
  dtypeId := e.dtypeId
  nDims := e.nDims
  dims := e.dims
  blockSize := e.blockSize
  bytes := some e.bytes
  sizeBytes := e.bytes.length
  dataOff := 0
  blake3 := fun _ => 0

/-- Zeros from `pos` up to `target`, at most `chunk` at a time. -/
def writeZeros (chunk pos target : Nat) : List Byte :=
  if pos < target ∧ 0 < chunk then
    let w := min (target - pos) chunk
    List.replicate w 0 ++ writeZeros chunk (pos + w) target
  else []
termination_by target - pos

/-! The emit list of the GGUF tensors -/

/-- The part of `gguf_tensor` the emit list keeps. -/
structure GgufTensor where
  name : List Byte
  nDims : BitVec 32
  dims : Nat → BitVec 64

namespace GgufTensor

variable (W : GgufTensor)

/-- The dimension `d` as an `int`. -/
def dimInt (d : Nat) : BitVec 32 := (W.dims d).truncate 32

def ne2 : BitVec 32 := if 3 ≤ W.nDims.toNat then W.dimInt 2 else 1

def totalRows : BitVec 32 := W.dimInt 1 * W.ne2

end GgufTensor

def dims1 (a : BitVec 64) : Fin 8 → BitVec 64 := fun d => if d = 0 then a else 0

/-- The codes of a matmul weight. -/
def codesEmission (dtypeId : BitVec 32) (W : GgufTensor) (codes : List Byte) : Emission where
  name := W.name
  dtypeId := dtypeId
  nDims := W.nDims
  dims := fun d =>
    if d = 0 then (W.dimInt 0).signExtend 64
    else if d = 1 then (W.dimInt 1).signExtend 64
    else if d = 2 ∧ 3 ≤ W.nDims.toNat then W.ne2.signExtend 64
    else 0
  blockSize := 1
  bytes := codes

/-- The row scales behind the codes. -/
def rowScaleEmission (W : GgufTensor) (scales : List Byte) : Emission where
  name := W.name ++ ascii ['.', 's', 'c', 'a', 'l', 'e']
  dtypeId := 12
  nDims := 1
  dims := dims1 (W.totalRows.signExtend 64)
  blockSize := 4
  bytes := scales

/-- A weight is refused when its rank is below 2. -/
def addWeight (W : GgufTensor) (codes scale : Emission) : Option (List Emission) :=
  if W.nDims.toNat < 2 then none else some [codes, scale]

def addQ8 (W : GgufTensor) (codes scales : List Byte) : Option (List Emission) :=
  addWeight W (codesEmission 10 W codes) (rowScaleEmission W scales)

def addQ4 (W : GgufTensor) (codes scales : List Byte) : Option (List Emission) :=
  addWeight W (codesEmission 11 W codes) (rowScaleEmission W scales)

/-- Its scales are per block of 32 columns. -/
def addQ4b (W : GgufTensor) (codes scales : List Byte) : Option (List Emission) :=
  let nblk : BitVec 32 := BitVec.sdiv (W.dimInt 0 + 31) 32
  addWeight W (codesEmission 13 W codes)
    { name := W.name ++ ascii ['.', 'b', 's', 'c', 'a', 'l', 'e']
      dtypeId := 14
      nDims := 2
      dims := fun d =>
        if d = 0 then nblk.signExtend 64
        else if d = 1 then W.totalRows.signExtend 64
        else 0
      blockSize := 2
      bytes := scales }

def addF32 (W : GgufTensor) (values : List Byte) : Option (List Emission) :=
  some [{ name := W.name
          dtypeId := 1
          nDims := W.nDims
          dims := fun d => if d.val < W.nDims.toNat then W.dims d else 0
          blockSize := 4
          bytes := values }]

/-! The data region -/

section Region

variable (H : Hashes)

/-- The temp data file of `--stream`, with its running cursor. -/
structure Stream where
  file : List Byte
  off : Nat

/-- `emit_stream_one` -/
def emitStreamOne (st : Stream) (e : EmitTensor) : Stream × EmitTensor :=
  let aligned := alignUp st.off spTensorAlign
  let pad := writeZeros 64 st.off aligned
  let off := st.off + pad.length
  let payload := e.bytes.getD []
  (⟨st.file ++ pad ++ payload, off + e.sizeBytes⟩,
    { e with dataOff := off, blake3 := H.blake3 payload, bytes := none })

/-- The pushes in turn. With a temp file each is streamed out as soon as it is filled. -/
def emitAll : Option Stream → List Emission → Option Stream × List EmitTensor
  | stream, [] => (stream, [])
  | none, e :: rest =>
      let out := emitAll none rest
      (out.1, e.push :: out.2)
  | some st, e :: rest =>
      let one := emitStreamOne H st e.push
      let out := emitAll (some one.1) rest
      (out.1, one.2 :: out.2)

/-- The offsets of the in-RAM mode, in emit order from `cursor` on, and the region's size. -/
def assignOffsets : Nat → List EmitTensor → List EmitTensor × Nat
  | cursor, [] => ([], cursor)
  | cursor, e :: rest =>
      let off := alignUp cursor spTensorAlign
      let out := assignOffsets (off + e.sizeBytes) rest
      ({ e with dataOff := off } :: out.1, out.2)

/-- The data region as the in-RAM mode writes it. -/
def writeRegion : Nat → List EmitTensor → List Byte
  | _, [] => []
  | dpos, e :: rest =>
      let pad := writeZeros 65536 dpos (alignUp dpos spTensorAlign)
      pad ++ e.bytes.getD [] ++ writeRegion (dpos + pad.length + e.sizeBytes) rest

/-- The copy of the temp file, `chunk` bytes at a time; `none` when it ends too early. -/
def copyRegion (chunk : Nat) (file : List Byte) (copied size : Nat) : Option (List Byte) :=
  if copied < size then
    let got := (file.drop copied).take (min (size - copied) chunk)
    if 0 < got.length then
      (copyRegion chunk file (copied + got.length) size).map (got ++ ·)
    else none
  else some []
termination_by size - copied
decreasing_by
  rename_i hgot
  rw [List.length_take] at hgot ⊢
  omega

end Region

/-! The table and the file -/

/-- `sp_tensor_entry` -/
structure TensorEntry where
  name : List Byte
  dtypeId : BitVec 32
  nDims : BitVec 32
  dims : Fin 8 → BitVec 64
  offsetInData : Nat
  sizeBytes : Nat
  blockSize : BitVec 32
  blockCount : BitVec 32
  blake3 : Fin 32 → Byte
  nameHash : BitVec 64

/-- A string field of `n` bytes in zeroed memory. -/
def cstring (n : Nat) (s : List Byte) : List Byte := s ++ List.replicate (n - s.length) 0

def TensorEntry.bytes (e : TensorEntry) : List Byte :=
  cstring 80 e.name ++ LittleEndian.bytes 4 e.dtypeId.toNat ++
    LittleEndian.bytes 4 e.nDims.toNat ++
    (List.ofFn e.dims).flatMap (fun d => LittleEndian.bytes 8 d.toNat) ++
    LittleEndian.bytes 8 e.offsetInData ++ LittleEndian.bytes 8 e.sizeBytes ++
    LittleEndian.bytes 4 e.blockSize.toNat ++ LittleEndian.bytes 4 e.blockCount.toNat ++
    List.ofFn e.blake3 ++ LittleEndian.bytes 8 e.nameHash.toNat ++ List.replicate 40 0

/-- `sp_model_header` up to its checksum. -/
structure ModelHeader where
  archId : BitVec 32
  archStructSize : BitVec 32
  archStruct : Fin 256 → Byte
  tokenizerHash : Fin 32 → Byte
  vocabSize : BitVec 32
  tensorCount : BitVec 32
  tensorTableOffset : Nat
  tensorDataOffset : Nat
  fileSize : Nat
  createdUnixSeconds : BitVec 64
  transcodedFrom : BitVec 64

/-- The bytes the checksum covers, in three parts: before, at and behind the timestamp. -/
def ModelHeader.front (h : ModelHeader) : List Byte :=
  LittleEndian.bytes 4 spModelMagic ++ LittleEndian.bytes 2 spModelVerMajor ++
    LittleEndian.bytes 2 spModelVerMinor ++ LittleEndian.bytes 4 spHeaderSize ++
    LittleEndian.bytes 4 h.archId.toNat ++ LittleEndian.bytes 4 h.archStructSize.toNat ++
    LittleEndian.bytes 4 256 ++ List.ofFn h.archStruct ++ List.ofFn h.tokenizerHash ++
    LittleEndian.bytes 4 h.vocabSize.toNat ++ LittleEndian.bytes 4 h.tensorCount.toNat ++
    LittleEndian.bytes 8 h.tensorTableOffset ++ LittleEndian.bytes 8 h.tensorDataOffset ++
    LittleEndian.bytes 8 h.fileSize

def ModelHeader.covered (h : ModelHeader) : List Byte :=
  h.front ++ LittleEndian.bytes 8 h.createdUnixSeconds.toNat ++
    LittleEndian.bytes 8 h.transcodedFrom.toNat

def ModelHeader.bytes (H : Hashes) (h : ModelHeader) : List Byte :=
  h.covered ++ LittleEndian.bytes 4 (H.crc32 h.covered).toNat ++ List.replicate 148 0

/-- What the library's `qsort` with `cmp_entry` does to the table: entries of one hash may
come in any order. -/
structure TableSort where
  qsort : List TensorEntry → List TensorEntry
  perm : ∀ tbl, (qsort tbl).Perm tbl
  sorted : ∀ tbl, (qsort tbl).Pairwise fun x y => x.nameHash.toNat ≤ y.nameHash.toNat

/-- What `main` has before it emits: the arch struct, the tokenizer's digest, the path. -/
structure Inputs where
  archId : BitVec 32
  archSize : BitVec 32
  archStruct : Fin 256 → Byte
  archVocab : BitVec 32
  tokSha : Fin 32 → Byte
  path : List Byte

/-- A written model: its header, its sorted table, its bytes. -/
structure ModelFile where
  header : ModelHeader
  table : List TensorEntry
  bytes : List Byte

section File

variable (H : Hashes) (S : TableSort) (env : Inputs)

def tableEntry (stream : Bool) (e : EmitTensor) : TensorEntry where
  name := snprintf 80 e.name
  dtypeId := e.dtypeId
  nDims := e.nDims
  dims := e.dims
  offsetInData := e.dataOff
  sizeBytes := e.sizeBytes
  blockSize := e.blockSize
  blockCount :=
    if e.blockSize = 0 then 0 else BitVec.ofNat 32 (e.sizeBytes / e.blockSize.toNat)
  blake3 := if stream then e.blake3 else H.blake3 (e.bytes.getD [])
  nameHash := H.xxh64 (snprintf 80 e.name)

/-- `main` from the emit list on; `created` is what `time(NULL)` returns. -/
def transcode (stream : Bool) (created : BitVec 64) (emitted : List Emission) :
    Option ModelFile :=
  let (gStream, pushed) := emitAll H (if stream then some ⟨[], 0⟩ else none) emitted
  let (list, regionSize) :=
    match gStream with
    | some st => (pushed, st.off)
    | none => assignOffsets 0 pushed
  let tbl := S.qsort (list.map (tableEntry H stream))
  let tableEnd := spHeaderSize + list.length * spTensorEntrySize
  let dataOff := alignUp tableEnd spDataRegionAlign
  let header : ModelHeader :=
    { archId := env.archId
      archStructSize := env.archSize
      archStruct := env.archStruct
      tokenizerHash := env.tokSha
      vocabSize := env.archVocab
      tensorCount := BitVec.ofNat 32 list.length
      tensorTableOffset := spHeaderSize
      tensorDataOffset := dataOff
      fileSize := dataOff + regionSize
      createdUnixSeconds := created
      transcodedFrom := H.xxh64 env.path }
  let region :=
    match gStream with
    | some st => copyRegion 4194304 st.file 0 regionSize
    | none => some (writeRegion 0 list)
  region.map fun data =>
    ⟨header, tbl,
      header.bytes H ++ tbl.flatMap TensorEntry.bytes ++ writeZeros 65536 tableEnd dataOff ++
        data⟩

end File

end ShannonPrime.Transcode
