import ShannonPrime.Transcode.Emit
import Mathlib.Data.List.Sort

/-!
Both modes of `sp_transcode` lay the emitted tensors out alike: the data region is the
image of the payloads at 64-byte alignment, in emit order, and the file does not depend on
the mode.
-/

namespace ShannonPrime.Transcode

open Layout

variable (H : Hashes)

theorem writeZeros_eq (chunk : Nat) (hchunk : 0 < chunk) (pos target : Nat) :
    writeZeros chunk pos target = List.replicate (target - pos) 0 := by
  fun_induction writeZeros chunk pos target with
  | case1 pos hcond w ih =>
      rw [ih, List.replicate_append_replicate]
      congr 1
      omega
  | case2 pos hcond =>
      have hzero : target - pos = 0 := by omega
      rw [hzero, List.replicate_zero]

theorem copyRegion_eq (chunk : Nat) (hchunk : 0 < chunk) (file : List Byte) (copied : Nat) :
    copyRegion chunk file copied file.length = some (file.drop copied) := by
  fun_induction copyRegion chunk file copied file.length with
  | case1 copied hlt got hgot ih =>
      have hlen : got.length = min (file.length - copied) chunk := by
        simp only [got, List.length_take, List.length_drop]
        omega
      have hcut : file.drop copied = got ++ file.drop (copied + got.length) := by
        rw [← List.drop_drop, hlen]
        exact (List.take_append_drop _ _).symm
      rw [ih, Option.map_some, ← hcut]
  | case2 copied hlt got hgot =>
      have hlen : got.length = min (file.length - copied) chunk := by
        simp only [got, List.length_take, List.length_drop]
        omega
      omega
  | case3 copied hge => rw [List.drop_eq_nil_of_le (by omega)]

/-! The two layouts -/

/-- The payloads in emit order. -/
def payloads (emitted : List Emission) : List (List Byte) := emitted.map Emission.bytes

/-- A tensor once the in-RAM mode has placed it. -/
def Emission.placed (e : Emission) (off : Nat) : EmitTensor := { e.push with dataOff := off }

/-- A tensor once it is streamed out. -/
def Emission.streamed (e : Emission) (off : Nat) : EmitTensor :=
  { e.push with dataOff := off, blake3 := H.blake3 e.bytes, bytes := none }

theorem emitAll_ram (emitted : List Emission) :
    emitAll H none emitted = (none, emitted.map Emission.push) := by
  induction emitted with
  | nil => rfl
  | cons e rest ih => simp only [emitAll, ih, List.map_cons]

theorem emitAll_stream (st : Stream) (emitted : List Emission) :
    emitAll H (some st) emitted =
      (some ⟨st.file ++ image 0 spTensorAlign st.off (payloads emitted),
          cursor spTensorAlign st.off (payloads emitted)⟩,
        List.zipWith (Emission.streamed H) emitted
          (starts spTensorAlign st.off (payloads emitted))) := by
  induction emitted generalizing st with
  | nil => simp [emitAll, payloads, image, cursor, starts]
  | cons e rest ih =>
      have hle : st.off ≤ alignUp st.off spTensorAlign := le_alignUp (by decide) _
      have hoff : st.off + (alignUp st.off spTensorAlign - st.off) =
          alignUp st.off spTensorAlign := by omega
      have hpad := writeZeros_eq 64 (by decide) st.off (alignUp st.off spTensorAlign)
      have hcons : payloads (e :: rest) = e.bytes :: payloads rest := rfl
      rw [hcons]
      simp only [emitAll, emitStreamOne, Emission.push, Option.getD_some, hpad,
        List.length_replicate, hoff, ih, image, cursor, starts, List.zipWith_cons_cons,
        List.append_assoc]
      rfl

theorem assignOffsets_eq (pos : Nat) (emitted : List Emission) :
    assignOffsets pos (emitted.map Emission.push) =
      (List.zipWith Emission.placed emitted (starts spTensorAlign pos (payloads emitted)),
        cursor spTensorAlign pos (payloads emitted)) := by
  induction emitted generalizing pos with
  | nil => rfl
  | cons e rest ih =>
      have hcons : payloads (e :: rest) = e.bytes :: payloads rest := rfl
      rw [hcons]
      simp only [List.map_cons, assignOffsets, ih, starts, cursor, List.zipWith_cons_cons]
      rfl

theorem writeRegion_eq (pos pos' : Nat) (emitted : List Emission) :
    writeRegion pos
        (List.zipWith Emission.placed emitted (starts spTensorAlign pos' (payloads emitted))) =
      image 0 spTensorAlign pos (payloads emitted) := by
  induction emitted generalizing pos pos' with
  | nil => rfl
  | cons e rest ih =>
      have hle : pos ≤ alignUp pos spTensorAlign := le_alignUp (by decide) _
      have hoff : pos + (alignUp pos spTensorAlign - pos) = alignUp pos spTensorAlign := by
        omega
      have hpad := writeZeros_eq 65536 (by decide) pos (alignUp pos spTensorAlign)
      have hcons : payloads (e :: rest) = e.bytes :: payloads rest := rfl
      rw [hcons]
      simp only [starts, List.zipWith_cons_cons, writeRegion, image, Emission.placed,
        Emission.push, hpad, List.length_replicate, hoff, Option.getD_some]
      rw [← ih]

/-! The file of either mode -/

/-- The table entry of a tensor at its place. -/
def Emission.entry (e : Emission) (off : Nat) : TensorEntry := tableEntry H false (e.placed off)

/-- The table before it is sorted. -/
def entries (emitted : List Emission) : List TensorEntry :=
  List.zipWith (Emission.entry H) emitted (starts spTensorAlign 0 (payloads emitted))

/-! The file -/

section File

variable (S : TableSort) (env : Inputs) (created : BitVec 64) (emitted : List Emission)

def dataStart : Nat :=
  alignUp (spHeaderSize + emitted.length * spTensorEntrySize) spDataRegionAlign

def headerOf : ModelHeader where
  archId := env.archId
  archStructSize := env.archSize
  archStruct := env.archStruct
  tokenizerHash := env.tokSha
  vocabSize := env.archVocab
  tensorCount := BitVec.ofNat 32 emitted.length
  tensorTableOffset := spHeaderSize
  tensorDataOffset := dataStart emitted
  fileSize := dataStart emitted + cursor spTensorAlign 0 (payloads emitted)
  createdUnixSeconds := created
  transcodedFrom := H.xxh64 env.path

/-- What lies behind the header. -/
def bodyOf : List Byte :=
  (S.qsort (entries H emitted)).flatMap TensorEntry.bytes ++
    List.replicate (dataStart emitted - (spHeaderSize + emitted.length * spTensorEntrySize)) 0 ++
    image 0 spTensorAlign 0 (payloads emitted)

def fileOf : ModelFile where
  header := headerOf H env created emitted
  table := S.qsort (entries H emitted)
  bytes := (headerOf H env created emitted).bytes H ++ bodyOf H S emitted

/-- Either mode writes that file. -/
theorem transcode_eq (stream : Bool) :
    transcode H S env stream created emitted = some (fileOf H S env created emitted) := by
  have hcount : ∀ {γ : Type} (f : Emission → Nat → γ),
      (List.zipWith f emitted (starts spTensorAlign 0 (payloads emitted))).length =
        emitted.length := by
    intro γ f
    simp [payloads]
  have hpad := writeZeros_eq 65536 (by decide)
    (spHeaderSize + emitted.length * spTensorEntrySize) (dataStart emitted)
  cases stream with
  | true =>
      have hsize := image_length (a := spTensorAlign) (by decide) 0 0 (payloads emitted)
      rw [Nat.zero_add] at hsize
      have hcopy := copyRegion_eq 4194304 (by decide) (image 0 spTensorAlign 0 (payloads emitted)) 0
      rw [hsize, List.drop_zero] at hcopy
      rw [dataStart] at hpad
      simp only [transcode, if_true, emitAll_stream, List.nil_append, hcopy, Option.map_some,
        hcount, List.map_zipWith, hpad]
      simp only [fileOf, bodyOf, List.append_assoc]
      rfl
  | false =>
      rw [dataStart] at hpad
      simp only [transcode, Bool.false_eq_true, if_false, emitAll_ram, assignOffsets_eq,
        writeRegion_eq, Option.map_some, hcount, List.map_zipWith, hpad]
      simp only [fileOf, bodyOf, List.append_assoc]
      rfl

end File

/-! What a file holds -/

theorem cstring_length {n : Nat} {s : List Byte} (h : s.length ≤ n) :
    (cstring n s).length = n := by
  rw [cstring, List.length_append, List.length_replicate]
  omega

theorem flatMap_length_const {γ δ : Type*} {f : γ → List δ} {k : Nat} {l : List γ}
    (h : ∀ x ∈ l, (f x).length = k) : (l.flatMap f).length = l.length * k := by
  induction l with
  | nil => simp
  | cons x rest ih =>
      have hfirst := h x List.mem_cons_self
      have hrest := ih fun y hy => h y (List.mem_cons_of_mem x hy)
      rw [List.flatMap_cons, List.length_append, hfirst, hrest, List.length_cons, Nat.succ_mul,
        Nat.add_comm]

theorem entry_bytes_length (e : Emission) (off : Nat) :
    (e.entry H off).bytes.length = spTensorEntrySize := by
  have hname : (e.entry H off).name.length ≤ 80 := by
    have hle : (snprintf 80 (snprintf 80 e.name)).length ≤ 80 := by
      rw [snprintf, List.length_take]
      omega
    exact hle
  have hdims : ((List.ofFn (e.entry H off).dims).flatMap
      fun d => LittleEndian.bytes 8 d.toNat).length = 64 := by
    rw [flatMap_length_const fun d _ => LittleEndian.bytes_length 8 d.toNat, List.length_ofFn]
  simp only [TensorEntry.bytes, List.length_append, cstring_length hname,
    LittleEndian.bytes_length, hdims, List.length_ofFn, List.length_replicate]
  rfl

theorem front_length (h : ModelHeader) : h.front.length = 344 := by
  simp only [ModelHeader.front, List.length_append, LittleEndian.bytes_length, List.length_ofFn]

theorem header_bytes_length (h : ModelHeader) : (h.bytes H).length = spHeaderSize := by
  simp only [ModelHeader.bytes, ModelHeader.covered, List.length_append,
    LittleEndian.bytes_length, front_length, List.length_replicate]
  rfl

theorem mem_entries {emitted : List Emission} {x : TensorEntry} (hx : x ∈ entries H emitted) :
    ∃ (e : Emission) (off : Nat), x = e.entry H off := by
  rw [entries, List.mem_iff_getElem?] at hx
  obtain ⟨i, hi⟩ := hx
  rw [List.getElem?_zipWith] at hi
  split at hi
  · rename_i e off _ _
    exact ⟨e, off, (Option.some.inj hi).symm⟩
  · cases hi

theorem entries_length (emitted : List Emission) :
    (entries H emitted).length = emitted.length := by
  simp [entries, payloads]

/-- The entry of a tensor, and where it starts. -/
theorem entries_at {emitted : List Emission} {i : Nat} {e : Emission}
    (he : emitted[i]? = some e) :
    ∃ off, (starts spTensorAlign 0 (payloads emitted))[i]? = some off ∧
      (payloads emitted)[i]? = some e.bytes ∧ (entries H emitted)[i]? = some (e.entry H off) := by
  have hi : i < (starts spTensorAlign 0 (payloads emitted)).length := by
    have hlt := (List.getElem?_eq_some_iff.mp he).1
    simpa [payloads] using hlt
  have hoff := List.getElem?_eq_getElem hi
  refine ⟨_, hoff, ?_, ?_⟩
  · rw [payloads, List.getElem?_map, he, Option.map_some]
  · rw [entries, List.getElem?_zipWith, he, hoff]

/-- What is laid down for the emitted tensors: the table lists their entries by hash, and the
entries, in emit order, name ranges that are aligned, one behind the other, in the declared
file, and hold what was emitted. -/
structure LaidOut (emitted : List Emission) (m : ModelFile) : Prop where
  size : m.bytes.length = m.header.fileSize
  sorted : m.table.Pairwise fun x y => x.nameHash.toNat ≤ y.nameHash.toNat
  ranges : ∃ inOrder : List TensorEntry, m.table.Perm inOrder ∧
    inOrder.length = emitted.length ∧
    (∀ (i : Nat) (e : Emission) (x : TensorEntry), emitted[i]? = some e → inOrder[i]? = some x →
      x.name = snprintf 80 e.name ∧ x.sizeBytes = e.bytes.length ∧
        spTensorAlign ∣ m.header.tensorDataOffset + x.offsetInData ∧
        m.header.tensorDataOffset + x.offsetInData + x.sizeBytes ≤ m.header.fileSize ∧
        (m.bytes.drop (m.header.tensorDataOffset + x.offsetInData)).take x.sizeBytes =
          e.bytes) ∧
    ∀ (i k : Nat) (x y : TensorEntry), i < k → inOrder[i]? = some x → inOrder[k]? = some y →
      x.offsetInData + x.sizeBytes ≤ y.offsetInData

theorem fileOf_front (S : TableSort) (env : Inputs) (created : BitVec 64)
    (emitted : List Emission) :
    ((fileOf H S env created emitted).bytes.take (dataStart emitted)).length =
        dataStart emitted ∧
      (fileOf H S env created emitted).bytes.drop (dataStart emitted) =
        image 0 spTensorAlign 0 (payloads emitted) := by
  have htable : ((S.qsort (entries H emitted)).flatMap TensorEntry.bytes).length =
      emitted.length * spTensorEntrySize := by
    rw [flatMap_length_const (k := spTensorEntrySize), (S.perm _).length_eq, entries_length]
    intro x hx
    obtain ⟨e, off, rfl⟩ := mem_entries H ((S.perm _).mem_iff.mp hx)
    exact entry_bytes_length H e off
  have hle : spHeaderSize + emitted.length * spTensorEntrySize ≤ dataStart emitted :=
    le_alignUp (by decide) _
  have hhead : ((headerOf H env created emitted).bytes H ++
      ((S.qsort (entries H emitted)).flatMap TensorEntry.bytes ++
        List.replicate
          (dataStart emitted - (spHeaderSize + emitted.length * spTensorEntrySize)) 0)).length =
      dataStart emitted := by
    rw [List.length_append, List.length_append, header_bytes_length, htable,
      List.length_replicate]
    omega
  have hsplit : (fileOf H S env created emitted).bytes =
      ((headerOf H env created emitted).bytes H ++
        ((S.qsort (entries H emitted)).flatMap TensorEntry.bytes ++
          List.replicate
            (dataStart emitted - (spHeaderSize + emitted.length * spTensorEntrySize)) 0)) ++
        image 0 spTensorAlign 0 (payloads emitted) := by
    simp only [fileOf, bodyOf, List.append_assoc]
  rw [hsplit]
  constructor
  · rw [List.take_left' hhead, hhead]
  · rw [List.drop_left' hhead]

theorem fileOf_laidOut (S : TableSort) (env : Inputs) (created : BitVec 64)
    (emitted : List Emission) : LaidOut emitted (fileOf H S env created emitted) := by
  obtain ⟨hfront, hdata⟩ := fileOf_front H S env created emitted
  have hend := image_length (a := spTensorAlign) (by decide) 0 0 (payloads emitted)
  rw [Nat.zero_add] at hend
  refine ⟨?_, S.sorted _, entries H emitted, S.perm _, entries_length H emitted, ?_, ?_⟩
  · have hwhole := congrArg List.length
      (List.take_append_drop (dataStart emitted) (fileOf H S env created emitted).bytes)
    rw [List.length_append, hfront, hdata, hend] at hwhole
    exact hwhole.symm
  · intro i e x he hx
    obtain ⟨off, hoff, hbytes, hentry⟩ := entries_at H he
    rw [hentry, Option.some_inj] at hx
    subst hx
    obtain ⟨hdvd, _, hfits⟩ := starts_bounds (by decide) hoff hbytes
    refine ⟨?_, rfl, ?_, ?_, ?_⟩
    · have htwice : snprintf 80 (snprintf 80 e.name) = snprintf 80 e.name := by
        simp [snprintf, List.take_take]
      exact htwice
    · have hregion : spTensorAlign ∣ dataStart emitted :=
        Nat.dvd_trans (by decide) (dvd_alignUp _ spDataRegionAlign)
      exact Nat.dvd_add hregion hdvd
    · have hsum : dataStart emitted + off + e.bytes.length ≤
          dataStart emitted + cursor spTensorAlign 0 (payloads emitted) := by omega
      exact hsum
    · have hfound := image_at (by decide) (0 : Byte) hoff hbytes
      have hat : (fileOf H S env created emitted).bytes.drop (dataStart emitted + off) =
          (image 0 spTensorAlign 0 (payloads emitted)).drop off := by
        rw [← List.drop_drop, hdata]
      rw [Nat.sub_zero, ← hat] at hfound
      exact hfound
  · intro i k x y hik hx hy
    have hlen := entries_length H emitted
    have hi : i < emitted.length := by
      rw [← hlen]
      exact (List.getElem?_eq_some_iff.mp hx).1
    have hk : k < emitted.length := by
      rw [← hlen]
      exact (List.getElem?_eq_some_iff.mp hy).1
    obtain ⟨off, hoff, hbytes, hentry⟩ := entries_at H (List.getElem?_eq_getElem hi)
    obtain ⟨off', hoff', _, hentry'⟩ := entries_at H (List.getElem?_eq_getElem hk)
    rw [hentry, Option.some_inj] at hx
    rw [hentry', Option.some_inj] at hy
    subst hx hy
    exact starts_apart (by decide) hik hoff hbytes hoff'

theorem getElem?_patch {γ : Type*} {a b d c : List γ} (hlen : b.length = d.length) {i : Nat}
    (hi : i < a.length ∨ a.length + b.length ≤ i) :
    (a ++ (b ++ c))[i]? = (a ++ (d ++ c))[i]? := by
  rcases hi with hi | hi
  · rw [List.getElem?_append_left hi, List.getElem?_append_left hi]
  · rw [List.getElem?_append_right (by omega), List.getElem?_append_right (by omega),
      List.getElem?_append_right (by omega), List.getElem?_append_right (by omega), hlen]

/-- Two files written at different times differ in the timestamp and the checksum only. -/
theorem fileOf_time (S : TableSort) (env : Inputs) (created created' : BitVec 64)
    (emitted : List Emission) {i : Nat} (htime : ¬(344 ≤ i ∧ i < 352))
    (hcrc : ¬(360 ≤ i ∧ i < 364)) :
    (fileOf H S env created emitted).bytes[i]? = (fileOf H S env created' emitted).bytes[i]? := by
  have hlen := front_length (headerOf H env created' emitted)
  have hstamp := getElem?_patch (a := (headerOf H env created' emitted).front)
    (b := LittleEndian.bytes 8 created.toNat) (d := LittleEndian.bytes 8 created'.toNat)
    (c := LittleEndian.bytes 8 (H.xxh64 env.path).toNat ++
      (LittleEndian.bytes 4 (H.crc32 (headerOf H env created emitted).covered).toNat ++
        (List.replicate 148 0 ++ bodyOf H S emitted)))
    (by rw [LittleEndian.bytes_length, LittleEndian.bytes_length])
    (i := i) (by rw [hlen, LittleEndian.bytes_length]; omega)
  have hsum := getElem?_patch
    (a := (headerOf H env created' emitted).front ++ (LittleEndian.bytes 8 created'.toNat ++
      LittleEndian.bytes 8 (H.xxh64 env.path).toNat))
    (b := LittleEndian.bytes 4 (H.crc32 (headerOf H env created emitted).covered).toNat)
    (d := LittleEndian.bytes 4 (H.crc32 (headerOf H env created' emitted).covered).toNat)
    (c := List.replicate 148 0 ++ bodyOf H S emitted)
    (by rw [LittleEndian.bytes_length, LittleEndian.bytes_length])
    (i := i) (by
      rw [List.length_append, List.length_append, hlen, LittleEndian.bytes_length,
        LittleEndian.bytes_length, LittleEndian.bytes_length]
      omega)
  simp only [List.append_assoc] at hsum
  have hsame : (headerOf H env created emitted).front =
      (headerOf H env created' emitted).front := rfl
  have hbytes : ∀ created, (fileOf H S env created emitted).bytes =
      (headerOf H env created emitted).front ++ (LittleEndian.bytes 8 created.toNat ++
        (LittleEndian.bytes 8 (H.xxh64 env.path).toNat ++
          (LittleEndian.bytes 4 (H.crc32 (headerOf H env created emitted).covered).toNat ++
            (List.replicate 148 0 ++ bodyOf H S emitted)))) := by
    intro created
    have hstart : (fileOf H S env created emitted).bytes =
        (headerOf H env created emitted).bytes H ++ bodyOf H S emitted := rfl
    have hcovered : (headerOf H env created emitted).covered =
        (headerOf H env created emitted).front ++ LittleEndian.bytes 8 created.toNat ++
          LittleEndian.bytes 8 (H.xxh64 env.path).toNat := rfl
    rw [hstart, ModelHeader.bytes]
    nth_rewrite 1 [hcovered]
    simp only [List.append_assoc]
  rw [hbytes, hbytes, hsame]
  exact hstamp.trans hsum

/-- Streaming and in-RAM transcoding write the same file. -/
theorem transcode_agree (S : TableSort) (env : Inputs) (created created' : BitVec 64)
    (emitted : List Emission) :
    ∃ streamed inRam : ModelFile,
      transcode H S env true created emitted = some streamed ∧
      transcode H S env false created' emitted = some inRam ∧
      (created = created' → streamed.bytes = inRam.bytes) ∧
      (∀ i, ¬(344 ≤ i ∧ i < 352) → ¬(360 ≤ i ∧ i < 364) →
        streamed.bytes[i]? = inRam.bytes[i]?) ∧
      LaidOut emitted streamed ∧ LaidOut emitted inRam := by
  refine ⟨_, _, transcode_eq H S env created emitted true,
    transcode_eq H S env created' emitted false, ?_, ?_, fileOf_laidOut H S env created emitted,
    fileOf_laidOut H S env created' emitted⟩
  · intro hsame
    rw [hsame]
  · intro i htime hcrc
    exact fileOf_time H S env created created' emitted htime hcrc

/-- A weight's scales lie right behind its codes, but for padding. -/
theorem scale_adjacent {W : GgufTensor} {codes scale : Emission} {ws before after : List Emission}
    (hadd : addWeight W codes scale = some ws) {x y : TensorEntry}
    (hx : (entries H (before ++ (ws ++ after)))[before.length]? = some x)
    (hy : (entries H (before ++ (ws ++ after)))[before.length + 1]? = some y) :
    y.offsetInData = alignUp (x.offsetInData + x.sizeBytes) spTensorAlign := by
  rw [addWeight] at hadd
  split at hadd
  · cases hadd
  · rw [Option.some_inj] at hadd
    subst hadd
    have hcodes : (before ++ ([codes, scale] ++ after))[before.length]? = some codes := by
      simp
    have hscale : (before ++ ([codes, scale] ++ after))[before.length + 1]? = some scale := by
      simp
    obtain ⟨off, hoff, hbytes, hentry⟩ := entries_at H hcodes
    obtain ⟨off', hoff', _, hentry'⟩ := entries_at H hscale
    rw [hentry, Option.some_inj] at hx
    rw [hentry', Option.some_inj] at hy
    subst hx hy
    exact starts_succ hoff hbytes hoff'

/-- The names of two F32 tensors. -/
def outputNorm : List Byte :=
  ascii ['o', 'u', 't', 'p', 'u', 't', '_', 'n', 'o', 'r', 'm', '.', 'w', 'e', 'i', 'g', 'h', 't']

def ropeFreqs : List Byte :=
  ascii ['r', 'o', 'p', 'e', '_', 'f', 'r', 'e', 'q', 's', '.', 'w', 'e', 'i', 'g', 'h', 't']

/-- Hashes with the XXH64 values of those names. -/
def nameHashes : Hashes where
  xxh64 s := if s = outputNorm then 0xaa28646f24653513 else 0x959e592c464fe1cb
  blake3 _ _ := 0
  crc32 _ := 0

def insertionTable : TableSort where
  qsort tbl := tbl.insertionSort fun x y => x.nameHash.toNat ≤ y.nameHash.toNat
  perm tbl := List.perm_insertionSort _ tbl
  sorted tbl := List.pairwise_insertionSort _ tbl

/-- The table is sorted by hash, the data region is in emit order: the second tensor's entry
comes first. -/
theorem table_not_in_data_order :
    ∃ m : ModelFile, transcode nameHashes insertionTable
        ⟨7, 0, fun _ => 0, 0, fun _ => 0, []⟩ false 0
        [⟨outputNorm, 1, 1, dims1 1, 4, [0, 0, 128, 63]⟩,
          ⟨ropeFreqs, 1, 1, dims1 1, 4, [0, 0, 0, 64]⟩] = some m ∧
      ¬m.table.Pairwise fun x y => x.offsetInData + x.sizeBytes ≤ y.offsetInData := by
  refine ⟨_, transcode_eq _ _ _ _ _ false, ?_⟩
  decide

end ShannonPrime.Transcode
