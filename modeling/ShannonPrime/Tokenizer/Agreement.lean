import ShannonPrime.Lib.Traverse
import ShannonPrime.Tokenizer.Sptb

/-!
The two readers of a Gemma 4 blob. What the loader accepts has its records in the blob, and the
parser then fails on nothing but a text that is not UTF-8, and on a merge without a space, which
the loader keeps as one that never applies.
-/

namespace ShannonPrime.Tokenizer

open Fetch
open Records

namespace View

variable {v : View}

/-! What a step that ends with a value has read -/

theorem u32_value (hsize : v.file.length < 2 ^ 63) {pos : Nat} {r : Nat × Nat}
    (hpos : v.base + pos < 2 ^ 64) (h : v.u32 pos = .value r) :
    pos + 4 ≤ v.bs ∧ v.base + (pos + 4) ≤ v.file.length ∧ r = (v.word pos, pos + 4) := by
  rw [u32] at h
  split at h
  · cases h
  · rename_i hroom
    obtain ⟨bytes, hbytes, h⟩ := Outcome.bind_eq_value.mp h
    rw [fetch, Nat.mod_eq_of_lt hpos] at hbytes
    split at hbytes
    · rename_i hin
      have hword : (pos + 4) % 2 ^ 64 = pos + 4 := Nat.mod_eq_of_lt (by omega)
      cases hbytes
      rw [number_slice (Nat.le_refl 4), hword] at h
      cases h
      exact ⟨by omega, by omega, rfl⟩
    · cases hbytes

/-- Records whose lengths are read. -/
theorem records_value (hsize : v.file.length < 2 ^ 63) {n pos : Nat}
    {r : List (Nat × Nat) × Nat} (hpos : v.base + pos ≤ v.file.length + 2 ^ 32)
    (hbs : pos ≤ v.bs) (h : v.records n pos = .value r) :
    finish 4 v.word n pos ≤ v.bs ∧
      (n = 0 ∨ v.base + lengthsEnd 4 v.word n pos ≤ v.file.length) ∧
        r = (Records.spans 4 v.word n pos, finish 4 v.word n pos) := by
  induction n generalizing pos r with
  | zero =>
      cases h
      exact ⟨hbs, Or.inl rfl, rfl⟩
  | succ n ih =>
      have hlen := v.word_lt pos
      rw [records] at h
      obtain ⟨q, hq, h⟩ := Outcome.bind_eq_value.mp h
      obtain ⟨hfour, hin, rfl⟩ := u32_value hsize (by omega) hq
      have hword : (pos + 4 + v.word pos) % 2 ^ 64 = pos + 4 + v.word pos :=
        Nat.mod_eq_of_lt (by omega)
      dsimp only at h
      rw [hword] at h
      split at h
      · cases h
      · obtain ⟨q, hq, h⟩ := Outcome.bind_eq_value.mp h
        obtain ⟨hend, hlengths, rfl⟩ := ih (by omega) (by omega) hq
        cases h
        refine ⟨hend, Or.inr ?_, rfl⟩
        rw [lengthsEnd_succ]
        split
        · exact hin
        · rename_i hn
          exact hlengths.resolve_left hn

theorem fetch_value {bytes : List UInt8} {a n : Nat} {r : List UInt8} (haddr : a < 2 ^ 64)
    (hin : a ≤ bytes.length) (h : fetch bytes a n = .value r) :
    a + n ≤ bytes.length ∧ r = slice bytes a n := by
  rw [fetch_from haddr hin] at h
  split at h
  · cases h
    exact ⟨by assumption, rfl⟩
  · cases h

theorem texts_value (hsize : v.file.length < 2 ^ 63) {l : List (Nat × Nat)}
    {r : List (List UInt8)} (hin : ∀ s ∈ l, v.base + s.1 ≤ v.file.length)
    (h : v.texts l = .value r) :
    (∀ s ∈ l, v.base + s.1 + s.2 ≤ v.file.length) ∧ r = l.map v.text := by
  induction l generalizing r with
  | nil =>
      cases h
      exact ⟨List.forall_mem_nil _, rfl⟩
  | cons s l ih =>
      have hs := hin s List.mem_cons_self
      rw [texts] at h
      obtain ⟨t, ht, h⟩ := Outcome.bind_eq_value.mp h
      obtain ⟨hroom, rfl⟩ := fetch_value (by omega) hs ht
      obtain ⟨rest, hrest, h⟩ := Outcome.bind_eq_value.mp h
      obtain ⟨hrooms, rfl⟩ := ih (fun s' hs' => hin s' (List.mem_cons_of_mem _ hs')) hrest
      cases h
      exact ⟨List.forall_mem_cons.mpr ⟨hroom, hrooms⟩, rfl⟩

theorem lines_value (hsize : v.file.length < 2 ^ 63) {m : Hmap} {l : List (Nat × Nat)}
    {r : List (List UInt8)} (hin : ∀ s ∈ l, v.base + s.1 ≤ v.file.length)
    (h : v.lines m l = .value r) :
    (∀ s ∈ l, v.base + s.1 + s.2 ≤ v.file.length) ∧ r = l.map v.text := by
  induction l generalizing r with
  | nil =>
      cases h
      exact ⟨List.forall_mem_nil _, rfl⟩
  | cons s l ih =>
      have hs := hin s List.mem_cons_self
      rw [lines] at h
      obtain ⟨t, ht, h⟩ := Outcome.bind_eq_value.mp h
      obtain ⟨hroom, rfl⟩ := fetch_value (by omega) hs ht
      split at h
      · obtain ⟨rest, hrest, h⟩ := Outcome.bind_eq_value.mp h
        obtain ⟨hrooms, rfl⟩ := ih (fun s' hs' => hin s' (List.mem_cons_of_mem _ hs')) hrest
        cases h
        exact ⟨List.forall_mem_cons.mpr ⟨hroom, hrooms⟩, rfl⟩
      · cases h

/-- Records that are found and read lie in the file. -/
theorem finish_inside {n pos : Nat} (hpos : v.base + pos ≤ v.file.length)
    (h : ∀ s ∈ Records.spans 4 v.word n pos, v.base + s.1 + s.2 ≤ v.file.length) :
    v.base + finish 4 v.word n pos ≤ v.file.length := by
  have hle : finish 4 v.word n pos ≤ v.file.length - v.base := by
    apply finish_le
    · omega
    · intro s hs
      have hroom := h s hs
      omega
  omega

theorem spans_start {n pos : Nat}
    (h : n = 0 ∨ v.base + lengthsEnd 4 v.word n pos ≤ v.file.length) :
    ∀ s ∈ Records.spans 4 v.word n pos, v.base + s.1 ≤ v.file.length := by
  intro s hs
  have hstart := start_le hs
  rcases h with rfl | hle
  · exact absurd hs List.not_mem_nil
  · omega

theorem loadTokens_value (hsize : v.file.length < 2 ^ 63) {n pos : Nat}
    {r : List (List UInt8) × Nat} (hpos : v.base + pos ≤ v.file.length) (hbs : pos ≤ v.bs)
    (h : v.loadTokens n pos = .value r) :
    finish 4 v.word n pos ≤ v.bs ∧ v.base + finish 4 v.word n pos ≤ v.file.length ∧
      r = ((Records.spans 4 v.word n pos).map v.text, finish 4 v.word n pos) := by
  rw [loadTokens] at h
  obtain ⟨q, hq, h⟩ := Outcome.bind_eq_value.mp h
  obtain ⟨hend, hlengths, rfl⟩ := records_value hsize (by omega) hbs hq
  obtain ⟨t, ht, h⟩ := Outcome.bind_eq_value.mp h
  obtain ⟨hin, rfl⟩ := texts_value hsize (spans_start hlengths) ht
  cases h
  exact ⟨hend, finish_inside hpos hin, rfl⟩

/-- The merges of a Gemma 4 vocabulary, each of which is read. -/
theorem loadMerges_value (hsize : v.file.length < 2 ^ 63) {m : Hmap} {n pos : Nat}
    {r : List (List UInt8)} (hpos : v.base + pos ≤ v.file.length) (hbs : pos ≤ v.bs)
    (h : v.loadMerges .gemma4 m n pos = .value r) :
    finish 4 v.word n pos ≤ v.bs ∧ v.base + finish 4 v.word n pos ≤ v.file.length ∧
      r = (Records.spans 4 v.word n pos).map v.text := by
  rw [loadMerges] at h
  split at h
  · obtain ⟨q, hq, h⟩ := Outcome.bind_eq_value.mp h
    obtain ⟨hend, hlengths, rfl⟩ := records_value hsize (by omega) hbs hq
    dsimp only at h
    rw [g4Build] at h
    split at h
    · cases h
    · obtain ⟨t, ht, h⟩ := Outcome.bind_eq_value.mp h
      obtain ⟨hin, rfl⟩ := lines_value hsize (spans_start hlengths) ht
      split at h
      · cases h
        exact ⟨hend, finish_inside hpos hin, rfl⟩
      · cases h
  · rw [if_pos rfl] at h
    cases h

/-- What an accepted blob of the family is. -/
structure AcceptedG4 (v : View) (t : TokFile) : Prop where
  magic : v.word 0 = sptbMagic
  typeId : v.typeId = 4
  tok : t.tok = v.tokens
  merges : t.merges = v.merges .gemma4
  room : v.mergesEnd .gemma4 ≤ v.bs
  inside : v.base + v.mergesEnd .gemma4 ≤ v.file.length

theorem finishLoad_value {hdr : TokHeader} {family : Family} {nv : Nat}
    {tok : List (List UInt8)} {scores : List UInt8} {merges : List (List UInt8)} {t : TokFile}
    (h : finishLoad hdr family nv tok scores merges = .value t) :
    t.family = family ∧ t.tok = tok ∧ t.merges = merges := by
  rw [finishLoad] at h
  split at h
  · cases h
  · cases h
    exact ⟨rfl, rfl, rfl⟩

theorem loadSections_family {hdr : TokHeader} {family : Family} {nv nm : Nat} {t : TokFile}
    (h : v.loadSections hdr family nv nm = .value t) : t.family = family := by
  rw [loadSections] at h
  obtain ⟨_, -, h⟩ := Outcome.bind_eq_value.mp h
  dsimp only at h
  split at h
  · obtain ⟨_, -, h⟩ := Outcome.bind_eq_value.mp h
    obtain ⟨_, -, h⟩ := Outcome.bind_eq_value.mp h
    exact (finishLoad_value h).1
  · obtain ⟨_, -, h⟩ := Outcome.bind_eq_value.mp h
    obtain ⟨_, -, h⟩ := Outcome.bind_eq_value.mp h
    exact (finishLoad_value h).1

theorem familyOf_gemma4 {typeId : Nat} (h : familyOf typeId = some .gemma4) : typeId = 4 := by
  rw [familyOf] at h
  split at h
  · cases h
  · split at h
    · cases h
    · split at h
      · assumption
      · cases h

theorem loadBlob_acceptedG4 (hsize : v.file.length < 2 ^ 63) (hword : v.base < 2 ^ 64)
    {hdr : TokHeader} {t : TokFile} (h : v.loadBlob hdr = .value t)
    (hfamily : t.family = .gemma4) : v.AcceptedG4 t := by
  rw [loadBlob] at h
  obtain ⟨q, hq, h⟩ := Outcome.bind_eq_value.mp h
  obtain ⟨-, hin, rfl⟩ := u32_value hsize (by omega) hq
  dsimp only at h
  split at h
  · cases h
  · rename_i hmagic
    obtain ⟨q, hq, h⟩ := Outcome.bind_eq_value.mp h
    obtain ⟨-, hin, rfl⟩ := u32_value hsize (by omega) hq
    obtain ⟨q, hq, h⟩ := Outcome.bind_eq_value.mp h
    obtain ⟨-, hin, rfl⟩ := u32_value hsize (by dsimp only; omega) hq
    obtain ⟨q, hq, h⟩ := Outcome.bind_eq_value.mp h
    obtain ⟨hbs, hin, rfl⟩ := u32_value hsize (by dsimp only; omega) hq
    dsimp only at h hbs hin
    split at h
    · cases h
    · rename_i family hfam
      split at h
      · cases h
      · have hsame := loadSections_family h
        rw [hfamily] at hsame
        subst hsame
        rw [loadSections] at h
        obtain ⟨q, hq, h⟩ := Outcome.bind_eq_value.mp h
        obtain ⟨hend, hinside, rfl⟩ := loadTokens_value hsize (by omega) (by omega) hq
        obtain ⟨q, hq, h⟩ := Outcome.bind_eq_value.mp h
        cases hq
        obtain ⟨merges, hmerges, h⟩ := Outcome.bind_eq_value.mp h
        obtain ⟨hend', hinside', rfl⟩ := loadMerges_value hsize hinside hend hmerges
        obtain ⟨-, htok, hmerge⟩ := finishLoad_value h
        exact ⟨not_not.mp hmagic, familyOf_gemma4 hfam, htok, hmerge, hend', hinside'⟩

end View

/-! The blob of a file, as the parser gets it -/

def blobOf (file : List UInt8) : List UInt8 :=
  slice file (fileHeader file).blobOffset (fileHeader file).blobSize

/-- The merge that a pair is, if it can apply at all: no symbol is empty. -/
def effective (pair : List UInt8 × List UInt8) : Option (List UInt8 × List UInt8) :=
  if pair.1 = [] ∨ pair.2 = [] then none else some pair

theorem splitMerge_isSome {line : List UInt8} : (∃ pair, splitMerge line = some pair) ↔
    (0x20 : UInt8) ∈ line := by
  constructor
  · rintro ⟨pair, hpair⟩
    rw [splitMerge] at hpair
    obtain ⟨sep, hsep, -⟩ := Option.map_eq_some_iff.mp hpair
    obtain ⟨hlt, hspace, -⟩ := List.findIdx?_eq_some_iff_getElem.mp hsep
    rw [← eq_of_beq hspace]
    exact List.getElem_mem hlt
  · intro hmem
    rw [splitMerge]
    cases hfind : line.findIdx? fun b => b == 0x20 with
    | none => exact absurd (List.findIdx?_eq_none_iff.mp hfind _ hmem) (by decide)
    | some sep => exact ⟨_, rfl⟩

/-- Both readers take a merge for the same pair, but for one that starts with a space and has a
pair behind it to the loader. -/
theorem effective_split {line : List UInt8} {pair : List UInt8 × List UInt8}
    (h : splitMerge line = some pair) :
    effective pair = g4Split line ↔ (line.head? = some 0x20 → g4Split line = none) := by
  rw [splitMerge] at h
  obtain ⟨sep, hsep, rfl⟩ := Option.map_eq_some_iff.mp h
  cases line with
  | nil => cases hsep
  | cons b rest =>
      rw [List.findIdx?_cons] at hsep
      split at hsep
      · rename_i hspace
        cases hsep
        have hnone : effective ((b :: rest).take 0, (b :: rest).drop (0 + 1)) = none :=
          if_pos (Or.inl rfl)
        have hhead : (b :: rest).head? = some 0x20 := congrArg some (eq_of_beq hspace)
        rw [hnone]
        exact ⟨fun heq _ => heq.symm, fun hall => (hall hhead).symm⟩
      · rename_i hspace
        obtain ⟨k, hk, rfl⟩ := Option.map_eq_some_iff.mp hsep
        have hhead : (b :: rest).head? ≠ some 0x20 := by
          intro hhead
          exact hspace (beq_iff_eq.mpr (Option.some.inj hhead))
        refine iff_of_true ?_ fun hbad => absurd hbad hhead
        rw [g4Split, List.drop_one, List.tail_cons, hk]
        dsimp only
        have hleft : (b :: rest).take (k + 1) ≠ [] := List.cons_ne_nil _ _
        have hright : (b :: rest).drop (k + 1 + 1) = [] ↔ k + 1 + 1 ≥ (b :: rest).length :=
          List.drop_eq_nil_iff
        rw [effective]
        dsimp only
        simp only [hleft, hright, false_or]

namespace View.AcceptedG4

variable {v : View} {t : TokFile}

/-- The numbers of the blob. -/
theorem number_blob {a : Nat} (ha : a + 4 ≤ v.bs) :
    number (slice v.file v.base v.bs) a 4 = v.word a := number_slice_at ha

theorem counts_inside (h : v.AcceptedG4 t) : 16 ≤ v.bs := by
  have htokens : 16 ≤ v.tokensEnd := le_finish
  have hmerges : v.tokensEnd ≤ v.mergesEnd .gemma4 := le_finish
  exact htokens.trans (hmerges.trans h.room)

/-- The records of the blob. -/
theorem records_blob {n pos : Nat} (hend : finish 4 v.word n pos ≤ v.bs) :
    recordTexts (slice v.file v.base v.bs) n pos = (Records.spans 4 v.word n pos).map v.text ∧
      recordsEnd (slice v.file v.base v.bs) n pos = finish 4 v.word n pos := by
  obtain ⟨hspans, hfinish⟩ : Records.spans 4 v.word n pos =
        Records.spans 4 (fun p => number (slice v.file v.base v.bs) p 4) n pos ∧
      finish 4 v.word n pos = finish 4 (fun p => number (slice v.file v.base v.bs) p 4) n pos :=
    spans_congr fun a ha => (number_blob (ha.trans hend)).symm
  rw [recordTexts, recordsEnd, ← hspans, ← hfinish]
  refine ⟨List.map_congr_left fun s hs => ?_, rfl⟩
  exact slice_slice ((mem_spans hs).2.trans hend)

/-- What the parser makes of an accepted blob. -/
theorem parse (h : v.AcceptedG4 t) {d : SptbData} :
    parseSptb (slice v.file v.base v.bs) = .ok d ↔
      (∀ tok ∈ t.tok, isUtf8 tok = true) ∧ (∀ line ∈ t.merges, isUtf8 line = true) ∧
        t.merges.mapM splitMerge = some d.merges ∧ d.typeId = 4 ∧ d.vocab = t.tok := by
  have hbs := h.counts_inside
  have hroom : finish 4 v.word v.nm v.tokensEnd ≤ v.bs := h.room
  have hend : finish 4 v.word v.nv 16 ≤ v.bs := le_finish.trans hroom
  have hnv : number (slice v.file v.base v.bs) 8 4 = v.nv := number_blob (by omega)
  have hnm : number (slice v.file v.base v.bs) 12 4 = v.nm := number_blob (by omega)
  obtain ⟨htokens, htokensEnd⟩ := records_blob hend
  obtain ⟨hmerges, hmergesEnd⟩ := records_blob hroom
  have hlast : recordsEnd (slice v.file v.base v.bs) v.nv 16 = v.tokensEnd := htokensEnd
  have hlength : (slice v.file v.base v.bs).length = min v.bs (v.file.length - v.base) :=
    slice_length
  have hinside : v.base + finish 4 v.word v.nm v.tokensEnd ≤ v.file.length := h.inside
  have htexts : recordTexts (slice v.file v.base v.bs) v.nv 16 = t.tok := htokens.trans h.tok.symm
  have hlines : recordTexts (slice v.file v.base v.bs) v.nm v.tokensEnd = t.merges :=
    hmerges.trans h.merges.symm
  rw [parseSptb_gemma4 ((number_blob (by omega)).trans h.magic)
    ((number_blob (by omega)).trans h.typeId) (by rw [hnv, hnm, hlast, hmergesEnd]; omega),
    hnv, hnm, hlast, htexts, hlines]

end View.AcceptedG4

theorem load_acceptedG4 {file : List UInt8} {t : TokFile}
    (h : spTokenizerLoadTokfile file = .value t) (hfamily : t.family = .gemma4) :
    (fileView file).AcceptedG4 t := by
  rcases Classical.em (HeaderAccepted file) with haccepted | hrefused
  · rw [load_eq haccepted] at h
    exact View.loadBlob_acceptedG4 haccepted.facts.1 (fileView_base_lt file) h hfamily
  · rw [load_rejected hrefused] at h
    cases h

/-- When the parser accepts what the loader does. -/
theorem parseSptb_ok_iff {file : List UInt8} {t : TokFile}
    (h : spTokenizerLoadTokfile file = .value t) (hfamily : t.family = .gemma4) :
    (∃ d, parseSptb (blobOf file) = .ok d) ↔
      (∀ tok ∈ t.tok, isUtf8 tok = true) ∧
        ∀ line ∈ t.merges, isUtf8 line = true ∧ (0x20 : UInt8) ∈ line := by
  have hparse : ∀ {d : SptbData}, parseSptb (blobOf file) = .ok d ↔ _ :=
    (load_acceptedG4 h hfamily).parse
  have hspaces : (∃ pairs, t.merges.mapM splitMerge = some pairs) ↔
      ∀ line ∈ t.merges, (0x20 : UInt8) ∈ line := by
    constructor
    · rintro ⟨pairs, hpairs⟩ line hline
      exact splitMerge_isSome.mp (Traverse.mapM_mem hpairs line hline)
    · intro hall
      obtain ⟨pairs, hpairs, -⟩ := Traverse.mapM_forall₂ (P := fun _ _ => True) |>.mpr
        fun line hline => (splitMerge_isSome.mpr (hall line hline)).imp fun _ hp => ⟨hp, trivial⟩
      exact ⟨pairs, hpairs⟩
  constructor
  · rintro ⟨d, hd⟩
    obtain ⟨htok, hutf, hpairs, -⟩ := hparse.mp hd
    exact ⟨htok, fun line hline => ⟨hutf line hline, hspaces.mp ⟨_, hpairs⟩ line hline⟩⟩
  · rintro ⟨htok, hlines⟩
    obtain ⟨pairs, hpairs⟩ := hspaces.mpr fun line hline => (hlines line hline).2
    exact ⟨⟨4, t.tok, pairs⟩, hparse.mpr ⟨htok, fun line hline => (hlines line hline).1, hpairs,
      rfl, rfl⟩⟩

/-- A Gemma 4 blob that the loader accepts is accepted by the parser just when its texts are
UTF-8 and every merge has a space. Its tokens are then the same, and so are the pairs in effect,
but for a merge that starts with a space before its pair. -/
theorem parseSptb_agrees (file : List UInt8) (t : TokFile)
    (hload : spTokenizerLoadTokfile file = .value t) (hfamily : t.family = .gemma4) :
    ((∃ d, parseSptb (blobOf file) = .ok d) ↔
      (∀ tok ∈ t.tok, isUtf8 tok = true) ∧
        ∀ line ∈ t.merges, isUtf8 line = true ∧ (0x20 : UInt8) ∈ line) ∧
      ∀ d, parseSptb (blobOf file) = .ok d →
        d.typeId = 4 ∧ d.vocab = t.tok ∧
          List.Forall₂ (fun line pair => effective pair = g4Split line ↔
            (line.head? = some 0x20 → g4Split line = none)) t.merges d.merges := by
  refine ⟨parseSptb_ok_iff hload hfamily, fun d hd => ?_⟩
  have hparse : ∀ {d : SptbData}, parseSptb (blobOf file) = .ok d ↔ _ :=
    (load_acceptedG4 hload hfamily).parse
  obtain ⟨-, -, hpairs, htype, hvocab⟩ := hparse.mp hd
  refine ⟨htype, hvocab, ?_⟩
  obtain ⟨pairs, hsame, hall⟩ := (Traverse.mapM_forall₂ (f := splitMerge)
    (P := fun line pair => effective pair = g4Split line ↔
      (line.head? = some 0x20 → g4Split line = none))).mpr fun line hline => by
    obtain ⟨pair, hpair⟩ := Traverse.mapM_mem hpairs line hline
    exact ⟨pair, hpair, effective_split hpair⟩
  rw [hpairs, Option.some_inj] at hsame
  rwa [hsame]

/-! A vocabulary of the byte tokens with one merge -/

def byteTokens : List (List UInt8) := (List.range 256).map byteName

def byteVocab (line : List UInt8) : GgufTok where
  model := some "gemma4"
  pre := none
  tokens := some byteTokens
  scores := none
  merges := some [line]
  bosTokenId := some 0
  eosTokenId := none
  paddingTokenId := none
  unknownTokenId := none

theorem byteVocab_loads (line : List UInt8) (hinert : g4Split line = none)
    (hshort : line.length ≤ 2) : ∃ file,
      spTokenizerLoadTokfile file = .value (loadedOf (byteVocab line) byteTokens .gemma4) := by
  have hput : (put 4 byteTokens).length = 2560 := by decide +kernel
  have hmerge : (put 4 (mergesOf (byteVocab line))).length = 4 + line.length := by
    have hone : put 4 (mergesOf (byteVocab line)) = leBytes 4 line.length ++ line :=
      List.append_nil _
    rw [hone, List.length_append, leBytes_length]
  have hsections : (blobSections (byteVocab line) byteTokens).length = 2564 + line.length := by
    have hscores : scoreBytes (scoresOf (byteVocab line) byteTokens.length) = [] := rfl
    rw [blobSections, hscores, List.nil_append, List.length_append, hput, hmerge]
    omega
  have hwritten : Written (byteVocab line) byteTokens 4 0
      (fields (fileFields (byteVocab line) byteTokens 4 0) ++
        blobSections (byteVocab line) byteTokens) := by
    have htype : typeIdOf (some "gemma4") none = some 4 := by decide
    exact ⟨rfl, htype, rfl⟩
  have hcount : byteTokens.length = 256 := by decide +kernel
  have hwidth : ∀ tok ∈ byteTokens, tok.length = 6 := by
    intro tok htok
    obtain ⟨b, -, rfl⟩ := List.mem_map.mp htok
    rfl
  refine ⟨_, hwritten.loads ?_ ?_ rfl ?_⟩
  · constructor
    case count => omega
    case mergeCount => exact Nat.one_lt_two_pow (by decide)
    case token =>
      intro tok htok
      rw [hwidth tok htok]
      decide
    case merge =>
      intro l hl
      rw [List.mem_singleton.mp hl]
      omega
    case size =>
      rw [hwritten.file_length, hsections]
      omega
  · refine ⟨fun id hid => ?_, nofun, nofun, nofun⟩
    cases hid
    exact Nat.two_pow_pos 31
  · constructor
    case nonempty =>
      intro hnil
      rw [hnil] at hcount
      cases hcount
    case ids => omega
    case scored => exact nofun
    case bytes =>
      intro _ b hb
      exact List.mem_map_of_mem (List.mem_range.mpr hb)
    case merges =>
      intro _
      have hone : (mergesOf (byteVocab line)).length = 1 := rfl
      refine ⟨Nat.one_pos, by omega, fun l hl => ?_⟩
      rw [List.mem_singleton.mp hl, Resolves]
      intro left right hsome
      rw [hinert] at hsome
      cases hsome
    case bos =>
      intro _
      exact ⟨0, rfl, by omega⟩

theorem parseSptb_agrees_trailing : ∃ file d,
    spTokenizerLoadTokfile file = .value (loadedOf (byteVocab [0x61, 0x20]) byteTokens .gemma4) ∧
      parseSptb (blobOf file) = .ok d ∧ d.vocab = byteTokens := by
  obtain ⟨file, hload⟩ := byteVocab_loads [0x61, 0x20] rfl (Nat.le_refl 2)
  obtain ⟨haccepts, hsame⟩ := parseSptb_agrees file _ hload rfl
  have hutf : ∀ tok ∈ byteTokens, isUtf8 tok = true := by decide +kernel
  obtain ⟨d, hd⟩ := haccepts.mpr ⟨hutf, fun line hline => by
    rw [List.mem_singleton.mp hline]
    decide⟩
  exact ⟨file, d, hload, hd, (hsame d hd).2.1⟩

/-- A merge without a space never applies to the loader, and is an error to the parser. -/
theorem parseSptb_refuses : ¬ ∀ (file : List UInt8) (t : TokFile),
    spTokenizerLoadTokfile file = .value t → t.family = .gemma4 →
      ∃ d, parseSptb (blobOf file) = .ok d ∧ d.vocab = t.tok := by
  intro h
  obtain ⟨file, hload⟩ := byteVocab_loads [0x61] rfl (Nat.le_succ 1)
  obtain ⟨d, hd, -⟩ := h file _ hload rfl
  have hspace := ((parseSptb_ok_iff hload rfl).mp ⟨d, hd⟩).2 [0x61] (List.mem_singleton.mpr rfl)
  exact absurd hspace.2 (by decide)

end ShannonPrime.Tokenizer
