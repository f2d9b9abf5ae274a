import ShannonPrime.Daemon.AnswerText
import ShannonPrime.Daemon.ChatTokenizer

/-!
The tokens that end a turn against those that the sampler never emits. Gemma's ends are exempt from
the rule for control tokens; the ends of the ChatML models fall under it, so that a greedy turn of
theirs goes on until something else stops it.
-/

namespace ShannonPrime.Daemon

open Tokenizer Utf8

/-! ## Ids by their tokens -/

theorem mem_addNew {ids : List Int} {x y : Int} : x ∈ addNew ids y ↔ x ∈ ids ∨ x = y := by
  rw [addNew]
  split
  · rename_i hin
    refine ⟨Or.inl, ?_⟩
    rintro (h | rfl)
    · exact h
    · exact List.contains_iff_mem.mp hin
  · rw [List.mem_append, List.mem_singleton]

theorem mem_union {ids l : List Int} {x : Int} : x ∈ l.foldl addNew ids ↔ x ∈ ids ∨ x ∈ l := by
  induction l generalizing ids with
  | nil => exact ⟨Or.inl, fun h => h.resolve_right (List.not_mem_nil)⟩
  | cons y l ih => rw [List.foldl_cons, @ih (addNew ids y), mem_addNew, List.mem_cons, or_assoc]

theorem mem_places {p : List UInt8 → Bool} {l : List (List UInt8)} {x : Int} :
    x ∈ places p l ↔ ∃ (k : Nat) (b : List UInt8), l[k]? = some b ∧ p b = true ∧ x = (k : Int) := by
  rw [places, List.mem_map]
  constructor
  · rintro ⟨⟨b, k⟩, hmem, rfl⟩
    obtain ⟨hentry, hp⟩ := List.mem_filter.mp hmem
    exact ⟨k, b, List.mem_zipIdx_iff_getElem?.mp hentry, hp, rfl⟩
  · rintro ⟨k, b, hk, hp, rfl⟩
    exact ⟨(b, k), List.mem_filter.mpr ⟨List.mem_zipIdx_iff_getElem?.mpr hk, hp⟩, rfl⟩

/-- The architectures whose turns are those of ChatML. -/
def ChatMl (archId : Nat) : Prop :=
  archId = archQwen3 ∨ archId = archQwen25 ∨ archId = archQwen36

def Gemma (archId : Nat) : Prop := archId = archGemma3 ∨ archId = archGemma4

/-- The names of the tokens that end a turn. -/
def endNames (archId : Nat) : List (List UInt8) :=
  eosNames archId ++
    if archId = archGemma3 ∨ archId = archGemma4 then ["<|turn>", "<turn|>"].map bytesOf else []

theorem Gemma.not_chatMl {archId : Nat} (h : Gemma archId) : ¬ChatMl archId := by
  rcases h with rfl | rfl <;> unfold ChatMl <;> decide

/-- The two cases of the names. -/
theorem endNames_cases {archId : Nat} {name : List UInt8} (h : name ∈ endNames archId) :
    ChatMl archId ∧ name ∈ ["<|im_end|>", "<|endoftext|>"].map bytesOf ∨
      Gemma archId ∧ name ∈ ["<eos>", "<end_of_turn>", "<|turn>", "<turn|>"].map bytesOf := by
  rcases List.mem_append.mp h with heos | hturn
  · rw [eosNames] at heos
    split at heos
    · exact Or.inl ⟨‹_›, heos⟩
    · split at heos
      · exact Or.inr ⟨‹_›, List.mem_append_left (["<|turn>", "<turn|>"].map bytesOf) heos⟩
      · cases heos
  · split at hturn
    · exact Or.inr ⟨‹_›, List.mem_append_right (["<eos>", "<end_of_turn>"].map bytesOf) hturn⟩
    · cases hturn

theorem turn_mem_endNames {archId : Nat} (h : Gemma archId) {name : List UInt8}
    (hname : name = bytesOf "<|turn>" ∨ name = bytesOf "<turn|>") : name ∈ endNames archId := by
  apply List.mem_append_right
  rw [if_pos (show archId = archGemma3 ∨ archId = archGemma4 from h)]
  rcases hname with rfl | rfl <;> decide

/-- The names are decoded to themselves in every family. -/
theorem tokenText_endName {archId : Nat} (typeId : Nat) {name : List UInt8}
    (h : name ∈ endNames archId) : SptbTokenizer.tokenText typeId name = name := by
  have hall : ∀ name ∈ ["<|im_end|>", "<|endoftext|>", "<eos>", "<end_of_turn>", "<|turn>",
      "<turn|>"].map bytesOf, gpt2DecodeStr name = name ∧ unescape name.length name = name := by
    decide
  have hmem : name ∈ ["<|im_end|>", "<|endoftext|>", "<eos>", "<end_of_turn>", "<|turn>",
      "<turn|>"].map bytesOf := by
    rcases endNames_cases h with ⟨-, h⟩ | ⟨-, h⟩
    · exact List.mem_append_left (["<eos>", "<end_of_turn>", "<|turn>", "<turn|>"].map bytesOf) h
    · exact List.mem_append_right (["<|im_end|>", "<|endoftext|>"].map bytesOf) h
  rw [SptbTokenizer.tokenText]
  split
  · exact (hall name hmem).1
  · exact (hall name hmem).2

/-- The rule for control tokens holds of the ends of ChatML, and of no other. -/
theorem isSuppressedControl_endName {archId : Nat} {name : List UInt8}
    (h : name ∈ endNames archId) : isSuppressedControl name = true ↔ ChatMl archId := by
  have hcontrol : ∀ name ∈ ["<|im_end|>", "<|endoftext|>"].map bytesOf,
      isSuppressedControl name = true := by decide
  have hplain : ∀ name ∈ ["<eos>", "<end_of_turn>", "<|turn>", "<turn|>"].map bytesOf,
      ¬isSuppressedControl name = true := by decide
  rcases endNames_cases h with ⟨hchat, hmem⟩ | ⟨hgemma, hmem⟩
  · exact ⟨fun _ => hchat, fun _ => hcontrol name hmem⟩
  · exact ⟨fun hc => absurd hc (hplain name hmem), fun hchat => absurd hchat hgemma.not_chatMl⟩

/-! ## The ends of a turn -/

namespace SptbTokenizer

/-- The token of an id has the name of an end. -/
def EndNamed (tk : SptbTokenizer) (id : Int) : Prop :=
  ∃ (k : Nat) (name : List UInt8), tk.idToBytes[k]? = some name ∧ name ∈ endNames tk.archId ∧
    id = (k : Int)

theorem mem_suppressTokenIds {tk : SptbTokenizer} {id : Int} : id ∈ tk.suppressTokenIds ↔
    (∃ (k : Nat) (b : List UInt8), tk.idToBytes[k]? = some b ∧ isSuppressedControl b = true ∧
      id = (k : Int)) ∨ id ∈ tk.configSuppress ∧ asUsize id < tk.idToBytes.length := by
  rw [suppressTokenIds, mem_union, mem_places, List.mem_filter, decide_eq_true_iff]

/-- An end by its name is suppressed where the turns are those of ChatML, or the model's own file
says so. -/
theorem EndNamed.suppressed_iff {tk : SptbTokenizer} {id : Int} (h : tk.EndNamed id) :
    id ∈ tk.suppressTokenIds ↔ ChatMl tk.archId ∨ id ∈ tk.configSuppress := by
  obtain ⟨k, name, hk, hname, rfl⟩ := h
  have hlt := (List.getElem?_eq_some_iff.mp hk).1
  have hsmall : asUsize (k : Int) < tk.idToBytes.length := by
    rw [asUsize]
    omega
  rw [mem_suppressTokenIds, ← isSuppressedControl_endName hname]
  constructor
  · rintro (⟨k', b, hb, hcontrol, heq⟩ | ⟨hconfig, -⟩)
    · rw [Int.natCast_inj] at heq
      rw [← heq, hk, Option.some_inj] at hb
      rw [hb]
      exact Or.inl hcontrol
    · exact Or.inr hconfig
  · rintro (hcontrol | hconfig)
    · exact Or.inl ⟨k, name, hk, hcontrol, rfl⟩
    · exact Or.inr ⟨hconfig, hsmall⟩

section Build

variable {blob : List UInt8} {archId : Nat} {load : Except String CTokenizer}
variable {bpe : SptbData → Except String (List Char → Except String (List Int))}
variable {config : List Int × List Int} {tk : SptbTokenizer} {id : Int}

/-- The tokens of the blob. -/
theorem build_ok (h : build blob archId bpe load config = .ok tk) : ∃ d, parseSptb blob = .ok d ∧
    tk.idToBytes = d.vocab.map (tokenText d.typeId) ∧ tk.archId = archId ∧
    tk.eosIds = eosOf archId d.vocab config.2 ∧ tk.configSuppress = config.1 := by
  rw [build] at h
  obtain ⟨d, hd, h⟩ := except_bind_ok.mp h
  obtain ⟨_, -, h⟩ := except_bind_ok.mp h
  obtain ⟨_, -, h⟩ := except_bind_ok.mp h
  cases h
  refine ⟨d, ?_, rfl, rfl, rfl, rfl⟩
  cases hparse : parseSptb blob with
  | error e =>
      rw [hparse] at hd
      cases hd
  | ok d' =>
      rw [hparse] at hd
      cases hd
      rfl

theorem mem_findEosIds {vocab : List (List UInt8)} (h : id ∈ findEosIds archId vocab) :
    ∃ (k : Nat) (name : List UInt8), vocab[k]? = some name ∧ name ∈ endNames archId ∧
      id = (k : Int) := by
  obtain ⟨k, name, hk, hname, rfl⟩ := mem_places.mp h
  exact ⟨k, name, hk, List.mem_append_left _ (List.contains_iff_mem.mp hname), rfl⟩

theorem mem_eosOf {vocab : List (List UInt8)} {configEos : List Int}
    (h : id ∈ eosOf archId vocab configEos) :
    (∃ (k : Nat) (name : List UInt8), vocab[k]? = some name ∧ name ∈ endNames archId ∧
      id = (k : Int)) ∨ id ∈ configEos ∧ asUsize id < vocab.length := by
  have hunion : id ∈ (configEos.filter fun e => asUsize e < vocab.length).foldl addNew
      (findEosIds archId vocab) → (∃ (k : Nat) (name : List UInt8), vocab[k]? = some name ∧
        name ∈ endNames archId ∧ id = (k : Int)) ∨ id ∈ configEos ∧ asUsize id < vocab.length := by
    intro hin
    rcases mem_union.mp hin with hnamed | hconfig
    · exact Or.inl (mem_findEosIds hnamed)
    · obtain ⟨hmem, hlt⟩ := List.mem_filter.mp hconfig
      exact Or.inr ⟨hmem, of_decide_eq_true hlt⟩
  rw [eosOf] at h
  split at h
  · rename_i hgemma
    cases hstop : vocab.findIdx? fun t => t == bytesOf "<turn|>" with
    | none =>
        rw [hstop] at h
        exact hunion h
    | some e =>
        rw [hstop] at h
        rcases mem_addNew.mp h with h | rfl
        · exact hunion h
        · obtain ⟨hlt, heq, -⟩ := List.findIdx?_eq_some_iff_getElem.mp hstop
          refine Or.inl ⟨e, _, ?_, turn_mem_endNames hgemma (Or.inr (eq_of_beq heq)), rfl⟩
          exact List.getElem?_eq_getElem hlt
  · exact hunion h

/-- An id that ends a turn is that of a token with the name of an end, or `generation_config.json`
names it. -/
theorem endNamed_of_end (h : build blob archId bpe load config = .ok tk)
    (hend : id ∈ tk.eosIds ∨ id ∈ tk.turnStopIds) :
    tk.EndNamed id ∨ id ∈ config.2 ∧ asUsize id < tk.idToBytes.length := by
  obtain ⟨d, -, hbytes, rfl, heos, -⟩ := build_ok h
  have hnamed : ∀ (k : Nat) (name : List UInt8), d.vocab[k]? = some name →
      name ∈ endNames tk.archId → tk.EndNamed k := by
    intro k name hk hname
    refine ⟨k, name, ?_, hname, rfl⟩
    rw [hbytes, List.getElem?_map, hk, Option.map_some, tokenText_endName d.typeId hname]
  rcases hend with heosId | hturn
  · rw [heos] at heosId
    rcases mem_eosOf heosId with ⟨k, name, hk, hname, rfl⟩ | ⟨hmem, hlt⟩
    · exact Or.inl (hnamed k name hk hname)
    · refine Or.inr ⟨hmem, ?_⟩
      rwa [hbytes, List.length_map]
  · rw [turnStopIds] at hturn
    split at hturn
    · rename_i hgemma
      obtain ⟨k, b, hk, hb, rfl⟩ := mem_places.mp hturn
      refine Or.inl ⟨k, b, hk, turn_mem_endNames hgemma ?_, rfl⟩
      rcases Bool.or_eq_true_iff.mp hb with hstart | hstop
      · exact Or.inl (eq_of_beq hstart)
      · exact Or.inr (eq_of_beq hstop)
    · cases hturn

end Build

end SptbTokenizer

/-- The size of a vocabulary is a number of 32 bits. -/
theorem parse_vocab_lt {blob : List UInt8} {d : SptbData} (h : parseSptb blob = .ok d) :
    d.vocab.length < 2 ^ 32 := by
  rw [parseSptb] at h
  obtain ⟨_, -, h⟩ := except_bind_ok.mp h
  dsimp only at h
  split at h
  · cases h
  · obtain ⟨_, -, h⟩ := except_bind_ok.mp h
    obtain ⟨q, hsize, h⟩ := except_bind_ok.mp h
    obtain ⟨_, -, h⟩ := except_bind_ok.mp h
    obtain ⟨r, hvocab, h⟩ := except_bind_ok.mp h
    obtain ⟨_, -, h⟩ := except_bind_ok.mp h
    obtain ⟨_, -, h⟩ := except_bind_ok.mp h
    cases h
    have hlen : r.1.length = q.1 := by
      rw [(readVocab_ok.mp hvocab).2.2]
      exact (List.length_map _).trans Records.spans_length
    have hread := orError_ok.mp hsize
    rw [readU32] at hread
    split at hread
    · cases hread
      dsimp only at hlen ⊢
      rw [hlen]
      exact Fetch.number_lt
    · cases hread

/-! ## A greedy turn -/

/-- A greedy choice among decisive logits is not suppressed. -/
theorem Sampler.sample_unsuppressed {s : Sampler} {logits : List F32}
    {draw : Sampler → List F32 → Int} (hgreedy : s.isGreedy = true)
    (hlen : logits.length ≤ 2 ^ 31) (hdecisive : Decisive (s.masked logits)) :
    s.sample draw logits ∉ s.suppress := by
  obtain ⟨hkept, -⟩ := Sampler.masked_masks s logits
  have hne : s.masked logits ≠ [] := by
    intro hnil
    obtain ⟨before, x, after, hsplit, -⟩ := hdecisive
    rw [hnil] at hsplit
    simp at hsplit
  obtain ⟨r, hr, htoken, hunmasked⟩ := argmax_spec hne (by omega)
  have hnonempty : ¬logits.isEmpty = true := by
    rw [List.isEmpty_iff, ← List.length_eq_zero_iff]
    omega
  rw [Sampler.sample, if_neg hnonempty, if_pos hgreedy, htoken]
  intro hsuppress
  have hid : asUsize (r : Int) = r := asUsize_natCast (by omega)
  have hmasked := @Sampler.masked_suppress s logits _ hsuppress (by omega)
  rw [hid] at hmasked
  exact hunmasked hdecisive hmasked

/-- What a run adds to the history is not suppressed. -/
theorem Sampler.generate_unsuppressed {s : Sampler} {draw : Sampler → List F32 → Int}
    (hgreedy : s.isGreedy = true) {rows : List (List F32)} (hrun : s.DecisiveRun draw rows) :
    ∃ tokens, (s.generate draw rows).history = s.history ++ tokens ∧
      tokens.length = rows.length ∧ ∀ token ∈ tokens, token ∉ s.suppress := by
  induction rows generalizing s with
  | nil => exact ⟨[], (List.append_nil _).symm, rfl, fun _ h => nomatch h⟩
  | cons logits rows ih =>
      obtain ⟨hlen, hdecisive, hrest⟩ := hrun
      obtain ⟨tokens, hhistory, hcount, hall⟩ :=
        ih (s := s.observe (s.sample draw logits)) hgreedy hrest
      refine ⟨s.sample draw logits :: tokens, ?_, ?_, ?_⟩
      · rw [Sampler.generate, hhistory, Sampler.observe, List.append_assoc]
        rfl
      · rw [List.length_cons, List.length_cons, hcount]
      · intro token htoken
        rcases List.mem_cons.mp htoken with rfl | htoken
        · exact Sampler.sample_unsuppressed hgreedy hlen hdecisive
        · exact hall token htoken

/-- The logits of what is not masked stay as they are. -/
theorem foldl_mask_other {ids : List Int} {logits : List F32} {r : Nat}
    (h : ∀ id ∈ ids, asUsize id ≠ r) : (ids.foldl mask logits)[r]? = logits[r]? := by
  induction ids generalizing logits with
  | nil => rfl
  | cons id ids ih =>
      rw [List.foldl_cons, ih fun id' hid' => h id' (List.mem_cons_of_mem id hid'), mask]
      split
      · exact List.getElem?_set_ne (h id List.mem_cons_self)
      · rfl

section Turn

variable {blob : List UInt8} {archId : Nat} {load : Except String CTokenizer}
variable {bpe : SptbData → Except String (List Char → Except String (List Int))}
variable {config : List Int × List Int} {tk : SptbTokenizer} {c : AnswerText.Chat}

/-- What the decode loop of a turn has of the tokenizer. -/
structure AnswerText.Chat.Uses (c : AnswerText.Chat) (tk : SptbTokenizer) : Prop where
  eos : c.eosIds = tk.eosIds
  turnStop : c.turnStopIds = tk.turnStopIds

theorem AnswerText.Chat.Uses.ends_iff (h : c.Uses tk) (token : Int) :
    c.ends token = true ↔ token ∈ tk.eosIds ∨ token ∈ tk.turnStopIds := by
  rw [AnswerText.Chat.ends, h.eos, h.turnStop, Bool.or_eq_true_iff, Bool.and_eq_true_iff,
    List.contains_iff_mem, List.contains_iff_mem]
  refine or_congr_left ⟨And.right, fun hmem => ⟨?_, hmem⟩⟩
  rw [Bool.not_eq_true', List.isEmpty_eq_false_iff]
  exact List.ne_nil_of_mem hmem

end Turn

/-- A byte-level vocabulary of an end and a letter. -/
def endBlob : List UInt8 :=
  [0x53, 0x50, 0x54, 0x42, 2, 0, 0, 0, 2, 0, 0, 0, 0, 0, 0, 0, 10, 0, 0, 0] ++
    bytesOf "<|im_end|>" ++ [1, 0, 0, 0, 0x61]

def endTokenizer : SptbTokenizer where
  inner := some fun _ => .ok []
  cTokenizer := none
  idToBytes := [bytesOf "<|im_end|>", [0x61]]
  eosIds := [0]
  archId := archQwen3
  typeId := typeBpeGpt2
  bosId := none
  configSuppress := []

def endChat : AnswerText.Chat where
  decodeToken := endTokenizer.decodeToken
  eosIds := [0]
  turnStopIds := []
  stops := []
  judgeGround := none
  spectestOn := false
  recalledText := none
  rawUser := none
  headVeto := none

end ShannonPrime.Daemon
