import Mathlib.Data.List.Forall2
import Mathlib.Data.List.TakeWhile
import ShannonPrime.Daemon.ChatTokenizer

/-!
The chat prompt as ids (`apply_template_ids`): the markers of the turns are emitted by their own
ids, and the roles and contents are encoded. A marker cannot be written in a content unless the
encoder merges its text, and the prompt tells the conversation.
-/

namespace ShannonPrime.Daemon

open Tokenizer PairMerge Utf8

structure Message where
  role : List Char
  content : List Char

/-- `chatml_template` -/
def chatmlTemplate (messages : List Message) : List Char :=
  let noSystem :=
    match messages with
    | [] => true
    | m :: _ => m.role ≠ "system".toList
  (if noSystem then "<|im_start|>system\n<|im_end|>\n".toList else []) ++
    messages.flatMap (fun m => "<|im_start|>".toList ++ m.role ++ ['\n'] ++ m.content ++
      "<|im_end|>\n".toList) ++
    "<|im_start|>assistant\n".toList

/-- Gemma calls the assistant the model. -/
def Message.label (m : Message) : List Char :=
  if m.role = "assistant".toList then "model".toList else m.role

/-- `gemma3_template` -/
def gemma3Template (messages : List Message) : List Char :=
  messages.flatMap (fun m => "<start_of_turn>".toList ++ m.label ++ ['\n'] ++ m.content ++
    "<end_of_turn>\n".toList) ++
    "<start_of_turn>model\n".toList

namespace SptbTokenizer

variable (tk : SptbTokenizer) (mem : Scratch)

/-- The turns of the messages, one behind the other. -/
def turnIds (start stop nl : Nat) : List Message → Except EncodeError (List Int)
  | [] => .ok []
  | m :: messages => do
      let role ← tk.encodeNoBos mem m.label
      let content ← tk.encodeNoBos mem m.content
      let rest ← turnIds start stop nl messages
      .ok (((start : Int) :: role ++ (nl : Int) :: content) ++ ((stop : Int) :: (nl : Int) :: rest))

/-- `apply_template_ids` -/
def applyTemplateIds (messages : List Message) : Except EncodeError (List Int) :=
  if tk.archId = archGemma3 ∨ tk.archId = archGemma4 then
    match tk.controlId (bytesOf "<|turn>"), tk.controlId (bytesOf "<turn|>"),
        tk.controlId (bytesOf "\n") with
    | some start, some stop, some nl => do
        let turns ← tk.turnIds mem start stop nl messages
        let model ← tk.encodeNoBos mem "model".toList
        .ok (tk.bosId.toList.map Int.ofNat ++ turns ++ (start : Int) :: model ++ [(nl : Int)])
    | _, _, _ => tk.encode mem (gemma3Template messages)
  else if tk.archId = archQwen3 ∨ tk.archId = archQwen25 ∨ tk.archId = archQwen36 then
    tk.encode mem (chatmlTemplate messages)
  else .error (.noTemplate tk.archId)

end SptbTokenizer

/-! ## The ids of a text -/

/-- A run is of newlines only, or of none. -/
theorem g4Pieces_uniform {fuel : Nat} {s : List UInt8} {piece : Bool × List UInt8}
    (h : piece ∈ g4Pieces fuel s) : ∀ b ∈ piece.2, (b == 0x0A) = piece.1 := by
  induction fuel generalizing s with
  | zero => cases h
  | succ fuel ih =>
      cases s with
      | nil => cases h
      | cons a s =>
          rw [g4Pieces] at h
          rcases List.mem_cons.mp h with rfl | h
          · intro b hb
            rcases List.mem_cons.mp hb with rfl | hb
            · rfl
            · have htake := List.mem_takeWhile_imp hb
              exact eq_of_beq htake
          · exact ih h

section Texts

variable {c : CTokenizer} {text : List Char}

/-- What is left of a text is a part of it that merges to itself. -/
theorem parts_segment {w : List Char} {part : List UInt8} (h : part ∈ c.parts (encode w)) :
    ∃ w', w' <:+: w ∧ part = encode w' ∧ c.parts part = [part] := by
  obtain ⟨u, s, v, hsplit, hmerged⟩ := (c.parts_merged (encode w)).segment h
  rw [g4Chars_encode] at hsplit
  obtain ⟨wu, wv, rfl, hu, rfl⟩ := List.map_eq_append_iff.mp hsplit
  obtain ⟨wu, ws, rfl, rfl, rfl⟩ := List.map_eq_append_iff.mp hu
  have hpart : part = encode ws := by
    have hflat := hmerged.flatten
    rw [List.flatten_singleton] at hflat
    rw [hflat, encode, List.flatMap_def]
  refine ⟨ws, ⟨wu, wv, rfl⟩, hpart, ?_⟩
  rw [← g4Chars_encode, ← hpart] at hmerged
  exact (c.parts_merged part).unique hmerged

/-- The bytes of texts one behind the other. -/
theorem encode_flatten (ws : List (List Char)) : (ws.map encode).flatten = encode ws.flatten := by
  rw [encode, List.flatMap_def, List.map_flatten, List.flatten_flatten, List.map_map]
  rfl

theorem parts_flatten (w : List Char) : (c.parts (encode w)).flatten = encode w := by
  rw [(c.parts_merged (encode w)).flatten, g4Chars_encode, encode, List.flatMap_def]

/-- The strings of a run, each of which is emitted by its id or byte by byte. -/
def runParts (c : CTokenizer) (piece : Bool × List UInt8) : List (List UInt8) :=
  if piece.1 && (c.vocab.lookup piece.2).isSome then [piece.2] else c.parts piece.2

def textParts (c : CTokenizer) (s : List UInt8) : List (List UInt8) :=
  (g4Pieces (escape s).length (escape s)).flatMap (runParts c)

theorem textIds_parts (c : CTokenizer) (s : List UInt8) :
    c.textIds s = (textParts c s).flatMap (g4Ids c.tables) := by
  rw [CTokenizer.textIds, textParts, List.flatMap_assoc]
  congr 1
  funext piece
  rw [CTokenizer.runIds, runParts]
  split
  · rw [List.flatMap_singleton]
  · rfl

/-- The runs of a text are texts. -/
theorem pieces_texts {piece : Bool × List UInt8}
    (h : piece ∈ g4Pieces (escape (encode text)).length (escape (encode text))) :
    ∃ w, piece.2 = encode w ∧ ∀ x ∈ w, x ∈ text.map mark := by
  rw [escape_encode] at h
  obtain ⟨ws, hws, hflat⟩ := g4Pieces_encode (Nat.le_refl (encode (text.map mark)).length)
  have hpiece : piece.2 ∈ ws.map encode := by
    rw [← hws]
    exact List.mem_map_of_mem h
  obtain ⟨w, hw, heq⟩ := List.mem_map.mp hpiece
  refine ⟨w, heq.symm, fun x hx => ?_⟩
  rw [← hflat]
  exact List.mem_flatten.mpr ⟨w, hw, hx⟩

/-- The strings of a text are its runs and parts, one behind the other. -/
theorem textParts_flatten (text : List Char) :
    (textParts c (encode text)).flatten = escape (encode text) := by
  have hrun : ∀ piece ∈ g4Pieces (escape (encode text)).length (escape (encode text)),
      (runParts c piece).flatten = piece.2 := by
    intro piece hpiece
    obtain ⟨w, hw, -⟩ := pieces_texts hpiece
    rw [runParts]
    split
    · exact List.flatten_singleton
    · rw [hw, parts_flatten]
  obtain ⟨ws, hws, hflat⟩ := g4Pieces_encode (Nat.le_refl (encode (text.map mark)).length)
  have hparts : (textParts c (encode text)).flatten =
      (g4Pieces (escape (encode text)).length (escape (encode text))).flatMap Prod.snd := by
    rw [textParts, ← List.flatMap_id, List.flatMap_assoc, ← List.flatMap_congr hrun]
    simp only [List.flatMap_id]
  rw [hparts, escape_encode, List.flatMap_def, hws, ← hflat, encode_flatten]

/-- A string that is emitted comes of the text; it is a run of newlines, or merges to itself. -/
theorem mem_textParts {part : List UInt8} (h : part ∈ textParts c (encode text)) :
    (∃ w, part = encode w ∧ ∀ x ∈ w, x ∈ text.map mark) ∧
      ((∀ b ∈ part, b = 0x0A) ∨ c.parts part = [part]) := by
  obtain ⟨piece, hpiece, hpart⟩ := List.mem_flatMap.mp h
  obtain ⟨w, hw, hmem⟩ := pieces_texts hpiece
  rw [runParts] at hpart
  split at hpart
  · rename_i hwhole
    rw [List.mem_singleton.mp hpart]
    refine ⟨⟨w, hw, hmem⟩, Or.inl fun b hb => ?_⟩
    have hnl := g4Pieces_uniform hpiece b hb
    rw [(Bool.and_eq_true_iff.mp hwhole).1] at hnl
    exact eq_of_beq hnl
  · rw [hw] at hpart
    obtain ⟨w', hwithin, hpart, hself⟩ := parts_segment hpart
    exact ⟨⟨w', hpart, fun x hx => hmem x (hwithin.subset hx)⟩, Or.inr hself⟩

end Texts

/-! ## The tokens of a prompt -/

/-- A text that is no run of newlines and no byte token, and has no space. -/
structure Marker (surface : List Char) : Prop where
  run : g4Pieces (escape (encode surface)).length (escape (encode surface)) =
    [(false, encode surface)]
  visible : ¬∀ b ∈ encode surface, b = 0x0A
  name : ∀ b < 256, byteName b ≠ encode surface

section Markers

variable {c : CTokenizer} {text surface : List Char} {k : Nat}

/-- An id of a text is that of one of its strings, or of a byte token. -/
theorem mem_textIds {id : Int} (h : id ∈ c.textIds (encode text)) :
    (∃ b, id = g4ByteTok c.tables b) ∨ ∃ part ∈ textParts c (encode text), ∃ k : Nat,
      c.vocab.lookup part = some k ∧ id = k := by
  rw [textIds_parts] at h
  obtain ⟨part, hpart, hid⟩ := List.mem_flatMap.mp h
  rw [g4Ids, c.tables_vocab] at hid
  cases hlookup : c.vocab.lookup part with
  | some k =>
      rw [hlookup] at hid
      exact Or.inr ⟨part, hpart, k, hlookup, List.mem_singleton.mp hid⟩
  | none =>
      rw [hlookup] at hid
      obtain ⟨b, -, rfl⟩ := List.mem_map.mp hid
      exact Or.inl ⟨b, rfl⟩

/-- The string of an id that a text has is one of its strings. -/
theorem mem_textIds_lookup {part : List UInt8} (hk : c.vocab.lookup part = some k)
    (hname : ∀ b < 256, byteName b ≠ part) (h : (k : Int) ∈ c.textIds (encode text)) :
    part ∈ textParts c (encode text) := by
  rcases mem_textIds h with ⟨b, hb⟩ | ⟨part', hpart, k', hk', hid⟩
  · have hlookup := spG4Build_byteTok c.built b.toNat_lt
    rw [g4ByteTok, Int.natCast_inj] at hb
    rw [← hb] at hlookup
    exact absurd (c.vocab.lookup_inj hlookup hk) (hname _ b.toNat_lt)
  · rw [Int.natCast_inj] at hid
    rw [← hid] at hk'
    rwa [c.vocab.lookup_inj hk hk']

/-- A text has the id of a marker only where the marker merges to itself. -/
theorem marker_merges (hm : Marker surface) (hk : c.vocab.lookup (encode surface) = some k)
    (h : (k : Int) ∈ c.textIds (encode text)) : c.parts (encode surface) = [encode surface] := by
  obtain ⟨-, hnewlines | hself⟩ := mem_textParts (mem_textIds_lookup hk hm.name h)
  · exact absurd hnewlines hm.visible
  · exact hself

/-- The encoder takes the text of a marker for the marker just when it merges to itself. -/
theorem marker_typed_iff (hm : Marker surface) (hk : c.vocab.lookup (encode surface) = some k) :
    c.textIds (encode surface) = [(k : Int)] ↔ c.parts (encode surface) = [encode surface] := by
  constructor
  · intro hids
    have hmem : (k : Int) ∈ c.textIds (encode surface) := by
      rw [hids]
      exact List.mem_singleton_self _
    exact marker_merges hm hk hmem
  · intro hself
    rw [CTokenizer.textIds, hm.run, List.flatMap_singleton, CTokenizer.runIds, Bool.false_and,
      if_neg Bool.false_ne_true, hself, List.flatMap_singleton, g4Ids, c.tables_vocab, hk]
    rfl

/-- A marker whose text is not taken for it is in no text. -/
theorem marker_notMem (hm : Marker surface) (hk : c.vocab.lookup (encode surface) = some k)
    (huntyped : c.textIds (encode surface) ≠ [(k : Int)]) : (k : Int) ∉ c.textIds (encode text) :=
  fun h => huntyped ((marker_typed_iff hm hk).mpr (marker_merges hm hk h))

/-- A text without newlines has no newline among its ids. -/
theorem newline_notMem (hk : c.vocab.lookup [0x0A] = some k) (htext : '\n' ∉ text) :
    (k : Int) ∉ c.textIds (encode text) := by
  intro h
  obtain ⟨⟨w, hw, hmem⟩, -⟩ :=
    mem_textParts (mem_textIds_lookup hk (fun b _ hname => nomatch hname) h)
  have hone : w = ['\n'] := encode_injective (hw.symm.trans (by decide))
  have hin := hmem '\n' (by rw [hone]; exact List.mem_singleton_self _)
  exact htext (mem_of_mark hin (by decide))

end Markers

/-! ## What the ids tell -/

/-- No text of a byte token, such as `<0x41>`, merges to itself. -/
def BytesUntyped (c : CTokenizer) : Prop :=
  ∀ surface ∈ c.vocab.tok, (g4ByteToken surface).isSome → c.parts surface ≠ [surface]

/-- The bytes of an id, U+2581 included. -/
def rawBytes (c : CTokenizer) (id : Int) : List UInt8 :=
  match c.vocab.tok[id.toNat]? with
  | none => []
  | some s =>
      match g4ByteToken s with
      | some b => [b]
      | none => s

section Raw

variable {c : CTokenizer} {text : List Char}

theorem rawBytes_lookup {part : List UInt8} {k : Nat} (hk : c.vocab.lookup part = some k) :
    rawBytes c k = match g4ByteToken part with
      | some b => [b]
      | none => part := by
  rw [rawBytes, Int.toNat_natCast, c.vocab.lookup_tok hk]

/-- A string that is emitted is told by its ids. -/
theorem rawBytes_part (huntyped : BytesUntyped c) {part : List UInt8}
    (h : part ∈ textParts c (encode text)) : (g4Ids c.tables part).flatMap (rawBytes c) = part := by
  rw [g4Ids, c.tables_vocab]
  cases hlookup : c.vocab.lookup part with
  | some k =>
      have hplain : g4ByteToken part = none := by
        rw [← Option.not_isSome_iff_eq_none]
        intro hbyte
        have hmem : part ∈ c.vocab.tok := Vocab.lookup_isSome.mp (by rw [hlookup]; rfl)
        obtain ⟨-, hnewlines | hself⟩ := mem_textParts h
        · obtain ⟨b, hb⟩ := Option.isSome_iff_exists.mp hbyte
          rw [g4ByteToken] at hb
          split at hb
          · rename_i hshape
            have hfirst : (0x3C : UInt8) ∈ part := by
              rw [← hshape.2.1, List.getD_eq_getElem _ _ (by omega)]
              exact List.getElem_mem _
            exact absurd (hnewlines _ hfirst) (by decide)
          · cases hb
        · exact huntyped part hmem hbyte hself
      rw [idsOf, List.flatMap_singleton, rawBytes_lookup hlookup, hplain]
  | none =>
      have hone : ∀ b ∈ part, rawBytes c (g4ByteTok c.tables b) = [b] := by
        intro b _
        have hname := spG4Build_byteTok c.built b.toNat_lt
        rw [g4ByteTok, rawBytes_lookup hname, g4ByteToken_byteName b.toNat_lt, UInt8.ofNat_toNat]
      rw [idsOf, List.flatMap_map, List.flatMap_congr hone]
      exact List.flatMap_singleton' part

/-- The ids of a text tell it, up to the spaces. -/
theorem rawBytes_textIds (huntyped : BytesUntyped c) (text : List Char) :
    (c.textIds (encode text)).flatMap (rawBytes c) = escape (encode text) := by
  rw [textIds_parts, List.flatMap_assoc,
    List.flatMap_congr fun part hpart => rawBytes_part huntyped hpart, ← textParts_flatten,
    ← List.flatMap_id]
  rfl

/-- Texts have the same ids when they differ in how the spaces are written, and only then. -/
theorem textIds_inj (huntyped : BytesUntyped c) {text text' : List Char} :
    c.textIds (encode text) = c.textIds (encode text') ↔ text.map unmark = text'.map unmark := by
  have hunmark : ∀ l : List Char, (l.map mark).map unmark = l.map unmark := by
    intro l
    rw [List.map_map]
    apply List.map_congr_left
    intro x _
    rw [Function.comp_apply, mark]
    split
    · rename_i hspace
      rw [hspace]
      decide
    · rfl
  have hmark : ∀ l : List Char, (l.map unmark).map mark = l.map mark := by
    intro l
    rw [List.map_map]
    apply List.map_congr_left
    intro x _
    rw [Function.comp_apply, unmark]
    split
    · rename_i hspace
      rw [hspace]
      decide
    · rfl
  constructor
  · intro hids
    have hraw := congrArg (List.flatMap (rawBytes c)) hids
    rw [rawBytes_textIds huntyped, rawBytes_textIds huntyped, escape_encode, escape_encode] at hraw
    rw [← hunmark, encode_injective hraw, hunmark]
  · intro htext
    have hescape : escape (encode text) = escape (encode text') := by
      rw [escape_encode, escape_encode, ← hmark, htext, hmark]
    rw [CTokenizer.textIds, CTokenizer.textIds, hescape]

end Raw

/-! ## The prompt -/

/-- What stands before the first of an element is told, and so is what stands behind it. -/
theorem first_inj {α : Type*} {x : α} {l₁ l₂ r₁ r₂ : List α} (h₁ : x ∉ l₁) (h₂ : x ∉ l₂)
    (h : l₁ ++ x :: r₁ = l₂ ++ x :: r₂) : l₁ = l₂ ∧ r₁ = r₂ := by
  rcases append_eq_append_cons h with ⟨c, rfl, -⟩ | ⟨c, rfl, hc⟩
  · exact absurd (List.mem_append_right _ List.mem_cons_self) h₁
  · cases c with
    | nil => exact ⟨(List.append_nil l₁).symm, (List.cons.inj hc).2⟩
    | cons y c =>
        rw [(List.cons.inj hc).1] at h₂
        exact absurd (List.mem_append_right _ List.mem_cons_self) h₂

/-- A pair of fields between markers. -/
def frame {α β : Type*} (start stop nl : α) (role content : β → List α) (m : β) : List α :=
  (start :: role m ++ nl :: content m) ++ [stop, nl]

/-- Frames in a row, the last of which is left open, tell their fields: the first field ends at the
first `nl`, the second at the first `stop`. -/
theorem frames_inj {α β : Type*} {start stop nl : α} {role content : β → List α} {last : List α}
    (hlast : nl ∉ last) {a b : List β} (ha : ∀ m ∈ a, nl ∉ role m ∧ stop ∉ content m)
    (hb : ∀ m ∈ b, nl ∉ role m ∧ stop ∉ content m)
    (h : a.flatMap (frame start stop nl role content) ++ (start :: last ++ [nl]) =
      b.flatMap (frame start stop nl role content) ++ (start :: last ++ [nl])) :
    a.map (fun m => (role m, content m)) = b.map fun m => (role m, content m) := by
  have hcons : ∀ (m : β) (l : List β) (rest : List α),
      (m :: l).flatMap (frame start stop nl role content) ++ rest =
        start :: (role m ++ nl :: (content m ++ stop :: (nl ::
          (l.flatMap (frame start stop nl role content) ++ rest)))) := by
    intro m l rest
    simp only [List.flatMap_cons, frame, List.append_assoc, List.cons_append, List.nil_append]
  -- the open frame has no `nl` behind its first field but the last one
  have hopen : ∀ (m : β) (l : List β), nl ∉ role m →
      (m :: l).flatMap (frame start stop nl role content) ++ (start :: last ++ [nl]) ≠
        start :: last ++ [nl] := by
    intro m l hm heq
    rw [hcons, List.cons_append] at heq
    obtain ⟨-, hrest⟩ := first_inj hm hlast (List.cons.inj heq).2
    have hlen := congrArg List.length hrest
    simp at hlen
  induction a generalizing b with
  | nil =>
      cases b with
      | nil => rfl
      | cons m b => exact absurd h.symm (hopen m b (hb m List.mem_cons_self).1)
  | cons m a ih =>
      cases b with
      | nil => exact absurd h (hopen m a (ha m List.mem_cons_self).1)
      | cons m' b =>
          obtain ⟨hrole, hcontent⟩ := ha m List.mem_cons_self
          obtain ⟨hrole', hcontent'⟩ := hb m' List.mem_cons_self
          rw [hcons, hcons] at h
          obtain ⟨hr, h⟩ := first_inj hrole hrole' (List.cons.inj h).2
          obtain ⟨hc, h⟩ := first_inj hcontent hcontent' h
          have hrest := ih (fun x hx => ha x (List.mem_cons_of_mem m hx))
            (fun x hx => hb x (List.mem_cons_of_mem m' hx)) (List.cons.inj h).2
          rw [List.map_cons, List.map_cons, hrest, hr, hc]

/-- What `build` makes of a Gemma 4 file: the tokens are the engine's. -/
structure SptbTokenizer.Serves (tk : SptbTokenizer) (c : CTokenizer) : Prop where
  tokenizer : tk.cTokenizer = some c
  bytes : tk.idToBytes = c.vocab.tok.map fun s => unescape s.length s
  bos : tk.bosId = c.vocab.tok.findIdx? fun t => t == bytesOf "<bos>"

/-- A token that is decoded to a text without spaces is that text. -/
theorem unescape_eq_self {fuel : Nat} {s surface : List UInt8} (hfuel : s.length ≤ fuel)
    (hspace : (0x20 : UInt8) ∉ surface) (h : unescape fuel s = surface) : s = surface := by
  induction fuel generalizing s surface with
  | zero =>
      rw [List.length_eq_zero_iff.mp (Nat.le_zero.mp hfuel)] at h ⊢
      rw [← h]
      rfl
  | succ fuel ih =>
      cases s with
      | nil => exact h
      | cons b s =>
          rw [unescape] at h
          split at h
          · rw [← h] at hspace
            exact absurd List.mem_cons_self hspace
          · rw [← h] at hspace ⊢
            rw [← ih (Nat.le_of_succ_le_succ hfuel) (fun hmem =>
              hspace (List.mem_cons_of_mem b hmem)) rfl]

/-- A marker is found by its text. -/
theorem controlId_eq {tk : SptbTokenizer} {c : CTokenizer} (hs : tk.Serves c)
    {surface : List UInt8} (hspace : (0x20 : UInt8) ∉ surface)
    (hlead : (0xE2 : UInt8) ∉ surface) :
    tk.controlId surface = c.vocab.lookup surface := by
  rw [SptbTokenizer.controlId, hs.bytes, List.findIdx?_map, Vocab.lookup_eq]
  congr 1
  funext s
  rw [Function.comp_apply, Bool.eq_iff_iff, beq_iff_eq, decide_eq_true_iff]
  constructor
  · exact unescape_eq_self (Nat.le_refl _) hspace
  · rintro rfl
    have hskip : unescape s.length (s ++ []) = s ++ unescape (s.length - s.length) [] :=
      unescape_skip (fun b hb heq => hlead (heq ▸ hb)) (Nat.le_refl _)
    rw [List.append_nil, Nat.sub_self] at hskip
    rw [hskip]
    exact List.append_nil _

/-- `build` serves the tokens of the file, where its blob is that of the model. -/
theorem build_serves {blob : List UInt8} {archId : Nat}
    {bpe : SptbData → Except String (List Char → Except String (List Int))} {c : CTokenizer}
    {config : List Int × List Int} {tk : SptbTokenizer} {d : SptbData}
    (hbuild : SptbTokenizer.build blob archId bpe (.ok c) config = .ok tk)
    (hblob : parseSptb blob = .ok d) (htype : d.typeId = typeGemma4Bpe)
    (hvocab : d.vocab = c.vocab.tok) : tk.Serves c ∧ tk.archId = archId := by
  have hbpe : ¬(d.typeId = typeBpeGpt2 ∨ d.typeId = typeBpeLlama3) := by
    rw [htype]
    decide
  have htext : SptbTokenizer.tokenText d.typeId = fun s => unescape s.length s := by
    funext s
    rw [SptbTokenizer.tokenText, if_neg hbpe]
  have hengine : SptbTokenizer.buildEngine (.ok c) d = .ok (some c) := by
    rw [SptbTokenizer.buildEngine, if_pos htype]
    exact if_neg fun h => h (by rw [hvocab])
  rw [SptbTokenizer.build, hblob] at hbuild
  obtain ⟨_, hd, hbuild⟩ := except_bind_ok.mp hbuild
  cases hd
  obtain ⟨_, -, hbuild⟩ := except_bind_ok.mp hbuild
  rw [hengine] at hbuild
  obtain ⟨_, hc, hbuild⟩ := except_bind_ok.mp hbuild
  cases hc
  cases hbuild
  refine ⟨⟨rfl, ?_, ?_⟩, rfl⟩
  · dsimp only
    rw [htext, hvocab]
  · dsimp only
    rw [hvocab]

/-- The ids of a message between its markers. -/
def turn (c : CTokenizer) (start stop nl : Nat) : Message → List Int :=
  frame (start : Int) stop nl (fun m => c.textIds (encode m.label))
    fun m => c.textIds (encode m.content)

/-- The ids of a conversation, behind the beginning. -/
def prompt (c : CTokenizer) (start stop nl : Nat) (messages : List Message) : List Int :=
  messages.flatMap (turn c start stop nl) ++
    ((start : Int) :: c.textIds (encode "model".toList) ++ [(nl : Int)])

/-- The markers of a Gemma 4 vocabulary, whose beginning of the text is `<bos>`. -/
structure Markers (tk : SptbTokenizer) (c : CTokenizer) (start stop nl : Nat) : Prop where
  serves : tk.Serves c
  arch : tk.archId = archGemma3 ∨ tk.archId = archGemma4
  start : tk.controlId (bytesOf "<|turn>") = some start
  stop : tk.controlId (bytesOf "<turn|>") = some stop
  nl : tk.controlId (bytesOf "\n") = some nl
  bos : tk.bosId.map Int.ofNat = some c.special.bos

/-- Byte tokens have six bytes. -/
theorem byteName_ne {s : List UInt8} (h : s.length ≠ 6) : ∀ b < 256, byteName b ≠ s := by
  rintro b - rfl
  exact h rfl

theorem marker_start : Marker "<|turn>".toList :=
  ⟨by decide, by decide, byteName_ne (by decide)⟩

theorem marker_stop : Marker "<turn|>".toList :=
  ⟨by decide, by decide, byteName_ne (by decide)⟩

namespace Markers

variable {tk : SptbTokenizer} {c : CTokenizer} {start stop nl : Nat} {mem : Scratch}

theorem lookup_start (h : Markers tk c start stop nl) :
    c.vocab.lookup (bytesOf "<|turn>") = some start :=
  (controlId_eq h.serves (by decide) (by decide)).symm.trans h.start

theorem lookup_stop (h : Markers tk c start stop nl) :
    c.vocab.lookup (bytesOf "<turn|>") = some stop :=
  (controlId_eq h.serves (by decide) (by decide)).symm.trans h.stop

theorem lookup_nl (h : Markers tk c start stop nl) : c.vocab.lookup [0x0A] = some nl :=
  (controlId_eq h.serves (by decide) (by decide)).symm.trans h.nl

/-- The beginning is stripped from a fragment. -/
theorem encodeNoBos_eq (h : Markers tk c start stop nl) (text : List Char) :
    tk.encodeNoBos mem text = .ok (c.textIds (encode text)) := by
  obtain ⟨bos, hbos, heq⟩ := Option.map_eq_some_iff.mp h.bos
  have hfirst : (c.special.bos :: c.textIds (encode text)).head? = some ((bos : Nat) : Int) :=
    congrArg some heq.symm
  rw [SptbTokenizer.encodeNoBos, SptbTokenizer.encode, h.serves.tokenizer]
  dsimp only
  rw [CTokenizer.encode_eq, hbos]
  change (if _ then _ else _ : Except EncodeError (List Int)) = _
  rw [if_pos hfirst]
  rfl

theorem turnIds_eq (h : Markers tk c start stop nl) (messages : List Message) :
    tk.turnIds mem start stop nl messages = .ok (messages.flatMap (turn c start stop nl)) := by
  induction messages with
  | nil => rfl
  | cons m messages ih =>
      rw [SptbTokenizer.turnIds, h.encodeNoBos_eq, h.encodeNoBos_eq, ih]
      rw [List.flatMap_cons, turn, frame, List.append_assoc]
      rfl

/-- The prompt is the beginning and the turns, the last of which is left open. -/
theorem applyTemplateIds_eq (h : Markers tk c start stop nl) (messages : List Message) :
    tk.applyTemplateIds mem messages = .ok (c.special.bos :: prompt c start stop nl messages) := by
  obtain ⟨bos, hbos, heq⟩ := Option.map_eq_some_iff.mp h.bos
  rw [SptbTokenizer.applyTemplateIds, if_pos h.arch, h.start, h.stop, h.nl]
  dsimp only
  rw [h.turnIds_eq, h.encodeNoBos_eq, hbos, ← heq]
  change Except.ok (_ ++ _ ++ _ ++ _) = _
  rw [prompt, List.append_assoc, List.append_assoc]
  rfl

end Markers

section Prompts

variable {tk : SptbTokenizer} {c : CTokenizer} {start stop nl : Nat}

/-- How often an id stands in a prompt. -/
theorem count_prompt (x : Int) (messages : List Message) :
    (prompt c start stop nl messages).count x =
      (messages.map fun m => (turn c start stop nl m).count x).sum +
        ([(start : Int), nl].count x + (c.textIds (encode "model".toList)).count x) := by
  rw [prompt, List.count_append, List.count_flatMap, List.cons_append, List.count_cons,
    List.count_append]
  simp only [List.count_cons, List.count_nil, Function.comp_def]
  omega

theorem count_turn (x : Int) (m : Message) : (turn c start stop nl m).count x =
    [(start : Int), nl, stop, nl].count x + (c.textIds (encode m.label)).count x +
      (c.textIds (encode m.content)).count x := by
  rw [turn, frame, List.count_append, List.cons_append, List.count_cons, List.count_append,
    List.count_cons]
  simp only [List.count_cons, List.count_nil]
  omega

/-- An id that no text has stands only where the markers are. -/
theorem count_prompt_of_notMem {x : Int} (hx : ∀ text, x ∉ c.textIds (encode text))
    (messages : List Message) : (prompt c start stop nl messages).count x =
      messages.length * [(start : Int), nl, stop, nl].count x + [(start : Int), nl].count x := by
  have hturn : ∀ m ∈ messages, (turn c start stop nl m).count x =
      [(start : Int), nl, stop, nl].count x := by
    intro m _
    rw [count_turn, List.count_eq_zero.mpr (hx _), List.count_eq_zero.mpr (hx _)]
    rfl
  rw [count_prompt, List.map_congr_left hturn, List.map_const', List.sum_replicate,
    List.count_eq_zero.mpr (hx _), Nat.add_zero]
  rfl

/-- The markers are different tokens. -/
theorem Markers.distinct (h : Markers tk c start stop nl) :
    start ≠ stop ∧ start ≠ nl ∧ stop ≠ nl := by
  refine ⟨?_, ?_, ?_⟩ <;> rintro rfl
  · exact absurd (c.vocab.lookup_inj h.lookup_start h.lookup_stop) (by decide)
  · exact absurd (c.vocab.lookup_inj h.lookup_start h.lookup_nl) (by decide)
  · exact absurd (c.vocab.lookup_inj h.lookup_stop h.lookup_nl) (by decide)

/-- How often the markers frame a message, and the turn that is left open. -/
theorem Markers.framed (h : Markers tk c start stop nl) :
    ([(start : Int), nl, stop, nl].count (start : Int) = 1 ∧
        [(start : Int), nl].count (start : Int) = 1) ∧
      [(start : Int), nl, stop, nl].count (stop : Int) = 1 ∧
        [(start : Int), nl].count (stop : Int) = 0 := by
  obtain ⟨hstop, hnl, hnl'⟩ := h.distinct
  simp [hstop, hstop.symm, hnl.symm, hnl'.symm]

/-- The beginning is none of the markers. -/
theorem Markers.bos_ne (h : Markers tk c start stop nl) :
    c.special.bos ≠ start ∧ c.special.bos ≠ stop := by
  obtain ⟨bos, hbos, heq⟩ := Option.map_eq_some_iff.mp h.bos
  have hlookup : c.vocab.lookup (bytesOf "<bos>") = some bos := by
    rw [Vocab.lookup_eq, ← hbos, h.serves.bos]
    congr 1
    funext s
    rw [Bool.eq_iff_iff, decide_eq_true_iff, beq_iff_eq]
  rw [← heq]
  constructor <;> intro hsame <;> rw [Int.ofNat_eq_natCast, Int.natCast_inj] at hsame
  · rw [hsame] at hlookup
    exact absurd (c.vocab.lookup_inj hlookup h.lookup_start) (by decide)
  · rw [hsame] at hlookup
    exact absurd (c.vocab.lookup_inj hlookup h.lookup_stop) (by decide)

end Prompts

/-- In every prompt the start of a turn stands once for each message and once more at the end, and
the end of a turn once for each message, just when the encoder takes the texts of the two markers
for something else. -/
theorem prompt_markers_iff {tk : SptbTokenizer} {c : CTokenizer} {start stop nl : Nat}
    (h : Markers tk c start stop nl) :
    (∀ mem messages, ∃ ids, tk.applyTemplateIds mem messages = .ok ids ∧
        ids.count (start : Int) = messages.length + 1 ∧
        ids.count (stop : Int) = messages.length) ↔
      c.textIds (bytesOf "<|turn>") ≠ [(start : Int)] ∧
        c.textIds (bytesOf "<turn|>") ≠ [(stop : Int)] := by
  obtain ⟨⟨hturn, hopen⟩, hturn', hopen'⟩ := h.framed
  obtain ⟨hbos, hbos'⟩ := h.bos_ne
  have hcount : ∀ (messages : List Message) (x : Int), c.special.bos ≠ x →
      (c.special.bos :: prompt c start stop nl messages).count x =
        (prompt c start stop nl messages).count x := by
    intro messages x hx
    rw [List.count_cons_of_ne hx]
  constructor
  · intro hall
    -- a message that has the text of a marker for its content
    have hone : ∀ (content : List Char) (x : Int), c.textIds (encode content) = [x] →
        [(start : Int), nl, stop, nl].count x + 1 + [(start : Int), nl].count x ≤
          (prompt c start stop nl [⟨[], content⟩]).count x := by
      intro content x hx
      rw [count_prompt, List.map_singleton, List.sum_singleton, count_turn]
      dsimp only
      rw [hx, List.count_singleton_self]
      omega
    have hids : ∀ content : List Char,
        (c.special.bos :: prompt c start stop nl [⟨[], content⟩]).count (start : Int) = 2 ∧
          (c.special.bos :: prompt c start stop nl [⟨[], content⟩]).count (stop : Int) = 1 := by
      intro content
      obtain ⟨ids, hids, hcounts⟩ := hall ⟨fun _ => ⟨none, none, ⟨0, 0⟩, none⟩,
        fun _ => ⟨0, 0, 0, none, none⟩⟩ [⟨[], content⟩]
      rw [h.applyTemplateIds_eq] at hids
      cases hids
      exact hcounts
    constructor
    · intro htyped
      have hmany := hone _ _ htyped
      have htwo := (hids "<|turn>".toList).1
      rw [hcount _ _ hbos] at htwo
      omega
    · intro htyped
      have hmany := hone _ _ htyped
      have hsingle := (hids "<turn|>".toList).2
      rw [hcount _ _ hbos'] at hsingle
      omega
  · rintro ⟨hstart, hstop⟩ mem messages
    refine ⟨_, h.applyTemplateIds_eq messages, ?_, ?_⟩
    · rw [hcount _ _ hbos, count_prompt_of_notMem
        fun text => marker_notMem marker_start h.lookup_start hstart, hturn, hopen, Nat.mul_one]
    · rw [hcount _ _ hbos', count_prompt_of_notMem
        fun text => marker_notMem marker_stop h.lookup_stop hstop, hturn', hopen', Nat.mul_one,
        Nat.add_zero]

/-- A message as a prompt tells it: the assistant is the model, and the spaces may be written as
U+2581. -/
def Message.shown (m : Message) : List Char × List Char :=
  (m.label.map unmark, m.content.map unmark)

/-- A role without newlines has a label without them. -/
theorem Message.newline_notMem_label {m : Message} (h : '\n' ∉ m.role) : '\n' ∉ m.label := by
  rw [Message.label]
  split
  · decide
  · exact h

/-- Conversations whose roles have no newline have the same prompt just when their messages are
shown alike, where the encoder takes neither the text of the end of a turn nor that of a byte token
for the token. -/
theorem prompt_inj {tk : SptbTokenizer} {c : CTokenizer} {start stop nl : Nat}
    (h : Markers tk c start stop nl) (hstop : c.textIds (bytesOf "<turn|>") ≠ [(stop : Int)])
    (hbytes : BytesUntyped c) (mem mem' : Scratch) {a b : List Message}
    (ha : ∀ m ∈ a, '\n' ∉ m.role) (hb : ∀ m ∈ b, '\n' ∉ m.role) :
    tk.applyTemplateIds mem a = tk.applyTemplateIds mem' b ↔
      a.map Message.shown = b.map Message.shown := by
  have hfields : ∀ l : List Message, (∀ m ∈ l, '\n' ∉ m.role) → ∀ m ∈ l,
      (nl : Int) ∉ c.textIds (encode m.label) ∧ (stop : Int) ∉ c.textIds (encode m.content) := by
    intro l hl m hm
    exact ⟨newline_notMem h.lookup_nl (Message.newline_notMem_label (hl m hm)),
      marker_notMem marker_stop h.lookup_stop hstop⟩
  have hids : ∀ m m' : Message, m.shown = m'.shown ↔
      (c.textIds (encode m.label), c.textIds (encode m.content)) =
        (c.textIds (encode m'.label), c.textIds (encode m'.content)) := by
    intro m m'
    rw [Message.shown, Message.shown, Prod.mk.injEq, Prod.mk.injEq, textIds_inj hbytes,
      textIds_inj hbytes]
  have hshown : a.map Message.shown = b.map Message.shown ↔
      a.map (fun m => (c.textIds (encode m.label), c.textIds (encode m.content))) =
        b.map fun m => (c.textIds (encode m.label), c.textIds (encode m.content)) := by
    rw [← List.forall₂_eq_eq_eq, ← List.forall₂_eq_eq_eq, List.forall₂_map_left_iff,
      List.forall₂_map_right_iff, List.forall₂_map_left_iff, List.forall₂_map_right_iff]
    simp only [hids]
  rw [h.applyTemplateIds_eq, h.applyTemplateIds_eq, Except.ok.injEq, List.cons_inj_right, hshown]
  constructor
  · exact frames_inj (newline_notMem h.lookup_nl (by decide)) (hfields a ha) (hfields b hb)
  · intro hsame
    have hframes : ∀ l : List Message, l.flatMap (turn c start stop nl) =
        (l.map fun m => (c.textIds (encode m.label), c.textIds (encode m.content))).flatMap
          (frame (start : Int) stop nl Prod.fst Prod.snd) := by
      intro l
      rw [List.flatMap_map]
      rfl
    rw [prompt, prompt, hframes, hframes, hsame]

/-! ## A vocabulary with the markers -/

/-- The byte tokens, the beginning, the markers, and two letters with their merge. -/
def turnTokens : List (List UInt8) :=
  (List.range 256).map byteName ++
    ["<bos>", "<|turn>", "<turn|>", "\n", "a", "b", "ab"].map bytesOf

theorem turnTokens_length : turnTokens.length = 263 := by
  rw [turnTokens, List.length_append, List.length_map, List.length_range]
  rfl

def turnVocab : Vocab := ⟨turnTokens, by rw [turnTokens_length]; omega⟩

theorem turn_build : ∃ t, spG4Build turnVocab letterMerges = .ok t := by
  rw [spG4Build_ok_iff]
  refine ⟨Nat.one_pos, by decide, ?_, ?_⟩
  · intro line hline l r hsplit
    rw [List.mem_singleton.mp hline] at hsplit
    have hsides : g4Split [0x61, 0x20, 0x62] = some ([0x61], [0x62]) := by decide
    rw [hsides, Option.some_inj, Prod.mk.injEq] at hsplit
    obtain ⟨rfl, rfl⟩ := hsplit
    refine ⟨?_, ?_, ?_⟩ <;>
    · apply List.mem_append_right
      decide
  · intro b hb
    exact List.mem_append_left _ (List.mem_map_of_mem (List.mem_range.mpr hb))

/-- What the daemon has of a file with these tokens. -/
def turnTokenizer (c : CTokenizer) : SptbTokenizer where
  inner := none
  cTokenizer := some c
  idToBytes := turnTokens.map fun s => unescape s.length s
  eosIds := [258]
  archId := archGemma4
  typeId := typeGemma4Bpe
  bosId := some 256
  configSuppress := []

theorem turn_markers : ∃ c : CTokenizer, c.merges = letterMerges ∧ c.vocab = turnVocab ∧
    Markers (turnTokenizer c) c 257 258 259 := by
  obtain ⟨t, ht⟩ := turn_build
  have hbos : some 256 = turnTokens.findIdx? fun s => s == bytesOf "<bos>" := by decide +kernel
  have hstart : (turnTokens.map fun s => unescape s.length s).findIdx?
      (fun b => b == bytesOf "<|turn>") = some 257 := by decide +kernel
  have hstop : (turnTokens.map fun s => unescape s.length s).findIdx?
      (fun b => b == bytesOf "<turn|>") = some 258 := by decide +kernel
  have hnl : (turnTokens.map fun s => unescape s.length s).findIdx?
      (fun b => b == bytesOf "\n") = some 259 := by decide +kernel
  exact ⟨⟨turnVocab, letterMerges, t, ⟨true, 256, -1, -1, -1⟩, ht, rfl, by decide⟩, rfl, rfl,
    ⟨rfl, rfl, hbos⟩, Or.inr rfl, hstart, hstop, hnl, rfl⟩

/-- Byte tokens are cut into their characters, none of which is merged. -/
theorem byteName_parts {b : Nat} (hb : b < 256) :
    naive (mergeRank letterMerges) (fun a b _ => a ++ b) (g4Chars (byteName b)).length
      (g4Chars (byteName b)) = (byteName b).map fun c => [c] := by
  have hdigits : ∀ d < 16, g4Utf8Len (hexDigit d) = 1 ∧ hexDigit d ≠ 0x61 := by decide
  obtain ⟨hhi, hhi'⟩ := hdigits (b / 16) (by omega)
  obtain ⟨hlo, hlo'⟩ := hdigits (b % 16) (by omega)
  have hchars : g4Chars (byteName b) = (byteName b).map fun c => [c] := by
    rw [g4Chars, spans]
    apply cut_chars
    · intro x hx
      obtain ⟨c, hc, rfl⟩ := List.mem_map.mp hx
      refine ⟨c, [], rfl, ?_⟩
      simp only [byteName, List.mem_cons, List.not_mem_nil, or_false] at hc
      rcases hc with rfl | rfl | rfl | rfl | rfl | rfl
      · rfl
      · rfl
      · rfl
      · exact hhi
      · exact hlo
      · rfl
    · rw [List.drop_zero, ← List.flatMap_def, List.flatMap_singleton']
    · exact Nat.le_add_left _ 0
  have hrank : ∀ {c : UInt8} {y : List UInt8}, c ≠ 0x61 → mergeRank letterMerges [c] y = none := by
    intro c y hc
    have hsides : g4Split [0x61, 0x20, 0x62] = some ([0x61], [0x62]) := by decide
    simp only [mergeRank, letterMerges, List.findIdx?_cons, hsides, Option.some.injEq,
      Prod.mk.injEq, List.cons.injEq, hc.symm, false_and, decide_false, List.findIdx?_nil]
    rfl
  rw [hchars]
  apply naive_of_best_none
  simp only [byteName, List.map_cons, List.map_nil, best, hrank hhi', hrank hlo',
    hrank (show (0x3C : UInt8) ≠ 0x61 by decide), hrank (show (0x30 : UInt8) ≠ 0x61 by decide),
    hrank (show (0x78 : UInt8) ≠ 0x61 by decide), Option.map_none]

/-- The letters of the markers are not merged. -/
theorem turn_untyped {c : CTokenizer} (hmerges : c.merges = letterMerges)
    (hvocab : c.vocab = turnVocab) : c.parts (bytesOf "<|turn>") ≠ [bytesOf "<|turn>"] ∧
      c.parts (bytesOf "<turn|>") ≠ [bytesOf "<turn|>"] ∧ BytesUntyped c := by
  rw [BytesUntyped, hvocab]
  simp only [CTokenizer.parts, hmerges]
  refine ⟨by decide, by decide, ?_⟩
  intro surface hsurface hbyte
  rcases List.mem_append.mp hsurface with hname | hother
  · obtain ⟨b, hb, rfl⟩ := List.mem_map.mp hname
    rw [byteName_parts (List.mem_range.mp hb)]
    intro hwhole
    exact absurd (congrArg List.length hwhole) (by simp [byteName])
  · have hnone : ∀ s ∈ ["<bos>", "<|turn>", "<turn|>", "\n", "a", "b", "ab"].map bytesOf,
        g4ByteToken s = none := by decide
    rw [hnone surface hother] at hbyte
    cases hbyte

theorem prompt_markers_letters : ∃ c : CTokenizer, (∀ mem messages, ∃ ids,
      (turnTokenizer c).applyTemplateIds mem messages = .ok ids ∧
        ids.count ((257 : Nat) : Int) = messages.length + 1 ∧
        ids.count ((258 : Nat) : Int) = messages.length) ∧
    c.textIds (bytesOf "<turn|>") ≠ [((258 : Nat) : Int)] := by
  obtain ⟨c, hmerges, hvocab, h⟩ := turn_markers
  obtain ⟨hstart, hstop, -⟩ := turn_untyped hmerges hvocab
  have hstart' := fun hids => hstart ((marker_typed_iff marker_start h.lookup_start).mp hids)
  have hstop' := fun hids => hstop ((marker_typed_iff marker_stop h.lookup_stop).mp hids)
  exact ⟨c, (prompt_markers_iff h).mpr ⟨hstart', hstop'⟩, hstop'⟩

/-- A space and U+2581 make no difference to a prompt, and neither do the names of the model. -/
theorem prompt_inj_letters : ∃ c : CTokenizer, ∀ mem mem' : Scratch,
    (turnTokenizer c).applyTemplateIds mem [⟨"model".toList, "a b".toList⟩] =
        (turnTokenizer c).applyTemplateIds mem' [⟨"assistant".toList, ['a', spaceMark, 'b']⟩] ∧
      (turnTokenizer c).applyTemplateIds mem [⟨"user".toList, "ab".toList⟩] ≠
        (turnTokenizer c).applyTemplateIds mem' [⟨"user".toList, "a".toList⟩] := by
  obtain ⟨c, hmerges, hvocab, h⟩ := turn_markers
  obtain ⟨-, hstop, hbytes⟩ := turn_untyped hmerges hvocab
  have hstop' := fun hids => hstop ((marker_typed_iff marker_stop h.lookup_stop).mp hids)
  refine ⟨c, fun mem mem' => ⟨?_, ?_⟩⟩
  · exact (prompt_inj h hstop' hbytes mem mem' (by decide) (by decide)).mpr (by decide)
  · rw [Ne, prompt_inj h hstop' hbytes mem mem' (by decide) (by decide)]
    decide

end ShannonPrime.Daemon
