import ShannonPrime.Memory.Okf

/-!
The registry file is rewritten to mark the rows of a text as superseded. A row is a line without
the white space around it; one that does not parse, or has another text, is written as it is, the
others are printed again from the value that was read.
-/

namespace ShannonPrime.Memory

open Recall Lines

/-! ### Values -/

/-- `serde_json::Number`. A float is its bits. -/
inductive Number where
  | posInt (n : UInt64)
  | negInt (n : Int64)
  | float (bits : UInt64)
  deriving DecidableEq

/-- `serde_json::Value`. An object is its fields in the order of the map. -/
inductive Json where
  | null
  | bool (b : Bool)
  | number (n : Number)
  | string (s : Text)
  | array (xs : List Json)
  | object (fields : List (Text × Json))

namespace Json

def lookup (k : Text) : List (Text × Json) → Option Json
  | [] => none
  | (k', v) :: rest => if k = k' then some v else lookup k rest

/-- `BTreeMap::insert` -/
def insertField (k : Text) (v : Json) : List (Text × Json) → List (Text × Json)
  | [] => [(k, v)]
  | (k', v') :: rest =>
      if k = k' then (k, v) :: rest
      else if k < k' then (k, v) :: (k', v') :: rest
      else (k', v') :: insertField k v rest

def get (k : Text) : Json → Option Json
  | object fields => lookup k fields
  | _ => none

def asStr : Json → Option Text
  | string s => some s
  | _ => none

/-- `if let Some(obj) = v.as_object_mut() { obj.insert(..) }` -/
def insert (k : Text) : Json → Json → Json
  | object fields, new => object (insertField k new fields)
  | v, _ => v

def text (v : Json) : Option Text := (v.get "text".toList).bind asStr

/-- The value with its `lifecycle` set. -/
def marked (lc : UInt64) (v : Json) : Json := v.insert "lifecycle".toList (number (.posInt lc))

variable (k : Text) (v : Json) (fields : List (Text × Json))

theorem lookup_insertField_self : lookup k (insertField k v fields) = some v := by
  induction fields with
  | nil => simp [insertField, lookup]
  | cons field rest ih =>
      obtain ⟨k', v'⟩ := field
      rw [insertField]
      split
      · simp [lookup]
      · rename_i hne
        split
        · simp [lookup]
        · rw [lookup, if_neg hne, ih]

theorem lookup_insertField_of_ne {k' : Text} (hne : k' ≠ k) :
    lookup k' (insertField k v fields) = lookup k' fields := by
  induction fields with
  | nil => simp [insertField, lookup, hne]
  | cons field rest ih =>
      obtain ⟨k'', v''⟩ := field
      rw [insertField]
      split
      · rename_i hsame
        rw [lookup, lookup, if_neg hne, if_neg (hsame ▸ hne)]
      · split
        · rw [lookup, if_neg hne]
        · rw [lookup, lookup, ih]

theorem insertField_again : insertField k v (insertField k v fields) = insertField k v fields := by
  induction fields with
  | nil => simp [insertField]
  | cons field rest ih =>
      obtain ⟨k', v'⟩ := field
      rw [insertField]
      split
      · simp [insertField]
      · rename_i hne
        split
        · simp [insertField]
        · rename_i hnot
          rw [insertField, if_neg hne, if_neg hnot, ih]

theorem marked_again (lc : UInt64) : (v.marked lc).marked lc = v.marked lc := by
  cases v with
  | object fields => simp only [marked, insert, insertField_again]
  | _ => rfl

theorem get_marked_of_ne {k : Text} (hne : k ≠ "lifecycle".toList) (lc : UInt64) :
    (v.marked lc).get k = v.get k := by
  cases v with
  | object fields => simp only [marked, insert, get, lookup_insertField_of_ne _ _ _ hne]
  | _ => rfl

theorem text_marked (lc : UInt64) : (v.marked lc).text = v.text := by
  rw [text, text, get_marked_of_ne v (by decide)]

/-- A value with a text is an object, so that the mark is set. -/
theorem get_marked {victim : Text} (htext : v.text = some victim) (lc : UInt64) :
    (v.marked lc).get "lifecycle".toList = some (number (.posInt lc)) := by
  cases v with
  | object fields => simp only [marked, insert, get, lookup_insertField_self]
  | _ => exact absurd htext (by simp [text, get])

def asU64 : Json → Option Nat
  | number (.posInt n) => some n.toNat
  | _ => none

/-- The fields that `load_registry` reads. -/
def row (parseSigHex : Text → Option Sig) (v : Json) : Row :=
  let str := fun k : String => (v.get k.toList).bind asStr
  { name := str "name"
    dir := ((v.get "dir".toList).or (v.get "ring2_path".toList)).bind asStr
    text := v.text
    sig := (str "sig_bits").bind parseSigHex
    memClass := str "mem_class"
    memDelivery := str "mem_delivery"
    memDeclineWhen := (str "mem_decline_when").map fun s =>
      ((s.splitOn ',').map trim).filter (!·.isEmpty)
    memDeclineMessage := str "mem_decline_message"
    lifecycle := (v.get "lifecycle".toList).bind asU64 }

theorem row_marked (parseSigHex : Text → Option Sig) {victim : Text}
    (htext : v.text = some victim) (lc : UInt64) :
    (v.marked lc).row parseSigHex = { v.row parseSigHex with lifecycle := some lc.toNat } := by
  have hother := fun k hne => get_marked_of_ne v (k := k) hne lc
  simp only [row, text_marked, get_marked v htext lc]
  rw [hother _ (by decide), hother _ (by decide), hother _ (by decide), hother _ (by decide),
    hother _ (by decide), hother _ (by decide), hother _ (by decide), hother _ (by decide)]
  rfl

end Json

/-! ### The file -/

/-- `serde_json::from_str` and `serde_json::to_string`, none where they fail. -/
structure SerdeJson where
  fromStr : Text → Option Json
  toString : Json → Option Text

section File

variable (S : SerdeJson) (victim : Text) (lc : UInt64)

/-- The lines of a file, trimmed, without the blank ones. -/
def registryRows (text : Text) : List Text := ((lines text).map trim).filter (!·.isEmpty)

/-- What is written for a row. -/
def markRow (t : Text) : Text :=
  match S.fromStr t with
  | some v => if v.text = some victim then (S.toString (v.marked lc)).getD t else t
  | none => t

/-- `mark_superseded_registry`, from the text of the file to the text that is written. -/
def markSupersededRegistry (text : Text) : Text :=
  unlines ((registryRows text).map (markRow S victim lc))

/-- A row as the store has it. -/
def readLine (parseSigHex : Text → Option Sig) (t : Text) : Line :=
  (S.fromStr t).map (Json.row parseSigHex)

/-- The row is the victim's, with the value that it parses to. -/
def IsVictim (t : Text) (v : Json) : Prop := S.fromStr t = some v ∧ v.text = some victim

/-- The marked rows of this file are printed on one line and read back. `serde_json` does so
for values without floats, and for the floats that its parser gives back. -/
def ReadsBack (text : Text) : Prop :=
  ∀ t ∈ registryRows text, ∀ v, IsVictim S victim t v →
    ∃ p, S.toString (v.marked lc) = some p ∧ S.fromStr p = some (v.marked lc) ∧
      '\n' ∉ p ∧ trim p = p ∧ p ≠ []

/-- A row of another text, or that does not parse, is the same; a row of the victim differs in
its lifecycle alone. -/
def Marked (t t' : Text) : Prop :=
  ((∀ v, ¬IsVictim S victim t v) ∧ t' = t) ∨
    ∃ v v', IsVictim S victim t v ∧ S.fromStr t' = some v' ∧
      v'.get "lifecycle".toList = some (.number (.posInt lc)) ∧
      ∀ k, k ≠ "lifecycle".toList → v'.get k = v.get k

theorem markRow_other {t : Text} (h : ∀ v, ¬IsVictim S victim t v) :
    markRow S victim lc t = t := by
  rw [markRow]
  split
  · rename_i v hparse
    exact if_neg fun htext => h v ⟨hparse, htext⟩
  · rfl

theorem markRow_victim {t : Text} {v : Json} (h : IsVictim S victim t v) :
    markRow S victim lc t = (S.toString (v.marked lc)).getD t := by
  rw [markRow, h.1]
  exact if_pos h.2

theorem registryRows_clean {text t : Text} (ht : t ∈ registryRows text) :
    '\n' ∉ t ∧ trim t = t ∧ t ≠ [] := by
  obtain ⟨hmem, hne⟩ := List.mem_filter.mp ht
  obtain ⟨l, hl, rfl⟩ := List.mem_map.mp hmem
  refine ⟨fun h => not_mem_of_mem_lines hl ((Okf.trim_sublist l).subset h), Okf.trim_trim l, ?_⟩
  simpa using hne

variable {S victim lc} {text : Text} (h : ReadsBack S victim lc text)
include h

theorem markRow_clean : ∀ t ∈ (registryRows text).map (markRow S victim lc),
    '\n' ∉ t ∧ trim t = t ∧ t ≠ [] := by
  intro t' ht'
  obtain ⟨t, ht, rfl⟩ := List.mem_map.mp ht'
  by_cases hvictim : ∃ v, IsVictim S victim t v
  · obtain ⟨v, hv⟩ := hvictim
    obtain ⟨p, hp, _, hclean⟩ := h t ht v hv
    rwa [markRow_victim S victim lc hv, hp]
  · rw [markRow_other S victim lc fun v hv => hvictim ⟨v, hv⟩]
    exact registryRows_clean ht

/-- The rows of the written file, and its lines. -/
theorem rows_markSuperseded :
    lines (markSupersededRegistry S victim lc text) =
        (registryRows text).map (markRow S victim lc) ∧
      registryRows (markSupersededRegistry S victim lc text) =
        (registryRows text).map (markRow S victim lc) := by
  have hclean := markRow_clean h
  have hline : ∀ t ∈ (registryRows text).map (markRow S victim lc), '\n' ∉ t :=
    fun t ht => (hclean t ht).1
  have hlines := lines_unlines hline []
  have hplain : ∀ ls : List Text, (∀ t ∈ ls, trim t = t) →
      ls.map stripCR = ls ∧ ls.map trim = ls := by
    intro ls hls
    refine ⟨?_, ?_⟩
    · conv_rhs => rw [← List.map_id ls]
      refine List.map_congr_left fun t ht => stripCR_eq_self_iff.mpr fun hend => ?_
      exact Okf.getLast?_ne_of_trim (hls t ht) hend
    · conv_rhs => rw [← List.map_id ls]
      exact List.map_congr_left fun t ht => hls t ht
  obtain ⟨hstrip, htrim⟩ := hplain _ fun t ht => (hclean t ht).2.1
  have hrows : lines (markSupersededRegistry S victim lc text) =
      (registryRows text).map (markRow S victim lc) := by
    rw [List.append_nil, hstrip] at hlines
    rw [markSupersededRegistry, hlines, lines, List.append_nil]
  refine ⟨hrows, ?_⟩
  rw [registryRows, hrows, htrim]
  refine List.filter_eq_self.mpr fun t ht => ?_
  simpa using (hclean t ht).2.2

theorem markRow_again {t : Text} (ht : t ∈ registryRows text) :
    markRow S victim lc (markRow S victim lc t) = markRow S victim lc t := by
  by_cases hvictim : ∃ v, IsVictim S victim t v
  · obtain ⟨v, hv⟩ := hvictim
    obtain ⟨p, hp, hread, _⟩ := h t ht v hv
    have hsame : IsVictim S victim p (v.marked lc) := ⟨hread, by rw [Json.text_marked, hv.2]⟩
    rw [markRow_victim S victim lc hv, hp, Option.getD_some, markRow_victim S victim lc hsame,
      Json.marked_again, hp, Option.getD_some]
  · have hother := markRow_other S victim lc fun v hv => hvictim ⟨v, hv⟩
    rw [hother, hother]

theorem markRow_marked {t : Text} (ht : t ∈ registryRows text) :
    Marked S victim lc t (markRow S victim lc t) := by
  by_cases hvictim : ∃ v, IsVictim S victim t v
  · obtain ⟨v, hv⟩ := hvictim
    obtain ⟨p, hp, hread, _⟩ := h t ht v hv
    refine .inr ⟨v, v.marked lc, hv, ?_, Json.get_marked v hv.2 lc,
      fun k hk => Json.get_marked_of_ne v hk lc⟩
    rw [markRow_victim S victim lc hv, hp, Option.getD_some, hread]
  · have hnone := fun v hv => hvictim ⟨v, hv⟩
    exact .inl ⟨hnone, markRow_other S victim lc hnone⟩

/-- The file read back is the marking of the rows that were read. -/
theorem readLine_markSuperseded (parseSigHex : Text → Option Sig) :
    (lines (markSupersededRegistry S victim lc text)).map (readLine S parseSigHex) =
      markSuperseded victim lc.toNat ((registryRows text).map (readLine S parseSigHex)) := by
  rw [(rows_markSuperseded h).1, markSuperseded, List.map_map, List.map_map]
  refine List.map_congr_left fun t ht => ?_
  change readLine S parseSigHex (markRow S victim lc t) = _
  rw [Function.comp_apply, readLine, readLine]
  by_cases hvictim : ∃ v, IsVictim S victim t v
  · obtain ⟨v, hv⟩ := hvictim
    obtain ⟨p, hp, hread, _⟩ := h t ht v hv
    have htext : (v.row parseSigHex).text = some victim := hv.2
    rw [markRow_victim S victim lc hv, hp, Option.getD_some, hread, hv.1, Option.map_some,
      Option.map_some, Option.map_some, if_pos htext, Json.row_marked v parseSigHex hv.2]
  · rw [markRow_other S victim lc fun v hv => hvictim ⟨v, hv⟩]
    cases hparse : S.fromStr t with
    | none => rfl
    | some v =>
        have htext : (v.row parseSigHex).text ≠ some victim :=
          fun htext => hvictim ⟨v, hparse, htext⟩
        rw [Option.map_some, Option.map_some, if_neg htext]

end File

/-- The rows of the file are written one to a line, in order, each the same but for the lifecycle
of the victim's, and another time changes nothing. -/
theorem supersede_marks_rows (S : SerdeJson) (victim : Text) (lc : UInt64) (text : Text)
    (h : ReadsBack S victim lc text) :
    List.Forall₂ (Marked S victim lc) (registryRows text)
        (lines (markSupersededRegistry S victim lc text)) ∧
      markSupersededRegistry S victim lc (markSupersededRegistry S victim lc text) =
        markSupersededRegistry S victim lc text := by
  obtain ⟨hlines, hrows⟩ := rows_markSuperseded h
  constructor
  · rw [hlines, List.forall₂_map_right_iff]
    exact List.forall₂_same.mpr fun t ht => markRow_marked h ht
  · rw [markSupersededRegistry, hrows, List.map_map]
    exact congrArg unlines (List.map_congr_left fun t ht => markRow_again h ht)

/-- A row with a text and no other field, and the same superseded. -/
def blueRow : Text := "\x7b\"text\":\"blue\"\x7d".toList

def blueMarked : Text := "\x7b\"lifecycle\":1,\"text\":\"blue\"\x7d".toList

def blueValue : Json := .object [("text".toList, .string "blue".toList)]

/-- The parser and the printer on these rows; nothing else parses. -/
def blueJson : SerdeJson where
  fromStr t :=
    if t = blueRow then some blueValue
    else if t = blueMarked then some (blueValue.marked 1)
    else none
  toString v := some (if (v.get "lifecycle".toList).isSome then blueMarked else blueRow)

/-- A registry of one row, with the row superseded. -/
theorem supersede_marks_blue :
    List.Forall₂ (Marked blueJson "blue".toList 1) (registryRows (blueRow ++ ['\n']))
        (lines (markSupersededRegistry blueJson "blue".toList 1 (blueRow ++ ['\n']))) ∧
      markSupersededRegistry blueJson "blue".toList 1
          (markSupersededRegistry blueJson "blue".toList 1 (blueRow ++ ['\n'])) =
        markSupersededRegistry blueJson "blue".toList 1 (blueRow ++ ['\n']) :=
  supersede_marks_rows blueJson "blue".toList 1 (blueRow ++ ['\n']) fun t ht v hv => by
    have hrows : registryRows (blueRow ++ ['\n']) = [blueRow] := by decide
    rw [hrows, List.mem_singleton] at ht
    subst ht
    obtain rfl : blueValue = v := Option.some.inj hv.1
    exact ⟨blueMarked, rfl, rfl, by decide, by decide, by decide⟩

/-- Line by line the file is not the same: a line that does not parse is trimmed. -/
theorem padded_line_trimmed :
    ¬∀ (S : SerdeJson) (victim : Text) (lc : UInt64) (text : Text), ReadsBack S victim lc text →
      List.Forall₂ (Marked S victim lc) (lines text)
        (lines (markSupersededRegistry S victim lc text)) := by
  intro h
  have hfile := h blueJson "blue".toList 1 "  not json\n".toList fun t ht v hv => by
    have hrows : registryRows "  not json\n".toList = ["not json".toList] := by decide
    rw [hrows, List.mem_singleton] at ht
    subst ht
    exact nomatch hv.1
  have hbefore : lines "  not json\n".toList = ["  not json".toList] := by decide
  have hafter : lines (markSupersededRegistry blueJson "blue".toList 1 "  not json\n".toList) =
      ["not json".toList] := by decide
  rw [hbefore, hafter] at hfile
  cases hfile with
  | cons hrow _ =>
      rcases hrow with ⟨_, hsame⟩ | ⟨v, _, hv, _⟩
      · exact absurd hsame (by decide)
      · exact nomatch hv.1

end ShannonPrime.Memory
