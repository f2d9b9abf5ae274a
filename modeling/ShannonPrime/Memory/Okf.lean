import ShannonPrime.Lib.Lines
import ShannonPrime.Memory.Store

/-!
A memory as a document: lines of policy between two delimiters, then the text. The reader of the
policy looks at the lines of the frontmatter, the last one of a key wins; the reader of the body
looks at what is behind the second delimiter. Neither tells a line from the trimmed one.
-/

namespace ShannonPrime.Memory.Okf

open Recall Lines

/-! ### Reading a policy -/

/-- `str::split_once`, at a character. -/
def splitOnce (sep : Char) : Text → Option (Text × Text)
  | [] => none
  | c :: s => if c = sep then some ([], s) else (splitOnce sep s).map fun (k, v) => (c :: k, v)

def isDelimiter (l : Text) : Bool := trim l == "---".toList

/-- `s.trim_matches(|c| c == '[' || c == ']')` -/
def trimBrackets (s : Text) : Text :=
  let bracket := fun c => c == '[' || c == ']'
  (s.dropWhile bracket).rdropWhile bracket

/-- The variables of the reader. -/
structure PolicyLines where
  memClass : Option Text
  delivery : Option Text
  declineWhen : List Text
  declineMessage : Text
  deriving DecidableEq

namespace PolicyLines

def start : PolicyLines := ⟨none, none, [], []⟩

def set (f : PolicyLines) (k v : Text) : PolicyLines :=
  if k = "mem_class".toList then { f with memClass := some v }
  else if k = "mem_delivery".toList then { f with delivery := some v }
  else if k = "mem_decline_when".toList then
    { f with declineWhen := (((trimBrackets v).splitOn ',').map trim).filter (!·.isEmpty) }
  else if k = "mem_decline_message".toList then { f with declineMessage := v }
  else f

def line (f : PolicyLines) (l : Text) : PolicyLines :=
  match splitOnce ':' l with
  | some (k, v) => f.set (trim k) (trim v)
  | none => f

/-- The lines of a frontmatter in turn. -/
def scan (f : PolicyLines) (ls : List Text) : PolicyLines := ls.foldl line f

def policy (f : PolicyLines) : Option MemPolicy :=
  f.memClass.map fun memClass =>
    ⟨memClass, f.delivery.getD (classDefaultDelivery memClass), f.declineWhen, f.declineMessage⟩

end PolicyLines

/-- The loop of `parse_okf_policy`. The flag is `in_fm`. -/
def parseLines : Bool → List Text → PolicyLines → PolicyLines
  | _, [], f => f
  | inFm, l :: ls, f =>
      if isDelimiter l then if inFm then f else parseLines true ls f
      else parseLines inFm ls (if inFm then f.line l else f)

def parseOkfPolicy (text : Text) : Option MemPolicy :=
  (parseLines false (lines text) .start).policy

/-- The loop of `okf_body`: the delimiters seen, and the lines behind the second. -/
def bodyLines : Nat → List Text → Nat × List Text
  | fences, [] => (fences, [])
  | fences, l :: ls =>
      if isDelimiter l && fences < 2 then bodyLines (fences + 1) ls
      else
        let rest := bodyLines fences ls
        (rest.1, if 2 ≤ fences then l :: rest.2 else rest.2)

def okfBody (text : Text) : Text :=
  let r := bodyLines 0 (lines text)
  trim (if 2 ≤ r.1 then unlines r.2 else text)

/-! ### Writing a policy -/

def entry (key : String) (value : Text) : Text := key.toList ++ ": ".toList ++ value

def authority (memClass : Text) : Text :=
  if memClass = "private-secret".toList then "private".toList
  else if memClass = "persona".toList ∨ memClass = "preference".toList ∨
      memClass = "fact".toList ∨ memClass = "episodic-event".toList then "supplements".toList
  else "overrides-prior".toList

/-- The lines that carry the policy of a class. -/
def policyLines (memClass : Text) : List Text :=
  let pol := MemPolicy.fromClass memClass
  [entry "mem_class" memClass, entry "mem_delivery" pol.delivery,
    entry "mem_authority" (authority memClass)] ++
  if pol.declineWhen.isEmpty then []
  else
    [entry "mem_decline_when"
        ("[".toList ++ ", ".toList.intercalate pol.declineWhen ++ "]".toList),
      entry "mem_decline_message" pol.declineMessage]

def policyKeys : List String :=
  ["mem_class", "mem_delivery", "mem_authority", "mem_decline_when", "mem_decline_message"]

/-- What stands behind the keys, the class apart. -/
def policyValues : List Text :=
  ["attr-gate-strict", "systemecho", "system", "recite", "private", "supplements",
    "overrides-prior", "[zero-inference, attribute-absent]", Recall.declineMessage].map String.toList

theorem mem_policyLines {memClass l : Text} (hl : l ∈ policyLines memClass) :
    ∃ k v, l = entry k v ∧ k ∈ policyKeys ∧ (v = memClass ∨ v ∈ policyValues) := by
  have hdelivery : classDefaultDelivery memClass ∈ policyValues := by
    rw [classDefaultDelivery]
    split
    · decide
    · split
      · decide
      · split <;> decide
  have hauthority : authority memClass ∈ policyValues := by
    rw [authority]
    split
    · decide
    · split <;> decide
  rw [policyLines, MemPolicy.fromClass] at hl
  split at hl
  all_goals
    simp only [List.isEmpty_nil, List.isEmpty_cons, if_true, Bool.false_eq_true, if_false,
      List.append_nil, List.cons_append, List.nil_append, List.mem_cons, List.not_mem_nil,
      or_false] at hl
  · rcases hl with rfl | rfl | rfl | rfl | rfl
    · exact ⟨_, _, rfl, by decide, .inl rfl⟩
    · exact ⟨_, _, rfl, by decide, .inr hdelivery⟩
    · exact ⟨_, _, rfl, by decide, .inr hauthority⟩
    · exact ⟨_, _, rfl, by decide, .inr (by decide)⟩
    · exact ⟨_, _, rfl, by decide, .inr (by decide)⟩
  · rcases hl with rfl | rfl | rfl
    · exact ⟨_, _, rfl, by decide, .inl rfl⟩
    · exact ⟨_, _, rfl, by decide, .inr hdelivery⟩
    · exact ⟨_, _, rfl, by decide, .inr hauthority⟩

/-! ### White space -/

/-- The characters that are not white space survive trimming. -/
theorem filter_trim (s : Text) :
    (trim s).filter (!isWhitespace ·) = s.filter (!isWhitespace ·) :=
  trim_invariant (List.filter (!isWhitespace ·)) (fun w s hw => by simp [hw])
    (fun w s hw => by simp [hw]) s

theorem mem_trim {c : Char} (hc : isWhitespace c = false) {s : Text} : c ∈ trim s ↔ c ∈ s := by
  have hfilter := congrArg (c ∈ ·) (filter_trim s)
  simpa [hc] using hfilter

@[simp] theorem trim_trim (s : Text) : trim (trim s) = trim s :=
  trim_invariant trim (fun _ s hw => trim_white_cons hw s) (fun _ s hw => trim_white_concat hw s) s

theorem trim_sublist (s : Text) : (trim s).Sublist s :=
  (List.rdropWhile_prefix _ _).sublist.trans (List.dropWhile_sublist _)

theorem trim_length_le (s : Text) : (trim s).length ≤ s.length := (trim_sublist s).length_le

/-- A line and the same without its carriage return are trimmed alike. -/
@[simp] theorem trim_stripCR (l : Text) : trim (stripCR l) = trim l := by
  rcases stripCR_eq l with ⟨hsame, _⟩ | hcut
  · rw [hsame]
  · rw [congrArg trim hcut, trim_white_concat (by decide)]

/-- A trimmed text ends with no carriage return. -/
theorem getLast?_ne_of_trim {s : Text} (h : trim s = s) : s.getLast? ≠ some '\r' := by
  intro hend
  rcases List.eq_nil_or_concat s with rfl | ⟨u, c, rfl⟩
  · simp at hend
  · rw [List.concat_eq_append] at hend h
    rw [List.getLast?_concat, Option.some.injEq] at hend
    have hshort := trim_length_le u
    rw [hend, trim_white_concat (by decide)] at h
    rw [h, List.length_append, List.length_singleton] at hshort
    omega

@[simp] theorem isDelimiter_stripCR (l : Text) : isDelimiter (stripCR l) = isDelimiter l := by
  rw [isDelimiter, isDelimiter, trim_stripCR]

/-- A line with a colon delimits nothing. -/
theorem isDelimiter_of_colon {l : Text} (hl : ':' ∈ l) : isDelimiter l = false := by
  rw [isDelimiter, beq_eq_false_iff_ne]
  intro h
  have hmem := (mem_trim (by decide)).mpr hl
  rw [h] at hmem
  exact absurd hmem (by decide)

/-! ### Lines of policy -/

theorem splitOnce_append {sep : Char} {k : Text} (hk : sep ∉ k) (v : Text) :
    splitOnce sep (k ++ sep :: v) = some (k, v) := by
  induction k with
  | nil => simp [splitOnce]
  | cons c k ih =>
      obtain ⟨hc, hrest⟩ := List.ne_and_not_mem_of_not_mem_cons hk
      rw [List.cons_append, splitOnce, if_neg fun h => hc h.symm, ih hrest]
      rfl

theorem splitOnce_eq_none {sep : Char} {s : Text} (hs : sep ∉ s) : splitOnce sep s = none := by
  induction s with
  | nil => rfl
  | cons c s ih =>
      obtain ⟨hc, hrest⟩ := List.ne_and_not_mem_of_not_mem_cons hs
      rw [splitOnce, if_neg fun h => hc h.symm, ih hrest]
      rfl

namespace PolicyLines

variable (f : PolicyLines)

theorem line_key {k : Text} (hk : ':' ∉ k) (v : Text) :
    f.line (k ++ ':' :: v) = f.set (trim k) (trim v) := by
  rw [line, splitOnce_append hk]

theorem line_plain {l : Text} (hl : ':' ∉ l) : f.line l = f := by
  rw [line, splitOnce_eq_none hl]

@[simp] theorem line_stripCR (l : Text) : f.line (stripCR l) = f.line l := by
  rcases stripCR_eq l with ⟨hsame, _⟩ | hcut
  · rw [hsame]
  · generalize stripCR l = l' at hcut
    subst hcut
    by_cases hcolon : ':' ∈ l'
    · obtain ⟨k, v, rfl, hk⟩ := List.eq_append_cons_of_mem hcolon
      rw [List.append_assoc, List.cons_append, f.line_key hk, f.line_key hk,
        trim_white_concat (by decide)]
    · rw [f.line_plain hcolon, f.line_plain]
      simpa using hcolon

@[simp] theorem scan_stripCR (ls : List Text) : f.scan (ls.map stripCR) = f.scan ls := by
  rw [scan, List.foldl_map, scan]
  simp only [line_stripCR]

theorem scan_append (ls ls' : List Text) : f.scan (ls ++ ls') = (f.scan ls).scan ls' :=
  List.foldl_append

theorem line_entry {key : String} (hkey : ':' ∉ key.toList) (v : Text) :
    f.line (entry key v) = f.set (trim key.toList) (trim v) := by
  have hentry : entry key v = key.toList ++ ':' :: ' ' :: v := by
    rw [entry, List.append_assoc]
    rfl
  rw [hentry, f.line_key hkey, trim_white_cons (by decide)]

/-- The lines of a policy set it, but for the declines that none of them mentions. -/
theorem scan_policyLines {memClass : Text} (hclass : trim memClass = memClass) :
    f.scan (policyLines memClass) =
      if memClass = "private-secret".toList then
        ⟨some memClass, some (classDefaultDelivery memClass),
          (MemPolicy.fromClass memClass).declineWhen, (MemPolicy.fromClass memClass).declineMessage⟩
      else
        { f with
          memClass := some memClass
          delivery := some (classDefaultDelivery memClass) } := by
  have hdelivery : trim (classDefaultDelivery memClass) = classDefaultDelivery memClass := by
    rw [classDefaultDelivery]
    split
    · decide
    · split
      · decide
      · split <;> decide
  have hset : ((f.line (entry "mem_class" memClass)).line
      (entry "mem_delivery" (classDefaultDelivery memClass))).line
        (entry "mem_authority" (authority memClass)) =
      { f with
        memClass := some memClass
        delivery := some (classDefaultDelivery memClass) } := by
    rw [line_entry _ (by decide), line_entry _ (by decide), line_entry _ (by decide), hclass,
      hdelivery]
    rfl
  split
  · rename_i hsecret
    subst hsecret
    have hlines : policyLines "private-secret".toList =
        [entry "mem_class" "private-secret".toList,
          entry "mem_delivery" (classDefaultDelivery "private-secret".toList),
          entry "mem_authority" (authority "private-secret".toList),
          entry "mem_decline_when" "[zero-inference, attribute-absent]".toList,
          entry "mem_decline_message" Recall.declineMessage.toList] := by
      decide
    rw [hlines, scan, List.foldl_cons, List.foldl_cons, List.foldl_cons, hset, List.foldl_cons,
      List.foldl_cons, List.foldl_nil, line_entry _ (by decide), line_entry _ (by decide)]
    rfl
  · rename_i hplain
    rw [policyLines, MemPolicy.fromClass, if_neg hplain, scan]
    exact hset

/-- What a reader takes for the class is on one line and trimmed. -/
def Clean (f : PolicyLines) : Prop := ∀ c ∈ f.memClass, '\n' ∉ c ∧ trim c = c

theorem Clean.line {f : PolicyLines} (h : f.Clean) {l : Text} (hl : '\n' ∉ l) :
    (f.line l).Clean := by
  by_cases hcolon : ':' ∈ l
  · obtain ⟨k, v, rfl, hk⟩ := List.eq_append_cons_of_mem hcolon
    rw [f.line_key hk, set]
    have hv : '\n' ∉ trim v := fun hmem => hl (by simp [(trim_sublist v).subset hmem])
    split
    · rintro c hc
      obtain rfl := Option.some.inj hc
      exact ⟨hv, trim_trim v⟩
    · split
      · exact h
      · split
        · exact h
        · split <;> exact h
  · rwa [f.line_plain hcolon]

end PolicyLines

theorem parseLines_clean {ls : List Text} (hls : ∀ l ∈ ls, '\n' ∉ l) (inFm : Bool)
    {f : PolicyLines} (h : f.Clean) : (parseLines inFm ls f).Clean := by
  induction ls generalizing inFm f with
  | nil => exact h
  | cons l ls ih =>
      have hrest := fun l' hl' => hls l' (List.mem_cons_of_mem _ hl')
      rw [parseLines]
      split
      · split
        · exact h
        · exact ih hrest true h
      · apply ih hrest
        split
        · exact h.line (hls l List.mem_cons_self)
        · exact h

theorem parseOkfPolicy_clean {text : Text} {p : MemPolicy} (hp : parseOkfPolicy text = some p) :
    '\n' ∉ p.memClass ∧ trim p.memClass = p.memClass := by
  obtain ⟨memClass, hclass, rfl⟩ := Option.map_eq_some_iff.mp hp
  exact parseLines_clean (fun _ hl => not_mem_of_mem_lines hl) false
    (f := .start) (fun _ hc => nomatch hc) memClass hclass

/-! ### A document -/

/-- Lines with none of the delimiters. -/
def Free (ls : List Text) : Prop := ∀ l ∈ ls, isDelimiter l = false

instance (ls : List Text) : Decidable (Free ls) := inferInstanceAs (Decidable (∀ l ∈ ls, _))

section Document

variable {pre fm body : List Text} {first second : Text}

theorem parseLines_frontmatter (hfm : Free fm) (hsecond : isDelimiter second = true)
    (f : PolicyLines) : parseLines true (fm ++ second :: body) f = f.scan fm := by
  induction fm generalizing f with
  | nil => simp [parseLines, hsecond, PolicyLines.scan]
  | cons l fm ih =>
      rw [List.cons_append, parseLines, if_neg (by simp [hfm l List.mem_cons_self]), if_pos rfl,
        ih fun l' hl' => hfm l' (List.mem_cons_of_mem _ hl')]
      rfl

theorem parseLines_document (hpre : Free pre) (hfirst : isDelimiter first = true) (hfm : Free fm)
    (hsecond : isDelimiter second = true) (f : PolicyLines) :
    parseLines false (pre ++ first :: (fm ++ second :: body)) f = f.scan fm := by
  induction pre with
  | nil =>
      rw [List.nil_append, parseLines, if_pos hfirst]
      exact parseLines_frontmatter hfm hsecond f
  | cons l pre ih =>
      rw [List.cons_append, parseLines, if_neg (by simp [hpre l List.mem_cons_self])]
      exact ih fun l' hl' => hpre l' (List.mem_cons_of_mem _ hl')

theorem bodyLines_free {n : Nat} (hn : n < 2) {ls : List Text} (hls : Free ls) (rest : List Text) :
    bodyLines n (ls ++ rest) = bodyLines n rest := by
  induction ls with
  | nil => rfl
  | cons l ls ih =>
      rw [List.cons_append, bodyLines, hls l List.mem_cons_self,
        ih fun l' hl' => hls l' (List.mem_cons_of_mem _ hl')]
      simp [show ¬2 ≤ n by omega]

theorem bodyLines_two (ls : List Text) : bodyLines 2 ls = (2, ls) := by
  induction ls with
  | nil => rfl
  | cons l ls ih => simp [bodyLines, ih]

theorem bodyLines_document (hpre : Free pre) (hfirst : isDelimiter first = true) (hfm : Free fm)
    (hsecond : isDelimiter second = true) :
    bodyLines 0 (pre ++ first :: (fm ++ second :: body)) = (2, body) := by
  rw [bodyLines_free (by decide) hpre, bodyLines, hfirst, bodyLines_free (by decide) hfm,
    bodyLines, hsecond, bodyLines_two]
  rfl

variable (pre) in
/-- Both readers of a text whose lines are known. -/
theorem read_document {text : Text} (hlines : lines text = pre ++ first :: (fm ++ second :: body))
    (hpre : Free pre) (hfirst : isDelimiter first = true) (hfm : Free fm)
    (hsecond : isDelimiter second = true) :
    parseOkfPolicy text = (PolicyLines.start.scan fm).policy ∧
      okfBody text = trim (unlines body) := by
  rw [parseOkfPolicy, okfBody, hlines, parseLines_document hpre hfirst hfm hsecond,
    bodyLines_document hpre hfirst hfm hsecond]
  exact ⟨rfl, rfl⟩

end Document

end ShannonPrime.Memory.Okf
