import Mathlib.Algebra.GroupWithZero.Nat
import Mathlib.Data.List.DropRight

/-!
The lexical helpers of recall, on texts as character lists. All of them see a
text only through its words, so they cannot tell a text from the trimmed one.
-/

namespace ShannonPrime.Recall

/-- `char::is_whitespace`. -/
def isWhitespace (c : Char) : Bool :=
  (0x9 ≤ c.toNat && c.toNat ≤ 0xD) || c.toNat == 0x20 || c.toNat == 0x85 ||
    c.toNat == 0xA0 || c.toNat == 0x1680 || (0x2000 ≤ c.toNat && c.toNat ≤ 0x200A) ||
    c.toNat == 0x2028 || c.toNat == 0x2029 || c.toNat == 0x202F || c.toNat == 0x205F ||
    c.toNat == 0x3000

/-- The Unicode tables behind `char::is_alphanumeric` and `str::to_lowercase`. A
white space character is no letter or digit, it is its own lower case, and the
case of the text on one side of it does not depend on the other side. -/
structure Unicode where
  isAlphanumeric : Char → Bool
  toLowercase : List Char → List Char
  white_not_alphanumeric : ∀ c, isWhitespace c = true → isAlphanumeric c = false
  toLowercase_white : ∀ a w b, isWhitespace w = true →
    toLowercase (a ++ w :: b) = toLowercase a ++ w :: toLowercase b
  toLowercase_nil : toLowercase [] = []

/-- `str::trim`. -/
def trim (s : List Char) : List Char := (s.dropWhile isWhitespace).rdropWhile isWhitespace

/-- `split_whitespace().next()`, the empty text when there is none. -/
def firstWord (s : List Char) : List Char :=
  (s.dropWhile isWhitespace).takeWhile (fun c => !isWhitespace c)

/-- `str::len`, in bytes of UTF-8. -/
def byteLen (s : List Char) : Nat := (s.map fun c => c.utf8Size).sum

def isAsciiDigit (c : Char) : Bool := 0x30 ≤ c.toNat && c.toNat ≤ 0x39

def interrogativeHeads : List (List Char) :=
  ["what", "which", "who", "whom", "whose", "where", "when", "why", "how",
    "is", "are", "was", "were", "am", "do", "does", "did", "can", "could",
    "should", "would", "will", "shall", "have", "has", "had",
    "name", "tell", "state", "give", "list", "recall", "remember", "recite",
    "identify", "describe", "explain"].map String.toList

def stopWords : List (List Char) :=
  ["the", "is", "are", "was", "were", "what", "which", "who", "whom", "whose",
    "of", "for", "and", "or", "does", "do", "did", "how", "many", "much", "that",
    "this", "its", "with", "by", "from", "you", "your", "have", "has", "had",
    "been", "be", "as", "not", "now", "current", "currently", "authoritative",
    "context", "there", "any", "about", "into", "please", "tell", "give", "list"].map
    String.toList

/-- `OVERLAP_STOP`. -/
def overlapStop : List (List Char) :=
  ["the", "an", "of", "to", "in", "on", "at", "for", "and", "or", "is", "are",
    "was", "were", "been", "with", "from", "that", "this", "its", "as", "by"].map String.toList

/-- The lower case of an ASCII letter or digit, a blank for any other character. -/
def overlapChar (c : Char) : Char :=
  if 0x41 ≤ c.toNat && c.toNat ≤ 0x5A then Char.ofNat (c.toNat + 0x20)
  else if isAsciiDigit c || (0x61 ≤ c.toNat && c.toNat ≤ 0x7A) then c
  else ' '

def overlapToks (t : List Char) : List (List Char) :=
  ((t.map overlapChar).splitOnP isWhitespace).filter fun w =>
    3 ≤ w.length && !overlapStop.contains w

section Lexical

variable (u : Unicode)

/-- The maximal runs of letters and digits. -/
def words (s : List Char) : List (List Char) :=
  (s.splitOnP fun c => !u.isAlphanumeric c).filter fun w => !w.isEmpty

def isInterrogative (q : List Char) : Bool :=
  q.contains '?' ||
    interrogativeHeads.contains (u.toLowercase ((firstWord (trim q)).filter u.isAlphanumeric))

/-- The query's salient words, and those of them the fact does not have. -/
def salient (query : List Char) : List (List Char) :=
  (words u (u.toLowercase query)).filter fun w => 3 ≤ byteLen w && !stopWords.contains w

def absentWords (query fact : List Char) : List (List Char) :=
  (salient u query).filter fun w => !(words u (u.toLowercase fact)).contains w

/-- `split` here keeps the empty words, which the length excludes. -/
def queryHasEntityToken (query : List Char) : Bool :=
  (query.splitOnP fun c => !u.isAlphanumeric c).any fun w => 4 ≤ byteLen w && w.any isAsciiDigit

end Lexical

/-! ### Trimming -/

theorem trim_white_cons {w : Char} (hw : isWhitespace w = true) (s : List Char) :
    trim (w :: s) = trim s := by
  simp [trim, hw]

theorem trim_white_concat {w : Char} (hw : isWhitespace w = true) (s : List Char) :
    trim (s ++ [w]) = trim s := by
  unfold trim
  rw [List.dropWhile_append]
  split
  case isTrue hall =>
    have hnil : s.dropWhile isWhitespace = [] := by simpa using hall
    simp [hnil, hw]
  case isFalse => rw [List.rdropWhile_concat_pos _ _ _ hw]

/-- A text without white space is left as it is. -/
theorem trim_plain {s : List Char} (h : ∀ c ∈ s, isWhitespace c = false) : trim s = s := by
  have hfront : s.dropWhile isWhitespace = s := by
    apply List.dropWhile_eq_self_iff.mpr
    intro hpos
    simp [h _ (List.getElem_mem hpos)]
  rw [trim, hfront]
  apply List.rdropWhile_eq_self_iff.mpr
  intro hne
  simp [h _ (List.getLast_mem hne)]

/-- A function of a text that overlooks white space at either end overlooks
trimming. -/
theorem trim_invariant {β : Type} (f : List Char → β)
    (hfront : ∀ w s, isWhitespace w = true → f (w :: s) = f s)
    (hback : ∀ w s, isWhitespace w = true → f (s ++ [w]) = f s) (s : List Char) :
    f (trim s) = f s := by
  have hleft : ∀ front s, (∀ c ∈ front, isWhitespace c = true) → f (front ++ s) = f s := by
    intro front s hfrontWhite
    induction front with
    | nil => rfl
    | cons w front ih =>
        rw [List.cons_append, hfront w _ (hfrontWhite w (by simp))]
        exact ih fun c hc => hfrontWhite c (by simp [hc])
  have hright : ∀ back s, (∀ c ∈ back, isWhitespace c = true) → f (s ++ back) = f s := by
    intro back
    induction back with
    | nil => simp
    | cons w back ih =>
        intro s hbackWhite
        have hcons : s ++ w :: back = (s ++ [w]) ++ back := by simp
        rw [hcons, ih _ fun c hc => hbackWhite c (by simp [hc]), hback w _ (hbackWhite w (by simp))]
  have hsplit : s = s.takeWhile isWhitespace ++
      (trim s ++ (s.dropWhile isWhitespace).rtakeWhile isWhitespace) := by
    rw [trim, List.rdropWhile_append_rtakeWhile, List.takeWhile_append_dropWhile]
  conv_rhs => rw [hsplit]
  rw [hleft _ _ fun c hc => List.mem_takeWhile_imp hc,
    hright _ _ fun c hc => List.mem_rtakeWhile_imp hc]

section Words

variable (u : Unicode)

theorem toLowercase_white_cons {w : Char} (hw : isWhitespace w = true) (s : List Char) :
    u.toLowercase (w :: s) = w :: u.toLowercase s := by
  simpa [u.toLowercase_nil] using u.toLowercase_white [] w s hw

theorem toLowercase_white_concat {w : Char} (hw : isWhitespace w = true) (s : List Char) :
    u.toLowercase (s ++ [w]) = u.toLowercase s ++ [w] := by
  simpa [u.toLowercase_nil] using u.toLowercase_white s w [] hw

theorem splitOnP_concat_pos {p : Char → Bool} {w : Char} (hw : p w = true) (s : List Char) :
    (s ++ [w]).splitOnP p = s.splitOnP p ++ [[]] := by
  induction s with
  | nil => simp [List.splitOnP_cons_eq_if_modifyHead, hw]
  | cons c s ih =>
      rw [List.cons_append, List.splitOnP_cons_eq_if_modifyHead, List.splitOnP_cons_eq_if_modifyHead, ih]
      split
      case isTrue => rfl
      case isFalse =>
        cases hrest : s.splitOnP p with
        | nil => exact absurd hrest (List.splitOnP_ne_nil p s)
        | cons first rest => rfl

theorem separator_of_white {w : Char} (hw : isWhitespace w = true) :
    (!u.isAlphanumeric w) = true := by
  simp [u.white_not_alphanumeric w hw]

theorem words_white_cons {w : Char} (hw : isWhitespace w = true) (s : List Char) :
    words u (w :: s) = words u s := by
  simp [words, List.splitOnP_cons_eq_if_modifyHead, separator_of_white u hw]

theorem words_white_concat {w : Char} (hw : isWhitespace w = true) (s : List Char) :
    words u (s ++ [w]) = words u s := by
  unfold words
  rw [splitOnP_concat_pos (separator_of_white u hw)]
  simp

theorem salient_trim (query : List Char) : salient u (trim query) = salient u query := by
  apply trim_invariant
  · intro w s hw
    simp only [salient, toLowercase_white_cons u hw, words_white_cons u hw]
  · intro w s hw
    simp only [salient, toLowercase_white_concat u hw, words_white_concat u hw]

theorem absentWords_trim (query fact : List Char) :
    absentWords u (trim query) fact = absentWords u query fact := by
  simp only [absentWords, salient_trim]

theorem queryHasEntityToken_trim (query : List Char) :
    queryHasEntityToken u (trim query) = queryHasEntityToken u query := by
  apply trim_invariant
  · intro w s hw
    simp [queryHasEntityToken, List.splitOnP_cons_eq_if_modifyHead, separator_of_white u hw]
  · intro w s hw
    unfold queryHasEntityToken
    rw [splitOnP_concat_pos (separator_of_white u hw)]
    simp

theorem isInterrogative_trim (q : List Char) :
    isInterrogative u (trim q) = isInterrogative u q := by
  have hquestion : ∀ w : Char, isWhitespace w = true → ('?' == w) = false := by
    intro w hw
    rw [beq_eq_false_iff_ne]
    rintro rfl
    exact absurd hw (by decide)
  apply trim_invariant
  · intro w s hw
    simp only [isInterrogative, List.contains_cons, hquestion w hw, trim_white_cons hw,
      Bool.false_or]
  · intro w s hw
    simp only [isInterrogative, List.contains_append, List.contains_cons, List.contains_nil,
      hquestion w hw, trim_white_concat hw, Bool.or_false]

/-- A text without words asks nothing and names nothing. -/
theorem blank_lexical {q : List Char} (hq : trim q = []) :
    isInterrogative u q = false ∧ salient u q = [] ∧ queryHasEntityToken u q = false := by
  rw [← isInterrogative_trim, ← salient_trim, ← queryHasEntityToken_trim, hq]
  refine ⟨?_, ?_, ?_⟩
  · simp [isInterrogative, firstWord, trim, u.toLowercase_nil, interrogativeHeads]
  · simp [salient, u.toLowercase_nil, words]
  · simp [queryHasEntityToken, byteLen]

end Words

end ShannonPrime.Recall
