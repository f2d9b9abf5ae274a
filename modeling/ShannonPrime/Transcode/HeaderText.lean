import Mathlib.Data.List.TakeWhile
import ShannonPrime.Transcode.Safetensors

/-!
The headers of the safetensors format as texts: one JSON object of tensors and metadata, with any
order of its keys and any white space between its tokens. What the C library makes of such texts.
-/

namespace ShannonPrime.Transcode.Safetensors

/-! The format -/

/-- White space. -/
abbrev Space := {s : List Byte // ∀ c ∈ s, c = 32 ∨ c = 9 ∨ c = 10 ∨ c = 13}

/-- What a string without escapes may hold. -/
def Plain (s : List Byte) : Prop := ∀ c ∈ s, c ≠ chr '"' ∧ c ≠ chr '\\' ∧ 32 ≤ c.toNat

/-- What stands between the quotes of a string. -/
inductive StringBody : List Byte → Prop
  | nil : StringBody []
  | plain {c s} (hc : c ≠ chr '"' ∧ c ≠ chr '\\' ∧ 32 ≤ c.toNat) (hs : StringBody s) :
      StringBody (c :: s)
  | escape {c s} (hc : c ∈ ascii "\"\\/bfnrtu".toList) (hs : StringBody s) :
      StringBody (chr '\\' :: c :: s)

def quoted (s : List Byte) : List Byte := chr '"' :: (s ++ [chr '"'])

/-- The white space of a pair: around its key and around its value. -/
structure Spacing where
  before : Space
  colon : Space
  value : Space
  after : Space

def Spacing.pair (sp : Spacing) (key value : List Byte) : List Byte :=
  sp.before ++ (quoted key ++ (sp.colon ++ chr ':' :: (sp.value ++ (value ++ sp.after))))

def commas : List (List Byte) → List Byte
  | [] => []
  | s :: l => s ++ l.flatMap (chr ',' :: ·)

def object (gap : Space) (pairs : List (List Byte)) : List Byte :=
  chr '\x7b' :: (gap ++ commas pairs ++ [chr '\x7d'])

/-- A number in an array, with the white space around it. -/
structure Number where
  before : Space
  digits : List Byte
  after : Space
  nonempty : digits ≠ []
  isDigit : ∀ c ∈ digits, isDigit c = true
  fits : decimal digits < 2 ^ 64

def Number.text (n : Number) : List Byte := n.before ++ (n.digits ++ n.after)

def Number.value (n : Number) : BitVec 64 := BitVec.ofNat 64 (decimal n.digits)

def array (gap : Space) (items : List Number) : List Byte :=
  chr '[' :: (gap ++ (commas (items.map Number.text) ++ [chr ']']))

inductive Field
  | dtype
  | shape
  | dataOffsets
  deriving DecidableEq

def Field.key : Field → List Byte
  | dtype => ascii "dtype".toList
  | shape => ascii "shape".toList
  | dataOffsets => ascii "data_offsets".toList

/-- A tensor of the header: its three fields in some order, and the white space. -/
structure Tensor where
  name : List Byte
  dtype : List Byte
  shape : List Number
  start : Number
  stop : Number
  order : List Field
  spacing : Field → Spacing
  gap : Field → Space
  plain : Plain name
  short : name.length < 128
  word : Plain dtype ∧ chr '\x7b' ∉ dtype ∧ chr '\x7d' ∉ dtype
  dims : shape.length ≤ 4
  ordered : decimal start.digits ≤ decimal stop.digits
  complete : order.Perm [.dtype, .shape, .dataOffsets]

namespace Tensor

def fieldValue (t : Tensor) : Field → List Byte
  | .dtype => quoted t.dtype
  | .shape => array (t.gap .shape) t.shape
  | .dataOffsets => array (t.gap .dataOffsets) [t.start, t.stop]

def field (t : Tensor) (f : Field) : List Byte := (t.spacing f).pair f.key (t.fieldValue f)

/-- The object of the fields; a white space before them all. -/
def text (t : Tensor) : List Byte := object (t.gap .dtype) (t.order.map t.field)

/-- What there is to record of the tensor. -/
def recorded (t : Tensor) : Option StEntry :=
  if t.dtype = ascii "BF16".toList ∨ t.dtype = ascii "F32".toList then
    some {
      name := t.name
      isBf16 := t.dtype = ascii "BF16".toList
      shape := t.shape.map Number.value
      off := t.start.value
      len := BitVec.ofNat 64 (decimal t.stop.digits - decimal t.start.digits) }
  else none

end Tensor

/-- `__metadata__`: names and values, any strings. -/
structure Metadata where
  entries : List (Spacing × List Byte × List Byte)
  gap : Space
  strings : ∀ e ∈ entries, StringBody e.2.1 ∧ StringBody e.2.2

def Metadata.pairs (m : Metadata) : List (List Byte) :=
  m.entries.map fun e => e.1.pair e.2.1 (quoted e.2.2)

inductive Member
  | metadata (m : Metadata)
  | tensor (t : Tensor)

namespace Member

def key : Member → List Byte
  | metadata _ => ascii "__metadata__".toList
  | tensor t => t.name

def text : Member → List Byte
  | metadata m => object m.gap m.pairs
  | tensor t => t.text

def recorded : Member → Option StEntry
  | metadata _ => none
  | tensor t => t.recorded

end Member

/-- A header, and the white space that pads it. -/
structure Header where
  members : List (Spacing × Member)
  gap : Space
  tail : Space
  distinct : (members.map fun p => p.2.key).Nodup

namespace Header

def text (h : Header) : List Byte :=
  object h.gap (h.members.map fun p => p.1.pair p.2.key p.2.text) ++ h.tail

/-- The tensors of the header, in its order. -/
def recorded (h : Header) : List StEntry := h.members.filterMap fun p => p.2.recorded

end Header

/-- The file has the header: its length, its text. -/
def HasHeader (file : List Byte) (h : Header) : Prop :=
  8 + h.text.length ≤ file.length ∧
    LittleEndian.load (fun i => file.getD i 0) 0 8 = h.text.length ∧
    (file.drop 8).take h.text.length = h.text

/-! Headers that the scan takes as they are -/

/-- How many more braces open than close. -/
def level (s : List Byte) : Int := s.count (chr '\x7b') - s.count (chr '\x7d')

/-- No brace closes one that is not open, and all are closed. -/
def Balanced (s : List Byte) : Prop := (∀ n ≤ s.length, 0 ≤ level (s.take n)) ∧ level s = 0

def Number.Tight (n : Number) : Prop := ∀ c ∈ n.after.val, c = 32

/-- No number but the last of its array has other white space than blanks behind it, unless it is
the first of two zeros, and the name is none that passes for the metadata's. -/
structure Tensor.Legible (t : Tensor) : Prop where
  shape : ∀ n ∈ t.shape.dropLast, n.Tight
  offsets : t.start.Tight ∨ decimal t.stop.digits = 0
  name : (ascii "__metadata__".toList).isPrefixOf t.name = false

namespace Header

/-- The braces in the strings of the metadata. -/
def Balanced (h : Header) : Prop :=
  ∀ p ∈ h.members, ∀ m, p.2 = .metadata m → Safetensors.Balanced (m.gap ++ commas m.pairs)

/-- The values fit the buffer. -/
def Short (h : Header) : Prop :=
  ∀ p ∈ h.members, ∀ t, p.2 = .tensor t → t.recorded ≠ none → t.text.length ≤ 511

def Legible (h : Header) : Prop :=
  ∀ p ∈ h.members, ∀ t, p.2 = .tensor t → t.recorded ≠ none → t.Legible

end Header

/-! ## The C library on these texts -/

theorem Space.not_mem (g : Space) {c : Byte} (hc : c ∉ ([32, 9, 10, 13] : List Byte)) : c ∉ g.val := by
  intro hmem
  have hblank := g.property c hmem
  simp only [List.mem_cons, List.not_mem_nil, or_false] at hc
  exact hc hblank

theorem strchr_append {c : Byte} {g : List Byte} (hg : c ∉ g) (s : List Byte) :
    strchr c (g ++ c :: s) = c :: s := by
  rw [strchr, List.dropWhile_append_of_pos, List.dropWhile_cons_of_neg]
  · rw [bne_self_eq_false]
    exact Bool.false_ne_true
  · intro d hd
    exact bne_iff_ne.mpr fun h => hg (h ▸ hd)

theorem strchr_eq_nil {c : Byte} {g : List Byte} (hg : c ∉ g) : strchr c g = [] := by
  rw [strchr, List.dropWhile_eq_nil_iff]
  intro d hd
  exact bne_iff_ne.mpr fun h => hg (h ▸ hd)

theorem takeWhile_append {c : Byte} {g : List Byte} (hg : c ∉ g) (s : List Byte) :
    (g ++ c :: s).takeWhile (· != c) = g := by
  rw [List.takeWhile_append_of_pos, List.takeWhile_cons_of_neg, List.append_nil]
  · rw [bne_self_eq_false]
    exact Bool.false_ne_true
  · intro d hd
    exact bne_iff_ne.mpr fun h => hg (h ▸ hd)

/-- What begins with a quote is not found where there is none. -/
theorem strstr_skip {w g : List Byte} (hg : chr '"' ∉ g) (s : List Byte) :
    strstr (quoted w) (g ++ s) = strstr (quoted w) s := by
  induction g with
  | nil => rfl
  | cons c g ih =>
      rw [List.mem_cons, not_or] at hg
      rw [List.cons_append, strstr, if_neg, ih hg.2]
      rw [quoted, List.isPrefixOf_cons_cons, beq_false_of_ne hg.1, Bool.false_and]
      exact Bool.false_ne_true

/-- A word in quotes begins another only where it is that word. -/
theorem quoted_isPrefixOf {w x : List Byte} (hw : chr '"' ∉ w) (hx : chr '"' ∉ x) (s : List Byte) :
    (quoted w).isPrefixOf (quoted x ++ s) = decide (x = w) := by
  rw [Bool.eq_iff_iff, List.isPrefixOf_iff_prefix, decide_eq_true_iff]
  constructor
  · rintro ⟨r, hr⟩
    have hbody : w ++ chr '"' :: r = x ++ chr '"' :: s := by
      simpa only [quoted, List.cons_append, List.append_assoc, List.nil_append, List.cons.injEq,
        true_and] using hr
    have hcut := congrArg (List.takeWhile (· != chr '"')) hbody
    rw [takeWhile_append hw, takeWhile_append hx] at hcut
    exact hcut.symm
  · rintro rfl
    exact List.prefix_append _ _

theorem strstr_quoted {w x : List Byte} (hw : chr '"' ∉ w) (hx : chr '"' ∉ x) (hne : x ≠ w)
    {s : List Byte} (hs : (w ++ [chr '"']).head? ≠ s.head?) :
    strstr (quoted w) (quoted x ++ s) = strstr (quoted w) s := by
  have hfirst := quoted_isPrefixOf hw hx s
  rw [decide_eq_false hne] at hfirst
  have hlast : (quoted w).isPrefixOf (chr '"' :: s) = false := by
    cases hws : w ++ [chr '"'] with
    | nil => exact absurd hws (List.append_ne_nil_of_right_ne_nil w (List.cons_ne_nil _ _))
    | cons c r =>
        rw [hws] at hs
        cases s with
        | nil => rw [quoted, hws]; rfl
        | cons d s =>
            have hcd : c ≠ d := fun h => hs (by rw [h]; rfl)
            rw [quoted, hws, List.isPrefixOf_cons_cons, List.isPrefixOf_cons_cons, beq_false_of_ne hcd,
              Bool.false_and, Bool.and_false]
  have htext : quoted x ++ s = chr '"' :: (x ++ chr '"' :: s) := by
    rw [quoted, List.cons_append, List.append_assoc]
    rfl
  rw [htext] at hfirst ⊢
  rw [strstr, hfirst, if_neg Bool.false_ne_true]
  rw [strstr_skip hx, strstr, if_neg]
  rw [hlast]
  exact Bool.false_ne_true

theorem strstr_found {w : List Byte} (s : List Byte) :
    strstr (quoted w) (quoted w ++ s) = some (quoted w ++ s) := by
  have hprefix : (quoted w).isPrefixOf (quoted w ++ s) = true :=
    List.isPrefixOf_iff_prefix.mpr (List.prefix_append _ _)
  rw [quoted, List.cons_append] at hprefix ⊢
  rw [strstr, if_pos hprefix]

/-- What a prefix holds the whole holds. -/
theorem strstr_isSome {p s : List Byte} : (strstr p s).isSome = true ↔ p <:+: s := by
  induction s with
  | nil =>
      rw [strstr, List.infix_nil]
      split
      · rename_i h
        exact ⟨fun _ => h, fun _ => rfl⟩
      · rename_i h
        exact ⟨fun hsome => absurd hsome Bool.false_ne_true, fun hp => absurd hp h⟩
  | cons c s ih =>
      rw [strstr, List.infix_cons_iff, ← List.isPrefixOf_iff_prefix]
      split
      · rename_i h
        exact ⟨fun _ => Or.inl h, fun _ => rfl⟩
      · rename_i h
        rw [ih]
        exact ⟨Or.inr, fun hor => hor.resolve_left h⟩

/-! ## Numbers -/

theorem Space.isSpace (g : Space) : ∀ c ∈ g.val, isSpace c = true := by
  intro c hc
  rcases g.property c hc with rfl | rfl | rfl | rfl <;> rfl

/-- What is no digit, ahead of the white space or behind it. -/
theorem Space.head_not_digit (g : Space) {c : Byte} (hc : Safetensors.isDigit c = false)
    (s : List Byte) : ∀ d ∈ (g.val ++ c :: s).head?, Safetensors.isDigit d = false := by
  intro d hd
  obtain ⟨g, hg⟩ := g
  cases g with
  | nil =>
      obtain rfl : c = d := Option.some.inj hd
      exact hc
  | cons b g =>
      obtain rfl : b = d := Option.some.inj hd
      rcases hg b List.mem_cons_self with rfl | rfl | rfl | rfl <;> rfl

theorem decimal_text {g ds s : List Byte} (hg : ∀ c ∈ g, isSpace c = true) (hne : ds ≠ [])
    (hds : ∀ c ∈ ds, isDigit c = true) (hs : ∀ c ∈ s.head?, isDigit c = false) :
    strtoull (g ++ (ds ++ s)) =
      (if decimal ds < 2 ^ 64 then BitVec.ofNat 64 (decimal ds) else BitVec.allOnes 64, s) := by
  obtain ⟨d, ds', rfl⟩ := List.exists_cons_of_ne_nil hne
  have hd := hds d List.mem_cons_self
  simp only [isDigit, Bool.and_eq_true, decide_eq_true_eq] at hd
  have hblank : (g ++ (d :: ds' ++ s)).dropWhile isSpace = d :: ds' ++ s := by
    rw [List.dropWhile_append_of_pos hg, List.cons_append, List.dropWhile_cons_of_neg]
    simp only [isSpace, Bool.or_eq_true, beq_iff_eq, Bool.and_eq_true, decide_eq_true_eq]
    rintro (rfl | hspace)
    · exact absurd hd.1 (by decide)
    · omega
  have hsign : sign (d :: ds' ++ s) = (false, d :: ds' ++ s) := by
    rw [List.cons_append, sign, if_neg, if_neg]
    · rintro rfl
      exact absurd hd.1 (by decide)
    · rintro rfl
      exact absurd hd.1 (by decide)
  have hstop : s.takeWhile isDigit = [] ∧ s.dropWhile isDigit = s := by
    cases s with
    | nil => exact ⟨rfl, rfl⟩
    | cons c s =>
        have hc := hs c rfl
        rw [List.takeWhile_cons, List.dropWhile_cons, hc]
        exact ⟨rfl, rfl⟩
  have htake : (d :: ds' ++ s).takeWhile isDigit = d :: ds' := by
    rw [List.takeWhile_append_of_pos hds, hstop.1, List.append_nil]
  have hdrop : (d :: ds' ++ s).dropWhile isDigit = s := by
    rw [List.dropWhile_append_of_pos hds, hstop.2]
  simp only [strtoull, hblank, hsign, htake, hdrop, if_neg hne]
  rfl

theorem strtoull_number {g : List Byte} (hg : ∀ c ∈ g, isSpace c = true) (n : Number) {c : Byte}
    (hc : isDigit c = false) (s : List Byte) :
    strtoull (g ++ (n.digits ++ (n.after ++ c :: s))) = (n.value, n.after ++ c :: s) := by
  rw [decimal_text hg n.nonempty n.isDigit (n.after.head_not_digit hc s), if_pos n.fits]
  rfl

/-- Where no number is, nothing is taken. -/
theorem strtoull_stop {g : List Byte} (hg : ∀ c ∈ g, isSpace c = true) {c : Byte}
    (hc : c = chr ',' ∨ c = chr ']') (s : List Byte) : strtoull (g ++ c :: s) = (0, g ++ c :: s) := by
  have hblank : (g ++ c :: s).dropWhile isSpace = c :: s := by
    rw [List.dropWhile_append_of_pos hg]
    rcases hc with rfl | rfl <;> rfl
  simp only [strtoull, hblank]
  rcases hc with rfl | rfl <;> rfl

/-- The separators end no later than the white space. -/
theorem dropWhile_separators (g : List Byte) {c : Byte} (hc : isSeparator c = false) (s : List Byte) :
    (g ++ c :: s).dropWhile isSeparator = g.dropWhile isSeparator ++ c :: s := by
  rw [List.dropWhile_append, List.dropWhile_cons, hc, if_neg Bool.false_ne_true]
  split
  · rename_i hempty
    rw [List.isEmpty_iff.mp hempty, List.nil_append]
  · rfl

theorem isSpace_dropWhile {g : List Byte} (hg : ∀ c ∈ g, isSpace c = true) :
    ∀ c ∈ g.dropWhile isSeparator, isSpace c = true :=
  fun c hc => hg c ((List.dropWhile_sublist _).subset hc)

theorem not_separator_of_digit {c : Byte} (hc : isDigit c = true) : isSeparator c = false := by
  simp only [isDigit, Bool.and_eq_true, decide_eq_true_eq] at hc
  rw [isSeparator, Bool.or_eq_false_iff]
  constructor
  · apply beq_false_of_ne
    rintro rfl
    exact absurd hc.1 (by decide)
  · apply beq_false_of_ne
    rintro rfl
    exact absurd hc.1 (by decide)

/-- From one number to the next. -/
theorem dropWhile_comma {n : Number} (hn : n.Tight) (m : Number) (s : List Byte) :
    (n.after ++ chr ',' :: (m.text ++ s)).dropWhile isSeparator =
      m.before.val.dropWhile isSeparator ++ (m.digits ++ (m.after ++ s)) := by
  have hblank : ∀ c ∈ n.after.val, isSeparator c = true := by
    intro c hc
    rw [hn c hc]
    rfl
  obtain ⟨d, ds, hds⟩ := List.exists_cons_of_ne_nil m.nonempty
  have hd : isSeparator d = false :=
    not_separator_of_digit (m.isDigit d (hds ▸ List.mem_cons_self))
  rw [List.dropWhile_append_of_pos hblank, List.dropWhile_cons_of_pos (by rfl), Number.text, hds,
    List.append_assoc, List.append_assoc, List.cons_append, dropWhile_separators _ hd]

/-- Other white space than blanks stays, and the next comma with it. -/
theorem dropWhile_loose {n : Number} (hn : ¬ n.Tight) (s : List Byte) :
    ∃ g, (∀ c ∈ g, isSpace c = true) ∧ (g ++ chr ',' :: s).head? ≠ some (chr ']') ∧
      (n.after ++ chr ',' :: s).dropWhile isSeparator = g ++ chr ',' :: s := by
  have hspace := isSpace_dropWhile n.after.isSpace
  cases hg : n.after.val.dropWhile isSeparator with
  | nil =>
      refine absurd (fun c hc => ?_) hn
      have hsep := List.dropWhile_eq_nil_iff.mp hg c hc
      rcases n.after.property c hc with rfl | rfl | rfl | rfl
      · rfl
      · exact absurd hsep (by decide)
      · exact absurd hsep (by decide)
      · exact absurd hsep (by decide)
  | cons c g =>
      rw [hg] at hspace
      refine ⟨c :: g, hspace, ?_, ?_⟩
      · intro h
        obtain rfl := Option.some.inj h
        exact absurd (hspace (chr ']') List.mem_cons_self) (by decide)
      · rw [List.dropWhile_append, hg]
        rfl

theorem shapeLoop_stop {g : List Byte} (hg : ∀ c ∈ g, isSpace c = true) {c : Byte}
    (hc : c = chr ',' ∨ c = chr ']') (room : Nat) (s : List Byte) :
    shapeLoop room (g ++ c :: s) = [] := by
  cases room with
  | zero => rfl
  | succ room =>
      rw [shapeLoop, strtoull_stop hg hc]
      exact if_pos rfl

theorem Number.moves (n : Number) (g s : List Byte) :
    n.after ++ s ≠ g ++ (n.digits ++ (n.after ++ s)) := by
  intro h
  have hlen := congrArg List.length h
  have hpos := List.length_pos_iff.mpr n.nonempty
  simp only [List.length_append] at hlen
  omega

theorem Number.head_ne (n : Number) {g : List Byte} (hg : ∀ c ∈ g, isSpace c = true)
    (s : List Byte) : (g ++ (n.digits ++ s)).head? ≠ some (chr ']') := by
  intro h
  cases g with
  | nil =>
      obtain ⟨d, ds, hds⟩ := List.exists_cons_of_ne_nil n.nonempty
      rw [hds] at h
      obtain rfl := Option.some.inj h
      have hdigit := n.isDigit (chr ']') (hds ▸ List.mem_cons_self)
      exact absurd hdigit (by decide)
  | cons c g =>
      obtain rfl := Option.some.inj h
      exact absurd (hg (chr ']') List.mem_cons_self) (by decide)

theorem shapeLoop_number {g : List Byte} (hg : ∀ c ∈ g, isSpace c = true) (n : Number) {c : Byte}
    (hc : isDigit c = false) (room : Nat) (s : List Byte) :
    shapeLoop (room + 1) (g ++ (n.digits ++ (n.after ++ c :: s))) =
      n.value :: (if ((n.after.val ++ c :: s).dropWhile isSeparator).head? = some (chr ']') then []
        else shapeLoop room ((n.after.val ++ c :: s).dropWhile isSeparator)) := by
  rw [shapeLoop, strtoull_number hg n hc]
  exact if_neg (n.moves g (c :: s))

/-- The loop takes the numbers of an array, no matter what white space is ahead of them, up to
the first that is loose. -/
theorem shapeLoop_numbers {g : List Byte} (hg : ∀ c ∈ g, isSpace c = true) (n : Number)
    (l : List Number) {room : Nat} (hroom : (n :: l).length ≤ room) (s : List Byte) :
    shapeLoop room (g ++ (n.digits ++ (n.after ++
        ((l.flatMap fun m => chr ',' :: m.text) ++ chr ']' :: s)))) =
      (n :: l).map Number.value ↔ ∀ m ∈ (n :: l).dropLast, m.Tight := by
  induction l generalizing g n room with
  | nil =>
      obtain ⟨room, rfl⟩ := Nat.exists_eq_add_of_le' hroom
      simp only [List.flatMap_nil, List.nil_append, List.length_singleton]
      rw [shapeLoop_number hg n (by rfl), dropWhile_separators _ (by rfl),
        shapeLoop_stop (isSpace_dropWhile n.after.isSpace) (Or.inr rfl), ite_self]
      exact iff_of_true rfl fun m hm => absurd hm List.not_mem_nil
  | cons m l ih =>
      cases room with
      | zero => exact absurd hroom (Nat.not_succ_le_zero _)
      | succ room =>
          have hnext := isSpace_dropWhile m.before.isSpace
          have hrest := ih hnext m (Nat.le_of_succ_le_succ hroom)
          simp only [List.flatMap_cons, List.cons_append, List.append_assoc,
            List.dropLast_cons_cons, List.forall_mem_cons]
          rw [shapeLoop_number hg n (by rfl), List.map_cons]
          by_cases hn : n.Tight
          · rw [dropWhile_comma hn, if_neg (m.head_ne hnext _), List.cons.injEq, hrest]
            exact ⟨fun h => ⟨hn, h.2⟩, fun h => ⟨rfl, h.2⟩⟩
          · obtain ⟨g', hg', hhead, hdrop⟩ := dropWhile_loose hn
              (m.text ++ ((l.flatMap fun m => chr ',' :: m.text) ++ chr ']' :: s))
            rw [hdrop, if_neg hhead, shapeLoop_stop hg' (Or.inl rfl)]
            refine iff_of_false (fun h => ?_) fun h => hn h.1
            exact List.cons_ne_nil _ _ (List.cons.inj h).2.symm

theorem commas_numbers (n : Number) (l : List Number) (s : List Byte) :
    commas ((n :: l).map Number.text) ++ s =
      n.before ++ (n.digits ++ (n.after ++ ((l.flatMap fun m => chr ',' :: m.text) ++ s))) := by
  simp only [List.map_cons, commas, Number.text, List.flatMap_map, List.append_assoc]

/-- The numbers of an array behind its bracket. -/
theorem shapeLoop_array (gap : Space) {items : List Number} {room : Nat}
    (hroom : items.length ≤ room) (s : List Byte) :
    shapeLoop room (gap ++ (commas (items.map Number.text) ++ chr ']' :: s)) =
      items.map Number.value ↔ ∀ m ∈ items.dropLast, m.Tight := by
  cases items with
  | nil =>
      refine iff_of_true ?_ fun m hm => absurd hm List.not_mem_nil
      exact shapeLoop_stop gap.isSpace (Or.inr rfl) room s
  | cons n l =>
      have hblank : ∀ c ∈ gap.val ++ n.before.val, isSpace c = true := by
        intro c hc
        rcases List.mem_append.mp hc with hc | hc
        · exact gap.isSpace c hc
        · exact n.before.isSpace c hc
      rw [commas_numbers, ← List.append_assoc]
      exact shapeLoop_numbers hblank n l hroom s

/-! ## What the texts hold -/

/-- The characters between the strings and the braces are no `x`. -/
structure Neutral (x : Byte) : Prop where
  space : isSpace x = false
  digit : isDigit x = false
  mark : x ∉ ascii ":,[]".toList

theorem not_mem_append {x : Byte} {s t : List Byte} (hs : x ∉ s) (ht : x ∉ t) : x ∉ s ++ t := by
  rw [List.mem_append, not_or]
  exact ⟨hs, ht⟩

theorem not_mem_cons {x c : Byte} {s : List Byte} (hc : x ≠ c) (hs : x ∉ s) : x ∉ c :: s := by
  rw [List.mem_cons, not_or]
  exact ⟨hc, hs⟩

namespace Neutral

variable {x : Byte}

theorem not_space (hx : Neutral x) (g : Space) : x ∉ g.val := by
  intro hmem
  have hspace := g.isSpace x hmem
  rw [hx.space] at hspace
  exact Bool.false_ne_true hspace

theorem ne_mark (hx : Neutral x) {c : Char} (hc : chr c ∈ ascii ":,[]".toList) : x ≠ chr c := by
  rintro rfl
  exact hx.mark hc

theorem not_commas (hx : Neutral x) {l : List (List Byte)} (hl : ∀ s ∈ l, x ∉ s) : x ∉ commas l := by
  cases l with
  | nil => exact List.not_mem_nil
  | cons s l =>
      apply not_mem_append (hl s List.mem_cons_self)
      intro hmem
      obtain ⟨s', hs', hmem'⟩ := List.mem_flatMap.mp hmem
      exact not_mem_cons (hx.ne_mark (by decide)) (hl s' (List.mem_cons_of_mem s hs')) hmem'

theorem not_number (hx : Neutral x) (n : Number) : x ∉ n.text := by
  apply not_mem_append (hx.not_space n.before)
  apply not_mem_append _ (hx.not_space n.after)
  intro hmem
  have hdigit := n.isDigit x hmem
  rw [hx.digit] at hdigit
  exact Bool.false_ne_true hdigit

theorem not_array (hx : Neutral x) (gap : Space) (items : List Number) : x ∉ array gap items := by
  apply not_mem_cons (hx.ne_mark (by decide))
  apply not_mem_append (hx.not_space gap)
  apply not_mem_append
  · apply hx.not_commas
    intro s hs
    obtain ⟨n, -, rfl⟩ := List.mem_map.mp hs
    exact hx.not_number n
  · exact not_mem_cons (hx.ne_mark (by decide)) List.not_mem_nil

theorem not_quoted (hquote : x ≠ chr '"') {s : List Byte} (hs : x ∉ s) : x ∉ quoted s :=
  not_mem_cons hquote (not_mem_append hs (not_mem_cons hquote List.not_mem_nil))

theorem not_pair (hx : Neutral x) (hquote : x ≠ chr '"') (sp : Spacing) {key value : List Byte}
    (hkey : x ∉ key) (hvalue : x ∉ value) : x ∉ sp.pair key value := by
  apply not_mem_append (hx.not_space sp.before)
  apply not_mem_append (not_quoted hquote hkey)
  apply not_mem_append (hx.not_space sp.colon)
  apply not_mem_cons (hx.ne_mark (by decide))
  apply not_mem_append (hx.not_space sp.value)
  exact not_mem_append hvalue (hx.not_space sp.after)

theorem not_field (hx : Neutral x) (hquote : x ≠ chr '"') {t : Tensor} (hdtype : x ∉ t.dtype)
    (f : Field) (hkey : x ∉ f.key) : x ∉ t.field f := by
  apply hx.not_pair hquote (t.spacing f) hkey
  cases f with
  | dtype => exact not_quoted hquote hdtype
  | shape => exact hx.not_array _ _
  | dataOffsets => exact hx.not_array _ _

end Neutral

end ShannonPrime.Transcode.Safetensors
