import ShannonPrime.Memory.Sidecar

/-!
A concept of the store is given another class by rewriting its file line by line. The rewriting
leaves the frontmatter at the second delimiter but takes the third for the beginning of another,
so what it does to the body depends on the delimiters there.
-/

namespace ShannonPrime.Memory.Okf

open Recall Lines

/-- The lines that `rewrite_okf_class` drops from a frontmatter. -/
def isPolicyLine (l : Text) : Bool :=
  ["mem_class:", "mem_delivery:", "mem_authority:", "mem_decline_when:",
    "mem_decline_message:"].any fun d => d.toList.isPrefixOf (l.dropWhile isWhitespace)

/-- The loop of `rewrite_okf_class`. The flags are `in_fm` and `wrote`. -/
def rewriteLines (memClass : Text) : Bool → Bool → List Text → List Text
  | _, _, [] => []
  | inFm, wrote, l :: ls =>
      if isDelimiter l then
        (if inFm && !wrote then policyLines memClass else []) ++
          "---".toList :: rewriteLines memClass (!inFm) (wrote || inFm) ls
      else if inFm && isPolicyLine l then rewriteLines memClass inFm wrote ls
      else l :: rewriteLines memClass inFm wrote ls

def rewriteOkfClass (text memClass : Text) : Text :=
  unlines (rewriteLines memClass false false (lines text))

/-- A concept file: its lines have two delimiters. The body may have more. -/
structure Document (text : Text) where
  pre : List Text
  first : Text
  fm : List Text
  second : Text
  body : List Text
  lines_eq : lines text = pre ++ first :: (fm ++ second :: body)
  pre_free : Free pre
  first_delimiter : isDelimiter first = true
  fm_free : Free fm
  second_delimiter : isDelimiter second = true

/-- The lines between the first two delimiters. -/
def frontmatter (text : Text) : List Text :=
  (((lines text).dropWhile (!isDelimiter ·)).drop 1).takeWhile (!isDelimiter ·)

/-- What is asked of the rewritten file. -/
def Reclassed (text memClass : Text) : Prop :=
  let out := rewriteOkfClass text memClass
  parseOkfPolicy out = some (MemPolicy.fromClass memClass) ∧
    okfBody out = okfBody text ∧
    (frontmatter out).filter (!isPolicyLine ·) = (frontmatter text).filter (!isPolicyLine ·) ∧
    rewriteOkfClass out memClass = out

instance (text memClass : Text) : Decidable (Reclassed text memClass) :=
  inferInstanceAs (Decidable (_ ∧ _))

/-! ### The body -/

/-- The rewriting behind the frontmatter: no policy is written any more. -/
def keepLines : Bool → List Text → List Text
  | _, [] => []
  | inFm, l :: ls =>
      if isDelimiter l then "---".toList :: keepLines (!inFm) ls
      else if inFm && isPolicyLine l then keepLines inFm ls
      else l :: keepLines inFm ls

/-- Every delimiter is bare, and no line of policy stands between the first and the second, the
third and the fourth, and so on. -/
def Untouched : Bool → List Text → Prop
  | _, [] => True
  | inFm, l :: ls =>
      if isDelimiter l then l = "---".toList ∧ Untouched (!inFm) ls
      else (inFm && isPolicyLine l) = false ∧ Untouched inFm ls

theorem rewriteLines_wrote (memClass : Text) (inFm : Bool) (ls : List Text) :
    rewriteLines memClass inFm true ls = keepLines inFm ls := by
  induction ls generalizing inFm with
  | nil => rfl
  | cons l ls ih =>
      rw [rewriteLines, keepLines, Bool.not_true, Bool.and_false, Bool.true_or, ih, ih]
      rfl

theorem isPrefixOf_dropWhile_concat {d : Text} {c : Char} (hd : d.getLast? = some c)
    (hc : isWhitespace c = false) {w : Char} (hw : isWhitespace w = true) (l : Text) :
    d.isPrefixOf ((l ++ [w]).dropWhile isWhitespace) =
      d.isPrefixOf (l.dropWhile isWhitespace) := by
  rw [List.dropWhile_append]
  split
  · rename_i hblank
    rw [List.isEmpty_iff.mp hblank, List.dropWhile_cons_of_pos hw, List.dropWhile_nil]
  · rw [Bool.eq_iff_iff, List.isPrefixOf_iff_prefix, List.isPrefixOf_iff_prefix,
      List.prefix_concat_iff]
    refine or_iff_right ?_
    rintro rfl
    rw [List.getLast?_concat, Option.some.injEq] at hd
    rw [hd, hc] at hw
    exact absurd hw Bool.false_ne_true

@[simp] theorem isPolicyLine_trim (l : Text) : isPolicyLine (trim l) = isPolicyLine l := by
  refine trim_invariant isPolicyLine (fun w s hw => ?_) (fun w s hw => ?_) l
  · rw [isPolicyLine, List.dropWhile_cons_of_pos hw]
    rfl
  · have hcolon : isWhitespace ':' = false := by decide
    simp only [isPolicyLine, List.any_cons, List.any_nil]
    rw [isPrefixOf_dropWhile_concat (c := ':') (by decide) hcolon hw,
      isPrefixOf_dropWhile_concat (c := ':') (by decide) hcolon hw,
      isPrefixOf_dropWhile_concat (c := ':') (by decide) hcolon hw,
      isPrefixOf_dropWhile_concat (c := ':') (by decide) hcolon hw,
      isPrefixOf_dropWhile_concat (c := ':') (by decide) hcolon hw]

@[simp] theorem isPolicyLine_stripCR (l : Text) : isPolicyLine (stripCR l) = isPolicyLine l := by
  rw [← isPolicyLine_trim, trim_stripCR, isPolicyLine_trim]

theorem isDelimiter_dashes : isDelimiter "---".toList = true := by decide

/-- A delimiter is no shorter than the bare one, and no other is as short. -/
theorem isDelimiter_sublist {l : Text} (hl : isDelimiter l = true) : "---".toList.Sublist l := by
  have h := trim_sublist l
  rwa [beq_iff_eq.mp hl] at h

theorem keepLines_sublist (inFm : Bool) (ls : List Text) :
    (unlines (keepLines inFm ls)).Sublist (unlines ls) := by
  induction ls generalizing inFm with
  | nil => exact List.Sublist.refl []
  | cons l ls ih =>
      rw [keepLines]
      split
      · rename_i hl
        rw [unlines_cons, unlines_cons]
        exact (isDelimiter_sublist hl).append ((ih (!inFm)).cons_cons '\n')
      · split
        · rw [unlines_cons]
          exact ((ih inFm).cons '\n').trans (List.sublist_append_right _ _)
        · rw [unlines_cons, unlines_cons]
          exact (List.Sublist.refl l).append ((ih inFm).cons_cons '\n')

theorem keepLines_length_le (inFm : Bool) (ls : List Text) :
    (unlines (keepLines inFm ls)).length ≤ (unlines ls).length :=
  (keepLines_sublist inFm ls).length_le

/-- Nothing is taken away exactly from what is untouched. -/
theorem keepLines_length_iff (inFm : Bool) (ls : List Text) :
    (unlines (keepLines inFm ls)).length = (unlines ls).length ↔ Untouched inFm ls := by
  induction ls generalizing inFm with
  | nil => exact ⟨fun _ => trivial, fun _ => rfl⟩
  | cons l ls ih =>
      rw [keepLines, Untouched]
      split
      · rename_i hl
        have hsub := isDelimiter_sublist hl
        have hlength := hsub.length_le
        have hle := keepLines_length_le (!inFm) ls
        rw [← ih, unlines_cons, unlines_cons, List.length_append, List.length_append,
          List.length_cons, List.length_cons]
        constructor
        · intro h
          exact ⟨(hsub.eq_of_length_le (by omega)).symm, by omega⟩
        · rintro ⟨hbare, hrest⟩
          rw [hbare, hrest]
      · rw [← ih]
        have hle := keepLines_length_le inFm ls
        split
        · rename_i hdrop
          rw [hdrop, unlines_cons, List.length_append, List.length_cons]
          exact ⟨fun h => absurd h (by omega), fun h => absurd h.1.symm Bool.false_ne_true⟩
        · rename_i hkeep
          rw [unlines_cons, unlines_cons, List.length_append, List.length_append,
            List.length_cons, List.length_cons]
          exact ⟨fun h => ⟨by simpa using hkeep, by omega⟩, fun h => by omega⟩

theorem Untouched.keepLines {inFm : Bool} {ls : List Text} (h : Untouched inFm ls) :
    Okf.keepLines inFm ls = ls := by
  induction ls generalizing inFm with
  | nil => rfl
  | cons l ls ih =>
      rw [Untouched] at h
      rw [Okf.keepLines]
      split at h
      · rename_i hl
        rw [if_pos hl, h.1, ih h.2]
      · rename_i hl
        rw [if_neg hl, h.1, if_neg Bool.false_ne_true, ih h.2]

theorem keepLines_append (inFm : Bool) (ls : List Text) :
    ∃ inFm', ∀ ls', keepLines inFm (ls ++ ls') = keepLines inFm ls ++ keepLines inFm' ls' := by
  induction ls generalizing inFm with
  | nil => exact ⟨inFm, fun _ => rfl⟩
  | cons l ls ih =>
      simp only [List.cons_append, keepLines]
      split
      · obtain ⟨inFm', h⟩ := ih (!inFm)
        exact ⟨inFm', fun ls' => by rw [h, List.cons_append]⟩
      · obtain ⟨inFm', h⟩ := ih inFm
        split
        · exact ⟨inFm', h⟩
        · exact ⟨inFm', fun ls' => by rw [h, List.cons_append]⟩

/-- Rewriting a text line by line, and trimming it. -/
def keptBody (s : Text) : Text := trim (unlines (keepLines false (s.splitOn '\n')))

theorem keptBody_trim (s : Text) : keptBody (trim s) = keptBody s := by
  refine trim_invariant keptBody (fun w s hw => ?_) (fun w s hw => ?_) s
  · obtain ⟨l, ls, hs⟩ := List.exists_cons_of_ne_nil (List.splitOn_ne_nil '\n' s)
    rw [keptBody, keptBody, List.splitOn_cons_eq_if_modifyHead, hs]
    split
    · rw [keepLines, if_neg (by decide), Bool.false_and, if_neg Bool.false_ne_true, unlines_cons]
      exact trim_white_cons (by decide) _
    · have hdelim : isDelimiter (w :: l) = isDelimiter l := by
        rw [isDelimiter, isDelimiter, trim_white_cons hw]
      rw [List.modifyHead_cons, keepLines, keepLines, hdelim]
      split
      · rfl
      · simp only [Bool.false_and, Bool.false_eq_true, if_false, unlines_cons, List.cons_append,
          trim_white_cons hw]
  · obtain ⟨ls, last, rfl, hls, hlast⟩ := exists_unlines s
    obtain ⟨inFm', happend⟩ := keepLines_append false ls
    rw [keptBody, keptBody, splitOn_unlines hls, List.splitOn_eq_singleton hlast,
      List.append_assoc, splitOn_unlines hls, happend, happend, unlines_append, unlines_append]
    rcases eq_or_ne w '\n' with rfl | hne
    · have hblank : ∀ b, keepLines b [last, []] = keepLines b [last] ++ [[]] := by
        intro b
        obtain ⟨b', h⟩ := keepLines_append b [last]
        rw [show [last, []] = [last] ++ [[]] from rfl, h]
        cases b' <;> rfl
      rw [List.splitOn_append_cons_self_of_not_mem hlast, List.splitOn_nil, hblank, unlines_append,
        ← List.append_assoc]
      exact trim_white_concat (by decide) _
    · have hdelim : isDelimiter (last ++ [w]) = isDelimiter last := by
        rw [isDelimiter, isDelimiter, trim_white_concat hw]
      have hpolicy : isPolicyLine (last ++ [w]) = isPolicyLine last := by
        rw [← isPolicyLine_trim, trim_white_concat hw, isPolicyLine_trim]
      rw [List.splitOn_eq_singleton (by simpa [hne.symm] using hlast)]
      simp only [keepLines, hdelim, hpolicy]
      split
      · rfl
      · split
        · rfl
        · rw [unlines_cons, unlines_cons, unlines_nil, ← List.append_assoc, ← List.append_assoc,
            ← List.append_assoc, trim_white_concat (by decide), trim_white_concat hw,
            trim_white_concat (by decide)]

/-- A trimmed text comes through exactly when nothing is taken from its lines. -/
theorem keptBody_eq_self_iff {t : Text} (ht : trim t = t) :
    keptBody t = t ↔ Untouched false (t.splitOn '\n') := by
  have hpieces := congrArg List.length (unlines_splitOn t)
  rw [List.length_append, List.length_singleton] at hpieces
  have hle := keepLines_length_le false (t.splitOn '\n')
  constructor
  · intro h
    rw [← keepLines_length_iff]
    rcases List.eq_nil_or_concat (keepLines false (t.splitOn '\n')) with hnil | ⟨ls, l, hls⟩
    · rw [keptBody, hnil] at h
      obtain rfl : t = [] := h.symm
      exact absurd hnil (by decide)
    · have hshort : t.length + 1 ≤ (unlines (keepLines false (t.splitOn '\n'))).length := by
        rw [keptBody, hls, List.concat_eq_append, unlines_append, unlines_cons, unlines_nil,
          ← List.singleton_append, ← List.append_assoc, ← List.append_assoc, List.append_nil,
          trim_white_concat (by decide)] at h
        have hlength := trim_length_le (unlines ls ++ l)
        rw [h] at hlength
        simp only [hls, List.concat_eq_append, unlines_append, unlines_cons, unlines_nil,
          List.length_append, List.length_cons, List.length_nil] at hlength ⊢
        omega
      omega
  · intro h
    rw [keptBody, h.keepLines, unlines_splitOn, trim_white_concat (by decide), ht]

theorem keptBody_unlines {ls : List Text} (h : ∀ l ∈ ls, '\n' ∉ l) :
    keptBody (unlines ls) = trim (unlines (keepLines false ls)) := by
  have hsplit := splitOn_unlines h []
  rw [List.append_nil, List.splitOn_nil] at hsplit
  obtain ⟨inFm', happend⟩ := keepLines_append false ls
  rw [keptBody, hsplit, happend, unlines_append]
  have hblank : keepLines inFm' [[]] = [[]] := by cases inFm' <;> rfl
  rw [hblank]
  exact trim_white_concat (by decide) _

/-! ### The file -/

theorem rewriteLines_before (memClass : Text) {ls : List Text} (hls : Free ls)
    (rest : List Text) :
    rewriteLines memClass false false (ls ++ rest) =
      ls ++ rewriteLines memClass false false rest := by
  induction ls with
  | nil => rfl
  | cons l ls ih =>
      rw [List.cons_append, rewriteLines, if_neg (by simp [hls l List.mem_cons_self]),
        Bool.false_and, if_neg Bool.false_ne_true, ih fun l' hl' => hls l' (List.mem_cons_of_mem _ hl')]
      rfl

theorem rewriteLines_inside (memClass : Text) {ls : List Text} (hls : Free ls)
    (rest : List Text) :
    rewriteLines memClass true false (ls ++ rest) =
      ls.filter (!isPolicyLine ·) ++ rewriteLines memClass true false rest := by
  induction ls with
  | nil => rfl
  | cons l ls ih =>
      rw [List.cons_append, rewriteLines, if_neg (by simp [hls l List.mem_cons_self]),
        Bool.true_and, ih fun l' hl' => hls l' (List.mem_cons_of_mem _ hl'), List.filter_cons]
      cases isPolicyLine l <;> rfl

/-- The lines of the rewritten file. -/
theorem rewriteLines_document (memClass : Text) {pre fm body : List Text} {first second : Text}
    (hpre : Free pre) (hfirst : isDelimiter first = true) (hfm : Free fm)
    (hsecond : isDelimiter second = true) :
    rewriteLines memClass false false (pre ++ first :: (fm ++ second :: body)) =
      pre ++ "---".toList :: ((fm.filter (!isPolicyLine ·) ++ policyLines memClass) ++
        "---".toList :: keepLines false body) := by
  rw [rewriteLines_before memClass hpre, rewriteLines, if_pos hfirst, Bool.false_and,
    if_neg Bool.false_ne_true, List.nil_append, Bool.not_false, Bool.false_or,
    rewriteLines_inside memClass hfm, rewriteLines, if_pos hsecond, Bool.not_false, Bool.true_and,
    if_pos rfl, Bool.not_true, Bool.false_or, rewriteLines_wrote, List.append_assoc]

theorem frontmatter_document {text : Text} {pre fm body : List Text} {first second : Text}
    (hlines : lines text = pre ++ first :: (fm ++ second :: body)) (hpre : Free pre)
    (hfirst : isDelimiter first = true) (hfm : Free fm) (hsecond : isDelimiter second = true) :
    frontmatter text = fm := by
  rw [frontmatter, hlines, List.dropWhile_append_of_pos fun l hl => by simp [hpre l hl],
    List.dropWhile_cons_of_neg (by simp [hfirst]), List.drop_one, List.tail_cons,
    List.takeWhile_append_of_pos fun l hl => by simp [hfm l hl],
    List.takeWhile_cons_of_neg (by simp [hsecond]), List.append_nil]

theorem keepLines_stripCR (inFm : Bool) (ls : List Text) :
    keepLines inFm (ls.map stripCR) = (keepLines inFm ls).map stripCR := by
  induction ls generalizing inFm with
  | nil => rfl
  | cons l ls ih =>
      rw [List.map_cons, keepLines, keepLines, isDelimiter_stripCR, isPolicyLine_stripCR, ih, ih]
      split
      · rfl
      · split <;> rfl

/-- What has been rewritten is left as it is. -/
theorem keepLines_untouched (inFm : Bool) (ls : List Text) :
    Untouched inFm (keepLines inFm ls) := by
  induction ls generalizing inFm with
  | nil => trivial
  | cons l ls ih =>
      rw [keepLines]
      split
      · rw [Untouched, if_pos isDelimiter_dashes]
        exact ⟨rfl, ih _⟩
      · rename_i hl
        split
        · exact ih inFm
        · rename_i hkeep
          rw [Untouched, if_neg hl]
          exact ⟨by simpa using hkeep, ih inFm⟩

theorem policyLines_policy (memClass : Text) :
    ∀ l ∈ policyLines memClass, isPolicyLine l = true := by
  intro l hl
  obtain ⟨k, v, rfl, hk, _⟩ := mem_policyLines hl
  simp only [policyKeys, List.mem_cons, List.not_mem_nil, or_false] at hk
  rcases hk with rfl | rfl | rfl | rfl | rfl <;> rfl

/-- The lines of a trimmed class end with no carriage return. -/
theorem policyLines_stripCR {memClass : Text} (hclass : trim memClass = memClass) :
    ∀ l ∈ policyLines memClass, l.getLast? ≠ some '\r' := by
  have hvalues : ∀ v ∈ policyValues, trim v = v := by decide
  intro l hl
  obtain ⟨k, v, rfl, _, hv⟩ := mem_policyLines hl
  have htrim : trim v = v := by
    rcases hv with rfl | hv
    · exact hclass
    · exact hvalues v hv
  intro hend
  rw [entry, List.getLast?_append] at hend
  cases hv : v.getLast? with
  | none => simp [hv] at hend
  | some c =>
      rw [hv, Option.some_or] at hend
      exact getLast?_ne_of_trim htrim (hv.trans hend)

theorem isPolicyLine_mem {l : Text} (hl : isPolicyLine l = true) : 'm' ∈ l := by
  have hfirst : ∀ d ∈ ["mem_class:", "mem_delivery:", "mem_authority:", "mem_decline_when:",
      "mem_decline_message:"], 'm' ∈ d.toList := by decide
  obtain ⟨d, hd, hprefix⟩ := List.any_eq_true.mp hl
  exact (List.dropWhile_sublist _).subset
    ((List.isPrefixOf_iff_prefix.mp hprefix).subset (hfirst d hd))

/-- Where no character but white space is lost, the lines that delimit nothing are all kept. -/
theorem mem_keepLines_of_filter {inFm : Bool} {ls : List Text}
    (h : (unlines (keepLines inFm ls)).filter (!isWhitespace ·) =
      (unlines ls).filter (!isWhitespace ·)) :
    ∀ l ∈ ls, isDelimiter l = false → l ∈ keepLines inFm ls := by
  induction ls generalizing inFm with
  | nil => exact fun _ hl => nomatch hl
  | cons l ls ih =>
      have hnewline : ∀ s : Text, ('\n' :: s).filter (!isWhitespace ·) =
          s.filter (!isWhitespace ·) := fun s => List.filter_cons_of_neg (by decide)
      intro l' hl' hdelim
      rw [keepLines] at h ⊢
      split at h
      · rename_i hl
        have hdashes := filter_trim l
        rw [beq_iff_eq.mp hl] at hdashes
        rw [unlines_cons, unlines_cons, List.filter_append, List.filter_append, hnewline, hnewline,
          ← hdashes] at h
        have hrest := List.append_cancel_left h
        rw [if_pos hl]
        rcases List.mem_cons.mp hl' with rfl | hl'
        · rw [hl] at hdelim
          cases hdelim
        · exact List.mem_cons_of_mem _ (ih hrest l' hl' hdelim)
      · rename_i hl
        rw [if_neg hl]
        split at h
        · rename_i hdrop
          rw [unlines_cons, List.filter_append, hnewline] at h
          have hlength := congrArg List.length h
          have hle := ((keepLines_sublist inFm ls).filter (!isWhitespace ·)).length_le
          rw [List.length_append] at hlength
          have hnone : l.filter (!isWhitespace ·) = [] :=
            List.eq_nil_of_length_eq_zero (by omega)
          have hmem := isPolicyLine_mem (Bool.and_eq_true_iff.mp hdrop).2
          exact absurd (List.filter_eq_nil_iff.mp hnone 'm' hmem) (by decide)
        · rename_i hkeep
          rw [unlines_cons, unlines_cons, List.filter_append, List.filter_append, hnewline,
            hnewline] at h
          have hrest := List.append_cancel_left h
          rw [if_neg hkeep]
          rcases List.mem_cons.mp hl' with rfl | hl'
          · exact List.mem_cons_self
          · exact List.mem_cons_of_mem _ (ih hrest l' hl' hdelim)

theorem mem_of_mem_keepLines {inFm : Bool} {ls : List Text} {l : Text}
    (hl : l ∈ keepLines inFm ls) : l = "---".toList ∨ (l ∈ ls ∧ isDelimiter l = false) := by
  induction ls generalizing inFm with
  | nil => exact nomatch hl
  | cons l' ls ih =>
      rw [keepLines] at hl
      have hrest : ∀ {b : Bool}, l ∈ keepLines b ls →
          l = "---".toList ∨ (l ∈ l' :: ls ∧ isDelimiter l = false) := fun hmem =>
        (ih hmem).imp_right fun ⟨hin, hdelim⟩ => ⟨List.mem_cons_of_mem _ hin, hdelim⟩
      split at hl
      · rcases List.mem_cons.mp hl with rfl | hl
        · exact Or.inl rfl
        · exact hrest hl
      · rename_i hdelim
        split at hl
        · exact hrest hl
        · rcases List.mem_cons.mp hl with rfl | hl
          · exact Or.inr ⟨List.mem_cons_self, by simpa using hdelim⟩
          · exact hrest hl

section File

variable {text memClass : Text} (d : Document text)

/-- The lines of the frontmatter that are kept. -/
def Document.kept : List Text := d.fm.filter (!isPolicyLine ·)

/-- The lines that are written. -/
def Document.rewritten (memClass : Text) : List Text :=
  d.pre ++ "---".toList :: ((d.kept ++ policyLines memClass) ++
    "---".toList :: keepLines false d.body)

theorem Document.line {l : Text}
    (hl : l ∈ d.pre ++ d.first :: (d.fm ++ d.second :: d.body)) : '\n' ∉ l := by
  rw [← d.lines_eq] at hl
  exact not_mem_of_mem_lines hl

theorem Document.kept_free : Free d.kept :=
  fun l hl => d.fm_free l (List.mem_filter.mp hl).1

theorem rewriteOkfClass_eq (memClass : Text) :
    rewriteOkfClass text memClass = unlines (d.rewritten memClass) := by
  rw [rewriteOkfClass, d.lines_eq, rewriteLines_document memClass d.pre_free d.first_delimiter
    d.fm_free d.second_delimiter]
  rfl

theorem Document.rewritten_line (hclass : '\n' ∉ memClass) :
    ∀ l ∈ d.rewritten memClass, '\n' ∉ l := by
  have hbody : ∀ l ∈ keepLines false d.body, '\n' ∉ l := by
    intro l hl
    rcases mem_of_mem_keepLines hl with rfl | ⟨hmem, _⟩
    · decide
    · exact d.line (by simp [hmem])
  intro l hl
  simp only [Document.rewritten, List.mem_append, List.mem_cons] at hl
  rcases hl with hl | rfl | (hl | hl) | rfl | hl
  · exact d.line (by simp [hl])
  · decide
  · exact d.line (by simp [(List.mem_filter.mp hl).1])
  · exact policyLines_line hclass l hl
  · decide
  · exact hbody l hl

/-- The lines of the rewritten file as they are read again. -/
theorem lines_rewriteOkfClass (hclass : '\n' ∉ memClass) :
    lines (rewriteOkfClass text memClass) = d.pre.map stripCR ++ "---".toList ::
      ((d.kept ++ policyLines memClass).map stripCR ++
        "---".toList :: (keepLines false d.body).map stripCR) := by
  have hlines := lines_unlines (d.rewritten_line hclass) []
  rw [List.append_nil, ← rewriteOkfClass_eq d memClass] at hlines
  rw [hlines, lines, List.append_nil, Document.rewritten, List.map_append, List.map_cons,
    @List.map_append _ _ _ (d.kept ++ policyLines memClass), List.map_cons]
  rfl

theorem inner_free (memClass : Text) : Free ((d.kept ++ policyLines memClass).map stripCR) :=
  (d.kept_free.append (policyLines_free memClass)).stripCR

theorem filter_policy (memClass : Text) :
    ((d.kept ++ policyLines memClass).map stripCR).filter (!isPolicyLine ·) =
      d.kept.map stripCR := by
  have hmap : ∀ ls : List Text, (ls.map stripCR).filter (!isPolicyLine ·) =
      (ls.filter (!isPolicyLine ·)).map stripCR := by
    intro ls
    rw [List.filter_map]
    congr 1
    apply List.filter_congr
    simp
  have hkept : d.kept.filter (!isPolicyLine ·) = d.kept := by
    rw [Document.kept, List.filter_filter]
    simp
  have hnone : (policyLines memClass).filter (!isPolicyLine ·) = [] :=
    List.filter_eq_nil_iff.mpr fun l hl => by simp [policyLines_policy memClass l hl]
  rw [hmap, List.filter_append, hkept, hnone, List.append_nil]

/-- Rewriting again only takes carriage returns away. -/
theorem rewrite_again (hclass : '\n' ∉ memClass) (htrim : trim memClass = memClass) :
    rewriteOkfClass (rewriteOkfClass text memClass) memClass =
      unlines ((d.rewritten memClass).map stripCR) := by
  have hpolicy : (policyLines memClass).map stripCR = policyLines memClass := by
    conv_rhs => rw [← List.map_id (policyLines memClass)]
    exact List.map_congr_left fun l hl => stripCR_eq_self_iff.mpr (policyLines_stripCR htrim l hl)
  rw [rewriteOkfClass, lines_rewriteOkfClass d hclass,
    rewriteLines_document memClass d.pre_free.stripCR isDelimiter_dashes (inner_free d memClass)
      isDelimiter_dashes, filter_policy, keepLines_stripCR, (keepLines_untouched false _).keepLines,
    Document.rewritten, List.map_append, List.map_cons,
    @List.map_append _ _ _ (d.kept ++ policyLines memClass), List.map_cons, List.map_append, hpolicy]
  rfl

theorem map_stripCR_eq_self_iff (ls : List Text) :
    ls.map stripCR = ls ↔ ∀ l ∈ ls, l.getLast? ≠ some '\r' := by
  constructor
  · intro h l hl
    have hmap : ls.map stripCR = ls.map id := by rw [h, List.map_id]
    exact stripCR_eq_self_iff.mp (List.map_inj_left.mp hmap l hl)
  · intro h
    conv_rhs => rw [← List.map_id ls]
    exact List.map_congr_left fun l hl => stripCR_eq_self_iff.mpr (h l hl)

theorem rewrite_again_iff (hclass : '\n' ∉ memClass) (htrim : trim memClass = memClass) :
    rewriteOkfClass (rewriteOkfClass text memClass) memClass = rewriteOkfClass text memClass ↔
      ∀ l ∈ d.rewritten memClass, l.getLast? ≠ some '\r' := by
  have hline := d.rewritten_line hclass
  rw [rewrite_again d hclass htrim, rewriteOkfClass_eq d memClass, ← map_stripCR_eq_self_iff]
  constructor
  · refine fun h => unlines_injective (fun l hl => ?_) hline h
    obtain ⟨l', hl', rfl⟩ := List.mem_map.mp hl
    exact fun hmem => hline l' hl' (mem_of_mem_stripCR hmem)
  · exact fun h => by rw [h]

/-- No line that is kept ends with a carriage return. -/
def Document.Plain : Prop :=
  ∀ l ∈ d.pre ++ d.kept ++ d.body, isDelimiter l = false → l.getLast? ≠ some '\r'

theorem Document.Plain.rewritten (h : d.Plain) (htrim : trim memClass = memClass) :
    ∀ l ∈ d.rewritten memClass, l.getLast? ≠ some '\r' := by
  intro l hl
  simp only [Document.rewritten, List.mem_append, List.mem_cons] at hl
  rcases hl with hl | rfl | (hl | hl) | rfl | hl
  · exact h l (by simp [hl]) (d.pre_free l hl)
  · decide
  · exact h l (by simp [hl]) (d.kept_free l hl)
  · exact policyLines_stripCR htrim l hl
  · decide
  · rcases mem_of_mem_keepLines hl with rfl | ⟨hmem, hdelim⟩
    · decide
    · exact h l (by simp [hmem]) hdelim

theorem okfBody_document : okfBody text = trim (unlines d.body) :=
  (read_document _ d.lines_eq d.pre_free d.first_delimiter d.fm_free d.second_delimiter).2

/-- The class of the rewritten file, and its body when no carriage return is in the way. -/
theorem read_rewritten (hclass : '\n' ∉ memClass) (htrim : trim memClass = memClass) :
    (parseOkfPolicy (rewriteOkfClass text memClass) = some (MemPolicy.fromClass memClass) ↔
        memClass = "private-secret".toList ∨ Quiet d.kept) ∧
      okfBody (rewriteOkfClass text memClass) =
        trim (unlines ((keepLines false d.body).map stripCR)) ∧
      (frontmatter (rewriteOkfClass text memClass)).filter (!isPolicyLine ·) =
        d.kept.map stripCR := by
  have hlines := lines_rewriteOkfClass d hclass
  have hfree := inner_free d memClass
  obtain ⟨hpolicy, hbody⟩ := read_document _ hlines d.pre_free.stripCR isDelimiter_dashes hfree
    isDelimiter_dashes
  refine ⟨?_, hbody, ?_⟩
  · rw [hpolicy, PolicyLines.scan_stripCR, PolicyLines.scan_append]
    exact policy_scan_iff htrim d.kept
  · rw [frontmatter_document hlines d.pre_free.stripCR isDelimiter_dashes hfree
      isDelimiter_dashes, filter_policy]

theorem keptBody_okfBody : keptBody (okfBody text) = trim (unlines (keepLines false d.body)) := by
  rw [okfBody_document d, keptBody_trim, keptBody_unlines fun l hl => d.line (by simp [hl])]

/-- A rewritten file is as it should be exactly when the class is a trimmed line, the lines that
are kept decline nothing that the class does not and end with no carriage return, and the body has
its delimiters bare and no line of policy behind an odd number of them. -/
theorem reclassed_iff :
    Reclassed text memClass ↔
      ('\n' ∉ memClass ∧ trim memClass = memClass) ∧
        (memClass = "private-secret".toList ∨ Quiet d.kept) ∧ d.Plain ∧
        Untouched false ((okfBody text).splitOn '\n') := by
  have hsame : (MemPolicy.fromClass memClass).memClass = memClass := by
    rw [MemPolicy.fromClass]
    split <;> rfl
  by_cases hclean : '\n' ∉ memClass ∧ trim memClass = memClass
  · obtain ⟨hclass, htrim⟩ := hclean
    obtain ⟨hpolicy, hbody, hother⟩ := read_rewritten d hclass htrim
    have hfm := frontmatter_document d.lines_eq d.pre_free d.first_delimiter d.fm_free
      d.second_delimiter
    have hagain := rewrite_again_iff d hclass htrim
    have hkept := keptBody_okfBody d
    have htext : trim (okfBody text) = okfBody text := by rw [okfBody_document d, trim_trim]
    rw [← keptBody_eq_self_iff htext]
    have hplainBody : (∀ l ∈ d.rewritten memClass, l.getLast? ≠ some '\r') →
        okfBody (rewriteOkfClass text memClass) = keptBody (okfBody text) := by
      intro hplain
      rw [hbody, hkept, (map_stripCR_eq_self_iff _).mpr fun l hl => hplain l (by
        simp [Document.rewritten, hl])]
    constructor
    · rintro ⟨hread, hsameBody, _, hsameText⟩
      have hplain := hagain.mp hsameText
      rw [hplainBody hplain] at hsameBody
      refine ⟨⟨hclass, htrim⟩, hpolicy.mp hread, fun l hl hdelim => hplain l ?_, hsameBody⟩
      rw [hkept, okfBody_document d] at hsameBody
      have hfilter := congrArg (List.filter (!isWhitespace ·)) hsameBody
      rw [filter_trim, filter_trim] at hfilter
      simp only [List.mem_append] at hl
      rcases hl with (hl | hl) | hl
      · simp [Document.rewritten, hl]
      · simp [Document.rewritten, hl]
      · simp [Document.rewritten, mem_keepLines_of_filter hfilter l hl hdelim]
    · rintro ⟨_, hquiet, hplain, huntouched⟩
      have hends := hplain.rewritten d htrim
      refine ⟨hpolicy.mpr hquiet, ?_, ?_, hagain.mpr hends⟩
      · rw [hplainBody hends, huntouched]
      · rw [hother, hfm]
        exact (map_stripCR_eq_self_iff d.kept).mpr fun l hl => hends l (by
          simp [Document.rewritten, hl])
  · refine ⟨fun h => ?_, fun h => absurd h.1 hclean⟩
    have hread := parseOkfPolicy_clean h.1
    rw [hsame] at hread
    exact absurd hread hclean

end File

/-- A body of three lines, the one in the middle like a line of policy. -/
def ruledBody : Text := "---\ntype: memory\nmem_class: fact\n---\n\n---\nmem_class: mine\n---\n".toList

def ruledDocument : Document ruledBody where
  pre := []
  first := "---".toList
  fm := ["type: memory".toList, "mem_class: fact".toList]
  second := "---".toList
  body := [[], "---".toList, "mem_class: mine".toList, "---".toList]
  lines_eq := by decide
  pre_free _ hl := nomatch hl
  first_delimiter := by decide
  fm_free := by decide
  second_delimiter := by decide

/-- Its line is dropped with the old policy. -/
theorem ruled_line_dropped : ¬∀ text memClass : Text, Document text → Reclassed text memClass :=
  fun h => absurd (h ruledBody "persona".toList ruledDocument) (by decide)

end ShannonPrime.Memory.Okf
