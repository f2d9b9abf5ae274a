import ShannonPrime.Lib.Backtrack
import ShannonPrime.Tokenizer.Gpt2RoundTrip

/-!
The pattern that the pre-tokenizer of the Qwen 2 family stands for, and the pieces of a text. The
scans by hand end where the match of the pattern ends, and the pieces are the text.
-/

namespace ShannonPrime.Tokenizer

open Backtrack (Re downTo)

/-- A letter of the alphabet, small or capital. -/
def letterOf (a c : Nat) : Bool := c == a || c == a - 0x20

/-- One of the letters, behind an apostrophe. -/
def suffix1 (a : Nat) : Re Nat := .seq (.one (· == 0x27)) (.one (letterOf a))

def suffix2 (a b : Nat) : Re Nat :=
  .seq (.one (· == 0x27)) (.seq (.one (letterOf a)) (.one (letterOf b)))

/-- `'[sS]|'[tT]|'[rR][eE]|'[vV][eE]|'[mM]|'[lL][lL]|'[dD]` -/
def contractionRe : Re Nat :=
  .alt (suffix1 0x73) (.alt (suffix1 0x74) (.alt (suffix2 0x72 0x65) (.alt (suffix2 0x76 0x65)
    (.alt (suffix1 0x6D) (.alt (suffix2 0x6C 0x6C) (suffix1 0x64))))))

section Pattern

variable (isL isN isS : Nat → Bool)

/-- `\s*[\r\n]+|\s+(?!\S)|\s+` -/
def whitespaceRe : Re Nat :=
  .alt (.seq (.star (.one isS)) (.plus (.one isNl)))
    (.alt (.seq (.plus (.one isS)) (.notAhead fun c => !isS c)) (.plus (.one isS)))

/-- The whole pattern over the classes `\p{L}`, `\p{N}` and `\s`: contractions, letters behind at
most one other character, a number, other characters behind at most one space, and white space. -/
def splitRe : Re Nat :=
  .alt contractionRe
    (.alt (.seq (.opt (.one fun c => !isNl c && !isL c && !isN c)) (.plus (.one isL)))
      (.alt (.one isN)
        (.alt (.seq (.opt (.one (· == 0x20)))
            (.seq (.plus (.one fun c => !isS c && !isL c && !isN c)) (.star (.one isNl))))
          (whitespaceRe isS))))

end Pattern

/-- The pattern over the tables. -/
def UnicodeRanges.pattern (u : UnicodeRanges) : Re Nat :=
  splitRe (within u.letter) (within u.number) (within spUniSpace)

/-! ## The match -/

section Match

variable {cp : List Nat} {i : Nat} {u : UnicodeRanges}

theorem runEnd_eq (p : Nat → Bool) (cp : List Nat) (k : Nat) :
    Backtrack.runEnd p cp k = runEnd p cp k := rfl

/-- A letter is small after `lc` if it was the small or the capital one. -/
theorem lc_eq_iff {a : Nat} (ha : 0x61 ≤ a) (ha' : a ≤ 0x7A) (c : Nat) :
    lc c = a ↔ letterOf a c = true := by
  unfold lc letterOf
  rw [Bool.or_eq_true, beq_iff_eq, beq_iff_eq]
  split <;> omega

theorem any_letterOf {a : Nat} (ha : 0x61 ≤ a) (ha' : a ≤ 0x7A) (k : Nat) :
    (cp[k]?).any (letterOf a) = true ↔ k < cp.length ∧ lc (cp.getD k 0) = a := by
  rw [lc_eq_iff ha ha', List.getD_eq_getElem?_getD]
  rcases Nat.lt_or_ge k cp.length with hk | hk
  · rw [List.getElem?_eq_getElem hk, Option.any_some, Option.getD_some, and_iff_right hk]
  · rw [List.getElem?_eq_none hk]
    constructor
    · intro h
      cases h
    · rintro ⟨hlt, -⟩
      omega

theorem any_quote : (cp[i]?).any (· == 0x27) = true ↔ cp[i]? = some 0x27 := by
  rw [Option.any_eq_true]
  simp

theorem find_suffix1 {a : Nat} (ha : 0x61 ≤ a) (ha' : a ≤ 0x7A) :
    (suffix1 a).find cp i =
      if cp[i]? = some 0x27 ∧ i + 1 < cp.length ∧ lc (cp.getD (i + 1) 0) = a then some (i + 2)
      else none := by
  rw [suffix1, Backtrack.find_seq_one, Backtrack.find_one, ← ite_and]
  exact if_congr (and_congr any_quote (any_letterOf ha ha' _)) rfl rfl

theorem find_suffix2 {a b : Nat} (ha : 0x61 ≤ a) (ha' : a ≤ 0x7A) (hb : 0x61 ≤ b) (hb' : b ≤ 0x7A) :
    (suffix2 a b).find cp i =
      if cp[i]? = some 0x27 ∧ (i + 1 < cp.length ∧ lc (cp.getD (i + 1) 0) = a) ∧
          i + 2 < cp.length ∧ lc (cp.getD (i + 2) 0) = b then some (i + 3)
      else none := by
  rw [suffix2, Backtrack.find_seq_one, Backtrack.find_seq_one, Backtrack.find_one, ← ite_and,
    ← ite_and]
  refine if_congr ?_ rfl rfl
  rw [and_assoc]
  exact and_congr any_quote (and_congr (any_letterOf ha ha' _) (any_letterOf hb hb' _))

/-- The first of the alternatives that applies. -/
theorem ite_orElse {c : Prop} [Decidable c] (a : Nat) (o : Option Nat) :
    ((if c then some a else none) <|> o) = if c then some a else o := by
  split <;> rfl

theorem find_contraction (cp : List Nat) (i : Nat) : contractionRe.find cp i = contraction cp i := by
  simp only [contractionRe, Backtrack.find_alt]
  rw [find_suffix1 (by omega) (by omega), find_suffix1 (by omega) (by omega),
    find_suffix1 (by omega) (by omega), find_suffix1 (by omega) (by omega),
    find_suffix2 (by omega) (by omega) (by omega) (by omega),
    find_suffix2 (by omega) (by omega) (by omega) (by omega),
    find_suffix2 (by omega) (by omega) (by omega) (by omega), contraction]
  simp only [ite_orElse]
  generalize lc (cp.getD (i + 1) 0) = c1
  generalize lc (cp.getD (i + 2) 0) = c2
  by_cases hlong : cp[i]? = some 0x27 ∧ i + 1 < cp.length
  · obtain ⟨hquote, hone⟩ := hlong
    simp only [hquote, hone, true_and, and_self, if_true]
    -- no letter begins two of the suffixes
    split_ifs <;> first | rfl | omega
  · rw [if_neg hlong]
    grind

theorem getD_eq (hi : i < cp.length) : cp[i]? = some (cp.getD i 0) := by
  rw [List.getD_eq_getElem?_getD, List.getElem?_eq_getElem hi, Option.getD_some]

theorem find_letters (hi : i < cp.length) :
    (Re.seq (.opt (.one fun c => !isNl c && !u.isL c && !u.isN c)) (.plus (.one u.isL))).find cp i =
      u.letters cp i := by
  rw [Backtrack.find_opt_one_seq, Backtrack.find_plus_one, Backtrack.find_plus_one, ← ite_and,
    getD_eq hi, Option.any_some, UnicodeRanges.letters]
  by_cases hlead : (!isNl (cp.getD i 0) && !u.isL (cp.getD i 0) && !u.isN (cp.getD i 0) &&
      (cp[i + 1]?).any u.isL) = true
  · have hboth := Bool.and_eq_true_iff.mp hlead
    rw [if_pos hboth, if_pos hlead, if_pos hboth.2]
    rfl
  · rw [if_neg fun hboth => hlead (Bool.and_eq_true_iff.mpr hboth), if_neg hlead, getD_eq hi]
    rfl

theorem find_number1 (cp : List Nat) (i : Nat) : (Re.one u.isN).find cp i = u.number1 cp i :=
  Backtrack.find_one u.isN cp i

/-- A space is white space, so it is not a character of the run behind it. -/
theorem isC4_space : u.isC4 0x20 = false := by
  have hspace : isS 0x20 = true := by decide
  rw [UnicodeRanges.isC4, hspace]
  rfl

theorem find_others (cp : List Nat) (i : Nat) :
    (Re.seq (.opt (.one (· == 0x20))) (.seq (.plus (.one u.isC4)) (.star (.one isNl)))).find cp
      i = u.others cp i := by
  rw [Backtrack.find_opt_one_seq,
    Backtrack.find_plus_one_seq fun j => Backtrack.find_star_one isNl cp j,
    Backtrack.find_plus_one_seq fun j => Backtrack.find_star_one isNl cp j, UnicodeRanges.others]
  by_cases hspace : cp[i]? = some 0x20
  · have hnone : ¬ (cp[i]?).any u.isC4 = true := by
      rw [hspace, Option.any_some, isC4_space]
      exact Bool.false_ne_true
    rw [if_neg hnone, if_pos hspace, hspace, if_pos (by rfl)]
    exact (ite_orElse ..).trans rfl
  · have hnot : ¬ (cp[i]?).any (· == 0x20) = true := by
      rw [Option.any_eq_true]
      rintro ⟨c, hc, heq⟩
      rw [hc, beq_iff_eq.mp heq] at hspace
      exact hspace rfl
    rw [if_neg hnot, if_neg hspace]
    rfl

/-! White space -/

/-- The scan for the last place of a kind. -/
theorem foldl_last_eq (q : Nat → Bool) (l : List Nat) :
    l.foldl (fun last k => if q k then some k else last) none = l.reverse.find? q := by
  induction l using List.reverseRecOn with
  | nil => rfl
  | append_singleton l a ih =>
      rw [List.foldl_append, ih, List.reverse_append, List.reverse_singleton, List.singleton_append,
        List.foldl_cons, List.foldl_nil, List.find?_cons]
      cases q a <;> rfl

theorem findSome?_eq_find? (q : Nat → Bool) (f : Nat → Nat) (l : List Nat) :
    l.findSome? (fun k => if q k then some (f k) else none) = (l.find? q).map f := by
  induction l with
  | nil => rfl
  | cons a l ih =>
      rw [List.findSome?_cons, List.find?_cons, ih]
      cases q a <;> rfl

/-- The last place of a kind has none behind it. -/
theorem last_spec {q : Nat → Bool} {i n k : Nat} (h : (List.range' i n).reverse.find? q = some k) :
    q k = true ∧ i ≤ k ∧ k < i + n ∧ ∀ j, k < j → j < i + n → q j = false := by
  induction n with
  | zero => cases h
  | succ n ih =>
      rw [List.range'_1_concat, List.reverse_append, List.reverse_singleton, List.singleton_append,
        List.find?_cons] at h
      cases hq : q (i + n) with
      | true =>
          rw [hq] at h
          cases h
          exact ⟨hq, Nat.le_add_right _ _, by omega, fun j hj hj' => by omega⟩
      | false =>
          rw [hq] at h
          obtain ⟨hk, hle, hlt, hlater⟩ := ih h
          refine ⟨hk, hle, by omega, fun j hj hj' => ?_⟩
          rcases Nat.lt_or_ge j (i + n) with hbefore | hlast
          · exact hlater j hj hbefore
          · obtain rfl : j = i + n := by omega
            exact hq

/-- A newline is white space. -/
theorem isS_of_isNl {c : Nat} (h : isNl c = true) : isS c = true := by
  rw [isNl, Bool.or_eq_true, beq_iff_eq, beq_iff_eq] at h
  rcases h with rfl | rfl <;> decide

theorem newline_iff (k : Nat) : isNl (cp.getD k 0) = (cp[k]?).any isNl := by
  rw [List.getD_eq_getElem?_getD]
  cases cp[k]? <;> rfl

theorem not_newline_runEnd (cp : List Nat) (i : Nat) :
    ¬ (cp[runEnd isS cp i]?).any isNl = true := by
  intro hnl
  obtain ⟨c, hc, hnl⟩ := (Option.any_eq_true ..).mp hnl
  apply Backtrack.not_any_runEnd isS cp i
  rw [runEnd_eq, hc, Option.any_some]
  exact isS_of_isNl hnl

/-- A newline of a run of white space has no newline behind it in the run, so its own run ends. -/
theorem runEnd_newline {k : Nat} (hk : k < runEnd isS cp i) (hnl : (cp[k]?).any isNl = true)
    (hlast : ∀ j, k < j → j < runEnd isS cp i → (cp[j]?).any isNl = false) :
    Backtrack.runEnd isNl cp k = k + 1 := by
  rw [Backtrack.runEnd_of_any hnl]
  refine Backtrack.runEnd_of_not_any fun hnext => ?_
  rcases Nat.lt_or_ge (k + 1) (runEnd isS cp i) with hin | hend
  · rw [hlast (k + 1) (Nat.lt_succ_self k) hin] at hnext
    cases hnext
  · obtain heq : k + 1 = runEnd isS cp i := by omega
    rw [heq] at hnext
    exact not_newline_runEnd cp i hnext

/-- White space up to the last newline of its run. -/
theorem find_newlines (cp : List Nat) (i : Nat) :
    (Re.seq (.star (.one isS)) (.plus (.one isNl))).find cp i =
      ((List.range' i (runEnd isS cp i - i)).reverse.find? fun k => (cp[k]?).any isNl).map
        (· + 1) := by
  have hfind : (Re.plus (.one isNl)).find cp =
      fun k => if (cp[k]?).any isNl then some (Backtrack.runEnd isNl cp k) else none :=
    funext (Backtrack.find_plus_one isNl cp)
  rw [Backtrack.find_seq, Backtrack.ends_star_one, runEnd_eq, Backtrack.downTo_cons le_runEnd, hfind,
    List.findSome?_cons, if_neg (not_newline_runEnd cp i), findSome?_eq_find?]
  cases hlast : (List.range' i (runEnd isS cp i - i)).reverse.find? fun k => (cp[k]?).any isNl with
  | none => rfl
  | some k =>
      obtain ⟨hnl, hle, hlt, hlater⟩ := last_spec hlast
      rw [Nat.add_sub_cancel' le_runEnd] at hlt hlater
      rw [Option.map_some, Option.map_some, runEnd_newline hlt hnl hlater]

/-- White space up to the end of the text, or all but what stands before the next character. -/
theorem find_spaces (h : (cp[i]?).any isS = true) :
    ((Re.seq (.plus (.one isS)) (.notAhead fun c => !isS c)).find cp i <|>
        (Re.plus (.one isS)).find cp i) =
      some (if runEnd isS cp i = cp.length then runEnd isS cp i
        else if 2 ≤ runEnd isS cp i - i then runEnd isS cp i - 1 else runEnd isS cp i) := by
  have hlt : i < runEnd isS cp i := lt_runEnd h
  have hnext : runEnd isS cp (i + 1) = runEnd isS cp i := (Backtrack.runEnd_of_any h).symm
  have hends : (Re.plus (.one isS)).ends cp i = downTo (runEnd isS cp i) (i + 1) := by
    have hone : (Re.one isS).ends cp i = [i + 1] := if_pos h
    rw [Re.plus, Re.ends, hone, List.flatMap_singleton, Backtrack.ends_star_one, runEnd_eq, hnext]
  rw [Backtrack.find_seq, hends, Backtrack.find_plus_one, if_pos h, runEnd_eq]
  by_cases hend : runEnd isS cp i = cp.length
  · -- nothing is ahead
    have hall : (Re.notAhead fun c => !isS c).find cp (runEnd isS cp i) =
        some (runEnd isS cp i) := by
      rw [Backtrack.find_notAhead, hend, List.getElem?_length]
      rfl
    rw [if_pos hend, Backtrack.downTo_cons hlt, List.findSome?_cons, hall]
    rfl
  · -- the next character is not white space, so one place is given back
    have hnone : (Re.notAhead fun c => !isS c).find cp (runEnd isS cp i) = none := by
      have hnot := Backtrack.not_any_runEnd isS cp i
      have hin : runEnd isS cp i < cp.length :=
        Nat.lt_of_le_of_ne (runEnd_le (Nat.le_of_lt (any_lt h))) hend
      rw [runEnd_eq, List.getElem?_eq_getElem hin, Option.any_some, Bool.not_eq_true] at hnot
      rw [Backtrack.find_notAhead, List.getElem?_eq_getElem hin, Option.any_some, hnot]
      rfl
    rw [if_neg hend]
    split
    · rename_i htwo
      have hback : (Re.notAhead fun c => !isS c).find cp (runEnd isS cp i - 1) =
          some (runEnd isS cp i - 1) := by
        have hany : (cp[runEnd isS cp i - 1]?).any isS = true :=
          Backtrack.any_of_lt_runEnd (i := i) (by omega) (by rw [runEnd_eq]; omega)
        obtain ⟨c, hc, hspace⟩ := (Option.any_eq_true ..).mp hany
        rw [Backtrack.find_notAhead, hc, Option.any_some, hspace]
        rfl
      rw [Backtrack.downTo_pred (by omega), Backtrack.downTo_cons (by omega), List.findSome?_cons,
        hnone, List.findSome?_cons, hback]
      rfl
    · obtain hone : runEnd isS cp i = i + 1 := by omega
      rw [hone] at hnone ⊢
      rw [Backtrack.downTo_self, List.findSome?_singleton, hnone]
      rfl

theorem find_whitespace (h : (cp[i]?).any isS = true) :
    (whitespaceRe isS).find cp i = some (whitespace cp i) := by
  have hscan : (fun (last : Option Nat) k => if isNl (cp.getD k 0) then some k else last) =
      fun last k => if (cp[k]?).any isNl then some k else last := by
    funext last k
    rw [newline_iff]
  rw [whitespaceRe, Backtrack.find_alt, Backtrack.find_alt, find_newlines, find_spaces h, whitespace,
    hscan, foldl_last_eq]
  cases (List.range' i (runEnd isS cp i - i)).reverse.find? fun k => (cp[k]?).any isNl <;> rfl

/-- The alternatives in their order are those of the pattern, over the classes as they are looked
up. -/
theorem find_splitRe (u : UnicodeRanges) (hi : i < cp.length) :
    (splitRe u.isL u.isN isS).find cp i = some (u.nextPiece cp i) := by
  have hothers : (Re.seq (.opt (.one (· == 0x20)))
      (.seq (.plus (.one fun c => !isS c && !u.isL c && !u.isN c)) (.star (.one isNl)))).find cp i =
      u.others cp i := find_others cp i
  rw [splitRe, Backtrack.find_alt, Backtrack.find_alt, Backtrack.find_alt, Backtrack.find_alt,
    find_contraction, find_letters hi, find_number1, hothers, UnicodeRanges.nextPiece]
  cases contraction cp i with
  | some e => rfl
  | none =>
      cases hletters : u.letters cp i with
      | some e => rfl
      | none =>
          cases hnumber : u.number1 cp i with
          | some e => rfl
          | none =>
              cases hrest : u.others cp i with
              | some e => rfl
              | none => exact find_whitespace (isS_of_none hi hletters hnumber hrest)

/-- Where the tables are in order, the classes are their ranges. -/
theorem find_pattern (hletter : Ordered u.letter) (hnumber : Ordered u.number)
    (hi : i < cp.length) : u.pattern.find cp i = some (u.nextPiece cp i) := by
  rw [UnicodeRanges.pattern, ← inRanges_eq_within hletter, ← inRanges_eq_within hnumber,
    ← inRanges_eq_within ordered_space]
  exact find_splitRe u hi

end Match

/-! ## The pieces -/

/-- Where the pieces begin and end that the loop finds from a place on. -/
def splitPieces (u : UnicodeRanges) (cps : List Nat) : Nat → Nat → List (Nat × Nat)
  | 0, _ => []
  | fuel + 1, i =>
      if i < cps.length then
        (i, u.nextPiece cps i) :: splitPieces u cps fuel (u.nextPiece cps i)
      else []

/-- What stands between two places. -/
def between {α : Type*} (xs : List α) (x : Nat × Nat) : List α := (xs.drop x.1).take (x.2 - x.1)

section Pieces

variable {u : UnicodeRanges} {cps : List Nat} {fuel i : Nat}

/-- The loop encodes one piece after the other. -/
theorem encodePieces_eq (t : Gpt2) (s : List UInt8) (boff : List Nat) (maxOut : Nat) (o : Out) :
    encodePieces t s cps boff maxOut fuel i o =
      (splitPieces t.ranges cps fuel i).foldlM
        (fun o x => bpePiece t (between s (boff.getD x.1 0, boff.getD x.2 0)) maxOut o) o := by
  induction fuel generalizing i o with
  | zero => rfl
  | succ fuel ih =>
      rw [encodePieces, splitPieces]
      split
      · rw [List.foldlM_cons]
        dsimp only [between]
        cases bpePiece t _ maxOut o with
        | error e => rfl
        | ok o' => exact ih o'
      · rfl

theorem mem_splitPieces {x : Nat × Nat} (hx : x ∈ splitPieces u cps fuel i) :
    x.1 < cps.length ∧ x.2 = u.nextPiece cps x.1 := by
  induction fuel generalizing i with
  | zero => cases hx
  | succ fuel ih =>
      rw [splitPieces] at hx
      split at hx
      · rename_i hi
        rcases List.mem_cons.mp hx with rfl | hx
        · exact ⟨hi, rfl⟩
        · exact ih hx
      · cases hx

/-- Behind each other the pieces are what stands from the first place on, in code points and in
whatever the code points take up. -/
theorem between_flatten {α : Type*} {xs : List α} {b : Nat → Nat}
    (hb : ∀ j k, j ≤ k → k ≤ cps.length → b j ≤ b k) (hend : b cps.length = xs.length)
    (hi : i ≤ cps.length) (hfuel : cps.length ≤ i + fuel) :
    ((splitPieces u cps fuel i).map fun x => between xs (b x.1, b x.2)).flatten = xs.drop (b i) := by
  induction fuel generalizing i with
  | zero =>
      obtain rfl := Nat.le_antisymm hi hfuel
      rw [hend, List.drop_length]
      rfl
  | succ fuel ih =>
      rw [splitPieces]
      split
      · rename_i hlt
        obtain ⟨hprogress, hle⟩ := nextPiece_end u hlt
        have horder := hb _ _ hprogress.le hle
        have hdrop := List.take_append_drop (b (u.nextPiece cps i) - b i) (xs.drop (b i))
        rw [List.drop_drop, Nat.add_sub_cancel' horder] at hdrop
        rw [List.map_cons, List.flatten_cons, ih hle (by omega)]
        exact hdrop
      · rename_i hdone
        obtain rfl := Nat.le_antisymm hi (Nat.le_of_not_lt hdone)
        rw [hend, List.drop_length]
        rfl

/-- A code point takes up a byte at least. -/
theorem cpDecode_pos (c0 : UInt8) (rest : List UInt8) : 0 < (cpDecode c0 rest).2 := by
  rw [cpDecode]
  split_ifs <;> exact Nat.succ_pos _

theorem codePoints_strict {s : List UInt8} :
    ((codePoints s fuel i).map Prod.snd).Pairwise (· < ·) := by
  induction fuel generalizing i with
  | zero => exact .nil
  | succ fuel ih =>
      rw [codePoints]
      split
      · exact .nil
      · rename_i c0 rest hrest
        rw [List.map_cons, List.pairwise_cons]
        refine ⟨fun p hp => ?_, ih⟩
        obtain ⟨x, hx, rfl⟩ := List.mem_map.mp hp
        have hlater := (codePoints_bounds x hx).1
        have hpos := cpDecode_pos c0 rest
        dsimp only
        omega

/-- Where the code points of a text begin, and behind them its end. -/
def byteStarts (s : List UInt8) : List Nat := (codePoints s s.length 0).map Prod.snd ++ [s.length]

theorem length_byteStarts (s : List UInt8) :
    (byteStarts s).length = (codePoints s s.length 0).length + 1 := by
  rw [byteStarts, List.length_append, List.length_map, List.length_singleton]

theorem byteStarts_lt (s : List UInt8) {j k : Nat} (hjk : j < k)
    (hk : k ≤ (codePoints s s.length 0).length) :
    (byteStarts s).getD j 0 < (byteStarts s).getD k 0 := by
  have hlen := length_byteStarts s
  have hsorted : (byteStarts s).Pairwise (· < ·) := by
    refine List.pairwise_append.mpr ⟨codePoints_strict, List.pairwise_singleton _ _, ?_⟩
    intro p hp q hq
    obtain ⟨x, hx, rfl⟩ := List.mem_map.mp hp
    rw [List.mem_singleton.mp hq]
    exact (codePoints_bounds x hx).2
  rw [List.getD_eq_getElem _ _ (by omega), List.getD_eq_getElem _ _ (by omega)]
  exact List.pairwise_iff_getElem.mp hsorted j k (by omega) (by omega) hjk

theorem byteStarts_end (s : List UInt8) :
    (byteStarts s).getD (codePoints s s.length 0).length 0 = s.length := by
  simp [byteStarts, List.getD_eq_getElem?_getD]

theorem byteStarts_begin (s : List UInt8) : (byteStarts s).getD 0 0 = 0 := by
  rcases Nat.eq_zero_or_pos s.length with hempty | hs
  · rw [byteStarts, hempty]
    rfl
  · obtain ⟨c, points, hfirst⟩ := codePoints_first hs
    rw [byteStarts, hfirst]
    rfl

/-- The bytes of the pieces of a text. -/
def textPieces (u : UnicodeRanges) (s : List UInt8) : List (List UInt8) :=
  (splitPieces u ((codePoints s s.length 0).map Prod.fst) (codePoints s s.length 0).length 0).map
    fun x => between s ((byteStarts s).getD x.1 0, (byteStarts s).getD x.2 0)

theorem textPieces_flatten (u : UnicodeRanges) (s : List UInt8) : (textPieces u s).flatten = s := by
  have hmono : ∀ j k, j ≤ k → k ≤ ((codePoints s s.length 0).map Prod.fst).length →
      (byteStarts s).getD j 0 ≤ (byteStarts s).getD k 0 := by
    intro j k hjk hk
    rw [List.length_map] at hk
    rcases Nat.eq_or_lt_of_le hjk with rfl | hlt
    · exact Nat.le_refl _
    · exact (byteStarts_lt s hlt hk).le
  have hend : (byteStarts s).getD ((codePoints s s.length 0).map Prod.fst).length 0 = s.length := by
    rw [List.length_map, byteStarts_end]
  have hfuel : ((codePoints s s.length 0).map Prod.fst).length ≤
      0 + (codePoints s s.length 0).length := by
    rw [List.length_map, Nat.zero_add]
  have hflat := between_flatten (u := u) hmono hend (Nat.zero_le _) hfuel
  rw [byteStarts_begin, List.drop_zero] at hflat
  exact hflat

theorem textPieces_ne_nil {s : List UInt8} {piece : List UInt8} (h : piece ∈ textPieces u s) :
    piece ≠ [] := by
  obtain ⟨x, hx, rfl⟩ := List.mem_map.mp h
  obtain ⟨hlt, hend⟩ := mem_splitPieces hx
  obtain ⟨hprogress, hle⟩ := nextPiece_end u hlt
  rw [← hend, List.length_map] at hle
  rw [← hend] at hprogress
  have hbytes := byteStarts_lt s hprogress hle
  have hin : (byteStarts s).getD x.2 0 ≤ s.length := by
    rw [← byteStarts_end s]
    rcases Nat.eq_or_lt_of_le hle with heq | hlast
    · rw [heq]
    · exact (byteStarts_lt s hlast (Nat.le_refl _)).le
  rw [← List.length_pos_iff, between, List.length_take, List.length_drop]
  dsimp only
  omega

theorem encodeText_eq (t : Gpt2) (s : List UInt8) (maxOut : Nat) (o : Out) :
    encodeText t maxOut s o =
      (textPieces t.ranges s).foldlM (fun o piece => bpePiece t piece maxOut o) o := by
  rw [encodeText]
  split
  · rename_i hempty
    rw [List.length_eq_zero_iff.mp hempty]
    rfl
  · dsimp only
    rw [encodePieces_eq, textPieces, List.foldlM_map]
    rfl

end Pieces

/-- The scans by hand are the pattern: from every place of every text they end where its match
ends, which is behind the place, and the pieces of the loop, each a match, are the text, in its
code points and in its bytes. -/
theorem qwen2_split (t : Gpt2) (hletter : Ordered t.ranges.letter)
    (hnumber : Ordered t.ranges.number) :
    (∀ (cp : List Nat) (i : Nat), i < cp.length →
      t.ranges.pattern.find cp i = some (t.ranges.nextPiece cp i) ∧
        i < t.ranges.nextPiece cp i ∧ t.ranges.nextPiece cp i ≤ cp.length) ∧
    (∀ cp : List Nat,
      ((splitPieces t.ranges cp cp.length 0).map (between cp)).flatten = cp ∧
        ∀ x ∈ splitPieces t.ranges cp cp.length 0, x.1 < x.2 ∧
          t.ranges.pattern.find cp x.1 = some x.2) ∧
    ∀ (s : List UInt8) (maxOut : Nat) (o : Out),
      encodeText t maxOut s o =
          (textPieces t.ranges s).foldlM (fun o piece => bpePiece t piece maxOut o) o ∧
        (textPieces t.ranges s).flatten = s ∧ ∀ piece ∈ textPieces t.ranges s, piece ≠ [] := by
  refine ⟨fun cp i hi => ⟨find_pattern hletter hnumber hi, nextPiece_end t.ranges hi⟩,
    fun cp => ⟨?_, fun x hx => ?_⟩, fun s maxOut o =>
      ⟨encodeText_eq t s maxOut o, textPieces_flatten t.ranges s, fun _ => textPieces_ne_nil⟩⟩
  · exact between_flatten (b := id) (fun _ _ hle _ => hle) rfl (Nat.zero_le _) (by omega)
  · obtain ⟨hlt, hend⟩ := mem_splitPieces hx
    rw [hend]
    exact ⟨(nextPiece_end t.ranges hlt).1, find_pattern hletter hnumber hlt⟩

/-- Of two spaces before a letter one is a piece, and the other stands before the letter. -/
theorem qwen2_split_spaces :
    asciiLetters.pattern.find [0x20, 0x20, 0x61] 0 = some 1 ∧
      asciiLetters.pattern.find [0x20, 0x20, 0x61] 1 = some 3 := by
  have hmatch := (qwen2_split ⟨alphabetVocab, gpt2Merge lettersLine, [], asciiLetters⟩
    ⟨by decide, by decide⟩ ⟨.nil, fun x hx => absurd hx List.not_mem_nil⟩).1 [0x20, 0x20, 0x61]
  exact ⟨(hmatch 0 (by decide)).1.trans (by decide), (hmatch 1 (by decide)).1.trans (by decide)⟩

end ShannonPrime.Tokenizer
