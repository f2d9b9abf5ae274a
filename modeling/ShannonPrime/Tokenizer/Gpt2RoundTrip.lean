import ShannonPrime.Tokenizer.Gpt2

/-!
The GPT-2 encoding and its decoder. Each symbol that is left of a pre-token is the alphabet's form
of some of its bytes, so that the tokens, if they are there, spell the text. A symbol that is no
token is the join of a merge line, as the alphabet itself is in the vocabulary.
-/

namespace ShannonPrime.Tokenizer

open PairMerge

/-- What each line of two strings of the alphabet joins to is a token. -/
def JoinsTokens (v : Vocab) (lines : List (List UInt8)) : Prop :=
  ∀ a b, byteLevel a ++ 0x20 :: byteLevel b ∈ lines → byteLevel (a ++ b) ∈ v.tok

/-- The ids of some bytes are emitted, or a join is no token. -/
def Spelled (v : Vocab) (lines : List (List UInt8)) (maxOut : Nat) (o : Out) (bytes : List UInt8)
    (r : Except Stop Out) : Prop :=
  (r = .error .noToken ∧ ¬JoinsTokens v lines) ∨
    ∃ o', r = .ok o' ∧ Spells (gpt2Text v) maxOut o o' bytes

section RoundTrip

variable {v : Vocab} {lines : List (List UInt8)} {maxOut : Nat} {o : Out}

/-- A group is a byte or what a line joins. -/
theorem mem_bpeGroups {rb g : List UInt8} (hg : g ∈ bpeGroups (vocabMap lines) rb) :
    (∃ b, g = [b]) ∨ ∃ a b, byteLevel a ++ 0x20 :: byteLevel b ∈ lines ∧ g = a ++ b := by
  have hmerged : Merged (groupRank (vocabMap lines)) (fun a b _ => a ++ b)
      (rb.map fun b => [b]) (bpeGroups (vocabMap lines) rb) :=
    naive_merged (by rw [List.length_map])
  rcases hmerged.mem hg with hbyte | ⟨a, b, k, hrank, rfl⟩
  · obtain ⟨b, -, rfl⟩ := List.mem_map.mp hbyte
    exact Or.inl ⟨b, rfl⟩
  · rw [groupRank, hmapGet_vocabMap, List.findIdx?_eq_some_iff_getElem] at hrank
    obtain ⟨hlt, hline, -⟩ := hrank
    refine Or.inr ⟨a, b, ?_, rfl⟩
    rw [← of_decide_eq_true hline]
    exact List.getElem_mem hlt

theorem bpeGroups_flatten (m : Hmap) (rb : List UInt8) : (bpeGroups m rb).flatten = rb := by
  have hmerged : Merged (groupRank m) (fun a b _ => a ++ b) (rb.map fun b => [b])
      (bpeGroups m rb) := naive_merged (by rw [List.length_map])
  rw [hmerged.flatten]
  exact List.flatMap_singleton' rb

/-- The symbols are emitted up to the first that is no token. -/
theorem bpeEmit_layout {enc : List UInt8} {groups : List (List UInt8)} {off : Nat}
    (h : enc.drop off = byteLevel groups.flatten) :
    (bpeEmit v enc maxOut (layout groups off) o = .error .noToken ∧
      ∃ g ∈ groups, byteLevel g ∉ v.tok) ∨
    ∃ o', bpeEmit v enc maxOut (layout groups off) o = .ok o' ∧
      Spells (gpt2Text v) maxOut o o' groups.flatten := by
  induction groups generalizing off o with
  | nil => exact Or.inr ⟨o, rfl, .nil⟩
  | cons g groups ih =>
      obtain ⟨htext, hrest⟩ := layout_head h
      rw [layout, bpeEmit, htext]
      cases hid : v.lookup (byteLevel g) with
      | none =>
          refine Or.inl ⟨rfl, g, List.mem_cons_self, ?_⟩
          exact Vocab.lookup_eq_none.mp hid
      | some id =>
          have hone : Spells (gpt2Text v) maxOut o (emit maxOut o id) g := by
            have hemit : Spells (gpt2Text v) maxOut o (emit maxOut o id) (gpt2Text v id) := .emit id
            rwa [gpt2Text_lookup hid] at hemit
          rcases @ih (emit maxOut o id) _ hrest with ⟨herror, g', hg', hnone⟩ | ⟨o', hok, hspells⟩
          · exact Or.inl ⟨herror, g', List.mem_cons_of_mem g hg', hnone⟩
          · exact Or.inr ⟨o', hok, hone.append hspells⟩

variable {t : Gpt2}

/-- One pre-token. -/
theorem bpePiece_spelled (hv : t.vocab = v) (hmerge : t.merge = some (vocabMap lines))
    (halphabet : ∀ b, bcp b ∈ v.tok) (rb : List UInt8) :
    Spelled v lines maxOut o rb (bpePiece t rb maxOut o) := by
  have hflat := bpeGroups_flatten (vocabMap lines) rb
  rw [bpePiece, hmerge, bpeMerges_eq, hv]
  have hemit := @bpeEmit_layout v maxOut o (byteLevel rb) (bpeGroups (vocabMap lines) rb) 0
    (by rw [hflat, List.drop_zero])
  rw [hflat] at hemit
  rcases hemit with ⟨herror, g, hg, hnone⟩ | hok
  · refine Or.inl ⟨herror, fun hjoins => ?_⟩
    rcases mem_bpeGroups hg with ⟨b, rfl⟩ | ⟨a, b, hline, rfl⟩
    · apply hnone
      rw [byteLevel, List.flatMap_singleton]
      exact halphabet b
    · exact hnone (hjoins a b hline)
  · exact Or.inr hok

/-! ## The places of the code points -/

theorem codePoints_bounds {s : List UInt8} {fuel i : Nat} :
    ∀ x ∈ codePoints s fuel i, i ≤ x.2 ∧ x.2 < s.length := by
  induction fuel generalizing i with
  | zero => exact fun x hx => absurd hx List.not_mem_nil
  | succ fuel ih =>
      intro x hx
      rw [codePoints] at hx
      split at hx
      · exact absurd hx List.not_mem_nil
      · rename_i c0 rest hrest
        have hlen := congrArg List.length hrest
        rw [List.length_drop, List.length_cons] at hlen
        rcases List.mem_cons.mp hx with rfl | hx
        · exact ⟨Nat.le_refl i, by dsimp only; omega⟩
        · have hlater := ih x hx
          omega

/-- The places are in order. -/
theorem codePoints_sorted {s : List UInt8} {fuel i : Nat} :
    ((codePoints s fuel i).map Prod.snd).Pairwise (· ≤ ·) := by
  induction fuel generalizing i with
  | zero => exact .nil
  | succ fuel ih =>
      rw [codePoints]
      split
      · exact .nil
      · rw [List.map_cons, List.pairwise_cons]
        refine ⟨fun p hp => ?_, ih⟩
        obtain ⟨x, hx, rfl⟩ := List.mem_map.mp hp
        have hlater := (codePoints_bounds x hx).1
        dsimp only
        omega

/-- The first code point stands at the beginning of the text. -/
theorem codePoints_first {s : List UInt8} (hs : 0 < s.length) :
    ∃ cp points, codePoints s s.length 0 = (cp, 0) :: points := by
  cases s with
  | nil => exact absurd hs (Nat.lt_irrefl 0)
  | cons c0 rest => exact ⟨_, _, rfl⟩

theorem getD_le_of_sorted {l : List Nat} (h : l.Pairwise (· ≤ ·)) {i j : Nat} (hij : i ≤ j)
    (hj : j < l.length) : l.getD i 0 ≤ l.getD j 0 := by
  have hi : i < l.length := by omega
  rw [List.getD_eq_getElem?_getD, List.getD_eq_getElem?_getD, List.getElem?_eq_getElem hi,
    List.getElem?_eq_getElem hj]
  rcases Nat.eq_or_lt_of_le hij with rfl | hlt
  · exact Nat.le_refl _
  · exact List.pairwise_iff_getElem.mp h i j hi hj hlt

/-- The pre-tokens from a place on are the rest of the text. -/
theorem encodePieces_spelled (hv : t.vocab = v) (hmerge : t.merge = some (vocabMap lines))
    (halphabet : ∀ b, bcp b ∈ v.tok) {s : List UInt8} {cps boff : List Nat}
    (hboff : boff.length = cps.length + 1) (hsorted : boff.Pairwise (· ≤ ·))
    (hend : boff.getD cps.length 0 = s.length) {fuel i : Nat} (hi : i ≤ cps.length)
    (hfuel : cps.length ≤ i + fuel) :
    Spelled v lines maxOut o (s.drop (boff.getD i 0))
      (encodePieces t s cps boff maxOut fuel i o) := by
  induction fuel generalizing i o with
  | zero =>
      obtain rfl := Nat.le_antisymm hi hfuel
      rw [hend, List.drop_length]
      exact Or.inr ⟨o, rfl, .nil⟩
  | succ fuel ih =>
      rw [encodePieces]
      split
      · rename_i hlt
        obtain ⟨hprogress, hle⟩ := nextPiece_end t.ranges hlt
        have horder := getD_le_of_sorted hsorted hprogress.le (by omega)
        dsimp only
        -- the piece and what is behind it
        have hsplit : s.drop (boff.getD i 0) =
            (s.drop (boff.getD i 0)).take
                (boff.getD (t.ranges.nextPiece cps i) 0 - boff.getD i 0) ++
              s.drop (boff.getD (t.ranges.nextPiece cps i) 0) := by
          have hdrop := List.take_append_drop
            (boff.getD (t.ranges.nextPiece cps i) 0 - boff.getD i 0) (s.drop (boff.getD i 0))
          rw [List.drop_drop, Nat.add_sub_cancel' horder] at hdrop
          exact hdrop.symm
        rcases @bpePiece_spelled v lines maxOut o t hv hmerge halphabet
          ((s.drop (boff.getD i 0)).take
            (boff.getD (t.ranges.nextPiece cps i) 0 - boff.getD i 0)) with
          ⟨herror, hjoins⟩ | ⟨o', hok, hspells⟩
        · rw [herror]
          exact Or.inl ⟨rfl, hjoins⟩
        · rw [hok]
          rcases @ih o' _ hle (by omega) with herror | ⟨o'', hok', hrest⟩
          · exact Or.inl herror
          · rw [hsplit]
            exact Or.inr ⟨o'', hok', hspells.append hrest⟩
      · rename_i hdone
        obtain rfl := Nat.le_antisymm hi (Nat.le_of_not_lt hdone)
        rw [hend, List.drop_length]
        exact Or.inr ⟨o, rfl, .nil⟩

theorem encodeText_spelled (hv : t.vocab = v) (hmerge : t.merge = some (vocabMap lines))
    (halphabet : ∀ b, bcp b ∈ v.tok) (s : List UInt8) :
    Spelled v lines maxOut o s (encodeText t maxOut s o) := by
  rw [encodeText]
  split
  · rename_i hempty
    rw [List.length_eq_zero_iff.mp hempty]
    exact Or.inr ⟨o, rfl, .nil⟩
  · rename_i hs
    obtain ⟨cp, points, hfirst⟩ := codePoints_first (Nat.pos_of_ne_zero hs)
    have hpieces := @encodePieces_spelled v lines maxOut o t hv hmerge halphabet s
      ((codePoints s s.length 0).map Prod.fst) ((codePoints s s.length 0).map Prod.snd ++ [s.length])
      (by simp) (List.pairwise_append.mpr ⟨codePoints_sorted, List.pairwise_singleton _ _, ?_⟩)
      (by simp [List.getD_eq_getElem?_getD])
      (codePoints s s.length 0).length 0 (Nat.zero_le _) (by simp)
    · rw [hfirst] at hpieces ⊢
      exact hpieces
    · intro p hp q hq
      obtain ⟨x, hx, rfl⟩ := List.mem_map.mp hp
      rw [List.mem_singleton.mp hq]
      exact (codePoints_bounds x hx).2.le

/-- A text that is one pre-token is refused with it. -/
theorem encodeText_whole {s : List UInt8} {e : Stop} (hs : 0 < s.length)
    (hwhole : t.ranges.nextPiece ((codePoints s s.length 0).map Prod.fst) 0 =
      (codePoints s s.length 0).length)
    (hrefused : bpePiece t s maxOut o = .error e) : encodeText t maxOut s o = .error e := by
  obtain ⟨cp, points, hfirst⟩ := codePoints_first hs
  have hend : ((codePoints s s.length 0).map Prod.snd ++ [s.length]).getD
      (codePoints s s.length 0).length 0 = s.length := by
    simp [List.getD_eq_getElem?_getD]
  rw [encodeText, if_neg (Nat.ne_of_gt hs)]
  dsimp only
  rw [hfirst] at hwhole hend ⊢
  rw [List.length_cons, encodePieces, if_pos (by simp)]
  dsimp only
  rw [hwhole, hend]
  have hbegin : (((cp, 0) :: points).map Prod.snd ++ [s.length]).getD 0 0 = 0 := rfl
  rw [hbegin, List.drop_zero, Nat.sub_zero, List.take_length, hrefused]

end RoundTrip

/-- The encoder gives ids that are decoded to the text, unless what a merge line joins is no token:
then it may refuse the text. -/
theorem gpt2_round_trip (v : Vocab) (lines : List (List UInt8)) (spec : List Special)
    (ranges : UnicodeRanges) (halphabet : ∀ b, bcp b ∈ v.tok) (hlines : lines ≠ [])
    (s : List UInt8) (maxOut : Nat) (out : Nat → Int) :
    (gpt2Encode ⟨v, gpt2Merge lines, spec, ranges⟩ s false maxOut out = .error .noToken ∧
      ¬JoinsTokens v lines) ∨
    ∃ o, gpt2Encode ⟨v, gpt2Merge lines, spec, ranges⟩ s false maxOut out = .ok o ∧
      (o.cnt ≤ maxOut → ∀ cap buf, s.length < cap → (gpt2Decode v o.ids cap buf).bytes = s) := by
  have hmerge : gpt2Merge lines = some (vocabMap lines) :=
    if_pos (List.length_pos_iff.mpr hlines)
  have hspelled : Spelled v lines maxOut ⟨out, 0⟩ s
      (gpt2Encode ⟨v, gpt2Merge lines, spec, ranges⟩ s false maxOut out) := by
    rw [gpt2Encode]
    split
    · rename_i hempty
      rw [List.length_eq_zero_iff.mp hempty]
      exact Or.inr ⟨_, rfl, .nil⟩
    · rename_i hs
      rw [encodeSpecials_plain, if_pos (Nat.pos_of_ne_zero hs)]
      exact encodeText_spelled rfl hmerge halphabet s
  rcases hspelled with herror | ⟨o, hok, hspells⟩
  · exact Or.inl herror
  · exact Or.inr ⟨o, hok, fun hfits cap buf hroom => hspells.decode hfits hroom buf⟩

/-! ## The alphabet alone -/

def alphabetTokens : List (List UInt8) := (List.range 256).map fun b => bcp (UInt8.ofNat b)

theorem bcp_mem (b : UInt8) : bcp b ∈ alphabetTokens :=
  List.mem_map.mpr ⟨b.toNat, List.mem_range.mpr b.toNat_lt, by rw [UInt8.ofNat_toNat]⟩

def alphabetVocab : Vocab :=
  ⟨alphabetTokens, by
    rw [alphabetTokens, List.length_map, List.length_range]
    omega⟩

/-- One line, for the letters `a` and `b`. -/
def lettersLine : List (List UInt8) := [[0x61, 0x20, 0x62]]

def asciiLetters : UnicodeRanges := ⟨[(0x41, 0x5A), (0x61, 0x7A)], []⟩

theorem gpt2_round_trip_letters :
    (gpt2Encode ⟨alphabetVocab, gpt2Merge lettersLine, [], asciiLetters⟩ [0x62, 0x61] false 8
        (fun _ => 0) = .error .noToken ∧ ¬JoinsTokens alphabetVocab lettersLine) ∨
      ∃ o, gpt2Encode ⟨alphabetVocab, gpt2Merge lettersLine, [], asciiLetters⟩ [0x62, 0x61] false 8
          (fun _ => 0) = .ok o ∧
        (o.cnt ≤ 8 → ∀ cap buf, 2 < cap →
          (gpt2Decode alphabetVocab o.ids cap buf).bytes = [0x62, 0x61]) :=
  gpt2_round_trip alphabetVocab lettersLine [] asciiLetters bcp_mem (List.cons_ne_nil _ _)
    [0x62, 0x61] 8 fun _ => 0

/-- A symbol that is no token is refused. -/
theorem bpeEmit_none {v : Vocab} {enc : List UInt8} {maxOut : Nat} {x : Span} {syms : List Span}
    {o : Out} (h : v.lookup (x.text enc) = none) :
    bpeEmit v enc maxOut (x :: syms) o = .error .noToken := by
  rw [bpeEmit, h]

/-- The alphabet is in the vocabulary, but what the line joins is not, and the text is refused. -/
theorem gpt2_join_refused : (∀ b, bcp b ∈ alphabetVocab.tok) ∧
    gpt2Encode ⟨alphabetVocab, gpt2Merge lettersLine, [], asciiLetters⟩ [0x61, 0x62] false 8
      (fun _ => 0) = .error .noToken := by
  refine ⟨bcp_mem, ?_⟩
  have hrank : groupRank (vocabMap lettersLine) =
      fun a b => lettersLine.findIdx? fun line =>
        decide (line = byteLevel a ++ 0x20 :: byteLevel b) := by
    funext a b
    rw [groupRank, hmapGet_vocabMap]
  have hgroups : bpeGroups (vocabMap lettersLine) [0x61, 0x62] = [[0x61, 0x62]] := by
    rw [bpeGroups, hrank]
    decide
  have hnone : alphabetVocab.lookup [0x61, 0x62] = none := by
    have hout : [0x61, 0x62] ∉ alphabetTokens := by decide +kernel
    exact Vocab.lookup_eq_none.mpr hout
  have hrefused : ∀ o, bpePiece ⟨alphabetVocab, gpt2Merge lettersLine, [], asciiLetters⟩
      [0x61, 0x62] 8 o = .error .noToken := by
    intro o
    have hmerge : gpt2Merge lettersLine = some (vocabMap lettersLine) := if_pos Nat.one_pos
    have henc : byteLevel [0x61, 0x62] = [0x61, 0x62] := by decide
    rw [bpePiece, hmerge, bpeMerges_eq, hgroups, henc]
    dsimp only
    rw [layout, henc]
    exact bpeEmit_none hnone
  rw [gpt2Encode, if_neg (by decide), encodeSpecials_plain, if_pos (by decide)]
  refine encodeText_whole (by decide) ?_ (hrefused _)
  decide

end ShannonPrime.Tokenizer
