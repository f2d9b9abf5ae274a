import Mathlib.Data.List.Basic
import Mathlib.Data.List.GetD

/-!
The pre-tokens of the Qwen 2 family: the alternatives of the pattern are tried in their order, and
the first that fits tells where the pre-token ends. Every position begins one.
-/

namespace ShannonPrime.Tokenizer

/-- A binary search in sorted ranges, between `lo` and `hi`. -/
def inRangesFrom (r : List (Nat × Nat)) (cp : Nat) : Nat → Nat → Nat → Bool
  | 0, _, _ => false
  | fuel + 1, lo, hi =>
      if lo < hi then
        let mid := (lo + hi) >>> 1
        let range := r.getD mid (0, 0)
        if cp < range.1 then inRangesFrom r cp fuel lo mid
        else if cp > range.2 then inRangesFrom r cp fuel (mid + 1) hi
        else true
      else false

def inRanges (r : List (Nat × Nat)) (cp : Nat) : Bool :=
  inRangesFrom r cp (r.length + 1) 0 r.length

/-- Ranges in their order, apart from each other. -/
def Ordered (r : List (Nat × Nat)) : Prop :=
  r.Pairwise (fun a b => a.2 < b.1) ∧ ∀ x ∈ r, x.1 ≤ x.2

/-- In one of the ranges. -/
def within (r : List (Nat × Nat)) (cp : Nat) : Bool := r.any fun x => x.1 ≤ cp && cp ≤ x.2

/-- `sp_uni_space` -/
def spUniSpace : List (Nat × Nat) :=
  [(0x0009, 0x000D), (0x0020, 0x0020), (0x0085, 0x0085), (0x00A0, 0x00A0), (0x1680, 0x1680),
    (0x2000, 0x200A), (0x2028, 0x2029), (0x202F, 0x202F), (0x205F, 0x205F), (0x3000, 0x3000)]

/-- The generated tables of letters and of numbers. -/
structure UnicodeRanges where
  letter : List (Nat × Nat)
  number : List (Nat × Nat)

/-- A carriage return or a line feed. -/
def isNl (c : Nat) : Bool := c == 0x0D || c == 0x0A

def isS (c : Nat) : Bool := inRanges spUniSpace c

def lc (c : Nat) : Nat := if 0x41 ≤ c ∧ c ≤ 0x5A then c + 32 else c

/-- The first place from `k` on that is not of a kind. -/
def runEnd (p : Nat → Bool) (cp : List Nat) (k : Nat) : Nat := k + ((cp.drop k).takeWhile p).length

section Ranges

variable {r : List (Nat × Nat)} {cp : Nat}

/-- The search finds the range between its bounds that holds the code point, if there is one: the
ranges before the middle end below it, those behind begin above. -/
theorem inRangesFrom_iff (h : Ordered r) {fuel lo hi : Nat} (hhi : hi ≤ r.length)
    (hfuel : hi - lo < fuel) :
    inRangesFrom r cp fuel lo hi = true ↔
      ∃ m, lo ≤ m ∧ m < hi ∧ (r.getD m (0, 0)).1 ≤ cp ∧ cp ≤ (r.getD m (0, 0)).2 := by
  have horder : ∀ m k, m < k → k < r.length → (r.getD m (0, 0)).2 < (r.getD k (0, 0)).1 := by
    intro m k hmk hk
    rw [List.getD_eq_getElem _ _ hk, List.getD_eq_getElem _ _ (Nat.lt_trans hmk hk)]
    exact List.pairwise_iff_getElem.mp h.1 m k (Nat.lt_trans hmk hk) hk hmk
  have hrange : ∀ m, m < r.length → (r.getD m (0, 0)).1 ≤ (r.getD m (0, 0)).2 := by
    intro m hm
    rw [List.getD_eq_getElem _ _ hm]
    exact h.2 _ (List.getElem_mem hm)
  induction fuel generalizing lo hi with
  | zero => omega
  | succ fuel ih =>
      rw [inRangesFrom, Nat.shiftRight_eq_div_pow, Nat.pow_one]
      split
      · rename_i hlt
        have hmid := hrange ((lo + hi) / 2) (by omega)
        dsimp only
        split
        · rename_i hbelow
          refine (ih (by omega) (by omega)).trans <| exists_congr fun m =>
            ⟨fun ⟨hlo, hm, hin⟩ => ⟨hlo, by omega, hin⟩, ?_⟩
          rintro ⟨hlo, hm, hin⟩
          refine ⟨hlo, ?_, hin⟩
          by_contra hbehind
          rcases Nat.eq_or_lt_of_le (Nat.le_of_not_lt hbehind) with rfl | hgt
          · omega
          · have hlater := horder _ m hgt (by omega)
            omega
        · split
          · rename_i habove
            refine (ih hhi (by omega)).trans <| exists_congr fun m =>
              ⟨fun ⟨hlo, hm, hin⟩ => ⟨by omega, hm, hin⟩, ?_⟩
            rintro ⟨hlo, hm, hin⟩
            refine ⟨?_, hm, hin⟩
            by_contra hbefore
            rcases Nat.eq_or_lt_of_le (Nat.le_of_not_lt hbefore) with heq | hgt
            · obtain rfl : m = (lo + hi) / 2 := by omega
              omega
            · have hearlier := horder m ((lo + hi) / 2) (by omega) (by omega)
              have hnext := hrange m (by omega)
              omega
          · exact iff_of_true rfl ⟨(lo + hi) / 2, by omega, by omega, by omega, by omega⟩
      · refine iff_of_false Bool.false_ne_true ?_
        rintro ⟨m, hlo, hm, -⟩
        omega

theorem inRanges_eq_within (h : Ordered r) : inRanges r = within r := by
  funext cp
  rw [Bool.eq_iff_iff, inRanges, inRangesFrom_iff h (Nat.le_refl _) (by omega), within,
    List.any_eq_true]
  constructor
  · rintro ⟨m, -, hm, hin⟩
    rw [List.getD_eq_getElem _ _ hm] at hin
    exact ⟨r[m], List.getElem_mem hm, by simpa using hin⟩
  · rintro ⟨x, hx, hin⟩
    obtain ⟨m, hm, rfl⟩ := List.getElem_of_mem hx
    refine ⟨m, Nat.zero_le m, hm, ?_⟩
    rw [List.getD_eq_getElem _ _ hm]
    simpa using hin

theorem ordered_space : Ordered spUniSpace := by
  constructor <;> decide

end Ranges

/-- The suffixes of contractions. -/
def contraction (cp : List Nat) (i : Nat) : Option Nat :=
  if cp[i]? = some 0x27 ∧ i + 1 < cp.length then
    let c1 := lc (cp.getD (i + 1) 0)
    let c2 := lc (cp.getD (i + 2) 0)
    if i + 2 < cp.length ∧
        ((c1 = 0x72 ∨ c1 = 0x76) ∧ c2 = 0x65 ∨ c1 = 0x6C ∧ c2 = 0x6C) then some (i + 3)
    else if c1 = 0x73 ∨ c1 = 0x74 ∨ c1 = 0x6D ∨ c1 = 0x64 then some (i + 2)
    else none
  else none

/-- White space: up to its last newline, or up to the end of the text, or all but what stands
before the next character. -/
def whitespace (cp : List Nat) (i : Nat) : Nat :=
  let e := runEnd isS cp i
  match (List.range' i (e - i)).foldl
      (fun lastnl k => if isNl (cp.getD k 0) then some k else lastnl) none with
  | some lastnl => lastnl + 1
  | none => if e = cp.length then e else if 2 ≤ e - i then e - 1 else e

namespace UnicodeRanges

variable (u : UnicodeRanges)

def isL (c : Nat) : Bool := inRanges u.letter c

def isN (c : Nat) : Bool := inRanges u.number c

/-- Neither white space nor a letter nor a number. -/
def isC4 (c : Nat) : Bool := !isS c && !u.isL c && !u.isN c

/-- Letters, with one other character in front of them if it is neither a newline nor a number. -/
def letters (cp : List Nat) (i : Nat) : Option Nat :=
  let c := cp.getD i 0
  let k := if !isNl c && !u.isL c && !u.isN c && (cp[i + 1]?).any u.isL then i + 1 else i
  if (cp[k]?).any u.isL then some (runEnd u.isL cp k) else none

def number1 (cp : List Nat) (i : Nat) : Option Nat :=
  if (cp[i]?).any u.isN then some (i + 1) else none

/-- Other characters, with a space in front of them and newlines behind them. -/
def others (cp : List Nat) (i : Nat) : Option Nat :=
  let k := if cp[i]? = some 0x20 then i + 1 else i
  if (cp[k]?).any u.isC4 then some (runEnd isNl cp (runEnd u.isC4 cp k)) else none

/-- Where the pre-token ends that begins at a place. -/
def nextPiece (cp : List Nat) (i : Nat) : Nat :=
  (contraction cp i <|> u.letters cp i <|> u.number1 cp i <|> u.others cp i).getD
    (whitespace cp i)

end UnicodeRanges

section Ends

variable {p : Nat → Bool} {cp : List Nat} {i k e : Nat}

theorem le_runEnd : k ≤ runEnd p cp k := Nat.le_add_right _ _

theorem runEnd_le (hk : k ≤ cp.length) : runEnd p cp k ≤ cp.length := by
  have hrun := (List.takeWhile_prefix p (l := cp.drop k)).length_le
  rw [List.length_drop] at hrun
  rw [runEnd]
  omega

theorem any_lt (h : (cp[k]?).any p = true) : k < cp.length := by
  by_contra hout
  rw [List.getElem?_eq_none (Nat.le_of_not_lt hout)] at h
  cases h

theorem lt_runEnd (h : (cp[k]?).any p = true) : k < runEnd p cp k := by
  have hk := any_lt h
  rw [List.getElem?_eq_getElem hk, Option.any_some] at h
  rw [runEnd, List.drop_eq_getElem_cons hk, List.takeWhile_cons_of_pos h, List.length_cons]
  omega

theorem contraction_end (h : contraction cp i = some e) : i < e ∧ e ≤ cp.length := by
  rw [contraction] at h
  split at h
  · rename_i hlong
    dsimp only at h
    split at h
    · rename_i hthree
      cases h
      omega
    · split at h
      · cases h
        omega
      · cases h
  · cases h

theorem foldl_last {l : List Nat} {q : Nat → Bool} {last : Option Nat}
    (h : l.foldl (fun last k => if q k then some k else last) last = some k) :
    k ∈ l ∨ last = some k := by
  induction l generalizing last with
  | nil => exact Or.inr h
  | cons a l ih =>
      rcases ih h with hmem | hlast
      · exact Or.inl (List.mem_cons_of_mem a hmem)
      · dsimp only at hlast
        split at hlast
        · cases hlast
          exact Or.inl List.mem_cons_self
        · exact Or.inr hlast

theorem whitespace_end (h : (cp[i]?).any isS = true) :
    i < whitespace cp i ∧ whitespace cp i ≤ cp.length := by
  have hi := any_lt h
  have hlt := lt_runEnd h
  have hle : runEnd isS cp i ≤ cp.length := runEnd_le (Nat.le_of_lt hi)
  rw [whitespace]
  split
  · rename_i lastnl hlast
    rcases foldl_last hlast with hmem | hnone
    · rw [List.mem_range'_1] at hmem
      omega
    · cases hnone
  · split
    · omega
    · split <;> omega

variable {u : UnicodeRanges}

/-- A run that begins at a place or behind it. -/
theorem run_end {f : Nat → Nat} (hf : ∀ k' ≤ cp.length, k' ≤ f k' ∧ f k' ≤ cp.length) (hk : i ≤ k)
    (h : (if (cp[k]?).any p then some (f (runEnd p cp k)) else none) = some e) :
    i < e ∧ e ≤ cp.length := by
  split at h
  · rename_i hany
    cases h
    have hlt := lt_runEnd hany
    have hbehind := hf (runEnd p cp k) (runEnd_le (Nat.le_of_lt (any_lt hany)))
    omega
  · cases h

theorem letters_end (h : u.letters cp i = some e) : i < e ∧ e ≤ cp.length := by
  refine run_end (f := id) (fun k' hk' => ⟨Nat.le_refl k', hk'⟩) ?_ h
  split <;> omega

theorem number1_end (h : u.number1 cp i = some e) : i < e ∧ e ≤ cp.length := by
  rw [UnicodeRanges.number1] at h
  split at h
  · rename_i hnumber
    cases h
    have hlt := any_lt hnumber
    omega
  · cases h

theorem others_end (h : u.others cp i = some e) : i < e ∧ e ≤ cp.length := by
  refine run_end (f := runEnd isNl cp) (fun k' hk' => ⟨le_runEnd, runEnd_le hk'⟩) ?_ h
  split <;> omega

/-- What begins no other pre-token is white space. -/
theorem isS_of_none (hi : i < cp.length) (hl : u.letters cp i = none) (hn : u.number1 cp i = none)
    (ho : u.others cp i = none) : (cp[i]?).any isS = true := by
  rw [List.getElem?_eq_getElem hi, Option.any_some]
  have hletter : u.isL cp[i] = false := by
    by_contra hletter
    rw [Bool.not_eq_false] at hletter
    rw [UnicodeRanges.letters] at hl
    simp [List.getD_eq_getElem?_getD, List.getElem?_eq_getElem hi, hletter] at hl
  have hnumber : u.isN cp[i] = false := by
    by_contra hnumber
    rw [Bool.not_eq_false] at hnumber
    simp [UnicodeRanges.number1, List.getElem?_eq_getElem hi, hnumber] at hn
  rcases eq_or_ne cp[i] 0x20 with hspace | hspace
  · rw [hspace]
    decide
  · by_contra hnone
    rw [Bool.not_eq_true] at hnone
    have hother : u.isC4 cp[i] = true := by
      rw [UnicodeRanges.isC4, hnone, hletter, hnumber]
      rfl
    simp [UnicodeRanges.others, List.getElem?_eq_getElem hi, hspace, hother] at ho

/-- A pre-token is not empty and ends within the text. -/
theorem nextPiece_end (u : UnicodeRanges) (hi : i < cp.length) :
    i < u.nextPiece cp i ∧ u.nextPiece cp i ≤ cp.length := by
  rw [UnicodeRanges.nextPiece]
  cases hc : contraction cp i with
  | some e => exact contraction_end hc
  | none =>
      cases hl : u.letters cp i with
      | some e => exact letters_end hl
      | none =>
          cases hn : u.number1 cp i with
          | some e => exact number1_end hn
          | none =>
              cases ho : u.others cp i with
              | some e => exact others_end ho
              | none => exact whitespace_end (isS_of_none hi hl hn ho)

end Ends

end ShannonPrime.Tokenizer
