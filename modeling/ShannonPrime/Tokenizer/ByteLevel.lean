import ShannonPrime.Tokenizer.Vocab

/-!
The byte-level alphabet of the GPT-2 family: each byte has a printable character, and a token is a
string of them. The decoder reads the characters of a token back as bytes.
-/

namespace ShannonPrime.Tokenizer

/-- The bytes that stand for themselves. -/
def printable (b : Nat) : Bool :=
  (33 ≤ b && b ≤ 126) || (161 ≤ b && b ≤ 172) || (174 ≤ b && b ≤ 255)

/-- `byte_to_cp`: the other bytes are numbered from 256 on. -/
def byteToCp (b : Nat) : Nat :=
  if printable b then b else 256 + (List.range b).countP fun x => !printable x

def maxCp : Nat := (List.range 256).foldl (fun mx b => max mx (byteToCp b)) 0

def cpToByte : Nat → Option Nat :=
  (List.range 256).foldl (fun m b => Function.update m (byteToCp b) (some b)) fun _ => none

/-- `bcp`: the bytes of a byte's character, one or two. -/
def bcp (b : UInt8) : List UInt8 :=
  let cp := byteToCp b.toNat
  if cp < 0x80 then [UInt8.ofNat cp]
  else [UInt8.ofNat (0xC0 ||| cp >>> 6), UInt8.ofNat (0x80 ||| cp &&& 0x3F)]

/-- A code point and how many bytes it takes. What is malformed is one byte. -/
def cpDecode (c0 : UInt8) (rest : List UInt8) : Nat × Nat :=
  let tail k := (rest.getD k 0).toNat &&& 0x3F
  if c0 < 0x80 then (c0.toNat, 1)
  else if c0 &&& 0xE0 = 0xC0 ∧ 1 ≤ rest.length then ((c0.toNat &&& 0x1F) <<< 6 ||| tail 0, 2)
  else if c0 &&& 0xF0 = 0xE0 ∧ 2 ≤ rest.length then
    ((c0.toNat &&& 0x0F) <<< 12 ||| tail 0 <<< 6 ||| tail 1, 3)
  else if c0 &&& 0xF8 = 0xF0 ∧ 3 ≤ rest.length then
    ((c0.toNat &&& 0x07) <<< 18 ||| tail 0 <<< 12 ||| tail 1 <<< 6 ||| tail 2, 4)
  else (c0.toNat, 1)

/-- The bytes that a token stands for. A character that is none of the alphabet is copied. -/
def tokenBytes : Nat → List UInt8 → List UInt8
  | 0, _ => []
  | _, [] => []
  | fuel + 1, c0 :: rest =>
      let (cp, adv) := cpDecode c0 rest
      let bytes :=
        match if cp ≤ maxCp then cpToByte cp else none with
        | some byte => [UInt8.ofNat byte]
        | none => (c0 :: rest).take adv
      bytes ++ tokenBytes fuel ((c0 :: rest).drop adv)

/-- Ids out of range are skipped. -/
def gpt2Text (v : Vocab) (id : Int) : List UInt8 :=
  if id < 0 then []
  else
    match v.tok[id.toNat]? with
    | none => []
    | some s => tokenBytes s.length s

/-- `sp_tokenizer_decode` -/
def gpt2Decode (v : Vocab) (ids : List Int) (cap : Nat) (buf : Nat → UInt8) : Text :=
  decodeIds (gpt2Text v) ids cap buf

/-- The byte-level encoding of some bytes. -/
def byteLevel (s : List UInt8) : List UInt8 := s.flatMap bcp

/-! ## The alphabet -/

theorem countP_unprintable {b : Nat} (hb : b ≤ 256) :
    ((List.range b).countP fun x => !printable x) =
      if b ≤ 33 then b else if b ≤ 127 then 33 else if b ≤ 161 then b - 94
      else if b ≤ 173 then 67 else 68 := by
  induction b with
  | zero => rfl
  | succ b ih =>
      rw [List.range_succ, List.countP_append, ih (by omega), List.countP_singleton]
      cases hp : printable b with
      | true =>
          simp only [printable, Bool.or_eq_true, Bool.and_eq_true, decide_eq_true_eq] at hp
          simp only [Bool.not_true, Bool.false_eq_true, if_false]
          split_ifs <;> omega
      | false =>
          simp only [printable, Bool.or_eq_false_iff, Bool.and_eq_false_iff,
            decide_eq_false_iff_not] at hp
          simp only [Bool.not_false, if_true]
          split_ifs <;> omega

theorem byteToCp_eq {b : Nat} (hb : b < 256) :
    byteToCp b = if b ≤ 32 then b + 256 else if b ≤ 126 then b else if b ≤ 160 then b + 162
      else if b = 173 then 323 else b := by
  rw [byteToCp, countP_unprintable (Nat.le_of_lt hb)]
  simp only [printable, Bool.or_eq_true, Bool.and_eq_true, decide_eq_true_eq]
  split_ifs <;> omega

theorem byteToCp_inj {a b : Nat} (ha : a < 256) (hb : b < 256) (h : byteToCp a = byteToCp b) :
    a = b := by
  rw [byteToCp_eq ha, byteToCp_eq hb] at h
  split_ifs at h <;> omega

theorem byteToCp_le {b : Nat} (hb : b < 256) : byteToCp b ≤ 323 := by
  rw [byteToCp_eq hb]
  split_ifs <;> omega

theorem maxCp_eq : maxCp = 323 := by decide +kernel

/-- The table is the inverse of the numbering, as no two bytes have one character. -/
theorem cpToByte_byteToCp {b : Nat} (hb : b < 256) : cpToByte (byteToCp b) = some b := by
  have htable : ∀ n ≤ 256, ∀ b < n, (List.range n).foldl
      (fun m b => Function.update m (byteToCp b) (some b)) (fun _ => none) (byteToCp b) = some b := by
    intro n
    induction n with
    | zero => exact fun _ b hb => absurd hb (Nat.not_lt_zero b)
    | succ n ih =>
        intro hn b hb
        rw [List.range_succ, List.foldl_append, List.foldl_cons, List.foldl_nil,
          Function.update_apply]
        split
        · rename_i hsame
          rw [byteToCp_inj (by omega) (by omega) hsame]
        · rename_i hdiff
          refine ih (by omega) b (Nat.lt_of_le_of_ne (Nat.le_of_lt_succ hb) ?_)
          rintro rfl
          exact hdiff rfl
  exact htable 256 (Nat.le_refl 256) b hb

theorem bcp_pos (b : UInt8) : 0 < (bcp b).length := by
  rw [bcp]
  split
  · exact Nat.one_pos
  · exact Nat.two_pos

theorem cpDecode_one {c0 : UInt8} (h : c0 < 0x80) (rest : List UInt8) :
    cpDecode c0 rest = (c0.toNat, 1) := if_pos h

theorem cpDecode_two {c0 : UInt8} (h : ¬c0 < 0x80) (hlead : c0 &&& 0xE0 = 0xC0) (c1 : UInt8)
    (rest : List UInt8) :
    cpDecode c0 (c1 :: rest) = ((c0.toNat &&& 0x1F) <<< 6 ||| (c1.toNat &&& 0x3F), 2) := by
  rw [cpDecode, if_neg h, if_pos ⟨hlead, by simp⟩]
  rfl

/-- A character of the alphabet is read as its number. -/
theorem cpDecode_bcp (b : UInt8) (rest : List UInt8) : ∃ c0 rest', bcp b ++ rest = c0 :: rest' ∧
    cpDecode c0 rest' = (byteToCp b.toNat, (bcp b).length) := by
  have hle := byteToCp_le b.toNat_lt
  rw [bcp]
  generalize byteToCp b.toNat = cp at hle
  split
  · rename_i hone
    have hsmall : ∀ cp < 0x80, UInt8.ofNat cp < 0x80 ∧ (UInt8.ofNat cp).toNat = cp := by decide
    obtain ⟨hlead, hval⟩ := hsmall cp hone
    exact ⟨_, _, rfl, by rw [cpDecode_one hlead, hval]; rfl⟩
  · rename_i htwo
    have hpair : ∀ cp < 324, ¬cp < 0x80 → ¬UInt8.ofNat (0xC0 ||| cp >>> 6) < 0x80 ∧
        UInt8.ofNat (0xC0 ||| cp >>> 6) &&& 0xE0 = 0xC0 ∧
        ((UInt8.ofNat (0xC0 ||| cp >>> 6)).toNat &&& 0x1F) <<< 6 |||
          ((UInt8.ofNat (0x80 ||| cp &&& 0x3F)).toNat &&& 0x3F) = cp := by decide +kernel
    obtain ⟨hlead, hmask, hval⟩ := hpair cp (by omega) htwo
    have hread := cpDecode_two hlead hmask (UInt8.ofNat (0x80 ||| cp &&& 0x3F)) rest
    rw [hval] at hread
    exact ⟨_, _, rfl, hread⟩

theorem tokenBytes_cons (fuel : Nat) (b : UInt8) (rest : List UInt8) :
    tokenBytes (fuel + 1) (bcp b ++ rest) = b :: tokenBytes fuel rest := by
  obtain ⟨c0, rest', hsplit, hread⟩ := cpDecode_bcp b rest
  have hlt : b.toNat < 256 := b.toNat_lt
  have hmax : byteToCp b.toNat ≤ maxCp := by
    rw [maxCp_eq]
    exact byteToCp_le hlt
  have hdrop : (c0 :: rest').drop (bcp b).length = rest := by rw [← hsplit, List.drop_left]
  rw [hsplit, tokenBytes, hread]
  dsimp only
  rw [if_pos hmax, cpToByte_byteToCp hlt, hdrop]
  dsimp only
  rw [UInt8.ofNat_toNat]
  rfl

/-- A token that is made of the alphabet stands for the bytes of its characters. -/
theorem tokenBytes_byteLevel {fuel : Nat} {s : List UInt8} (hfuel : s.length ≤ fuel) :
    tokenBytes fuel (byteLevel s) = s := by
  induction s generalizing fuel with
  | nil => cases fuel <;> rfl
  | cons b s ih =>
      rw [List.length_cons] at hfuel
      obtain ⟨fuel, rfl⟩ := Nat.exists_eq_add_of_lt (Nat.lt_of_lt_of_le (Nat.succ_pos _) hfuel)
      rw [byteLevel, List.flatMap_cons, Nat.zero_add, tokenBytes_cons]
      congr 1
      exact ih (by omega)

theorem length_le_byteLevel (s : List UInt8) : s.length ≤ (byteLevel s).length := by
  induction s with
  | nil => exact Nat.le_refl 0
  | cons b s ih =>
      have hpos := bcp_pos b
      rw [byteLevel] at ih
      rw [byteLevel, List.flatMap_cons, List.length_append, List.length_cons]
      omega

/-- The id of a token of the alphabet. -/
theorem gpt2Text_lookup {v : Vocab} {s : List UInt8} {id : Nat}
    (h : v.lookup (byteLevel s) = some id) : gpt2Text v id = s := by
  rw [gpt2Text, if_neg (by omega), Int.toNat_natCast, v.lookup_tok h]
  exact tokenBytes_byteLevel (length_le_byteLevel s)

end ShannonPrime.Tokenizer
