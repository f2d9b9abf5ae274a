import Mathlib.Data.List.Basic

/-!
UTF-8 as the standard library of Rust reads it: the well-formed characters by their first
byte, the well-formed prefix of a text, and the two ways to decode one.
-/

namespace ShannonPrime.Utf8

/-- The bytes of a text. -/
def encode (text : List Char) : List UInt8 := text.flatMap String.utf8EncodeChar

/-- A byte between two bounds is next. -/
def nextIn (lo hi : UInt8) (rest : List UInt8) : Bool :=
  match rest with
  | b :: _ => lo ≤ b && b ≤ hi
  | [] => false

/-- The length of the character that the bytes begin with, zero where there is none. -/
def charLen : List UInt8 → Nat
  | [] => 0
  | b :: rest =>
      let tail := nextIn 0x80 0xBF
      if b ≤ 0x7F then 1
      else if 0xC2 ≤ b && b ≤ 0xDF then if tail rest then 2 else 0
      else if 0xE0 ≤ b && b ≤ 0xEF then
        let lo := if b == 0xE0 then 0xA0 else 0x80
        let hi := if b == 0xED then 0x9F else 0xBF
        if nextIn lo hi rest && tail (rest.drop 1) then 3 else 0
      else if 0xF0 ≤ b && b ≤ 0xF4 then
        let lo := if b == 0xF0 then 0x90 else 0x80
        let hi := if b == 0xF4 then 0x8F else 0xBF
        if nextIn lo hi rest && tail (rest.drop 1) && tail (rest.drop 2) then 4 else 0
      else 0

/-- `valid_up_to` of the bytes, of which the first `fuel` are looked at. -/
def validUpTo : Nat → List UInt8 → Nat
  | 0, _ => 0
  | fuel + 1, buf =>
      if charLen buf = 0 then 0 else charLen buf + validUpTo fuel (buf.drop (charLen buf))

def validUtf8UpTo (buf : List UInt8) : Nat := validUpTo buf.length buf

/-- How many bytes one replacement character stands for, where no character begins: those that
could have begun one. -/
def badLen : List UInt8 → Nat
  | [] => 0
  | b :: rest =>
      if 0xE0 ≤ b && b ≤ 0xEF then
        let lo := if b == 0xE0 then 0xA0 else 0x80
        let hi := if b == 0xED then 0x9F else 0xBF
        if nextIn lo hi rest then 2 else 1
      else if 0xF0 ≤ b && b ≤ 0xF4 then
        let lo := if b == 0xF0 then 0x90 else 0x80
        let hi := if b == 0xF4 then 0x8F else 0xBF
        if nextIn lo hi rest then if nextIn 0x80 0xBF (rest.drop 1) then 3 else 2 else 1
      else 1

/-- The number that the bytes of a character stand for. -/
def scalar : List UInt8 → Nat
  | [a] => a.toNat
  | [a, b] => a.toNat % 0x20 * 0x40 + b.toNat % 0x40
  | [a, b, c] => a.toNat % 0x10 * 0x1000 + b.toNat % 0x40 * 0x40 + c.toNat % 0x40
  | [a, b, c, d] => a.toNat % 0x8 * 0x40000 + b.toNat % 0x40 * 0x1000 + c.toNat % 0x40 * 0x40 +
      d.toNat % 0x40
  | _ => 0

def lossyFrom : Nat → List UInt8 → List Char
  | 0, _ => []
  | _, [] => []
  | fuel + 1, buf =>
      if charLen buf = 0 then Char.ofNat 0xFFFD :: lossyFrom fuel (buf.drop (badLen buf))
      else Char.ofNat (scalar (buf.take (charLen buf))) :: lossyFrom fuel (buf.drop (charLen buf))

/-- `String::from_utf8_lossy`. -/
def fromUtf8Lossy (buf : List UInt8) : List Char := lossyFrom buf.length buf

/-- `String::from_utf8`. -/
def fromUtf8 (buf : List UInt8) : Option (List Char) :=
  if validUtf8UpTo buf = buf.length then some (fromUtf8Lossy buf) else none

theorem nextIn_drop {lo hi : UInt8} {rest : List UInt8} {k : Nat}
    (h : nextIn lo hi (rest.drop k) = true) : k < rest.length := by
  by_contra hshort
  rw [List.drop_of_length_le (Nat.le_of_not_lt hshort)] at h
  cases h

theorem charLen_le (buf : List UInt8) : charLen buf ≤ buf.length := by
  cases buf with
  | nil => exact Nat.le_refl 0
  | cons b rest =>
      have hcase : ∀ {c : Bool} {lo hi : UInt8} (k : Nat),
          (c = true → nextIn lo hi (rest.drop k) = true) →
            (if c then k + 2 else 0) ≤ (b :: rest).length := by
        intro c lo hi k h
        split
        · have hk := nextIn_drop (h ‹_›)
          rw [List.length_cons]
          omega
        · exact Nat.zero_le _
      simp only [charLen]
      split
      · simp
      · split
        · exact hcase 0 fun h => h
        · split
          · exact hcase 1 fun h => (Bool.and_eq_true_iff.mp h).2
          · split
            · exact hcase 2 fun h => (Bool.and_eq_true_iff.mp h).2
            · exact Nat.zero_le _

theorem validUpTo_le (fuel : Nat) (buf : List UInt8) : validUpTo fuel buf ≤ buf.length := by
  induction fuel generalizing buf with
  | zero => exact Nat.zero_le _
  | succ fuel ih =>
      have hrest := ih (buf.drop (charLen buf))
      have hlen := charLen_le buf
      rw [List.length_drop] at hrest
      rw [validUpTo]
      split
      · exact Nat.zero_le _
      · omega

theorem validUtf8UpTo_le (buf : List UInt8) : validUtf8UpTo buf ≤ buf.length :=
  validUpTo_le _ _

/-! ## The well-formed prefix -/

section Prefix

variable {lo hi : UInt8} {fuel k : Nat}

theorem nextIn_append {rest : List UInt8} (h : nextIn lo hi rest = true) (more : List UInt8) :
    nextIn lo hi (rest ++ more) = true := by
  cases rest with
  | nil => cases h
  | cons b rest => exact h

theorem nextIn_drop_append {rest : List UInt8} (h : nextIn lo hi (rest.drop k) = true)
    (more : List UInt8) : nextIn lo hi ((rest ++ more).drop k) = true := by
  rw [List.drop_append_of_le_length (Nat.le_of_lt (nextIn_drop h))]
  exact nextIn_append h more

/-- Whether a character begins does not depend on what stands behind it. -/
theorem charLen_append {buf : List UInt8} (h : charLen buf ≠ 0) (more : List UInt8) :
    charLen (buf ++ more) = charLen buf := by
  cases buf with
  | nil => exact absurd rfl h
  | cons b rest =>
      have hcase : ∀ {c c' : Bool} {n : Nat}, (c = true → c' = true) →
          (if c then n else 0) ≠ 0 → (if c' then n else 0) = if c then n else 0 := by
        intro c c' n himp hne
        cases hc : c with
        | false =>
            rw [hc] at hne
            exact absurd rfl hne
        | true => rw [if_pos (himp hc), if_pos rfl]
      rw [List.cons_append]
      simp only [charLen] at h ⊢
      split
      · rfl
      · rename_i hascii
        rw [if_neg hascii] at h
        split
        · rename_i htwo
          rw [if_pos htwo] at h
          exact hcase (fun hnext => nextIn_append hnext more) h
        · rename_i htwo
          rw [if_neg htwo] at h
          split
          · rename_i hthree
            rw [if_pos hthree] at h
            refine hcase (fun hnext => ?_) h
            rw [Bool.and_eq_true] at hnext ⊢
            exact ⟨nextIn_append hnext.1 more, nextIn_drop_append hnext.2 more⟩
          · rename_i hthree
            rw [if_neg hthree] at h
            split
            · rename_i hfour
              rw [if_pos hfour] at h
              refine hcase (fun hnext => ?_) h
              rw [Bool.and_eq_true, Bool.and_eq_true] at hnext ⊢
              exact ⟨⟨nextIn_append hnext.1.1 more, nextIn_drop_append hnext.1.2 more⟩,
                nextIn_drop_append hnext.2 more⟩
            · rfl

theorem nextIn_drop_take {rest : List UInt8} {j : Nat} (h : nextIn lo hi (rest.drop j) = true)
    (hj : j < k) : nextIn lo hi ((rest.take k).drop j) = true := by
  rw [List.drop_take]
  cases hrest : rest.drop j with
  | nil =>
      rw [hrest] at h
      cases h
  | cons b later =>
      rw [hrest] at h
      obtain ⟨left, hleft⟩ : ∃ left, k - j = left + 1 := ⟨k - j - 1, by omega⟩
      rw [hleft]
      exact h

theorem charLen_le_four (buf : List UInt8) : charLen buf ≤ 4 := by
  cases buf with
  | nil => exact Nat.zero_le 4
  | cons b rest =>
      simp only [charLen]
      split_ifs <;> omega

/-- The bytes of a character tell it. -/
theorem charLen_take {buf : List UInt8} (h : charLen buf ≤ k) :
    charLen (buf.take k) = charLen buf := by
  by_cases hzero : charLen buf = 0
  · by_contra hne
    have hwhole := charLen_append (fun h0 => hne (h0.trans hzero.symm)) (buf.drop k)
    rw [List.take_append_drop] at hwhole
    exact hne hwhole.symm
  · cases buf with
    | nil => exact absurd rfl hzero
    | cons b rest =>
        obtain ⟨k, rfl⟩ : ∃ j, k = j + 1 := ⟨k - 1, by omega⟩
        have hcase : ∀ {c c' : Bool} {n : Nat}, (if c then n else 0) ≠ 0 →
            (if c then n else 0) ≤ k + 1 → (n ≤ k + 1 → c = true → c' = true) →
            (if c' then n else 0) = if c then n else 0 := by
          intro c c' n hne hle himp
          cases hc : c with
          | false =>
              rw [hc] at hne
              exact absurd rfl hne
          | true =>
              rw [hc, if_pos rfl] at hle
              rw [if_pos (himp hle hc), if_pos rfl]
        rw [List.take_succ_cons]
        simp only [charLen] at h hzero ⊢
        split
        · rfl
        · rename_i hascii
          rw [if_neg hascii] at h hzero
          split
          · rename_i htwo
            rw [if_pos htwo] at h hzero
            exact hcase hzero h fun hle hnext => nextIn_drop_take (j := 0) hnext (by omega)
          · rename_i htwo
            rw [if_neg htwo] at h hzero
            split
            · rename_i hthree
              rw [if_pos hthree] at h hzero
              refine hcase hzero h fun hle hnext => ?_
              rw [Bool.and_eq_true] at hnext ⊢
              exact ⟨nextIn_drop_take (j := 0) hnext.1 (by omega),
                nextIn_drop_take hnext.2 (by omega)⟩
            · rename_i hthree
              rw [if_neg hthree] at h hzero
              split
              · rename_i hfour
                rw [if_pos hfour] at h hzero
                refine hcase hzero h fun hle hnext => ?_
                rw [Bool.and_eq_true, Bool.and_eq_true] at hnext ⊢
                exact ⟨⟨nextIn_drop_take (j := 0) hnext.1.1 (by omega),
                  nextIn_drop_take hnext.1.2 (by omega)⟩, nextIn_drop_take hnext.2 (by omega)⟩
              · rfl

/-- Four bytes tell whether they begin with a character. -/
theorem charLen_long {buf : List UInt8} (h : 4 ≤ buf.length) (more : List UInt8) :
    charLen (buf ++ more) = charLen buf := by
  have hle := charLen_le_four (buf ++ more)
  have htake := @charLen_take buf.length (buf ++ more) (by omega)
  rwa [List.take_left, eq_comm] at htake

/-! The prefix is a run of characters, however much fuel there is. -/

theorem validUpTo_fuel {buf : List UInt8} (h : buf.length ≤ fuel) :
    validUpTo fuel buf = validUtf8UpTo buf := by
  have hstep : ∀ n m (xs : List UInt8), xs.length ≤ n → xs.length ≤ m →
      validUpTo n xs = validUpTo m xs := by
    intro n
    induction n with
    | zero =>
        intro m xs hn _
        obtain rfl := List.length_eq_zero_iff.mp (Nat.le_zero.mp hn)
        cases m <;> rfl
    | succ n ih =>
        intro m xs hn hm
        cases m with
        | zero =>
            obtain rfl := List.length_eq_zero_iff.mp (Nat.le_zero.mp hm)
            rfl
        | succ m =>
            rw [validUpTo, validUpTo]
            split
            · rfl
            · rw [ih m _ (by rw [List.length_drop]; omega) (by rw [List.length_drop]; omega)]
  exact hstep fuel buf.length buf h (Nat.le_refl _)

theorem validUtf8UpTo_of_zero {buf : List UInt8} (h : charLen buf = 0) : validUtf8UpTo buf = 0 := by
  rw [validUtf8UpTo]
  cases buf.length with
  | zero => rfl
  | succ n => exact if_pos h

theorem validUtf8UpTo_of_char {buf : List UInt8} (h : charLen buf ≠ 0) :
    validUtf8UpTo buf = charLen buf + validUtf8UpTo (buf.drop (charLen buf)) := by
  have hle := charLen_le buf
  obtain ⟨n, hn⟩ : ∃ n, buf.length = n + 1 := ⟨buf.length - 1, by omega⟩
  rw [validUtf8UpTo, hn, validUpTo, if_neg h, validUpTo_fuel (by rw [List.length_drop]; omega)]

/-- Well-formed as a whole. -/
def Valid (buf : List UInt8) : Prop := validUtf8UpTo buf = buf.length

theorem Valid.charLen_ne_zero {buf : List UInt8} (h : Valid buf) (hne : buf ≠ []) :
    charLen buf ≠ 0 := fun hzero => by
  have hpos := List.length_pos_iff.mpr hne
  rw [Valid, validUtf8UpTo_of_zero hzero] at h
  omega

theorem Valid.drop_char {buf : List UInt8} (h : Valid buf) : Valid (buf.drop (charLen buf)) := by
  by_cases hzero : charLen buf = 0
  · rwa [hzero, List.drop_zero]
  · have hle := charLen_le buf
    rw [Valid, validUtf8UpTo_of_char hzero] at h
    rw [Valid, List.length_drop]
    omega

/-- The prefix goes on behind a well-formed text. -/
theorem Valid.append {buf : List UInt8} (h : Valid buf) (more : List UInt8) :
    validUtf8UpTo (buf ++ more) = buf.length + validUtf8UpTo more := by
  induction hlen : buf.length using Nat.strongRecOn generalizing buf with
  | ind n ih =>
      by_cases hempty : buf = []
      · subst hempty
        subst hlen
        rw [List.nil_append, List.length_nil, Nat.zero_add]
      · have hpos := List.length_pos_iff.mpr hempty
        have hchar := h.charLen_ne_zero hempty
        have hle := charLen_le buf
        have hgo := ih _ (by rw [List.length_drop]; omega) h.drop_char rfl
        have hboth : charLen (buf ++ more) ≠ 0 := by rwa [charLen_append hchar]
        rw [validUtf8UpTo_of_char hboth, charLen_append hchar, List.drop_append_of_le_length hle,
          hgo, List.length_drop]
        omega

/-- The prefix is well-formed. -/
theorem valid_take (buf : List UInt8) : Valid (buf.take (validUtf8UpTo buf)) := by
  induction hlen : buf.length using Nat.strongRecOn generalizing buf with
  | ind n ih =>
      by_cases hchar : charLen buf = 0
      · rw [validUtf8UpTo_of_zero hchar]
        rfl
      · have hle := charLen_le buf
        have hgo := ih _ (by rw [List.length_drop]; omega) (buf.drop (charLen buf)) rfl
        have hrest := validUtf8UpTo_le (buf.drop (charLen buf))
        rw [List.length_drop] at hrest
        have htake := @charLen_take (charLen buf + validUtf8UpTo (buf.drop (charLen buf))) buf
          (Nat.le_add_right _ _)
        have hsome : charLen (buf.take (charLen buf + validUtf8UpTo (buf.drop (charLen buf)))) ≠
            0 := by rwa [htake]
        rw [Valid, List.length_take] at hgo
        rw [List.length_drop] at hgo
        rw [Valid, validUtf8UpTo_of_char hchar, validUtf8UpTo_of_char hsome, htake,
          List.drop_take, Nat.add_sub_cancel_left, hgo, List.length_take]
        omega

/-- A text with less than four bytes behind its well-formed prefix. -/
theorem exists_valid_iff {buf : List UInt8} :
    (∃ text tail, buf = text ++ tail ∧ Valid text ∧ tail.length ≤ 3) ↔
      buf.length ≤ validUtf8UpTo buf + 3 := by
  constructor
  · rintro ⟨text, tail, rfl, hvalid, htail⟩
    rw [hvalid.append, List.length_append]
    omega
  · intro h
    refine ⟨_, _, (List.take_append_drop (validUtf8UpTo buf) buf).symm, valid_take buf, ?_⟩
    rw [List.length_drop]
    omega

/-- Four bytes that begin with no character are the end of the prefix, whatever follows. -/
theorem validUtf8UpTo_start {buf text : List UInt8} (h : buf <+: text)
    (htext : text.length ≤ validUtf8UpTo text + 3) : buf.length ≤ validUtf8UpTo buf + 3 := by
  by_contra hlong
  obtain ⟨more, rfl⟩ := h
  have hsplit := List.take_append_drop (validUtf8UpTo buf) buf
  have hvalid := valid_take buf
  have hle := validUtf8UpTo_le buf
  -- the bytes behind the prefix begin with no character
  have hnone : charLen (buf.drop (validUtf8UpTo buf)) = 0 := by
    by_contra hchar
    have hbehind := hvalid.append (buf.drop (validUtf8UpTo buf))
    rw [hsplit, List.length_take, validUtf8UpTo_of_char hchar] at hbehind
    omega
  have hfour : 4 ≤ (buf.drop (validUtf8UpTo buf)).length := by
    rw [List.length_drop]
    omega
  have hend : validUtf8UpTo (buf.drop (validUtf8UpTo buf) ++ more) = 0 :=
    validUtf8UpTo_of_zero (by rw [charLen_long hfour, hnone])
  have hwhole := hvalid.append (buf.drop (validUtf8UpTo buf) ++ more)
  rw [← List.append_assoc, hsplit, hend, List.length_take] at hwhole
  rw [List.length_append] at htext
  omega

/-! The text that is read, well-formed or not -/

theorem badLen_pos {buf : List UInt8} (h : buf ≠ []) : 0 < badLen buf := by
  cases buf with
  | nil => exact absurd rfl h
  | cons b rest =>
      simp only [badLen]
      split_ifs <;> omega

theorem lossyFrom_fuel {buf : List UInt8} (h : buf.length ≤ fuel) :
    lossyFrom fuel buf = fromUtf8Lossy buf := by
  have hstep : ∀ n m (xs : List UInt8), xs.length ≤ n → xs.length ≤ m →
      lossyFrom n xs = lossyFrom m xs := by
    intro n
    induction n with
    | zero =>
        intro m xs hn _
        obtain rfl := List.length_eq_zero_iff.mp (Nat.le_zero.mp hn)
        cases m <;> rfl
    | succ n ih =>
        intro m xs hn hm
        cases xs with
        | nil => cases m <;> rfl
        | cons x xs =>
            obtain ⟨m, rfl⟩ : ∃ j, m = j + 1 := ⟨m - 1, by rw [List.length_cons] at hm; omega⟩
            have hbad := badLen_pos (List.cons_ne_nil x xs)
            rw [lossyFrom, lossyFrom]
            · split
              · rw [ih m _ (by rw [List.length_drop]; omega) (by rw [List.length_drop]; omega)]
              · rw [ih m _ (by rw [List.length_drop]; omega) (by rw [List.length_drop]; omega)]
            · exact List.cons_ne_nil x xs
            · exact List.cons_ne_nil x xs
  exact hstep fuel buf.length buf h (Nat.le_refl _)

theorem fromUtf8Lossy_of_char {buf : List UInt8} (h : charLen buf ≠ 0) :
    fromUtf8Lossy buf = Char.ofNat (scalar (buf.take (charLen buf))) ::
      fromUtf8Lossy (buf.drop (charLen buf)) := by
  have hle := charLen_le buf
  have hne : buf ≠ [] := fun hnil => h (by rw [hnil]; rfl)
  obtain ⟨n, hn⟩ : ∃ n, buf.length = n + 1 := ⟨buf.length - 1, by omega⟩
  rw [fromUtf8Lossy, hn, lossyFrom, if_neg h, lossyFrom_fuel (by rw [List.length_drop]; omega)]
  exact hne

theorem fromUtf8Lossy_eq_nil {buf : List UInt8} : fromUtf8Lossy buf = [] ↔ buf = [] := by
  constructor
  · intro h
    by_contra hne
    by_cases hchar : charLen buf = 0
    · obtain ⟨n, hn⟩ : ∃ n, buf.length = n + 1 :=
        ⟨buf.length - 1, by have := List.length_pos_of_ne_nil hne; omega⟩
      rw [fromUtf8Lossy, hn, lossyFrom, if_pos hchar] at h
      · cases h
      · exact hne
    · rw [fromUtf8Lossy_of_char hchar] at h
      cases h
  · rintro rfl
    rfl

/-- Behind a well-formed text the reading starts anew. -/
theorem Valid.fromUtf8Lossy_append {buf : List UInt8} (h : Valid buf) (more : List UInt8) :
    fromUtf8Lossy (buf ++ more) = fromUtf8Lossy buf ++ fromUtf8Lossy more := by
  induction hlen : buf.length using Nat.strongRecOn generalizing buf with
  | ind n ih =>
      by_cases hempty : buf = []
      · subst hempty
        rfl
      · have hpos := List.length_pos_iff.mpr hempty
        have hchar := h.charLen_ne_zero hempty
        have hle := charLen_le buf
        have hgo := ih _ (by rw [List.length_drop]; omega) h.drop_char rfl
        have hboth : charLen (buf ++ more) ≠ 0 := by rwa [charLen_append hchar]
        rw [fromUtf8Lossy_of_char hboth, charLen_append hchar, List.drop_append_of_le_length hle,
          List.take_append_of_le_length hle, hgo, fromUtf8Lossy_of_char hchar, List.cons_append]

/-- Well-formed texts one behind the other are read one by one. -/
theorem fromUtf8Lossy_flatten {bufs : List (List UInt8)} (h : ∀ buf ∈ bufs, Valid buf) :
    fromUtf8Lossy bufs.flatten = bufs.flatMap fromUtf8Lossy := by
  induction bufs with
  | nil => rfl
  | cons buf bufs ih =>
      obtain ⟨hbuf, hbufs⟩ := List.forall_mem_cons.mp h
      rw [List.flatten_cons, hbuf.fromUtf8Lossy_append, ih hbufs, List.flatMap_cons]

end Prefix

theorem encode_injective : Function.Injective encode := by
  intro text text' h
  have hbytes : text.utf8Encode = text'.utf8Encode := by
    rw [List.utf8Encode, List.utf8Encode]
    exact congrArg List.toByteArray h
  rw [← String.toByteArray_ofList, ← String.toByteArray_ofList, String.toByteArray_inj] at hbytes
  exact String.ofList_injective hbytes

/-! ## The bytes of a character -/

theorem encode_cons (c : Char) (text : List Char) :
    encode (c :: text) = String.utf8EncodeChar c ++ encode text := rfl

theorem encode_append (text text' : List Char) :
    encode (text ++ text') = encode text ++ encode text' := List.flatMap_append

theorem encode_singleton (c : Char) : encode [c] = String.utf8EncodeChar c :=
  List.flatMap_singleton ..

/-- A character is its first byte, which tells its length, and continuation bytes. -/
theorem utf8EncodeChar_shape (c : Char) : ∃ lead tail, String.utf8EncodeChar c = lead :: tail ∧
    (∀ b ∈ tail, 0x80 ≤ b.toNat ∧ b.toNat < 0xC0) ∧
    (lead.toNat = c.val.toNat ∧ lead.toNat < 0x80 ∧ tail.length = 0 ∨
      0xC0 ≤ lead.toNat ∧ lead.toNat < 0xE0 ∧ tail.length = 1 ∨
      0xE0 ≤ lead.toNat ∧ lead.toNat < 0xF0 ∧ tail.length = 2 ∨
      0xF0 ≤ lead.toNat ∧ tail.length = 3) := by
  have hcont : ∀ n : Nat, 0x80 ≤ (UInt8.ofNat (n % 0x40 + 0x80)).toNat ∧
      (UInt8.ofNat (n % 0x40 + 0x80)).toNat < 0xC0 := by
    intro n
    rw [UInt8.toNat_ofNat']
    omega
  rw [String.utf8EncodeChar]
  split
  · rename_i hone
    refine ⟨_, [], rfl, List.forall_mem_nil _, Or.inl ⟨?_, ?_, rfl⟩⟩ <;>
      rw [UInt8.toNat_ofNat'] <;> omega
  · split
    · refine ⟨_, _, rfl, ?_, Or.inr (Or.inl ⟨?_, ?_, rfl⟩)⟩
      · exact List.forall_mem_singleton.mpr (hcont _)
      all_goals
        rw [UInt8.toNat_ofNat']
        omega
    · split
      · refine ⟨_, _, rfl, ?_, Or.inr (Or.inr (Or.inl ⟨?_, ?_, rfl⟩))⟩
        · exact List.forall_mem_cons.mpr ⟨hcont _, List.forall_mem_singleton.mpr (hcont _)⟩
        all_goals
          rw [UInt8.toNat_ofNat']
          omega
      · refine ⟨_, _, rfl, ?_, Or.inr (Or.inr (Or.inr ⟨?_, rfl⟩))⟩
        · exact List.forall_mem_cons.mpr ⟨hcont _, List.forall_mem_cons.mpr
            ⟨hcont _, List.forall_mem_singleton.mpr (hcont _)⟩⟩
        · rw [UInt8.toNat_ofNat']
          omega

theorem charLen_one {a : UInt8} (h : a.toNat ≤ 0x7F) (rest : List UInt8) :
    charLen (a :: rest) = 1 := by
  have ha : a ≤ 0x7F := UInt8.le_iff_toNat_le.mpr h
  rw [charLen, if_pos ha]

theorem charLen_two {a b : UInt8} (ha : 0xC2 ≤ a.toNat ∧ a.toNat ≤ 0xDF)
    (hb : 0x80 ≤ b.toNat ∧ b.toNat ≤ 0xBF) (rest : List UInt8) :
    charLen (a :: b :: rest) = 2 := by
  simp only [charLen, nextIn, Bool.and_eq_true, decide_eq_true_eq, UInt8.le_iff_toNat_le,
    UInt8.reduceToNat]
  rw [if_neg (by omega), if_pos ha, if_pos hb]

theorem charLen_three {a b c : UInt8} (ha : 0xE0 ≤ a.toNat ∧ a.toNat ≤ 0xEF)
    (hb : 0x80 ≤ b.toNat ∧ b.toNat ≤ 0xBF) (hlow : a.toNat = 0xE0 → 0xA0 ≤ b.toNat)
    (hhigh : a.toNat = 0xED → b.toNat ≤ 0x9F) (hc : 0x80 ≤ c.toNat ∧ c.toNat ≤ 0xBF)
    (rest : List UInt8) : charLen (a :: b :: c :: rest) = 3 := by
  have hlo : (if (a == 0xE0) = true then (0xA0 : UInt8) else 0x80).toNat ≤ b.toNat := by
    split
    · rename_i h
      exact hlow (by rw [beq_iff_eq.mp h]; rfl)
    · exact hb.1
  have hhi : b.toNat ≤ (if (a == 0xED) = true then (0x9F : UInt8) else 0xBF).toNat := by
    split
    · rename_i h
      exact hhigh (by rw [beq_iff_eq.mp h]; rfl)
    · exact hb.2
  simp only [charLen, nextIn, Bool.and_eq_true, decide_eq_true_eq, UInt8.le_iff_toNat_le,
    UInt8.reduceToNat, List.drop_succ_cons, List.drop_zero]
  rw [if_neg (by omega), if_neg (by omega), if_pos ha, if_pos ⟨⟨hlo, hhi⟩, hc⟩]

theorem charLen_four {a b c d : UInt8} (ha : 0xF0 ≤ a.toNat ∧ a.toNat ≤ 0xF4)
    (hb : 0x80 ≤ b.toNat ∧ b.toNat ≤ 0xBF) (hlow : a.toNat = 0xF0 → 0x90 ≤ b.toNat)
    (hhigh : a.toNat = 0xF4 → b.toNat ≤ 0x8F) (hc : 0x80 ≤ c.toNat ∧ c.toNat ≤ 0xBF)
    (hd : 0x80 ≤ d.toNat ∧ d.toNat ≤ 0xBF)
    (rest : List UInt8) : charLen (a :: b :: c :: d :: rest) = 4 := by
  have hlo : (if (a == 0xF0) = true then (0x90 : UInt8) else 0x80).toNat ≤ b.toNat := by
    split
    · rename_i h
      exact hlow (by rw [beq_iff_eq.mp h]; rfl)
    · exact hb.1
  have hhi : b.toNat ≤ (if (a == 0xF4) = true then (0x8F : UInt8) else 0xBF).toNat := by
    split
    · rename_i h
      exact hhigh (by rw [beq_iff_eq.mp h]; rfl)
    · exact hb.2
  simp only [charLen, nextIn, Bool.and_eq_true, decide_eq_true_eq, UInt8.le_iff_toNat_le,
    UInt8.reduceToNat, List.drop_succ_cons, List.drop_zero]
  rw [if_neg (by omega), if_neg (by omega), if_neg (by omega), if_pos ha,
    if_pos ⟨⟨⟨hlo, hhi⟩, hc⟩, hd⟩]

/-- The bytes of a character are one, and stand for its number. -/
theorem utf8EncodeChar_read (c : Char) (rest : List UInt8) :
    charLen (String.utf8EncodeChar c ++ rest) = (String.utf8EncodeChar c).length ∧
      scalar (String.utf8EncodeChar c) = c.val.toNat := by
  have hvalid : c.val.toNat < 0xD800 ∨ 0xDFFF < c.val.toNat ∧ c.val.toNat < 0x110000 := c.valid
  have hbyte : ∀ n, n < 256 → (UInt8.ofNat n).toNat = n := fun n h => UInt8.toNat_ofNat_of_lt' h
  rw [String.utf8EncodeChar]
  generalize c.val.toNat = v at hvalid ⊢
  split
  · have ha : (UInt8.ofNat v).toNat = v := hbyte v (by omega)
    exact ⟨charLen_one (by omega) rest, ha⟩
  split
  · have ha := hbyte (v / 64 % 0x20 + 0xC0) (by omega)
    have hb := hbyte (v % 0x40 + 0x80) (by omega)
    refine ⟨charLen_two (by omega) (by omega) rest, ?_⟩
    rw [scalar, ha, hb]
    omega
  split
  · have ha := hbyte (v / 4096 % 0x10 + 0xE0) (by omega)
    have hb := hbyte (v / 64 % 0x40 + 0x80) (by omega)
    have hc := hbyte (v % 0x40 + 0x80) (by omega)
    refine ⟨charLen_three (by omega) (by omega) (by omega) (by omega) (by omega) rest, ?_⟩
    rw [scalar, ha, hb, hc]
    omega
  · have ha := hbyte (v / 262144 % 0x08 + 0xF0) (by omega)
    have hb := hbyte (v / 4096 % 0x40 + 0x80) (by omega)
    have hc := hbyte (v / 64 % 0x40 + 0x80) (by omega)
    have hd := hbyte (v % 0x40 + 0x80) (by omega)
    refine ⟨charLen_four (by omega) (by omega) (by omega) (by omega) (by omega) (by omega) rest,
      ?_⟩
    rw [scalar, ha, hb, hc, hd]
    omega

/-- What is written is read back. -/
theorem fromUtf8Lossy_encode (text : List Char) : fromUtf8Lossy (encode text) = text := by
  induction text with
  | nil => rfl
  | cons c text ih =>
      obtain ⟨hlen, hscalar⟩ := utf8EncodeChar_read c (encode text)
      have hpos : String.utf8EncodeChar c ≠ [] := by
        obtain ⟨lead, tail, hbytes, -⟩ := utf8EncodeChar_shape c
        rw [hbytes]
        exact List.cons_ne_nil _ _
      have hne : charLen (encode (c :: text)) ≠ 0 := by
        rw [encode_cons, hlen]
        exact Nat.ne_of_gt (List.length_pos_iff.mpr hpos)
      rw [fromUtf8Lossy_of_char hne, encode_cons, hlen, List.take_left, List.drop_left, hscalar, ih]
      exact congrArg (· :: text) (Char.ofNat_toNat c)

/-- A run of characters is a run of their bytes, where the bytes of a character are all alike. -/
theorem encode_takeWhile {p : Char → Bool} {q : UInt8 → Bool} {text : List Char}
    (h : ∀ c ∈ text, ∀ b ∈ String.utf8EncodeChar c, q b = p c) :
    (encode text).takeWhile q = encode (text.takeWhile p) ∧
      (encode text).dropWhile q = encode (text.dropWhile p) := by
  induction text with
  | nil => exact ⟨rfl, rfl⟩
  | cons c text ih =>
      obtain ⟨htake, hdrop⟩ := ih fun c' hc' => h c' (List.mem_cons_of_mem c hc')
      have hall := h c List.mem_cons_self
      rw [encode_cons, List.takeWhile_cons, List.dropWhile_cons]
      split
      · rename_i hp
        have hq : ∀ b ∈ String.utf8EncodeChar c, q b = true := fun b hb => (hall b hb).trans hp
        rw [List.takeWhile_append_of_pos hq, List.dropWhile_append_of_pos hq, htake, hdrop]
        exact ⟨rfl, rfl⟩
      · rename_i hp
        obtain ⟨lead, tail, hbytes, -⟩ := utf8EncodeChar_shape c
        have hq : ¬q lead = true := by
          rw [hall lead (by rw [hbytes]; exact List.mem_cons_self)]
          exact hp
        rw [encode_cons, hbytes, List.cons_append, List.takeWhile_cons_of_neg hq,
          List.dropWhile_cons_of_neg hq]
        exact ⟨rfl, rfl⟩

end ShannonPrime.Utf8
