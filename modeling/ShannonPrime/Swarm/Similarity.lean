import Mathlib.Algebra.GroupWithZero.Nat
import Mathlib.Data.Fin.VecNotation
import Mathlib.Data.Prod.Lex
import ShannonPrime.Lib.StableSort
import ShannonPrime.Lib.Words
import ShannonPrime.Swarm.Object

/-!
The similarity index of the swarm: object addresses with their signatures, searched by Hamming
distance. An address keeps its last signature only, and a search gives the nearest entries in
order of distance and address; in what order the entries came in plays no part.

The text of a signature: the swarm writes its bytes in the order of memory, the daemon writes
the number it stands for, and each of them reads what it writes. A text that crosses from one to
the other gives the bytes in the opposite order.
-/

namespace ShannonPrime.Swarm

open KLeast Utf8 WordBits
open Recall (trim isWhitespace byteLen)

/-- A signature of 256 bits: four words. -/
abbrev Sig := Fin 4 → UInt64

def hamming (a b : Sig) : Nat := ((List.finRange 4).map fun i => (bits (a i ^^^ b i)).length).sum

def agree (a b : Sig) : Nat := 256 - hamming a b

variable {A : Type*} [LinearOrder A]

structure C2Index (A : Type*) where
  entries : List (A × Sig)

namespace C2Index

def new : C2Index A := { entries := [] }

/-- The first entry of the address is overwritten; without one there is a new entry at the
end. -/
def insertEntry (addr : A) (sig : Sig) : List (A × Sig) → List (A × Sig)
  | [] => [(addr, sig)]
  | e :: es => if e.1 = addr then (addr, sig) :: es else e :: insertEntry addr sig es

def insert (idx : C2Index A) (addr : A) (sig : Sig) : C2Index A :=
  { entries := insertEntry addr sig idx.entries }

/-- Distance first, then the address. -/
def order (x : A × Nat) : Nat ×ₗ A := toLex (x.2, x.1)

def find_similar (idx : C2Index A) (q : Sig) (k : Nat) : List (A × Nat) :=
  (StableSort.sortBy order (idx.entries.map fun e => (e.1, hamming q e.2))).take k

/-- The index after a sequence of insertions. -/
def build (ops : List (A × Sig)) : C2Index A :=
  ops.foldl (fun idx op => idx.insert op.1 op.2) new

end C2Index

/-- The signature an address was last inserted with. -/
def latest (ops : List (A × Sig)) (addr : A) : Option Sig :=
  (ops.reverse.find? fun op => op.1 = addr).map Prod.snd

/-- An address at its distance from the query. -/
def Indexed (ops : List (A × Sig)) (q : Sig) (x : A × Nat) : Prop :=
  ∃ s, latest ops x.1 = some s ∧ x.2 = hamming q s

theorem latest_snoc (ops : List (A × Sig)) (op : A × Sig) (addr : A) :
    latest (ops ++ [op]) addr = if op.1 = addr then some op.2 else latest ops addr := by
  unfold latest
  rw [List.reverse_append, List.reverse_singleton, List.singleton_append, List.find?_cons]
  by_cases heq : op.1 = addr
  · simp [heq]
  · simp [heq]

namespace C2Index

theorem mem_insertEntry {addr : A} {sig : Sig} {es : List (A × Sig)}
    (hnodup : (es.map Prod.fst).Nodup) (e : A × Sig) :
    e ∈ insertEntry addr sig es ↔ e = (addr, sig) ∨ e.1 ≠ addr ∧ e ∈ es := by
  induction es with
  | nil => simp [insertEntry]
  | cons x es ih =>
      rw [List.map_cons, List.nodup_cons] at hnodup
      rw [insertEntry]
      split
      case isTrue heq =>
          have hold : ∀ e ∈ es, e.1 ≠ addr := fun e he hsame =>
            hnodup.1 (by rw [heq, ← hsame]; exact List.mem_map_of_mem he)
          rw [List.mem_cons, List.mem_cons]
          constructor
          · rintro (rfl | he)
            · exact .inl rfl
            · exact .inr ⟨hold e he, .inr he⟩
          · rintro (rfl | ⟨hne, rfl | he⟩)
            · exact .inl rfl
            · exact absurd heq hne
            · exact .inr he
      case isFalse hne =>
          rw [List.mem_cons, ih hnodup.2, List.mem_cons]
          constructor
          · rintro (rfl | rfl | ⟨hne', he⟩)
            · exact .inr ⟨hne, .inl rfl⟩
            · exact .inl rfl
            · exact .inr ⟨hne', .inr he⟩
          · rintro (rfl | ⟨hne', rfl | he⟩)
            · exact .inr (.inl rfl)
            · exact .inl rfl
            · exact .inr (.inr ⟨hne', he⟩)

theorem insertEntry_nodup {addr : A} {sig : Sig} {es : List (A × Sig)}
    (hnodup : (es.map Prod.fst).Nodup) : ((insertEntry addr sig es).map Prod.fst).Nodup := by
  induction es with
  | nil => exact List.nodup_singleton addr
  | cons x es ih =>
      have hcons := hnodup
      rw [List.map_cons, List.nodup_cons] at hnodup
      rw [insertEntry]
      split
      case isTrue heq =>
          rw [List.map_cons, heq] at hcons
          exact hcons
      case isFalse hne =>
          rw [List.map_cons, List.nodup_cons]
          refine ⟨fun hmem => ?_, ih hnodup.2⟩
          obtain ⟨e, he, hsame⟩ := List.mem_map.mp hmem
          rcases (mem_insertEntry hnodup.2 e).mp he with rfl | ⟨-, hold⟩
          · exact hne hsame.symm
          · exact hnodup.1 (by rw [← hsame]; exact List.mem_map_of_mem hold)

/-- The index holds each address once, with its last signature. -/
structure Holds (idx : C2Index A) (ops : List (A × Sig)) : Prop where
  once : (idx.entries.map Prod.fst).Nodup
  last : ∀ e, e ∈ idx.entries ↔ latest ops e.1 = some e.2

theorem Holds.insert {idx : C2Index A} {ops : List (A × Sig)} (h : idx.Holds ops)
    (op : A × Sig) : (idx.insert op.1 op.2).Holds (ops ++ [op]) where
  once := insertEntry_nodup h.once
  last := by
    intro e
    rw [latest_snoc, C2Index.insert, mem_insertEntry h.once, h.last]
    split
    case isTrue heq =>
        rw [Option.some.injEq]
        constructor
        · rintro (rfl | ⟨hne, -⟩)
          · rfl
          · exact absurd heq.symm hne
        · intro hsig
          exact .inl (Prod.ext heq.symm hsig.symm)
    case isFalse hne =>
        constructor
        · rintro (rfl | ⟨-, hold⟩)
          · exact absurd rfl hne
          · exact hold
        · intro hold
          exact .inr ⟨fun heq => hne heq.symm, hold⟩

theorem build_holds (ops : List (A × Sig)) : (build ops).Holds ops := by
  induction ops using List.reverseRecOn with
  | nil => exact ⟨List.nodup_nil, by simp [build, new, latest]⟩
  | append_singleton ops op ih =>
      rw [build, List.foldl_append]
      exact ih.insert op

theorem Holds.find_similar {idx : C2Index A} {ops : List (A × Sig)} (h : idx.Holds ops)
    (q : Sig) (k : Nat) : Least order (Indexed ops q) k (idx.find_similar q k) := by
  have hkey : (idx.entries.map fun e => (e.1, hamming q e.2)).Pairwise
      fun x y => order x ≠ order y := by
    apply List.pairwise_map.mpr
    refine (List.pairwise_map.mp h.once).imp fun hne heq => hne ?_
    exact congrArg (fun x => (ofLex x).2) heq
  apply (take_sortBy_least hkey k).congr
  intro x
  rw [List.mem_map]
  constructor
  · rintro ⟨s, hs, hdist⟩
    exact ⟨(x.1, s), (h.last _).mpr hs, Prod.ext rfl hdist.symm⟩
  · rintro ⟨e, he, rfl⟩
    exact ⟨e.2, (h.last e).mp he, rfl⟩

/-- A search finds the `k` least entries by distance and address, and two sequences of
insertions that leave the same signatures are searched alike. -/
theorem find_similar_least (ops : List (A × Sig)) (q : Sig) (k : Nat) :
    Least order (Indexed ops q) k ((build ops).find_similar q k) ∧
      ∀ ops', (∀ addr, latest ops' addr = latest ops addr) →
        (build ops').find_similar q k = (build ops).find_similar q k := by
  have hleast := (build_holds ops).find_similar q k
  refine ⟨hleast, fun ops' hsame => Least.unique ?_ hleast⟩
  apply ((build_holds ops').find_similar q k).congr
  intro x
  unfold Indexed
  rw [hsame]

end C2Index

def toLeBytes (w : UInt64) : List UInt8 :=
  (List.range 8).map fun k => UInt8.ofNat (w.toNat / 256 ^ k)

def leValue : List UInt8 → Nat
  | [] => 0
  | x :: l => x.toNat + 256 * leValue l

def fromLeBytes (b : List UInt8) : UInt64 := UInt64.ofNat (leValue b)

/-- The `[u8; 32]` of `sig_to_hex`. -/
def sigBytes (s : Sig) : List UInt8 := (List.finRange 4).flatMap fun i => toLeBytes (s i)

def ofSigBytes (b : List UInt8) : Sig := fun i => fromLeBytes ((b.drop (8 * i.val)).take 8)

def sig_to_hex (s : Sig) : List Char := hexEncode (sigBytes s)

def sig_from_hex (h : List Char) : Option Sig := do
  let b ← hexDecode (trim h)
  if b.length ≠ 32 then none else some (ofSigBytes b)

/-! ## The daemon -/

/-- `{:016x}` -/
def lowerHex16 (w : UInt64) : List Char :=
  (List.range 16).reverse.map fun k => hexDigit (w.toNat / 16 ^ k % 16)

/-- `sig_hex`, the text of `sig_bits`: the last word comes first. -/
def sig_hex (s : Sig) : List Char := (List.finRange 4).reverse.flatMap fun i => lowerHex16 (s i)

/-- `words[bit / 64] |= 1u64 << (bit % 64)`; all bits are below 256. -/
def setSigBit (words : Sig) (bit : Nat) : Sig :=
  Function.update words (Fin.ofNat 4 (bit / 64))
    (words (Fin.ofNat 4 (bit / 64)) ||| 1 <<< UInt64.ofNat (bit % 64))

def setNibble (bit_lo nib : Nat) (words : Sig) : Sig :=
  (List.range 4).foldl
    (fun words k => if nib.testBit k then setSigBit words (bit_lo + k) else words)
    words

/-- `(c as char).to_digit(16)` of the byte at `ci`, and its bits. -/
def parseDigit (words : Sig) (c : UInt8 × Nat) : Option Sig :=
  (hexVal (Char.ofNat c.1.toNat)).map fun nib => setNibble ((64 - 1 - c.2) * 4) nib words

def parse_sig_hex (hex : List Char) : Option Sig :=
  if byteLen hex ≠ 64 then none else (encode hex).zipIdx.foldlM parseDigit fun _ => 0

/-- `recall::agree` -/
def recallAgree (a b : Sig) : Nat :=
  256 - ((List.finRange 4).map fun w => (bits (a w ^^^ b w)).length).sum

/-! ## Bits and bytes of a signature -/

/-- Bit `b` of the 256. -/
def bitAt (s : Sig) (b : Nat) : Bool := (s (Fin.ofNat 4 (b / 64))).toNat.testBit (b % 64)

theorem sig_ext {s t : Sig} (h : ∀ b < 256, bitAt s b = bitAt t b) : s = t := by
  funext i
  apply UInt64.toNat_inj.mp
  apply Nat.eq_of_testBit_eq
  intro j
  rcases Nat.lt_or_ge j 64 with hj | hj
  · have hi := i.isLt
    have hword : (64 * i.val + j) / 64 = i.val := by omega
    have hbit : (64 * i.val + j) % 64 = j := by omega
    have hfin : Fin.ofNat 4 i.val = i := Fin.ext (Nat.mod_eq_of_lt hi)
    have heq := h (64 * i.val + j) (by omega)
    rw [bitAt, bitAt, hword, hbit, hfin] at heq
    exact heq
  · have hbound : ∀ w : UInt64, w.toNat.testBit j = false := fun w =>
      Nat.testBit_lt_two_pow (w.toNat_lt.trans_le (Nat.pow_le_pow_right (by decide) hj))
    rw [hbound, hbound]

theorem leValue_testBit (l : List UInt8) (j : Nat) :
    (leValue l).testBit j = (l.getD (j / 8) 0).toNat.testBit (j % 8) := by
  induction l generalizing j with
  | nil => simp [leValue]
  | cons x l ih =>
      have hx : x.toNat < 2 ^ 8 := x.toNat_lt
      have hcons : leValue (x :: l) = 2 ^ 8 * leValue l + x.toNat := by
        rw [leValue]
        omega
      rw [hcons, Nat.testBit_two_pow_mul_add _ hx]
      split
      case isTrue hj =>
          have hq : j / 8 = 0 := by omega
          have hr : j % 8 = j := by omega
          rw [hq, hr, List.getD_cons_zero]
      case isFalse hj =>
          have hq : j / 8 = (j - 8) / 8 + 1 := by omega
          have hr : j % 8 = (j - 8) % 8 := by omega
          rw [ih, hq, hr, List.getD_cons_succ]

theorem bitAt_ofSigBytes (l : List UInt8) {b : Nat} (hb : b < 256) :
    bitAt (ofSigBytes l) b = (l.getD (b / 8) 0).toNat.testBit (b % 8) := by
  have hword : (Fin.ofNat 4 (b / 64)).val = b / 64 := Nat.mod_eq_of_lt (by omega)
  have hbit : b % 64 < 64 := by omega
  have hbyte : b % 64 / 8 < 8 := by omega
  have hplace : 8 * (b / 64) + b % 64 / 8 = b / 8 := by omega
  have hrest : b % 64 % 8 = b % 8 := by omega
  rw [bitAt, ofSigBytes, fromLeBytes, UInt64.toNat_ofNat', Nat.testBit_mod_two_pow, hword,
    leValue_testBit, hrest, List.getD_eq_getElem?_getD, List.getElem?_take_of_lt hbyte,
    List.getElem?_drop, hplace, ← List.getD_eq_getElem?_getD]
  simp [hbit]

theorem sigBytes_eq (s : Sig) : sigBytes s = (List.range 32).map fun m =>
    UInt8.ofNat ((s (Fin.ofNat 4 (m / 8))).toNat / 256 ^ (m % 8)) := rfl

theorem sigBytes_testBit (s : Sig) {m j : Nat} (hm : m < 32) (hj : j < 8) :
    ((sigBytes s).getD m 0).toNat.testBit j = bitAt s (8 * m + j) := by
  have hword : (8 * m + j) / 64 = m / 8 := by omega
  have hbit : (8 * m + j) % 64 = 8 * (m % 8) + j := by omega
  have hpow : 256 ^ (m % 8) = 2 ^ (8 * (m % 8)) := (pow_mul 2 8 (m % 8)).symm
  rw [sigBytes_eq, List.getD_eq_getElem?_getD, List.getElem?_map, List.getElem?_range hm,
    Option.map_some, Option.getD_some, UInt8.toNat_ofNat', Nat.testBit_mod_two_pow, hpow,
    Nat.testBit_div_two_pow, bitAt, hword, hbit]
  simp [hj, Nat.add_comm]

theorem sigBytes_length (s : Sig) : (sigBytes s).length = 32 := rfl

theorem ofSigBytes_sigBytes (s : Sig) : ofSigBytes (sigBytes s) = s := by
  apply sig_ext
  intro b hb
  have hsplit : 8 * (b / 8) + b % 8 = b := by omega
  rw [bitAt_ofSigBytes _ hb, sigBytes_testBit s (by omega) (by omega), hsplit]

theorem sigBytes_ofSigBytes {l : List UInt8} (hl : l.length = 32) :
    sigBytes (ofSigBytes l) = l := by
  apply List.ext_getElem (by rw [sigBytes_length, hl])
  intro m hm hm'
  rw [sigBytes_length] at hm
  apply UInt8.toNat_inj.mp
  apply Nat.eq_of_testBit_eq
  intro j
  rcases Nat.lt_or_ge j 8 with hj | hj
  · have hbyte : (8 * m + j) / 8 = m := by omega
    have hbit : (8 * m + j) % 8 = j := by omega
    have heq := sigBytes_testBit (ofSigBytes l) hm hj
    rw [bitAt_ofSigBytes l (by omega), hbyte, hbit, List.getD_eq_getElem?_getD,
      List.getElem?_eq_getElem (by rw [sigBytes_length]; exact hm), List.getD_eq_getElem?_getD,
      List.getElem?_eq_getElem hm'] at heq
    exact heq
  · have hbound : ∀ x : UInt8, x.toNat.testBit j = false := fun x =>
      Nat.testBit_lt_two_pow (x.toNat_lt.trans_le (Nat.pow_le_pow_right (by decide) hj))
    rw [hbound, hbound]

/-! ## The two writers -/

theorem hexDigit_byte (n k : Nat) :
    [hexDigit (n / 16 ^ (2 * k + 1) % 16), hexDigit (n / 16 ^ (2 * k) % 16)] =
      hexEncode [UInt8.ofNat (n / 256 ^ k)] := by
  have hpow : 256 ^ k = 16 ^ (2 * k) := (pow_mul 16 2 k).symm
  have hnext : n / 16 ^ (2 * k + 1) = n / 16 ^ (2 * k) / 16 := by
    rw [pow_succ, Nat.div_div_eq_div_mul]
  have hhigh : n / 16 ^ (2 * k) % 2 ^ 8 / 16 = n / 16 ^ (2 * k) / 16 % 16 := by omega
  have hlow : n / 16 ^ (2 * k) % 2 ^ 8 % 16 = n / 16 ^ (2 * k) % 16 := by omega
  simp only [hexEncode, List.flatMap_singleton, UInt8.toNat_ofNat', hpow, hnext, hhigh, hlow]

theorem hexEncode_flatMap {α : Type} (l : List α) (f : α → List UInt8) :
    hexEncode (l.flatMap f) = l.flatMap fun x => hexEncode (f x) := List.flatMap_assoc

theorem lowerHex16_eq (w : UInt64) : lowerHex16 w = hexEncode (toLeBytes w).reverse := by
  have hpairs : lowerHex16 w = (List.range 8).reverse.flatMap fun k =>
      [hexDigit (w.toNat / 16 ^ (2 * k + 1) % 16), hexDigit (w.toNat / 16 ^ (2 * k) % 16)] := rfl
  have hbytes : (toLeBytes w).reverse =
      (List.range 8).reverse.flatMap fun k => [UInt8.ofNat (w.toNat / 256 ^ k)] := rfl
  rw [hpairs, hbytes, hexEncode_flatMap]
  simp only [hexDigit_byte]

/-- The daemon writes the bytes from the last to the first. -/
theorem sig_hex_eq (s : Sig) : sig_hex s = hexEncode (sigBytes s).reverse := by
  rw [sigBytes, List.reverse_flatMap, hexEncode_flatMap, sig_hex]
  simp only [lowerHex16_eq, Function.comp_apply]

/-! ## The two readers -/

theorem hexVal_hexDigit {d : Nat} (hd : d < 16) : hexVal (hexDigit d) = some d := by
  have hall : ∀ d < 16, hexVal (hexDigit d) = some d := by decide
  exact hall d hd

theorem hexDecode_hexEncode (l : List UInt8) : hexDecode (hexEncode l) = some l := by
  induction l with
  | nil => rfl
  | cons x l ih =>
      have hx := x.toNat_lt
      have hbyte : UInt8.ofNat (16 * (x.toNat / 16) + x.toNat % 16) = x := by
        rw [Nat.div_add_mod, UInt8.ofNat_toNat]
      have hcons : hexEncode (x :: l) =
          hexDigit (x.toNat / 16) :: hexDigit (x.toNat % 16) :: hexEncode l := rfl
      rw [hcons, hexDecode, hexVal_hexDigit (by omega), hexVal_hexDigit (by omega), ih]
      simp only [hbyte]

theorem mem_hexEncode {l : List UInt8} {c : Char} (hc : c ∈ hexEncode l) :
    ∃ d < 16, c = hexDigit d := by
  obtain ⟨x, -, hx⟩ := List.mem_flatMap.mp hc
  have hbound := x.toNat_lt
  rcases List.mem_cons.mp hx with rfl | hx
  · exact ⟨_, by omega, rfl⟩
  · exact ⟨_, by omega, List.mem_singleton.mp hx⟩

theorem trim_hexEncode (l : List UInt8) : trim (hexEncode l) = hexEncode l := by
  have hdigit : ∀ d < 16, isWhitespace (hexDigit d) = false := by decide
  apply Recall.trim_plain
  intro c hc
  obtain ⟨d, hd, rfl⟩ := mem_hexEncode hc
  exact hdigit d hd

theorem sig_from_hex_hexEncode {l : List UInt8} (hl : l.length = 32) :
    sig_from_hex (hexEncode l) = some (ofSigBytes l) := by
  rw [sig_from_hex, trim_hexEncode, hexDecode_hexEncode, Option.bind_eq_bind, Option.bind_some,
    if_neg (by omega)]

theorem fin_word_eq {b bit : Nat} (hb : b < 256) (hbit : bit < 256) :
    Fin.ofNat 4 (b / 64) = Fin.ofNat 4 (bit / 64) ↔ b / 64 = bit / 64 := by
  have hword : (Fin.ofNat 4 (b / 64)).val = b / 64 := Nat.mod_eq_of_lt (by omega)
  have hword' : (Fin.ofNat 4 (bit / 64)).val = bit / 64 := Nat.mod_eq_of_lt (by omega)
  rw [Fin.ext_iff, hword, hword']

theorem setSigBit_bitAt (words : Sig) {bit b : Nat} (hbit : bit < 256) (hb : b < 256) :
    bitAt (setSigBit words bit) b = (bitAt words b || decide (bit = b)) := by
  unfold bitAt setSigBit
  rcases eq_or_ne (b / 64) (bit / 64) with heq | hne
  · rw [(fin_word_eq hb hbit).mpr heq, Function.update_self, setBit_testBit (by omega)]
    congr 1
    apply decide_eq_decide.mpr
    omega
  · rw [Function.update_of_ne (mt (fin_word_eq hb hbit).mp hne)]
    have hother : ¬ bit = b := fun h => hne (by rw [h])
    simp [hother]

theorem setBits_fold (words : Sig) (bit_lo nib : Nat) {ks : List Nat}
    (hks : ∀ k ∈ ks, bit_lo + k < 256) {b : Nat} (hb : b < 256) :
    bitAt (ks.foldl (fun words k => if nib.testBit k then setSigBit words (bit_lo + k) else words)
      words) b = (bitAt words b || ks.any fun k => nib.testBit k && decide (bit_lo + k = b)) := by
  induction ks generalizing words with
  | nil => simp
  | cons k ks ih =>
      rw [List.foldl_cons, ih _ fun k hk => hks k (List.mem_cons_of_mem _ hk), List.any_cons,
        ← Bool.or_assoc]
      congr 1
      split
      case isTrue hset =>
          rw [setSigBit_bitAt words (hks k List.mem_cons_self) hb, hset, Bool.true_and]
      case isFalse hclear => simp [hclear]

/-- A digit sets the four bits of its place. -/
theorem setNibble_bitAt (words : Sig) (nib : Nat) {j b : Nat} (hj : j < 64) (hb : b < 256) :
    bitAt (setNibble (j * 4) nib words) b =
      (bitAt words b || (decide (b / 4 = j) && nib.testBit (b % 4))) := by
  rw [setNibble, setBits_fold words (j * 4) nib (fun k hk => by
    have := List.mem_range.mp hk
    omega) hb]
  congr 1
  rw [Bool.eq_iff_iff, List.any_eq_true, Bool.and_eq_true, decide_eq_true_iff]
  constructor
  · rintro ⟨k, hk, hset⟩
    rw [Bool.and_eq_true, decide_eq_true_iff] at hset
    have hk4 := List.mem_range.mp hk
    have hrest : b % 4 = k := by omega
    exact ⟨by omega, by rw [hrest]; exact hset.1⟩
  · rintro ⟨hplace, hset⟩
    refine ⟨b % 4, List.mem_range.mpr (by omega), ?_⟩
    rw [hset, Bool.true_and, decide_eq_true_iff]
    omega

/-- The byte of a digit's character. -/
def digitByte (d : Nat) : UInt8 := UInt8.ofNat (hexDigit d).toNat

theorem encode_digits {ds : List Nat} (hds : ∀ d ∈ ds, d < 16) :
    encode (ds.map hexDigit) = ds.map digitByte := by
  have hall : ∀ d < 16, String.utf8EncodeChar (hexDigit d) = [digitByte d] := by decide
  induction ds with
  | nil => rfl
  | cons d ds ih =>
      have hrest := ih fun d hd => hds d (List.mem_cons_of_mem _ hd)
      rw [encode] at hrest ⊢
      rw [List.map_cons, List.flatMap_cons, hall d (hds d List.mem_cons_self), hrest]
      rfl

theorem byteLen_digits {ds : List Nat} (hds : ∀ d ∈ ds, d < 16) :
    byteLen (ds.map hexDigit) = ds.length := by
  have hall : ∀ d < 16, (hexDigit d).utf8Size = 1 := by decide
  induction ds with
  | nil => rfl
  | cons d ds ih =>
      have hrest := ih fun d hd => hds d (List.mem_cons_of_mem _ hd)
      rw [byteLen] at hrest ⊢
      rw [List.map_cons, List.map_cons, List.sum_cons, hall d (hds d List.mem_cons_self), hrest,
        List.length_cons, Nat.add_comm]

theorem parseDigit_eq (words : Sig) {d : Nat} (hd : d < 16) (n : Nat) :
    parseDigit words (digitByte d, n) = some (setNibble ((64 - 1 - n) * 4) d words) := by
  have hall : ∀ d < 16, hexVal (Char.ofNat (digitByte d).toNat) = some d := by decide
  rw [parseDigit, hall d hd]
  rfl

/-- Every bit is set by the digit that stands for it, and by no other. -/
theorem parseDigits_bitAt {ds : List Nat} (hds : ∀ d ∈ ds, d < 16) (words : Sig) (n : Nat)
    (hn : n + ds.length ≤ 64) :
    ∃ words', ((ds.map digitByte).zipIdx n).foldlM parseDigit words = some words' ∧
      ∀ b < 256, bitAt words' b = (bitAt words b ||
        (ds.zipIdx n).any fun p => decide (b / 4 = 63 - p.2) && p.1.testBit (b % 4)) := by
  induction ds generalizing words n with
  | nil => exact ⟨words, rfl, by simp⟩
  | cons d ds ih =>
      rw [List.length_cons] at hn
      obtain ⟨words', hrun, hbits⟩ := ih (fun d hd => hds d (List.mem_cons_of_mem _ hd))
        (setNibble ((64 - 1 - n) * 4) d words) (n + 1) (by omega)
      refine ⟨words', ?_, fun b hb => ?_⟩
      · rw [List.map_cons, List.zipIdx_cons, List.foldlM_cons,
          parseDigit_eq words (hds d List.mem_cons_self)]
        exact hrun
      · rw [hbits b hb, setNibble_bitAt words d (by omega) hb, List.zipIdx_cons, List.any_cons,
          Bool.or_assoc]

def digitsOf (l : List UInt8) : List Nat := l.flatMap fun x => [x.toNat / 16, x.toNat % 16]

theorem hexEncode_digits (l : List UInt8) : hexEncode l = (digitsOf l).map hexDigit := by
  rw [digitsOf, List.map_flatMap]
  rfl

theorem digitsOf_lt {l : List UInt8} {d : Nat} (hd : d ∈ digitsOf l) : d < 16 := by
  obtain ⟨x, -, hx⟩ := List.mem_flatMap.mp hd
  have hbound := x.toNat_lt
  rcases List.mem_cons.mp hx with rfl | hx
  · omega
  · have heq := List.mem_singleton.mp hx
    omega

theorem digitsOf_length (l : List UInt8) : (digitsOf l).length = 2 * l.length := by
  induction l with
  | nil => rfl
  | cons x l ih =>
      have hcons : digitsOf (x :: l) = x.toNat / 16 :: x.toNat % 16 :: digitsOf l := rfl
      rw [hcons, List.length_cons, List.length_cons, ih, List.length_cons]
      omega

/-- The high digit of a byte comes first. -/
theorem digitsOf_getElem? (l : List UInt8) (i : Nat) :
    (digitsOf l)[2 * i]? = l[i]?.map (fun x => x.toNat / 16) ∧
      (digitsOf l)[2 * i + 1]? = l[i]?.map (fun x => x.toNat % 16) := by
  induction l generalizing i with
  | nil => simp [digitsOf]
  | cons x l ih =>
      have hcons : digitsOf (x :: l) = x.toNat / 16 :: x.toNat % 16 :: digitsOf l := rfl
      rw [hcons]
      cases i with
      | zero => simp
      | succ i =>
          have hplace : 2 * (i + 1) = 2 * i + 1 + 1 := by omega
          rw [hplace]
          simpa using ih i

/-- One digit stands at a place. -/
theorem any_place {ds : List Nat} (hlength : ds.length = 64) (p : Nat → Bool) {j d : Nat}
    (hj : j < 64) (hd : ds[63 - j]? = some d) :
    (ds.zipIdx.any fun q => decide (j = 63 - q.2) && p q.1) = p d := by
  rw [Bool.eq_iff_iff, List.any_eq_true]
  constructor
  · rintro ⟨⟨d', i⟩, hmem, hset⟩
    rw [Bool.and_eq_true, decide_eq_true_iff] at hset
    have hat := List.mem_zipIdx_iff_getElem?.mp hmem
    obtain ⟨hi, -⟩ := List.getElem?_eq_some_iff.mp hat
    have hplace : 63 - j = i := by omega
    rw [hplace, hat] at hd
    cases hd
    exact hset.2
  · intro hset
    refine ⟨(d, 63 - j), List.mem_zipIdx_iff_getElem?.mpr hd, ?_⟩
    rw [Bool.and_eq_true, decide_eq_true_iff]
    exact ⟨by omega, hset⟩

/-- The digits of a byte hold its bits, four and four. -/
theorem digit_testBit (x : UInt8) {k : Nat} (hk : k < 4) :
    (x.toNat % 16).testBit k = x.toNat.testBit k ∧
      (x.toNat / 16).testBit k = x.toNat.testBit (4 + k) := by
  have hlow : (x.toNat % 2 ^ 4).testBit k = _ := Nat.testBit_mod_two_pow x.toNat 4 k
  have hhigh : (x.toNat / 2 ^ 4).testBit k = _ := Nat.testBit_div_two_pow x.toNat k
  rw [Nat.add_comm] at hhigh
  simpa [hk] using And.intro hlow hhigh

theorem parse_sig_hex_hexEncode {l : List UInt8} (hl : l.length = 32) :
    parse_sig_hex (hexEncode l) = some (ofSigBytes l.reverse) := by
  have hds : ∀ d ∈ digitsOf l, d < 16 := fun d hd => digitsOf_lt hd
  have hlength : (digitsOf l).length = 64 := by rw [digitsOf_length, hl]
  obtain ⟨s, hrun, hbits⟩ := parseDigits_bitAt hds (fun _ => 0) 0 (by omega)
  rw [hexEncode_digits, parse_sig_hex, if_neg (by rw [byteLen_digits hds]; omega),
    encode_digits hds, hrun]
  congr 1
  apply sig_ext
  intro b hb
  have hbyte : b / 8 < l.length := by omega
  have hplace : l.length - 1 - b / 8 = 31 - b / 8 := by omega
  have hin : 31 - b / 8 < l.length := by omega
  have hempty : bitAt (fun _ => 0) b = false := by simp [bitAt]
  have hat : l[31 - b / 8]? = some l[31 - b / 8] := List.getElem?_eq_getElem hin
  obtain ⟨hhigh, hlow⟩ := digitsOf_getElem? l (31 - b / 8)
  rw [hat, Option.map_some] at hhigh hlow
  rw [hbits b hb, hempty, Bool.false_or, bitAt_ofSigBytes _ hb, List.getD_eq_getElem?_getD,
    List.getElem?_reverse hbyte, hplace, hat, Option.getD_some]
  rcases Nat.mod_two_eq_zero_or_one (b / 4) with hpar | hpar
  · -- the low digit of its byte
    have hdigit : 2 * (31 - b / 8) + 1 = 63 - b / 4 := by omega
    have hbit : b % 8 = b % 4 := by omega
    rw [hdigit] at hlow
    rw [any_place hlength (fun d => d.testBit (b % 4)) (by omega) hlow, hbit]
    exact (digit_testBit _ (by omega)).1
  · have hdigit : 2 * (31 - b / 8) = 63 - b / 4 := by omega
    have hbit : b % 8 = 4 + b % 4 := by omega
    rw [hdigit] at hhigh
    rw [any_place hlength (fun d => d.testBit (b % 4)) (by omega) hhigh, hbit]
    exact (digit_testBit _ (by omega)).2

/-- The signature a text stands for on the other side: its bytes in the opposite order. -/
def crossed (s : Sig) : Sig := ofSigBytes (sigBytes s).reverse

theorem parse_sig_to_hex (s : Sig) : parse_sig_hex (sig_to_hex s) = some (crossed s) :=
  parse_sig_hex_hexEncode (sigBytes_length s)

theorem sig_from_sig_hex (s : Sig) : sig_from_hex (sig_hex s) = some (crossed s) := by
  rw [sig_hex_eq]
  exact sig_from_hex_hexEncode (by rw [List.length_reverse, sigBytes_length])

theorem crossed_eq_iff (s : Sig) : crossed s = s ↔ (sigBytes s).reverse = sigBytes s := by
  constructor
  · intro h
    have hbytes := congrArg sigBytes h
    rwa [crossed, sigBytes_ofSigBytes (by rw [List.length_reverse, sigBytes_length])] at hbytes
  · intro h
    rw [crossed, h, ofSigBytes_sigBytes]

/-- Either side reads what the other one wrote, at the distances the writer sees. -/
structure Interoperates (s : Sig) : Prop where
  read : parse_sig_hex (sig_to_hex s) = some s
  written : sig_from_hex (sig_hex s) = some s
  distances : ∀ q, (sig_from_hex (sig_hex s)).map (agree q) = some (recallAgree q s)

theorem interoperates_iff (s : Sig) : Interoperates s ↔ (sigBytes s).reverse = sigBytes s := by
  rw [← crossed_eq_iff]
  constructor
  · intro h
    have hread := h.read
    rw [parse_sig_to_hex, Option.some.injEq] at hread
    exact hread
  · intro h
    refine ⟨by rw [parse_sig_to_hex, h], by rw [sig_from_sig_hex, h], fun q => ?_⟩
    rw [sig_from_sig_hex, h]
    rfl

theorem sig_one_crosses : parse_sig_hex (sig_to_hex ![1, 0, 0, 0]) ≠ some ![1, 0, 0, 0] := by
  intro h
  rw [parse_sig_to_hex, Option.some.injEq, crossed_eq_iff] at h
  exact absurd h (by decide)

/-! ## Distances between signatures that crossed -/

/-- The distance counts the bits that differ. -/
theorem hamming_eq_count (s t : Sig) :
    hamming s t = (List.range 256).countP fun b => bitAt s b ^^ bitAt t b := by
  have hrange : List.range 256 =
      (List.finRange 4).flatMap fun i => (List.range 64).map fun j => 64 * i.val + j := by
    decide +kernel
  have hword : ∀ (i : Fin 4) (j : Nat), j < 64 → ∀ u : Sig,
      bitAt u (64 * i.val + j) = (u i).toNat.testBit j := fun i j hj u => by
    have hi := i.isLt
    have hplace : (64 * i.val + j) / 64 = i.val := by omega
    have hbit : (64 * i.val + j) % 64 = j := by omega
    have hfin : Fin.ofNat 4 i.val = i := Fin.ext (Nat.mod_eq_of_lt hi)
    rw [bitAt, hplace, hbit, hfin]
  rw [hrange, List.countP_flatMap, hamming]
  congr 1
  apply List.map_congr_left
  intro i _
  rw [Function.comp_apply, List.countP_map, bits, ← List.countP_eq_length_filter]
  apply List.countP_congr
  intro j hj
  have hj64 := List.mem_range.mp hj
  rw [Function.comp_apply, hword i j hj64, hword i j hj64, UInt64.toNat_xor, Nat.testBit_xor]

theorem crossed_bitAt (s : Sig) {b : Nat} (hb : b < 256) :
    bitAt (crossed s) b = bitAt s (8 * (31 - b / 8) + b % 8) := by
  have hlength := sigBytes_length s
  have hbyte : b / 8 < (sigBytes s).length := by omega
  have hplace : (sigBytes s).length - 1 - b / 8 = 31 - b / 8 := by omega
  rw [crossed, bitAt_ofSigBytes _ hb, List.getD_eq_getElem?_getD, List.getElem?_reverse hbyte,
    hplace, ← List.getD_eq_getElem?_getD, sigBytes_testBit s (by omega) (by omega)]

theorem crossed_places :
    ((List.range 256).map fun b => 8 * (31 - b / 8) + b % 8).Perm (List.range 256) := by
  apply (List.perm_ext_iff_of_nodup _ List.nodup_range).mpr
  · intro b
    rw [List.mem_map, List.mem_range]
    constructor
    · rintro ⟨c, hc, rfl⟩
      have hc256 := List.mem_range.mp hc
      omega
    · intro hb
      exact ⟨8 * (31 - b / 8) + b % 8, List.mem_range.mpr (by omega), by omega⟩
  · apply List.Nodup.map_on _ List.nodup_range
    intro b hb c hc heq
    have hb256 := List.mem_range.mp hb
    have hc256 := List.mem_range.mp hc
    omega

/-- Two signatures that both crossed are as far apart as before. -/
theorem hamming_crossed (s t : Sig) : hamming (crossed s) (crossed t) = hamming s t := by
  have hcount := crossed_places.countP_eq fun b => bitAt s b ^^ bitAt t b
  rw [hamming_eq_count, hamming_eq_count s t, ← hcount, List.countP_map]
  apply List.countP_congr
  intro b hb
  have hb256 := List.mem_range.mp hb
  rw [Function.comp_apply, crossed_bitAt s hb256, crossed_bitAt t hb256]

end ShannonPrime.Swarm
