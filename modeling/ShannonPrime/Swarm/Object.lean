import Mathlib.Logic.Function.Basic
import ShannonPrime.Lib.Utf8
import ShannonPrime.Recall.Text

/-!
The objects of the swarm: a text with a frontmatter, the address it is stored under, and
what a node checks of both when an object arrives. The hash and the check of a signature
are parameters.
-/

namespace ShannonPrime.Swarm

open Utf8
open Recall (trim isWhitespace)

/-- `replace("\r\n", "\n")`. -/
def crlfToLf : List Char → List Char
  | '\r' :: '\n' :: rest => '\n' :: crlfToLf rest
  | c :: rest => c :: crlfToLf rest
  | [] => []

def norm (body : List Char) : List Char := trim (crlfToLf body) ++ ['\n']

/-! ## Hexadecimal -/

def hexDigit (n : Nat) : Char := Char.ofNat (if n < 10 then 0x30 + n else 0x57 + n)

def hexEncode (bytes : List UInt8) : List Char :=
  bytes.flatMap fun b => [hexDigit (b.toNat / 16), hexDigit (b.toNat % 16)]

def hexVal (c : Char) : Option Nat :=
  if 0x30 ≤ c.toNat && c.toNat ≤ 0x39 then some (c.toNat - 0x30)
  else if 0x61 ≤ c.toNat && c.toNat ≤ 0x66 then some (c.toNat - 0x57)
  else if 0x41 ≤ c.toNat && c.toNat ≤ 0x46 then some (c.toNat - 0x37)
  else none

/-- `hex::decode`. -/
def hexDecode : List Char → Option (List UInt8)
  | [] => some []
  | [_] => none
  | a :: b :: rest =>
      match hexVal a, hexVal b, hexDecode rest with
      | some hi, some lo, some bytes => some (UInt8.ofNat (16 * hi + lo) :: bytes)
      | _, _, _ => none

/-! ## Addresses -/

section Address

variable (sha256 : List UInt8 → List UInt8)

def addrOf (body : List Char) : List Char := (hexEncode (sha256 (encode (norm body)))).take 16

def signingPayload (addr body : List Char) : List UInt8 :=
  encode (addr ++ ['\n']) ++ encode (norm body)

/-- `BTreeMap<String, String>`. -/
abbrev Frontmatter := List Char → Option (List Char)

def stripPrefix (pat s : List Char) : Option (List Char) :=
  if pat.isPrefixOf s then some (s.drop pat.length) else none

/-- `str::find`, in characters. -/
def findStr (pat s : List Char) : Option Nat := s.tails.findIdx? fun t => pat.isPrefixOf t

/-- One line of a frontmatter; one without a colon says nothing. -/
def insertLine (fm : Frontmatter) (line : List Char) : Frontmatter :=
  match line.idxOf? ':' with
  | some i => Function.update fm (trim (line.take i)) (some (trim (line.drop (i + 1))))
  | none => fm

def frontmatter (lines : List (List Char)) : Frontmatter := lines.foldl insertLine fun _ => none

def fence : List Char := ['-', '-', '-']

def parseFm (text : List Char) : Frontmatter × List Char :=
  match stripPrefix (fence ++ ['\n']) (crlfToLf text) with
  | none => (fun _ => none, crlfToLf text)
  | some rest =>
      match findStr ('\n' :: fence) rest with
      | none => (fun _ => none, crlfToLf text)
      | some stop =>
          let after := rest.drop (stop + 4)
          (frontmatter ((rest.take stop).splitOnP (· == '\n')),
            (stripPrefix ['\n'] after).getD after)

inductive Class where
  | content
  | c2
  | bad
  deriving DecidableEq

def memAddr : List Char := ['m', 'e', 'm', '_', 'a', 'd', 'd', 'r']

def memKind : List Char := ['m', 'e', 'm', '_', 'k', 'i', 'n', 'd']

def memSigner : List Char := ['m', 'e', 'm', '_', 's', 'i', 'g', 'n', 'e', 'r']

def memSig : List Char := ['m', 'e', 'm', '_', 's', 'i', 'g']

def episode : List Char := ['e', 'p', 'i', 's', 'o', 'd', 'e']

def classify (addr : List Char) (fm : Frontmatter) (body : List Char) : Class :=
  if addrOf sha256 body = addr then .content
  else if fm memAddr = some addr ∧ fm memKind = some episode then .c2
  else .bad

end Address

/-! ## Provenance -/

inductive Reject where
  | unsigned
  | untrustedSigner
  | sigInvalid
  | integrityFail
  | missing
  deriving DecidableEq

section Accept

variable {Key : Type*}

/-- The invite-only roster, by node id. -/
abbrev Roster (Key : Type*) := List Char → Option Key

variable (sha256 : List UInt8 → List UInt8) (verify : Key → List UInt8 → List UInt8 → Bool)

/-- `Signature::from_slice` takes 64 bytes. -/
def signatureOf (raw : List UInt8) : Option (List UInt8) :=
  if raw.length = 64 then some raw else none

def verifyProvenance (addr : List Char) (fm : Frontmatter) (body : List Char)
    (roster : Roster Key) : Except Reject Unit :=
  match fm memSigner, fm memSig with
  | some signer, some sigHex =>
      if signer.isEmpty || sigHex.isEmpty then .error .unsigned
      else
        match roster signer with
        | none => .error .untrustedSigner
        | some vk =>
            match (hexDecode sigHex).bind signatureOf with
            | none => .error .sigInvalid
            | some sig =>
                if verify vk (signingPayload addr body) sig then .ok () else .error .sigInvalid
  | _, _ => .error .unsigned

/-- What a node checks of an object before it writes it. -/
def accept (addr text : List Char) (roster : Option (Roster Key)) : Except Reject Class :=
  let fm := (parseFm text).1
  let body := (parseFm text).2
  match classify sha256 addr fm body with
  | .bad => .error .integrityFail
  | cls =>
      match roster with
      | none => .ok cls
      | some r =>
          match verifyProvenance verify addr fm body r with
          | .ok () => .ok cls
          | .error reason => .error reason

end Accept

/-! ## What an accepted object has -/

section Accepted

theorem mem_of_mem_trim {c : Char} {s : List Char} (h : c ∈ trim s) : c ∈ s :=
  (List.dropWhile_suffix _).subset ((List.rdropWhile_prefix _ _).subset h)

/-- A piece between separators has no separator. -/
theorem separator_not_mem {α : Type*} {p : α → Bool} {s piece : List α}
    (h : piece ∈ s.splitOnP p) : ∀ c ∈ piece, p c = false := by
  induction s generalizing piece with
  | nil =>
      rw [List.splitOnP_nil, List.mem_singleton] at h
      subst h
      intro c hc
      cases hc
  | cons x s ih =>
      rw [List.splitOnP_cons_eq_if_modifyHead] at h
      split at h
      · rcases List.mem_cons.mp h with rfl | hrest
        · intro c hc
          cases hc
        · exact ih hrest
      · rename_i hx
        cases hs : s.splitOnP p with
        | nil => exact absurd hs (List.splitOnP_ne_nil p s)
        | cons first rest =>
            rw [hs, List.modifyHead_cons] at h
            rw [hs] at ih
            rcases List.mem_cons.mp h with rfl | hrest
            · intro c hc
              rcases List.mem_cons.mp hc with rfl | hc
              · exact Bool.eq_false_iff.mpr hx
              · exact ih List.mem_cons_self c hc
            · exact ih (List.mem_cons_of_mem _ hrest)

/-- A value of the frontmatter is a part of one of its lines. -/
theorem frontmatter_value {lines : List (List Char)} {k v : List Char}
    (h : frontmatter lines k = some v) : ∃ line ∈ lines, ∀ c ∈ v, c ∈ line := by
  induction lines using List.reverseRecOn with
  | nil => cases h
  | append_singleton lines line ih =>
      rw [frontmatter, List.foldl_append, ← frontmatter, List.foldl_cons, List.foldl_nil,
        insertLine] at h
      cases hcolon : line.idxOf? ':' with
      | none =>
          rw [hcolon] at h
          obtain ⟨earlier, hmem, hv⟩ := ih h
          exact ⟨earlier, List.mem_append_left _ hmem, hv⟩
      | some i =>
          rw [hcolon] at h
          dsimp only at h
          by_cases hk : k = trim (line.take i)
          · subst hk
            rw [Function.update_self, Option.some_inj] at h
            subst h
            exact ⟨line, by simp, fun c hc => List.mem_of_mem_drop (mem_of_mem_trim hc)⟩
          · rw [Function.update_of_ne hk] at h
            obtain ⟨earlier, hmem, hv⟩ := ih h
            exact ⟨earlier, List.mem_append_left _ hmem, hv⟩

theorem newline_not_mem_value {text k v : List Char} (h : (parseFm text).1 k = some v) :
    '\n' ∉ v := by
  unfold parseFm at h
  split at h
  · cases h
  · split at h
    · cases h
    · obtain ⟨line, hline, hv⟩ := frontmatter_value h
      intro hnewline
      have hsep := separator_not_mem hline '\n' (hv _ hnewline)
      cases hsep

theorem hexDigit_ne_newline : ∀ n < 16, hexDigit n ≠ '\n' := by decide

theorem newline_not_mem_hexEncode (bytes : List UInt8) : '\n' ∉ hexEncode bytes := by
  intro h
  obtain ⟨b, -, hb⟩ := List.mem_flatMap.mp h
  have hlt : b.toNat < 256 := b.toNat_lt
  rcases List.mem_cons.mp hb with heq | hb
  · exact hexDigit_ne_newline _ (by omega) heq.symm
  · exact hexDigit_ne_newline _ (by omega) (List.mem_singleton.mp hb).symm

variable {sha256 : List UInt8 → List UInt8}

/-- An address that a node takes for an object is one line. -/
theorem newline_not_mem_addr {addr text : List Char}
    (h : classify sha256 addr (parseFm text).1 (parseFm text).2 ≠ .bad) : '\n' ∉ addr := by
  unfold classify at h
  split at h
  · rename_i hcontent
    intro hmem
    rw [← hcontent] at hmem
    exact newline_not_mem_hexEncode _ (List.mem_of_mem_take hmem)
  · split at h
    · rename_i hc2
      exact newline_not_mem_value hc2.1
    · exact absurd rfl h

variable {Key : Type*} {verify : Key → List UInt8 → List UInt8 → Bool} {roster : Roster Key}

theorem verifyProvenance_eq_ok {addr body : List Char} {fm : Frontmatter}
    (h : verifyProvenance verify addr fm body roster = .ok ()) :
    ∃ signer vk sig, fm memSigner = some signer ∧ roster signer = some vk ∧
      verify vk (signingPayload addr body) sig = true := by
  unfold verifyProvenance at h
  split at h
  · rename_i signer sigHex hsigner hsig
    split at h
    · cases h
    · split at h
      · cases h
      · rename_i vk hvk
        split at h
        · cases h
        · rename_i sig hraw
          split at h
          · rename_i hverify
            exact ⟨signer, vk, sig, hsigner, hvk, hverify⟩
          · cases h
  · cases h

theorem accept_eq_ok {addr text : List Char} {cls : Class}
    (h : accept sha256 verify addr text (some roster) = .ok cls) :
    '\n' ∉ addr ∧ classify sha256 addr (parseFm text).1 (parseFm text).2 = cls ∧
      verifyProvenance verify addr (parseFm text).1 (parseFm text).2 roster = .ok () := by
  unfold accept at h
  dsimp only at h
  have hbad : classify sha256 addr (parseFm text).1 (parseFm text).2 ≠ .bad := by
    intro hbad
    rw [hbad] at h
    cases h
  refine ⟨newline_not_mem_addr hbad, ?_⟩
  split at h
  · cases h
  · split at h
    · rename_i hprov
      exact ⟨Except.ok.inj h, hprov⟩
    · cases h

end Accepted

theorem signingPayload_eq (addr body : List Char) :
    signingPayload addr body = encode (addr ++ '\n' :: norm body) := by
  rw [signingPayload, encode, encode, encode, ← List.flatMap_append, List.append_assoc,
    List.singleton_append]

/-- A payload is of one address and one normalized body. -/
theorem signingPayload_inj {addr addr' body body' : List Char} (haddr : '\n' ∉ addr)
    (haddr' : '\n' ∉ addr') (h : signingPayload addr body = signingPayload addr' body') :
    addr = addr' ∧ norm body = norm body' := by
  rw [signingPayload_eq, signingPayload_eq] at h
  have htext := encode_injective h
  have htake := congrArg (List.takeWhile (· ≠ '\n')) htext
  have hdrop := congrArg (List.dropWhile (· ≠ '\n')) htext
  have hall : ∀ {a : List Char}, '\n' ∉ a → ∀ c ∈ a, decide (c ≠ '\n') = true := by
    intro a ha c hc
    rw [decide_eq_true_eq]
    rintro rfl
    exact ha hc
  rw [List.takeWhile_append_of_pos (hall haddr), List.takeWhile_append_of_pos (hall haddr')] at htake
  rw [List.dropWhile_append_of_pos (hall haddr), List.dropWhile_append_of_pos (hall haddr')] at hdrop
  simpa using And.intro htake hdrop

theorem newline_mem_signingPayload (addr body : List Char) : 10 ∈ signingPayload addr body := by
  rw [signingPayload_eq, encode, List.mem_flatMap]
  exact ⟨'\n', by simp, by decide⟩

end ShannonPrime.Swarm
