import ShannonPrime.Lib.StableSort
import Mathlib.Data.Prod.Lex
import Mathlib.Data.List.Lex

/-!
The receipt ledger (`pouw_ledger.rs`): a file of 64-byte receipts that handles append to
and iterators read. A handle counts the bytes it believes the file to have. Reads and
writes that fail are not modelled.
-/

namespace ShannonPrime.Ledger

open StableSort

abbrev Byte := BitVec 8

def receiptBytes : Nat := 64

def spinorSentinel : Byte := 0xA5

/-- `SpinorReceipt`, packed: its fields are its bytes. -/
structure SpinorReceipt where
  asBytes : List Byte
  size : asBytes.length = receiptBytes

namespace SpinorReceipt

variable (r : SpinorReceipt)

def byte (i : Fin 64) : Byte := r.asBytes.get ⟨i, by rw [r.size]; exact i.isLt⟩

/-- The field at 8..32. -/
def inputHash : List Byte := (r.asBytes.drop 8).take 24

/-- The field at 61..63, little endian. -/
def sequenceRank : Nat := (r.byte 61).toNat + 256 * (r.byte 62).toNat

def sentinel : Byte := r.byte 63

def sentinelOk : Bool := r.sentinel == spinorSentinel

end SpinorReceipt

inductive LedgerError where
  | badSentinel (index : Nat) (observed : Byte)
  | partialTail (extraBytes : Nat)
  deriving DecidableEq, Repr

abbrev LedgerResult (α : Type) := Except LedgerError α

/-! Reading -/

/-- `LedgerIter`; the file from the iterator's place on. -/
structure LedgerIter where
  file : List Byte
  index : Nat
  finished : Bool

/-- `next`: the item and the iterator behind it. The bytes that remain are those of the file
from the iterator's place on. -/
def LedgerIter.next (it : LedgerIter) : Option (LedgerResult SpinorReceipt × LedgerIter) :=
  if it.finished then none
  else if it.file.length = 0 then none
  else if h : it.file.length < receiptBytes then
    some (.error (.partialTail it.file.length), { it with finished := true })
  else
    let r : SpinorReceipt :=
      ⟨it.file.take receiptBytes, by rw [List.length_take]; omega⟩
    let rest := it.file.drop receiptBytes
    if r.sentinel ≠ spinorSentinel then
      some (.error (.badSentinel it.index r.sentinel), { it with file := rest, finished := true })
    else some (.ok r, { it with file := rest, index := it.index + 1 })

/-- What is left to be read before the iterator ends. -/
def LedgerIter.left (it : LedgerIter) : Nat :=
  if it.finished then 0 else it.file.length + 1

theorem LedgerIter.next_left {it it' : LedgerIter} {x : LedgerResult SpinorReceipt}
    (h : it.next = some (x, it')) : it'.left < it.left := by
  rw [LedgerIter.next] at h
  split at h
  · cases h
  · rename_i hopen
    split at h
    · cases h
    · split at h
      · rw [Option.some_inj, Prod.mk.injEq] at h
        rw [← h.2, LedgerIter.left, LedgerIter.left, if_neg hopen, if_pos rfl]
        exact Nat.succ_pos _
      · rename_i hsome hlong
        simp only at h
        split at h
        · rw [Option.some_inj, Prod.mk.injEq] at h
          rw [← h.2, LedgerIter.left, LedgerIter.left, if_neg hopen, if_pos rfl]
          exact Nat.succ_pos _
        · rw [Option.some_inj, Prod.mk.injEq] at h
          rw [← h.2, LedgerIter.left, LedgerIter.left, if_neg hopen, if_neg hopen]
          simp only [List.length_drop, receiptBytes] at hlong ⊢
          omega

/-- All the items, in order. -/
def LedgerIter.items (it : LedgerIter) : List (LedgerResult SpinorReceipt) :=
  match _hnext : it.next with
  | none => []
  | some (x, it') => x :: it'.items
termination_by it.left
decreasing_by exact LedgerIter.next_left _hnext

/-- `iter`, from the start of the file. -/
def iter (file : List Byte) : List (LedgerResult SpinorReceipt) :=
  (LedgerIter.mk file 0 false).items

/-! Appending -/

/-- A handle: what it takes the file's length to be. -/
structure Handle where
  bytesWritten : Nat

/-- `Ledger::open` -/
def openLedger (file : List Byte) : Handle := ⟨file.length⟩

/-- `append`: the file, the handle, and the offset returned. -/
def append (file : List Byte) (l : Handle) (r : SpinorReceipt) : List Byte × Handle × Nat :=
  (file ++ r.asBytes, ⟨l.bytesWritten + receiptBytes⟩, l.bytesWritten)

/-- Appends in turn through one handle. -/
def appendAll : List Byte → Handle → List SpinorReceipt → List Byte × Handle
  | file, l, [] => (file, l)
  | file, l, r :: rest =>
      let out := append file l r
      appendAll out.1 out.2.1 rest

/-- The file of a new ledger after appends. -/
def ledgerOf (rs : List SpinorReceipt) : List Byte := (appendAll [] (openLedger []) rs).1

/-! The canonical order -/

/-- `(sequence_rank, input_hash)`, the hash byte by byte. -/
def canonicalKey (r : SpinorReceipt) : Nat ×ₗ List Nat :=
  toLex (r.sequenceRank, r.inputHash.map BitVec.toNat)

/-- `collect` of the items: the receipts, or the first error. -/
def collect : List (LedgerResult SpinorReceipt) → LedgerResult (List SpinorReceipt)
  | [] => .ok []
  | .error e :: _ => .error e
  | .ok r :: rest =>
      match collect rest with
      | .error e => .error e
      | .ok rs => .ok (r :: rs)

def canonicalSort (file : List Byte) : LedgerResult (List SpinorReceipt) :=
  match collect (iter file) with
  | .error e => .error e
  | .ok recs => .ok (StableSort.sortBy canonicalKey recs)

/-- `replay_canonical_into`: what the destination file becomes, and the count or the error. -/
def replayCanonicalInto (source dest : List Byte) (l : Handle) : List Byte × LedgerResult Nat :=
  match canonicalSort source with
  | .error e => (dest, .error e)
  | .ok sorted => ((appendAll dest l sorted).1, .ok sorted.length)

/-! ## The canonical replay

What an iterator reads of a file of receipts, and the canonical replay: the destination holds the
receipts by rank and input hash, those that share both in the source's order. -/

/-- The records of receipts, end to end. -/
def flat (rs : List SpinorReceipt) : List Byte := rs.flatMap SpinorReceipt.asBytes

@[simp] theorem flat_nil : flat [] = [] := rfl

@[simp] theorem flat_cons (r : SpinorReceipt) (rs : List SpinorReceipt) :
    flat (r :: rs) = r.asBytes ++ flat rs := rfl

theorem flat_append (rs rs' : List SpinorReceipt) : flat (rs ++ rs') = flat rs ++ flat rs' := by
  simp [flat]

theorem flat_length (rs : List SpinorReceipt) : (flat rs).length = receiptBytes * rs.length := by
  induction rs with
  | nil => rfl
  | cons r rs ih =>
      rw [flat_cons, List.length_append, r.size, ih, List.length_cons, Nat.mul_succ, Nat.add_comm]

theorem SpinorReceipt.ext_bytes {r r' : SpinorReceipt} (h : r.asBytes = r'.asBytes) : r = r' := by
  cases r
  cases r'
  cases h
  rfl

theorem flat_injective {rs rs' : List SpinorReceipt} (h : flat rs = flat rs') : rs = rs' := by
  induction rs generalizing rs' with
  | nil =>
      cases rs' with
      | nil => rfl
      | cons r' rest =>
          have hlen := congrArg List.length h
          rw [flat_length, flat_length, List.length_nil, List.length_cons] at hlen
          simp only [receiptBytes] at hlen
          omega
  | cons r rest ih =>
      cases rs' with
      | nil =>
          have hlen := congrArg List.length h
          rw [flat_length, flat_length, List.length_nil, List.length_cons] at hlen
          simp only [receiptBytes] at hlen
          omega
      | cons r' rest' =>
          rw [flat_cons, flat_cons] at h
          obtain ⟨hfirst, hrest⟩ := List.append_inj h (by rw [r.size, r'.size])
          rw [SpinorReceipt.ext_bytes hfirst, ih hrest]

/-! The iterator -/

theorem items_nil (index : Nat) : (LedgerIter.mk [] index false).items = [] := by
  rw [LedgerIter.items]
  rfl

/-- A whole record in front. -/
theorem next_record (r : SpinorReceipt) (rest : List Byte) (index : Nat) :
    (LedgerIter.mk (r.asBytes ++ rest) index false).next =
      if r.sentinelOk then some (.ok r, ⟨rest, index + 1, false⟩)
      else some (.error (.badSentinel index r.sentinel), ⟨rest, index, true⟩) := by
  have hlen : (r.asBytes ++ rest).length = receiptBytes + rest.length := by
    rw [List.length_append, r.size]
  have hsome : ¬(r.asBytes ++ rest).length = 0 := by
    rw [hlen, receiptBytes]
    omega
  have hlong : ¬(r.asBytes ++ rest).length < receiptBytes := by
    rw [hlen]
    omega
  have hhead : (r.asBytes ++ rest).take receiptBytes = r.asBytes := List.take_left' r.size
  have htail : (r.asBytes ++ rest).drop receiptBytes = rest := List.drop_left' r.size
  simp only [LedgerIter.next, Bool.false_eq_true, if_false, if_neg hsome, dif_neg hlong, htail]
  have hrec : (⟨(r.asBytes ++ rest).take receiptBytes, by
      rw [List.length_take]
      omega⟩ : SpinorReceipt) = r := SpinorReceipt.ext_bytes hhead
  rw [hrec]
  by_cases hok : r.sentinel = spinorSentinel
  · have hflag : r.sentinelOk = true := by simpa [SpinorReceipt.sentinelOk] using hok
    rw [if_neg (not_not_intro hok), if_pos hflag]
  · have hflag : ¬r.sentinelOk = true := by simpa [SpinorReceipt.sentinelOk] using hok
    rw [if_pos hok, if_neg hflag]

theorem items_finished (file : List Byte) (index : Nat) :
    (LedgerIter.mk file index true).items = [] := by
  rw [LedgerIter.items]
  rfl

theorem items_record (r : SpinorReceipt) (rest : List Byte) (index : Nat) :
    (LedgerIter.mk (r.asBytes ++ rest) index false).items =
      if r.sentinelOk then .ok r :: (LedgerIter.mk rest (index + 1) false).items
      else [.error (.badSentinel index r.sentinel)] := by
  rw [LedgerIter.items]
  have hnext := next_record r rest index
  split
  · rename_i hnone
    rw [hnone] at hnext
    split at hnext <;> cases hnext
  · rename_i x it' hsome
    rw [hsome] at hnext
    by_cases hok : r.sentinelOk = true
    · rw [if_pos hok, Option.some_inj, Prod.mk.injEq] at hnext
      rw [if_pos hok, hnext.1, hnext.2]
    · rw [if_neg hok, Option.some_inj, Prod.mk.injEq] at hnext
      rw [if_neg hok, hnext.1, hnext.2, items_finished]

/-- Fewer bytes than a record. -/
theorem items_short {file : List Byte} (index : Nat) (hsome : file ≠ [])
    (hshort : file.length < receiptBytes) :
    (LedgerIter.mk file index false).items = [.error (.partialTail file.length)] := by
  have hpos : ¬file.length = 0 := by
    rw [List.length_eq_zero_iff]
    exact hsome
  have hnext : (LedgerIter.mk file index false).next =
      some (.error (.partialTail file.length), ⟨file, index, true⟩) := by
    simp only [LedgerIter.next, Bool.false_eq_true, if_false, if_neg hpos, dif_pos hshort]
  rw [LedgerIter.items]
  split
  · rename_i hnone
    rw [hnone] at hnext
    cases hnext
  · rename_i x it' hitem
    rw [hitem, Option.some_inj, Prod.mk.injEq] at hnext
    rw [hnext.1, hnext.2, items_finished]

/-- Sound records in front of whatever follows. -/
theorem items_flat {rs : List SpinorReceipt} (hok : ∀ r ∈ rs, r.sentinelOk = true)
    (rest : List Byte) (index : Nat) :
    (LedgerIter.mk (flat rs ++ rest) index false).items =
      rs.map .ok ++ (LedgerIter.mk rest (index + rs.length) false).items := by
  induction rs generalizing index with
  | nil => rfl
  | cons r rs ih =>
      rw [flat_cons, List.append_assoc, items_record,
        if_pos (hok r List.mem_cons_self), ih fun r' hr' => hok r' (List.mem_cons_of_mem r hr')]
      rw [List.map_cons, List.cons_append, List.length_cons]
      congr 4
      omega

theorem appendAll_file (file : List Byte) (l : Handle) (rs : List SpinorReceipt) :
    (appendAll file l rs).1 = file ++ flat rs := by
  induction rs generalizing file l with
  | nil => simp [appendAll]
  | cons r rs ih =>
      rw [appendAll, ih, append, flat_cons, List.append_assoc]

theorem ledgerOf_eq (rs : List SpinorReceipt) : ledgerOf rs = flat rs := by
  rw [ledgerOf, appendAll_file, List.nil_append]

/-! The canonical replay -/

theorem collect_iter (rs : List SpinorReceipt) (index : Nat) :
    ((∀ r ∈ rs, r.sentinelOk = true) →
        collect (LedgerIter.mk (flat rs) index false).items = .ok rs) ∧
      ((∃ r ∈ rs, r.sentinelOk = false) →
        ∃ e, collect (LedgerIter.mk (flat rs) index false).items = .error e) := by
  induction rs generalizing index with
  | nil =>
      constructor
      · intro _
        rw [flat_nil, items_nil, collect]
      · intro ⟨r, hr, _⟩
        cases hr
  | cons r rs ih =>
      obtain ⟨hgood, hbad⟩ := ih (index + 1)
      rw [flat_cons, items_record]
      constructor
      · intro hok
        rw [if_pos (hok r List.mem_cons_self), collect,
          hgood fun r' hr' => hok r' (List.mem_cons_of_mem r hr')]
      · intro ⟨r', hr', hno⟩
        by_cases hok : r.sentinelOk = true
        · rcases List.mem_cons.mp hr' with rfl | hin
          · rw [hok] at hno
            cases hno
          · obtain ⟨e, he⟩ := hbad ⟨r', hin, hno⟩
            exact ⟨e, by rw [if_pos hok, collect, he]⟩
        · exact ⟨_, by rw [if_neg hok, collect]⟩

/-- What a replay into a new ledger leaves there. -/
def replayed (rs : List SpinorReceipt) : List Byte :=
  (replayCanonicalInto (ledgerOf rs) [] (openLedger [])).1

theorem replayed_eq (rs : List SpinorReceipt) :
    ((∀ r ∈ rs, r.sentinelOk = true) → replayed rs = flat (sortBy canonicalKey rs)) ∧
      ((∃ r ∈ rs, r.sentinelOk = false) → replayed rs = []) := by
  obtain ⟨hgood, hbad⟩ := collect_iter rs 0
  constructor
  · intro hok
    rw [replayed, replayCanonicalInto, canonicalSort, ledgerOf_eq, iter, hgood hok]
    dsimp only
    rw [appendAll_file, List.nil_append]
  · intro hno
    obtain ⟨e, he⟩ := hbad hno
    rw [replayed, replayCanonicalInto, canonicalSort, ledgerOf_eq, iter, he]

/-- Two ledgers of the same receipts replay alike exactly when one of the receipts has a wrong
sentinel, so that neither replays, or those of each rank and input hash stand in the same
order in both. -/
theorem replay_order_independent_iff (rs rs' : List SpinorReceipt) (hperm : rs.Perm rs') :
    replayed rs = replayed rs' ↔
      (∃ r ∈ rs, r.sentinelOk = false) ∨
        ∀ k, ofKey canonicalKey k rs = ofKey canonicalKey k rs' := by
  obtain ⟨hgood, hbad⟩ := replayed_eq rs
  obtain ⟨hgood', hbad'⟩ := replayed_eq rs'
  by_cases hno : ∃ r ∈ rs, r.sentinelOk = false
  · have hno' : ∃ r ∈ rs', r.sentinelOk = false := by
      obtain ⟨r, hr, hr'⟩ := hno
      exact ⟨r, hperm.mem_iff.mp hr, hr'⟩
    rw [hbad hno, hbad' hno']
    simp [hno]
  · have hok : ∀ r ∈ rs, r.sentinelOk = true := by
      intro r hr
      by_contra hr'
      exact hno ⟨r, hr, by simpa using hr'⟩
    have hok' : ∀ r ∈ rs', r.sentinelOk = true := fun r hr => hok r (hperm.mem_iff.mpr hr)
    rw [hgood hok, hgood' hok', ← sortBy_eq_iff]
    constructor
    · intro hflat
      exact Or.inr (flat_injective hflat)
    · intro h
      rcases h with h | h
      · exact absurd h hno
      · rw [h]

/-- A minted receipt of turn 1: its rank, its wall clock and the first byte of its input hash. -/
def mintedReceipt (rank wallUs hash : Byte) : SpinorReceipt :=
  ⟨[1, 0xE, 0, 0, wallUs, 0, 0, 0] ++ hash :: List.replicate 23 7 ++ List.replicate 24 8 ++
    [1, 0, 0, 0, 1, rank, 0, 0xA5], rfl⟩

theorem replay_distinct_keys :
    replayed [mintedReceipt 1 0 7, mintedReceipt 0 5 7] =
      replayed [mintedReceipt 0 5 7, mintedReceipt 1 0 7] := by
  rw [replay_order_independent_iff _ _ (List.Perm.swap _ _ [])]
  right
  intro k
  have hne : canonicalKey (mintedReceipt 1 0 7) ≠ canonicalKey (mintedReceipt 0 5 7) := by
    decide
  rw [ofKey_cons, ofKey_cons, ofKey_cons, ofKey_cons]
  by_cases h : canonicalKey (mintedReceipt 1 0 7) = k
  · have h' : canonicalKey (mintedReceipt 0 5 7) ≠ k := fun h' => hne (h.trans h'.symm)
    simp only [if_pos h, if_neg h']
  · simp only [if_neg h]
    by_cases h' : canonicalKey (mintedReceipt 0 5 7) = k
    · simp only [if_pos h']
    · simp only [if_neg h']

/-- Two receipts of one rank and one input, minted at different times. -/
theorem replay_shared_key :
    [mintedReceipt 0 1 7, mintedReceipt 0 2 7].Perm
        [mintedReceipt 0 2 7, mintedReceipt 0 1 7] ∧
      replayed [mintedReceipt 0 1 7, mintedReceipt 0 2 7] ≠
        replayed [mintedReceipt 0 2 7, mintedReceipt 0 1 7] := by
  have hok : ∀ r ∈ [mintedReceipt 0 1 7, mintedReceipt 0 2 7], r.sentinelOk = true := by decide
  have hok' : ∀ r ∈ [mintedReceipt 0 2 7, mintedReceipt 0 1 7], r.sentinelOk = true := by decide
  refine ⟨List.Perm.swap _ _ [], ?_⟩
  rw [(replayed_eq _).1 hok, (replayed_eq _).1 hok']
  decide

end ShannonPrime.Ledger

/-!
A ledger reopened after a torn append. `open` keeps the torn bytes, and the records
appended next start behind them, so the iterator reads them out of place.
-/

namespace ShannonPrime.Ledger

/-- The receipts among the items. -/
def okItems (items : List (LedgerResult SpinorReceipt)) : List SpinorReceipt :=
  items.filterMap fun
    | .ok r => some r
    | .error _ => none

@[simp] theorem okItems_nil : okItems [] = [] := rfl

@[simp] theorem okItems_ok (r : SpinorReceipt) (items : List (LedgerResult SpinorReceipt)) :
    okItems (.ok r :: items) = r :: okItems items := rfl

@[simp] theorem okItems_error (e : LedgerError) (items : List (LedgerResult SpinorReceipt)) :
    okItems (.error e :: items) = okItems items := rfl

/-- The file after appends, a crash `k` bytes into the append of `r`, a reopen and appends. -/
def afterCrash (rs : List SpinorReceipt) (r : SpinorReceipt) (k : Fin 64)
    (rs' : List SpinorReceipt) : List Byte :=
  let torn := ledgerOf rs ++ r.asBytes.take k
  (appendAll torn (openLedger torn) rs').1

theorem afterCrash_eq (rs : List SpinorReceipt) (r : SpinorReceipt) (k : Fin 64)
    (rs' : List SpinorReceipt) :
    afterCrash rs r k rs' = flat rs ++ (r.asBytes.take k ++ flat rs') := by
  rw [afterCrash, appendAll_file, ledgerOf_eq, List.append_assoc]

/-- What the iterator returns as receipts stands at the front of the file, each sound. -/
theorem okItems_front {file : List Byte} {xs : List SpinorReceipt} {index : Nat}
    (h : okItems (LedgerIter.mk file index false).items = xs) :
    (∀ x ∈ xs, x.sentinelOk = true) ∧ flat xs <+: file := by
  induction xs generalizing file index with
  | nil => exact ⟨fun _ hx => absurd hx List.not_mem_nil, List.nil_prefix⟩
  | cons x xs ih =>
      rcases Nat.lt_or_ge file.length receiptBytes with hshort | hlong
      · by_cases hnil : file = []
        · rw [hnil, items_nil] at h
          cases h
        · rw [items_short index hnil hshort] at h
          cases h
      · have htake : (file.take receiptBytes).length = receiptBytes := by
          rw [List.length_take]
          omega
        have hcut : file = (⟨file.take receiptBytes, htake⟩ : SpinorReceipt).asBytes ++
            file.drop receiptBytes := (List.take_append_drop _ _).symm
        generalize (⟨file.take receiptBytes, htake⟩ : SpinorReceipt) = r at hcut
        generalize file.drop receiptBytes = rest at hcut
        subst hcut
        rw [items_record] at h
        by_cases hok : r.sentinelOk = true
        · rw [if_pos hok, okItems_ok, List.cons.injEq] at h
          obtain ⟨rfl, hrest⟩ := h
          obtain ⟨hsound, hprefix⟩ := ih hrest
          refine ⟨?_, ?_⟩
          · intro y hy
            rcases List.mem_cons.mp hy with rfl | hin
            · exact hok
            · exact hsound y hin
          · rw [flat_cons, List.prefix_append_right_inj]
            exact hprefix
        · rw [if_neg hok] at h
          cases h

/-- The iterator returns some receipts and no others exactly when they are sound and stand
at the front of the file, which ends within a record behind them. -/
theorem okItems_iff {file : List Byte} {xs : List SpinorReceipt}
    (hend : file.length < (flat xs).length + receiptBytes) :
    okItems (iter file) = xs ↔ (∀ x ∈ xs, x.sentinelOk = true) ∧ flat xs <+: file := by
  constructor
  · exact okItems_front
  · intro ⟨hsound, rest, hrest⟩
    subst hrest
    have hshort : rest.length < receiptBytes := by
      rw [List.length_append] at hend
      omega
    have htail : okItems (LedgerIter.mk rest (0 + xs.length) false).items = [] := by
      by_cases hnil : rest = []
      · rw [hnil, items_nil]
        rfl
      · rw [items_short _ hnil hshort]
        rfl
    have hmap : okItems (xs.map .ok) = xs := by
      rw [okItems, List.filterMap_map]
      exact List.filterMap_some
    rw [iter, items_flat hsound, okItems, List.filterMap_append, ← okItems, ← okItems, htail,
      hmap, List.append_nil]

/-- The file ends within a record behind the whole ones. -/
theorem afterCrash_length (rs : List SpinorReceipt) (r : SpinorReceipt) (k : Fin 64)
    (rs' : List SpinorReceipt) :
    (afterCrash rs r k rs').length < (flat (rs ++ rs')).length + receiptBytes := by
  have hk : (r.asBytes.take k).length = k.val := by
    rw [List.length_take, r.size, receiptBytes]
    omega
  rw [afterCrash_eq, flat_append]
  simp only [List.length_append, hk, receiptBytes]
  omega

/-- After a crash every receipt is read back exactly when all are sound and the records of
the receipts appended after the reopen stand, byte for byte, where the torn bytes and then
they themselves stand. -/
theorem crash_recovery_iff (rs : List SpinorReceipt) (r : SpinorReceipt) (k : Fin 64)
    (rs' : List SpinorReceipt) :
    okItems (iter (afterCrash rs r k rs')) = rs ++ rs' ↔
      (∀ x ∈ rs ++ rs', x.sentinelOk = true) ∧ flat rs' <+: r.asBytes.take k ++ flat rs' := by
  rw [okItems_iff (afterCrash_length rs r k rs'), afterCrash_eq, flat_append,
    List.prefix_append_right_inj]

/-- With nothing torn, or nothing appended after the reopen, every sound receipt is read. -/
theorem crash_recovery_clean (rs : List SpinorReceipt) (r : SpinorReceipt) (k : Fin 64)
    (rs' : List SpinorReceipt) (hsound : ∀ x ∈ rs ++ rs', x.sentinelOk = true)
    (hclean : k.val = 0 ∨ rs' = []) :
    okItems (iter (afterCrash rs r k rs')) = rs ++ rs' := by
  refine (okItems_iff (afterCrash_length rs r k rs')).mpr ⟨hsound, ?_⟩
  rw [afterCrash_eq, flat_append, List.prefix_append_right_inj]
  rcases hclean with hzero | rfl
  · simp [hzero]
  · exact List.nil_prefix

/-- One byte of a second receipt is on disk when the daemon stops; the third is not read. -/
theorem torn_byte_loses_receipt :
    okItems (iter (afterCrash [mintedReceipt 0 1 7] (mintedReceipt 1 2 7) 1
      [mintedReceipt 2 3 7])) ≠ [mintedReceipt 0 1 7, mintedReceipt 2 3 7] := by
  intro h
  obtain ⟨_, hprefix⟩ := okItems_front h
  rw [afterCrash_eq] at hprefix
  exact absurd hprefix (by decide)

end ShannonPrime.Ledger
