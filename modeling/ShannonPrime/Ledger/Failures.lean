import ShannonPrime.Ledger.Replay
import ShannonPrime.Lib.BufWriter

/-!
Appends whose writes may fail. The handle writes through a buffer, and what a failed append has
put there stays: a later append writes it in front of its own record, behind which it then counts.
-/

namespace ShannonPrime.Ledger

open BufWriter

/-- The capacity of a `BufWriter`. -/
def bufCapacity : Nat := 8 * 1024

/-- What the file answers during one append: to the writes in turn, and to the flush. -/
structure Io where
  writes : List WriteResult
  flushOk : Bool
  deriving DecidableEq, Repr

/-- A handle with its buffer and the file behind it. -/
structure Buffered where
  writer : Writer Byte
  handle : Handle

/-- `append`: the offset, or nothing for an error. -/
def appendIo (s : Buffered) (r : SpinorReceipt) (io : Io) : Option Nat × Buffered :=
  let pushed := writeAll bufCapacity s.writer r.asBytes io.writes
  if pushed.1 then
    let flushed := writeLoop pushed.2.1.file pushed.2.1.buf pushed.2.2
    if flushed.ok && io.flushOk then
      (some s.handle.bytesWritten,
        ⟨⟨flushed.file, flushed.left⟩, ⟨s.handle.bytesWritten + receiptBytes⟩⟩)
    else (none, ⟨⟨flushed.file, flushed.left⟩, s.handle⟩)
  else (none, ⟨pushed.2.1, s.handle⟩)

/-- A handle after some appends, with the receipts and offsets of those that succeeded. -/
structure Ran where
  state : Buffered
  oks : List (SpinorReceipt × Nat)

def Ran.step (s : Ran) (call : SpinorReceipt × Io) : Ran :=
  let out := appendIo s.state call.1 call.2
  match out.1 with
  | some offset => ⟨out.2, s.oks ++ [(call.1, offset)]⟩
  | none => ⟨out.2, s.oks⟩

/-- A ledger that is opened on a file. -/
def Ran.opened (file : List Byte) : Ran := ⟨⟨⟨file, []⟩, openLedger file⟩, []⟩

def Ran.after (s : Ran) (calls : List (SpinorReceipt × Io)) : Ran := calls.foldl Ran.step s

/-- Behind what it held before, the file has the receipts of the appends that succeeded, at their
offsets, and at most a part of another. -/
structure Atomic (before : List Byte) (s : Ran) : Prop where
  content : ∃ torn, torn.length < receiptBytes ∧
    s.state.writer.file = before ++ (flat (s.oks.map Prod.fst) ++ torn)
  offsets : ∀ p ∈ s.oks, (s.state.writer.file.drop p.2).take receiptBytes = p.1.asBytes

/-- The file takes a record and is flushed. -/
def Io.Succeeds (io : Io) : Prop :=
  taken receiptBytes io.writes = receiptBytes ∧ io.flushOk = true

instance (io : Io) : Decidable io.Succeeds := inferInstanceAs (Decidable (_ ∧ _))

/-- The file never takes `left` bytes more. -/
def Stalls : Nat → List Io → Prop
  | _, [] => True
  | left, io :: ios => taken left io.writes < left ∧ Stalls (left - taken left io.writes) ios

/-- No append fails, or the file takes less than a record from the first that does. -/
def Safe : List Io → Prop
  | [] => True
  | io :: ios => if io.Succeeds then Safe ios else Stalls receiptBytes (io :: ios)

/-! ## One append -/

section

variable {s : Buffered} {r : SpinorReceipt} {io : Io}

theorem asBytes_small (r : SpinorReceipt) : r.asBytes.length < bufCapacity := by
  rw [r.size]
  decide

/-- The record is in the buffer, and the buffer is written. -/
theorem appendIo_pushed {file buf : List Byte} {rest : List WriteResult}
    (h : writeAll bufCapacity s.writer r.asBytes io.writes = (true, ⟨file, buf⟩, rest)) :
    appendIo s r io =
      if taken buf.length rest = buf.length ∧ io.flushOk = true then
        (some s.handle.bytesWritten,
          ⟨⟨file ++ buf, []⟩, ⟨s.handle.bytesWritten + receiptBytes⟩⟩)
      else
        (none, ⟨⟨file ++ buf.take (taken buf.length rest), buf.drop (taken buf.length rest)⟩,
          s.handle⟩) := by
  obtain ⟨rest', hloop⟩ := writeLoop_eq file buf rest
  rw [appendIo, h]
  dsimp only
  rw [if_pos rfl, hloop]
  dsimp only
  split
  · rename_i hok
    obtain ⟨hall, hflush⟩ := Bool.and_eq_true_iff.mp hok
    have htaken := beq_iff_eq.mp hall
    rw [if_pos ⟨htaken, hflush⟩, htaken, List.take_length, List.drop_length]
  · rename_i hok
    rw [if_neg]
    rintro ⟨htaken, hflush⟩
    exact hok (Bool.and_eq_true_iff.mpr ⟨beq_iff_eq.mpr htaken, hflush⟩)

/-- With an empty buffer an append writes its record as far as the file takes it. -/
theorem appendIo_clean (r : SpinorReceipt) (io : Io) (hbuf : s.writer.buf = []) :
    appendIo s r io =
      if io.Succeeds then
        (some s.handle.bytesWritten,
          ⟨⟨s.writer.file ++ r.asBytes, []⟩, ⟨s.handle.bytesWritten + receiptBytes⟩⟩)
      else
        (none, ⟨⟨s.writer.file ++ r.asBytes.take (taken receiptBytes io.writes),
          r.asBytes.drop (taken receiptBytes io.writes)⟩, s.handle⟩) := by
  have hroomy : r.asBytes.length ≤ bufCapacity - s.writer.buf.length := by
    rw [hbuf]
    exact Nat.le_of_lt (asBytes_small r)
  have hpush := writeAll_roomy io.writes (asBytes_small r) hroomy
  rw [hbuf, List.nil_append] at hpush
  rw [appendIo_pushed hpush, r.size]
  rfl

/-- What an append writes to the file: all there is, with its record, if it succeeds; of the
bytes that were in the buffer, as many as the file takes; and no byte of the buffer is lost. -/
structure Grows (s : Buffered) (io : Io) (out : Option Nat × Buffered) (x : List Byte) : Prop where
  file : out.2.writer.file = s.writer.file ++ x
  success : ∀ offset, out.1 = some offset → x.length = s.writer.buf.length + receiptBytes
  buffered : ∀ left ≤ s.writer.buf.length, min left x.length = taken left io.writes
  kept : s.writer.buf.length ≤ out.2.writer.buf.length + x.length

theorem appendIo_grows (s : Buffered) (r : SpinorReceipt) (io : Io) :
    ∃ x, Grows s io (appendIo s r io) x := by
  have hsmall := asBytes_small r
  have hsize := r.size
  have hpushed : ∀ {file buf : List Byte} {rest : List WriteResult},
      writeAll bufCapacity s.writer r.asBytes io.writes = (true, ⟨file, buf⟩, rest) →
        (appendIo s r io).2.writer.file = file ++ buf.take (taken buf.length rest) ∧
          (appendIo s r io).2.writer.buf = buf.drop (taken buf.length rest) ∧
            ∀ offset, (appendIo s r io).1 = some offset → taken buf.length rest = buf.length := by
    intro file buf rest hpush
    rw [appendIo_pushed hpush]
    split
    · rename_i hok
      rw [hok.1, List.take_length, List.drop_length]
      exact ⟨rfl, rfl, fun _ _ => rfl⟩
    · exact ⟨rfl, rfl, fun _ hno => (nomatch hno)⟩
  rcases Nat.lt_or_ge (bufCapacity - s.writer.buf.length) r.asBytes.length with hfull | hroomy
  · obtain ⟨rest, hpush⟩ := writeAll_full io.writes hsmall hfull
    have hle := taken_le s.writer.buf.length io.writes
    rcases eq_or_ne (taken s.writer.buf.length io.writes) s.writer.buf.length with hall | hpart
    · rw [if_pos hall] at hpush
      obtain ⟨hfile, hbuf, hok⟩ := hpushed hpush
      refine ⟨s.writer.buf ++ r.asBytes.take (taken r.asBytes.length rest), ?_, ?_, ?_, ?_⟩
      · rw [hfile, List.append_assoc]
      · intro offset hsome
        rw [List.length_append, hok offset hsome, List.take_length, hsize]
      · intro left hleft
        rw [taken_min hleft, hall, List.length_append]
        omega
      · rw [List.length_append]
        omega
    · rw [if_neg hpart] at hpush
      have hfails : appendIo s r io = (none, ⟨⟨s.writer.file ++
          s.writer.buf.take (taken s.writer.buf.length io.writes),
          s.writer.buf.drop (taken s.writer.buf.length io.writes)⟩, s.handle⟩) := by
        rw [appendIo, hpush]
        exact if_neg Bool.false_ne_true
      rw [hfails]
      refine ⟨s.writer.buf.take (taken s.writer.buf.length io.writes), rfl,
        fun _ hno => (nomatch hno), ?_, ?_⟩
      · intro left hleft
        rw [taken_min hleft, List.length_take, Nat.min_eq_left hle]
      · dsimp only
        rw [List.length_take, List.length_drop]
        omega
  · obtain ⟨hfile, hbuf, hok⟩ :=
      hpushed (writeAll_roomy io.writes hsmall hroomy)
    have hle := taken_le (s.writer.buf ++ r.asBytes).length io.writes
    have hlen : (s.writer.buf ++ r.asBytes).length = s.writer.buf.length + receiptBytes := by
      rw [List.length_append, hsize]
    refine ⟨_, hfile, ?_, ?_, ?_⟩
    · intro offset hsome
      rw [hok offset hsome, List.take_length, hlen]
    · intro left hleft
      rw [taken_min (show left ≤ (s.writer.buf ++ r.asBytes).length by omega), List.length_take,
        Nat.min_eq_left hle]
    · rw [hbuf, List.length_take, List.length_drop]
      omega

end

/-! ## Whole runs -/

section

variable {s : Ran} {calls : List (SpinorReceipt × Io)}

theorem Ran.step_of_some {call : SpinorReceipt × Io} {offset : Nat} {s' : Buffered}
    (h : appendIo s.state call.1 call.2 = (some offset, s')) :
    s.step call = ⟨s', s.oks ++ [(call.1, offset)]⟩ := by
  rw [Ran.step, h]

theorem Ran.step_of_none {call : SpinorReceipt × Io} {s' : Buffered}
    (h : appendIo s.state call.1 call.2 = (none, s')) : s.step call = ⟨s', s.oks⟩ := by
  rw [Ran.step, h]

/-- The file grows by a record for each append that succeeds, and by what it takes of the
buffer. -/
theorem Ran.step_grows (s : Ran) (call : SpinorReceipt × Io) :
    s.state.writer.file.length + taken s.state.writer.buf.length call.2.writes +
        receiptBytes * (s.step call).oks.length ≤
      (s.step call).state.writer.file.length + receiptBytes * s.oks.length := by
  obtain ⟨x, hgrows⟩ := appendIo_grows s.state call.1 call.2
  have hfile := congrArg List.length hgrows.file
  have hmin := hgrows.buffered _ (Nat.le_refl _)
  rw [List.length_append] at hfile
  cases hout : appendIo s.state call.1 call.2 with
  | mk out s' =>
      rw [hout] at hgrows hfile
      dsimp only at hfile
      cases out with
      | none =>
          rw [Ran.step_of_none hout]
          dsimp only
          omega
      | some offset =>
          have hlen := hgrows.success offset rfl
          rw [Ran.step_of_some hout, List.length_append, List.length_singleton, Nat.mul_add]
          dsimp only
          omega

/-- An append that the file takes too little for writes that much, and fails. -/
theorem Ran.step_stalls {left : Nat} (hbuf : left ≤ s.state.writer.buf.length)
    {call : SpinorReceipt × Io} (hless : taken left call.2.writes < left) :
    (s.step call).oks = s.oks ∧
      left - taken left call.2.writes ≤ (s.step call).state.writer.buf.length ∧
        ∃ x, x.length = taken left call.2.writes ∧
          (s.step call).state.writer.file = s.state.writer.file ++ x := by
  obtain ⟨x, hgrows⟩ := appendIo_grows s.state call.1 call.2
  have hmin := hgrows.buffered left hbuf
  have hkept := hgrows.kept
  have hx : x.length = taken left call.2.writes := by omega
  cases hout : appendIo s.state call.1 call.2 with
  | mk out s' =>
      rw [hout] at hgrows hkept
      cases out with
      | none =>
          rw [Ran.step_of_none hout]
          dsimp only at hkept ⊢
          exact ⟨rfl, by omega, x, hx, hgrows.file⟩
      | some offset =>
          have hlen := hgrows.success offset rfl
          omega

/-- While the file takes less than what is left of a record nothing succeeds. -/
theorem Ran.after_stalls {left : Nat} (hpos : 0 < left)
    (hbuf : left ≤ s.state.writer.buf.length) (hstalls : Stalls left (calls.map Prod.snd)) :
    (s.after calls).oks = s.oks ∧ ∃ x, x.length < left ∧
      (s.after calls).state.writer.file = s.state.writer.file ++ x := by
  induction calls generalizing s left with
  | nil => exact ⟨rfl, [], hpos, (List.append_nil _).symm⟩
  | cons call calls ih =>
      obtain ⟨hless, hrest⟩ := hstalls
      obtain ⟨hoks, hbuf', x, hx, hfile⟩ := Ran.step_stalls hbuf hless
      obtain ⟨hoks', x', hx', hfile'⟩ := ih (by omega) hbuf' hrest
      have hafter : s.after (call :: calls) = (s.step call).after calls := rfl
      rw [hafter, hoks', hoks]
      refine ⟨rfl, x ++ x', ?_, ?_⟩
      · rw [List.length_append]
        omega
      · rw [hfile', hfile, List.append_assoc]

theorem Ran.after_grows (s : Ran) (calls : List (SpinorReceipt × Io)) :
    s.state.writer.file.length + receiptBytes * (s.after calls).oks.length ≤
      (s.after calls).state.writer.file.length + receiptBytes * s.oks.length := by
  induction calls generalizing s with
  | nil => exact Nat.le_refl _
  | cons call calls ih =>
      have hstep := s.step_grows call
      have hrest := ih (s.step call)
      have hafter : s.after (call :: calls) = (s.step call).after calls := rfl
      rw [hafter]
      omega

/-- Once the file takes what is left of a record, that much is in it besides the records of the
appends that succeed. -/
theorem Ran.after_leaks {left : Nat} (hbuf : left ≤ s.state.writer.buf.length)
    (hleaks : ¬ Stalls left (calls.map Prod.snd)) :
    s.state.writer.file.length + left + receiptBytes * (s.after calls).oks.length ≤
      (s.after calls).state.writer.file.length + receiptBytes * s.oks.length := by
  induction calls generalizing s left with
  | nil => exact absurd trivial hleaks
  | cons call calls ih =>
      have hafter : s.after (call :: calls) = (s.step call).after calls := rfl
      rw [hafter]
      rcases Nat.lt_or_ge (taken left call.2.writes) left with hless | hall
      · have hrest : ¬ Stalls (left - taken left call.2.writes) (calls.map Prod.snd) := by
          intro hrest
          exact hleaks ⟨hless, hrest⟩
        obtain ⟨hoks, hbuf', x, hx, hfile⟩ := Ran.step_stalls hbuf hless
        have hnext := ih hbuf' hrest
        rw [hfile, List.length_append, hoks] at hnext
        omega
      · have hstep := s.step_grows call
        have hrest := (s.step call).after_grows calls
        have htaken := taken_min hbuf call.2.writes
        omega

/-- A handle with an empty buffer, whose file has the records of the appends that succeeded. -/
structure Clean (before : List Byte) (s : Ran) : Prop where
  buf : s.state.writer.buf = []
  count : s.state.handle.bytesWritten = s.state.writer.file.length
  content : s.state.writer.file = before ++ flat (s.oks.map Prod.fst)
  offsets : ∀ p ∈ s.oks, p.2 + receiptBytes ≤ s.state.writer.file.length ∧
    (s.state.writer.file.drop p.2).take receiptBytes = p.1.asBytes

variable {before : List Byte}

theorem clean_opened (before : List Byte) : Clean before (Ran.opened before) :=
  ⟨rfl, rfl, (List.append_nil before).symm, List.forall_mem_nil _⟩

/-- A record stays where it is when the file grows. -/
theorem record_append {file x : List Byte} {offset : Nat}
    (h : offset + receiptBytes ≤ file.length) :
    ((file ++ x).drop offset).take receiptBytes = (file.drop offset).take receiptBytes := by
  rw [List.drop_append_of_le_length (by omega), List.take_append_of_le_length]
  rw [List.length_drop]
  omega

theorem Clean.atomic_append (h : Clean before s) {s' : Ran} {x : List Byte}
    (hx : x.length < receiptBytes) (hoks : s'.oks = s.oks)
    (hfile : s'.state.writer.file = s.state.writer.file ++ x) : Atomic before s' := by
  constructor
  case content =>
    refine ⟨x, hx, ?_⟩
    rw [hfile, hoks, h.content, List.append_assoc]
  case offsets =>
    intro p hp
    rw [hoks] at hp
    rw [hfile, record_append (h.offsets p hp).1]
    exact (h.offsets p hp).2

theorem Clean.atomic (h : Clean before s) : Atomic before s :=
  h.atomic_append (x := []) (by decide) rfl (List.append_nil _).symm

/-- An append that succeeds leaves the handle as it was. -/
theorem Clean.step (h : Clean before s) {call : SpinorReceipt × Io} (hok : call.2.Succeeds) :
    Clean before (s.step call) := by
  have hout := appendIo_clean call.1 call.2 h.buf
  rw [if_pos hok] at hout
  rw [Ran.step_of_some hout]
  have hlen : (s.state.writer.file ++ call.1.asBytes).length =
      s.state.writer.file.length + receiptBytes := by
    rw [List.length_append, call.1.size]
  constructor
  case buf => rfl
  case count => rw [hlen, h.count]
  case content =>
    rw [List.map_append, flat_append, ← List.append_assoc, ← h.content, List.map_singleton,
      flat_cons, flat_nil, List.append_nil]
  case offsets =>
    intro p hp
    dsimp only
    rw [hlen]
    rcases List.mem_append.mp hp with hp | hp
    · obtain ⟨hle, hrecord⟩ := h.offsets p hp
      exact ⟨by omega, (record_append hle).trans hrecord⟩
    · rw [List.mem_singleton.mp hp]
      dsimp only
      rw [h.count, List.drop_left, ← call.1.size, List.take_length]
      exact ⟨Nat.le_refl _, rfl⟩

theorem stalls_take {left : Nat} {ios : List Io} (h : Stalls left ios) (n : Nat) :
    Stalls left (ios.take n) := by
  induction ios generalizing left n with
  | nil =>
      rw [List.take_nil]
      exact h
  | cons io ios ih =>
      cases n with
      | zero => trivial
      | succ n => exact ⟨h.1, ih h.2 n⟩

theorem Atomic.file_length (h : Atomic before s) :
    s.state.writer.file.length < before.length + receiptBytes * s.oks.length + receiptBytes := by
  obtain ⟨torn, htorn, hfile⟩ := h.content
  have hlen := congrArg List.length hfile
  rw [List.length_append, List.length_append, flat_length, List.length_map] at hlen
  omega

theorem Clean.file_length (h : Clean before s) :
    s.state.writer.file.length = before.length + receiptBytes * s.oks.length := by
  rw [h.content, List.length_append, flat_length, List.length_map]

/-- From a clean handle on, the states are atomic just when the file is safe. -/
theorem Clean.after_iff (h : Clean before s) :
    (∀ n, Atomic before (s.after (calls.take n))) ↔ Safe (calls.map Prod.snd) := by
  induction calls generalizing s with
  | nil =>
      refine iff_of_true (fun n => ?_) trivial
      rw [List.take_nil]
      exact h.atomic
  | cons call calls ih =>
      have hall : (∀ n, Atomic before (s.after ((call :: calls).take n))) ↔
          ∀ n, Atomic before ((s.step call).after (calls.take n)) := by
        constructor
        · exact fun hn n => hn (n + 1)
        · intro hn n
          cases n with
          | zero => exact h.atomic
          | succ n => exact hn n
      rw [hall, List.map_cons, Safe]
      split
      · rename_i hok
        exact ih (h.step hok)
      · rename_i hfail
        have hout := appendIo_clean call.1 call.2 h.buf
        rw [if_neg hfail] at hout
        have hle := taken_le receiptBytes call.2.writes
        have hfile : (s.step call).state.writer.file =
            s.state.writer.file ++ call.1.asBytes.take (taken receiptBytes call.2.writes) := by
          rw [Ran.step_of_none hout]
        have hbuf : (s.step call).state.writer.buf.length =
            receiptBytes - taken receiptBytes call.2.writes := by
          rw [Ran.step_of_none hout]
          dsimp only
          rw [List.length_drop, call.1.size]
        have hoks : (s.step call).oks = s.oks := by
          rw [Ran.step_of_none hout]
        have htake : (call.1.asBytes.take (taken receiptBytes call.2.writes)).length =
            taken receiptBytes call.2.writes := by
          rw [List.length_take, call.1.size, Nat.min_eq_left hle]
        have hbefore := h.file_length
        constructor
        · intro hn
          by_contra hleaks
          have hlast := (hn calls.length).file_length
          rw [List.take_length] at hlast
          rcases Nat.lt_or_ge (taken receiptBytes call.2.writes) receiptBytes with hless | hfull
          · have hgrow := Ran.after_leaks (Nat.le_of_eq hbuf.symm)
              fun hrest => hleaks ⟨hless, hrest⟩
            rw [hfile, List.length_append, htake, hoks] at hgrow
            omega
          · have hgrow := (s.step call).after_grows calls
            rw [hfile, List.length_append, htake, hoks] at hgrow
            omega
        · rintro ⟨hless, hrest⟩ n
          obtain ⟨hoks', x, hx, hfile'⟩ := @Ran.after_stalls _ (calls.take n) _
            (Nat.sub_pos_of_lt hless) (Nat.le_of_eq hbuf.symm)
            (by
              rw [List.map_take]
              exact stalls_take hrest n)
          have htorn : (call.1.asBytes.take (taken receiptBytes call.2.writes) ++ x).length <
              receiptBytes := by
            rw [List.length_append, htake]
            omega
          apply h.atomic_append htorn (hoks'.trans hoks)
          rw [hfile', hfile, List.append_assoc]

end

/-- Appends are atomic on error, in every state that is reached, just when no append fails or
the file takes less than one record from the first that does. -/
theorem append_atomic_iff (before : List Byte) (calls : List (SpinorReceipt × Io)) :
    (∀ n, Atomic before ((Ran.opened before).after (calls.take n))) ↔
      Safe (calls.map Prod.snd) := (clean_opened before).after_iff

/-- The first write of an append fails and the next append succeeds: the file then has both
records, and the second is not at its offset. -/
theorem append_leaks : ¬ ∀ (before : List Byte) (calls : List (SpinorReceipt × Io)),
    Atomic before ((Ran.opened before).after calls) := by
  intro h
  have hlast := (h [] [(mintedReceipt 0 0 0, ⟨[.failed], true⟩),
    (mintedReceipt 1 0 0, ⟨[], true⟩)]).file_length
  exact absurd hlast (by decide)

end ShannonPrime.Ledger
