import ShannonPrime.Ledger.Replay

/-!
The second reader of the ledger, `broadcast_to_peers`. It fills a buffer of one record from
reads that may come short, from any record boundary on, and gives all the receipts or one error;
the iterator's items collected are the same, however the reads are cut.
-/

namespace ShannonPrime.Ledger

/-- A file handle: the bytes from its position on, and how many the next reads deliver at
most. -/
structure Reader where
  rest : List Byte
  reads : List Nat

/-- `read` of at most `want` bytes. One at least comes, while there are any. -/
def Reader.read (s : Reader) (want : Nat) : List Byte × Reader :=
  let n := min want (max 1 (s.reads.headD want))
  (s.rest.take n, { rest := s.rest.drop n, reads := s.reads.tail })

/-- What comes is what stands in front, and nothing comes at the end only. -/
theorem Reader.read_spec (f : Reader) {want : Nat} (hwant : 0 < want) :
    f.rest = (f.read want).1 ++ (f.read want).2.rest ∧ (f.read want).1.length ≤ want ∧
      ((f.read want).1 = [] → f.rest = []) := by
  refine ⟨(List.take_append_drop _ _).symm, ?_, fun hnil => ?_⟩
  · exact (List.length_take_le _ _).trans (min_le_left _ _)
  · rcases List.take_eq_nil_iff.mp hnil with hzero | hrest
    · omega
    · exact hrest

/-- The loop that fills the buffer: what it has and the handle, at the end of the file or when
the record is whole. -/
def fill (filled : List Byte) (f : Reader) : List Byte × Reader :=
  if _hroom : filled.length < receiptBytes then
    if _hmore : (f.read (receiptBytes - filled.length)).1 ≠ [] then
      fill (filled ++ (f.read (receiptBytes - filled.length)).1)
        (f.read (receiptBytes - filled.length)).2
    else (filled, (f.read (receiptBytes - filled.length)).2)
  else (filled, f)
termination_by receiptBytes - filled.length
decreasing_by
  have hpos := List.length_pos_iff.mpr _hmore
  rw [List.length_append]
  omega

/-- However the reads are cut, the buffer gets what comes next in the file. -/
theorem fill_spec (filled : List Byte) (f : Reader) :
    (fill filled f).1 = filled ++ f.rest.take (receiptBytes - filled.length) ∧
      (fill filled f).2.rest = f.rest.drop (receiptBytes - filled.length) := by
  fun_induction fill filled f with
  | case1 filled f hroom hmore ih =>
      have hwant : 0 < receiptBytes - filled.length := by omega
      obtain ⟨hsplit, hle, -⟩ := f.read_spec hwant
      generalize f.read (receiptBytes - filled.length) = out at hsplit hle ih ⊢
      have hleft : receiptBytes - (filled ++ out.1).length =
          receiptBytes - filled.length - out.1.length := by
        rw [List.length_append, Nat.sub_sub]
      rw [hleft] at ih
      rw [ih.1, ih.2, hsplit, List.take_append, List.drop_append, List.take_of_length_le hle,
        List.drop_eq_nil_of_le hle, List.append_assoc, List.nil_append]
      exact ⟨rfl, rfl⟩
  | case2 filled f hroom hmore =>
      have hwant : 0 < receiptBytes - filled.length := by omega
      obtain ⟨hsplit, -, hend⟩ := f.read_spec hwant
      rw [not_not] at hmore
      rw [hmore, hend hmore] at hsplit
      rw [hend hmore, List.nil_append] at *
      simp [← hsplit]
  | case3 filled f hroom =>
      have hzero : receiptBytes - filled.length = 0 := by omega
      simp [hzero]

inductive ReadOutcome where
  | full (buf : SpinorReceipt)
  | eof
  | partialTail (filled : Nat)

/-- `read_exact_or_eof` -/
def readExactOrEof (f : Reader) : ReadOutcome × Reader :=
  let out := fill [] f
  (if h : out.1.length = receiptBytes then .full ⟨out.1, h⟩
    else if out.1 = [] then .eof
    else .partialTail out.1.length, out.2)

/-- A whole record, nothing, or less than a record. -/
theorem readExactOrEof_cases (f : Reader) :
    (∃ r f', f.rest = r.asBytes ++ f'.rest ∧ readExactOrEof f = (.full r, f')) ∨
      (∃ f', f.rest = [] ∧ readExactOrEof f = (.eof, f')) ∨
      ∃ f', f.rest ≠ [] ∧ f.rest.length < receiptBytes ∧
        readExactOrEof f = (.partialTail f.rest.length, f') := by
  obtain ⟨hfilled, hrest⟩ := fill_spec [] f
  rw [List.nil_append, List.length_nil, Nat.sub_zero] at hfilled
  rw [List.length_nil, Nat.sub_zero] at hrest
  have hlength : (fill [] f).1.length = min receiptBytes f.rest.length := by
    rw [hfilled, List.length_take]
  rcases Nat.lt_or_ge f.rest.length receiptBytes with hshort | hlong
  · have hne : ¬ (fill [] f).1.length = receiptBytes := by omega
    have hall : (fill [] f).1 = f.rest := by rw [hfilled, List.take_of_length_le hshort.le]
    by_cases hnil : f.rest = []
    · refine .inr (.inl ⟨(fill [] f).2, hnil, ?_⟩)
      rw [readExactOrEof, dif_neg hne, if_pos (hall.trans hnil)]
    · refine .inr (.inr ⟨(fill [] f).2, hnil, hshort, ?_⟩)
      rw [readExactOrEof, dif_neg hne, if_neg (by rw [hall]; exact hnil), hall]
  · have heq : (fill [] f).1.length = receiptBytes := by omega
    refine .inl ⟨⟨(fill [] f).1, heq⟩, (fill [] f).2, ?_, ?_⟩
    · change f.rest = (fill [] f).1 ++ (fill [] f).2.rest
      rw [hfilled, hrest, List.take_append_drop]
    · rw [readExactOrEof, dif_pos heq]

theorem rest_of_full {f f' : Reader} {r : SpinorReceipt}
    (h : readExactOrEof f = (.full r, f')) : f.rest = r.asBytes ++ f'.rest := by
  rcases readExactOrEof_cases f with ⟨r', f₁, hsplit, hrun⟩ | ⟨f₁, -, hrun⟩ | ⟨f₁, -, -, hrun⟩
  · rw [h] at hrun
    cases hrun
    exact hsplit
  · rw [h] at hrun
    cases hrun
  · rw [h] at hrun
    cases hrun

theorem rest_of_eof {f f' : Reader} (h : readExactOrEof f = (.eof, f')) : f.rest = [] := by
  rcases readExactOrEof_cases f with ⟨r', f₁, -, hrun⟩ | ⟨f₁, hnil, -⟩ | ⟨f₁, -, -, hrun⟩
  · rw [h] at hrun
    cases hrun
  · exact hnil
  · rw [h] at hrun
    cases hrun

theorem rest_of_partial {f f' : Reader} {extra : Nat}
    (h : readExactOrEof f = (.partialTail extra, f')) :
    f.rest ≠ [] ∧ f.rest.length < receiptBytes ∧ extra = f.rest.length := by
  rcases readExactOrEof_cases f with ⟨r', f₁, -, hrun⟩ | ⟨f₁, -, hrun⟩ | ⟨f₁, hsome, hshort, hrun⟩
  · rw [h] at hrun
    cases hrun
  · rw [h] at hrun
    cases hrun
  · rw [h] at hrun
    cases hrun
    exact ⟨hsome, hshort, rfl⟩

theorem readExactOrEof_shorter {f f' : Reader} {r : SpinorReceipt}
    (h : readExactOrEof f = (.full r, f')) : f'.rest.length < f.rest.length := by
  rw [rest_of_full h, List.length_append, r.size, receiptBytes]
  omega

/-- The loop of `broadcast_to_peers`, and the index of the record it stops at. -/
def broadcastLoop (f : Reader) (idx : Nat) (out : List SpinorReceipt) :
    LedgerResult (List SpinorReceipt) × Nat :=
  match _hread : readExactOrEof f with
  | (.eof, _) => (.ok out, idx)
  | (.partialTail extra, _) => (.error (.partialTail extra), idx)
  | (.full buf, f') =>
      if buf.sentinel ≠ spinorSentinel then (.error (.badSentinel idx buf.sentinel), idx)
      else broadcastLoop f' (idx + 1) (out ++ [buf])
termination_by f.rest.length
decreasing_by exact readExactOrEof_shorter _hread

inductive BroadcastError where
  | io (message : String)
  | ledger (e : LedgerError)

/-- `broadcast_to_peers` of a file whose reads are cut as `reads` says. -/
def broadcastToPeers (file : List Byte) (reads : List Nat) (since_offset : Nat) :
    Except BroadcastError (List SpinorReceipt) × Nat :=
  if since_offset % receiptBytes ≠ 0 then
    (.error (.io
      s!"broadcast_to_peers: since_offset={since_offset} not a multiple of {receiptBytes}"), 0)
  else
    let run := broadcastLoop { rest := file.drop since_offset, reads }
      (since_offset / receiptBytes) []
    (run.1.mapError .ledger, run.2)

/-- The iterator after its last item. -/
def LedgerIter.last (it : LedgerIter) : LedgerIter :=
  match _hnext : it.next with
  | none => it
  | some (_, it') => it'.last
termination_by it.left
decreasing_by exact LedgerIter.next_left _hnext

theorem LedgerIter.last_none {it : LedgerIter} (h : it.next = none) : it.last = it := by
  rw [LedgerIter.last]
  split
  case h_1 => rfl
  case h_2 x it' hsome =>
      rw [h] at hsome
      cases hsome

theorem LedgerIter.last_some {it it' : LedgerIter} {x : LedgerResult SpinorReceipt}
    (h : it.next = some (x, it')) : it.last = it'.last := by
  rw [LedgerIter.last]
  split
  case h_1 hnone =>
      rw [h] at hnone
      cases hnone
  case h_2 y it₁ hsome =>
      rw [h, Option.some_inj, Prod.mk.injEq] at hsome
      rw [hsome.2]

theorem last_nil (index : Nat) : (LedgerIter.mk [] index false).last.index = index := by
  rw [LedgerIter.last_none rfl]

theorem last_finished (file : List Byte) (index : Nat) :
    (LedgerIter.mk file index true).last.index = index := by
  rw [LedgerIter.last_none rfl]

theorem last_short {file : List Byte} (index : Nat) (hsome : file ≠ [])
    (hshort : file.length < receiptBytes) :
    (LedgerIter.mk file index false).last.index = index := by
  have hpos : ¬file.length = 0 := by
    rw [List.length_eq_zero_iff]
    exact hsome
  have hnext : (LedgerIter.mk file index false).next =
      some (.error (.partialTail file.length), ⟨file, index, true⟩) := by
    simp only [LedgerIter.next, Bool.false_eq_true, if_false, if_neg hpos, dif_pos hshort]
  rw [LedgerIter.last_some hnext, last_finished]

theorem last_record (r : SpinorReceipt) (rest : List Byte) (index : Nat) :
    (LedgerIter.mk (r.asBytes ++ rest) index false).last.index =
      if r.sentinelOk then (LedgerIter.mk rest (index + 1) false).last.index else index := by
  have hnext := next_record r rest index
  split
  case isTrue hok =>
      rw [if_pos hok] at hnext
      rw [LedgerIter.last_some hnext]
  case isFalse hbad =>
      rw [if_neg hbad] at hnext
      rw [LedgerIter.last_some hnext, last_finished]

theorem sentinelOk_iff (r : SpinorReceipt) : r.sentinelOk = true ↔ r.sentinel = spinorSentinel := by
  simp [SpinorReceipt.sentinelOk]

/-- The loop does to a file what the iterator does, and collects. -/
theorem broadcastLoop_eq (f : Reader) (idx : Nat) (out : List SpinorReceipt) :
    broadcastLoop f idx out =
      ((collect (LedgerIter.mk f.rest idx false).items).map (out ++ ·),
        (LedgerIter.mk f.rest idx false).last.index) := by
  fun_induction broadcastLoop f idx out with
  | case1 f idx out f' hread =>
      rw [rest_of_eof hread, items_nil, last_nil]
      simp [collect, Except.map]
  | case2 f idx out extra f' hread =>
      obtain ⟨hsome, hshort, rfl⟩ := rest_of_partial hread
      rw [items_short idx hsome hshort, last_short idx hsome hshort]
      rfl
  | case3 f idx out buf f' hread hbad =>
      rw [rest_of_full hread, items_record, last_record, if_neg (mt (sentinelOk_iff buf).mp hbad),
        if_neg (mt (sentinelOk_iff buf).mp hbad)]
      rfl
  | case4 f idx out buf f' hread hgood ih =>
      have hok := (sentinelOk_iff buf).mpr (not_not.mp hgood)
      rw [rest_of_full hread, items_record, last_record, if_pos hok, if_pos hok, ih, collect]
      cases collect (LedgerIter.mk f'.rest (idx + 1) false).items with
      | error e => rfl
      | ok rs => simp [Except.map]

/-- From a record boundary on, the receipts are those of an iterator that starts there. -/
theorem broadcastToPeers_eq (file : List Byte) (reads : List Nat) (k : Nat) :
    broadcastToPeers file reads (receiptBytes * k) =
      ((collect (LedgerIter.mk (file.drop (receiptBytes * k)) k false).items).mapError .ledger,
        (LedgerIter.mk (file.drop (receiptBytes * k)) k false).last.index) := by
  have hindex : receiptBytes * k / receiptBytes = k := Nat.mul_div_cancel_left k (by decide)
  rw [broadcastToPeers, if_neg (by rw [Nat.mul_mod_right]; decide), hindex, broadcastLoop_eq]
  cases collect (LedgerIter.mk (file.drop (receiptBytes * k)) k false).items with
  | error e => rfl
  | ok rs => simp [Except.map]

/-- A file ends, ends within a record, or has a record in front. -/
theorem file_cases (file : List Byte) :
    file = [] ∨ (file ≠ [] ∧ file.length < receiptBytes) ∨
      ∃ (r : SpinorReceipt) (rest : List Byte), file = r.asBytes ++ rest := by
  rcases Nat.lt_or_ge file.length receiptBytes with hshort | hlong
  · rcases eq_or_ne file [] with hnil | hsome
    · exact .inl hnil
    · exact .inr (.inl ⟨hsome, hshort⟩)
  · have hlength : (file.take receiptBytes).length = receiptBytes := by
      rw [List.length_take]
      omega
    exact .inr (.inr ⟨⟨file.take receiptBytes, hlength⟩, file.drop receiptBytes,
      (List.take_append_drop _ _).symm⟩)

/-- Past items without an error, the iterator goes on at the boundary behind their records. -/
theorem items_drop {file : List Byte} {index k : Nat}
    (hk : k ≤ (LedgerIter.mk file index false).items.length)
    (hok : ∀ x ∈ (LedgerIter.mk file index false).items.take k, ∃ r, x = .ok r) :
    (LedgerIter.mk (file.drop (receiptBytes * k)) (index + k) false).items =
        (LedgerIter.mk file index false).items.drop k ∧
      (LedgerIter.mk (file.drop (receiptBytes * k)) (index + k) false).last.index =
        (LedgerIter.mk file index false).last.index := by
  induction k generalizing file index with
  | zero => simp
  | succ k ih =>
      rcases file_cases file with rfl | ⟨hsome, hshort⟩ | ⟨r, rest, rfl⟩
      · rw [items_nil, List.length_nil] at hk
        omega
      · rw [items_short index hsome hshort] at hok
        obtain ⟨r, hr⟩ := hok _ List.mem_cons_self
        cases hr
      · rw [items_record] at hk hok ⊢
        rw [last_record]
        by_cases hsound : r.sentinelOk = true
        · rw [if_pos hsound] at hk hok ⊢
          rw [List.length_cons] at hk
          rw [List.take_succ_cons] at hok
          have hrest := @ih rest (index + 1) (by omega)
            fun x hx => hok x (List.mem_cons_of_mem _ hx)
          have hskip : (r.asBytes ++ rest).drop (receiptBytes * (k + 1)) =
              rest.drop (receiptBytes * k) := by
            rw [Nat.mul_succ, Nat.add_comm, ← List.drop_drop, List.drop_left' r.size]
          have hplace : index + (k + 1) = index + 1 + k := by omega
          rw [hskip, hplace, List.drop_succ_cons, if_pos hsound]
          exact hrest
        · rw [if_neg hsound] at hok
          obtain ⟨r', hr'⟩ := hok _ List.mem_cons_self
          cases hr'

/-- The broadcaster gives what collecting the iterator's items gives, and stops at the same
record, whatever the file holds and however its reads are cut; from a boundary that the iterator
reaches it gives what is left of the items. -/
theorem broadcast_collects (file : List Byte) (reads : List Nat) :
    broadcastToPeers file reads 0 =
        ((collect (iter file)).mapError .ledger, (LedgerIter.mk file 0 false).last.index) ∧
      ∀ k, k ≤ (iter file).length → (∀ x ∈ (iter file).take k, ∃ r, x = .ok r) →
        broadcastToPeers file reads (receiptBytes * k) =
          ((collect ((iter file).drop k)).mapError .ledger,
            (LedgerIter.mk file 0 false).last.index) := by
  constructor
  · exact broadcastToPeers_eq file reads 0
  · intro k hk hok
    have hdrop := items_drop hk hok
    rw [Nat.zero_add] at hdrop
    rw [broadcastToPeers_eq, hdrop.1, hdrop.2]
    rfl

/-- A receipt and one byte more. -/
def tornFile : List Byte := (mintedReceipt 0 1 7).asBytes ++ [0]

theorem iter_tornFile : iter tornFile = [.ok (mintedReceipt 0 1 7), .error (.partialTail 1)] := by
  rw [iter, tornFile, items_record, if_pos (by decide), items_short _ (by decide) (by decide)]
  rfl

/-- The iterator gives the receipt before its error, the broadcaster the error alone. -/
theorem broadcast_drops_receipt : okItems (iter tornFile) = [mintedReceipt 0 1 7] ∧
    ∀ rs, (broadcastToPeers tornFile [] 0).1 ≠ .ok rs := by
  have hrun := broadcastToPeers_eq tornFile [] 0
  change broadcastToPeers tornFile [] 0 = ((collect (iter tornFile)).mapError .ledger, _) at hrun
  rw [iter_tornFile] at hrun ⊢
  refine ⟨rfl, fun rs h => ?_⟩
  rw [hrun] at h
  cases h

end ShannonPrime.Ledger
