import Mathlib.Data.List.Basic

/-!
A buffered writer over a file whose writes may be short or fail, as the standard library of
Rust has it: what a failed flush did not write stays in the buffer.
-/

namespace ShannonPrime.BufWriter

/-- What one write of the file comes to; one of no bytes is an error to the writer. -/
inductive WriteResult where
  | wrote (n : Nat)
  | interrupted
  | failed
  deriving DecidableEq, Repr

variable {α : Type*}

/-- What a loop of writes leaves: whether all was written, the file, what is left of the bytes,
and the results of the writes to come. -/
structure Flushed (α : Type*) where
  ok : Bool
  file : List α
  left : List α
  rest : List WriteResult

/-- `flush_buf`, and `write_all` of the file: writes until nothing is left or one fails. A write
whose result is not given takes all. -/
def writeLoop (file left : List α) : List WriteResult → Flushed α
  | [] => ⟨true, file ++ left, [], []⟩
  | .wrote n :: ws =>
      if left.isEmpty then ⟨true, file, left, .wrote n :: ws⟩
      else if n = 0 then ⟨false, file, left, ws⟩
      else writeLoop (file ++ left.take n) (left.drop n) ws
  | .interrupted :: ws =>
      if left.isEmpty then ⟨true, file, left, .interrupted :: ws⟩ else writeLoop file left ws
  | .failed :: ws =>
      if left.isEmpty then ⟨true, file, left, .failed :: ws⟩ else ⟨false, file, left, ws⟩

structure Writer (α : Type*) where
  file : List α
  buf : List α

/-- `write_all` of the writer, whose buffer holds `cap`. -/
def writeAll (cap : Nat) (w : Writer α) (data : List α) (results : List WriteResult) :
    Bool × Writer α × List WriteResult :=
  if data.length < cap - w.buf.length then (true, ⟨w.file, w.buf ++ data⟩, results)
  else
    let flushed :=
      if data.length > cap - w.buf.length then writeLoop w.file w.buf results
      else ⟨true, w.file, w.buf, results⟩
    if flushed.ok then
      if data.length ≥ cap then
        let written := writeLoop flushed.file data flushed.rest
        (written.ok, ⟨written.file, flushed.left⟩, written.rest)
      else (true, ⟨flushed.file, flushed.left ++ data⟩, flushed.rest)
    else (false, ⟨flushed.file, flushed.left⟩, flushed.rest)

/-- How many of `want` bytes the writes take before one fails. -/
def taken : Nat → List WriteResult → Nat
  | want, [] => want
  | want, .wrote n :: ws => if n = 0 then 0 else min n want + taken (want - n) ws
  | want, .interrupted :: ws => taken want ws
  | _, .failed :: _ => 0

theorem taken_le (want : Nat) (ws : List WriteResult) : taken want ws ≤ want := by
  induction want, ws using taken.induct with
  | case1 want => exact Nat.le_refl _
  | case2 want ws =>
      rw [taken, if_pos rfl]
      exact Nat.zero_le _
  | case3 want n ws hn ih =>
      rw [taken, if_neg hn]
      omega
  | case4 want ws ih => exact ih
  | case5 want ws => exact Nat.zero_le _

/-- Fewer bytes are taken as far as more would be. -/
theorem taken_min {a b : Nat} (hab : a ≤ b) (ws : List WriteResult) :
    taken a ws = min a (taken b ws) := by
  induction ws generalizing a b with
  | nil => exact (Nat.min_eq_left hab).symm
  | cons w ws ih =>
      cases w with
      | wrote n =>
          have hrest := ih (Nat.sub_le_sub_right hab n)
          rw [taken, taken]
          split
          · exact (Nat.min_zero a).symm
          · omega
      | interrupted => exact ih hab
      | failed => exact (Nat.min_zero a).symm

/-- The loop writes what is taken, and is done when that is all. -/
theorem writeLoop_eq (file left : List α) (ws : List WriteResult) :
    ∃ rest, writeLoop file left ws =
      ⟨taken left.length ws == left.length, file ++ left.take (taken left.length ws),
        left.drop (taken left.length ws), rest⟩ := by
  have hdone : ∀ {file left : List α} {k : Nat} (rest : List WriteResult), left.isEmpty = true →
      k ≤ left.length → (⟨true, file, left, rest⟩ : Flushed α) =
        ⟨k == left.length, file ++ left.take k, left.drop k, rest⟩ := by
    intro file left k rest hempty hk
    rw [List.isEmpty_iff.mp hempty] at hk ⊢
    rw [List.take_nil, List.drop_nil, List.append_nil,
      beq_iff_eq.mpr (show k = ([] : List α).length from Nat.le_zero.mp hk)]
  have hstop : ∀ {file left : List α} (rest : List WriteResult), ¬ left.isEmpty = true →
      (⟨false, file, left, rest⟩ : Flushed α) =
        ⟨0 == left.length, file ++ left.take 0, left.drop 0, rest⟩ := by
    intro file left rest hsome
    have hlen : 0 ≠ left.length := by
      intro hzero
      exact hsome (List.isEmpty_iff.mpr (List.length_eq_zero_iff.mp hzero.symm))
    rw [beq_eq_false_iff_ne.mpr hlen, List.take_zero, List.append_nil, List.drop_zero]
  induction ws generalizing file left with
  | nil =>
      refine ⟨[], ?_⟩
      rw [writeLoop, taken, List.take_length, List.drop_length, beq_self_eq_true]
  | cons w ws ih =>
      have hle := taken_le left.length (w :: ws)
      cases w with
      | wrote n =>
          rw [writeLoop]
          split
          · rename_i hempty
            exact ⟨_, hdone _ hempty hle⟩
          · rename_i hsome
            rw [taken]
            split
            · exact ⟨_, hstop _ hsome⟩
            · obtain ⟨rest, hrest⟩ := ih (file ++ left.take n) (left.drop n)
              refine ⟨rest, hrest.trans ?_⟩
              rw [List.length_drop, List.append_assoc, List.drop_drop]
              rcases Nat.le_total n left.length with hshort | hlong
              · have hall : (taken (left.length - n) ws == left.length - n) =
                    (n + taken (left.length - n) ws == left.length) := by
                  rw [Bool.eq_iff_iff, beq_iff_eq, beq_iff_eq]
                  omega
                rw [Nat.min_eq_left hshort, List.take_add, hall]
              · rw [Nat.sub_eq_zero_of_le hlong, Nat.le_zero.mp (taken_le 0 ws), List.take_zero,
                  List.append_nil, Nat.add_zero, Nat.add_zero, Nat.min_eq_right hlong,
                  List.take_of_length_le hlong, List.take_length, List.drop_length,
                  List.drop_of_length_le hlong, beq_self_eq_true, beq_self_eq_true]
      | interrupted =>
          rw [writeLoop]
          split
          · rename_i hempty
            exact ⟨_, hdone _ hempty hle⟩
          · exact ih file left
      | failed =>
          rw [writeLoop]
          split
          · rename_i hempty
            exact ⟨_, hdone _ hempty hle⟩
          · rename_i hsome
            exact ⟨_, hstop _ hsome⟩

variable {cap : Nat} {w : Writer α} {data : List α} {results : List WriteResult}

/-- Bytes that fit are put into the buffer. -/
theorem writeAll_roomy (results : List WriteResult) (hcap : data.length < cap)
    (h : data.length ≤ cap - w.buf.length) :
    writeAll cap w data results = (true, ⟨w.file, w.buf ++ data⟩, results) := by
  rw [writeAll]
  split
  · rfl
  · dsimp only
    rw [if_neg (Nat.not_lt.mpr h), if_pos rfl, if_neg (Nat.not_le.mpr hcap)]

/-- A buffer without room is written first. -/
theorem writeAll_full (results : List WriteResult) (hcap : data.length < cap)
    (h : cap - w.buf.length < data.length) :
    ∃ rest, writeAll cap w data results =
      if taken w.buf.length results = w.buf.length then (true, ⟨w.file ++ w.buf, data⟩, rest)
      else (false, ⟨w.file ++ w.buf.take (taken w.buf.length results),
        w.buf.drop (taken w.buf.length results)⟩, rest) := by
  obtain ⟨rest, hloop⟩ := writeLoop_eq w.file w.buf results
  refine ⟨rest, ?_⟩
  rw [writeAll, if_neg (by omega)]
  dsimp only
  rw [if_pos h, hloop]
  dsimp only
  split
  · rename_i hall
    rw [if_pos (beq_iff_eq.mp hall), beq_iff_eq.mp hall, if_neg (Nat.not_le.mpr hcap),
      List.take_length, List.drop_length, List.nil_append]
  · rename_i hall
    rw [if_neg fun heq => hall (beq_iff_eq.mpr heq)]

end ShannonPrime.BufWriter
