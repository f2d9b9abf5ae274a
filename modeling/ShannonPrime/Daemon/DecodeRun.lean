import ShannonPrime.Daemon.StopStrings

/-!
Runs of the decode buffer in which no push finds a stop. What has been emitted is the well-formed
prefix of the stream less the bytes held back: nothing is lost and no character is cut, but behind
a malformed byte nothing is emitted any more.
-/

namespace ShannonPrime.Daemon

open Search Utf8

namespace TokenDecodeBuffer

/-- What the pushes emit, one after the other, and the buffer after them, as long as none finds a
stop. -/
def pushAll (t : TokenDecodeBuffer) :
    List (List UInt8) → Option (List (List UInt8) × TokenDecodeBuffer)
  | [] => some ([], t)
  | bytes :: later =>
      match t.push bytes with
      | (t', .emit out) => (t'.pushAll later).map fun r => (out :: r.1, r.2)
      | (_, .stopped _) => none

variable {t t' : TokenDecodeBuffer} {stops outs : List (List UInt8)}
  {chunks : List (List UInt8)} {hold : Nat} {seen out bytes more : List UInt8}

/-- How much of a buffer is emitted. -/
def emitEnd (buf : List UInt8) (hold : Nat) : Nat := validUtf8UpTo (buf.take (buf.length - hold))

/-- A push that finds no stop emits the well-formed prefix of what is not held back. -/
theorem push_emit (h : t.push bytes = (t', .emit more)) :
    more = (t.buf ++ bytes).take (emitEnd (t.buf ++ bytes) t.hold) ∧
      t' = { t with buf := (t.buf ++ bytes).drop (emitEnd (t.buf ++ bytes) t.hold) } := by
  rw [push] at h
  dsimp only at h
  split at h
  · cases h
  · split at h
    · rename_i hshort
      have hzero : emitEnd (t.buf ++ bytes) t.hold = 0 := by
        rw [emitEnd, Nat.sub_eq_zero_of_le hshort]
        rfl
      rw [hzero]
      cases h
      exact ⟨rfl, rfl⟩
    · split at h
      · rename_i hzero
        rw [emitEnd, hzero]
        cases h
        exact ⟨rfl, rfl⟩
      · cases h
        exact ⟨rfl, rfl⟩

/-- The buffer after the stream `seen`, of which `out` has been emitted. -/
structure Streams (t : TokenDecodeBuffer) (hold : Nat) (seen out : List UInt8) : Prop where
  kept : t.hold = hold
  split : out ++ t.buf = seen
  upTo : out.length = emitEnd seen hold

theorem streams_new (stops : List (List UInt8)) : (new stops).Streams (new stops).hold [] [] := by
  refine ⟨rfl, rfl, ?_⟩
  rw [emitEnd, List.take_nil]
  rfl

theorem Streams.valid (h : t.Streams hold seen out) : Valid out := by
  have hle := validUtf8UpTo_le (seen.take (seen.length - hold))
  rw [List.length_take] at hle
  have hout : out = (seen.take (seen.length - hold)).take (emitEnd seen hold) := by
    rw [List.take_take, Nat.min_eq_left (by rw [emitEnd]; omega), ← h.upTo, ← h.split,
      List.take_left]
  rw [hout]
  exact valid_take _

theorem Streams.retained (h : t.Streams hold seen out) :
    t.buf.length = seen.length - emitEnd seen hold := by
  rw [← h.upTo, ← h.split, List.length_append, Nat.add_sub_cancel_left]

/-- One push. -/
theorem Streams.push (h : t.Streams hold seen out) (hpush : t.push bytes = (t', .emit more)) :
    t'.Streams hold (seen ++ bytes) (out ++ more) ∧ Valid more := by
  obtain ⟨rfl, rfl⟩ := push_emit hpush
  have hle := validUtf8UpTo_le (seen.take (seen.length - hold))
  have hupTo := h.upTo
  rw [emitEnd] at hupTo
  rw [List.length_take] at hle
  -- what is not held back, behind what has been emitted
  have hsplit : seen ++ bytes = out ++ (t.buf ++ bytes) := by
    rw [← List.append_assoc, h.split]
  have htake : (seen ++ bytes).take ((seen ++ bytes).length - hold) =
      out ++ (t.buf ++ bytes).take ((t.buf ++ bytes).length - hold) := by
    have hmono : seen.length ≤ out.length + (t.buf ++ bytes).length := by
      rw [← List.length_append, ← hsplit, List.length_append]
      exact Nat.le_add_right _ _
    rw [hsplit, List.length_append, List.take_append, List.take_of_length_le (by omega)]
    congr 2
    omega
  have hvalid : emitEnd (seen ++ bytes) hold = out.length + emitEnd (t.buf ++ bytes) hold := by
    rw [emitEnd, htake, h.valid.append]
    rfl
  have hend := validUtf8UpTo_le ((t.buf ++ bytes).take ((t.buf ++ bytes).length - t.hold))
  rw [List.length_take] at hend
  refine ⟨⟨h.kept, ?_, ?_⟩, ?_⟩
  · rw [List.append_assoc, List.take_append_drop, hsplit]
  · rw [hvalid, List.length_append, List.length_take, h.kept]
    rw [h.kept] at hend
    rw [emitEnd]
    omega
  · have htext := valid_take ((t.buf ++ bytes).take ((t.buf ++ bytes).length - t.hold))
    rw [List.take_take, Nat.min_eq_left (by omega)] at htext
    exact htext

/-- A run. -/
theorem Streams.pushAll (h : t.Streams hold seen out)
    (hrun : t.pushAll chunks = some (outs, t')) :
    t'.Streams hold (seen ++ chunks.flatten) (out ++ outs.flatten) ∧
      ∀ more ∈ outs, Valid more := by
  induction chunks generalizing t seen out outs with
  | nil =>
      cases hrun
      rw [List.flatten_nil, List.append_nil, List.append_nil]
      exact ⟨h, fun more hmore => absurd hmore List.not_mem_nil⟩
  | cons bytes later ih =>
      rw [TokenDecodeBuffer.pushAll] at hrun
      split at hrun
      · rename_i next more hpush
        obtain ⟨hnext, hvalid⟩ := h.push hpush
        obtain ⟨⟨rest, last⟩, hlater, heq⟩ := Option.map_eq_some_iff.mp hrun
        cases heq
        obtain ⟨hlast, hall⟩ := ih hnext hlater
        rw [List.append_assoc, List.append_assoc] at hlast
        exact ⟨hlast, List.forall_mem_cons.mpr ⟨hvalid, hall⟩⟩
      · cases hrun

/-- A run goes on through a stream without a stop. -/
theorem Holds.pushAll (h : t.Holds stops seen out) (habsent : Absent stops (seen ++ chunks.flatten))
    (hne : ∀ stop ∈ stops, stop ≠ []) : ∃ outs t', t.pushAll chunks = some (outs, t') := by
  induction chunks generalizing t seen out with
  | nil => exact ⟨[], t, rfl⟩
  | cons bytes later ih =>
      rw [List.flatten_cons, ← List.append_assoc] at habsent
      obtain ⟨next, more, hpush, hnext⟩ := h.push_emit hne
        ((cut_eq_none hne).mpr (habsent.start hne))
      obtain ⟨outs, last, hrun⟩ := ih hnext habsent
      refine ⟨more :: outs, last, ?_⟩
      rw [TokenDecodeBuffer.pushAll, hpush]
      dsimp only
      rw [hrun]
      rfl

end TokenDecodeBuffer

open TokenDecodeBuffer

/-- After each push of a run all but the bytes held back and one incomplete character has been
emitted. -/
def Live (stops chunks : List (List UInt8)) : Prop :=
  ∀ before outs t, before <+: chunks → (new stops).pushAll before = some (outs, t) →
    t.buf.length ≤ (new stops).hold + 3

/-- The stream less its last bytes is a well-formed text and at most three bytes more. -/
def WellFormedBut (hold : Nat) (stream : List UInt8) : Prop :=
  ∃ text tail, stream.take (stream.length - hold) = text ++ tail ∧ Valid text ∧ tail.length ≤ 3

section Runs

variable {stops chunks outs : List (List UInt8)} {t : TokenDecodeBuffer}

/-- What a run retains is what is held back and what stands behind the well-formed prefix. -/
theorem retained_le_iff (h : (new stops).pushAll chunks = some (outs, t)) :
    t.buf.length ≤ (new stops).hold + 3 ↔
      (chunks.flatten.take (chunks.flatten.length - (new stops).hold)).length ≤
        emitEnd chunks.flatten (new stops).hold + 3 := by
  obtain ⟨hstreams, -⟩ := (streams_new stops).pushAll h
  rw [List.nil_append] at hstreams
  have hle := validUtf8UpTo_le
    (chunks.flatten.take (chunks.flatten.length - (new stops).hold))
  rw [List.length_take] at hle ⊢
  rw [hstreams.retained, emitEnd]
  omega

/-- A run without a stop keeps emitting exactly when the stream is well-formed up to its end: what
is malformed keeps everything behind it. -/
theorem live_iff (h : (new stops).pushAll chunks = some (outs, t)) :
    Live stops chunks ↔ WellFormedBut (new stops).hold chunks.flatten := by
  constructor
  · intro hlive
    exact exists_valid_iff.mpr ((retained_le_iff h).mp (hlive chunks outs t (List.prefix_rfl) h))
  · rintro hformed before outs' t' ⟨later, rfl⟩ hbefore
    refine (retained_le_iff hbefore).mpr (validUtf8UpTo_start ?_ (exists_valid_iff.mp hformed))
    have hlen : before.flatten.length - (new stops).hold ≤
        (before ++ later).flatten.length - (new stops).hold := by
      rw [List.flatten_append, List.length_append]
      omega
    have hstart : before.flatten.take (before.flatten.length - (new stops).hold) =
        (before ++ later).flatten.take (before.flatten.length - (new stops).hold) := by
      rw [List.flatten_append, List.take_append_of_le_length (Nat.sub_le _ _)]
    rw [hstart]
    exact List.take_prefix_take_left hlen

/-- A stream of ASCII bytes, one of which may begin a stop. -/
theorem live_ascii : Live [asciiBytes ['#', '#']] [asciiBytes ['a', '#'], asciiBytes ['b']] ↔
    WellFormedBut 1 (asciiBytes ['a', '#', 'b']) :=
  @live_iff [asciiBytes ['#', '#']] [asciiBytes ['a', '#'], asciiBytes ['b']] _ _ rfl

/-- Behind a byte that begins no character nothing is emitted: after five bytes five are kept,
where one is held back. -/
theorem malformed_not_live :
    (∃ outs t, (new [asciiBytes ['#', '#']]).pushAll [0xFF :: asciiBytes ['a', 'b', 'c', 'd']] =
      some (outs, t)) ∧
    ¬Live [asciiBytes ['#', '#']] [0xFF :: asciiBytes ['a', 'b', 'c', 'd']] := by
  refine ⟨⟨_, _, rfl⟩, fun hlive => ?_⟩
  exact absurd (hlive _ _ _ List.prefix_rfl rfl) (by decide)

/-- In a stream without a stop nothing is lost and nothing repeated, in bytes and as it is read
chunk by chunk, and what is emitted is whole characters. -/
theorem decode_lossless (stops chunks : List (List UInt8)) (h : Absent stops chunks.flatten) :
    ∃ outs t, (new stops).pushAll chunks = some (outs, t) ∧
      outs.flatten ++ t.flush = chunks.flatten ∧
      outs.flatMap fromUtf8Lossy ++ fromUtf8Lossy t.flush = fromUtf8Lossy chunks.flatten ∧
      ∀ out ∈ outs, ∃ text, fromUtf8 out = some text := by
  have hne : ∀ stop ∈ stops, stop ≠ [] := by
    rintro stop hmem rfl
    exact h [] hmem 0 List.nil_prefix
  obtain ⟨outs, t, hrun⟩ := (holds_new hne).pushAll h hne
  obtain ⟨hstreams, hvalid⟩ := (streams_new stops).pushAll hrun
  rw [List.nil_append, List.nil_append] at hstreams
  have hsplit : outs.flatten ++ t.buf = chunks.flatten := hstreams.split
  refine ⟨outs, t, hrun, hsplit, ?_, fun out hout => ⟨fromUtf8Lossy out, if_pos (hvalid out hout)⟩⟩
  rw [← hsplit, ← fromUtf8Lossy_flatten hvalid, hstreams.valid.fromUtf8Lossy_append]
  rfl

/-- A character of two bytes that comes in two pushes. -/
theorem decode_lossless_accent :
    ∃ outs t, (new [asciiBytes ['#', '#']]).pushAll [[0xC3], 0xA9 :: asciiBytes ['!']] =
        some (outs, t) ∧
      outs.flatten ++ t.flush = [0xC3, 0xA9, 0x21] ∧
      outs.flatMap fromUtf8Lossy ++ fromUtf8Lossy t.flush = fromUtf8Lossy [0xC3, 0xA9, 0x21] ∧
      ∀ out ∈ outs, ∃ text, fromUtf8 out = some text :=
  decode_lossless [asciiBytes ['#', '#']] [[0xC3], 0xA9 :: asciiBytes ['!']]
    ((cut_eq_none (by decide)).mp rfl)

end Runs

end ShannonPrime.Daemon
