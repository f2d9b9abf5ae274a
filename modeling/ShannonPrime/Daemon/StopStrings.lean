import ShannonPrime.Lib.Search
import ShannonPrime.Lib.Utf8

/-!
The decode buffer (`TokenDecodeBuffer`): the bytes of the tokens go in, text comes out up
to a stop string. The buffer looks for the stops in the order of their list and cuts at the
first one it finds, which need not be the one that begins first; it keeps back as many bytes
as a stop that is not complete can have, and does not cut a character.
-/

namespace ShannonPrime.Daemon

open Search Utf8

/-- `windows(n)`: every run of `n` bytes. -/
def windows (n : Nat) (haystack : List UInt8) : List (List UInt8) :=
  (List.range (haystack.length + 1 - n)).map fun i => (haystack.drop i).take n

def memmem (haystack needle : List UInt8) : Option Nat :=
  if needle.isEmpty then some 0
  else (windows needle.length haystack).findIdx? fun w => w == needle

inductive PushResult where
  | emit (out : List UInt8)
  | stopped (out : List UInt8)
  deriving DecidableEq

structure TokenDecodeBuffer where
  buf : List UInt8
  stopBytes : List (List UInt8)
  hold : Nat

namespace TokenDecodeBuffer

/-- `new`, of the bytes of the stop strings. -/
def new (stopStrings : List (List UInt8)) : TokenDecodeBuffer where
  buf := []
  stopBytes := stopStrings
  hold := (stopStrings.map List.length).max?.getD 0 - 1

def push (t : TokenDecodeBuffer) (bytes : List UInt8) : TokenDecodeBuffer × PushResult :=
  let buf := t.buf ++ bytes
  match t.stopBytes.findSome? fun stop => memmem buf stop with
  | some pos => ({ t with buf := [] }, .stopped (buf.take pos))
  | none =>
      if buf.length ≤ t.hold then ({ t with buf := buf }, .emit [])
      else
        let emitEnd := validUtf8UpTo (buf.take (buf.length - t.hold))
        if emitEnd = 0 then ({ t with buf := buf }, .emit [])
        else ({ t with buf := buf.drop emitEnd }, .emit (buf.take emitEnd))

def flush (t : TokenDecodeBuffer) : List UInt8 := t.buf

/-- The decode loop over the bytes of the tokens: it emits what comes out and leaves at a
stop; the rest is flushed after it. -/
def decodeFrom (t : TokenDecodeBuffer) : List (List UInt8) → List UInt8
  | [] => t.flush
  | bytes :: later =>
      match t.push bytes with
      | (t', .emit out) => out ++ t'.decodeFrom later
      | (t', .stopped out) => out ++ t'.flush

end TokenDecodeBuffer

/-- All that is emitted. -/
def decode (stops chunks : List (List UInt8)) : List UInt8 :=
  (TokenDecodeBuffer.new stops).decodeFrom chunks

end ShannonPrime.Daemon

/-!
What the decode buffer emits for a stream, however the stream is cut into tokens. The bytes
kept back are enough that no stop is ever cut by what has been emitted, so the buffer sees a
stop as soon as the stream up to then has one; the cut depends on the tokens only through
which stops the stream has at that moment.
-/

namespace ShannonPrime.Daemon

open Search Utf8

/-! ## The search -/

section Memmem

variable {haystack needle : List UInt8} {i : Nat}

theorem window_eq (h : i < (windows needle.length haystack).length) :
    ((windows needle.length haystack)[i] == needle) = true ↔ OccursAt needle haystack i := by
  simp only [windows, List.getElem_map, List.getElem_range, beq_iff_eq]
  rw [OccursAt, List.prefix_iff_eq_take, eq_comm]

theorem lt_windows (hne : needle ≠ []) (h : OccursAt needle haystack i) :
    i < (windows needle.length haystack).length := by
  have hfits := h.fits hne
  simp only [windows, List.length_map, List.length_range]
  omega

theorem memmem_eq_some (hne : needle ≠ []) :
    memmem haystack needle = some i ↔ FirstAt needle haystack i := by
  have hnonempty : ¬needle.isEmpty = true := fun h => hne (List.isEmpty_iff.mp h)
  rw [memmem, if_neg hnonempty, List.findIdx?_eq_some_iff_getElem]
  constructor
  · rintro ⟨hi, hhere, hbefore⟩
    refine ⟨(window_eq hi).mp hhere, fun j hj hocc => ?_⟩
    exact hbefore j hj ((window_eq (lt_windows hne hocc)).mpr hocc)
  · rintro ⟨hhere, hbefore⟩
    have hi := lt_windows hne hhere
    refine ⟨hi, (window_eq hi).mpr hhere, fun j hj hocc => ?_⟩
    exact hbefore j hj ((window_eq (by omega)).mp hocc)

theorem memmem_eq_none (hne : needle ≠ []) :
    memmem haystack needle = none ↔ ∀ i, ¬OccursAt needle haystack i := by
  have hnonempty : ¬needle.isEmpty = true := fun h => hne (List.isEmpty_iff.mp h)
  rw [memmem, if_neg hnonempty, List.findIdx?_eq_none_iff]
  constructor
  · intro hall i hocc
    have hi := lt_windows hne hocc
    have hfalse := hall _ (List.getElem_mem hi)
    rw [(window_eq hi).mpr hocc] at hfalse
    cases hfalse
  · intro hnone w hw
    obtain ⟨i, hi, rfl⟩ := List.getElem_of_mem hw
    rw [Bool.eq_false_iff]
    intro hhere
    exact hnone i ((window_eq hi).mp hhere)

end Memmem

/-- Where the buffer cuts a text that it has whole. -/
def cut (stops : List (List UInt8)) (text : List UInt8) : Option Nat :=
  stops.findSome? fun stop => memmem text stop

section Cut

variable {stops : List (List UInt8)} {text rest : List UInt8} {i : Nat}

theorem cut_eq_none (hne : ∀ stop ∈ stops, stop ≠ []) :
    cut stops text = none ↔ Absent stops text := by
  rw [cut, List.findSome?_eq_none_iff]
  constructor
  · intro h stop hmem
    exact (memmem_eq_none (hne stop hmem)).mp (h stop hmem)
  · intro h stop hmem
    exact (memmem_eq_none (hne stop hmem)).mpr (h stop hmem)

/-- The cut is at the first occurrence of the first stop in the list that occurs. -/
theorem exists_of_cut_eq_some (hne : ∀ stop ∈ stops, stop ≠ []) (h : cut stops text = some i) :
    ∃ listed stop later, stops = listed ++ stop :: later ∧ Absent listed text ∧
      FirstAt stop text i := by
  obtain ⟨listed, stop, later, hsplit, hcut, hnone⟩ := List.findSome?_eq_some_iff.mp h
  subst hsplit
  refine ⟨listed, stop, later, rfl, ?_, ?_⟩
  · intro earlier hmem
    have hmem' : earlier ∈ listed ++ stop :: later := List.mem_append_left _ hmem
    exact (memmem_eq_none (hne earlier hmem')).mp (hnone earlier hmem)
  · exact (memmem_eq_some (hne stop (by simp))).mp hcut

/-- What has been emitted makes no difference to the search while every stop begins
behind it. -/
theorem memmem_drop {stop : List UInt8} {k : Nat} (hne : stop ≠ [])
    (hbehind : ∀ i, OccursAt stop text i → k ≤ i) :
    memmem text stop = (memmem (text.drop k) stop).map (k + ·) := by
  cases hdrop : memmem (text.drop k) stop with
  | none =>
      rw [Option.map_none, memmem_eq_none hne]
      intro i hocc
      have hk := hbehind i hocc
      have hnone := (memmem_eq_none hne).mp hdrop (i - k)
      rw [occursAt_drop, Nat.add_sub_cancel' hk] at hnone
      exact hnone hocc
  | some i =>
      obtain ⟨hhere, hbefore⟩ := (memmem_eq_some hne).mp hdrop
      rw [Option.map_some, memmem_eq_some hne]
      refine ⟨occursAt_drop.mp hhere, fun j hj hocc => ?_⟩
      have hk := hbehind j hocc
      apply hbefore (j - k) (by omega)
      rw [occursAt_drop, Nat.add_sub_cancel' hk]
      exact hocc

theorem cut_drop {k : Nat} (hne : ∀ stop ∈ stops, stop ≠ [])
    (hbehind : ∀ stop ∈ stops, ∀ i, OccursAt stop text i → k ≤ i) :
    cut stops text = (cut stops (text.drop k)).map (k + ·) := by
  induction stops with
  | nil => rfl
  | cons stop stops ih =>
      have hrest := ih (fun s hs => hne s (List.mem_cons_of_mem _ hs))
        (fun s hs => hbehind s (List.mem_cons_of_mem _ hs))
      have hhead := memmem_drop (hne stop List.mem_cons_self) (hbehind stop List.mem_cons_self)
      simp only [cut, List.findSome?_cons] at hrest ⊢
      rw [hhead]
      cases memmem (text.drop k) stop with
      | none => exact hrest
      | some i => rfl

end Cut

/-! ## Runs of the buffer -/

/-- What is emitted when the stream up to now is `seen` and has no stop. -/
def emitted (stops : List (List UInt8)) : List UInt8 → List (List UInt8) → List UInt8
  | seen, [] => seen
  | seen, bytes :: later =>
      match cut stops (seen ++ bytes) with
      | some pos => (seen ++ bytes).take pos
      | none => emitted stops (seen ++ bytes) later

namespace TokenDecodeBuffer

theorem length_le_hold {stops : List (List UInt8)} {stop : List UInt8} (hmem : stop ∈ stops) :
    stop.length ≤ (new stops).hold + 1 := by
  have hlen : stop.length ∈ stops.map List.length := List.mem_map_of_mem hmem
  have hle : stop.length ≤ (stops.map List.length).max?.getD 0 := by
    cases hmax : (stops.map List.length).max? with
    | none =>
        rw [List.max?_eq_none_iff] at hmax
        rw [hmax] at hlen
        cases hlen
    | some m => exact (List.max?_eq_some_iff.mp hmax).2 _ hlen
  simp only [new]
  omega

/-- The buffer after the text `seen`, of which `out` has been emitted. -/
structure Holds (t : TokenDecodeBuffer) (stops : List (List UInt8)) (seen out : List UInt8) :
    Prop where
  stopBytes : t.stopBytes = stops
  hold : t.hold = (new stops).hold
  split : out ++ t.buf = seen
  behind : out.length ≤ seen.length - t.hold
  absent : Absent stops seen

variable {t : TokenDecodeBuffer} {stops : List (List UInt8)} {seen out bytes : List UInt8}

theorem Holds.drop (h : t.Holds stops seen out) :
    t.buf ++ bytes = (seen ++ bytes).drop out.length := by
  rw [← h.split, List.append_assoc, List.drop_left]

/-- The buffer finds what a search of the whole text finds. -/
theorem Holds.cut_eq (h : t.Holds stops seen out) (hne : ∀ stop ∈ stops, stop ≠ []) :
    cut stops (seen ++ bytes) = (cut stops (t.buf ++ bytes)).map (out.length + ·) := by
  rw [h.drop]
  apply cut_drop hne
  intro stop hmem i hocc
  have hreach := h.absent.reaches hmem hocc
  have hlen := length_le_hold hmem
  have hbehind := h.behind
  rw [h.hold] at hbehind
  omega

/-- A push that finds no stop. -/
theorem Holds.push_emit (h : t.Holds stops seen out) (hne : ∀ stop ∈ stops, stop ≠ [])
    (hnone : cut stops (seen ++ bytes) = none) :
    ∃ t' more, t.push bytes = (t', .emit more) ∧ t'.Holds stops (seen ++ bytes) (out ++ more) := by
  have hbuf : cut t.stopBytes (t.buf ++ bytes) = none := by
    rw [h.cut_eq hne, Option.map_eq_none_iff] at hnone
    rw [h.stopBytes, hnone]
  have habsent := (cut_eq_none hne).mp hnone
  have hsplit : out ++ (t.buf ++ bytes) = seen ++ bytes := by
    rw [← List.append_assoc, h.split]
  have hlen : (seen ++ bytes).length = out.length + (t.buf ++ bytes).length := by
    rw [← hsplit, List.length_append]
  have hbehind := h.behind
  have hkept : ({ t with buf := t.buf ++ bytes } : TokenDecodeBuffer).Holds stops
      (seen ++ bytes) (out ++ []) := by
    refine ⟨h.stopBytes, h.hold, ?_, ?_, habsent⟩
    · rw [List.append_nil, hsplit]
    · simp only [List.append_nil, List.length_append]
      omega
  unfold push
  rw [cut] at hbuf
  simp only [hbuf]
  split
  · exact ⟨_, _, rfl, hkept⟩
  · rename_i hlong
    split
    · exact ⟨_, _, rfl, hkept⟩
    · refine ⟨_, _, rfl, h.stopBytes, h.hold, ?_, ?_, habsent⟩
      · rw [List.append_assoc, List.take_append_drop, hsplit]
      · have hle := validUtf8UpTo_le
          ((t.buf ++ bytes).take ((t.buf ++ bytes).length - t.hold))
        rw [List.length_take] at hle
        rw [List.length_append, List.length_take, hlen]
        dsimp only
        omega

/-- A push that finds a stop. -/
theorem Holds.push_stopped (h : t.Holds stops seen out) (hne : ∀ stop ∈ stops, stop ≠ [])
    {pos : Nat} (hsome : cut stops (seen ++ bytes) = some pos) :
    ∃ t' more, t.push bytes = (t', .stopped more) ∧ t'.buf = [] ∧
      out ++ more = (seen ++ bytes).take pos := by
  rw [h.cut_eq hne, Option.map_eq_some_iff] at hsome
  obtain ⟨i, hi, rfl⟩ := hsome
  rw [← h.stopBytes, cut] at hi
  unfold push
  simp only [hi]
  refine ⟨_, _, rfl, rfl, ?_⟩
  rw [h.drop]
  have hprefix : out = (seen ++ bytes).take out.length := by
    rw [← h.split, List.append_assoc, List.take_left]
  calc out ++ ((seen ++ bytes).drop out.length).take i
      = (seen ++ bytes).take out.length ++ ((seen ++ bytes).drop out.length).take i := by
        rw [← hprefix]
    _ = (seen ++ bytes).take (out.length + i) := (List.take_add ..).symm

theorem Holds.decodeFrom (h : t.Holds stops seen out) (hne : ∀ stop ∈ stops, stop ≠ [])
    (chunks : List (List UInt8)) : out ++ t.decodeFrom chunks = emitted stops seen chunks := by
  induction chunks generalizing t seen out with
  | nil => exact h.split
  | cons bytes later ih =>
      rw [TokenDecodeBuffer.decodeFrom, emitted]
      cases hcut : cut stops (seen ++ bytes) with
      | none =>
          obtain ⟨t', more, hpush, h'⟩ := h.push_emit hne hcut
          rw [hpush]
          dsimp only
          rw [← List.append_assoc]
          exact ih h'
      | some pos =>
          obtain ⟨t', more, hpush, hempty, hout⟩ := h.push_stopped hne hcut
          rw [hpush]
          dsimp only
          rw [flush, hempty, List.append_nil]
          exact hout

end TokenDecodeBuffer

section Streams

variable {stops : List (List UInt8)} {stream : List UInt8}

theorem holds_new (hne : ∀ stop ∈ stops, stop ≠ []) :
    (TokenDecodeBuffer.new stops).Holds stops [] [] := by
  refine ⟨rfl, rfl, rfl, Nat.zero_le _, fun stop hmem i hocc => hne stop hmem ?_⟩
  rw [OccursAt, List.drop_nil] at hocc
  exact List.prefix_nil.mp hocc

theorem decode_eq (hne : ∀ stop ∈ stops, stop ≠ []) (chunks : List (List UInt8)) :
    decode stops chunks = emitted stops [] chunks :=
  (holds_new hne).decodeFrom hne chunks

/-- A stop whose first occurrence begins after the earliest occurrence of any stop has one
listed before it that occurs there and ends no later. -/
def Covered (stops : List (List UInt8)) (stream : List UInt8) : Prop :=
  ∀ listed stop later first earliest, stops = listed ++ stop :: later →
    FirstAt stop stream first → EarliestAt stops stream earliest → earliest < first →
      ∃ before ∈ listed, OccursAt before stream earliest ∧
        earliest + before.length ≤ first + stop.length

/-- The text before the earliest stop, the whole stream where there is none. -/
def BeforeStop (stops : List (List UInt8)) (stream out : List UInt8) : Prop :=
  (∃ earliest, EarliestAt stops stream earliest ∧ out = stream.take earliest) ∨
    (Absent stops stream ∧ out = stream)

/-- However the stream is cut into tokens, what comes out is the same, it is the text before
the earliest stop, and it has no stop. -/
structure ChunkIndependent (stops : List (List UInt8)) (stream : List UInt8) : Prop where
  same : ∀ chunks chunks', chunks.flatten = stream → chunks'.flatten = stream →
    decode stops chunks = decode stops chunks'
  before : ∀ chunks, chunks.flatten = stream → BeforeStop stops stream (decode stops chunks)
  clean : ∀ chunks, chunks.flatten = stream → Absent stops (decode stops chunks)

theorem BeforeStop.absent {out : List UInt8} (h : BeforeStop stops stream out)
    (hne : ∀ stop ∈ stops, stop ≠ []) : Absent stops out := by
  rcases h with ⟨earliest, hearliest, rfl⟩ | ⟨habsent, rfl⟩
  · exact hearliest.absent_take hne
  · exact habsent

theorem BeforeStop.unique {out out' : List UInt8} (h : BeforeStop stops stream out)
    (h' : BeforeStop stops stream out') : out = out' := by
  rcases h with ⟨e, he, rfl⟩ | ⟨habsent, rfl⟩
  · rcases h' with ⟨e', he', rfl⟩ | ⟨habsent', rfl⟩
    · rw [he.unique he']
    · exact absurd habsent' he.not_absent
  · rcases h' with ⟨e', he', rfl⟩ | ⟨habsent', rfl⟩
    · exact absurd habsent he'.not_absent
    · rfl

/-- In a covered stream the buffer cuts at the earliest stop, whatever it has of it. -/
theorem Covered.cut (h : Covered stops stream) (hne : ∀ stop ∈ stops, stop ≠ [])
    {seen rest : List UInt8} (hsplit : stream = seen ++ rest) {pos : Nat}
    (hcut : cut stops seen = some pos) : EarliestAt stops stream pos := by
  subst hsplit
  obtain ⟨listed, stop, later, hstops, habsent, hfirst⟩ := exists_of_cut_eq_some hne hcut
  have hmem : stop ∈ stops := by simp [hstops]
  have hfirst' := hfirst.append rest (hne stop hmem)
  obtain ⟨earliest, hearliest⟩ : ∃ e, EarliestAt stops (seen ++ rest) e :=
    exists_earliestAt fun hnone => hnone stop hmem pos hfirst'.1
  rcases Nat.lt_trichotomy earliest pos with hlt | rfl | hlt
  · obtain ⟨before, hbefore, hocc, hends⟩ :=
      h listed stop later pos earliest hstops hfirst' hearliest hlt
    have hfits := hfirst.1.fits (hne stop hmem)
    exact absurd (hocc.of_append (by omega)) (habsent before hbefore earliest)
  · exact hearliest
  · exact absurd hfirst'.1 (hearliest.2 pos hlt stop hmem)

theorem Covered.emitted (h : Covered stops stream) (hne : ∀ stop ∈ stops, stop ≠ [])
    (chunks : List (List UInt8)) {seen : List UInt8} (hsplit : stream = seen ++ chunks.flatten)
    (habsent : Absent stops seen) :
    BeforeStop stops stream (emitted stops seen chunks) := by
  induction chunks generalizing seen with
  | nil =>
      rw [List.flatten_nil, List.append_nil] at hsplit
      rw [hsplit]
      exact Or.inr ⟨habsent, rfl⟩
  | cons bytes later ih =>
      have hsplit' : stream = (seen ++ bytes) ++ later.flatten := by
        rw [hsplit, List.flatten_cons, List.append_assoc]
      rw [Daemon.emitted]
      cases hcut : Daemon.cut stops (seen ++ bytes) with
      | none => exact ih hsplit' ((cut_eq_none hne).mp hcut)
      | some pos =>
          left
          refine ⟨pos, h.cut hne hsplit' hcut, ?_⟩
          obtain ⟨listed, stop, _, hstops, -, hfirst⟩ := exists_of_cut_eq_some hne hcut
          have hfits := hfirst.1.fits (hne stop (by simp [hstops]))
          rw [hsplit', List.take_append_of_le_length (by omega)]

theorem Covered.chunkIndependent (h : Covered stops stream)
    (hne : ∀ stop ∈ stops, stop ≠ []) : ChunkIndependent stops stream := by
  have hbefore : ∀ chunks : List (List UInt8), chunks.flatten = stream →
      BeforeStop stops stream (decode stops chunks) := by
    intro chunks hchunks
    rw [decode_eq hne]
    apply h.emitted hne chunks hchunks.symm
    intro stop hmem i hocc
    rw [OccursAt, List.drop_nil] at hocc
    exact hne stop hmem (List.prefix_nil.mp hocc)
  exact ⟨fun chunks chunks' hchunks hchunks' =>
    (hbefore chunks hchunks).unique (hbefore chunks' hchunks'), hbefore,
    fun chunks hchunks => (hbefore chunks hchunks).absent hne⟩

/-- A stream cut behind a stop shows where the buffer cuts it. -/
theorem ChunkIndependent.cut (h : ChunkIndependent stops stream)
    (hne : ∀ stop ∈ stops, stop ≠ []) {seen rest : List UInt8} (hsplit : stream = seen ++ rest)
    {pos earliest : Nat} (hcut : cut stops seen = some pos)
    (hearliest : EarliestAt stops stream earliest) : pos = earliest := by
  subst hsplit
  have hout : decode stops [seen, rest] = seen.take pos := by
    rw [decode_eq hne, emitted, List.nil_append, hcut]
  have hbefore := h.before [seen, rest] (by simp)
  rw [hout] at hbefore
  rcases hbefore with ⟨e, he, htake⟩ | ⟨habsent, -⟩
  · rw [← he.unique hearliest]
    obtain ⟨listed, stop, _, hstops, -, hfirst⟩ := exists_of_cut_eq_some hne hcut
    have hfits := hfirst.1.fits (hne stop (by simp [hstops]))
    obtain ⟨⟨n, hn, hocc⟩, -⟩ := he
    have hfits' := hocc.fits (hne n hn)
    have hlen := congrArg List.length htake
    rw [List.length_take, List.length_take] at hlen
    rw [List.length_append] at hlen hfits'
    omega
  · exact absurd habsent hearliest.not_absent

/-- What comes out is the text before the earliest stop for every cutting into tokens exactly
when each stop that begins later has one listed before it that is complete by then. -/
theorem stops_chunk_independent_iff (stops : List (List UInt8)) (stream : List UInt8)
    (hne : ∀ stop ∈ stops, stop ≠ []) :
    ChunkIndependent stops stream ↔ Covered stops stream := by
  constructor
  · intro h listed stop later first earliest hstops hfirst hearliest hlt
    have hmem : stop ∈ stops := by simp [hstops]
    have hfits := hfirst.1.fits (hne stop hmem)
    -- the stream up to the end of the stop's first occurrence
    obtain ⟨seen, rest, hsplit, hlen⟩ : ∃ seen rest, stream = seen ++ rest ∧
        seen.length = first + stop.length :=
      ⟨stream.take (first + stop.length), _, (List.take_append_drop _ _).symm, by
        rw [List.length_take]
        omega⟩
    have hseen : FirstAt stop seen first := by
      rw [hsplit] at hfirst
      refine ⟨hfirst.1.of_append (by omega), fun j hj hocc => hfirst.2 j hj ?_⟩
      exact hocc.append rest (by omega)
    cases hcut : cut stops seen with
    | none => exact absurd hseen.1 ((cut_eq_none hne).mp hcut stop hmem first)
    | some pos =>
        have hpos := h.cut hne hsplit hcut hearliest
        rw [hpos, cut, hstops, List.findSome?_append] at hcut
        cases hlisted : listed.findSome? fun s => memmem seen s with
        | none =>
            rw [hlisted, Option.none_or, List.findSome?_cons,
              (memmem_eq_some (hne stop hmem)).mpr hseen] at hcut
            rw [← Option.some_inj.mp hcut] at hlt
            exact absurd hlt (Nat.lt_irrefl _)
        | some found =>
            rw [hlisted, Option.some_or] at hcut
            rw [hcut] at hlisted
            obtain ⟨before, hbefore, hat⟩ := List.exists_of_findSome?_eq_some hlisted
            have hbefore' : before ∈ stops := by simp [hstops, hbefore]
            have hocc := ((memmem_eq_some (hne before hbefore')).mp hat).1
            have hends := hocc.fits (hne before hbefore')
            refine ⟨before, hbefore, ?_, by omega⟩
            rw [hsplit]
            exact hocc.append rest (by omega)
  · intro h
    exact h.chunkIndependent hne

end Streams

/-- A single stop string is always covered. -/
theorem covered_singleton (stop stream : List UInt8) : Covered [stop] stream := by
  intro listed stop' later first earliest hstops hfirst hearliest hlt
  obtain ⟨⟨n, hn, hocc⟩, -⟩ := hearliest
  cases listed with
  | nil =>
      obtain ⟨rfl, -⟩ := List.cons.inj hstops
      rw [List.mem_singleton.mp hn] at hocc
      exact absurd hocc (hfirst.2 earliest hlt)
  | cons _ listed => simp at hstops

/-- The bytes of an ASCII text. -/
def asciiBytes (text : List Char) : List UInt8 := text.map fun c => c.toUInt8

/-- One stop string in a stream that has it twice. -/
theorem single_stop_independent :
    ChunkIndependent [asciiBytes ['#', '#']] (asciiBytes ['a', '#', '#', 'b', '#', '#']) :=
  (stops_chunk_independent_iff _ _ (by decide)).mpr (covered_singleton _ _)

/-- The stops that open a user's line, in the order of `default_stops`. -/
def userStops : List (List UInt8) :=
  [asciiBytes ['\n', 'U', 's', 'e', 'r', ':'], asciiBytes ['\n', '\n', 'U', 's', 'e', 'r']]

/-- Pushed whole the text is cut at its second byte, pushed byte by byte at its first. -/
theorem user_line_cut_late :
    ¬ChunkIndependent userStops (asciiBytes ['\n', '\n', 'U', 's', 'e', 'r', ':']) := by
  intro h
  have hsame := h.same [asciiBytes ['\n', '\n', 'U', 's', 'e', 'r', ':']]
    ((asciiBytes ['\n', '\n', 'U', 's', 'e', 'r', ':']).map fun b => [b]) rfl rfl
  exact absurd hsame (by decide)

end ShannonPrime.Daemon
