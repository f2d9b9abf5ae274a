import ShannonPrime.Daemon.DecodeRun
import ShannonPrime.Memory.Store
import ShannonPrime.Recall.Select

/-!
The shadow copy that a chat turn keeps of its answer. The deltas go to the client as they
come, or are held until the draft has been tested; the copy is what the test, the grounding
check and the records read. Text that comes out with a stop string is delivered but not
copied, so the copy is exact when nothing is left to deliver by the time a stop is found.
-/

namespace ShannonPrime.Daemon.AnswerText

open Utf8 TokenDecodeBuffer Recall

/-- A round of the decode loop: the token sampled for it, and what goes wrong in it. -/
structure Round where
  token : Int
  /-- The client has left, which a send finds out. -/
  gone : Bool
  /-- The decode step fails. -/
  failed : Bool

structure Chat where
  /-- `decode_token` -/
  decodeToken : Int → List UInt8
  eosIds : List Int
  turnStopIds : List Int
  stops : List (List UInt8)
  /-- The episode that the judge injected, and its text. -/
  judgeGround : Option (String × List Char)
  /-- `SP_SPECTEST` is 1. -/
  spectestOn : Bool
  recalledText : Option (List Char)
  rawUser : Option (List Char)
  /-- The verdict of the test head, where it scored. -/
  headVeto : Option Bool

structure Decode where
  decBuf : TokenDecodeBuffer
  answerText : List Char
  /-- The deltas handed to the client. -/
  sent : List (List Char)
  held : List (List Char)

/-- The deltas that were emitted or held for emission. -/
def Decode.deltas (s : Decode) : List (List Char) := s.sent ++ s.held

/-- `SPECTEST_STOP` -/
def spectestStop : List (List Char) :=
  ["the", "and", "for", "that", "with", "this", "from", "are", "was", "were", "your", "you",
    "have", "will", "when", "which", "what", "into", "over", "each", "now"].map String.toList

/-- The `STOP` of the grounding check. -/
def groundStop : List (List Char) :=
  ["the", "and", "for", "that", "with", "this", "from", "are", "was", "were", "authorizes",
    "requires", "access", "code", "recovery", "using", "your", "you", "have", "will", "when",
    "which", "what", "into", "over", "each"].map String.toList

section Checks

variable (u : Unicode)

/-- The words of four bytes or more, in lower case. -/
def longWords (text : List Char) : List (List Char) :=
  ((text.splitOnP fun c => !u.isAlphanumeric c).filter fun w => 4 ≤ byteLen w).map u.toLowercase

/-- How many of the words the answer uses. -/
def nUsed (salient : List (List Char)) (answer : List Char) : Nat :=
  salient.countP fun w => Memory.containsText w (u.toLowercase answer)

/-- The grounding check of the judge. -/
def grounded (memText answer : List Char) : Bool :=
  let salient := (longWords u memText).filter fun w => !groundStop.contains w
  salient.isEmpty || 0 < nUsed u salient answer

end Checks

namespace Chat

variable (u : Unicode) (c : Chat)

def spectest (c : Chat) : Bool := c.spectestOn && c.recalledText.isSome

def fact (c : Chat) : List Char := c.recalledText.getD []

/-- No word of the fact that the user did not say is in the draft. -/
def lexicalUngrounded (answer : List Char) : Bool :=
  let userLc := u.toLowercase (c.rawUser.getD [])
  let salient := ((longWords u c.fact).filter fun w => !spectestStop.contains w).filter fun w =>
    !Memory.containsText w userLc
  !salient.isEmpty && nUsed u salient answer == 0

/-- The head decides where it scored. -/
def veto (answer : List Char) : Bool := c.headVeto.getD (c.lexicalUngrounded u answer)

/-! ### The decode loop -/

def ends (c : Chat) (token : Int) : Bool :=
  (!c.eosIds.isEmpty && c.eosIds.contains token) || c.turnStopIds.contains token

/-- The hard stop of a judged turn, at a newline or a backtick. -/
def halts (c : Chat) (token : Int) : Bool :=
  let tb := fromUtf8Lossy (c.decodeToken token)
  c.judgeGround.isSome && (tb.contains '\n' || tb.contains (Char.ofNat 0x60))

/-- A delta is held while the draft is untested, else it is sent. -/
def deliver (c : Chat) (text : List Char) (s : Decode) : Decode :=
  if c.spectest then { s with held := s.held ++ [text] } else { s with sent := s.sent ++ [text] }

def emit (c : Chat) (bytes : List UInt8) (s : Decode) : Decode :=
  if bytes.isEmpty then s
  else
    let text := fromUtf8Lossy bytes
    c.deliver text { s with answerText := s.answerText ++ text }

/-- The branch of a stop delivers, and leaves `answer_text` as it is. -/
def stop (c : Chat) (bytes : List UInt8) (s : Decode) : Decode :=
  if bytes.isEmpty then s else c.deliver (fromUtf8Lossy bytes) s

/-- The loop from a state; whether it returned because the client had left. -/
def loop (c : Chat) : List Round → Decode → Bool × Decode
  | [], s => (false, s)
  | r :: rounds, s =>
      if c.ends r.token then (false, s)
      else if c.halts r.token then (false, s)
      else
        match s.decBuf.push (c.decodeToken r.token) with
        | (decBuf, .stopped bytes) => (false, c.stop bytes { s with decBuf := decBuf })
        | (decBuf, .emit bytes) =>
            let s := c.emit bytes { s with decBuf := decBuf }
            if !bytes.isEmpty && !c.spectest && r.gone then (true, s)
            else if r.failed then (false, s)
            else c.loop rounds s

def flush (c : Chat) (s : Decode) : Decode :=
  c.emit s.decBuf.flush { s with decBuf := { s.decBuf with buf := [] } }

def start (c : Chat) : Decode := ⟨new c.stops, [], [], []⟩

/-! ### The answer -/

structure Outcome where
  /-- The copy that the draft's test reads, and the deltas of the draft. -/
  draft : List Char
  drafted : List (List Char)
  /-- The copy that the grounding check and the records read, and the deltas of the turn. -/
  answerText : List Char
  deltas : List (List Char)
  /-- The verdict of the grounding check. -/
  grounding : Option Bool

def fallback (c : Chat) : List Char := "From the record: ".toList ++ c.fact

/-- A veto drops the draft and answers from the record. Else what was held is released, of
which a client that leaves meanwhile misses the rest. -/
def decided (s : Decode) : List Char × List (List Char) :=
  if c.spectest && c.veto u s.answerText then (c.fallback, s.sent ++ [c.fallback])
  else (s.answerText, s.deltas)

def finish (s : Decode) : Outcome where
  draft := s.answerText
  drafted := s.deltas
  answerText := (c.decided u s).1
  deltas := (c.decided u s).2
  grounding := c.judgeGround.map fun g => grounded u g.2 (c.decided u s).1

/-- The copy is the text of the deltas, for the test of the draft and for what comes after. -/
def Outcome.Recorded (o : Outcome) : Prop :=
  o.draft = o.drafted.flatten ∧ o.answerText = o.deltas.flatten

/-- At whichever exit: a turn whose client has left is over, the others are flushed. -/
def RecordedAt : Bool × Decode → Prop
  | (true, s) => s.answerText = s.deltas.flatten
  | (false, s) => (c.finish u (c.flush s)).Recorded

def run (c : Chat) (rounds : List Round) : Bool × Decode := c.loop rounds c.start

/-! ### The condition -/

/-- What a stream without a stop leaves in the buffer. -/
def pending (stops : List (List UInt8)) (seen : List UInt8) : List UInt8 :=
  seen.drop (emitEnd seen (new stops).hold)

/-- The bytes of the tokens. -/
def spelled (c : Chat) (rounds : List Round) : List UInt8 :=
  rounds.flatMap fun r => c.decodeToken r.token

/-- The place of the stop that the round finds behind the stream `seen`. -/
def found (c : Chat) (seen : List UInt8) (r : Round) : Option Nat :=
  cut c.stops (pending c.stops seen ++ c.decodeToken r.token)

/-- Behind the stream `seen` the round goes on to the next one. -/
structure Passes (c : Chat) (seen : List UInt8) (r : Round) : Prop where
  goes : c.ends r.token = false
  plain : c.halts r.token = false
  unstopped : c.found seen r = none
  heard : c.spectest = true ∨ r.gone = false ∨
    emitEnd (seen ++ c.decodeToken r.token) (new c.stops).hold = emitEnd seen (new c.stops).hold
  stepped : r.failed = false

/-- The round that finds a stop, if the loop gets to one, finds it in front of all that has not
been emitted. -/
def BareStop (c : Chat) (seen : List UInt8) (rounds : List Round) : Prop :=
  ∀ before r later, rounds = before ++ r :: later →
    (∀ front x back, before = front ++ x :: back → c.Passes (seen ++ c.spelled front) x) →
      c.ends r.token = false → c.halts r.token = false →
        ∀ pos, c.found (seen ++ c.spelled before) r = some pos → pos = 0

/-! ### The buffer -/

theorem cut_nil {stops : List (List UInt8)} {pos : Nat} (h : cut stops [] = some pos) :
    pos = 0 := by
  obtain ⟨stop, _, hpos⟩ := List.exists_of_findSome?_eq_some h
  unfold memmem at hpos
  split at hpos
  case isTrue => exact (Option.some.inj hpos).symm
  case isFalse hne =>
    have hlength : ([] : List UInt8).length + 1 - stop.length = 0 := by
      have hpos : 0 < stop.length := List.length_pos_iff.mpr (by simpa using hne)
      rw [List.length_nil]
      omega
    rw [windows, hlength] at hpos
    cases hpos

section Buffer

variable {c : Chat} {seen bytes more : List UInt8}

/-- The buffer behind a stream without a stop. -/
def behind (c : Chat) (seen : List UInt8) : TokenDecodeBuffer :=
  { new c.stops with buf := pending c.stops seen }

theorem behind_streams (c : Chat) (seen : List UInt8) :
    (behind c seen).Streams (new c.stops).hold seen
      (seen.take (emitEnd seen (new c.stops).hold)) := by
  refine ⟨rfl, List.take_append_drop _ _, ?_⟩
  have hle := validUtf8UpTo_le (seen.take (seen.length - (new c.stops).hold))
  rw [List.length_take] at hle ⊢
  rw [emitEnd]
  omega

theorem push_stopped {pos : Nat} (h : cut c.stops (pending c.stops seen ++ bytes) = some pos) :
    (behind c seen).push bytes =
      ({ behind c seen with buf := [] }, .stopped ((pending c.stops seen ++ bytes).take pos)) := by
  unfold cut at h
  unfold push
  dsimp only [behind, new] at h ⊢
  rw [h]

theorem push_unstopped (t : TokenDecodeBuffer) (h : cut t.stopBytes (t.buf ++ bytes) = none) :
    ∃ next more, t.push bytes = (next, .emit more) := by
  rcases hpush : t.push bytes with ⟨next, more | out⟩
  · exact ⟨next, more, rfl⟩
  · unfold cut at h
    rw [push] at hpush
    dsimp only at hpush
    rw [h] at hpush
    dsimp only at hpush
    split at hpush
    case isTrue => cases hpush
    case isFalse => split at hpush <;> cases hpush

/-- A push that finds no stop goes on with the longer stream. -/
theorem push_emit_behind (h : cut c.stops (pending c.stops seen ++ bytes) = none) :
    ∃ more, (behind c seen).push bytes = (behind c (seen ++ bytes), .emit more) ∧
      (more = [] ↔
        emitEnd (seen ++ bytes) (new c.stops).hold = emitEnd seen (new c.stops).hold) := by
  obtain ⟨next, more, hpush⟩ := push_unstopped (behind c seen) h
  obtain ⟨hnext, _⟩ := (behind_streams c seen).push hpush
  obtain ⟨_, hset⟩ := TokenDecodeBuffer.push_emit hpush
  have hlength := (behind_streams c seen).upTo
  have hlength' := hnext.upTo
  rw [List.length_append, hlength] at hlength'
  refine ⟨more, ?_, ?_⟩
  · have hbuf : next.buf = pending c.stops (seen ++ bytes) := by
      rw [pending, ← hnext.upTo, ← hnext.split, List.drop_left]
    have hbehind : next = { behind c seen with buf := next.buf } := by
      rw [hset]
    rw [hpush, hbehind, hbuf]
    rfl
  · rw [← hlength', Nat.add_eq_left, List.length_eq_zero_iff]

end Buffer

/-! ### The run -/

section Run

variable {u : Unicode} {c : Chat} {s : Decode}

/-- The copy is exact, and the deltas all go one way. -/
structure Exact (c : Chat) (s : Decode) : Prop where
  copied : s.answerText = s.deltas.flatten
  unsent : c.spectest = true → s.sent = []
  unheld : c.spectest = false → s.held = []

theorem deliver_deltas (hunheld : c.spectest = false → s.held = []) (text : List Char) :
    (c.deliver text s).deltas = s.deltas ++ [text] := by
  unfold deliver Decode.deltas
  cases hspec : c.spectest with
  | true => rw [if_pos rfl, List.append_assoc]
  | false => rw [if_neg Bool.false_ne_true, hunheld hspec, List.append_nil, List.append_nil]

theorem Exact.emit (h : Exact c s) (bytes : List UInt8) : Exact c (c.emit bytes s) := by
  unfold Chat.emit
  split
  case isTrue => exact h
  case isFalse =>
    dsimp only
    constructor
    · rw [deliver_deltas (by exact h.unheld), List.flatten_append, List.flatten_singleton]
      unfold deliver
      split <;> exact congrArg (· ++ fromUtf8Lossy bytes) h.copied
    · intro hspec
      rw [deliver, if_pos hspec]
      exact h.unsent hspec
    · intro hspec
      rw [deliver, if_neg (by rw [hspec]; exact Bool.false_ne_true)]
      exact h.unheld hspec

theorem Exact.buf (h : Exact c s) (decBuf : TokenDecodeBuffer) :
    Exact c { s with decBuf := decBuf } :=
  ⟨h.copied, h.unsent, h.unheld⟩

theorem Exact.flush (h : Exact c s) : Exact c (c.flush s) := (h.buf _).emit _

theorem Exact.finish (h : Exact c s) : (c.finish u s).Recorded := by
  constructor
  · exact h.copied
  · change (c.decided u s).1 = (c.decided u s).2.flatten
    unfold decided
    split
    case isTrue hveto =>
      rw [h.unsent (Bool.and_eq_true_iff.mp hveto).1]
      exact (List.append_nil _).symm
    case isFalse => exact h.copied

/-- An exact copy is right at any exit. -/
theorem Exact.recordedAt (h : Exact c s) (left : Bool) : c.RecordedAt u (left, s) := by
  cases left with
  | true => exact h.copied
  | false => exact h.flush.finish

/-- What comes out with a stop is not in the copy. -/
theorem not_recorded_of_stop (h : Exact c s) (hbuf : s.decBuf.buf = []) {bytes : List UInt8}
    (hbytes : bytes ≠ []) : ¬ c.RecordedAt u (false, c.stop bytes s) := by
  have hstop : c.stop bytes s = c.deliver (fromUtf8Lossy bytes) s :=
    if_neg (by rwa [List.isEmpty_iff])
  have hanswer : (c.deliver (fromUtf8Lossy bytes) s).answerText = s.answerText := by
    unfold deliver
    split <;> rfl
  have hflushed : (c.deliver (fromUtf8Lossy bytes) s).decBuf.flush = [] := by
    unfold deliver TokenDecodeBuffer.flush
    split <;> exact hbuf
  rintro ⟨hdraft, _⟩
  change (c.flush (c.stop bytes s)).answerText = (c.flush (c.stop bytes s)).deltas.flatten at hdraft
  rw [hstop, Chat.flush, Chat.emit, hflushed] at hdraft
  change (c.deliver (fromUtf8Lossy bytes) s).answerText =
    (c.deliver (fromUtf8Lossy bytes) s).deltas.flatten at hdraft
  rw [hanswer, deliver_deltas h.unheld, h.copied, List.flatten_append, List.flatten_singleton,
    List.self_eq_append_right, fromUtf8Lossy_eq_nil] at hdraft
  exact hbytes hdraft

end Run

/-! ### The rounds -/

section Rounds

variable {u : Unicode} {c : Chat} {s : Decode} {seen : List UInt8} {r : Round} {rounds : List Round}

/-- Where the loop does not go on, the condition is about this round. -/
theorem bareStop_stuck (hstuck : ¬ c.Passes seen r) : c.BareStop seen (r :: rounds) ↔
    (c.ends r.token = false → c.halts r.token = false → ∀ pos, c.found seen r = some pos →
      pos = 0) := by
  constructor
  · intro h hgoes hplain pos hfound
    refine h [] r rounds rfl ?_ hgoes hplain pos ?_
    · intro front x back hnil
      exact absurd hnil (by simp)
    · rw [spelled, List.flatMap_nil, List.append_nil]
      exact hfound
  · rintro h (_ | ⟨x, before⟩) r' later hsplit hpasses
    · obtain ⟨rfl, _⟩ := List.cons.inj hsplit
      rw [spelled, List.flatMap_nil, List.append_nil]
      exact h
    · obtain ⟨rfl, _⟩ := List.cons.inj hsplit
      have hfirst := hpasses [] r before rfl
      rw [spelled, List.flatMap_nil, List.append_nil] at hfirst
      exact absurd hfirst hstuck

theorem bareStop_of_unstopped (hstuck : ¬ c.Passes seen r) (hfound : c.found seen r = none) :
    c.BareStop seen (r :: rounds) := by
  rw [bareStop_stuck hstuck]
  intro _ _ pos hpos
  rw [hfound] at hpos
  cases hpos

/-- Where the loop goes on, it is about the rounds behind. -/
theorem bareStop_step (hpass : c.Passes seen r) :
    c.BareStop seen (r :: rounds) ↔ c.BareStop (seen ++ c.decodeToken r.token) rounds := by
  have hspelled : ∀ front, seen ++ c.spelled (r :: front) =
      seen ++ c.decodeToken r.token ++ c.spelled front := by
    intro front
    rw [spelled, List.flatMap_cons, List.append_assoc]
    rfl
  constructor
  · intro h before x later hsplit hpasses
    rw [← hspelled]
    refine h (r :: before) x later (by rw [hsplit]; rfl) ?_
    rintro (_ | ⟨y, front⟩) z back hbefore
    · obtain ⟨rfl, _⟩ := List.cons.inj hbefore
      rw [spelled, List.flatMap_nil, List.append_nil]
      exact hpass
    · obtain ⟨rfl, hrest⟩ := List.cons.inj hbefore
      rw [hspelled]
      exact hpasses front z back hrest
  · rintro h (_ | ⟨y, before⟩) x later hsplit hpasses
    · obtain ⟨rfl, _⟩ := List.cons.inj hsplit
      rw [spelled, List.flatMap_nil, List.append_nil]
      intro _ _ pos hfound
      rw [hpass.unstopped] at hfound
      cases hfound
    · obtain ⟨rfl, hrest⟩ := List.cons.inj hsplit
      rw [hspelled]
      refine h before x later hrest ?_
      intro front z back hbefore
      rw [← hspelled]
      exact hpasses (r :: front) z back (by rw [hbefore]; rfl)

/-- The round that finds a stop. -/
theorem recordedAt_stop_iff (h : Exact c s) {pos : Nat} (hfound : c.found seen r = some pos) :
    c.RecordedAt u (false, c.stop ((pending c.stops seen ++ c.decodeToken r.token).take pos)
      { s with decBuf := { behind c seen with buf := [] } }) ↔ pos = 0 := by
  cases pos with
  | zero => exact iff_of_true ((h.buf _).recordedAt false) rfl
  | succ pos =>
      refine iff_of_false (not_recorded_of_stop (h.buf _) rfl ?_) (Nat.succ_ne_zero pos)
      intro hnil
      rw [List.take_eq_nil_iff] at hnil
      obtain hpos | hempty := hnil
      · cases hpos
      · rw [found, hempty] at hfound
        cases cut_nil hfound

/-- A round goes on when the client is there or is sent nothing. -/
theorem heard_of_sent {more : List UInt8}
    (hmore : more = [] ↔ emitEnd (seen ++ c.decodeToken r.token) (new c.stops).hold =
      emitEnd seen (new c.stops).hold) :
    (!more.isEmpty && !c.spectest && r.gone) = false ↔
      c.spectest = true ∨ r.gone = false ∨
        emitEnd (seen ++ c.decodeToken r.token) (new c.stops).hold =
          emitEnd seen (new c.stops).hold := by
  rw [← hmore, ← List.isEmpty_iff]
  cases c.spectest <;> cases r.gone <;> simp

/-- From an exact copy the loop ends with one exactly when the stop it ends at is bare. -/
theorem recordedAt_loop_iff (h : Exact c s) (hbuf : s.decBuf = behind c seen) :
    c.RecordedAt u (c.loop rounds s) ↔ c.BareStop seen rounds := by
  induction rounds generalizing s seen with
  | nil =>
      refine iff_of_true (h.recordedAt false) ?_
      intro before r later hnil
      exact absurd hnil (by simp)
  | cons r rounds ih =>
      rw [loop]
      split
      case isTrue hends =>
        rw [bareStop_stuck fun hpass => Bool.false_ne_true (hpass.goes.symm.trans hends)]
        refine iff_of_true (h.recordedAt false) fun hgoes => ?_
        exact absurd (hgoes.symm.trans hends) Bool.false_ne_true
      case isFalse hends =>
        split
        case isTrue hhalts =>
          rw [bareStop_stuck fun hpass => Bool.false_ne_true (hpass.plain.symm.trans hhalts)]
          refine iff_of_true (h.recordedAt false) fun _ hplain => ?_
          exact absurd (hplain.symm.trans hhalts) Bool.false_ne_true
        case isFalse hhalts =>
          have hgoes := Bool.eq_false_iff.mpr hends
          have hplain := Bool.eq_false_iff.mpr hhalts
          rw [hbuf]
          cases hfound : c.found seen r with
          | some pos =>
              rw [push_stopped hfound]
              dsimp only
              rw [recordedAt_stop_iff h hfound, bareStop_stuck fun hpass => by
                rw [hpass.unstopped] at hfound
                cases hfound]
              simp only [hgoes, hplain, hfound, Option.some.injEq, forall_const, forall_eq']
          | none =>
              obtain ⟨more, hpush, hmore⟩ := push_emit_behind hfound
              rw [hpush]
              dsimp only
              have hemit := (h.buf (behind c (seen ++ c.decodeToken r.token))).emit more
              split
              case isTrue hleft =>
                refine iff_of_true (hemit.recordedAt true) (bareStop_of_unstopped ?_ hfound)
                intro hpass
                have hstays := (heard_of_sent hmore).mpr hpass.heard
                exact Bool.false_ne_true (hstays.symm.trans hleft)
              case isFalse hleft =>
                split
                case isTrue hfailed =>
                  refine iff_of_true (hemit.recordedAt false) (bareStop_of_unstopped ?_ hfound)
                  exact fun hpass => Bool.false_ne_true (hpass.stepped.symm.trans hfailed)
                case isFalse hfailed =>
                  have hheard := (heard_of_sent hmore).mp (Bool.eq_false_iff.mpr hleft)
                  rw [bareStop_step ⟨hgoes, hplain, hfound, hheard, Bool.eq_false_iff.mpr hfailed⟩]
                  apply ih hemit
                  unfold Chat.emit deliver
                  split_ifs <;> rfl

end Rounds

theorem start_exact (c : Chat) : Exact c c.start := ⟨rfl, fun _ => rfl, fun _ => rfl⟩

theorem start_behind (c : Chat) : c.start.decBuf = behind c [] := by
  have hempty : pending c.stops [] = [] := List.drop_nil
  rw [behind, hempty]
  rfl

/-- The copy is the text that was delivered, at every exit of the loop, exactly when no text
comes out with a stop. -/
theorem answer_recorded_iff (u : Unicode) (c : Chat) (rounds : List Round) :
    c.RecordedAt u (c.run rounds) ↔ c.BareStop [] rounds :=
  recordedAt_loop_iff (start_exact c) (start_behind c)

/-- The grounding check is then a check of what was delivered. -/
theorem grounding_delivered {u : Unicode} {c : Chat} {s : Decode} (h : (c.finish u s).Recorded) :
    (c.finish u s).grounding =
      c.judgeGround.map fun g => grounded u g.2 (c.finish u s).deltas.flatten := by
  rw [← h.2]
  rfl

end Chat

/-! ### An answer that ends at a stop -/

/-- The answer is one word, and the stop string comes in two tokens. -/
def vaultChat : Chat where
  decodeToken id :=
    if id = 1 then asciiBytes "vault".toList
    else if id = 2 then asciiBytes "<end_of".toList
    else asciiBytes "_turn>".toList
  eosIds := [0]
  turnStopIds := []
  stops := [asciiBytes "<end_of_turn>".toList]
  judgeGround := some ("ep_live_000", "The key is in the vault.".toList)
  spectestOn := false
  recalledText := some "The key is in the vault.".toList
  rawUser := some "Where is the key?".toList
  headVeto := none

def vaultRounds : List Round := [⟨1, false, false⟩, ⟨2, false, false⟩, ⟨3, false, false⟩]

/-- The client gets the word; the check reads an empty answer and finds it ungrounded. -/
theorem vault_uncopied :
    ¬ (∀ (c : Chat) (rounds : List Round), c.RecordedAt asciiText (c.run rounds)) ∧
      (vaultChat.finish asciiText (vaultChat.flush (vaultChat.run vaultRounds).2)).deltas =
        ["vault".toList] ∧
      (vaultChat.finish asciiText (vaultChat.flush (vaultChat.run vaultRounds).2)).grounding =
        some false ∧
      grounded asciiText "The key is in the vault.".toList "vault".toList = true := by
  refine ⟨fun h => ?_, by decide, by decide, by decide⟩
  have hrun : vaultChat.run vaultRounds = (false, (vaultChat.run vaultRounds).2) :=
    Prod.ext (by decide) rfl
  have hrecorded := h vaultChat vaultRounds
  rw [hrun] at hrecorded
  have hdraft := hrecorded.1
  revert hdraft
  decide

end ShannonPrime.Daemon.AnswerText
