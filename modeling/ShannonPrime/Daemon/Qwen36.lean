import ShannonPrime.Daemon.Argmax
import ShannonPrime.Lib.Utf8

/-!
A chat turn on the qwen36 lane. The lane steps the prompt and decodes greedily; each token's bytes
join those that are pending, and the well-formed text at their front is streamed. Bytes that never
become well-formed stay pending, and all that follows them.
-/

namespace ShannonPrime.Daemon.Qwen36

open Utf8

/-- The model behind the lane. Errors of `qwen36_step` are its return codes. -/
structure Engine (σ : Type*) where
  pmax : Int
  new : Option σ
  step : σ → Int → Except Int σ
  logits : σ → List F32

/-- What the callback has in hand: the bytes held back, and the deltas it has sent. -/
structure Stream where
  pending : List UInt8
  sent : List (List Char)
  deriving DecidableEq

/-- The callback of a turn, for the bytes of one token. `cancelled` is the flag it reads, `gone`
says that a send would fail. It returns whether to go on. -/
def onTok (cancelled gone : Bool) (bytes : List UInt8) (t : Stream) : Bool × Stream :=
  if cancelled then (false, t)
  else
    let pending := t.pending ++ bytes
    let (text, keep) := match fromUtf8 pending with
      | some s => (s, 0)
      | none =>
          let ok := validUtf8UpTo pending
          (fromUtf8Lossy (pending.take ok), pending.length - ok)
    let t := { t with pending := pending.drop (pending.length - keep) }
    if text.isEmpty then (true, t)
    else if gone then (false, t)
    else (true, { t with sent := t.sent ++ [text] })

/-- How a turn ends: the error, the tokens generated, and the stream. -/
structure Turn where
  err : Option String
  out : List Int
  stream : Stream
  deriving DecidableEq

section Lane

variable {σ : Type*} (E : Engine σ) (eos : List Int) (onTok : Nat → Int → Stream → Bool × Stream)

/-- The loop of `run_turn`. `left` is how many tokens may follow the next, `k` how many there
are. -/
def generate (left k : Nat) (s : σ) (t : Stream) : Turn :=
  let next : Int := dialogueArgmax (E.logits s)
  if eos.contains next then ⟨none, [], t⟩
  else
    let r := onTok k next t
    if !r.1 then ⟨none, [next], r.2⟩
    else match left with
      | 0 => ⟨none, [next], r.2⟩
      | left' + 1 => match E.step s next with
          | .error rc => ⟨some s!"qwen36_step rc={rc} during decode", [next], r.2⟩
          | .ok s' =>
              let rest := generate left' (k + 1) s' r.2
              { rest with out := next :: rest.out }

/-- `as i32` -/
def asI32 (n : Int) : Int := n.bmod (2 ^ 32)

def runTurn (prompt : List Int) (maxNew : Nat) (t : Stream) : Turn :=
  if prompt.isEmpty then ⟨some "empty prompt", [], t⟩
  else if E.pmax ≤ asI32 (asI32 prompt.length + asI32 maxNew) then
    ⟨some s!"prompt {prompt.length} + max_tokens {maxNew} exceeds SP_Q36_PMAX {E.pmax}", [], t⟩
  else match E.new with
    | none => ⟨some "qwen36_state_new failed", [], t⟩
    | some s => match prompt.foldlM E.step s with
        | .error rc => ⟨some s!"qwen36_step rc={rc} during prefill", [], t⟩
        | .ok s => generate E eos onTok (maxNew - 1) 0 s t

end Lane

/-- The turn of a chat: the deltas of the prompt's continuation. -/
def chat {σ : Type*} (E : Engine σ) (decodeToken : Int → List UInt8) (eos : List Int)
    (cancel gone : Nat → Bool) (prompt : List Int) (maxNew : Nat) : Turn :=
  runTurn E eos (fun k id => onTok (cancel k) (gone k) (decodeToken id)) prompt maxNew ⟨[], []⟩

section Lossless

variable (decodeToken : Int → List UInt8) (cancel gone : Nat → Bool)

def bytesOf (out : List Int) : List UInt8 := out.flatMap decodeToken

/-- The deltas are the text of the whole generation. -/
def Lossless (r : Turn) : Prop :=
  r.stream.sent.flatten = fromUtf8Lossy (bytesOf decodeToken r.out)

instance (r : Turn) : Decidable (Lossless decodeToken r) := inferInstanceAs (Decidable (_ = _))

/-- If the flag was set at token `k`, the token has no bytes; if the client was gone, it completes
no character. -/
def Heard (out : List Int) (k : Nat) : Prop :=
  (cancel k = true →
    bytesOf decodeToken (out.take (k + 1)) = bytesOf decodeToken (out.take k)) ∧
  (gone k = true →
    validUtf8UpTo (bytesOf decodeToken (out.take (k + 1))) =
      validUtf8UpTo (bytesOf decodeToken (out.take k)))

/-! ### The stream -/

/-- What has been sent is the text of the well-formed front of `total`, the rest is pending. -/
structure Holds (t : Stream) (total : List UInt8) : Prop where
  pending : t.pending = total.drop (validUtf8UpTo total)
  sent : t.sent.flatten = fromUtf8Lossy (total.take (validUtf8UpTo total))

variable {t : Stream} {total : List UInt8}

/-- What the whole text has more than was sent is what is pending. -/
theorem Holds.lossless_iff (h : Holds t total) (more : List UInt8) :
    t.sent.flatten = fromUtf8Lossy (total ++ more) ↔ t.pending = [] ∧ more = [] := by
  have hvalid := valid_take total
  have hsplit : total ++ more = total.take (validUtf8UpTo total) ++ (t.pending ++ more) := by
    rw [h.pending, ← List.append_assoc, List.take_append_drop]
  rw [hsplit, hvalid.fromUtf8Lossy_append, h.sent, List.self_eq_append_right, fromUtf8Lossy_eq_nil,
    List.append_eq_nil_iff]

theorem Holds.pending_iff (h : Holds t total) : t.pending = [] ↔ Valid total := by
  have hle := validUtf8UpTo_le total
  rw [h.pending, List.drop_eq_nil_iff, Valid]
  omega

/-- The well-formed front grows by that of the pending bytes. -/
theorem Holds.upTo (h : Holds t total) (bytes : List UInt8) :
    validUtf8UpTo (total ++ bytes) = validUtf8UpTo total + validUtf8UpTo (t.pending ++ bytes) := by
  have hle := validUtf8UpTo_le total
  have hsplit : total ++ bytes = total.take (validUtf8UpTo total) ++ (t.pending ++ bytes) := by
    rw [h.pending, ← List.append_assoc, List.take_append_drop]
  rw [hsplit, (valid_take total).append, List.length_take]
  omega

/-- The callback, by the well-formed front of what is pending. -/
theorem onTok_eq (cancelled gone : Bool) (bytes : List UInt8) (t : Stream) :
    onTok cancelled gone bytes t =
      let pending := t.pending ++ bytes
      let ok := validUtf8UpTo pending
      if cancelled then (false, t)
      else if ok = 0 then (true, { t with pending })
      else if gone then (false, { t with pending := pending.drop ok })
      else (true, ⟨pending.drop ok, t.sent ++ [fromUtf8Lossy (pending.take ok)]⟩) := by
  have hle := validUtf8UpTo_le (t.pending ++ bytes)
  have hempty : (fromUtf8Lossy ((t.pending ++ bytes).take
      (validUtf8UpTo (t.pending ++ bytes)))).isEmpty = true ↔
        validUtf8UpTo (t.pending ++ bytes) = 0 := by
    rw [List.isEmpty_iff, fromUtf8Lossy_eq_nil, List.take_eq_nil_iff]
    refine ⟨fun h => h.elim id fun hnil => ?_, Or.inl⟩
    rw [hnil]
    rfl
  have hread : (match fromUtf8 (t.pending ++ bytes) with
      | some s => (s, 0)
      | none => (fromUtf8Lossy ((t.pending ++ bytes).take (validUtf8UpTo (t.pending ++ bytes))),
          (t.pending ++ bytes).length - validUtf8UpTo (t.pending ++ bytes))) =
      (fromUtf8Lossy ((t.pending ++ bytes).take (validUtf8UpTo (t.pending ++ bytes))),
        (t.pending ++ bytes).length - validUtf8UpTo (t.pending ++ bytes)) := by
    rw [fromUtf8]
    split
    · rename_i hvalid
      split at hvalid
      · rename_i hwhole
        obtain rfl := Option.some.inj hvalid
        rw [hwhole, List.take_length, Nat.sub_self]
      · cases hvalid
    · rfl
  have hdrop : (t.pending ++ bytes).length -
      ((t.pending ++ bytes).length - validUtf8UpTo (t.pending ++ bytes)) =
        validUtf8UpTo (t.pending ++ bytes) := by omega
  rw [onTok]
  dsimp only
  rw [hread]
  dsimp only
  rw [hdrop]
  simp only [hempty]
  split
  · rfl
  · split
    · rename_i hzero
      rw [hzero, List.drop_zero]
    · rfl

/-- What is sent with a token, and what is left. -/
theorem Holds.send (h : Holds t total) (bytes : List UInt8) :
    Holds ⟨(t.pending ++ bytes).drop (validUtf8UpTo (t.pending ++ bytes)), t.sent ++
      [fromUtf8Lossy ((t.pending ++ bytes).take (validUtf8UpTo (t.pending ++ bytes)))]⟩
      (total ++ bytes) := by
  have hle := validUtf8UpTo_le total
  have hupTo := h.upTo bytes
  have hlength : (total.take (validUtf8UpTo total)).length = validUtf8UpTo total := by
    rw [List.length_take]
    omega
  have hsplit : total ++ bytes = total.take (validUtf8UpTo total) ++ (t.pending ++ bytes) := by
    rw [h.pending, ← List.append_assoc, List.take_append_drop]
  have hsent := h.sent
  have hfront := valid_take total
  rw [← hlength] at hupTo
  generalize total.take (validUtf8UpTo total) = front at hsplit hsent hfront hupTo
  constructor
  · rw [hupTo, hsplit, ← List.drop_drop, List.drop_left]
  · rw [hupTo, hsplit, List.take_length_add_append, hfront.fromUtf8Lossy_append,
      List.flatten_append, List.flatten_singleton, hsent]

/-- One token. The turn goes on with a token that is heard, and a token at which it ends is heard
exactly when nothing is lost. -/
theorem Holds.onTok (h : Holds t total) (cancelled gone : Bool) (bytes : List UInt8) :
    let r := Qwen36.onTok cancelled gone bytes t
    (r.1 = true → Holds r.2 (total ++ bytes) ∧ cancelled = false ∧
      (gone = true → validUtf8UpTo (total ++ bytes) = validUtf8UpTo total)) ∧
    (r.1 = false →
      (r.2.sent.flatten = fromUtf8Lossy (total ++ bytes) ↔ Valid (total ++ bytes) ∧
        (cancelled = true → total ++ bytes = total) ∧
        (gone = true → validUtf8UpTo (total ++ bytes) = validUtf8UpTo total))) := by
  have hupTo := h.upTo bytes
  have hlossless := h.lossless_iff bytes
  rw [onTok_eq]
  dsimp only
  split
  · rename_i hcancelled
    refine ⟨fun hgo => absurd hgo Bool.false_ne_true, fun _ => ?_⟩
    rw [hlossless, h.pending_iff]
    constructor
    · rintro ⟨hvalid, rfl⟩
      rw [List.append_nil]
      exact ⟨hvalid, fun _ => rfl, fun _ => rfl⟩
    · rintro ⟨hvalid, hnone, _⟩
      obtain rfl : bytes = [] := by simpa using hnone hcancelled
      rw [List.append_nil] at hvalid
      exact ⟨hvalid, rfl⟩
  · rename_i hcancelled
    have hnot : cancelled = false := by simpa using hcancelled
    split
    · rename_i hzero
      refine ⟨fun _ => ⟨?_, hnot, fun _ => by rw [hupTo, hzero, Nat.add_zero]⟩,
        fun hstop => absurd hstop.symm Bool.false_ne_true⟩
      have hsent := h.send bytes
      rw [hzero, List.drop_zero, List.take_zero] at hsent
      refine ⟨hsent.pending, ?_⟩
      rw [← hsent.sent, List.flatten_append]
      simp [fromUtf8Lossy, lossyFrom]
    · rename_i hsome
      split
      · rename_i hgone
        refine ⟨fun hgo => absurd hgo Bool.false_ne_true, fun _ => ?_⟩
        rw [hlossless]
        constructor
        · rintro ⟨hpending, rfl⟩
          rw [hpending, List.append_nil] at hsome
          exact absurd rfl hsome
        · rintro ⟨_, _, hsilent⟩
          have hsame := hsilent hgone
          omega
      · rename_i hgone
        exact ⟨fun _ => ⟨h.send bytes, hnot, fun hg => absurd hg hgone⟩,
          fun hstop => absurd hstop.symm Bool.false_ne_true⟩

/-! ### The turn -/

variable {σ : Type*} (E : Engine σ) (eos : List Int)

theorem bytesOf_append (out out' : List Int) :
    bytesOf decodeToken (out ++ out') = bytesOf decodeToken out ++ bytesOf decodeToken out' :=
  List.flatMap_append

/-- Whether the token behind `seen` is heard. -/
theorem heard_iff (seen rest : List Int) (next : Int) :
    Heard decodeToken cancel gone (seen ++ next :: rest) seen.length ↔
      (cancel seen.length = true → bytesOf decodeToken seen ++ decodeToken next =
        bytesOf decodeToken seen) ∧
      (gone seen.length = true → validUtf8UpTo (bytesOf decodeToken seen ++ decodeToken next) =
        validUtf8UpTo (bytesOf decodeToken seen)) := by
  have hnext : bytesOf decodeToken (seen ++ [next]) =
      bytesOf decodeToken seen ++ decodeToken next := by
    rw [bytesOf_append]
    simp [bytesOf]
  have hlong : (seen ++ next :: rest).take (seen.length + 1) = seen ++ [next] := by
    rw [List.take_length_add_append]
    rfl
  rw [Heard, hlong, List.take_left, hnext]

/-- When the token behind `seen` is heard, all are when those behind it are. -/
theorem forall_heard_iff {seen rest : List Int} {next : Int}
    (hnext : Heard decodeToken cancel gone (seen ++ next :: rest) seen.length) :
    (∀ k, seen.length ≤ k → k < (seen ++ next :: rest).length →
        Heard decodeToken cancel gone (seen ++ next :: rest) k) ↔
      ∀ k, seen.length + 1 ≤ k → k < (seen ++ next :: rest).length →
        Heard decodeToken cancel gone (seen ++ next :: rest) k := by
  refine ⟨fun h k hk => h k (by omega), fun h k hk hlt => ?_⟩
  rcases Nat.eq_or_lt_of_le hk with rfl | hlater
  · exact hnext
  · exact h k hlater hlt

/-- Behind the tokens `seen`: the deltas are the text of all tokens exactly when their bytes are
well-formed and those of the turn are heard. -/
def ExactBehind (seen : List Int) (r : Turn) : Prop :=
  r.stream.sent.flatten = fromUtf8Lossy (bytesOf decodeToken (seen ++ r.out)) ↔
    Valid (bytesOf decodeToken (seen ++ r.out)) ∧
      ∀ k, seen.length ≤ k → k < (seen ++ r.out).length →
        Heard decodeToken cancel gone (seen ++ r.out) k

/-- The turn ends with all tokens in the stream. -/
theorem exactBehind_end {seen : List Int} (h : Holds t (bytesOf decodeToken seen))
    (err : Option String) : ExactBehind decodeToken cancel gone seen ⟨err, [], t⟩ := by
  have hlossless := h.lossless_iff []
  rw [List.append_nil, h.pending_iff] at hlossless
  rw [ExactBehind, List.append_nil, hlossless]
  exact ⟨fun hvalid => ⟨hvalid.1, fun k hk hlt => absurd hk (by omega)⟩,
    fun hvalid => ⟨hvalid.1, rfl⟩⟩

variable {seen : List Int} {next : Int}

theorem bytesOf_concat : bytesOf decodeToken (seen ++ [next]) =
    bytesOf decodeToken seen ++ decodeToken next := by
  rw [bytesOf_append]
  simp [bytesOf]

/-- The turn ends at a token. -/
theorem exactBehind_stop (h : Holds t (bytesOf decodeToken seen))
    (hstop : (Qwen36.onTok (cancel seen.length) (gone seen.length) (decodeToken next) t).1 = false)
    (err : Option String) :
    ExactBehind decodeToken cancel gone seen
      ⟨err, [next], (Qwen36.onTok (cancel seen.length) (gone seen.length)
        (decodeToken next) t).2⟩ := by
  have hlast := (h.onTok (cancel seen.length) (gone seen.length) (decodeToken next)).2 hstop
  rw [← heard_iff decodeToken cancel gone seen [] next, ← bytesOf_concat] at hlast
  rw [ExactBehind, hlast]
  refine and_congr_right fun _ => ⟨fun hheard k hk hlt => ?_, fun hall => ?_⟩
  · rw [List.length_append, List.length_singleton] at hlt
    obtain rfl : k = seen.length := by omega
    exact hheard
  · exact hall seen.length (Nat.le_refl _) (by simp)

/-- The turn goes on with a token. -/
theorem exactBehind_go (h : Holds t (bytesOf decodeToken seen))
    (hgo : (Qwen36.onTok (cancel seen.length) (gone seen.length) (decodeToken next) t).1 = true) :
    Holds (Qwen36.onTok (cancel seen.length) (gone seen.length) (decodeToken next) t).2
        (bytesOf decodeToken (seen ++ [next])) ∧
      ∀ r, ExactBehind decodeToken cancel gone (seen ++ [next]) r →
        ExactBehind decodeToken cancel gone seen { r with out := next :: r.out } := by
  obtain ⟨hnext, hnot, hsilent⟩ :=
    (h.onTok (cancel seen.length) (gone seen.length) (decodeToken next)).1 hgo
  refine ⟨by rwa [bytesOf_concat], fun r hr => ?_⟩
  have hheard : Heard decodeToken cancel gone (seen ++ next :: r.out) seen.length :=
    (heard_iff decodeToken cancel gone seen r.out next).mpr
      ⟨fun hcancel => absurd hcancel (by simp [hnot]), hsilent⟩
  rw [ExactBehind, List.append_assoc, List.singleton_append, List.length_append,
    List.length_singleton] at hr
  rw [ExactBehind, forall_heard_iff decodeToken cancel gone hheard]
  exact hr

/-- The loop, by induction on how many tokens may follow. -/
theorem generate_exact (left : Nat) (s : σ) (h : Holds t (bytesOf decodeToken seen)) :
    ExactBehind decodeToken cancel gone seen
      (generate E eos (fun k id => Qwen36.onTok (cancel k) (gone k) (decodeToken id)) left
        seen.length s t) := by
  induction left generalizing seen s t with
  | zero =>
      rw [generate]
      dsimp only
      split
      · exact exactBehind_end decodeToken cancel gone h none
      · split
        · rename_i hstop
          exact exactBehind_stop decodeToken cancel gone h (by simpa using hstop) none
        · rename_i hgo
          obtain ⟨hnext, hcons⟩ := exactBehind_go decodeToken cancel gone h (by simpa using hgo)
          exact hcons _ (exactBehind_end decodeToken cancel gone hnext none)
  | succ left ih =>
      rw [generate]
      dsimp only
      split
      · exact exactBehind_end decodeToken cancel gone h none
      · split
        · rename_i hstop
          exact exactBehind_stop decodeToken cancel gone h (by simpa using hstop) none
        · rename_i hgo
          obtain ⟨hnext, hcons⟩ := exactBehind_go decodeToken cancel gone h (by simpa using hgo)
          split
          · exact hcons _ (exactBehind_end decodeToken cancel gone hnext _)
          · rename_i s' _
            have hrest := ih s' hnext
            rw [List.length_append, List.length_singleton] at hrest
            exact hcons _ hrest

/-- The deltas of a turn are the text of the whole generation exactly when the bytes are
well-formed UTF-8 and every token is heard. -/
theorem chat_lossless_iff (prompt : List Int) (maxNew : Nat) :
    Lossless decodeToken (chat E decodeToken eos cancel gone prompt maxNew) ↔
      Valid (bytesOf decodeToken (chat E decodeToken eos cancel gone prompt maxNew).out) ∧
        ∀ k, k < (chat E decodeToken eos cancel gone prompt maxNew).out.length →
          Heard decodeToken cancel gone (chat E decodeToken eos cancel gone prompt maxNew).out k := by
  have hstart : Holds ⟨[], []⟩ (bytesOf decodeToken []) := ⟨rfl, rfl⟩
  have hexact : ExactBehind decodeToken cancel gone []
      (chat E decodeToken eos cancel gone prompt maxNew) := by
    rw [chat, runTurn]
    split
    · exact exactBehind_end decodeToken cancel gone hstart _
    · split
      · exact exactBehind_end decodeToken cancel gone hstart _
      · split
        · exact exactBehind_end decodeToken cancel gone hstart _
        · split
          · exact exactBehind_end decodeToken cancel gone hstart _
          · exact generate_exact decodeToken cancel gone E eos _ _ hstart
  refine hexact.trans (and_congr_right fun _ => ?_)
  rw [List.nil_append]
  exact ⟨fun h k hk => h k (Nat.zero_le k) hk, fun h k _ hk => h k hk⟩

end Lossless

/-- The logits of a state are the greatest at its number. -/
def countEngine : Engine Nat where
  pmax := 4096
  new := some 0
  step s _ := .ok (s + 1)
  logits s := (List.replicate 4 F32.zero).set s ⟨0x3F800000⟩

/-- A first token that is no text, and a second that is. -/
def brokenTokens (id : Int) : List UInt8 := if id = 1 then [0xFF] else if id = 2 then [0x41] else []

/-- Neither is streamed. -/
theorem invalid_byte_blocks :
    ¬Lossless brokenTokens
      (chat countEngine brokenTokens [3] (fun _ => false) (fun _ => false) [0] 8) := by decide

end ShannonPrime.Daemon.Qwen36
