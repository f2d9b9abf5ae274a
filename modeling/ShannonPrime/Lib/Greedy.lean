import Mathlib.Data.List.Basic

/-!
Greedy decoding as a function of the history: a token is what `next` says of the tokens
so far, and decoding ends after `limit` tokens or with the first one that stops it. A
draft is any list; the part of it that `next` would have chosen itself can be emitted
without looking again, as long as the stop and the limit are still observed.
-/

namespace ShannonPrime.Greedy

variable {T : Type*}

/-- At most `limit` tokens after the history. -/
def decode (next : List T → T) (stop : T → Bool) : Nat → List T → List T
  | 0, _ => []
  | limit + 1, history =>
      next history ::
        if stop (next history) then [] else decode next stop limit (history ++ [next history])

/-- The part of a draft that agrees with `next`. -/
def accepted [DecidableEq T] (next : List T → T) : List T → List T → List T
  | _, [] => []
  | history, d :: rest =>
      if next history = d then d :: accepted next (history ++ [d]) rest else []

/-- The first `limit` of the tokens, up to the first that stops, and whether one did. -/
def emit (stop : T → Bool) : Nat → List T → List T × Bool
  | 0, _ => ([], false)
  | _, [] => ([], false)
  | limit + 1, t :: rest =>
      if stop t then ([t], true)
      else (t :: (emit stop limit rest).1, (emit stop limit rest).2)

variable {next : List T → T} {stop : T → Bool} {limit : Nat} {history ts : List T}

theorem decode_length : (decode next stop limit history).length ≤ limit := by
  induction limit generalizing history with
  | zero => simp [decode]
  | succ limit ih =>
      unfold decode
      split
      · simp
      · simpa using ih

theorem emit_length : (emit stop limit ts).1.length ≤ limit := by
  induction limit generalizing ts with
  | zero => simp [emit]
  | succ limit ih =>
      cases ts with
      | nil => simp [emit]
      | cons t rest =>
          unfold emit
          split
          · simp
          · simpa using ih

theorem emit_all (hstop : (emit stop limit ts).2 = false)
    (hlimit : (emit stop limit ts).1.length < limit) : (emit stop limit ts).1 = ts := by
  induction limit generalizing ts with
  | zero => exact absurd hlimit (Nat.not_lt_zero _)
  | succ limit ih =>
      cases ts with
      | nil => rfl
      | cons t rest =>
          unfold emit at hstop hlimit ⊢
          split at hstop
          · cases hstop
          · rename_i ht
            rw [if_neg ht] at hlimit ⊢
            rw [ih hstop (by simpa using hlimit)]

variable [DecidableEq T]

theorem accepted_prefix (next : List T → T) (history draft : List T) :
    accepted next history draft <+: draft := by
  induction draft generalizing history with
  | nil => simp [accepted]
  | cons d rest ih =>
      unfold accepted
      split
      · exact List.cons_prefix_cons.mpr ⟨rfl, ih _⟩
      · exact List.nil_prefix

/-- Emitting the accepted part of a draft is decoding: what is left is decoded from where
the emission ends, unless a token stopped it. -/
theorem decode_eq_emit (next : List T → T) (stop : T → Bool) (limit : Nat)
    (history draft : List T) :
    let out := emit stop limit (accepted next history draft)
    decode next stop limit history =
      out.1 ++ if out.2 then [] else
        decode next stop (limit - out.1.length) (history ++ out.1) := by
  induction draft generalizing limit history with
  | nil => cases limit <;> simp [accepted, emit]
  | cons d rest ih =>
      cases limit with
      | zero => simp [emit, decode]
      | succ limit =>
          unfold accepted
          split
          · rename_i hd
            subst hd
            unfold emit
            by_cases hstop : stop (next history)
            · simp [decode, hstop]
            · have hrest := ih limit (history ++ [next history])
              dsimp only at hrest
              simp only [hstop]
              rw [decode, if_neg hstop, hrest]
              simp
          · simp [emit]

end ShannonPrime.Greedy
