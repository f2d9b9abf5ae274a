import ShannonPrime.Lib.Greedy
import ShannonPrime.Cpu.AppendRun

/-!
Lookup-speculative decoding on the CPU: `qwen3_mtp_decode` drafts the tokens that
followed the last occurrence of the current n-gram and verifies them in one append, and
`qwen3_generate` takes one token at a time. The model behind the two is anything whose
logits row at a position is a function of the tokens up to that position; the flat-memory
forwards are one.
-/

namespace ShannonPrime.Cpu

open Buffer

/-- A model for both loops, with K/V caches of type `Kv`. `forward` is `qwen3_forward` and
`mtpForward` is `qwen3_mtp_forward`, each `none` where the source returns nonzero. -/
structure AppendModel (F Kv : Type*) where
  nVocab : Nat
  logits : List Int → Nat → F
  forward : List Int → (Nat → F) → Option (Nat → F)
  mtpForward : List Int → Nat → Kv → Nat → (Nat → F) → Option (Kv × (Nat → F))
  /-- The cache, of a capacity, holds the rows of the tokens. -/
  Holds : Nat → Kv → List Int → Prop
  holds_nil : ∀ cap kv, Holds cap kv []
  /-- What lies beyond a position can be taken for stale. -/
  holds_take : ∀ {cap kv tokens}, Holds cap kv tokens → ∀ n, Holds cap kv (tokens.take n)
  forward_rows : ∀ tokens lg, ∃ lg', forward tokens lg = some lg' ∧
    ∀ i, i < tokens.length → ∀ j, j < nVocab →
      lg' (i * nVocab + j) = logits (tokens.take (i + 1)) j
  mtpForward_rows : ∀ {cap kv tokens} batch lg, Holds cap kv tokens → batch ≠ [] →
    tokens.length + batch.length ≤ cap →
    ∃ kv' lg', mtpForward batch tokens.length kv cap lg = some (kv', lg') ∧
      Holds cap kv' (tokens ++ batch) ∧
      ∀ i, i < batch.length → ∀ j, j < nVocab →
        lg' (i * nVocab + j) = logits (tokens ++ batch.take (i + 1)) j

variable {F Kv : Type*}

/-! ### The source -/

/-- `mtp_argmax`: the best value is kept beside its index. `gt` is the comparison of two
floats. -/
def mtpArgmax (gt : F → F → Bool) (row : Nat → F) (n : Nat) : Nat :=
  ((List.range' 1 (n - 1)).foldl
    (fun best i => if gt (row i) best.2 then (i, row i) else best) (0, row 0)).1

/-- The loop of `qwen3_generate`: the best row entry is read again each time. -/
def generateArgmax (gt : F → F → Bool) (last : Nat → F) (n : Nat) : Nat :=
  (List.range' 1 (n - 1)).foldl (fun amax j => if gt (last j) (last amax) then j else amax) 0

/-- `eos_id >= 0 && t == eos_id` -/
def isEos (eosId t : Int) : Bool := 0 ≤ eosId ∧ t = eosId

/-- The loop of `qwen3_generate` with `left` steps to go. -/
def generateLoop (M : AppendModel F Kv) (gt : F → F → Bool) (eosId : Int) :
    Nat → (Nat → Int) → Nat → (Nat → F) → Option ((Nat → Int) × Nat)
  | 0, seq, n, _ => some (seq, n)
  | left + 1, seq, n, lg =>
      (M.forward (vec n seq) lg).bind fun lg =>
        let amax : Int := generateArgmax gt (fun j => lg ((n - 1) * M.nVocab + j)) M.nVocab
        let seq := Function.update seq n amax
        if isEos eosId amax then some (seq, n + 1) else generateLoop M gt eosId left seq (n + 1) lg

/-- `qwen3_generate`: the memory behind `seq` and the returned length. A failing forward
leaves what was written so far; no model of this file has one. -/
def qwen3Generate (M : AppendModel F Kv) (gt : F → F → Bool) (seq : Nat → Int)
    (nPrompt nGen eosId : Int) (lg : Nat → F) : (Nat → Int) × Int :=
  if nPrompt ≤ 0 ∨ nGen < 0 then (seq, -1)
  else
    match generateLoop M gt eosId nGen.toNat seq nPrompt.toNat lg with
    | some (seq, n) => (seq, n)
    | none => (seq, -1)

/-- The position of the last match of the n-gram at the end of the history, below a
bound. -/
def findMatch (h : Nat → Int) (hn ng : Nat) : Nat → Option Nat
  | 0 => none
  | j + 1 =>
      if (List.range ng).all (fun g => h (j + g) = h (hn - ng + g)) then some j
      else findMatch h hn ng j

/-- `mtp_draft_lookup` -/
def mtpDraftLookup (h : Nat → Int) (hn ng k : Nat) : List Int :=
  if k = 0 ∨ hn < ng + 1 then []
  else
    match findMatch h hn ng (hn - ng) with
    | none => []
    | some j =>
        ((List.range k).takeWhile (fun d => j + ng + d < hn)).map fun d => h (j + ng + d)

/-- The longest prefix of the draft the argmaxes agree with. -/
def matchLength (best : Nat → Int) : Nat → List Int → Nat
  | _, [] => 0
  | i, d :: rest => if best i = d then matchLength best (i + 1) rest + 1 else 0

/-- The locals of `qwen3_mtp_decode`; `C` is the number of cached positions. `calls` is no
variable of the source: it records the base and the batch length of each forward. -/
structure Decode (F Kv : Type*) where
  seq : Nat → Int
  kv : Kv
  lg : Nat → F
  cur : Int
  produced : Nat
  n : Nat
  C : Nat
  fwd : Nat
  accSum : Nat
  accSteps : Nat
  calls : List (Nat × Nat)

/-- The arguments after the checks, with `K` and `NG` clamped. -/
structure Params where
  nPrompt : Nat
  nGen : Nat
  eosId : Int
  K : Nat
  NG : Nat

def Params.cap (p : Params) : Nat := p.nPrompt + p.nGen + p.K + 8

inductive Turn (S : Type*) where
  | again (s : S)
  | stop (s : S)
  | fail (s : S)

/-- `seq[n_prompt + produced] = t; produced++; n = n_prompt + produced;` -/
def Decode.put (p : Params) (s : Decode F Kv) (t : Int) : Decode F Kv :=
  { s with
    seq := Function.update s.seq (p.nPrompt + s.produced) t
    produced := s.produced + 1
    n := p.nPrompt + (s.produced + 1) }

section Put

variable (p : Params) (s : Decode F Kv) (t : Int)

@[simp] theorem Decode.put_kv : (s.put p t).kv = s.kv := rfl
@[simp] theorem Decode.put_lg : (s.put p t).lg = s.lg := rfl
@[simp] theorem Decode.put_cur : (s.put p t).cur = s.cur := rfl
@[simp] theorem Decode.put_C : (s.put p t).C = s.C := rfl
@[simp] theorem Decode.put_fwd : (s.put p t).fwd = s.fwd := rfl
@[simp] theorem Decode.put_calls : (s.put p t).calls = s.calls := rfl

end Put

/-- The loop that writes the accepted drafts; `true` is its jump to `stop`. -/
def Decode.emitDraft (p : Params) : List Int → Decode F Kv → Decode F Kv × Bool
  | [], s => (s, false)
  | d :: rest, s =>
      if s.produced < p.nGen then
        if isEos p.eosId d then (s.put p d, true) else emitDraft p rest (s.put p d)
      else (s, false)

/-- One turn of the loop of `qwen3_mtp_decode`. The accept counters are raised on both
ways out of the draft loop. -/
def Decode.turn (M : AppendModel F Kv) (gt : F → F → Bool) (p : Params) (s : Decode F Kv) :
    Turn (Decode F Kv) :=
  let s := s.put p s.cur
  if isEos p.eosId s.cur ∨ p.nGen ≤ s.produced then .stop s
  else
    let draft := mtpDraftLookup s.seq (p.nPrompt + s.produced) p.NG p.K
    let s := { s with calls := s.calls ++ [(s.C, (s.cur :: draft).length)] }
    match M.mtpForward (s.cur :: draft) s.C s.kv p.cap s.lg with
    | none => .fail s
    | some (kv, lg) =>
        let best := fun i => (mtpArgmax gt (fun j => lg (i * M.nVocab + j)) M.nVocab : Int)
        let na := matchLength best 0 draft
        let (s, stop) := emitDraft p (draft.take na) { s with kv, lg, fwd := s.fwd + 1 }
        let s := { s with accSum := s.accSum + na, accSteps := s.accSteps + 1 }
        if stop then .stop s else .again { s with cur := best na, C := s.C + (na + 1) }

/-- The loop of `qwen3_mtp_decode`, `none` when the fuel runs out; the flag is false after
a failed forward. -/
def Decode.loop (M : AppendModel F Kv) (gt : F → F → Bool) (p : Params) :
    Nat → Decode F Kv → Option (Bool × Decode F Kv)
  | 0, _ => none
  | fuel + 1, s =>
      if s.produced < p.nGen then
        match s.turn M gt p with
        | .again s => loop M gt p fuel s
        | .stop s => some (true, s)
        | .fail s => some (false, s)
      else some (true, s)

/-- What a call of `qwen3_mtp_decode` leaves behind and returns. -/
structure Decoded where
  seq : Nat → Int
  ret : Int
  outForwards : Nat
  outAcceptSum : Nat
  outAcceptSteps : Nat
  calls : List (Nat × Nat)

def Decode.result (s : Decode F Kv) (ret : Int) : Decoded where
  seq := s.seq
  ret := ret
  outForwards := s.fwd
  outAcceptSum := s.accSum
  outAcceptSteps := s.accSteps
  calls := s.calls

/-- `qwen3_mtp_decode` after its argument checks. -/
def decodeFrom (M : AppendModel F Kv) (gt : F → F → Bool) (p : Params) (seq : Nat → Int)
    (kv : Kv) (lg : Nat → F) : Option Decoded :=
  let s : Decode F Kv :=
    { seq, kv, lg, cur := 0, produced := 0, n := p.nPrompt, C := 0, fwd := 0, accSum := 0,
      accSteps := 0, calls := [(0, p.nPrompt)] }
  match M.mtpForward (vec p.nPrompt seq) 0 kv p.cap lg with
  | none => some (s.result (-1))
  | some (kv, lg) =>
      let cur : Int := mtpArgmax gt (fun j => lg ((p.nPrompt - 1) * M.nVocab + j)) M.nVocab
      (Decode.loop M gt p (p.nGen + 1) { s with kv, lg, cur, C := p.nPrompt, fwd := 1 }).map
        fun (ok, s) => s.result (if ok then s.n else -1)

/-- `qwen3_mtp_decode`. A turn writes a token, so `n_gen + 1` turns are enough fuel. -/
def qwen3MtpDecode (M : AppendModel F Kv) (gt : F → F → Bool) (seq : Nat → Int)
    (nPrompt nGen eosId K NG : Int) (kv : Kv) (lg : Nat → F) : Option Decoded :=
  if nPrompt < 1 ∨ nGen < 0 then some ⟨seq, -1, 0, 0, 0, []⟩
  else
    let K := if K < 0 then 0 else K
    let NG := if NG < 1 then 1 else NG
    decodeFrom M gt ⟨nPrompt.toNat, nGen.toNat, eosId, K.toNat, NG.toNat⟩ seq kv lg

end ShannonPrime.Cpu
