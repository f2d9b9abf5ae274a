import Mathlib.Data.List.GetD
import ShannonPrime.Lib.Binary32
import ShannonPrime.Lib.CInt
import ShannonPrime.Spec.SpecStep

/-!
The sampler of a chat turn, greedy. Logits are masked with minus infinity before the largest is
taken: those of the suppressed tokens and those of the tokens that would repeat an n-gram of the
prompt and what has been generated. A mask holds where the comparison ends on a logit above it; a
logit that is not a number ends it anywhere.
-/

namespace ShannonPrime.Daemon

/-- The sampling parameters of the greedy path. -/
structure SamplingParams where
  temperature : F32
  noRepeatNgram : Nat

structure Sampler where
  params : SamplingParams
  history : List Int
  suppress : List Int
  ngramPrefix : List Int

/-- `id as usize` -/
def asUsize (id : Int) : Nat := (id % 2 ^ 64).toNat

/-- Where a token has a logit it is set to minus infinity. -/
def mask (logits : List F32) (id : Int) : List F32 :=
  if asUsize id < logits.length then logits.set (asUsize id) F32.negInf else logits

/-- Every token that stands behind an earlier occurrence of the last `n - 1` tokens is masked. -/
def banRepeatNgram (logits : List F32) (ngramPrefix history : List Int) (n : Nat) : List F32 :=
  let seq := ngramPrefix ++ history
  if n < 2 then logits
  else if seq.length < n then logits
  else
    let suffix := seq.drop (seq.length - (n - 1))
    (List.range (seq.length - n + 1)).foldl
      (fun logits i =>
        if (seq.drop i).take (n - 1) = suffix then mask logits (seq.getD (i + (n - 1)) 0)
        else logits)
      logits

/-- The index of the last of the largest logits, as a token. -/
def argmax (logits : List F32) : Int := CInt.wrap (Spec.argmax F32.cmp logits)

namespace Sampler

variable (s : Sampler)

def isGreedy : Bool := s.params.temperature.le F32.zero

def observe (token : Int) : Sampler := { s with history := s.history ++ [token] }

/-- The logits after the masks. -/
def masked (logits : List F32) : List F32 :=
  let logits := s.suppress.foldl mask logits
  if 2 ≤ s.params.noRepeatNgram then
    banRepeatNgram logits s.ngramPrefix s.history s.params.noRepeatNgram
  else logits

/-- `sample`; what it draws at a temperature above zero is a parameter. -/
def sample (draw : Sampler → List F32 → Int) (logits : List F32) : Int :=
  if logits.isEmpty then 0
  else if s.isGreedy then argmax (s.masked logits)
  else draw s (s.masked logits)

/-- A token is sampled and observed for each row of logits. -/
def generate (draw : Sampler → List F32 → Int) (s : Sampler) : List (List F32) → Sampler
  | [] => s
  | logits :: rows => (s.observe (s.sample draw logits)).generate draw rows

end Sampler

/-! ## The masks -/

/-- Whatever was masked stays masked. -/
def Masks (logits logits' : List F32) : Prop :=
  logits'.length = logits.length ∧
    ∀ r : Nat, logits[r]? = some F32.negInf → logits'[r]? = some F32.negInf

section Masks

variable {logits : List F32} {id : Int} {r : Nat} {α : Type} {f : List F32 → α → List F32}

theorem Masks.refl (logits : List F32) : Masks logits logits := ⟨rfl, fun _ h => h⟩

theorem Masks.trans {a b c : List F32} (h : Masks a b) (h' : Masks b c) : Masks a c :=
  ⟨h'.1.trans h.1, fun r hr => h'.2 r (h.2 r hr)⟩

theorem mask_masks (logits : List F32) (id : Int) : Masks logits (mask logits id) := by
  rw [mask]
  split
  · refine ⟨List.length_set, fun r hr => ?_⟩
    rw [List.getElem?_set]
    split
    · rfl
    · exact hr
  · exact .refl logits

theorem mask_hit (h : asUsize id < logits.length) :
    (mask logits id)[asUsize id]? = some F32.negInf := by
  rw [mask, if_pos h, List.getElem?_set_self h]

theorem foldl_masks (hf : ∀ logits x, Masks logits (f logits x)) (xs : List α)
    (logits : List F32) : Masks logits (xs.foldl f logits) := by
  induction xs generalizing logits with
  | nil => exact .refl logits
  | cons x xs ih => exact (hf logits x).trans (ih (f logits x))

/-- What one of the steps masks is masked in the end. -/
theorem foldl_hit (hf : ∀ logits x, Masks logits (f logits x)) {xs : List α} {x : α} (hx : x ∈ xs)
    (hit : ∀ l : List F32, l.length = logits.length → (f l x)[r]? = some F32.negInf) :
    (xs.foldl f logits)[r]? = some F32.negInf := by
  obtain ⟨before, after, rfl⟩ := List.append_of_mem hx
  rw [List.foldl_append, List.foldl_cons]
  exact (foldl_masks hf after _).2 r (hit _ (foldl_masks hf before logits).1)

theorem ban_step_masks (seq suffix : List Int) (n : Nat) (logits : List F32) (i : Nat) :
    Masks logits (if (seq.drop i).take (n - 1) = suffix then
      mask logits (seq.getD (i + (n - 1)) 0) else logits) := by
  split
  · exact mask_masks ..
  · exact .refl logits

theorem banRepeatNgram_masks (logits : List F32) (ngramPrefix history : List Int) (n : Nat) :
    Masks logits (banRepeatNgram logits ngramPrefix history n) := by
  rw [banRepeatNgram]
  dsimp only
  split_ifs
  · exact .refl logits
  · exact .refl logits
  · exact foldl_masks (ban_step_masks _ _ n) _ logits

/-- The token behind an earlier occurrence of the last tokens. -/
theorem banRepeatNgram_hit {ngramPrefix history : List Int} {n i : Nat} (hn : 2 ≤ n)
    (hi : i + n ≤ (ngramPrefix ++ history).length)
    (hsuffix : ((ngramPrefix ++ history).drop i).take (n - 1) =
      (ngramPrefix ++ history).drop ((ngramPrefix ++ history).length - (n - 1)))
    (hr : asUsize ((ngramPrefix ++ history).getD (i + (n - 1)) 0) = r) (hlt : r < logits.length) :
    (banRepeatNgram logits ngramPrefix history n)[r]? = some F32.negInf := by
  rw [banRepeatNgram]
  dsimp only
  rw [if_neg (by omega), if_neg (by omega)]
  refine foldl_hit (ban_step_masks _ _ n) (List.mem_range.mpr (by omega : i < _)) fun l hl => ?_
  rw [if_pos hsuffix, ← hr]
  exact mask_hit (by omega)

end Masks

namespace Sampler

variable {s : Sampler} {logits : List F32} {r : Nat}

theorem masked_masks (s : Sampler) (logits : List F32) : Masks logits (s.masked logits) := by
  have hsuppress := foldl_masks mask_masks s.suppress logits
  rw [masked]
  split
  · exact hsuppress.trans (banRepeatNgram_masks ..)
  · exact hsuppress

theorem masked_suppress {id : Int} (hid : id ∈ s.suppress) (hlt : asUsize id < logits.length) :
    (s.masked logits)[asUsize id]? = some F32.negInf := by
  have hhit := @foldl_hit logits _ _ _ mask_masks _ _ hid fun l hl => mask_hit (hl.symm ▸ hlt)
  rw [masked]
  split
  · exact (banRepeatNgram_masks ..).2 _ hhit
  · exact hhit

theorem masked_repeat {i : Nat} (hn : 2 ≤ s.params.noRepeatNgram)
    (hi : i + s.params.noRepeatNgram ≤ (s.ngramPrefix ++ s.history).length)
    (hsuffix : ((s.ngramPrefix ++ s.history).drop i).take (s.params.noRepeatNgram - 1) =
      (s.ngramPrefix ++ s.history).drop
        ((s.ngramPrefix ++ s.history).length - (s.params.noRepeatNgram - 1)))
    (hr : asUsize ((s.ngramPrefix ++ s.history).getD (i + (s.params.noRepeatNgram - 1)) 0) = r)
    (hlt : r < logits.length) : (s.masked logits)[r]? = some F32.negInf := by
  rw [masked, if_pos hn]
  exact banRepeatNgram_hit hn hi hsuffix hr (by rwa [(foldl_masks mask_masks ..).1])

end Sampler

/-! ## The comparison -/

/-- There is a logit above minus infinity with only numbers behind it, or the last logit is no
number: where a logit is no number, the comparison goes on with the next. -/
def Decisive (logits : List F32) : Prop :=
  ∃ before x after, logits = before ++ x :: after ∧
    (x.isNaN = true ∧ after = [] ∨ F32.negInf.lt x = true ∧ ∀ y ∈ after, y.isNaN = false)

section Comparison

variable {logits : List F32}

/-- Among numbers one above minus infinity is enough. -/
theorem decisive_of_numbers (hnumbers : ∀ x ∈ logits, x.isNaN = false)
    (hsome : ∃ x ∈ logits, F32.negInf.lt x = true) : Decisive logits := by
  obtain ⟨x, hx, habove⟩ := hsome
  obtain ⟨before, after, rfl⟩ := List.append_of_mem hx
  exact ⟨before, x, after, rfl, Or.inr ⟨habove, fun y hy => hnumbers y (by simp [hy])⟩⟩

/-- A step of the comparison between two logits that are next to each other. -/
theorem Decisive.step {x y : F32} {rest : List F32} (h : Decisive (x :: y :: rest)) :
    Decisive ((if x.cmp y = .gt then x else y) :: rest) := by
  obtain ⟨before, z, after, hsplit, hz⟩ := h
  match before with
  | [] =>
      obtain ⟨rfl, rfl⟩ := List.cons.inj hsplit
      rcases hz with ⟨-, hnil⟩ | ⟨habove, hnumbers⟩
      · cases hnil
      · obtain ⟨hy, hrest⟩ := List.forall_mem_cons.mp hnumbers
        refine ⟨[], _, rest, rfl, Or.inr ⟨?_, hrest⟩⟩
        split
        · exact habove
        · rename_i hkept
          obtain ⟨hinf, hx, hlt⟩ := F32.lt_iff.mp habove
          have hle : ¬ y.key < x.key := fun hover =>
            hkept (F32.cmp_eq_gt.mpr (F32.lt_iff.mpr ⟨hy, hx, hover⟩))
          exact F32.lt_iff.mpr ⟨hinf, hy, by omega⟩
  | [w] =>
      obtain ⟨rfl, htail⟩ := List.cons.inj hsplit
      obtain ⟨rfl, rfl⟩ := List.cons.inj htail
      refine ⟨[], _, rest, rfl, ?_⟩
      split
      · rename_i hover
        obtain ⟨hy, hx, hlt⟩ := F32.lt_iff.mp (F32.cmp_eq_gt.mp hover)
        rcases hz with ⟨hnan, -⟩ | ⟨habove, hnumbers⟩
        · rw [hy] at hnan
          cases hnan
        · obtain ⟨hinf, -, habove⟩ := F32.lt_iff.mp habove
          exact Or.inr ⟨F32.lt_iff.mpr ⟨hinf, hx, by omega⟩, hnumbers⟩
      · exact hz
  | w :: w' :: before =>
      obtain ⟨rfl, htail⟩ := List.cons.inj hsplit
      obtain ⟨rfl, rfl⟩ := List.cons.inj htail
      exact ⟨_ :: before, z, after, rfl, hz⟩

/-- The comparison ends on one of the logits, and if they are decisive not on a masked one. -/
theorem foldl_cmp (rest : List (F32 × Nat)) (best : F32 × Nat) :
    rest.foldl (fun best y => if best.1.cmp y.1 = .gt then best else y) best ∈ best :: rest ∧
      (Decisive ((best :: rest).map Prod.fst) →
        (rest.foldl (fun best y => if best.1.cmp y.1 = .gt then best else y) best).1 ≠
          F32.negInf) := by
  induction rest generalizing best with
  | nil =>
      refine ⟨List.mem_singleton.mpr rfl, ?_⟩
      rintro ⟨before, x, after, hsplit, hx⟩ (hinf : best.1 = F32.negInf)
      have hmem : x ∈ [best].map Prod.fst := by simp [hsplit]
      obtain rfl : x = best.1 := by simpa using hmem
      rw [hinf] at hx
      rcases hx with ⟨hnan, -⟩ | ⟨habove, -⟩
      · cases hnan
      · cases habove
  | cons y rest ih =>
      obtain ⟨hmem, hdecisive⟩ := ih (if best.1.cmp y.1 = .gt then best else y)
      rw [List.foldl_cons]
      refine ⟨?_, fun h => hdecisive ?_⟩
      · rcases List.mem_cons.mp hmem with heq | hrest
        · rw [heq]
          split <;> simp
        · simp [hrest]
      · have hstep := Decisive.step h
        rw [List.map_cons]
        rw [← apply_ite Prod.fst] at hstep
        exact hstep

/-- The token is that of a logit, and if the logits are decisive not that of a masked one. -/
theorem argmax_spec (hne : logits ≠ []) (hlen : logits.length ≤ 2 ^ 31) :
    ∃ r < logits.length, argmax logits = (r : Nat) ∧
      (Decisive logits → logits[r]? ≠ some F32.negInf) := by
  obtain ⟨x, rest, hzip⟩ : ∃ x rest, logits.zipIdx = x :: rest := by
    cases logits with
    | nil => exact absurd rfl hne
    | cons a logits => exact ⟨_, _, rfl⟩
  obtain ⟨hmem, hdecisive⟩ := foldl_cmp rest x
  have hresult : Spec.argmax F32.cmp logits =
      (rest.foldl (fun best y => if best.1.cmp y.1 = .gt then best else y) x).2 := by
    rw [Spec.argmax, hzip]
  rw [← hzip] at hmem hdecisive
  rw [List.zipIdx_map_fst] at hdecisive
  have hat := List.mem_zipIdx_iff_getElem?.mp hmem
  obtain ⟨hlt, -⟩ := List.getElem?_eq_some_iff.mp hat
  refine ⟨_, hlt, ?_, fun h hmasked => hdecisive h ?_⟩
  · rw [argmax, hresult, CInt.wrap_of_fits]
    unfold CInt.Fits
    omega
  · rw [hat] at hmasked
    exact Option.some.inj hmasked

theorem asUsize_natCast {r : Nat} (h : r < 2 ^ 64) : asUsize (r : Int) = r := by
  rw [asUsize]
  omega

end Comparison

/-! ## Runs -/

/-- The last `n` tokens up to a place stand already before. -/
def Repeats (n : Nat) (seq : List Int) (place : Nat) : Prop :=
  ∃ i, i + n ≤ place ∧ (seq.drop i).take n = (seq.drop (place + 1 - n)).take n

/-- A token that repeats tokens stands where they stood, behind those before it. -/
theorem repeats_snoc {n i : Nat} {seq : List Int} {token : Int} (hn : 1 ≤ n)
    (hi : i + n ≤ seq.length)
    (h : ((seq ++ [token]).drop i).take n = ((seq ++ [token]).drop (seq.length + 1 - n)).take n) :
    (seq.drop i).take (n - 1) = seq.drop (seq.length - (n - 1)) ∧
      seq.getD (i + (n - 1)) 0 = token := by
  obtain ⟨k, rfl⟩ : ∃ k, n = k + 1 := ⟨n - 1, by omega⟩
  have hk : k < (seq.drop i).length := by
    rw [List.length_drop]
    omega
  have hleft : ((seq ++ [token]).drop i).take (k + 1) =
      (seq.drop i).take k ++ [seq.getD (i + k) 0] := by
    rw [List.drop_append_of_le_length (by omega), List.take_append_of_le_length hk,
      List.take_succ_eq_append_getElem hk, List.getElem_drop, List.getD_eq_getElem]
  have hright : ((seq ++ [token]).drop (seq.length + 1 - (k + 1))).take (k + 1) =
      seq.drop (seq.length - k) ++ [token] := by
    rw [Nat.add_sub_add_right, List.drop_append_of_le_length (Nat.sub_le _ _)]
    apply List.take_of_length_le
    rw [List.length_append, List.length_drop, List.length_singleton]
    omega
  rw [hleft, hright] at h
  obtain ⟨hbefore, hlast⟩ := List.append_inj' h rfl
  exact ⟨hbefore, List.singleton_inj.mp hlast⟩

namespace Sampler

variable {s : Sampler} {logits : List F32} {draw : Sampler → List F32 → Int}

/-- The tokens that the sampler has to avoid. -/
def Allowed (s : Sampler) (token : Int) : Prop :=
  token ∉ s.suppress ∧
    ¬Repeats s.params.noRepeatNgram (s.ngramPrefix ++ s.history ++ [token])
      (s.ngramPrefix ++ s.history).length

/-- One step. -/
theorem sample_allowed (hgreedy : s.isGreedy = true) (hn : 2 ≤ s.params.noRepeatNgram)
    (hlen : logits.length ≤ 2 ^ 31) (hdecisive : Decisive (s.masked logits)) :
    s.Allowed (s.sample draw logits) := by
  obtain ⟨hkept, -⟩ := masked_masks s logits
  have hne : s.masked logits ≠ [] := by
    rintro hnil
    obtain ⟨before, x, after, hsplit, -⟩ := hdecisive
    rw [hnil] at hsplit
    simp at hsplit
  obtain ⟨r, hr, htoken, hunmasked⟩ := argmax_spec hne (by omega)
  have hnonempty : ¬ logits.isEmpty = true := by
    rw [List.isEmpty_iff, ← List.length_eq_zero_iff]
    omega
  rw [sample, if_neg hnonempty, if_pos hgreedy, htoken]
  have hid : asUsize (r : Int) = r := asUsize_natCast (by omega)
  constructor
  · intro hsuppress
    have hmasked := @masked_suppress s logits _ hsuppress (by omega)
    rw [hid] at hmasked
    exact hunmasked hdecisive hmasked
  · rintro ⟨i, hi, hrepeat⟩
    obtain ⟨hsuffix, hsame⟩ := repeats_snoc (by omega) hi hrepeat
    refine hunmasked hdecisive (masked_repeat hn hi hsuffix ?_ (by omega))
    rw [hsame, hid]

/-- Each row of a run is one of token ids, and it is decisive after the masks. -/
def DecisiveRun (draw : Sampler → List F32 → Int) (s : Sampler) : List (List F32) → Prop
  | [] => True
  | logits :: rows =>
      logits.length ≤ 2 ^ 31 ∧ Decisive (s.masked logits) ∧
        (s.observe (s.sample draw logits)).DecisiveRun draw rows

/-- A run goes on from the history, and every token that it adds was allowed when it came. -/
theorem generate_allowed (hgreedy : s.isGreedy = true) (hn : 2 ≤ s.params.noRepeatNgram)
    {rows : List (List F32)} (hrun : s.DecisiveRun draw rows) :
    ∃ tokens, (s.generate draw rows).history = s.history ++ tokens ∧
      ∀ k (hk : k < tokens.length),
        { s with history := s.history ++ tokens.take k }.Allowed tokens[k] := by
  induction rows generalizing s with
  | nil => exact ⟨[], (List.append_nil _).symm, fun k hk => absurd hk (Nat.not_lt_zero k)⟩
  | cons logits rows ih =>
      obtain ⟨hlen, hdecisive, hrest⟩ := hrun
      have hallowed : s.Allowed (s.sample draw logits) := sample_allowed hgreedy hn hlen hdecisive
      obtain ⟨tokens, hhistory, hall⟩ := ih (s := s.observe (s.sample draw logits)) hgreedy hn hrest
      refine ⟨s.sample draw logits :: tokens, ?_, fun k hk => ?_⟩
      · rw [generate, hhistory, observe, List.append_assoc]
        rfl
      · cases k with
        | zero =>
            rw [List.take_zero, List.append_nil]
            exact hallowed
        | succ k =>
            have hlater := hall k (Nat.lt_of_succ_lt_succ hk)
            rw [observe, List.append_assoc] at hlater
            exact hlater

end Sampler

/-- What comes behind a place makes no difference to it. -/
theorem repeats_append {n place : Nat} {seq : List Int} (hplace : place < seq.length)
    (rest : List Int) : Repeats n (seq ++ rest) place ↔ Repeats n seq place := by
  have htake : ∀ i, i + n ≤ seq.length → ((seq ++ rest).drop i).take n = (seq.drop i).take n := by
    intro i hi
    rw [List.drop_append_of_le_length (by omega), List.take_append_of_le_length]
    rw [List.length_drop]
    omega
  refine exists_congr fun i => and_congr_right fun hi => ?_
  rw [htake i (by omega), htake (place + 1 - n) (by omega)]

/-- In a greedy run whose rows are all decisive no token is suppressed, and none completes an
n-gram that the prompt or what was generated before it already has. -/
theorem no_repeat_ngram (draw : Sampler → List F32 → Int) (s : Sampler) (rows : List (List F32))
    (hgreedy : s.isGreedy = true) (hn : 2 ≤ s.params.noRepeatNgram)
    (hrun : s.DecisiveRun draw rows) :
    ∃ tokens, (s.generate draw rows).history = s.history ++ tokens ∧
      ∀ k (hk : k < tokens.length), tokens[k] ∉ s.suppress ∧
        ¬Repeats s.params.noRepeatNgram (s.ngramPrefix ++ (s.history ++ tokens))
          (s.ngramPrefix.length + s.history.length + k) := by
  obtain ⟨tokens, hhistory, hall⟩ := Sampler.generate_allowed hgreedy hn hrun
  refine ⟨tokens, hhistory, fun k hk => ?_⟩
  obtain ⟨hsuppress, hnew⟩ := hall k hk
  refine ⟨hsuppress, fun hrepeat => hnew ?_⟩
  have hlen : (s.ngramPrefix ++ (s.history ++ tokens.take k)).length =
      s.ngramPrefix.length + s.history.length + k := by
    rw [List.length_append, List.length_append, List.length_take_of_le (Nat.le_of_lt hk),
      Nat.add_assoc]
  have hsplit : s.ngramPrefix ++ (s.history ++ tokens) =
      (s.ngramPrefix ++ (s.history ++ tokens.take k) ++ [tokens[k]]) ++ tokens.drop (k + 1) := by
    simp
  dsimp only
  rw [hlen]
  rw [hsplit, repeats_append] at hrepeat
  · exact hrepeat
  · rw [List.length_append, hlen, List.length_singleton]
    exact Nat.lt_succ_self _

/-- `1.0` -/
def one : F32 := ⟨0x3F800000⟩

def nan : F32 := ⟨0x7FC00000⟩

/-- The token 2 is suppressed, and after 1 it would repeat the prompt. -/
def warySampler : Sampler where
  params := ⟨F32.zero, 2⟩
  history := []
  suppress := [2]
  ngramPrefix := [1, 2, 1]

/-- Nothing is drawn at temperature zero. -/
def noDraw : Sampler → List F32 → Int := fun _ _ => 0

theorem no_repeat_ngram_wary :
    ∃ tokens, (warySampler.generate noDraw [[F32.zero, one, one]]).history = [] ++ tokens ∧
      ∀ k (hk : k < tokens.length), tokens[k] ∉ ([2] : List Int) ∧
        ¬Repeats 2 ([1, 2, 1] ++ ([] ++ tokens)) (3 + 0 + k) :=
  no_repeat_ngram noDraw warySampler [[F32.zero, one, one]] rfl (Nat.le_refl 2)
    ⟨by decide, decisive_of_numbers (by decide) (by decide), trivial⟩

/-- Behind a logit that is no number the masked one is taken, though another remains. -/
theorem masked_after_nan :
    (∃ x ∈ warySampler.masked [one, nan, one], F32.negInf.lt x = true) ∧
      (warySampler.generate noDraw [[one, nan, one]]).history = [2] ∧ 2 ∈ warySampler.suppress ∧
      Repeats 2 (warySampler.ngramPrefix ++ [2]) 3 :=
  ⟨by decide, by decide, by decide, 0, by decide⟩

end ShannonPrime.Daemon
