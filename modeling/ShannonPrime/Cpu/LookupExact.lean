import ShannonPrime.Cpu.Lookup

/-!
Lookup-speculative decoding is greedy decoding: whatever the drafts are, both loops write
`Greedy.decode` of the model's argmax after the prompt.
-/

namespace ShannonPrime.Cpu

open Buffer

variable {F Kv : Type*}

/-! ### Argmax -/

section Argmax

variable {gt : F → F → Bool} {n : Nat}

theorem mtpArgmax_eq (row : Nat → F) : mtpArgmax gt row n = generateArgmax gt row n := by
  have hfold : ∀ (is : List Nat) (b : Nat),
      is.foldl (fun best i => if gt (row i) best.2 then (i, row i) else best) (b, row b) =
        (is.foldl (fun amax j => if gt (row j) (row amax) then j else amax) b,
          row (is.foldl (fun amax j => if gt (row j) (row amax) then j else amax) b)) := by
    intro is
    induction is with
    | nil => intro b; rfl
    | cons i is ih =>
        intro b
        simp only [List.foldl_cons]
        split
        · exact ih i
        · exact ih b
  unfold mtpArgmax generateArgmax
  rw [hfold]

/-- The argmax reads the row's entries only. -/
theorem generateArgmax_congr {row row' : Nat → F} (h : ∀ j, j < n → row j = row' j) :
    generateArgmax gt row n = generateArgmax gt row' n := by
  have hfold : ∀ (is : List Nat), (∀ i ∈ is, i < n) → ∀ b, b < n →
      is.foldl (fun amax j => if gt (row j) (row amax) then j else amax) b =
        is.foldl (fun amax j => if gt (row' j) (row' amax) then j else amax) b := by
    intro is
    induction is with
    | nil => intro _ b _; rfl
    | cons i is ih =>
        intro his b hb
        have hi : i < n := his i List.mem_cons_self
        have hrest := ih (fun k hk => his k (List.mem_cons_of_mem _ hk))
        simp only [List.foldl_cons, h i hi, h b hb]
        split
        · exact hrest i hi
        · exact hrest b hb
  unfold generateArgmax
  cases n with
  | zero => rfl
  | succ n =>
      apply hfold _ _ 0 (Nat.succ_pos n)
      intro i hi
      have := (List.mem_range'_1.mp hi).2
      omega

end Argmax

/-! ### Histories in a token memory -/

/-- The tokens written one after the other from `n` on. -/
def writeTokens (seq : Nat → Int) (n : Nat) : List Int → Nat → Int
  | [] => seq
  | t :: rest => writeTokens (Function.update seq n t) (n + 1) rest

section Histories

variable {seq : Nat → Int} {n : Nat}

theorem writeTokens_append (ts us : List Int) (seq : Nat → Int) (n : Nat) :
    writeTokens seq n (ts ++ us) = writeTokens (writeTokens seq n ts) (n + ts.length) us := by
  induction ts generalizing seq n with
  | nil => rfl
  | cons t ts ih =>
      rw [List.cons_append, List.length_cons, Nat.add_comm ts.length, ← Nat.add_assoc]
      exact ih _ _

theorem vec_update (t : Int) : vec (n + 1) (Function.update seq n t) = vec n seq ++ [t] := by
  unfold vec
  rw [List.range_succ, List.map_append, List.map_singleton, Function.update_self]
  congr 1
  apply List.map_congr_left
  intro i hi
  exact Function.update_of_ne (Nat.ne_of_lt (List.mem_range.mp hi)) _ _

theorem writeTokens_beyond (ts : List Int) (seq : Nat → Int) (n : Nat) {p : Nat}
    (h : n + ts.length ≤ p) : writeTokens seq n ts p = seq p := by
  induction ts generalizing seq n with
  | nil => rfl
  | cons t ts ih =>
      rw [List.length_cons] at h
      unfold writeTokens
      rw [ih _ _ (by omega)]
      exact Function.update_of_ne (by omega) _ _

end Histories

/-! ### Greedy decoding with one token at a time -/

section Greedy

variable (M : AppendModel F Kv) (gt : F → F → Bool) (eosId : Int)

/-- The token the model continues a history with. -/
def AppendModel.next (history : List Int) : Int :=
  generateArgmax gt (M.logits history) M.nVocab

theorem generateLoop_eq (left : Nat) (seq : Nat → Int) (n : Nat) (hn : 0 < n) (lg : Nat → F) :
    generateLoop M gt eosId left seq n lg =
      some (writeTokens seq n (Greedy.decode (M.next gt) (isEos eosId) left (vec n seq)),
        n + (Greedy.decode (M.next gt) (isEos eosId) left (vec n seq)).length) := by
  induction left generalizing seq n lg with
  | zero => rfl
  | succ left ih =>
      obtain ⟨lg', hforward, hrows⟩ := M.forward_rows (vec n seq) lg
      have hlength : (vec n seq).length = n := by simp [vec]
      have hnext : (generateArgmax gt (fun j => lg' ((n - 1) * M.nVocab + j)) M.nVocab : Int) =
          M.next gt (vec n seq) := by
        have hlast : (vec n seq).take (n - 1 + 1) = vec n seq := by
          rw [Nat.sub_add_cancel hn]
          exact List.take_of_length_le hlength.le
        unfold AppendModel.next
        congr 1
        apply generateArgmax_congr
        intro j hj
        rw [hrows (n - 1) (by omega) j hj, hlast]
      unfold generateLoop
      rw [hforward, Option.bind_some]
      simp only [hnext]
      unfold Greedy.decode
      split
      · simp [writeTokens]
      · rw [ih _ _ (Nat.succ_pos n), vec_update]
        simp only [writeTokens, List.length_cons]
        rw [Nat.add_comm (List.length _) 1, ← Nat.add_assoc]

end Greedy

/-! ### Drafts -/

theorem matchLength_eq (next : List Int → Int) (best : Nat → Int) (history draft : List Int)
    (i : Nat) (h : ∀ k, k ≤ draft.length → best (i + k) = next (history ++ draft.take k)) :
    draft.take (matchLength best i draft) = Greedy.accepted next history draft ∧
      best (i + matchLength best i draft) =
        next (history ++ Greedy.accepted next history draft) := by
  induction draft generalizing history i with
  | nil => exact ⟨rfl, h 0 (Nat.zero_le _)⟩
  | cons d rest ih =>
      have hhere : best i = next history := by simpa using h 0 (Nat.zero_le _)
      unfold matchLength Greedy.accepted
      rw [hhere]
      split
      · have hrest := ih (history ++ [d]) (i + 1) (by
          intro k hk
          have := h (k + 1) (by simpa using hk)
          rw [List.take_succ_cons] at this
          rw [List.append_assoc, List.singleton_append, Nat.add_assoc, Nat.add_comm 1 k]
          exact this)
        constructor
        · rw [List.take_succ_cons, hrest.1]
        · rw [Nat.add_comm (matchLength _ _ _) 1, ← Nat.add_assoc, hrest.2, List.append_assoc,
            List.singleton_append]
      · constructor
        · rfl
        · simpa using hhere

theorem matchLength_le (best : Nat → Int) (i : Nat) (draft : List Int) :
    matchLength best i draft ≤ draft.length := by
  induction draft generalizing i with
  | nil => exact Nat.le_refl _
  | cons d rest ih =>
      unfold matchLength
      split
      · exact Nat.succ_le_succ (ih _)
      · exact Nat.zero_le _

theorem mtpDraftLookup_length (h : Nat → Int) (hn ng k : Nat) :
    (mtpDraftLookup h hn ng k).length ≤ k := by
  unfold mtpDraftLookup
  split
  · exact Nat.zero_le _
  · split
    · exact Nat.zero_le _
    · rename_i j _
      have hprefix : (List.range k).takeWhile (fun d => j + ng + d < hn) <+: List.range k :=
        List.takeWhile_prefix _
      rw [List.length_map]
      exact hprefix.length_le.trans_eq List.length_range

/-! ### The decode loop -/

section Loop

variable {M : AppendModel F Kv} {gt : F → F → Bool} {p : Params} {seq₀ : Nat → Int}

/-- What is written so far, in every turn. -/
structure Written (p : Params) (seq₀ : Nat → Int) (out : List Int) (s : Decode F Kv) : Prop where
  seq : s.seq = writeTokens seq₀ p.nPrompt out
  produced : s.produced = out.length
  n : s.n = p.nPrompt + out.length
  calls : ∀ call ∈ s.calls, 1 ≤ call.2 ∧ call.1 + call.2 ≤ p.cap

/-- Between two turns, while tokens are missing: the whole history is cached, and the
next token is known. -/
structure Ready (M : AppendModel F Kv) (gt : F → F → Bool) (p : Params) (seq₀ : Nat → Int)
    (out : List Int) (s : Decode F Kv) : Prop where
  C : s.C = p.nPrompt + out.length
  cur : s.cur = M.next gt (vec p.nPrompt seq₀ ++ out)
  holds : M.Holds p.cap s.kv (vec p.nPrompt seq₀ ++ out)

theorem Written.put {out : List Int} {s : Decode F Kv} (h : Written p seq₀ out s) (t : Int) :
    Written p seq₀ (out ++ [t]) (s.put p t) := by
  constructor
  · simp only [Decode.put, h.seq, h.produced]
    rw [writeTokens_append]
    rfl
  · simp [Decode.put, h.produced]
  · simp [Decode.put, h.produced]
  · exact h.calls

/-- The draft loop writes what `Greedy.emit` says, and touches no cache. -/
theorem emitDraft_spec (ts : List Int) {out : List Int} {s : Decode F Kv}
    (h : Written p seq₀ out s) :
    (s.emitDraft p ts).2 = (Greedy.emit (isEos p.eosId) (p.nGen - out.length) ts).2 ∧
      Written p seq₀ (out ++ (Greedy.emit (isEos p.eosId) (p.nGen - out.length) ts).1)
        (s.emitDraft p ts).1 ∧
      (s.emitDraft p ts).1.kv = s.kv ∧ (s.emitDraft p ts).1.C = s.C := by
  induction ts generalizing out s with
  | nil =>
      have hnil : Greedy.emit (isEos p.eosId) (p.nGen - out.length) [] = ([], false) := by
        cases p.nGen - out.length <;> rfl
      rw [hnil, List.append_nil]
      exact ⟨rfl, h, rfl, rfl⟩
  | cons t rest ih =>
      unfold Decode.emitDraft
      rw [h.produced]
      split
      · rename_i hlt
        obtain ⟨left, hleft⟩ := Nat.exists_eq_add_of_lt hlt
        have hlimit : p.nGen - out.length = left + 1 := by omega
        have hlimit' : p.nGen - (out ++ [t]).length = left := by
          rw [List.length_append, List.length_singleton]
          omega
        rw [hlimit]
        unfold Greedy.emit
        split
        · exact ⟨rfl, h.put t, rfl, rfl⟩
        · obtain ⟨hstop, hwritten, hkv, hC⟩ := ih (h.put t)
          rw [hlimit'] at hstop hwritten
          rw [List.append_assoc, List.singleton_append] at hwritten
          exact ⟨hstop, hwritten, hkv, hC⟩
      · have hlimit : p.nGen - out.length = 0 := by omega
        rw [hlimit]
        unfold Greedy.emit
        rw [List.append_nil]
        exact ⟨rfl, h, rfl, rfl⟩

/-- A turn that verifies a draft: the state `s'` behind the forward, in which the accepted
part of the draft is still to be written. -/
theorem turn_verify {out : List Int} {s : Decode F Kv} (h : Written p seq₀ out s)
    (hready : Ready M gt p seq₀ out s)
    (hend : ¬ (isEos p.eosId s.cur ∨ p.nGen ≤ (s.put p s.cur).produced)) :
    let history := vec p.nPrompt seq₀ ++ (out ++ [s.cur])
    ∃ draft s', let acc := Greedy.accepted (M.next gt) history draft
      Written p seq₀ (out ++ [s.cur]) s' ∧ s'.C = s.C ∧ M.Holds p.cap s'.kv (history ++ acc) ∧
      s.turn M gt p =
        if (s'.emitDraft p acc).2 then
          .stop { (s'.emitDraft p acc).1 with
            accSum := (s'.emitDraft p acc).1.accSum + acc.length
            accSteps := (s'.emitDraft p acc).1.accSteps + 1 }
        else
          .again { (s'.emitDraft p acc).1 with
            accSum := (s'.emitDraft p acc).1.accSum + acc.length
            accSteps := (s'.emitDraft p acc).1.accSteps + 1
            cur := M.next gt (history ++ acc)
            C := (s'.emitDraft p acc).1.C + (acc.length + 1) } := by
  have hput := h.put s.cur
  have hroom : (out ++ [s.cur]).length < p.nGen := by
    rw [← hput.produced]
    omega
  generalize hdraft : mtpDraftLookup (s.put p s.cur).seq
    (p.nPrompt + (s.put p s.cur).produced) p.NG p.K = draft
  have hshort : draft.length ≤ p.K := hdraft ▸ mtpDraftLookup_length _ _ _ _
  have hhistory : (vec p.nPrompt seq₀ ++ out).length = s.C := by
    rw [hready.C, List.length_append]
    simp [vec]
  have hcap : s.C + (s.cur :: draft).length ≤ p.cap := by
    rw [List.length_append] at hroom
    rw [hready.C, List.length_cons, Params.cap]
    omega
  obtain ⟨kv', lg', hforward, hholds, hrows⟩ := M.mtpForward_rows (s.cur :: draft) s.lg
    hready.holds (List.cons_ne_nil _ _) (by rw [hhistory]; exact hcap)
  rw [hhistory] at hforward
  -- row `i` is the model's row after the token and `i` drafts
  have hbest : ∀ k, k ≤ draft.length →
      (mtpArgmax gt (fun j => lg' ((0 + k) * M.nVocab + j)) M.nVocab : Int) =
        M.next gt (vec p.nPrompt seq₀ ++ (out ++ [s.cur]) ++ draft.take k) := by
    intro k hk
    rw [mtpArgmax_eq, Nat.zero_add]
    unfold AppendModel.next
    congr 1
    apply generateArgmax_congr
    intro j hj
    rw [hrows k (by simpa [Nat.lt_succ_iff] using hk) j hj, List.take_succ_cons]
    simp
  obtain ⟨htake, hnext⟩ := matchLength_eq (M.next gt)
    (fun i => (mtpArgmax gt (fun j => lg' (i * M.nVocab + j)) M.nVocab : Int)) _ _ 0 hbest
  have hna := matchLength_le
    (fun i => (mtpArgmax gt (fun j => lg' (i * M.nVocab + j)) M.nVocab : Int)) 0 draft
  have hlength : matchLength
      (fun i => (mtpArgmax gt (fun j => lg' (i * M.nVocab + j)) M.nVocab : Int)) 0 draft =
      (Greedy.accepted (M.next gt) (vec p.nPrompt seq₀ ++ (out ++ [s.cur])) draft).length := by
    rw [← htake, List.length_take, Nat.min_eq_left hna]
  refine ⟨draft, { s.put p s.cur with
    kv := kv', lg := lg', fwd := s.fwd + 1
    calls := s.calls ++ [(s.C, (s.cur :: draft).length)] }, ?_, rfl, ?_, ?_⟩
  · refine ⟨hput.seq, hput.produced, hput.n, ?_⟩
    intro call hcall
    rcases List.mem_append.mp hcall with hold | hnew
    · exact h.calls call hold
    · rw [List.mem_singleton.mp hnew]
      exact ⟨Nat.succ_pos _, hcap⟩
  · -- the rejected drafts are cached too, beyond what is held from here on
    obtain ⟨rejected, hsplit⟩ := Greedy.accepted_prefix (M.next gt)
      (vec p.nPrompt seq₀ ++ (out ++ [s.cur])) draft
    have hcached : vec p.nPrompt seq₀ ++ out ++ s.cur :: draft =
        vec p.nPrompt seq₀ ++ (out ++ [s.cur]) ++
          Greedy.accepted (M.next gt) (vec p.nPrompt seq₀ ++ (out ++ [s.cur])) draft ++
          rejected := by
      rw [List.append_assoc (vec p.nPrompt seq₀ ++ (out ++ [s.cur])), hsplit]
      simp
    rw [hcached] at hholds
    have hheld := M.holds_take hholds (vec p.nPrompt seq₀ ++ (out ++ [s.cur]) ++
      Greedy.accepted (M.next gt) (vec p.nPrompt seq₀ ++ (out ++ [s.cur])) draft).length
    rwa [List.take_left] at hheld
  · unfold Decode.turn
    simp only [Decode.put_cur, Decode.put_C, Decode.put_kv, Decode.put_lg, Decode.put_fwd,
      Decode.put_calls, hdraft, hforward, htake]
    rw [Nat.zero_add, hlength] at hnext
    rw [if_neg hend, hlength, hnext]
    rfl

/-- One turn: it writes some more of what greedy decoding writes. If it is not the last,
the rest is decoded from where it ends. -/
theorem turn_spec {out : List Int} {s : Decode F Kv} (h : Written p seq₀ out s)
    (hready : Ready M gt p seq₀ out s) (hmore : out.length < p.nGen) :
    let rest := fun out => Greedy.decode (M.next gt) (isEos p.eosId) (p.nGen - out.length)
      (vec p.nPrompt seq₀ ++ out)
    (∃ s', s.turn M gt p = .stop s' ∧ Written p seq₀ (out ++ rest out) s') ∨
      ∃ s' new, s.turn M gt p = .again s' ∧ new ≠ [] ∧ (out ++ new).length ≤ p.nGen ∧
        rest out = new ++ rest (out ++ new) ∧ Written p seq₀ (out ++ new) s' ∧
        ((out ++ new).length < p.nGen → Ready M gt p seq₀ (out ++ new) s') := by
  obtain ⟨left, hleft⟩ := Nat.exists_eq_add_of_lt hmore
  have hput := h.put s.cur
  have hcur := hready.cur
  have hwidth : (out ++ [s.cur]).length = out.length + 1 := by simp
  -- the token is written; what is left comes after it
  have hdecode : Greedy.decode (M.next gt) (isEos p.eosId) (p.nGen - out.length)
      (vec p.nPrompt seq₀ ++ out) = s.cur :: if isEos p.eosId s.cur then [] else
        Greedy.decode (M.next gt) (isEos p.eosId) left
          (vec p.nPrompt seq₀ ++ (out ++ [s.cur])) := by
    have hlimit : p.nGen - out.length = left + 1 := by omega
    rw [hlimit, ← List.append_assoc, hcur]
    rfl
  dsimp only
  rw [hdecode]
  by_cases hend : isEos p.eosId s.cur ∨ p.nGen ≤ (s.put p s.cur).produced
  · left
    refine ⟨s.put p s.cur, ?_, ?_⟩
    · unfold Decode.turn
      exact if_pos hend
    · by_cases heos : isEos p.eosId s.cur
      · rw [if_pos heos]
        exact hput
      · have hzero : left = 0 := by
          have := hend.resolve_left heos
          rw [hput.produced] at this
          omega
        rw [if_neg heos, hzero]
        exact hput
  · have heos : ¬ isEos p.eosId s.cur := fun he => hend (Or.inl he)
    obtain ⟨draft, s', hwritten, hC, hholds, hturn⟩ := turn_verify h hready hend
    obtain ⟨hstop, hemitted, hkv, hC'⟩ := emitDraft_spec
      (Greedy.accepted (M.next gt) (vec p.nPrompt seq₀ ++ (out ++ [s.cur])) draft) hwritten
    have hrest := Greedy.decode_eq_emit (M.next gt) (isEos p.eosId) left
      (vec p.nPrompt seq₀ ++ (out ++ [s.cur])) draft
    have hleft' : p.nGen - (out ++ [s.cur]).length = left := by omega
    rw [hleft'] at hstop hemitted
    dsimp only at hrest hturn hholds
    rw [hturn, hstop, if_neg heos, hrest]
    generalize Greedy.accepted (M.next gt) (vec p.nPrompt seq₀ ++ (out ++ [s.cur])) draft = acc
      at *
    have hshort : (Greedy.emit (isEos p.eosId) left acc).1.length ≤ left := Greedy.emit_length
    have hall : (Greedy.emit (isEos p.eosId) left acc).2 = false →
        (Greedy.emit (isEos p.eosId) left acc).1.length < left →
        (Greedy.emit (isEos p.eosId) left acc).1 = acc := Greedy.emit_all
    generalize Greedy.emit (isEos p.eosId) left acc = e at *
    rw [List.append_assoc, List.singleton_append] at hemitted
    obtain ⟨new, stopped⟩ := e
    cases stopped with
    | true =>
        left
        refine ⟨_, rfl, ?_⟩
        simpa using ⟨hemitted.seq, hemitted.produced, hemitted.n, hemitted.calls⟩
    | false =>
        right
        refine ⟨_, s.cur :: new, rfl, List.cons_ne_nil _ _, ?_, ?_, ?_, ?_⟩
        · simp at hshort ⊢
          omega
        · have hleft'' : p.nGen - (out ++ s.cur :: new).length = left - new.length := by
            simp only [List.length_append, List.length_cons]
            omega
          rw [hleft'']
          simp
        · exact ⟨hemitted.seq, hemitted.produced, hemitted.n, hemitted.calls⟩
        · -- the draft loop ran to the end of what was accepted
          intro hroom
          have hnew : new = acc := hall rfl (by simp at hroom ⊢; omega)
          subst hnew
          refine ⟨?_, ?_, ?_⟩
          · simp only [hC', hC, hready.C, List.length_append, List.length_cons]
            omega
          · simp
          · simp only [hkv]
            simpa using hholds

/-- The loop from any turn on: fuel for the missing tokens is enough, no forward fails,
and what is written is what greedy decoding writes. -/
theorem loop_spec (fuel : Nat) {out : List Int} {s : Decode F Kv} (h : Written p seq₀ out s)
    (hready : out.length < p.nGen → Ready M gt p seq₀ out s) (hle : out.length ≤ p.nGen)
    (hfuel : p.nGen - out.length < fuel) :
    ∃ s', Decode.loop M gt p fuel s = some (true, s') ∧
      Written p seq₀ (out ++ Greedy.decode (M.next gt) (isEos p.eosId) (p.nGen - out.length)
        (vec p.nPrompt seq₀ ++ out)) s' := by
  induction fuel generalizing out s with
  | zero => exact absurd hfuel (Nat.not_lt_zero _)
  | succ fuel ih =>
      unfold Decode.loop
      rw [h.produced]
      by_cases hmore : out.length < p.nGen
      · rw [if_pos hmore]
        rcases turn_spec h (hready hmore) hmore with ⟨s', hturn, hwritten⟩ |
          ⟨s', new, hturn, hnew, hbound, hrest, hwritten, hready'⟩
        · exact ⟨s', by rw [hturn], hwritten⟩
        · have hlonger : out.length < (out ++ new).length := by
            have := List.length_pos_iff.mpr hnew
            rw [List.length_append]
            omega
          obtain ⟨s'', hloop, hfinal⟩ := ih hwritten hready' hbound (by omega)
          refine ⟨s'', ?_, ?_⟩
          · rw [hturn]
            exact hloop
          · dsimp only at hrest
            rw [hrest, ← List.append_assoc]
            exact hfinal
      · have hzero : p.nGen - out.length = 0 := by omega
        rw [if_neg hmore, hzero]
        unfold Greedy.decode
        rw [List.append_nil]
        exact ⟨s, rfl, h⟩

end Loop

/-- `qwen3_mtp_decode` behind its checks. -/
theorem decodeFrom_spec (M : AppendModel F Kv) (gt : F → F → Bool) (p : Params)
    (hprompt : 0 < p.nPrompt) (seq : Nat → Int) (kv : Kv) (lg : Nat → F) :
    ∃ s : Decode F Kv, decodeFrom M gt p seq kv lg = some (s.result s.n) ∧
      Written p seq (Greedy.decode (M.next gt) (isEos p.eosId) p.nGen (vec p.nPrompt seq)) s := by
  have hlength : (vec p.nPrompt seq).length = p.nPrompt := by simp [vec]
  have hne : vec p.nPrompt seq ≠ [] := by
    apply List.ne_nil_of_length_pos
    omega
  have hcap : p.nPrompt ≤ p.cap := by
    unfold Params.cap
    omega
  obtain ⟨kv', lg', hforward, hholds, hrows⟩ := M.mtpForward_rows (vec p.nPrompt seq) lg
    (M.holds_nil p.cap kv) hne (by simpa [hlength] using hcap)
  rw [List.length_nil] at hforward
  rw [List.nil_append] at hholds
  have hfirst : (mtpArgmax gt (fun j => lg' ((p.nPrompt - 1) * M.nVocab + j)) M.nVocab : Int) =
      M.next gt (vec p.nPrompt seq) := by
    have hall : (vec p.nPrompt seq).take (p.nPrompt - 1 + 1) = vec p.nPrompt seq := by
      apply List.take_of_length_le
      omega
    rw [mtpArgmax_eq]
    unfold AppendModel.next
    congr 1
    apply generateArgmax_congr
    intro j hj
    rw [hrows _ (by omega) j hj, hall, List.nil_append]
  let s₀ : Decode F Kv :=
    { seq := seq, kv := kv', lg := lg', C := p.nPrompt, produced := 0, n := p.nPrompt
      cur := mtpArgmax gt (fun j => lg' ((p.nPrompt - 1) * M.nVocab + j)) M.nVocab
      fwd := 1, accSum := 0, accSteps := 0, calls := [(0, p.nPrompt)] }
  have hwritten₀ : Written p seq [] s₀ := by
    refine ⟨rfl, rfl, rfl, ?_⟩
    intro call hcall
    rw [List.mem_singleton.mp hcall]
    exact ⟨hprompt, by simpa using hcap⟩
  have hready₀ : Ready M gt p seq [] s₀ :=
    ⟨rfl, by rw [List.append_nil]; exact hfirst, by rw [List.append_nil]; exact hholds⟩
  obtain ⟨s, hloop, hwritten⟩ := loop_spec (p.nGen + 1) hwritten₀ (fun _ => hready₀)
    (Nat.zero_le _) (Nat.lt_succ_self _)
  unfold decodeFrom
  dsimp only
  rw [hforward]
  refine ⟨s, ?_, by simpa using hwritten⟩
  change (Decode.loop M gt p (p.nGen + 1) s₀).map _ = _
  rw [hloop]
  rfl

/-- Lookup-speculative decoding leaves the tokens and returns the length that greedy
decoding does, writes nothing from `n_prompt + n_gen` on and stays within the cache. -/
theorem qwen3MtpDecode_eq_generate (M : AppendModel F Kv) (gt : F → F → Bool)
    (seq : Nat → Int) (nPrompt nGen eosId K NG : Int) (kv : Kv) (lg lg' : Nat → F) :
    ∃ d, qwen3MtpDecode M gt seq nPrompt nGen eosId K NG kv lg = some d ∧
      (d.seq, d.ret) = qwen3Generate M gt seq nPrompt nGen eosId lg' ∧
      (1 ≤ nPrompt → 0 ≤ nGen → nPrompt ≤ d.ret ∧ d.ret ≤ nPrompt + nGen) ∧
      (∀ i : Nat, nPrompt + nGen ≤ i → d.seq i = seq i) ∧
      ∀ call ∈ d.calls, 1 ≤ call.2 ∧
        (call.1 + call.2 : Int) ≤ nPrompt + nGen + (if K < 0 then 0 else K) + 8 := by
  by_cases hbad : nPrompt < 1 ∨ nGen < 0
  · have hbad' : nPrompt ≤ 0 ∨ nGen < 0 := by omega
    refine ⟨⟨seq, -1, 0, 0, 0, []⟩, ?_, ?_, ?_, ?_, ?_⟩
    · unfold qwen3MtpDecode
      exact if_pos hbad
    · unfold qwen3Generate
      rw [if_pos hbad']
    · intro h1 h2
      omega
    · intro i _
      rfl
    · intro call hcall
      cases hcall
  · obtain ⟨s, hdecode, hwritten⟩ := decodeFrom_spec M gt
      ⟨nPrompt.toNat, nGen.toNat, eosId, (if K < 0 then 0 else K).toNat,
        (if NG < 1 then 1 else NG).toNat⟩ (by simp; omega) seq kv lg
    have hgenerate := generateLoop_eq M gt eosId nGen.toNat seq nPrompt.toNat (by omega) lg'
    have hlength : (Greedy.decode (M.next gt) (isEos eosId) nGen.toNat
        (vec nPrompt.toNat seq)).length ≤ nGen.toNat := Greedy.decode_length
    have hret : (s.n : Int) = nPrompt.toNat +
        (Greedy.decode (M.next gt) (isEos eosId) nGen.toNat (vec nPrompt.toNat seq)).length := by
      have := hwritten.n
      dsimp only at this
      omega
    refine ⟨s.result s.n, ?_, ?_, ?_, ?_, ?_⟩
    · unfold qwen3MtpDecode
      rw [if_neg hbad]
      exact hdecode
    · unfold qwen3Generate
      rw [if_neg (by omega), hgenerate]
      simp only [Decode.result, hwritten.seq, hret, Nat.cast_add]
    · intro h1 h2
      simp only [Decode.result, hret]
      omega
    · intro i hi
      simp only [Decode.result, hwritten.seq]
      apply writeTokens_beyond
      omega
    · intro call hcall
      have := hwritten.calls call hcall
      simp only [Params.cap] at this
      refine ⟨this.1, ?_⟩
      split <;> omega

/-! ### The flat-memory forwards -/

namespace Model

variable {m : Model F} {e e' : Nat → Nat → F}

/-- The row at a position depends on the tokens up to it. -/
theorem residAt_congr (L : Nat) {pos : Nat} (h : ∀ s, s ≤ pos → e s = e' s) :
    m.residAt e L pos = m.residAt e' L pos := by
  induction L generalizing pos with
  | zero => exact h pos (Nat.le_refl _)
  | succ L ih =>
      have hbefore : ∀ s, s ≤ pos → m.residAt e L s = m.residAt e' L s :=
        fun s hs => ih (fun r hr => h r (hr.trans hs))
      have hattn : m.attnRow L (m.residAt e L) pos = m.attnRow L (m.residAt e' L) pos := by
        have hmap : ∀ f : Nat → (Nat → F) → List F,
            ((List.range (pos + 1)).map fun s => f s (m.residAt e L s)) =
              (List.range (pos + 1)).map fun s => f s (m.residAt e' L s) := by
          intro f
          apply List.map_congr_left
          intro s hs
          rw [hbefore s (Nat.lt_succ_iff.mp (List.mem_range.mp hs))]
        funext i
        unfold attnRow attended
        rw [hbefore pos (Nat.le_refl _), hmap fun s x => vec m.headDim (m.keyHead L s x _),
          hmap fun s x => vec m.headDim (m.valueHead L x _)]
      simp only [residAt, hbefore pos (Nat.le_refl _), hattn]

theorem Cached.congr {cap n n' : Nat} {kc vc : Nat → F} (h : Cached m cap e n kc vc)
    (hn : n' ≤ n) (he : ∀ s, s < n' → e s = e' s) : Cached m cap e' n' kc vc := by
  intro L hL
  constructor
  · intro s hs
    rw [← residAt_congr L (fun r hr => he r (by omega))]
    exact (h L hL).key s (by omega)
  · intro s hs
    rw [← residAt_congr L (fun r hr => he r (by omega))]
    exact (h L hL).value s (by omega)

/-- The embedded rows of a history, every token having a row. -/
def embedded (row : Int → Nat → F) (tokens : List Int) (i : Nat) : Nat → F :=
  row (tokens[i]?.getD 0)

theorem embedded_append (row : Int → Nat → F) (tokens rest : List Int) {i : Nat}
    (hi : i < tokens.length) : embedded row (tokens ++ rest) i = embedded row tokens i := by
  unfold embedded
  rw [List.getElem?_append_left hi]

theorem embedsAs_embedded {row : Int → Nat → F} (hrow : ∀ t, m.embedRow t = some (row t))
    (tokens batch : List Int) :
    EmbedsAs m batch (fun t => embedded row (tokens ++ batch) (tokens.length + t)) := by
  intro i tok htok
  unfold embedded
  dsimp only
  rw [List.getElem?_append_right (Nat.le_add_right _ _), Nat.add_sub_cancel_left, htok, hrow,
    Option.getD_some]

/-- The row of a history: that of its last position. -/
def historyRow (m : Model F) (row : Int → Nat → F) (tokens : List Int) : Nat → F :=
  m.logitsRow (m.residAt (embedded row tokens) m.nLayers (tokens.length - 1))

theorem historyRow_take (row : Int → Nat → F) (tokens : List Int) {i : Nat}
    (hi : i < tokens.length) :
    m.historyRow row (tokens.take (i + 1)) =
      m.logitsRow (m.residAt (embedded row tokens) m.nLayers i) := by
  have hlast : (tokens.take (i + 1)).length - 1 = i := by
    rw [List.length_take]
    omega
  unfold historyRow
  rw [hlast, residAt_congr]
  intro s hs
  have hsplit := embedded_append row (tokens.take (i + 1)) (tokens.drop (i + 1))
    (show s < _ by rw [List.length_take]; omega)
  rw [List.take_append_drop] at hsplit
  exact hsplit.symm

/-- The model behind the two loops, when every token has an embedding row; `w` is what the
work buffers of a call contain, `k` and `v` what the buffers of `qwen3_forward` do. -/
def appendModel (m : Model F) (row : Int → Nat → F) (hrow : ∀ t, m.embedRow t = some (row t))
    (w : Work F) (k v : Nat → F) : AppendModel F ((Nat → F) × (Nat → F)) where
  nVocab := m.nVocab
  logits := m.historyRow row
  forward tokens lg := m.forward tokens w k v lg
  mtpForward batch base kv cap lg :=
    (m.mtpForward batch base w kv.1 kv.2 cap lg).map fun r => ((r.1, r.2.1), r.2.2)
  Holds cap kv tokens := Cached m cap (embedded row tokens) tokens.length kv.1 kv.2
  holds_nil := by
    intro cap kv L _
    constructor <;> intro s hs <;> cases hs
  holds_take := by
    intro cap kv tokens h n
    apply h.congr (List.length_take_le' _ _)
    intro s hs
    have hsplit := embedded_append row (tokens.take n) (tokens.drop n) hs
    rwa [List.take_append_drop] at hsplit
  forward_rows := by
    intro tokens lg
    obtain ⟨lg', hforward, hrows⟩ := forward_spec
      (by simpa using embedsAs_embedded hrow [] tokens) w k v lg
    refine ⟨lg', hforward, ?_⟩
    intro i hi j hj
    have hcell := hrows i hi j hj
    rw [Nat.zero_add] at hcell
    rw [hcell, historyRow_take row tokens hi]
  mtpForward_rows := by
    intro cap kv tokens batch lg h hbatch hcap
    obtain ⟨kc, vc, lg', hcall, hcached, hlogits⟩ := mtpForward_rows hbatch hcap
      (embedsAs_embedded hrow tokens batch)
      (h.congr (Nat.le_refl _) (fun s hs => (embedded_append row tokens batch hs).symm)) w lg
    refine ⟨(kc, vc), lg', by rw [hcall]; rfl, ?_, ?_⟩
    · rw [List.length_append]
      exact hcached
    · intro i hi j hj
      have hrow := hlogits i hi j hj
      have hlt : tokens.length + i < (tokens ++ batch).length := by
        rw [List.length_append]
        omega
      have htake : (tokens ++ batch).take (tokens.length + i + 1) =
          tokens ++ batch.take (i + 1) := by
        rw [Nat.add_assoc, List.take_length_add_append]
      rw [Nat.zero_add] at hrow
      rw [hrow, ← htake, historyRow_take row _ hlt]

end Model

/-- The decoder on a small model, with a draft of up to two tokens after a bigram. -/
theorem qwen3MtpDecode_tiny :
    ∃ d, qwen3MtpDecode (tiny.appendModel (fun t _ => t) (fun _ => rfl) (tinyWork 1)
        (fun _ => 0) (fun _ => 0)) (fun a b => decide (b < a)) (fun i => i % 2) 4 5 (-1) 2 2
        (fun _ => 9, fun _ => 9) (fun _ => 0) = some d ∧
      (d.seq, d.ret) = qwen3Generate (tiny.appendModel (fun t _ => t) (fun _ => rfl)
        (tinyWork 1) (fun _ => 0) (fun _ => 0)) (fun a b => decide (b < a)) (fun i => i % 2) 4 5
        (-1) (fun _ => 0) ∧ d.ret ≤ 9 := by
  obtain ⟨d, hdecode, hsame, hret, -⟩ := qwen3MtpDecode_eq_generate
    (tiny.appendModel (fun t _ => t) (fun _ => rfl) (tinyWork 1) (fun _ => 0) (fun _ => 0))
    (fun a b => decide (b < a)) (fun i => i % 2) 4 5 (-1) 2 2 (fun _ => 9, fun _ => 9)
    (fun _ => 0) (fun _ => 0)
  exact ⟨d, hdecode, hsame, (hret (by decide) (by decide)).2⟩

end ShannonPrime.Cpu
