import ShannonPrime.Diffusion.PrefixWalk

/-!
The prefix-KV cache over a run of forwards: its sound buffers hold the prompt K/V of an
earlier call, and a call that finds no error pending and a filled cache gets the logits of a
full forward.
-/

namespace ShannonPrime.Diffusion

variable {ι R H F : Type} [DecidableEq ι] (models : ι → Model R H F)

/-! ### The cache over a run -/

/-- What the sound buffers of the cache hold is the prompt K/V of an earlier call. -/
def CacheRight (models : ι → Model R H F) (calls : List (Call ι R F))
    (cache : Option (Cache ι R)) : Prop :=
  ∀ c, cache = some c → ∃ call ∈ calls, 0 < call.rows models ∧ call.key models = c.key ∧
    (models call.model).SlotsRight (call.full models) (call.start models) c

omit [DecidableEq ι] in
theorem CacheRight.mono {calls : List (Call ι R F)} {cache : Option (Cache ι R)}
    (h : CacheRight models calls cache) (call : Call ι R F) :
    CacheRight models (calls ++ [call]) cache := by
  intro c hc
  obtain ⟨filler, hmem, hright⟩ := h c hc
  exact ⟨filler, List.mem_append_left _ hmem, hright⟩

theorem plan_saving {s : State ι R} {call : Call ι R F} (h : (plan models s call).saving = true) :
    0 < call.rows models ∧ plan models s call = call.fill models := by
  unfold plan at h ⊢
  cases hhit : hit models s call with
  | some c =>
      rw [hhit] at h
      cases h
  | none =>
      simp only [hhit] at h ⊢
      split at h
      case isTrue => cases h
      case isFalse hP =>
          split at h
          case isTrue => cases h
          case isFalse htables =>
              rw [if_neg hP, if_neg htables]
              exact ⟨Nat.pos_of_ne_zero hP, rfl⟩

theorem plan_keeping {s : State ι R} {call : Call ι R F} (h : (plan models s call).saving = false) :
    (plan models s call).cache = s.cache ∨ (plan models s call).cache = none := by
  unfold plan at h ⊢
  cases hhit : hit models s call with
  | some c =>
      left
      unfold hit at hhit
      split at hhit
      case isTrue => exact (Option.filter_eq_some_iff.mp hhit).1.symm
      case isFalse => cases hhit
  | none =>
      simp only [hhit] at h ⊢
      split
      case isTrue => exact .inl rfl
      case isFalse hP =>
          rw [if_neg hP] at h
          split
          case isTrue => exact .inr rfl
          case isFalse htables =>
              rw [if_neg htables] at h
              cases h

/-- The layers leave the cache right, whatever fails in them. -/
theorem walk_right {calls : List (Call ι R F)} {s : State ι R}
    (h : CacheRight models calls s.cache) (call : Call ι R F) (pending : Bool) :
    let p := plan models s call
    Ends (fun w => CacheRight models (calls ++ [call]) w.cache)
      (fun w => CacheRight models (calls ++ [call]) w.cache)
      ((models call.model).walk p call ⟨call.start models, p.cache, pending, true⟩
        (models call.model).nLayers) := by
  intro p
  cases hsaving : p.saving with
  | false =>
      have hkept : CacheRight models (calls ++ [call]) p.cache := by
        rcases plan_keeping models hsaving with hsame | hnone
        · exact hsame ▸ h.mono models call
        · intro c hc
          cases hnone.symm.trans hc
      apply ((models call.model).walk_keeps p call id
        (fun f L kv w => (models call.model).storeKV_cache p L f kv w hsaving) _ _).imp
      · rintro w (hw : w.cache = p.cache)
        rwa [hw]
      · rintro w (hw : w.cache = p.cache)
        rwa [hw]
  | true =>
      obtain ⟨hP, hp⟩ := plan_saving models hsaving
      have hfill : ∀ w : Walk ι R, w.cache.map Cache.key = p.cache.map Cache.key →
          (∀ c, w.cache = some c → (models call.model).SlotsRight p.pass (call.start models) c) →
          CacheRight models (calls ++ [call]) w.cache := by
        intro w hkey hslots c hc
        refine ⟨call, List.mem_append_right _ (List.mem_singleton.mpr rfl), hP, ?_, ?_⟩
        · rw [hc] at hkey
          simpa [p, hp, Call.fill] using hkey.symm
        · simpa [p, hp, Call.fill] using hslots c hc
      have hstart : (models call.model).OnTrack p.pass (call.start models) 0
          ⟨call.start models, p.cache, pending, true⟩ := by
        constructor
        · intro _
          rfl
        · intro c hc
          simp only [p, hp, Call.fill, Option.some.injEq] at hc
          subst hc
          intro L st kv _ _ _ _
          constructor <;> (intro b hb; cases hb)
      apply (((models call.model).walk_keeps p call (Option.map Cache.key)
        (fun f L kv w => (models call.model).storeKV_key p f L kv w) _ _).and
        ((models call.model).walk_onTrack p call hstart _)).imp
      · rintro w ⟨hkey, hslots⟩
        exact hfill w hkey hslots
      · rintro w ⟨hkey, htrack⟩
        exact hfill w hkey htrack.cache

/-- A call leaves the cache right, whatever fails in it. -/
theorem dgForward_right {calls : List (Call ι R F)} {s : State ι R}
    (h : CacheRight models calls s.cache) (call : Call ι R F) :
    CacheRight models (calls ++ [call]) (dgForward models s call).1.cache := by
  unfold dgForward
  dsimp only
  split
  case isTrue => exact h.mono models call
  case isFalse =>
  split
  case h_1 => exact h.mono models call
  case h_2 => exact h.mono models call
  case h_3 =>
      have hends := (walk_right models h call s.pending).bind (k := Model.finish call) (T := fun w =>
        CacheRight models (calls ++ [call]) w.cache) (by
          intro w hw
          apply (Model.finish_ends call w).imp
          · intro w' hsame
            exact hsame ▸ hw
          · rintro w' rfl
            exact hw)
      split
      case h_1 w hr =>
          rw [hr] at hends
          exact hends
      case h_2 w hr =>
          rw [hr] at hends
          exact hends

theorem runCalls_right (calls : List (Call ι R F)) :
    CacheRight models calls (runCalls models calls).cache := by
  induction calls using List.reverseRecOn with
  | nil =>
      intro c hc
      cases hc
  | append_singleton calls call ih =>
      unfold runCalls at ih ⊢
      rw [List.foldl_append]
      exact dgForward_right models ih call

/-! ### Transparency -/

/-- Every owner's buffers are there, with the rows of a computation in which nothing had
failed. -/
def Cache.Filled (m : Model R H F) (c : Cache ι R) : Prop :=
  ∀ L, L < m.nLayers → L < m.kvfs → Model.FilledAt c L

/-- No error is pending, and the cache that the call takes is filled. -/
def Ready (models : ι → Model R H F) (s : State ι R) (call : Call ι R F) : Prop :=
  s.pending = false ∧ ∀ c, hit models s call = some c → c.Filled (models call.model)

theorem plan_hit {s : State ι R} {call : Call ι R F} {c : Cache ι R}
    (h : hit models s call = some c) :
    plan models s call =
      ⟨(models call.model).fastPass call.leftover (c.rows call.unread) call.tokens, false, some c⟩ := by
  unfold plan
  rw [h]

theorem plan_miss {s : State ι R} {call : Call ι R F} (h : hit models s call = none) :
    (plan models s call).pass = call.full models := by
  unfold plan
  rw [h]
  dsimp only
  split
  · rfl
  · split <;> rfl

theorem hit_spec {s : State ι R} {call : Call ι R F} {c : Cache ι R}
    (h : hit models s call = some c) :
    0 < call.rows models ∧ s.cache = some c ∧ c.key = call.key models := by
  unfold hit at h
  split at h
  case isTrue hP =>
      obtain ⟨hc, hkey⟩ := Option.filter_eq_some_iff.mp h
      exact ⟨hP, hc, beq_iff_eq.mp hkey⟩
  case isFalse => cases h

/-- A call in which nothing fails is its walk through the layers. -/
theorem dgForward_clean {s : State ι R} {call : Call ι R F} (hfaults : call.faults = Faults.none)
    (haccepts : (models call.model).accepts call.tokens = true) :
    dgForward models s call =
      match (models call.model).walk (plan models s call) call
          ⟨call.start models, (plan models s call).cache, s.pending, true⟩
          (models call.model).nLayers >>= Model.finish call with
      | .error w => (⟨w.cache, w.pending⟩, none)
      | .ok w => (⟨w.cache, w.pending⟩, some ((models call.model).logits w.st)) := by
  unfold dgForward
  simp only [haccepts, Bool.not_true, Bool.false_eq_true, if_false]
  rw [hfaults]
  rfl

theorem promptRows_inj (m : Model R H F) {n n' : Nat} (hpos : 0 < m.promptRows n)
    (h : m.promptRows n = m.promptRows n') : n = n' := by
  unfold Config.promptRows at hpos h
  split at hpos
  case isFalse => omega
  case isTrue hlt =>
      rw [if_pos hlt] at h
      split at h <;> omega

omit [DecidableEq ι] in
/-- A filled cache is read as it was saved. -/
theorem rows_of_filled {m : Model R H F} {full : Pass R} {st₀ : Residual R} {c : Cache ι R}
    (unread : Nat → Rows R × Rows R) (hslots : m.SlotsRight full st₀ c) (hfilled : c.Filled m) :
    m.Cached full st₀ (c.rows unread) := by
  intro L st kv hL howner hst hkv s _
  obtain ⟨⟨bK, hK, hsoundK⟩, bV, hV, hsoundV⟩ := hfilled L hL howner
  obtain ⟨hrightK, hrightV⟩ := hslots L st kv hL howner hst hkv
  simp only [Cache.rows, hK, hV, Option.map_some, Option.getD_some, hrightK bK hK hsoundK,
    hrightV bV hV hsoundV, and_self]

/-- The rows of the cache are the prompt K/V of the call that takes them. -/
theorem cached_of_filled {before : List (Call ι R F)} {call : Call ι R F} {c : Cache ι R}
    (hhash : ∀ a ∈ before, a.key models = call.key models →
      a.tokens.take (a.rows models) = call.tokens.take (call.rows models))
    (hneutral : ∀ a ∈ before ++ [call],
      (models a.model).NeutralRun (a.full models) (a.start models))
    (hhit : hit models (runCalls models before) call = some c)
    (hfilled : c.Filled (models call.model)) :
    (models call.model).Cached (call.full models) (call.start models) (c.rows call.unread) := by
  obtain ⟨hP, hc, hkey⟩ := hit_spec models hhit
  obtain ⟨filler, hmem, _, hfiller, hslots⟩ := runCalls_right models before c hc
  have hsame := hfiller.trans hkey
  have htake := hhash filler hmem hsame
  have hV := hneutral filler (List.mem_append_left _ hmem)
  have hV' := hneutral call (List.mem_append_right _ (List.mem_singleton.mpr rfl))
  have hmodel : filler.model = call.model := congrArg Key.model hsame
  have hrows : filler.rows models = call.rows models := congrArg Key.promptRows hsame
  unfold Call.rows at hP hrows htake
  rw [hmodel] at hrows htake
  have hlen := promptRows_inj (models call.model) (hrows ▸ hP) hrows
  rw [← hrows] at htake
  unfold Call.full Call.start at hslots hV
  rw [hmodel] at hslots hV
  exact (models call.model).cached_of_neutral hlen htake hV hV'
    (rows_of_filled call.unread hslots hfilled)

/-- The layers of a call that is ready: no buffer they need is null, and on the canvas they
are those of the full pass. -/
theorem ready_layers {before : List (Call ι R F)} {call : Call ι R F} {ref : Rows R}
    (hhash : ∀ a ∈ before, a.key models = call.key models →
      a.tokens.take (a.rows models) = call.tokens.take (call.rows models))
    (hneutral : ∀ a ∈ before ++ [call],
      (models a.model).NeutralRun (a.full models) (a.start models))
    (haccepts : (models call.model).accepts call.tokens = true)
    (href : (models call.model).forward (call.full models) call.tokens call.prev = some ref)
    (hfilled : ∀ c, hit models (runCalls models before) call = some c →
      c.Filled (models call.model)) :
    let p := plan models (runCalls models before) call
    (p.pass.prefixKV.isSome = true → p.saving = false ∧ ∀ c, p.cache = some c →
      ∀ l, l < (models call.model).nLayers → l < (models call.model).kvfs → c.missing l = false) ∧
    ∃ st, (models call.model).layers p.pass (call.start models) (models call.model).nLayers =
        some st ∧
      ∀ t, call.rows models ≤ t → t < call.tokens.length →
        (models call.model).logits st t = ref t := by
  intro p
  cases hhit : hit models (runCalls models before) call with
  | some c =>
      have hp : p = _ := plan_hit models hhit
      rw [hp]
      constructor
      · intro _
        refine ⟨rfl, ?_⟩
        rintro _ ⟨⟩ l hl howner
        obtain ⟨⟨bK, hK, _⟩, bV, hV, _⟩ := hfilled c hhit l hl howner
        simp [Cache.missing, hK, hV]
      · exact (models call.model).canvas_logits call.leftover
          (cached_of_filled models hhash hneutral hhit (hfilled c hhit)) href
  | none =>
      have hp : p.pass = call.full models := plan_miss models hhit
      rw [hp]
      unfold Model.forward at href
      rw [if_pos haccepts] at href
      obtain ⟨st, hst, rfl⟩ := Option.map_eq_some_iff.mp href
      constructor
      · intro hfast
        cases hfast
      · exact ⟨st, hst, fun _ _ _ => rfl⟩

/-- The cache is transparent to a call that is ready for it: if nothing fails in the call it
succeeds, and the canvas has the logits of a full forward. A call that finds an error
pending, or a null buffer in the cache it takes, fails. -/
theorem prefixKV_transparent (before : List (Call ι R F)) (call : Call ι R F) (ref : Rows R)
    (hfaults : call.faults = Faults.none)
    (hhash : ∀ a ∈ before, a.key models = call.key models →
      a.tokens.take (a.rows models) = call.tokens.take (call.rows models))
    (hneutral : ∀ a ∈ before ++ [call],
      (models a.model).NeutralRun (a.full models) (a.start models))
    (href : (models call.model).forward (call.full models) call.tokens call.prev = some ref) :
    (Ready models (runCalls models before) call →
      ∃ out, (dgForward models (runCalls models before) call).2 = some out ∧
        ∀ t, call.rows models ≤ t → t < call.tokens.length → out t = ref t) ∧
    ((runCalls models before).pending = true ∨
      (∃ c L, hit models (runCalls models before) call = some c ∧
        L < (models call.model).nLayers ∧ L < (models call.model).kvfs ∧ c.missing L = true) →
      (dgForward models (runCalls models before) call).2 = none) := by
  have haccepts : (models call.model).accepts call.tokens = true := by
    unfold Model.forward at href
    split at href
    case isTrue h => exact h
    case isFalse => cases href
  rw [dgForward_clean models hfaults haccepts]
  constructor
  · rintro ⟨hpending, hfilled⟩
    obtain ⟨hnull, st, hst, hlogits⟩ :=
      ready_layers models hhash hneutral haccepts href hfilled
    obtain ⟨w, hw, rfl, hclean, -⟩ := (models call.model).walk_clean _ call
      (w := ⟨call.start models, _, (runCalls models before).pending, true⟩) hfaults hpending hst
      hnull
    have hfinish := Model.finish_clean call hfaults hclean
    simp only [hw, bind, Except.bind, hfinish]
    exact ⟨_, rfl, hlogits⟩
  · intro hbad
    have hends := (models call.model).walk_fails (plan models (runCalls models before) call) call
      (w := ⟨call.start models, (plan models (runCalls models before) call).cache,
        (runCalls models before).pending, true⟩) (N := (models call.model).nLayers) hfaults (by
        rcases hbad with hpending | ⟨c, L, hhit, hL, howner, hmissing⟩
        · exact .inl hpending
        · right
          rw [plan_hit models hhit]
          exact ⟨rfl, rfl, c, L, rfl, hL, howner, hmissing⟩)
    split
    case h_1 => rfl
    case h_2 w hr =>
        rw [hr] at hends
        exact hends.elim

/-! ### Runs in which nothing fails -/

/-- No error is pending, and the cache is filled. -/
def Clean (models : ι → Model R H F) (s : State ι R) : Prop :=
  s.pending = false ∧ ∀ c, s.cache = some c → c.Filled (models c.key.model)

theorem Clean.ready {s : State ι R} (h : Clean models s) (call : Call ι R F) :
    Ready models s call := by
  refine ⟨h.1, ?_⟩
  intro c hhit
  obtain ⟨_, hc, hkey⟩ := hit_spec models hhit
  have hfilled := h.2 c hc
  rwa [hkey] at hfilled

theorem dgForward_keeps_clean {before : List (Call ι R F)} {call : Call ι R F} {ref : Rows R}
    (hfaults : call.faults = Faults.none)
    (hhash : ∀ a ∈ before, a.key models = call.key models →
      a.tokens.take (a.rows models) = call.tokens.take (call.rows models))
    (hneutral : ∀ a ∈ before ++ [call],
      (models a.model).NeutralRun (a.full models) (a.start models))
    (href : (models call.model).forward (call.full models) call.tokens call.prev = some ref)
    (h : Clean models (runCalls models before)) :
    Clean models (dgForward models (runCalls models before) call).1 := by
  have haccepts : (models call.model).accepts call.tokens = true := by
    unfold Model.forward at href
    split at href
    case isTrue h => exact h
    case isFalse => cases href
  obtain ⟨hnull, st, hst, -⟩ :=
    ready_layers models hhash hneutral haccepts href (h.ready models call).2
  obtain ⟨w, hw, rfl, hclean, hkept⟩ := (models call.model).walk_clean _ call
    (w := ⟨call.start models, _, (runCalls models before).pending, true⟩) hfaults h.1 hst hnull
  rw [dgForward_clean models hfaults haccepts]
  have hfinish := Model.finish_clean call hfaults hclean
  simp only [hw, bind, Except.bind, hfinish]
  refine ⟨hclean, ?_⟩
  intro c hc
  cases hsaving : (plan models (runCalls models before) call).saving with
  | false =>
      rw [hkept hsaving] at hc
      rcases plan_keeping models hsaving with hsame | hnone
      · exact h.2 c (hsame.symm.trans hc)
      · cases hnone.symm.trans hc
  | true =>
      obtain ⟨_, hp⟩ := plan_saving models hsaving
      rw [hp] at hw hst
      obtain ⟨w', c', hw', -, hc', hfilled⟩ := (models call.model).walk_fills _ call
        (w := ⟨call.start models, (call.fill models).cache, (runCalls models before).pending, true⟩)
        hfaults h.1 hst rfl rfl rfl rfl
      cases hw.symm.trans hw'
      cases hc.symm.trans hc'
      have hkeys := (models call.model).walk_keeps (call.fill models) call (Option.map Cache.key)
        (fun f L kv w => (models call.model).storeKV_key _ f L kv w)
        ⟨call.start models, (call.fill models).cache, (runCalls models before).pending, true⟩
        (models call.model).nLayers
      rw [hw] at hkeys
      have hkey : c.key = call.key models := by
        have hmap : w.cache.map Cache.key = some (call.key models) := hkeys
        rw [hc'] at hmap
        exact Option.some.inj hmap
      rw [hkey]
      exact hfilled

/-- In a run in which nothing fails the cache is transparent to every call. -/
theorem clean_run (calls : List (Call ι R F))
    (hfaults : ∀ a ∈ calls, a.faults = Faults.none)
    (hhash : ∀ a ∈ calls, ∀ b ∈ calls, a.key models = b.key models →
      a.tokens.take (a.rows models) = b.tokens.take (b.rows models))
    (hneutral : ∀ a ∈ calls, (models a.model).NeutralRun (a.full models) (a.start models))
    (href : ∀ a ∈ calls, ∃ ref, (models a.model).forward (a.full models) a.tokens a.prev = some ref) :
    Clean models (runCalls models calls) := by
  induction calls using List.reverseRecOn with
  | nil =>
      constructor
      · rfl
      · intro c hc
        cases hc
  | append_singleton before call ih =>
      have hlast : call ∈ before ++ [call] := List.mem_append_right _ (List.mem_singleton.mpr rfl)
      have hprev : ∀ a ∈ before, a ∈ before ++ [call] := fun a ha => List.mem_append_left _ ha
      obtain ⟨ref, hforward⟩ := href call hlast
      have hbefore := ih (fun a ha => hfaults a (hprev a ha))
        (fun a ha b hb => hhash a (hprev a ha) b (hprev b hb))
        (fun a ha => hneutral a (hprev a ha)) fun a ha => href a (hprev a ha)
      unfold runCalls
      rw [List.foldl_append]
      exact dgForward_keeps_clean models (hfaults call hlast)
        (fun a ha => hhash a (hprev a ha) call hlast) hneutral hforward hbefore

/-! ### A cache that is not filled -/

def twoLayers : Model (Option Int) (Option Int) (Option Int) := { nanModel with nLayers := 2 }

def numbersCall (tokens : List Int) (faults : Faults (Option Int)) :
    Call Unit (Option Int) (Option Int) :=
  ⟨(), tokens, none, false, false, noLeftover, fun _ => (fun _ => none, fun _ => none), faults⟩

/-- The first layer's K buffer is not allocated. -/
def lostBuffer : Faults (Option Int) :=
  let clean : Faults (Option Int) := .none
  { clean with layer := Function.update clean.layer 0 { clean.layer 0 with saveK := some .alloc } }

/-- An upload of the first layer's router is lost. -/
def lostUpload : Faults (Option Int) :=
  let clean : Faults (Option Int) := .none
  { clean with
    layer := Function.update clean.layer 0 { clean.layer 0 with routing := some fun _ => some 7 } }

/-- After a call that could not fill the cache, a call in which nothing fails is refused, or
takes the wrong prompt K/V without an error. -/
theorem unfilled_cache_served :
    (twoLayers.forward (twoLayers.fullPass noLeftover [2, 3]) [2, 3] none).isSome = true ∧
      (dgForward (fun _ => twoLayers)
        (runCalls (fun _ => twoLayers) [numbersCall [2, 3] lostBuffer])
        (numbersCall [2, 3] Faults.none)).2.isNone = true ∧
      (dgForward (fun _ => twoLayers)
        (runCalls (fun _ => twoLayers) [numbersCall [2, 3] lostUpload])
        (numbersCall [2, 3] Faults.none)).2.isSome = true ∧
      (dgForward (fun _ => twoLayers)
        (runCalls (fun _ => twoLayers) [numbersCall [2, 3] lostUpload])
        (numbersCall [2, 3] Faults.none)).2.map (· 1) ≠
          (twoLayers.forward (twoLayers.fullPass noLeftover [2, 3]) [2, 3] none).map (· 1) := by
  decide

theorem numbersCall_neutral (t : Int) :
    nanModel.NeutralRun ((numbersCall [2, t] Faults.none).full fun _ => nanModel)
      ((numbersCall [2, t] Faults.none).start fun _ => nanModel) :=
  (nanModel_finite none (Option.some_ne_none t)).neutral

/-- A second canvas behind the prompt of the first. -/
theorem second_canvas_served :
    (dgForward (fun _ => nanModel)
      (runCalls (fun _ => nanModel) [numbersCall [2, 3] Faults.none])
      (numbersCall [2, 1] Faults.none)).2.map (· 1) =
        (nanModel.forward (nanModel.fullPass noLeftover [2, 1]) [2, 1] none).map (· 1) := by
  have hclean : Clean (fun _ => nanModel)
      (runCalls (fun _ => nanModel) [numbersCall [2, 3] Faults.none]) := by
    apply clean_run
    · simp [numbersCall]
    · simp
    · simpa using numbersCall_neutral 3
    · intro a ha
      rw [List.mem_singleton.mp ha]
      exact Option.isSome_iff_exists.mp (by decide)
  obtain ⟨ref, href⟩ : ∃ ref, nanModel.forward (nanModel.fullPass noLeftover [2, 1]) [2, 1] none =
      some ref :=
    Option.isSome_iff_exists.mp (by decide)
  obtain ⟨out, hout, hrows⟩ := (prefixKV_transparent (fun _ => nanModel)
    [numbersCall [2, 3] Faults.none] (numbersCall [2, 1] Faults.none) ref rfl
    (by
      intro a ha _
      rw [List.mem_singleton.mp ha]
      rfl)
    (by
      intro a ha
      rcases List.mem_cons.mp ha with rfl | hlast
      · exact numbersCall_neutral 3
      · rw [List.mem_singleton.mp hlast]
        exact numbersCall_neutral 1)
    href).1 (hclean.ready _ _)
  rw [hout, href]
  exact congrArg some (hrows 1 (by decide) (by decide))

end ShannonPrime.Diffusion
