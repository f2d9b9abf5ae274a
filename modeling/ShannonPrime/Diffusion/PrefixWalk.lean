import ShannonPrime.Diffusion.PrefixKV

/-!
The layers of one forward with the prefix-KV cache: what they leave in the cache whatever
fails, how they go if nothing fails, and what a pending error or a null buffer makes of them.
-/

namespace ShannonPrime.Diffusion

variable {ι R H F : Type}

/-! ### What a step leaves -/

/-- What holds of the walk a step ends in: of one that fails, and of one that goes on. -/
def Ends (E S : Walk ι R → Prop) : Except (Walk ι R) (Walk ι R) → Prop
  | .error w => E w
  | .ok w => S w

theorem Ends.bind {E S T : Walk ι R → Prop} {r : Except (Walk ι R) (Walk ι R)}
    {k : Walk ι R → Except (Walk ι R) (Walk ι R)} (hr : Ends E S r)
    (hk : ∀ w, S w → Ends E T (k w)) : Ends E T (r >>= k) := by
  cases r with
  | error w => exact hr
  | ok w => exact hk w hr

theorem Ends.imp {E E' S S' : Walk ι R → Prop} {r : Except (Walk ι R) (Walk ι R)}
    (hr : Ends E S r) (hE : ∀ w, E w → E' w) (hS : ∀ w, S w → S' w) : Ends E' S' r := by
  cases r with
  | error w => exact hE w hr
  | ok w => exact hS w hr

theorem Ends.and {E E' S S' : Walk ι R → Prop} {r : Except (Walk ι R) (Walk ι R)}
    (hr : Ends E S r) (hr' : Ends E' S' r) :
    Ends (fun w => E w ∧ E' w) (fun w => S w ∧ S' w) r := by
  cases r with
  | error w => exact ⟨hr, hr'⟩
  | ok w => exact ⟨hr, hr'⟩

theorem stopIf_ends (w : Walk ι R) (f : Option Fault) :
    Ends (fun w' => w'.cache = w.cache) (fun w' => w' = w) (w.stopIf f) := by
  rcases f with _ | _ | _ <;> rfl

theorem check_ends (w : Walk ι R) (packed : Bool) :
    Ends (fun w' => w'.cache = w.cache) (fun w' => w' = w) (w.check packed) := by
  unfold Walk.check
  split <;> rfl

namespace Model

variable (m : Model R H F) (p : Plan ι R) (call : Call ι R F) (L : Nat)

theorem restOfLayer_ends (kv : Rows R × Rows R) (w : Walk ι R) :
    Ends (fun w' => w'.cache = w.cache)
      (fun w' => w'.cache = w.cache ∧
        (w'.sound = true → w.sound = true ∧ w'.st = m.layerOn p.pass L w.st kv))
      (m.restOfLayer p call L kv w) := by
  unfold restOfLayer
  apply (stopIf_ends w _).bind
  rintro _ rfl
  apply (check_ends _ _).bind
  rintro _ rfl
  apply (stopIf_ends _ _).bind
  rintro w rfl
  apply (stopIf_ends (w.unchecked _) _).bind
  rintro _ rfl
  apply (check_ends (w.unchecked _) _).bind
  rintro _ rfl
  apply (stopIf_ends (w.unchecked _) _).bind
  rintro _ rfl
  constructor
  · rfl
  · intro hsound
    simp only [Walk.unchecked, Bool.and_eq_true, Bool.not_eq_true', Option.isSome_eq_false_iff,
      Option.isNone_iff_eq_none] at hsound
    obtain ⟨⟨hsound, hrouting⟩, hscale⟩ := hsound
    refine ⟨hsound, ?_⟩
    rw [hrouting, hscale]
    rfl

theorem storeKV_sound (f : LayerFaults R) (kv : Rows R × Rows R) (w : Walk ι R)
    (h : (m.storeKV p f L kv w).2.sound = true) :
    w.sound = true ∧ (m.storeKV p f L kv w).1 = kv := by
  unfold storeKV at h ⊢
  split at h
  case isTrue howner =>
      have hstored : (w.sound && !(f.store.isSome ||
          p.pass.prefixKV.isSome && w.cache.any fun c => c.missing L)) = true := by
        cases hsaving : p.saving <;> simpa [hsaving, Walk.unchecked, Walk.save] using h
      simp only [Bool.and_eq_true, Bool.not_eq_true', Bool.or_eq_false_iff,
        Option.isSome_eq_false_iff, Option.isNone_iff_eq_none] at hstored
      rw [if_pos howner]
      exact ⟨hstored.1, by rw [hstored.2.1]; rfl⟩
  case isFalse howner =>
      rw [if_neg howner]
      exact ⟨h, rfl⟩

theorem storeKV_st (f : LayerFaults R) (kv : Rows R × Rows R) (w : Walk ι R) :
    (m.storeKV p f L kv w).2.st = w.st := by
  unfold storeKV
  cases p.saving <;> split <;> rfl

theorem storeKV_cache (f : LayerFaults R) (kv : Rows R × Rows R) (w : Walk ι R)
    (h : p.saving = false) : (m.storeKV p f L kv w).2.cache = w.cache := by
  unfold storeKV
  split
  · simp [h, Walk.unchecked]
  · rfl

theorem apply_sound {sound : Bool} {rows : Rows R} {f : Option (SaveFault R)} {b : Saved R}
    (hb : SaveFault.apply sound rows f = some b) (hsound : b.sound = true) :
    sound = true ∧ b.rows = rows := by
  rcases f with _ | _ | held
  · cases hb
    exact ⟨hsound, rfl⟩
  · cases hb
  · cases hb
    cases hsound

/-- A sound buffer holds the rows of a full pass. -/
def SlotsRight (m : Model R H F) (full : Pass R) (st₀ : Residual R) (c : Cache ι R) : Prop :=
  ∀ L st kv, L < m.nLayers → L < m.kvfs → m.layers full st₀ L = some st →
    m.useKV full L st = some kv →
    (∀ b, c.K L = some b → b.sound = true → b.rows = kv.1) ∧
      ∀ b, c.V L = some b → b.sound = true → b.rows = kv.2

/-- A walk as far as a layer: the cache is right, and so is the residual unless something
has failed. -/
structure OnTrack (m : Model R H F) (full : Pass R) (st₀ : Residual R) (L : Nat) (w : Walk ι R) :
    Prop where
  st : w.sound = true → m.layers full st₀ L = some w.st
  cache : ∀ c, w.cache = some c → m.SlotsRight full st₀ c

variable {st₀ : Residual R}

theorem save_right {full : Pass R} {f : LayerFaults R} {kv : Rows R × Rows R} {w : Walk ι R}
    (hcache : ∀ c, w.cache = some c → m.SlotsRight full st₀ c)
    (hright : w.sound = true → ∀ st kv', m.layers full st₀ L = some st →
      m.useKV full L st = some kv' → kv = kv')
    (c : Cache ι R) (hc : (w.save f L kv).cache = some c) : m.SlotsRight full st₀ c := by
  obtain ⟨old, hold, rfl⟩ := Option.map_eq_some_iff.mp hc
  intro l st kv' hl howner hst hkv'
  obtain ⟨hK, hV⟩ := hcache old hold l st kv' hl howner hst hkv'
  rcases eq_or_ne l L with rfl | hne
  · dsimp only
    rw [Function.update_self, Function.update_self]
    constructor
    · intro b hb hsound
      obtain ⟨hwsound, hrows⟩ := apply_sound hb hsound
      rw [hrows, hright hwsound st kv' hst hkv']
    · intro b hb hsound
      obtain ⟨hwsound, hrows⟩ := apply_sound hb hsound
      rw [hrows, hright hwsound st kv' hst hkv']
  · dsimp only
    rw [Function.update_of_ne hne, Function.update_of_ne hne]
    exact ⟨hK, hV⟩

/-- What a layer saves is sound only if it is right. -/
theorem storeKV_right {f : LayerFaults R} {kv : Rows R × Rows R} {w : Walk ι R}
    (hw : m.OnTrack p.pass st₀ L w) (hkv : m.useKV p.pass L w.st = some kv) (c : Cache ι R)
    (hc : (m.storeKV p f L kv w).2.cache = some c) : m.SlotsRight p.pass st₀ c := by
  cases hsaving : p.saving with
  | false =>
      rw [m.storeKV_cache p L f kv w hsaving] at hc
      exact hw.cache c hc
  | true =>
      have hstored := m.storeKV_sound p L f kv w
      unfold storeKV at hc hstored
      split at hc
      case isFalse => exact hw.cache c hc
      case isTrue howner =>
          simp only [if_pos howner, hsaving, if_true] at hc hstored
          apply m.save_right L _ _ c hc
          · exact hw.cache
          · intro hsound st kv' hst hkv'
            obtain ⟨hwalk, hsame⟩ := hstored hsound
            cases (hw.st hwalk).symm.trans hst
            cases hkv.symm.trans hkv'
            exact hsame

/-- A layer keeps a walk on track, whatever fails. -/
theorem walkLayer_onTrack {w : Walk ι R} (hw : m.OnTrack p.pass st₀ L w) :
    Ends (fun w' => ∀ c, w'.cache = some c → m.SlotsRight p.pass st₀ c)
      (m.OnTrack p.pass st₀ (L + 1)) (m.walkLayer p call L w) := by
  have hcache : ∀ w' : Walk ι R, w'.cache = w.cache →
      ∀ c, w'.cache = some c → m.SlotsRight p.pass st₀ c := by
    intro w' hsame c hc
    exact hw.cache c (hsame ▸ hc)
  unfold walkLayer
  apply ((stopIf_ends w _).imp hcache fun _ h => h).bind
  rintro _ rfl
  apply ((check_ends _ _).imp hcache fun _ h => h).bind
  rintro _ rfl
  apply ((stopIf_ends _ _).imp hcache fun _ h => h).bind
  rintro w rfl
  cases hkv : m.useKV p.pass L w.st with
  | none => exact hw.cache
  | some kv =>
      have hright := m.storeKV_right p L (f := call.faults.layer L) hw hkv
      apply (m.restOfLayer_ends p call L _ _).imp
      · intro w' hsame c hc
        exact hright c (hsame ▸ hc)
      · rintro w' ⟨hsame, hst⟩
        constructor
        · intro hsound
          obtain ⟨hstored, hlayer⟩ := hst hsound
          obtain ⟨hwalk, hkept⟩ := m.storeKV_sound p L _ kv w hstored
          rw [layers, hw.st hwalk, hlayer, hkept, m.storeKV_st, Option.bind_some, layer, hkv]
          rfl
        · intro c hc
          exact hright c (hsame ▸ hc)

/-- What the stores keep of the cache, the layers keep. -/
theorem walkLayer_keeps {β : Type} (g : Option (Cache ι R) → β)
    (hg : ∀ f L kv w, g (m.storeKV p f L kv w).2.cache = g w.cache) (w : Walk ι R) :
    Ends (fun w' => g w'.cache = g w.cache) (fun w' => g w'.cache = g w.cache)
      (m.walkLayer p call L w) := by
  have hsame : ∀ w' w'' : Walk ι R, w''.cache = w'.cache → g w''.cache = g w'.cache :=
    fun _ _ h => congrArg g h
  unfold walkLayer
  apply ((stopIf_ends w _).imp (hsame w) fun _ h => h).bind
  rintro _ rfl
  apply ((check_ends _ _).imp (hsame _) fun _ h => h).bind
  rintro _ rfl
  apply ((stopIf_ends _ _).imp (hsame _) fun _ h => h).bind
  rintro w rfl
  cases m.useKV p.pass L w.st with
  | none => rfl
  | some kv =>
      rw [← hg (call.faults.layer L) L kv w]
      exact (m.restOfLayer_ends p call L _ _).imp (hsame _) fun w' h => hsame _ w' h.1

theorem walk_keeps {β : Type} (g : Option (Cache ι R) → β)
    (hg : ∀ f L kv w, g (m.storeKV p f L kv w).2.cache = g w.cache) (w : Walk ι R) (L : Nat) :
    Ends (fun w' => g w'.cache = g w.cache) (fun w' => g w'.cache = g w.cache)
      (m.walk p call w L) := by
  induction L with
  | zero => rfl
  | succ L ih =>
      apply ih.bind
      intro w' hw'
      rw [← hw']
      exact m.walkLayer_keeps p call L g hg w'

theorem storeKV_key (f : LayerFaults R) (L : Nat) (kv : Rows R × Rows R) (w : Walk ι R) :
    (m.storeKV p f L kv w).2.cache.map Cache.key = w.cache.map Cache.key := by
  unfold storeKV
  split
  case isTrue => cases p.saving <;> simp [Walk.unchecked, Walk.save, Function.comp_def]
  case isFalse => rfl

theorem walk_onTrack {w : Walk ι R} (hw : m.OnTrack p.pass st₀ 0 w) (L : Nat) :
    Ends (fun w' => ∀ c, w'.cache = some c → m.SlotsRight p.pass st₀ c)
      (m.OnTrack p.pass st₀ L) (m.walk p call w L) := by
  induction L with
  | zero => exact hw
  | succ L ih => exact ih.bind fun w' hw' => m.walkLayer_onTrack p call L hw'

theorem finish_ends (w : Walk ι R) :
    Ends (fun w' => w'.cache = w.cache) (fun w' => w' = w) (finish call w) := by
  unfold finish
  apply (stopIf_ends w _).bind
  rintro _ rfl
  apply (check_ends _ _).bind
  rintro _ rfl
  apply (stopIf_ends _ _).bind
  rintro _ rfl
  exact check_ends _ _

/-! ### A call in which nothing fails -/

theorem check_clean {w : Walk ι R} (packed : Bool) (h : w.pending = false) :
    w.check packed = .ok w := by
  unfold Walk.check
  rw [h, Bool.and_false, if_neg Bool.false_ne_true]

theorem check_pending {w : Walk ι R} (packed : Bool) (h : w.pending = true) :
    Ends (fun _ => True) (fun w' => w'.pending = true) (w.check packed) := by
  unfold Walk.check
  cases packed with
  | false => rwa [Bool.false_and, if_neg Bool.false_ne_true]
  | true => rw [h, Bool.true_and, if_pos rfl]; trivial

theorem restOfLayer_clean {w : Walk ι R} (kv : Rows R × Rows R) (hfaults : call.faults = Faults.none)
    (hpending : w.pending = false) :
    m.restOfLayer p call L kv w = .ok { w with st := m.layerOn p.pass L w.st kv } := by
  have hsame : w.unchecked false = w := by
    simp [Walk.unchecked]
  simp only [restOfLayer, hfaults, Faults.none, Walk.stopIf, Option.isSome_none]
  simp [bind, Except.bind, pure, Except.pure, check_clean _ hpending, hsame]

theorem restOfLayer_pending {w : Walk ι R} (kv : Rows R × Rows R)
    (hfaults : call.faults = Faults.none) (hpending : w.pending = true) :
    Ends (fun _ => True) (fun w' => w'.pending = true) (m.restOfLayer p call L kv w) := by
  simp only [restOfLayer, hfaults, Faults.none, Walk.stopIf, Option.isSome_none]
  have hunchecked : ∀ w : Walk ι R, w.pending = true → (w.unchecked false).pending = true := by
    intro w hw
    simpa [Walk.unchecked] using hw
  apply (check_pending call.packed hpending).bind
  intro w hw
  apply (check_pending call.packedExperts (hunchecked w hw)).bind
  intro w hw
  exact hunchecked w hw

theorem storeKV_pending (f : LayerFaults R) (kv : Rows R × Rows R) (w : Walk ι R)
    (h : w.pending = true) : (m.storeKV p f L kv w).2.pending = true := by
  unfold storeKV
  cases p.saving <;> split <;> simp [Walk.unchecked, Walk.save, h]

theorem storeKV_missing (f : LayerFaults R) (kv : Rows R × Rows R) {w : Walk ι R} {c : Cache ι R}
    (howner : L < m.kvfs) (hfast : p.pass.prefixKV.isSome = true) (hc : w.cache = some c)
    (hmissing : c.missing L = true) : (m.storeKV p f L kv w).2.pending = true := by
  unfold storeKV
  rw [if_pos howner]
  cases p.saving <;> simp [Walk.unchecked, Walk.save, hfast, hc, hmissing]

theorem storeKV_clean (kv : Rows R × Rows R) {w : Walk ι R} (hpending : w.pending = false)
    (hnull : L < m.kvfs → p.pass.prefixKV.isSome = true → ∀ c, w.cache = some c →
      c.missing L = false) :
    (m.storeKV p (Faults.none.layer L) L kv w).1 = kv ∧
      (m.storeKV p (Faults.none.layer L) L kv w).2.pending = false := by
  unfold storeKV
  split
  case isFalse => exact ⟨rfl, hpending⟩
  case isTrue howner =>
      have hcopies : (p.pass.prefixKV.isSome && w.cache.any fun c => c.missing L) = false := by
        cases hfast : p.pass.prefixKV.isSome with
        | false => rfl
        | true =>
            cases hc : w.cache with
            | none => rfl
            | some c => exact hnull howner hfast c hc
      constructor
      · rfl
      · cases p.saving <;> simp [Walk.unchecked, Walk.save, Faults.none, hpending, hcopies]

/-- A layer without failures and with the buffers it needs. -/
theorem walkLayer_clean {w : Walk ι R} {kv : Rows R × Rows R} (hfaults : call.faults = Faults.none)
    (hpending : w.pending = false) (hkv : m.useKV p.pass L w.st = some kv)
    (hnull : L < m.kvfs → p.pass.prefixKV.isSome = true → ∀ c, w.cache = some c →
      c.missing L = false) :
    m.walkLayer p call L w = .ok
      { (m.storeKV p (Faults.none.layer L) L kv w).2 with st := m.layerOn p.pass L w.st kv } ∧
      (m.storeKV p (Faults.none.layer L) L kv w).2.pending = false := by
  obtain ⟨hkept, hstored⟩ := m.storeKV_clean p L kv hpending hnull
  have hlayer : m.walkLayer p call L w =
      m.restOfLayer p call L (m.storeKV p (Faults.none.layer L) L kv w).1
        (m.storeKV p (Faults.none.layer L) L kv w).2 := by
    simp only [walkLayer, hfaults, Faults.none, Walk.stopIf]
    simp only [bind, Except.bind, check_clean _ hpending, hkv]
  rw [hlayer, m.restOfLayer_clean p call L _ hfaults hstored, hkept, m.storeKV_st]
  exact ⟨rfl, hstored⟩

/-- An error that is pending stays so until a check ends the call. -/
theorem walkLayer_pending {w : Walk ι R} (hfaults : call.faults = Faults.none)
    (h : w.pending = true ∨ L < m.kvfs ∧ p.pass.prefixKV.isSome = true ∧
      ∃ c, w.cache = some c ∧ c.missing L = true) :
    Ends (fun _ => True) (fun w' => w'.pending = true) (m.walkLayer p call L w) := by
  have hrest : ∀ w kv, (m.storeKV p (call.faults.layer L) L kv w).2.pending = true →
      Ends (fun _ => True) (fun w' => w'.pending = true)
        (m.restOfLayer p call L (m.storeKV p (call.faults.layer L) L kv w).1
          (m.storeKV p (call.faults.layer L) L kv w).2) :=
    fun w kv hstored => m.restOfLayer_pending p call L _ hfaults hstored
  unfold walkLayer
  apply ((stopIf_ends w _).imp (fun _ _ => trivial) fun _ h => h).bind
  rintro _ rfl
  apply ((check_ends _ _).imp (fun _ _ => trivial) fun _ h => h).bind
  rintro _ rfl
  apply ((stopIf_ends _ _).imp (fun _ _ => trivial) fun _ h => h).bind
  rintro w rfl
  cases m.useKV p.pass L w.st with
  | none => trivial
  | some kv =>
      apply hrest
      rcases h with hpending | ⟨howner, hfast, c, hc, hmissing⟩
      · exact m.storeKV_pending p L _ kv w hpending
      · exact m.storeKV_missing p L _ kv howner hfast hc hmissing

theorem finish_clean {w : Walk ι R} (hfaults : call.faults = Faults.none)
    (hpending : w.pending = false) : finish call w = .ok w := by
  simp only [finish, hfaults, Faults.none, Walk.stopIf]
  simp only [bind, Except.bind, check_clean _ hpending]

theorem finish_pending {w : Walk ι R} (hfaults : call.faults = Faults.none)
    (hpending : w.pending = true) : Ends (fun _ => True) (fun _ => False) (finish call w) := by
  simp only [finish, hfaults, Faults.none, Walk.stopIf]
  apply (check_pending call.packed hpending).bind
  intro w hw
  change Ends _ _ (w.check true)
  rw [Walk.check, hw]
  trivial

/-- The layers of a call in which nothing fails. -/
theorem walk_clean {w : Walk ι R} {L : Nat} {st : Residual R} (hfaults : call.faults = Faults.none)
    (hpending : w.pending = false) (hst : m.layers p.pass w.st L = some st)
    (hnull : p.pass.prefixKV.isSome = true → p.saving = false ∧ ∀ c, w.cache = some c →
      ∀ l, l < L → l < m.kvfs → c.missing l = false) :
    ∃ w', m.walk p call w L = .ok w' ∧ w'.st = st ∧ w'.pending = false ∧
      (p.saving = false → w'.cache = w.cache) := by
  induction L generalizing st with
  | zero =>
      cases hst
      exact ⟨w, rfl, rfl, hpending, fun _ => rfl⟩
  | succ L ih =>
      obtain ⟨mid, hmid, hlayer⟩ := Option.bind_eq_some_iff.mp hst
      obtain ⟨w', hwalk, rfl, hpending', hcache⟩ := ih hmid (by
        intro hfast
        obtain ⟨hsaving, hbuffers⟩ := hnull hfast
        exact ⟨hsaving, fun c hc l hl => hbuffers c hc l (by omega)⟩)
      obtain ⟨kv, hkv, rfl⟩ := Option.map_eq_some_iff.mp hlayer
      obtain ⟨hout, hclean⟩ := m.walkLayer_clean p call L hfaults hpending' hkv
        (by
          intro howner hfast c hc
          obtain ⟨hsaving, hbuffers⟩ := hnull hfast
          rw [hcache hsaving] at hc
          exact hbuffers c hc L (Nat.lt_succ_self L) howner)
      have hstep : m.walk p call w (L + 1) = m.walkLayer p call L w' := by
        rw [walk, hwalk]
        rfl
      refine ⟨_, hstep.trans hout, rfl, hclean, ?_⟩
      intro hsaving
      exact (m.storeKV_cache p L _ kv w' hsaving).trans (hcache hsaving)

theorem storeKV_saving (kv : Rows R × Rows R) (w : Walk ι R) (hsaving : p.saving = true)
    (hfull : p.pass.prefixKV = none) :
    m.storeKV p (Faults.none.layer L) L kv w =
      (kv, if L < m.kvfs then w.save (Faults.none.layer L) L kv else w) := by
  unfold storeKV
  split
  · simp [hfull, Faults.none, Walk.unchecked]
  · rfl

/-- Both buffers of a layer are there and sound. -/
def FilledAt (c : Cache ι R) (L : Nat) : Prop :=
  (∃ b, c.K L = some b ∧ b.sound = true) ∧ ∃ b, c.V L = some b ∧ b.sound = true

theorem save_fills (kv : Rows R × Rows R) {w : Walk ι R} {c : Cache ι R}
    (hsound : w.sound = true) (hc : w.cache = some c) :
    ∃ c', (w.save (Faults.none.layer L) L kv).cache = some c' ∧ FilledAt c' L ∧
      ∀ l, FilledAt c l → FilledAt c' l := by
  have hown : ∀ (slots : Nat → Option (Saved R)) rows, ∃ b,
      Function.update slots L (some ⟨rows, w.sound⟩) L = some b ∧ b.sound = true :=
    fun slots rows => ⟨_, Function.update_self .., hsound⟩
  have hkeep : ∀ (slots : Nat → Option (Saved R)) rows l, (∃ b, slots l = some b ∧ b.sound = true) →
      ∃ b, Function.update slots L (some ⟨rows, w.sound⟩) l = some b ∧ b.sound = true := by
    intro slots rows l hl
    rcases eq_or_ne l L with rfl | hne
    · exact hown slots rows
    · rwa [Function.update_of_ne hne]
  refine ⟨_, by rw [Walk.save, hc]; rfl, ⟨hown _ _, hown _ _⟩, ?_⟩
  rintro l ⟨hK, hV⟩
  exact ⟨hkeep _ _ l hK, hkeep _ _ l hV⟩

/-- The layers of a call that saves, and in which nothing fails, fill the cache. -/
theorem walk_fills {w : Walk ι R} {L : Nat} {st : Residual R} {c : Cache ι R}
    (hfaults : call.faults = Faults.none) (hpending : w.pending = false)
    (hst : m.layers p.pass w.st L = some st) (hsaving : p.saving = true)
    (hfull : p.pass.prefixKV = none) (hsound : w.sound = true) (hc : w.cache = some c) :
    ∃ w' c', m.walk p call w L = .ok w' ∧ w'.sound = true ∧ w'.cache = some c' ∧
      ∀ l, l < L → l < m.kvfs → FilledAt c' l := by
  induction L generalizing st with
  | zero => exact ⟨w, c, rfl, hsound, hc, fun l hl => absurd hl (Nat.not_lt_zero l)⟩
  | succ L ih =>
      obtain ⟨mid, hmid, hlayer⟩ := Option.bind_eq_some_iff.mp hst
      obtain ⟨kv, hkv, rfl⟩ := Option.map_eq_some_iff.mp hlayer
      have hfast : ¬ p.pass.prefixKV.isSome = true := by simp [hfull]
      obtain ⟨w', hwalk, rfl, hpending', -⟩ :=
        m.walk_clean p call hfaults hpending hmid fun h => absurd h hfast
      obtain ⟨w'', c', hwalk', hsound', hc', hfilled⟩ := ih hmid
      cases hwalk.symm.trans hwalk'
      obtain ⟨hout, -⟩ := m.walkLayer_clean p call L hfaults hpending' hkv
        fun _ h => absurd h hfast
      have hstep : m.walk p call w (L + 1) = m.walkLayer p call L w' := by
        rw [walk, hwalk]
        rfl
      rw [hstep, hout, m.storeKV_saving p L kv w' hsaving hfull]
      rcases Nat.lt_or_ge L m.kvfs with howner | hshared
      · rw [if_pos howner]
        obtain ⟨c'', hc'', hown, hkeep⟩ := save_fills L kv hsound' hc'
        refine ⟨_, c'', rfl, hsound', hc'', ?_⟩
        intro l hl hlowner
        rcases Nat.lt_or_eq_of_le (Nat.le_of_lt_succ hl) with hlt | rfl
        · exact hkeep l (hfilled l hlt hlowner)
        · exact hown
      · rw [if_neg (Nat.not_lt.mpr hshared)]
        refine ⟨_, c', rfl, hsound', hc', ?_⟩
        intro l hl hlowner
        exact hfilled l (by omega) hlowner

/-- A call that finds an error pending, or a null buffer, does not get through. -/
theorem walk_fails {w : Walk ι R} {N : Nat} (hfaults : call.faults = Faults.none)
    (h : w.pending = true ∨ p.pass.prefixKV.isSome = true ∧ p.saving = false ∧
      ∃ c l, w.cache = some c ∧ l < N ∧ l < m.kvfs ∧ c.missing l = true) :
    Ends (fun _ => True) (fun _ => False) (m.walk p call w N >>= finish call) := by
  have hwalk : ∀ L, L ≤ N → Ends (fun _ => True)
      (fun w' => w'.pending = true ∨ p.pass.prefixKV.isSome = true ∧ p.saving = false ∧
        ∃ c l, w'.cache = some c ∧ L ≤ l ∧ l < N ∧ l < m.kvfs ∧ c.missing l = true)
      (m.walk p call w L) := by
    intro L
    induction L with
    | zero =>
        intro _
        rcases h with hpending | ⟨hfast, hsaving, c, l, hc, hl, howner, hmissing⟩
        · exact .inl hpending
        · exact .inr ⟨hfast, hsaving, c, l, hc, Nat.zero_le l, hl, howner, hmissing⟩
    | succ L ih =>
        intro hL
        apply (ih (by omega)).bind
        rintro w' (hpending | ⟨hfast, hsaving, c, l, hc, hle, hl, howner, hmissing⟩)
        · exact (m.walkLayer_pending p call L hfaults (.inl hpending)).imp (fun _ h => h)
            fun _ h => .inl h
        · rcases Nat.lt_or_eq_of_le hle with hlt | rfl
          · apply (m.walkLayer_keeps p call L id
              (fun f L kv w => m.storeKV_cache p L f kv w hsaving) w').imp fun _ _ => trivial
            intro out hout
            exact .inr ⟨hfast, hsaving, c, l, hout.trans hc, hlt, hl, howner, hmissing⟩
          · exact (m.walkLayer_pending p call L hfaults
              (.inr ⟨howner, hfast, c, hc, hmissing⟩)).imp (fun _ h => h) fun _ h => .inl h
  apply (hwalk N le_rfl).bind
  rintro w' (hpending | ⟨_, _, _, l, _, hle, hl, _⟩)
  · exact finish_pending call hfaults hpending
  · omega

end Model

end ShannonPrime.Diffusion
