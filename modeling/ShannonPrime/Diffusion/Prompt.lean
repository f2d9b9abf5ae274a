import ShannonPrime.Diffusion.Rows

/-!
The prompt rows of a full pass. The mask keeps the keys of the canvas away from the
queries of the prompt, but the kernel adds every value row: one the mask has put out with
weight zero. Where adding it changes nothing, the prompt rows of every layer are those of
any other canvas. Zero times a NaN or an infinity is a NaN, and this one gets through.
-/

namespace ShannonPrime.Diffusion

namespace Model

variable {R H F : Type} (m : Model R H F)

/-- Adding a value row of the canvas with weight zero leaves the sum as it is, as it does
for floats unless the row holds a NaN or an infinity. -/
def Neutral (m : Model R H F) (L P n : Nat) (V : Rows R) : Prop :=
  ∀ h s acc, h < m.heads L → P ≤ s → s < n → m.mac L h acc m.zero (V s) = acc

/-- The canvas values of a pass are neutral at every layer. -/
def NeutralRun (m : Model R H F) (pass : Pass R) (st₀ : Residual R) : Prop :=
  ∀ L st kv, L < m.nLayers → m.layers pass st₀ L = some st → m.useKV pass L st = some kv →
    m.Neutral L pass.promptRows pass.nTok kv.2

/-! ### The attention of a prompt row -/

theorem allows_canvas_key {P nSwa t s : Nat} (isSwa : Bool) (ht : t < P) (hs : P ≤ s) :
    allows P nSwa isSwa t s = false := by
  simp [allows, Nat.not_le.mpr ht, Nat.not_lt.mpr hs]

theorem score_canvas_key {L h P t s : Nat} (q : R) (K : Rows R) (ht : t < P) (hs : P ≤ s) :
    m.score L h P q K t s = m.mask :=
  if_neg (by simp [allows_canvas_key _ ht hs])

theorem score_prompt_row {L h P t : Nat} (q : R) {K K' : Rows R} (ht : t < P)
    (hK : ∀ s, s < P → K s = K' s) : m.score L h P q K t = m.score L h P q K' t := by
  funext s
  rcases Nat.lt_or_ge s P with hs | hs
  · rw [score, score, hK s hs]
  · rw [m.score_canvas_key q K ht hs, m.score_canvas_key q K' ht hs]

theorem weight_mask (mx : F) : m.weight mx m.mask = m.zero :=
  if_pos m.mask_le_cut

/-- The values behind the prompt drop out of a sum that gives them weight zero. -/
theorem sum_neutral {L h P n : Nat} {V : Rows R} (w : Nat → F) (acc : H) (hh : h < m.heads L)
    (hPn : P ≤ n) (hV : m.Neutral L P n V) (hw : ∀ s, P ≤ s → w s = m.zero) :
    (List.range n).foldl (fun acc s => m.mac L h acc (w s) (V s)) acc =
      (List.range P).foldl (fun acc s => m.mac L h acc (w s) (V s)) acc := by
  induction n, hPn using Nat.le_induction with
  | base => rfl
  | succ n hPn ih =>
      have hlast : ∀ acc, m.mac L h acc (w n) (V n) = acc := by
        intro acc
        rw [hw n hPn]
        exact hV h n acc hh hPn (Nat.lt_succ_self n)
      rw [List.range_succ, List.foldl_append, List.foldl_cons, List.foldl_nil, hlast]
      apply ih
      intro h s acc hh hs hlt
      exact hV h s acc hh hs (by omega)

theorem headOut_prompt_row {L h P n t : Nat} (q : R) {kv kv' : Rows R × Rows R}
    (hh : h < m.heads L) (hPn : P ≤ n) (ht : t < P) (hV : m.Neutral L P n kv.2)
    (hV' : m.Neutral L P n kv'.2) (hkv : SameKV (· < P) kv kv') :
    m.headOut L h P n q kv.1 kv.2 t = m.headOut L h P n q kv'.1 kv'.2 t := by
  unfold headOut
  dsimp only
  have hweight : ∀ mx s, P ≤ s → m.weight mx (m.score L h P q kv'.1 t s) = m.zero := by
    intro mx s hs
    rw [m.score_canvas_key q kv'.1 ht hs, m.weight_mask]
  rw [m.score_prompt_row q ht fun s hs => (hkv s hs).1,
    m.sum_neutral _ _ hh hPn hV (hweight _), m.sum_neutral _ _ hh hPn hV' (hweight _)]
  congr 1
  apply List.foldl_ext
  intro acc s hs
  rw [(hkv s (List.mem_range.mp hs)).2]

theorem attend_prompt_row {L P n t : Nat} (q : R) {kv kv' : Rows R × Rows R}
    (hPn : P ≤ n) (ht : t < P) (hV : m.Neutral L P n kv.2) (hV' : m.Neutral L P n kv'.2)
    (hkv : SameKV (· < P) kv kv') :
    m.attend L P n q kv.1 kv.2 t = m.attend L P n q kv'.1 kv'.2 t := by
  unfold attend
  congr 1
  apply List.map_congr_left
  intro h hh
  exact m.headOut_prompt_row q (List.mem_range.mp hh) hPn ht hV hV' hkv

/-! ### The layers -/

theorem promptRows_le (n : Nat) : m.promptRows n ≤ n := by
  unfold Config.promptRows
  split <;> omega

variable {leftover leftover' : Buf → Nat → Rows R} {tokens tokens' : List Int}

theorem prompt_useKV (leftover leftover' : Buf → Nat → Rows R) (tokens tokens' : List Int)
    {st st' : Residual R} (L : Nat)
    (hst : AgreeOn (· < m.promptRows tokens.length) (· < m.promptRows tokens.length) st st') :
    Option.Rel (SameKV (· < m.promptRows tokens.length))
      (m.useKV (m.fullPass leftover tokens) L st) (m.useKV (m.fullPass leftover' tokens') L st') := by
  apply m.useKV_agree _ _ _ hst
  intro _ s hs
  obtain ⟨hk, hv⟩ := m.freshKV_row (m.fullPass leftover tokens) L st.x (Nat.zero_le s)
  obtain ⟨hk', hv'⟩ := m.freshKV_row (m.fullPass leftover' tokens') L st'.x (Nat.zero_le s)
  rw [hst.x s hs] at hk hv
  exact ⟨hk.trans hk'.symm, hv.trans hv'.symm⟩

/-- A step of the tower: the prompt rows in agree, and so do the prompt rows out. -/
theorem prompt_layer {st st' : Residual R} {L : Nat} (hlen : tokens.length = tokens'.length)
    (hst : AgreeOn (· < m.promptRows tokens.length) (· < m.promptRows tokens.length) st st')
    (hV : ∀ kv, m.useKV (m.fullPass leftover tokens) L st = some kv →
      m.Neutral L (m.promptRows tokens.length) tokens.length kv.2)
    (hV' : ∀ kv, m.useKV (m.fullPass leftover' tokens') L st' = some kv →
      m.Neutral L (m.promptRows tokens.length) tokens.length kv.2) :
    Option.Rel (AgreeOn (· < m.promptRows tokens.length) (· < m.promptRows tokens.length))
      (m.layer (m.fullPass leftover tokens) L st)
      (m.layer (m.fullPass leftover' tokens') L st') := by
  have hPn := m.promptRows_le tokens.length
  apply m.layer_agree _ _ _ (by simp [fullPass, hlen]) hlen _ hst
    (m.prompt_useKV leftover leftover' tokens tokens' L hst)
  · intro kv kv' hkv hkv' hsame t ht q
    exact m.attend_prompt_row q hPn ht (hV kv hkv) (hV' kv' hkv') hsame
  · intro t ht
    exact ⟨Nat.zero_le t, Nat.zero_le t, Nat.lt_of_lt_of_le ht hPn⟩

/-- The induction is on the layer. -/
theorem prompt_layers {st st' : Residual R} (hlen : tokens.length = tokens'.length)
    (hst : AgreeOn (· < m.promptRows tokens.length) (· < m.promptRows tokens.length) st st')
    (hV : m.NeutralRun (m.fullPass leftover tokens) st)
    (hV' : m.NeutralRun (m.fullPass leftover' tokens') st') {L : Nat} (hL : L ≤ m.nLayers) :
    Option.Rel (AgreeOn (· < m.promptRows tokens.length) (· < m.promptRows tokens.length))
      (m.layers (m.fullPass leftover tokens) st L)
      (m.layers (m.fullPass leftover' tokens') st' L) := by
  induction L with
  | zero => exact .some hst
  | succ L ih =>
      unfold layers
      apply rel_bind (ih (by omega))
      intro mid mid' hout hout' hmid
      apply m.prompt_layer hlen hmid
      · intro kv hkv
        exact hV L mid kv hL hout hkv
      · intro kv hkv
        have hneutral := hV' L mid' kv hL hout' hkv
        simpa [fullPass, ← hlen] using hneutral

theorem start_agree (prev prev' : Option (PrevLogits R F)) (hlen : tokens.length = tokens'.length)
    (hprompt : tokens.take (m.promptRows tokens.length) =
      tokens'.take (m.promptRows tokens.length)) :
    AgreeOn (· < m.promptRows tokens.length) (· < m.promptRows tokens.length)
      (m.start tokens prev) (m.start tokens' prev') := by
  constructor
  · intro t ht
    have htoken : tokens.getD t 0 = tokens'.getD t 0 := by
      rw [List.getD_eq_getElem?_getD, List.getD_eq_getElem?_getD, ← List.getElem?_take_of_lt ht,
        hprompt, List.getElem?_take_of_lt ht]
    simp only [start, embeddings, ← hlen, htoken]
    rw [if_pos ht, if_pos ht]
  · intro L
    exact .none

theorem take_promptRows {prompt canvas : List Int} (hcanvas : canvas.length = m.canvasLength) :
    (prompt ++ canvas).take (m.promptRows (prompt ++ canvas).length) =
      prompt.take (m.promptRows (prompt ++ canvas).length) := by
  apply List.take_append_of_le_length
  simp only [Config.promptRows, List.length_append, hcanvas]
  split <;> omega

/-- The prompt tower and the prompt logits of two full forwards agree. -/
def SamePrompt (m : Model R H F) (leftover leftover' : Buf → Nat → Rows R)
    (tokens tokens' : List Int) (prev prev' : Option (PrevLogits R F)) : Prop :=
  let P := m.promptRows tokens.length
  (∀ L, L ≤ m.nLayers → Option.Rel (AgreeOn (· < P) (· < P))
    (m.layers (m.fullPass leftover tokens) (m.start tokens prev) L)
    (m.layers (m.fullPass leftover' tokens') (m.start tokens' prev') L)) ∧
  ∀ out out', m.forward (m.fullPass leftover tokens) tokens prev = some out →
    m.forward (m.fullPass leftover' tokens') tokens' prev' = some out' →
    ∀ t, t < P → out t = out' t

/-- Neutral canvases do not reach the prompt. -/
theorem prompt_ignores_canvas {prompt canvas canvas' : List Int}
    {prev prev' : Option (PrevLogits R F)}
    (hcanvas : canvas.length = m.canvasLength) (hcanvas' : canvas'.length = m.canvasLength)
    (hV : m.NeutralRun (m.fullPass leftover (prompt ++ canvas)) (m.start (prompt ++ canvas) prev))
    (hV' : m.NeutralRun (m.fullPass leftover' (prompt ++ canvas'))
      (m.start (prompt ++ canvas') prev')) :
    m.SamePrompt leftover leftover' (prompt ++ canvas) (prompt ++ canvas') prev prev' := by
  have hlen : (prompt ++ canvas).length = (prompt ++ canvas').length := by
    simp [hcanvas, hcanvas']
  have hprompt : (prompt ++ canvas).take (m.promptRows (prompt ++ canvas).length) =
      (prompt ++ canvas').take (m.promptRows (prompt ++ canvas).length) := by
    rw [m.take_promptRows hcanvas, hlen, m.take_promptRows hcanvas']
  have htower := fun L (hL : L ≤ m.nLayers) =>
    m.prompt_layers (L := L) hlen (m.start_agree prev prev' hlen hprompt) hV hV' hL
  constructor
  · exact htower
  · intro out out' hout hout' t ht
    unfold forward at hout hout'
    split at hout
    case isFalse => cases hout
    split at hout'
    case isFalse => cases hout'
    obtain ⟨st, hst, rfl⟩ := Option.map_eq_some_iff.mp hout
    obtain ⟨st', hst', rfl⟩ := Option.map_eq_some_iff.mp hout'
    have hrel := htower m.nLayers le_rfl
    rw [hst, hst'] at hrel
    obtain ⟨hagree⟩ := hrel
    rw [logits, logits, hagree.x t ht]

/-! ### Floats -/

/-- What floats do in a sum of weighted value rows, and how a NaN gets from there to the
end of a layer. The sign of a zero is not kept. -/
structure Floats (m : Model R H F) where
  /-- The head's part of a value row of the layer has no NaN and no infinity. -/
  finite : Nat → Nat → R → Prop
  nanHead : H → Prop
  nan : R → Prop
  mac_finite : ∀ L h acc v, finite L h v → m.mac L h acc m.zero v = acc
  mac_zero_nan : ∀ L h acc v, ¬ finite L h v → nanHead (m.mac L h acc m.zero v)
  mac_nan : ∀ L h acc w v, nanHead acc → nanHead (m.mac L h acc w v)
  headDiv_nan : ∀ acc sum, nanHead acc → nanHead (m.headDiv acc sum)
  join_nan : ∀ heads head, head ∈ heads → nanHead head → nan (m.join heads)
  oProj_nan : ∀ L x, nan x → nan (m.oProj L x)
  postAttnNorm_nan : ∀ L x, nan x → nan (m.postAttnNorm L x)
  add_nan : ∀ x y, nan y → nan (m.add x y)
  encScale_nan : ∀ L x, nan x → nan (m.encScale L x)

namespace Floats

variable {m} (fl : m.Floats)

/-- No value row of the canvas holds a NaN or an infinity, at any layer. -/
def FiniteRun (fl : m.Floats) (pass : Pass R) (st₀ : Residual R) : Prop :=
  ∀ L st kv, L < m.nLayers → m.layers pass st₀ L = some st → m.useKV pass L st = some kv →
    ∀ h s, h < m.heads L → pass.promptRows ≤ s → s < pass.nTok → fl.finite L h (kv.2 s)

/-- The prompt rows of a run hold no NaN. -/
def SoundPrompt (fl : m.Floats) (pass : Pass R) (st₀ : Residual R) : Prop :=
  ∀ L st, L ≤ m.nLayers → m.layers pass st₀ L = some st →
    ∀ t, t < pass.promptRows → ¬ fl.nan (st.x t)

theorem FiniteRun.neutral {pass : Pass R} {st₀ : Residual R} (hrun : fl.FiniteRun pass st₀) :
    m.NeutralRun pass st₀ := by
  intro L st kv hL hst hkv h s acc hh hs hlt
  exact fl.mac_finite L h acc _ (hrun L st kv hL hst hkv h s hh hs hlt)

/-- A value row with a NaN or an infinity spoils the sum, also with weight zero. -/
theorem sum_nan {L h n s : Nat} {V : Rows R} (w : Nat → F) (acc : H) (hs : s < n)
    (hw : w s = m.zero) (hV : ¬ fl.finite L h (V s)) :
    fl.nanHead ((List.range n).foldl (fun acc s => m.mac L h acc (w s) (V s)) acc) := by
  induction n with
  | zero => cases hs
  | succ n ih =>
      rw [List.range_succ, List.foldl_append, List.foldl_cons, List.foldl_nil]
      rcases Nat.lt_or_eq_of_le (Nat.le_of_lt_succ hs) with hlt | rfl
      · exact fl.mac_nan _ _ _ _ _ (ih hlt)
      · rw [hw]
        exact fl.mac_zero_nan _ _ _ _ hV

theorem attend_nan {L h P n s t : Nat} (q : R) (K : Rows R) {V : Rows R} (hh : h < m.heads L)
    (hP : P ≤ s) (hs : s < n) (ht : t < P) (hV : ¬ fl.finite L h (V s)) :
    fl.nan (m.attend L P n q K V t) := by
  apply fl.join_nan _ (m.headOut L h P n q K V t)
  · exact List.mem_map_of_mem (List.mem_range.mpr hh)
  · apply fl.headDiv_nan
    apply fl.sum_nan _ _ hs _ hV
    rw [m.score_canvas_key q K ht hP, m.weight_mask]

theorem layerRow_nan {L P n t : Nat} (x : R) (kv : Rows R × Rows R) (ht : t < P)
    (hao : fl.nan (m.attend L P n (m.queryRow L t x) kv.1 kv.2 t)) :
    fl.nan (m.layerRow L P n t x kv) := by
  unfold layerRow tailRow
  rw [if_pos (decide_eq_true ht)]
  apply fl.encScale_nan
  apply fl.add_nan
  apply fl.add_nan
  exact fl.postAttnNorm_nan _ _ (fl.oProj_nan _ _ hao)

/-- Against a canvas of finite values over a sound prompt, the prompt of another canvas is
the same exactly if the values of that canvas are finite too. -/
theorem same_prompt_iff (fl : m.Floats) (prompt canvas canvas' : List Int)
    (prev prev' : Option (PrevLogits R F)) (leftover leftover' : Buf → Nat → Rows R)
    (hcanvas : canvas.length = m.canvasLength) (hcanvas' : canvas'.length = m.canvasLength)
    (hP : 0 < m.promptRows (prompt ++ canvas).length)
    (hfinite : fl.FiniteRun (m.fullPass leftover' (prompt ++ canvas'))
      (m.start (prompt ++ canvas') prev'))
    (hsound : fl.SoundPrompt (m.fullPass leftover' (prompt ++ canvas'))
      (m.start (prompt ++ canvas') prev')) :
    m.SamePrompt leftover leftover' (prompt ++ canvas) (prompt ++ canvas') prev prev' ↔
      fl.FiniteRun (m.fullPass leftover (prompt ++ canvas)) (m.start (prompt ++ canvas) prev) := by
  constructor
  · rintro ⟨htower, -⟩ L st kv hL hst hkv h s hh hs hlt
    by_contra hV
    obtain ⟨out, hout⟩ : ∃ out, m.layer (m.fullPass leftover (prompt ++ canvas)) L st =
        some out := by
      simp [layer, hkv]
    have hnext : m.layers (m.fullPass leftover (prompt ++ canvas))
        (m.start (prompt ++ canvas) prev) (L + 1) = some out := by
      rw [layers, hst]
      exact hout
    have hrel := htower (L + 1) hL
    rw [hnext] at hrel
    obtain ⟨out', hout', hagree⟩ := rel_some hrel
    have hlen : (prompt ++ canvas').length = (prompt ++ canvas).length := by
      simp [hcanvas, hcanvas']
    -- the first prompt row is a NaN after the layer
    apply hsound (L + 1) out' hL hout' 0 (by simpa [fullPass, hlen] using hP)
    rw [← hagree.x 0 hP, m.layer_row hkv hout (Nat.zero_le 0)
      (Nat.lt_of_lt_of_le hP (m.promptRows_le _))]
    exact fl.layerRow_nan _ _ hP (fl.attend_nan _ _ hh hs hlt hP hV)
  · intro hrun
    exact m.prompt_ignores_canvas hcanvas hcanvas' hrun.neutral hfinite.neutral

end Floats

end Model

/-! ### Zero times a NaN -/

/-- An operation of numbers that passes a NaN on. -/
def nanLift (f : Int → Int → Int) : Option Int → Option Int → Option Int
  | some a, some b => some (f a b)
  | _, _ => none

def nanCompare (f : Int → Int → Bool) : Option Int → Option Int → Bool
  | some a, some b => f a b
  | _, _ => false

/-- One global layer with one head over rows of one number, where none is a NaN. -/
def nanModel : Model (Option Int) (Option Int) (Option Int) where
  nLayers := 1
  nVocab := 4
  canvasLength := 1
  swaPeriod := 1
  kvFromStart := 0
  slidingWindow := 1
  nHead := 1
  nHeadSwa := 1
  nExpert := 1
  hasV := fun _ => true
  mask := some (-34)
  cut := some (-30)
  zero := some 0
  lt := nanCompare fun a b => a < b
  le := nanCompare fun a b => a ≤ b
  plus := nanLift (· + ·)
  expSub := nanLift fun s mx => 2 ^ (s - mx).toNat
  mask_le_cut := by decide
  embed := some
  add := nanLift (· + ·)
  normNoscale := id
  scProbs := fun _ x => x
  scSoft := id
  scNorm := id
  scGate := id
  scUp := id
  scDown := id
  geluMul := nanLift (· * ·)
  attnNorm := fun _ x => x
  qProj := fun _ x => x
  qNorm := fun _ x => x
  kProj := fun _ x => x
  kNorm := fun _ x => x
  vProj := fun _ x => x
  vNorm := fun _ x => x
  rope := fun _ _ x => x
  dot := fun _ _ => nanLift (· * ·)
  headZero := some 0
  mac := fun _ _ acc w v => nanLift (· + ·) acc (nanLift (· * ·) w v)
  headDiv := nanLift (· / ·)
  join := fun heads => heads.foldl (nanLift (· + ·)) (some 0)
  oProj := fun _ x => x
  postAttnNorm := fun _ x => x
  ffnNorm := fun _ x => x
  ffnGate := fun _ x => x
  ffnUp := fun _ x => x
  ffnDown := fun _ x => x
  postFfwNorm1 := fun _ x => x
  preFfwNorm2 := fun _ x => x
  routerPrep := fun _ x => x
  routerLogits := fun _ x => x
  topExperts := fun _ _ => [(0, some 1)]
  gateUp := fun _ _ x => x
  geglu := id
  expertDown := fun _ _ x => x
  moeZero := some 0
  axpy := fun acc w y => nanLift (· + ·) acc (nanLift (· * ·) w y)
  postFfwNorm2 := fun _ x => x
  postFfwNorm := fun _ x => x
  encScale := fun _ x => x
  decScale := fun _ x => x
  outputNorm := id
  head := id
  softcap := id

def noLeftover : Buf → Nat → Rows (Option Int) := fun _ _ _ => some 0

/-- A canvas row of the previous logits holds a NaN: the logits of the prompt row before it
become one. -/
theorem masked_nan_reaches_prompt :
    nanModel.promptRows [2, 3].length = 1 ∧
      (nanModel.forward (nanModel.fullPass noLeftover [2, 3]) [2, 3] none).map (· 0) ≠
        (nanModel.forward (nanModel.fullPass noLeftover [2, 3]) [2, 3]
          (some ⟨fun _ => none, some 1⟩)).map (· 0) := by
  decide

def nanFloats : nanModel.Floats where
  finite := fun _ _ v => v ≠ none
  nanHead := (· = none)
  nan := (· = none)
  mac_finite := by
    rintro _ _ (_ | acc) (_ | v) hv
    · exact absurd rfl hv
    · rfl
    · exact absurd rfl hv
    · exact congrArg some (by simp)
  mac_zero_nan := by
    rintro _ _ (_ | acc) (_ | v) hv
    · rfl
    · exact absurd (Option.some_ne_none v) hv
    · rfl
    · exact absurd (Option.some_ne_none v) hv
  mac_nan := by
    rintro _ _ _ w v rfl
    rfl
  headDiv_nan := by
    rintro _ sum rfl
    rfl
  join_nan := by
    rintro heads _ hmem rfl
    have hstay : ∀ l : List (Option Int), l.foldl (nanLift (· + ·)) none = none := by
      intro l
      induction l with
      | nil => rfl
      | cons _ l ih => exact ih
    obtain ⟨front, back, rfl⟩ := List.append_of_mem hmem
    change (front ++ none :: back).foldl (nanLift (· + ·)) (some 0) = none
    rw [List.foldl_append, List.foldl_cons]
    cases front.foldl (nanLift (· + ·)) (some 0) <;> exact hstay back
  oProj_nan := fun _ _ h => h
  postAttnNorm_nan := fun _ _ h => h
  add_nan := by
    rintro (_ | x) _ rfl
    · rfl
    · rfl
  encScale_nan := fun _ _ h => h

/-- A canvas of one number, unless it is a NaN. -/
theorem nanModel_finite {t : Int} (prev : Option (PrevLogits (Option Int) (Option Int)))
    (hfinite : nanModel.embeddings 1 [2, t] prev 1 ≠ none) :
    nanFloats.FiniteRun (nanModel.fullPass noLeftover [2, t]) (nanModel.start [2, t] prev) := by
  intro L st kv hL hst hkv h s _ hs hlt
  obtain rfl : L = 0 := Nat.lt_one_iff.mp hL
  obtain rfl : s = 1 := le_antisymm (Nat.lt_succ_iff.mp hlt) hs
  cases hst
  cases Option.some.inj hkv
  exact hfinite

theorem finite_canvas_sound :
    nanFloats.SoundPrompt (nanModel.fullPass noLeftover [2, 3]) (nanModel.start [2, 3] none) := by
  intro L st hL hst t ht
  obtain rfl : t = 0 := Nat.lt_one_iff.mp ht
  have hrows : ∀ L ≤ 1, (nanModel.layers (nanModel.fullPass noLeftover [2, 3])
      (nanModel.start [2, 3] none) L).map (fun st => (st.x 0).isSome) = some true := by
    decide
  have hrow := hrows L hL
  rw [hst] at hrow
  exact Option.isSome_iff_ne_none.mp (Option.some.inj hrow)

theorem finite_canvas_ignored :
    nanModel.SamePrompt noLeftover noLeftover [2, 1] [2, 3]
      (some ⟨fun _ => some 5, some 1⟩) none :=
  (nanFloats.same_prompt_iff [2] [1] [3] (some ⟨fun _ => some 5, some 1⟩) none
    noLeftover noLeftover rfl rfl (by decide) (nanModel_finite none (by decide))
    finite_canvas_sound).mpr (nanModel_finite _ (by decide))

end ShannonPrime.Diffusion
