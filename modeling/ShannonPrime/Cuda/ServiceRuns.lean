import ShannonPrime.Cuda.ServiceGrow

/-!
Runs of the q36 service. A run whose calls all meet their conditions goes wrong nowhere, and what
it leaves can be freed; a tensor of 512 columns, uploaded and multiplied, goes wrong.
-/

namespace ShannonPrime.Cuda.Service

open Exits

/-- The handle keeps its invariant, whatever the call returns. -/
def Sound (h : Q36gpu) (c : Work PUnit) : Prop := Keeps (· = h) c (fun _ => Q36gpu.Inv) Q36gpu.Inv

theorem Still.sound {h : Q36gpu} (hinv : h.Inv) {c : Work PUnit} (hc : Still h c) : Sound h c :=
  hc.weaken (fun _ hs => hs) (fun _ _ hs => hs ▸ hinv) fun _ hs => hs ▸ hinv

theorem sound_attempt_bind {h : Q36gpu} (hinv : h.Inv) {ok : Bool} {code : Int}
    {f : PUnit → Work PUnit} (hf : ok = true → Sound h (f ⟨⟩)) :
    Sound h (attempt ok code >>= f) := by
  unfold attempt
  split
  case isTrue hok =>
      have hgo : Keeps (· = h) (pure ⟨⟩ : Work PUnit) (fun _ => (· = h)) Q36gpu.Inv :=
        keeps_pure fun _ hs => hs
      exact keeps_bind hgo fun _ => hf hok
  case isFalse =>
      exact keeps_bind (Q := fun _ _ => False) (keeps_exit fun _ hs => hs ▸ hinv)
        fun _ _ hs => hs.elim

/-! ### The uploads -/

/-- Each growth of an upload that is reached fails only where there is no buffer yet. -/
def UploadMeets (h : Q36gpu) (pt : HostTensor) (luck : Luck) : Prop :=
  luck.host = true → (uploadPacked pt luck.tensor).isSome = true →
    Kept (h.xcap < pt.cols) (luck.alloc .x) (h.buf .x) ∧
    ((h.xcap < pt.cols → luck.alloc .x = true) →
      Kept (h.ycap < pt.rows) (luck.alloc .y) (h.buf .y) ∧
      ((h.ycap < pt.rows → luck.alloc .y = true) → h.qcap < pt.cols + 64 →
        (luck.alloc .qx = true ∨ h.buf .qx = .null ∧ h.buf .sx = .null) ∧
        (luck.alloc .qx = true → luck.alloc .sx = true ∨ h.buf .sx = .null)))

theorem uploadPacked_dims {pt : HostTensor} {ok : Bool} {dt : Dims}
    (h : uploadPacked pt ok = some dt) : dt.nIn = pt.cols ∧ dt.nOut = pt.rows := by
  unfold uploadPacked at h
  split at h
  · cases h
    exact ⟨rfl, rfl⟩
  · cases h

theorem sound_upload {h : Q36gpu} (hinv : h.Inv) {name : List UInt8} {pt : HostTensor} {luck : Luck}
    (hmeets : UploadMeets h pt luck) : Sound h (sp_q36gpu_upload name pt luck) := by
  refine sound_attempt_bind hinv fun hhost => ?_
  cases hpacked : uploadPacked pt luck.tensor with
  | none => exact keeps_exit fun _ hs => hs ▸ hinv
  | some dt =>
      obtain ⟨hin, hout⟩ := uploadPacked_dims hpacked
      obtain ⟨hx, hrest⟩ := hmeets hhost (by rw [hpacked]; rfl)
      rw [← hin, ← hout] at hrest
      rw [← hin] at hx
      have hinvX : (h.grownX dt.nIn).Inv := grownX_inv hinv
      obtain ⟨hqX, -, -, hyX, -, -, -, hbufX⟩ := grownX_rest (h := h) (n := dt.nIn)
      refine keeps_bind ((keeps_growX hinv 1 hx).weaken (fun _ hs => hs) (fun _ _ hs => hs)
        fun _ hs => hs ▸ hinv) fun _ => keeps_of_state ?_
      rintro _ ⟨rfl, hokX⟩
      obtain ⟨hy, hquant⟩ := hrest hokX
      rw [← hyX, ← hbufX .y (by decide)] at hy
      rw [← hyX] at hquant
      have hinvY : ((h.grownX dt.nIn).grownY dt.nOut).Inv := grownY_inv hinvX
      obtain ⟨hyY, hxY, hqY, hbufY⟩ := grownY_rest (h := h.grownX dt.nIn) (n := dt.nOut)
      refine keeps_bind ((keeps_growY hinvX 1 hy).weaken (fun _ hs => hs) (fun _ _ hs => hs)
        fun _ hs => hs ▸ hinvX) fun _ => keeps_of_state ?_
      rintro _ ⟨rfl, hokY⟩
      have hquant := hquant hokY
      rw [← hqX, ← hqY, ← hbufX .qx (by decide), ← hbufX .sx (by decide),
        ← hbufY .qx (by decide), ← hbufY .sx (by decide)] at hquant
      refine keeps_bind (keeps_growQuant hinvY (fun hgrows => (hquant hgrows).1)
        fun hgrows => (hquant hgrows).2) fun _ => keeps_of_state ?_
      rintro _ rfl
      have hinvQ : (((h.grownX dt.nIn).grownY dt.nOut).grownQuant dt.nIn).Inv :=
        grownQuant_inv hinvY
      obtain ⟨hqQ, hxQ, hyQ⟩ := grownQuant_rest (h := (h.grownX dt.nIn).grownY dt.nOut) (n := dt.nIn)
      have hxX := grownX_xcap (h := h) (n := dt.nIn)
      refine keeps_modify fun _ hs => ?_
      rw [hs]
      refine ⟨hinvQ.x, hinvQ.y, hinvQ.qx, hinvQ.sx, hinvQ.moe, hinvQ.slab, hinvQ.pin, fun E hE => ?_⟩
      rcases List.mem_append.mp hE with hold | hnew
      · exact hinvQ.ents E hold
      · obtain rfl := List.mem_singleton.mp hnew
        dsimp only
        omega

/-- The scratch and the activation fail only where there is none yet. -/
def UploadExpertsMeets (h : Q36gpu) (pt : Proj → HostTensor) (E : Nat) (luck : Luck) : Prop :=
  luck.host = true → (∀ p, (uploadPacked (pt p) luck.tensor).isSome = true) →
    (h.buf .moe = .null → luck.alloc .moe = true) →
      Kept (h.xcap < E) (luck.alloc .x) (h.buf .x)

theorem sound_upload_experts {h : Q36gpu} (hinv : h.Inv) {tag : List UInt8}
    {pt : Proj → HostTensor} {FF E : Nat} {luck : Luck}
    (hmeets : UploadExpertsMeets h pt E luck) :
    Sound h (sp_q36gpu_upload_experts tag pt FF E luck) := by
  refine sound_attempt_bind hinv fun hhost => ?_
  cases hg : uploadPacked (pt .gate) luck.tensor with
  | none => exact keeps_exit fun _ hs => hs ▸ hinv
  | some g =>
  cases hu : uploadPacked (pt .up) luck.tensor with
  | none => exact keeps_exit fun _ hs => hs ▸ hinv
  | some u =>
  cases hd : uploadPacked (pt .down) luck.tensor with
  | none => exact keeps_exit fun _ hs => hs ▸ hinv
  | some d =>
      have hpacked : ∀ p, (uploadPacked (pt p) luck.tensor).isSome = true := by
        intro p
        cases p with
        | gate => rw [hg]; rfl
        | up => rw [hu]; rfl
        | down => rw [hd]; rfl
      let h₁ : Q36gpu := { h with moes := h.moes ++ [⟨strncpy 96 tag, Proj.of g u d, FF, E⟩] }
      have hinv₁ : h₁.Inv :=
        ⟨hinv.x, hinv.y, hinv.qx, hinv.sx, hinv.moe, hinv.slab, hinv.pin, hinv.ents⟩
      refine keeps_bind (Q := fun _ => (· = h₁)) (keeps_modify fun s hs => by rw [hs]) fun _ => ?_
      refine keeps_bind ((keeps_ensureMoe FF E 1).weaken (fun _ hs => hs) (fun _ _ hs => hs)
        fun _ hs => hs ▸ hinv₁) fun _ => keeps_of_state ?_
      rintro _ ⟨rfl, hmoe⟩
      have hinv₂ : (h₁.withMoe FF E).Inv := withMoe_inv hinv₁ FF E
      obtain ⟨hx, -, -, -, -, -, hbuf⟩ := withMoe_rest (h := h₁) FF E
      have hkept : Kept ((h₁.withMoe FF E).xcap < E) (luck.alloc .x) ((h₁.withMoe FF E).buf .x) := by
        rw [hx, hbuf .x (by decide)]
        exact hmeets hhost hpacked hmoe
      exact (keeps_growX hinv₂ 1 hkept).weaken (fun _ hs => hs)
        (fun _ s hs => hs.1 ▸ grownX_inv hinv₂) fun _ hs => hs ▸ hinv₂

/-! ### The stream -/

/-- The slab of a stream of `n` experts. -/
def slabNeed (FF E n : Nat) : Nat := n * perExpert FF E + 65536

/-- The capacities once a stream of `n` experts has what it asks for. -/
def Q36gpu.streamCaps (h : Q36gpu) (FF E n : Nat) : Caps where
  x := max h.xcap E
  q := h.qcap
  moe := if h.buf .moe = .null then FF * 3 + E * 2 else h.moeRoom
  slab := max h.slab_cap (slabNeed FF E n)
  pin := max h.pin_cap (perExpert FF E)

/-- The slab and the pinned buffers can be had. -/
def StreamReady (h : Q36gpu) (FF E n : Nat) (luck : Luck) : Prop :=
  (h.slab_cap < slabNeed FF E n → luck.alloc .slab = true) ∧
    (h.pin_cap < perExpert FF E → ∀ b,
      luck.alloc (.pin b) = true ∧ (h.pev_used b = true ∨ luck.event b = true))

/-- A stream, as far as it comes: the activation fails only where there is none yet, and then the
scratch and each expert have room. -/
def StreamMeets (h : Q36gpu) (pt : Proj → HostTensor) (idx : List Nat) (E FF : Nat)
    (luck : Luck) : Prop :=
  (h.buf .moe = .null → luck.alloc .moe = true) →
    Kept (h.xcap < E) (luck.alloc .x) (h.buf .x) ∧
    ((h.xcap < E → luck.alloc .x = true) → StreamReady h FF E idx.length luck →
      luck.copyIn = true → FF * 3 + E * 2 ≤ (h.streamCaps FF E idx.length).moe ∧
      (luck.clear = true → ∀ before k e after, idx.zipIdx = before ++ (e, k) :: after →
        (∀ s ∈ before, Passed pt FF E luck s.2 s.1) →
          ExpertMeets (h.streamCaps FF E idx.length) pt FF E luck k e))

theorem sound_moe_stream {h : Q36gpu} (hinv : h.Inv) {pt : Proj → HostTensor} {idx : List Nat}
    {E FF : Nat} {luck : Luck} (hmeets : StreamMeets h pt idx E FF luck) :
    Sound h (sp_q36gpu_moe_stream pt idx E FF luck) := by
  refine keeps_bind ((keeps_ensureMoe FF E (-1)).weaken (fun _ hs => hs) (fun _ _ hs => hs)
    fun _ hs => hs ▸ hinv) fun _ => keeps_of_state ?_
  rintro _ ⟨rfl, hmoe⟩
  obtain ⟨hkept, hmeets⟩ := hmeets hmoe
  let h₁ := h.withMoe FF E
  have hinv₁ : h₁.Inv := withMoe_inv hinv FF E
  obtain ⟨hx₁, hq₁, hs₁, hp₁, he₁, hm₁, hbuf₁⟩ := withMoe_rest (h := h) FF E
  have hkept₁ : Kept (h₁.xcap < E) (luck.alloc .x) (h₁.buf .x) := by
    rw [hx₁, hbuf₁ .x (by decide)]
    exact hkept
  refine keeps_bind ((keeps_growX hinv₁ (-1) hkept₁).weaken (fun _ hs => hs) (fun _ _ hs => hs)
    fun _ hs => hs ▸ hinv₁) fun _ => keeps_of_state ?_
  rintro _ ⟨rfl, hx⟩
  rw [hx₁] at hx
  let h₂ := h₁.grownX E
  have hinv₂ : h₂.Inv := grownX_inv hinv₁
  have hx₂ : h₂.xcap = max h₁.xcap E := grownX_xcap
  obtain ⟨hq₂, hm₂, -, -, hs₂, hp₂, he₂, -⟩ := grownX_rest (h := h₁) (n := E)
  refine keeps_bind (keeps_slab hinv₂ _) fun _ => keeps_of_state ?_
  rintro _ ⟨rfl, hslab⟩
  let h₃ := h₂.withSlab (slabNeed FF E idx.length)
  have hinv₃ : h₃.Inv := withSlab_inv hinv₂ _
  obtain ⟨hx₃, hq₃, hm₃, hs₃, hp₃, he₃⟩ := withSlab_rest (h := h₂) (slabNeed FF E idx.length)
  refine keeps_bind (keeps_pinEnsure hinv₃ _) fun _ => keeps_of_state ?_
  rintro _ ⟨rfl, hpins⟩
  let h₄ := h₃.withPins (perExpert FF E)
  have hinv₄ : h₄.Inv := withPins_inv hinv₃ _
  obtain ⟨hx₄, hq₄, hm₄, hs₄, hp₄⟩ := withPins_rest (h := h₃) (perExpert FF E)
  have hcaps : h₄.caps = h.streamCaps FF E idx.length := by
    simp only [Q36gpu.caps, Q36gpu.streamCaps, Caps.mk.injEq]
    exact ⟨by rw [hx₄, hx₃, hx₂, hx₁], by rw [hq₄, hq₃, hq₂, hq₁], by rw [hm₄, hm₃, hm₂, hm₁],
      by rw [hs₄, hs₃, hs₂, hs₁], by rw [hp₄, hp₃, hp₂, hp₁]⟩
  have hready : StreamReady h FF E idx.length luck := by
    rw [hs₂, hs₁] at hslab
    rw [hp₃, hp₂, hp₁, he₃, he₂, he₁] at hpins
    exact ⟨hslab, hpins⟩
  have hrest := hmeets hx hready
  rw [← hcaps] at hrest
  have hroom : E ≤ h₄.xcap := by
    rw [hx₄, hx₃, hx₂]
    exact le_max_right _ _
  refine Still.sound hinv₄ (still_startMoe hinv₄ hroom (fun hin => (hrest hin).1)
    fun hin hclear => ?_)
  obtain ⟨hscratch, hexperts⟩ := hrest hin
  refine still_bind (keeps_forM_reached (fun s => Passed pt FF E luck s.2 s.1)
    (fun s _ _ => streamExpert_ended) ?_) (still_finishMoe hinv₄ hscratch)
  intro before s after hsplit hbefore
  exact still_streamExpert hinv₄ hscratch (hexperts hclear before s.2 s.1 after hsplit hbefore)

/-! ### Runs -/

/-- The condition of a call. -/
def Meets (h : Q36gpu) : Cmd → Prop
  | .upload _ pt luck => UploadMeets h pt luck
  | .uploadExperts _ pt _ E luck => UploadExpertsMeets h pt E luck
  | .matmul name n_tok nIn nOut luck => MatmulMeets h name n_tok nIn nOut luck
  | .moe tag idx E FF luck => MoeMeets h tag idx E FF luck
  | .moeStream pt idx E FF luck => StreamMeets h pt idx E FF luck

/-- Every call of a run meets its condition where it is made. -/
def AllMeet (h : Q36gpu) : List Cmd → Prop
  | [] => True
  | cmd :: cmds => Meets h cmd ∧ ∀ h', h.after cmd = some h' → AllMeet h' cmds

theorem sound_run {h : Q36gpu} (hinv : h.Inv) {cmd : Cmd} (hmeets : Meets h cmd) :
    Sound h cmd.run := by
  cases cmd with
  | upload name pt luck => exact sound_upload hinv hmeets
  | uploadExperts tag pt FF E luck => exact sound_upload_experts hinv hmeets
  | matmul name n_tok nIn nOut luck => exact (still_matmul hinv hmeets).sound hinv
  | moe tag idx E FF luck => exact (still_moe hinv hmeets).sound hinv
  | moeStream pt idx E FF luck => exact sound_moe_stream hinv hmeets

theorem after_inv {h : Q36gpu} (hinv : h.Inv) {cmd : Cmd} (hmeets : Meets h cmd) :
    ∃ h', h.after cmd = some h' ∧ h'.Inv := by
  obtain ⟨r, h', hrun, hends⟩ := sound_run hinv hmeets h rfl
  refine ⟨h', by rw [Q36gpu.after, hrun]; rfl, ?_⟩
  cases r with
  | error code => exact hends
  | ok => exact hends

theorem afterAll_inv {cmds : List Cmd} {h : Q36gpu} (hinv : h.Inv) (hall : AllMeet h cmds) :
    ∃ h', h.afterAll cmds = some h' ∧ h'.Inv := by
  induction cmds generalizing h with
  | nil => exact ⟨h, rfl, hinv⟩
  | cons cmd cmds ih =>
      obtain ⟨hmeets, htail⟩ := hall
      obtain ⟨h', hafter, hinv'⟩ := after_inv hinv hmeets
      obtain ⟨h'', hrun, hinv''⟩ := ih hinv' (htail h' hafter)
      refine ⟨h'', ?_, hinv''⟩
      rw [Q36gpu.afterAll, List.foldlM_cons, hafter]
      exact hrun

theorem AllMeet.take {cmds : List Cmd} {h : Q36gpu} (hall : AllMeet h cmds) (n : Nat) :
    AllMeet h (cmds.take n) := by
  induction cmds generalizing h n with
  | nil =>
      rw [List.take_nil]
      exact hall
  | cons cmd cmds ih =>
      cases n with
      | zero => trivial
      | succ n => exact ⟨hall.1, fun h' hafter => ih (hall.2 h' hafter) n⟩

/-- What is not freed yet can be. -/
theorem free_some {h : Q36gpu} {bufs : List Buf} (hnodup : bufs.Nodup)
    (hheld : ∀ b ∈ bufs, h.buf b ≠ .freed) : ∃ h', bufs.forM cudaFree h = some (.ok ⟨⟩, h') := by
  induction bufs generalizing h with
  | nil => exact ⟨h, rfl⟩
  | cons b bufs ih =>
      obtain ⟨hnew, hrest⟩ := List.nodup_cons.mp hnodup
      have hb : h.buf b ≠ .freed := hheld b List.mem_cons_self
      have hothers : ∀ b' ∈ bufs, h.buf b' ≠ .freed := fun b' hb' =>
        hheld b' (List.mem_cons_of_mem _ hb')
      rw [List.forM_eq_forM, List.forM_cons]
      cases hregion : h.buf b with
      | null =>
          obtain ⟨h', hrun⟩ := ih hrest hothers
          exact ⟨h', (bind_ok (cudaFree_null hregion) _).trans hrun⟩
      | live n =>
          have hheld' : ∀ b' ∈ bufs, Function.update h.buf b .freed b' ≠ .freed := by
            intro b' hb'
            rw [Function.update_of_ne (ne_of_mem_of_not_mem hb' hnew)]
            exact hothers b' hb'
          obtain ⟨h', hrun⟩ := ih (h := { h with buf := Function.update h.buf b .freed }) hrest hheld'
          exact ⟨h', (bind_ok (cudaFree_live hregion) _).trans hrun⟩
      | freed => exact absurd hregion hb

theorem Region.Sized.not_freed {r : Region} {n : Nat} (h : r.Sized n) : r ≠ .freed := by
  rintro rfl
  exact h

theorem Q36gpu.Inv.held {h : Q36gpu} (hinv : h.Inv) (b : Buf) : h.buf b ≠ .freed := by
  cases b with
  | x => exact hinv.x.not_freed
  | y => exact hinv.y.not_freed
  | qx => exact hinv.qx.not_freed
  | sx => exact hinv.sx.not_freed
  | moe => exact hinv.moe.not_freed
  | slab => exact hinv.slab.not_freed
  | pin second => exact (hinv.pin second).not_freed

/-- A run whose calls meet their conditions goes wrong nowhere, and after every call of it the
service can be freed. -/
theorem service_safe (cmds : List Cmd) (hall : AllMeet .new cmds) (n : Nat) :
    ∃ h, Q36gpu.new.afterAll (cmds.take n) = some h ∧ (sp_q36gpu_free h).isSome = true := by
  obtain ⟨h, hrun, hinv⟩ := afterAll_inv Q36gpu.new_inv (hall.take n)
  have hnodup : Buf.all.Nodup := by decide
  obtain ⟨h', hfree⟩ := free_some hnodup fun b _ => hinv.held b
  exact ⟨h, hrun, by rw [sp_q36gpu_free, hfree]; rfl⟩

/-! ### A tensor of one row -/

/-- One row of bytes. -/
def byteRow (cols : Nat) (hpos : 0 < cols) (hsmall : cols < 2 ^ 64) : HostTensor where
  rows := 1
  cols := cols
  codesBytes := cols
  codes _ := 0
  rowOff _ := 0
  rowScale := some fun _ => 0
  rowPrec _ := 8
  bscale := none
  bsNblk := 0
  rows_pos := Nat.one_pos
  cols_pos := hpos
  precise _ _ := .inl rfl
  blocked h := absurd h Bool.false_ne_true
  blocks h := absurd h Bool.false_ne_true
  ascending r hr := by
    obtain rfl := Nat.lt_one_iff.mp hr
    exact (Nat.zero_add _).le
  addressable := hsmall

/-- Everything goes through. -/
def Luck.good : Luck where
  host := true
  tensor := true
  alloc _ := true
  event _ := true
  copyIn := true
  clear := true
  wait _ := true
  ship _ := true
  record _ := true
  copyOut := true
  sync := true

/-- The row uploaded and multiplied. -/
def uploadThenMultiply (cols : Nat) (hpos : 0 < cols) (hsmall : cols < 2 ^ 64) : List Cmd :=
  [.upload [] (byteRow cols hpos hsmall) .good, .matmul [] 1 cols 1 .good]

/-- Sixteen blocks of 32 have room for 24 scales, and 32 are written. -/
theorem scales_past_their_buffer :
    Q36gpu.new.afterAll (uploadThenMultiply 512 (by decide) (by decide)) = none := by
  decide

theorem service_safe_narrow :
    ∃ h, Q36gpu.new.afterAll ((uploadThenMultiply 256 (by decide) (by decide)).take 2) = some h ∧
      (sp_q36gpu_free h).isSome = true := by
  refine service_safe (uploadThenMultiply 256 (by decide) (by decide)) ⟨?_, ?_⟩ 2
  · exact fun _ _ => ⟨fun _ => .inl rfl, fun _ => ⟨fun _ => .inl rfl, fun _ _ =>
      ⟨.inl rfl, fun _ => .inl rfl⟩⟩⟩
  · intro h' hafter
    have hcap : some h'.qcap = some (256 + 64) := (congrArg (Option.map Q36gpu.qcap) hafter).symm
    refine ⟨fun _ E _ _ _ _ _ => ?_, fun _ _ => trivial⟩
    rw [Option.some.inj hcap]
    decide

end ShannonPrime.Cuda.Service
