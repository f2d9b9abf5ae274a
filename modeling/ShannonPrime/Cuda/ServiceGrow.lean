import ShannonPrime.Cuda.ServiceSafe

/-!
What the growths of the q36 service leave of its handle. A growth that fails after it has freed
the buffer keeps the pointer and the capacity; where there was no buffer yet, it changes nothing.
-/

namespace ShannonPrime.Cuda.Service

open Exits

/-! ### The allocations -/

/-- A growth that fails has freed nothing. -/
def Kept (grows : Prop) (ok : Bool) (r : Region) : Prop := grows → ok = true ∨ r = .null

theorem cudaFree_null {h : Q36gpu} {b : Buf} (hnull : h.buf b = .null) :
    cudaFree b h = some (.ok ⟨⟩, h) := by
  have hheld : (require fun h => h.buf b ≠ .freed : Work PUnit) h = some (.ok ⟨⟩, h) :=
    require_at (by simp [hnull])
  rw [cudaFree, bind_ok hheld, modify_at, if_pos hnull]

theorem cudaFree_live {h : Q36gpu} {b : Buf} {n : Nat} (hlive : h.buf b = .live n) :
    cudaFree b h = some (.ok ⟨⟩, { h with buf := Function.update h.buf b .freed }) := by
  have hheld : (require fun h => h.buf b ≠ .freed : Work PUnit) h = some (.ok ⟨⟩, h) :=
    require_at (by simp [hlive])
  have hsome : h.buf b ≠ .null := by
    rw [hlive]
    exact Region.noConfusion
  rw [cudaFree, bind_ok hheld, modify_at, if_neg hsome]

theorem cudaMalloc_ok (h : Q36gpu) (b : Buf) {bytes : Nat} (hpos : 0 < bytes) (code : Int) :
    cudaMalloc b bytes true code h =
      some (.ok ⟨⟩, { h with buf := Function.update h.buf b (.live bytes) }) := by
  rw [cudaMalloc, if_pos rfl, if_neg hpos.ne']
  rfl

theorem cudaFree_some {h : Q36gpu} {b : Buf} {n : Nat} (hsized : (h.buf b).Sized n) :
    ∃ r, cudaFree b h = some (.ok ⟨⟩, { h with buf := Function.update h.buf b r }) := by
  cases hregion : h.buf b with
  | null =>
      refine ⟨.null, ?_⟩
      rw [cudaFree_null hregion, ← hregion, Function.update_eq_self]
  | live m => exact ⟨.freed, cudaFree_live hregion⟩
  | freed =>
      rw [hregion] at hsized
      exact hsized.elim

/-- What is freed and allocated again is what has been allocated. -/
theorem cudaFree_setBuf {h : Q36gpu} {b : Buf} {n : Nat} (hsized : (h.buf b).Sized n) (r : Region) :
    ∃ h', cudaFree b h = some (.ok ⟨⟩, h') ∧
      { h' with buf := Function.update h'.buf b r } = { h with buf := Function.update h.buf b r } := by
  cases hregion : h.buf b with
  | null => exact ⟨h, cudaFree_null hregion, rfl⟩
  | live m =>
      refine ⟨_, cudaFree_live hregion, ?_⟩
      simp
  | freed =>
      rw [hregion] at hsized
      exact hsized.elim

theorem cudaFree_then_setBuf {h : Q36gpu} {b : Buf} {n : Nat} (hsized : (h.buf b).Sized n)
    (r : Region) (rest : PUnit → Work PUnit) :
    (cudaFree b >>= fun _ => setBuf b r >>= rest) h =
      rest ⟨⟩ { h with buf := Function.update h.buf b r } := by
  obtain ⟨h', hfree, hsame⟩ := cudaFree_setBuf hsized r
  rw [bind_ok hfree, ← hsame]
  rfl

/-- A buffer that grows is a new one, or there was none and there is none. -/
theorem grow_cases {h : Q36gpu} {b : Buf} {cap : Q36gpu → Nat} {setCap : Q36gpu → Nat → Q36gpu}
    {n m : Nat} {luck : Luck} (code : Int) (hsized : (h.buf b).Sized m)
    (hkept : Kept (cap h < n) (luck.alloc b) (h.buf b)) :
    grow b cap setCap n luck code h =
      if cap h < n then
        if luck.alloc b then
          some (.ok ⟨⟩, setCap { h with buf := Function.update h.buf b (.live (n * 4)) } n)
        else some (.error code, h)
      else some (.ok ⟨⟩, h) := by
  rw [grow, bind_ok (get_at h)]
  split
  case isFalse => rfl
  case isTrue hgrows =>
      cases hok : luck.alloc b with
      | true =>
          obtain ⟨h', hfree, hsame⟩ := cudaFree_setBuf hsized (.live (n * 4))
          rw [bind_ok hfree, bind_ok (cudaMalloc_ok h' b (by omega) code), hsame]
          rfl
      | false =>
          have hnull : h.buf b = .null := by
            rcases hkept hgrows with hok' | hnull
            · rw [hok] at hok'
              cases hok'
            · exact hnull
          rw [bind_ok (cudaFree_null hnull)]
          rfl

/-- Where a growth fails nothing has changed. -/
theorem keeps_grow {h : Q36gpu} {b : Buf} {cap : Q36gpu → Nat} {setCap : Q36gpu → Nat → Q36gpu}
    {n m : Nat} {luck : Luck} (code : Int) (hsized : (h.buf b).Sized m)
    (hkept : Kept (cap h < n) (luck.alloc b) (h.buf b)) :
    Keeps (· = h) (grow b cap setCap n luck code)
      (fun _ s => s = (if cap h < n then
          setCap { h with buf := Function.update h.buf b (.live (n * 4)) } n
        else h) ∧ (cap h < n → luck.alloc b = true)) (· = h) := by
  have hrun : grow b cap setCap n luck code h = _ := grow_cases code hsized hkept
  by_cases hgrows : cap h < n
  · cases hok : luck.alloc b with
    | true =>
        rw [if_pos hgrows, if_pos hok] at hrun
        exact keeps_at hrun ⟨(if_pos hgrows).symm, fun _ => rfl⟩
    | false =>
        rw [if_pos hgrows, hok] at hrun
        exact keeps_at hrun rfl
  · rw [if_neg hgrows] at hrun
    exact keeps_at hrun ⟨(if_neg hgrows).symm, fun hlt => absurd hlt hgrows⟩

def Q36gpu.grownX (h : Q36gpu) (n : Nat) : Q36gpu :=
  if h.xcap < n then
    { h with buf := Function.update h.buf .x (.live (n * 4)), xcap := n }
  else h

def Q36gpu.grownY (h : Q36gpu) (n : Nat) : Q36gpu :=
  if h.ycap < n then
    { h with buf := Function.update h.buf .y (.live (n * 4)), ycap := n }
  else h

/-- `dqx` and `dsx` grown. -/
def Q36gpu.grownQuant (h : Q36gpu) (n : Nat) : Q36gpu :=
  if h.qcap < n + 64 then
    { h with
      buf := Function.update (Function.update h.buf .qx (.live (n + 64))) .sx
        (.live ((n / 32 + 8) * 4))
      qcap := n + 64 }
  else h

section Grown

variable {h : Q36gpu} {n : Nat}

theorem grownX_inv (hinv : h.Inv) : (h.grownX n).Inv := by
  unfold Q36gpu.grownX
  split
  case isFalse => exact hinv
  case isTrue hgrows =>
      refine ⟨?_, hinv.y, hinv.qx, hinv.sx, hinv.moe, hinv.slab, hinv.pin, fun E hE => ?_⟩
      · simp [Region.Sized]
      · obtain ⟨hin, hout, hcodes⟩ := hinv.ents E hE
        exact ⟨hin.trans (Nat.le_of_lt hgrows), hout, hcodes⟩

theorem grownY_inv (hinv : h.Inv) : (h.grownY n).Inv := by
  unfold Q36gpu.grownY
  split
  case isFalse => exact hinv
  case isTrue hgrows =>
      refine ⟨hinv.x, ?_, hinv.qx, hinv.sx, hinv.moe, hinv.slab, hinv.pin, fun E hE => ?_⟩
      · simp [Region.Sized]
      · obtain ⟨hin, hout, hcodes⟩ := hinv.ents E hE
        exact ⟨hin, hout.trans (Nat.le_of_lt hgrows), hcodes⟩

theorem grownQuant_inv (hinv : h.Inv) : (h.grownQuant n).Inv := by
  unfold Q36gpu.grownQuant
  split
  case isFalse => exact hinv
  case isTrue hgrows =>
      refine ⟨hinv.x, hinv.y, ?_, ?_, hinv.moe, hinv.slab, hinv.pin, fun E hE => ?_⟩
      · simp [Region.Sized]
      · simp [Region.Sized, sxBytes]
      · obtain ⟨hin, hout, hcodes⟩ := hinv.ents E hE
        exact ⟨hin, hout, hcodes.trans (Nat.le_of_lt hgrows)⟩

theorem grownX_xcap : (h.grownX n).xcap = max h.xcap n := by
  unfold Q36gpu.grownX
  split
  · dsimp only
    omega
  · omega

theorem grownX_rest : (h.grownX n).qcap = h.qcap ∧ (h.grownX n).moeRoom = h.moeRoom ∧
    (h.grownX n).e = h.e ∧ (h.grownX n).ycap = h.ycap ∧ (h.grownX n).slab_cap = h.slab_cap ∧
    (h.grownX n).pin_cap = h.pin_cap ∧ (h.grownX n).pev_used = h.pev_used ∧
    ∀ b ≠ .x, (h.grownX n).buf b = h.buf b := by
  unfold Q36gpu.grownX
  split
  · exact ⟨rfl, rfl, rfl, rfl, rfl, rfl, rfl, fun b hb => Function.update_of_ne hb _ _⟩
  · exact ⟨rfl, rfl, rfl, rfl, rfl, rfl, rfl, fun b _ => rfl⟩

theorem grownY_rest : (h.grownY n).ycap = max h.ycap n ∧ (h.grownY n).xcap = h.xcap ∧
    (h.grownY n).qcap = h.qcap ∧ ∀ b ≠ .y, (h.grownY n).buf b = h.buf b := by
  unfold Q36gpu.grownY
  split
  · exact ⟨by dsimp only; omega, rfl, rfl, fun b hb => Function.update_of_ne hb _ _⟩
  · exact ⟨by omega, rfl, rfl, fun b _ => rfl⟩

theorem grownQuant_rest : (h.grownQuant n).qcap = max h.qcap (n + 64) ∧
    (h.grownQuant n).xcap = h.xcap ∧ (h.grownQuant n).ycap = h.ycap := by
  unfold Q36gpu.grownQuant
  split
  · exact ⟨by dsimp only; omega, rfl, rfl⟩
  · exact ⟨by omega, rfl, rfl⟩

theorem keeps_growX (hinv : h.Inv) {luck : Luck} (code : Int)
    (hkept : Kept (h.xcap < n) (luck.alloc .x) (h.buf .x)) :
    Keeps (· = h) (growX n luck code)
      (fun _ s => s = h.grownX n ∧ (h.xcap < n → luck.alloc .x = true)) (· = h) :=
  keeps_grow code hinv.x hkept

theorem keeps_growY (hinv : h.Inv) {luck : Luck} (code : Int)
    (hkept : Kept (h.ycap < n) (luck.alloc .y) (h.buf .y)) :
    Keeps (· = h) (growY n luck code)
      (fun _ s => s = h.grownY n ∧ (h.ycap < n → luck.alloc .y = true)) (· = h) :=
  keeps_grow code hinv.y hkept

/-- A failure leaves either nothing changed, or new codes where there were no scales yet. -/
theorem keeps_growQuant (hinv : h.Inv) {luck : Luck}
    (hcodes : h.qcap < n + 64 → luck.alloc .qx = true ∨ h.buf .qx = .null ∧ h.buf .sx = .null)
    (hscales : h.qcap < n + 64 → luck.alloc .qx = true → luck.alloc .sx = true ∨ h.buf .sx = .null) :
    Keeps (· = h) (growQuant n luck) (fun _ s => s = h.grownQuant n) Q36gpu.Inv := by
  apply keeps_get_bind
  split
  case isFalse hfits =>
      exact keeps_pure fun s hs => by rw [hs, Q36gpu.grownQuant, if_neg hfits]
  case isTrue hgrows =>
      have hpos : 0 < n + 64 := by omega
      cases hok : luck.alloc .qx with
      | false =>
          obtain ⟨hqx, hsx⟩ := (hcodes hgrows).resolve_left (by rw [hok]; decide)
          refine keeps_at (show _ = some (.error 1, h) from ?_) hinv
          rw [bind_ok (cudaFree_null hqx), bind_ok (cudaFree_null hsx)]
          rfl
      | true =>
          obtain ⟨r, hfree⟩ := cudaFree_some hinv.qx
          have hsx : (({ h with buf := Function.update h.buf .qx r } : Q36gpu).buf .sx).Sized
              (sxBytes h.qcap) := hinv.sx
          cases hok' : luck.alloc .sx with
          | false =>
              have hnull : ({ h with buf := Function.update h.buf .qx r } : Q36gpu).buf .sx = .null :=
                (hscales hgrows hok).resolve_left (by rw [hok']; decide)
              refine keeps_at (show _ = some (.error 1,
                { h with buf := Function.update h.buf .qx (.live (n + 64)) }) from ?_) ?_
              · rw [bind_ok hfree, bind_ok (cudaFree_null hnull), bind_ok (cudaMalloc_ok _ _ hpos _)]
                dsimp only
                rw [Function.update_idem]
                rfl
              · refine ⟨hinv.x, hinv.y, ?_, hinv.sx, hinv.moe, hinv.slab, hinv.pin, hinv.ents⟩
                exact Nat.le_of_lt hgrows
          | true =>
              obtain ⟨r', hfree'⟩ := cudaFree_some hsx
              refine keeps_at (show _ = some (.ok ⟨⟩, h.grownQuant n) from ?_) rfl
              rw [bind_ok hfree, bind_ok hfree', bind_ok (cudaMalloc_ok _ _ hpos _),
                bind_ok (cudaMalloc_ok _ _ (by omega) _), modify_at, Q36gpu.grownQuant, if_pos hgrows]
              dsimp only
              congr 3
              funext b
              cases b <;> rfl

end Grown

/-! ### The scratch, the slab and the pinned buffers -/

def Q36gpu.withMoe (h : Q36gpu) (FF E : Nat) : Q36gpu :=
  if h.buf .moe = .null then
    { h with
      buf := Function.update h.buf .moe
        (if (FF * 3 + E * 2) * 4 = 0 then .null else .live ((FF * 3 + E * 2) * 4))
      moe_ff := FF
      moe_e := E }
  else h

def Q36gpu.withSlab (h : Q36gpu) (need : Nat) : Q36gpu :=
  if need ≤ h.slab_cap then h
  else { h with buf := Function.update h.buf .slab (.live need), slab_cap := need }

def Q36gpu.pinned (h : Q36gpu) (per_e : Nat) (b : Bool) : Q36gpu :=
  { h with
    buf := Function.update h.buf (.pin b) (.live per_e)
    pev_used := Function.update h.pev_used b true }

def Q36gpu.withPins (h : Q36gpu) (per_e : Nat) : Q36gpu :=
  if h.pin_cap < per_e then { (h.pinned per_e false).pinned per_e true with pin_cap := per_e }
  else h

section Ensured

variable {h : Q36gpu} {luck : Luck}

theorem withMoe_inv (hinv : h.Inv) (FF E : Nat) : (h.withMoe FF E).Inv := by
  unfold Q36gpu.withMoe
  split
  case isFalse => exact hinv
  case isTrue =>
      refine ⟨hinv.x, hinv.y, hinv.qx, hinv.sx, ?_, hinv.slab, hinv.pin, hinv.ents⟩
      dsimp only
      rw [Function.update_self]
      split
      case isTrue hzero => exact hzero
      case isFalse => exact Nat.le_refl _

theorem withMoe_rest (FF E : Nat) : (h.withMoe FF E).xcap = h.xcap ∧
    (h.withMoe FF E).qcap = h.qcap ∧ (h.withMoe FF E).slab_cap = h.slab_cap ∧
    (h.withMoe FF E).pin_cap = h.pin_cap ∧ (h.withMoe FF E).pev_used = h.pev_used ∧
    (h.withMoe FF E).moeRoom = (if h.buf .moe = .null then FF * 3 + E * 2 else h.moeRoom) ∧
    ∀ b ≠ .moe, (h.withMoe FF E).buf b = h.buf b := by
  unfold Q36gpu.withMoe
  split
  · exact ⟨rfl, rfl, rfl, rfl, rfl, rfl, fun b hb => Function.update_of_ne hb _ _⟩
  · exact ⟨rfl, rfl, rfl, rfl, rfl, rfl, fun b _ => rfl⟩

theorem keeps_ensureMoe (FF E : Nat) (code : Int) :
    Keeps (· = h) (ensureMoe FF E luck code)
      (fun _ s => s = h.withMoe FF E ∧ (h.buf .moe = .null → luck.alloc .moe = true)) (· = h) := by
  apply keeps_get_bind
  split
  case isFalse hheld =>
      exact keeps_pure fun s hs => ⟨hs.trans (if_neg hheld).symm, fun hnull => absurd hnull hheld⟩
  case isTrue hnull =>
      cases hok : luck.alloc .moe with
      | false => exact keeps_at (show _ = some (.error code, h) from rfl) rfl
      | true =>
          refine keeps_at (show _ = some (.ok ⟨⟩, h.withMoe FF E) from ?_) ⟨rfl, fun _ => rfl⟩
          rw [Q36gpu.withMoe, if_pos hnull]
          rfl

theorem withSlab_inv (hinv : h.Inv) (need : Nat) : (h.withSlab need).Inv := by
  unfold Q36gpu.withSlab
  split
  case isTrue => exact hinv
  case isFalse =>
      refine ⟨hinv.x, hinv.y, hinv.qx, hinv.sx, hinv.moe, ?_, hinv.pin, hinv.ents⟩
      simp [Region.Sized]

theorem withSlab_rest (need : Nat) : (h.withSlab need).xcap = h.xcap ∧
    (h.withSlab need).qcap = h.qcap ∧ (h.withSlab need).moeRoom = h.moeRoom ∧
    (h.withSlab need).slab_cap = max h.slab_cap need ∧
    (h.withSlab need).pin_cap = h.pin_cap ∧ (h.withSlab need).pev_used = h.pev_used := by
  unfold Q36gpu.withSlab
  split
  · exact ⟨rfl, rfl, rfl, by omega, rfl, rfl⟩
  · exact ⟨rfl, rfl, rfl, by dsimp only; omega, rfl, rfl⟩

/-- A slab that cannot be had leaves none. -/
theorem keeps_slab (hinv : h.Inv) (need : Nat) :
    Keeps (· = h) (q36_slab_ensure need luck)
      (fun _ s => s = h.withSlab need ∧ (h.slab_cap < need → luck.alloc .slab = true))
      Q36gpu.Inv := by
  apply keeps_get_bind
  split
  case isTrue hfits =>
      exact keeps_pure fun s hs =>
        ⟨hs.trans (if_pos hfits).symm, fun hlt => absurd hfits (Nat.not_le.mpr hlt)⟩
  case isFalse hgrows =>
      cases hok : luck.alloc .slab with
      | false =>
          refine keeps_at (cudaFree_then_setBuf hinv.slab .null _) ?_
          exact ⟨hinv.x, hinv.y, hinv.qx, hinv.sx, hinv.moe, rfl, hinv.pin, hinv.ents⟩
      | true =>
          refine keeps_at (show _ = some (.ok ⟨⟩, h.withSlab need) from ?_) ⟨rfl, fun _ => rfl⟩
          rw [Q36gpu.withSlab, if_neg hgrows]
          exact cudaFree_then_setBuf hinv.slab (.live need) _

theorem pinned_inv (hinv : h.Inv) {per_e : Nat} (hcap : h.pin_cap ≤ per_e) (b : Bool) :
    (h.pinned per_e b).Inv := by
  refine ⟨hinv.x, hinv.y, hinv.qx, hinv.sx, hinv.moe, hinv.slab, fun b' => ?_, hinv.ents⟩
  by_cases hsame : b' = b
  · rw [hsame]
    simpa [Q36gpu.pinned, Region.Sized] using hcap
  · simpa [Q36gpu.pinned, hsame] using hinv.pin b'

/-- A pinned buffer that cannot be had leaves none, and no capacity. -/
theorem keeps_pinBuffer (hinv : h.Inv) {per_e : Nat} (b : Bool) :
    Keeps (· = h) (pinBuffer per_e luck b)
      (fun _ s => s = { h with buf := Function.update h.buf (.pin b) (.live per_e) } ∧
        luck.alloc (.pin b) = true) Q36gpu.Inv := by
  rw [pinBuffer]
  cases hok : luck.alloc (.pin b) with
  | true =>
      obtain ⟨h', hfree, hsame⟩ := cudaFree_setBuf (hinv.pin b) (.live per_e)
      refine keeps_at (show _ = some (.ok ⟨⟩, _) from ?_) ⟨rfl, rfl⟩
      rw [bind_ok hfree, ← hsame]
      rfl
  | false =>
      refine keeps_at (cudaFree_then_setBuf (hinv.pin b) .null _) ?_
      refine ⟨hinv.x, hinv.y, hinv.qx, hinv.sx, hinv.moe, hinv.slab, fun b' => ?_, hinv.ents⟩
      by_cases hb : b' = b
      · simp [hb, Region.Sized]
      · simpa [hb] using (hinv.pin b').mono (Nat.zero_le _)

theorem keeps_pinEvent (b : Bool) :
    Keeps (· = h) (pinEvent luck b)
      (fun _ s => s = { h with pev_used := Function.update h.pev_used b true } ∧
        (h.pev_used b = true ∨ luck.event b = true)) (· = h) := by
  apply keeps_get_bind
  split
  case isTrue hused =>
      refine keeps_pure fun s hs => ⟨?_, .inl hused⟩
      rw [hs, ← hused, Function.update_eq_self]
  case isFalse hnew =>
      cases hevent : luck.event b with
      | true => exact keeps_at (show _ = some (.ok ⟨⟩, _) from rfl) ⟨rfl, .inr rfl⟩
      | false => exact keeps_at (show _ = some (.error (-1), h) from rfl) rfl

theorem keeps_pinOne (hinv : h.Inv) {per_e : Nat} (hcap : h.pin_cap ≤ per_e) (b : Bool) :
    Keeps (· = h) (pinBuffer per_e luck b >>= fun _ => pinEvent luck b)
      (fun _ s => s = h.pinned per_e b ∧ luck.alloc (.pin b) = true ∧
        (h.pev_used b = true ∨ luck.event b = true)) Q36gpu.Inv := by
  have hinv' : ({ h with buf := Function.update h.buf (.pin b) (.live per_e) } : Q36gpu).Inv :=
    ⟨hinv.x, hinv.y, hinv.qx, hinv.sx, hinv.moe, hinv.slab, (pinned_inv hinv hcap b).pin,
      hinv.ents⟩
  refine keeps_bind (keeps_pinBuffer hinv b) fun _ => keeps_of_state ?_
  rintro _ ⟨rfl, hok⟩
  refine (keeps_pinEvent b).weaken (fun _ hs => hs) ?_ fun _ hs => hs ▸ hinv'
  rintro _ s ⟨rfl, hevent⟩
  exact ⟨rfl, hok, hevent⟩

theorem withPins_inv (hinv : h.Inv) (per_e : Nat) : (h.withPins per_e).Inv := by
  unfold Q36gpu.withPins
  split
  case isFalse => exact hinv
  case isTrue hgrows =>
      have hfirst := pinned_inv hinv (Nat.le_of_lt hgrows) false
      have hboth := pinned_inv hfirst (Nat.le_of_lt hgrows) true
      refine ⟨hboth.x, hboth.y, hboth.qx, hboth.sx, hboth.moe, hboth.slab, fun b => ?_, hboth.ents⟩
      cases b <;> exact Nat.le_refl per_e

theorem withPins_rest (per_e : Nat) : (h.withPins per_e).xcap = h.xcap ∧
    (h.withPins per_e).qcap = h.qcap ∧ (h.withPins per_e).moeRoom = h.moeRoom ∧
    (h.withPins per_e).slab_cap = h.slab_cap ∧
    (h.withPins per_e).pin_cap = max h.pin_cap per_e := by
  unfold Q36gpu.withPins
  split
  · exact ⟨rfl, rfl, rfl, rfl, by dsimp only; omega⟩
  · exact ⟨rfl, rfl, rfl, rfl, by omega⟩

theorem keeps_pinEnsure (hinv : h.Inv) (per_e : Nat) :
    Keeps (· = h) (pinEnsure per_e luck)
      (fun _ s => s = h.withPins per_e ∧ (h.pin_cap < per_e → ∀ b,
        luck.alloc (.pin b) = true ∧ (h.pev_used b = true ∨ luck.event b = true)))
      Q36gpu.Inv := by
  apply keeps_get_bind
  split
  case isFalse hfits =>
      exact keeps_pure fun s hs => ⟨hs.trans (if_neg hfits).symm, fun hlt => absurd hlt hfits⟩
  case isTrue hgrows =>
      have hcap := Nat.le_of_lt hgrows
      have hfirst := pinned_inv hinv hcap false
      show Keeps _ (((pinBuffer per_e luck false >>= fun _ => pinEvent luck false) >>= fun _ =>
        (pinBuffer per_e luck true >>= fun _ => pinEvent luck true) >>= fun _ =>
          (pure ⟨⟩ : Work PUnit)) >>= fun _ => modify fun h => { h with pin_cap := per_e }) _ _
      rw [bind_group]
      refine keeps_bind (keeps_pinOne hinv hcap false) fun _ => keeps_of_state ?_
      rintro _ ⟨rfl, hok, hevent⟩
      rw [bind_group]
      refine keeps_bind (keeps_pinOne hfirst hcap true) fun _ => keeps_of_state ?_
      rintro _ ⟨rfl, hok', hevent'⟩
      refine keeps_at (show _ = some (.ok ⟨⟩, h.withPins per_e) from ?_) ⟨rfl, fun _ b => ?_⟩
      · rw [Q36gpu.withPins, if_pos hgrows]
        rfl
      · cases b with
        | false => exact ⟨hok, hevent⟩
        | true => exact ⟨hok', by simpa [Q36gpu.pinned] using hevent'⟩

end Ensured

end ShannonPrime.Cuda.Service
