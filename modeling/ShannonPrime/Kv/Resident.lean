import ShannonPrime.Kv.Anchor
import ShannonPrime.Kv.Window

/-!
The cache as a log of rows, one for each position. `Resident` says which of them a
session still holds: full caches every one, a ring the newest of each slot, and the
journal the ones the ring has overwritten. The log of a token list is what ticks from
an empty cache store, so a session that holds it is as good as one just refilled.
-/

namespace ShannonPrime.Kv

variable {T X R : Type*}

/-- `s` holds the log `ρ`. From `floor` on the journal does too: its entries are those
of the last position, or of all while the journal has not slid. -/
structure Resident (g : Geometry) (ρ : Nat → Nat → R) (floor : Nat) (s : Session T X R) :
    Prop where
  base : 0 < g.ringW → s.commitPos ≤ s.dpos
  rows : ∀ l, g.isOwner l → ∀ p < s.dpos,
    (g.isRinged l → s.dpos ≤ p + g.ringW ∧ floor ≤ p + g.ringW) →
    s.kv l (g.slot l p) = ρ l p
  entries : ∀ l, g.isOwner l → g.isRinged l → ∀ p < s.dpos, g.ringW ≤ p → floor ≤ p →
    (s.commitPos = 0 ∨ p + 1 = s.dpos) → s.jkv l (p - s.commitPos) = ρ l (p - g.ringW)

/-- The newest position with the slot of `p`, unless that slot is the next to be written. -/
theorem Geometry.newest (g : Geometry) {l p dpos : Nat} (hp : p < dpos)
    (hlive : g.slot l p ≠ g.slot l dpos) :
    ∃ p' < dpos, g.slot l p' = g.slot l p ∧ (g.isRinged l → dpos < p' + g.ringW) := by
  cases hringed : g.isRinged l with
  | false => exact ⟨p, hp, rfl, by simp⟩
  | true =>
      simp only [Geometry.slot, hringed, if_true] at hlive ⊢
      have hmod := Nat.mod_lt (dpos - 1 - p) (g.ringW_pos hringed)
      have hdiv := Nat.div_add_mod (dpos - 1 - p) g.ringW
      have hsame : (dpos - 1 - (dpos - 1 - p) % g.ringW) % g.ringW = p % g.ringW := by
        have hsum : dpos - 1 - (dpos - 1 - p) % g.ringW =
            p + g.ringW * ((dpos - 1 - p) / g.ringW) := by omega
        rw [hsum, Nat.add_mul_mod_self_left]
      refine ⟨dpos - 1 - (dpos - 1 - p) % g.ringW, by omega, hsame, fun _ => ?_⟩
      by_contra hfar
      have hone : dpos - 1 - (dpos - 1 - p) % g.ringW + g.ringW = dpos := by omega
      rw [← hsame, ← Nat.add_mod_right, hone] at hlive
      exact hlive rfl

/-- The same rows, up to the slot the next step writes before it reads. -/
def Session.SameCache (g : Geometry) (s t : Session T X R) : Prop :=
  t.dpos = s.dpos ∧ ∀ l, g.isOwner l → ∀ p < s.dpos, g.slot l p ≠ g.slot l s.dpos →
    t.kv l (g.slot l p) = s.kv l (g.slot l p)

namespace Resident

variable {g : Geometry} {ρ ρ' : Nat → Nat → R} {floor : Nat} {s t : Session T X R}

theorem cold (hdpos : s.dpos = 0) (hcommit : 0 < g.ringW → s.commitPos = 0) :
    Resident g ρ floor s where
  base hw := by rw [hdpos, hcommit hw]
  rows l _ p hp _ := by omega
  entries l _ _ p hp _ _ _ := by omega

theorem raise (h : Resident g ρ floor s) {floor' : Nat} (hle : floor ≤ floor') :
    Resident g ρ floor' s where
  base := h.base
  rows l howner p hp hring := h.rows l howner p hp fun hringed =>
    ⟨(hring hringed).1, Nat.le_trans hle (hring hringed).2⟩
  entries l howner hringed p hp hw hfloor hspan :=
    h.entries l howner hringed p hp hw (Nat.le_trans hle hfloor) hspan

theorem congr (h : Resident g ρ floor s)
    (hρ : ∀ l, g.isOwner l → ∀ p < s.dpos, ρ' l p = ρ l p) : Resident g ρ' floor s where
  base := h.base
  rows l howner p hp hring := by rw [hρ l howner p hp]; exact h.rows l howner p hp hring
  entries l howner hringed p hp hw hfloor hspan := by
    rw [hρ l howner _ (by omega)]
    exact h.entries l howner hringed p hp hw hfloor hspan

/-- Two slots of a ringed layer less than a ring apart differ, two of a full one always. -/
theorem slot_ne_live {l p : Nat} (hp : p < s.dpos)
    (hring : g.isRinged l → s.dpos < p + g.ringW) : g.slot l p ≠ g.slot l s.dpos := by
  cases hringed : g.isRinged l with
  | false =>
      simp only [Geometry.slot, hringed, Bool.false_eq_true, if_false]
      omega
  | true =>
      simp only [Geometry.slot, hringed, if_true]
      exact ring_slot_ne hp (hring hringed)

/-- One more position stored, with the journal where it was or slid. -/
theorem store (h : Resident g ρ floor s) (t : Session T X R) (row : Nat → Option R) (base : Nat)
    (hbase : base = s.commitPos ∨ (base ≠ 0 ∧ base ≤ s.dpos))
    (hcommit : t.commitPos = base) (hdpos : t.dpos = s.dpos + 1)
    (hrow : ∀ l, g.isOwner l → row l = some (ρ l s.dpos))
    (hkv : ∀ l q, t.kv l q =
      if q = g.slot l s.dpos then (row l).getD (s.kv l q) else s.kv l q)
    (hjkv : ∀ l j, t.jkv l j =
      if g.isRinged l ∧ (row l).isSome ∧ j = s.dpos - base then s.kv l (g.slot l s.dpos)
      else s.jkv l j) :
    Resident g ρ floor t := by
  have hbelow : 0 < g.ringW → base ≤ s.dpos := by
    intro hw
    have := h.base hw
    omega
  constructor
  · intro hw
    have := hbelow hw
    omega
  · intro l howner p hp hring
    rw [hdpos] at hp hring
    rw [hkv]
    by_cases hlive : p = s.dpos
    · simp [hlive, hrow l howner]
    · have hlt : p < s.dpos := by omega
      rw [if_neg (slot_ne_live hlt fun hringed => by have := (hring hringed).1; omega)]
      exact h.rows l howner p hlt fun hringed =>
        ⟨by have := (hring hringed).1; omega, (hring hringed).2⟩
  · intro l howner hringed p hp hw hfloor hspan
    have hwpos := g.ringW_pos hringed
    have hle := hbelow hwpos
    rw [hdpos] at hp hspan
    rw [hcommit] at hspan ⊢
    rw [hjkv]
    by_cases hlive : p = s.dpos
    · -- the entry of the new position is the row it overwrote, one ring below
      subst hlive
      rw [if_pos ⟨hringed, by simp [hrow l howner], rfl⟩]
      have hold := h.rows l howner (s.dpos - g.ringW) (by omega) fun _ => ⟨by omega, by omega⟩
      rw [← hold]
      congr 1
      simp only [Geometry.slot, hringed, if_true]
      conv_lhs => rw [show s.dpos = s.dpos - g.ringW + g.ringW by omega, Nat.add_mod_right]
    · have hzero : base = 0 := by omega
      have hcommit' : s.commitPos = 0 := by omega
      rw [if_neg (by rintro ⟨_, _, heq⟩; omega)]
      have hold := h.entries l howner hringed p (by omega) hw hfloor (Or.inl hcommit')
      rw [hcommit'] at hold
      rw [hzero]
      exact hold

/-- Positions taken back. Once the journal has slid at most one can be, and what the
journal knows below is then lost. -/
theorem undo (h : Resident g ρ floor s) (d floor' : Nat) (hd : d ≤ s.dpos)
    (hspan : 0 < g.ringW → s.commitPos ≤ s.dpos - d ∧ floor ≤ floor' ∧
      (s.commitPos = 0 ∨ (d ≤ 1 ∧ s.dpos - d ≤ floor'))) :
    Resident g ρ floor' (s.undo g d) := by
  have hdpos : (s.undo g d).dpos = s.dpos - d := rfl
  constructor
  · intro hw
    exact (hspan hw).1
  · intro l howner p hp hring
    rw [hdpos] at hp hring
    cases hringed : g.isRinged l with
    | false =>
        rw [undo_kv_plain hringed]
        refine h.rows l howner p (by omega) ?_
        intro htrue
        rw [hringed] at htrue
        exact absurd htrue (by decide)
    | true =>
        obtain ⟨hcommit, hfloor, hone⟩ := hspan (g.ringW_pos hringed)
        obtain ⟨hnear, hknown⟩ := hring hringed
        simp only [Geometry.slot, hringed, if_true]
        rw [show p % g.ringW = (p + g.ringW) % g.ringW by rw [Nat.add_mod_right]]
        rcases Nat.lt_or_ge (p + g.ringW) s.dpos with hlt | hge
        · rw [undo_kv_entry howner hringed d hd _ hnear hlt (by omega)]
          have hentry := h.entries l howner hringed (p + g.ringW) hlt (by omega) (by omega)
            (hone.imp id fun _ => by omega)
          rw [hentry, Nat.add_sub_cancel]
        · rw [undo_kv_frame howner hringed d hd _ hge (by omega), Nat.add_mod_right]
          have hrow := h.rows l howner p (by omega) fun _ => ⟨hge, by omega⟩
          simpa [Geometry.slot, hringed] using hrow
  · intro l howner hringed p hp hw hfloor hlast
    obtain ⟨_, hle, hone⟩ := hspan (g.ringW_pos hringed)
    rw [hdpos] at hp hlast
    change s.jkv l (p - s.commitPos) = _
    rcases hone with hzero | ⟨_, hlost⟩
    · exact h.entries l howner hringed p (by omega) hw (by omega) (Or.inl hzero)
    · omega

/-- Two sessions that hold one log are the same cache. -/
theorem sameCache {floor' : Nat} (h : Resident g ρ floor s) (h' : Resident g ρ floor' t)
    (hdpos : t.dpos = s.dpos) (hfloor : floor ≤ s.dpos + 1) (hfloor' : floor' ≤ s.dpos + 1) :
    s.SameCache g t := by
  refine ⟨hdpos, ?_⟩
  intro l howner p hp hlive
  obtain ⟨p', hp', hslot, hnear⟩ := g.newest hp hlive
  rw [← hslot, h.rows l howner p' hp' fun hringed => ⟨by have := hnear hringed; omega,
      by have := hnear hringed; omega⟩,
    h'.rows l howner p' (by omega) fun hringed => ⟨by have := hnear hringed; omega,
      by have := hnear hringed; omega⟩]

end Resident

section Minted

variable (K : Kernels T X R) (g : Geometry)

/-- One token fed and stepped, without the head. -/
def mint (s : Session T X R) (tok : T) : Session T X R :=
  (tick K g false none (s.feed [tok])).session

def minted (s : Session T X R) (toks : List T) : Session T X R := toks.foldl (mint K g) s

/-- The row of position `p` when `toks` are fed to `s`. -/
def mintedRow (s : Session T X R) (toks : List T) (l p : Nat) : R :=
  (minted K g s (toks.take (p + 1))).kv l (g.slot l p)

/-- An empty cache in the mode `on` with nothing armed. -/
def Session.blank (on : Bool) (s : Session T X R) : Session T X R :=
  { s.reset with inj := none, bxOn := on }

/-- The session with the byte-exact mode switched. -/
def Session.inMode (on : Bool) (s : Session T X R) : Session T X R := { s with bxOn := on }

/-- A reset followed by a prefill of `toks`. -/
def Session.refilled (toks : List T) (s : Session T X R) : Session T X R :=
  ((Call.prefill toks noFaults).exec K g (Call.reset.exec K g s).session).session

/-- `s` holds the tokens `toks`, as a session that was empty and in the mode `on`
would after ticking them, and is itself in that mode with nothing armed. `b` only
supplies memory that is never read. -/
structure Tracks (b : Session T X R) (on : Bool) (toks : List T) (floor : Nat)
    (s : Session T X R) : Prop where
  dpos : s.dpos = toks.length
  log : Resident g (mintedRow K g (b.blank on) toks) floor s
  mode : s.bxOn = on
  idle : s.inj = none
  floor_le : floor ≤ s.dpos + 1

variable {K} {g}

theorem mintedRow_append (b : Session T X R) (toks rest : List T) (l p : Nat)
    (hp : p < toks.length) : mintedRow K g b (toks ++ rest) l p = mintedRow K g b toks l p := by
  unfold mintedRow
  rw [List.take_append_of_le_length (by omega)]

/-- A layer loop that does not fail is the one of a healthy device. -/
theorem layerLoop_ok (f : Option Fault) (ls : List Nat) (s : Session T X R) (x : X)
    (hok : (layerLoop K g f ls s x).err = none) :
    layerLoop K g f ls s x = layerLoop K g none ls s x := by
  induction ls generalizing s x with
  | nil => rfl
  | cons l rest ih =>
      have hnone : Fault.atLayer l none = none := rfl
      cases hfault : Fault.atLayer l f with
      | some text => simp [layerLoop, hfault] at hok
      | none =>
          simp only [layerLoop, hfault, hnone] at hok ⊢
          split
          case isTrue hfull => simp [hfull] at hok
          case isFalse hfree =>
            simp only [hfree, if_false] at hok
            rw [ih _ _ hok]

/-- The head and the faults of a step that succeeds do not show in the cache. -/
theorem tick_kv_ok (head : Bool) (f : Option Fault) (s : Session T X R)
    (hok : (g4KvStep K g head f s).err = none) :
    (tick K g head f s).session.kv = (tick K g false none s).session.kv := by
  have hplain := g4KvStep_err K g false none s (fun _ _ => rfl)
  have hstep : (g4KvStep K g head f s).session.kv = (g4KvStep K g false none s).session.kv := by
    have hloop := layerLoop_ok (K := K) (g := g) f (List.range g.nl) (s.disarm.slide g)
      (K.ple s.bxOn (s.dseq s.dpos) (s.inj.getD (K.embed (s.dseq s.dpos))))
    simp only [g4KvStep] at hok hplain ⊢
    cases herr : (layerLoop K g f (List.range g.nl) (s.disarm.slide g) _).err with
    | some text => simp [herr] at hok
    | none =>
        have hsame := hloop herr
        rw [hsame] at herr hok ⊢
        simp only [herr, Bool.false_eq_true, if_false] at hok ⊢
        cases head with
        | false => rfl
        | true =>
            cases hf : Fault.atLayer g.nl f with
            | some text => simp [hf] at hok
            | none => rfl
  simp only [tick, hok, hplain, Session.advance]
  exact hstep

/-- What a peek leaves of the cache, whether it fails or not. -/
theorem peek_cache (f : Option Fault) (s : Session T X R) :
    (peek K g f s).session.dpos = s.dpos ∧ (peek K g f s).session.bxOn = s.bxOn ∧
      (peek K g f s).session.inj = none ∧
      ∃ row : Nat → Option R, ∀ l q, (peek K g f s).session.kv l q =
        if q = g.slot l s.dpos then (row l).getD (s.kv l q) else s.kv l q := by
  obtain ⟨row, dseq, hsession, _⟩ := g4KvStep_effect K g false f s
  have hinj := g4KvStep_inj K g false f s
  have hstep : (g4KvStep K g false f s).session.dpos = s.dpos ∧
      (g4KvStep K g false f s).session.bxOn = s.bxOn ∧
      ∀ l q, (g4KvStep K g false f s).session.kv l q =
        if q = g.slot l s.dpos then (row l).getD (s.kv l q) else s.kv l q := by
    rw [hsession]
    refine ⟨by simp [Session.withSeq], by simp [Session.withSeq], ?_⟩
    intro l q
    change ((s.disarm.slide g).record g row).kv l q = _
    rw [record_kv, slide_dpos, disarm_dpos, slide_kv, disarm_kv]
  obtain ⟨hdpos, hmode, hkv⟩ := hstep
  unfold peek
  cases herr : (g4KvStep K g false f s).err with
  | some text =>
      simp only [herr]
      exact ⟨hdpos, hmode, hinj, row, hkv⟩
  | none =>
      simp only [herr]
      exact ⟨hdpos, hmode, hinj, row, hkv⟩

/-- The links of the slots a step at `dpos` reads and does not write. -/
def liveLinks (g : Geometry) (dpos : Nat) : Links := fun l q q' =>
  q = q' ∧ ∃ p < dpos, (g.isRinged l → dpos < p + g.ringW) ∧ q = g.slot l p

theorem liveLinks_fit (dpos : Nat) : (liveLinks g dpos).Fit g g dpos := by
  constructor
  · rintro l q q' ⟨rfl, _⟩
    rfl
  · intro l hl p hp hne
    by_cases hlive : g.slot l p = g.slot l dpos
    · exact Or.inr ⟨hlive, hlive⟩
    · have hclass : g.isRinged (g.source l) = g.isRinged l := by
        simp only [Geometry.isRinged, (g.source_spec hl).2.2]
      have hle := (g.mem_window.mp hp).1
      obtain ⟨p', hp', hslot, hnear⟩ := g.newest (p := p) (by omega) hlive
      refine Or.inl ⟨rfl, p', hp', by rw [hclass]; exact hnear, ?_⟩
      rw [g.slot_source hl, hslot]

theorem Resident.linked {ρ : Nat → Nat → R} {floor floor' : Nat} {s t : Session T X R}
    (h : Resident g ρ floor s) (h' : Resident g ρ floor' t) (hdpos : t.dpos = s.dpos)
    (hbx : t.bxOn = s.bxOn) (hfloor : floor ≤ s.dpos + 1) (hfloor' : floor' ≤ s.dpos + 1) :
    Linked g (liveLinks g s.dpos) s t := by
  refine ⟨hdpos, hbx, ?_⟩
  rintro l howner q _ ⟨rfl, p, hp, hnear, rfl⟩
  rw [h.rows l howner p hp fun hringed => ⟨by have := hnear hringed; omega,
      by have := hnear hringed; omega⟩,
    h'.rows l howner p (by omega) fun hringed => ⟨by have := hnear hringed; omega,
      by have := hnear hringed; omega⟩]

/-- Two sessions that hold one log store the same row at the next position. -/
theorem Resident.tick_row {ρ : Nat → Nat → R} {floor floor' : Nat} {s t : Session T X R}
    (h : Resident g ρ floor s) (h' : Resident g ρ floor' t) (hdpos : t.dpos = s.dpos)
    (hbx : t.bxOn = s.bxOn) (hfloor : floor ≤ s.dpos + 1) (hfloor' : floor' ≤ s.dpos + 1)
    (htok : t.dseq s.dpos = s.dseq s.dpos) (hinj : t.inj = s.inj) (head : Bool)
    (f : Option Fault) (hok : (g4KvStep K g head f s).err = none) (l : Nat)
    (howner : g.isOwner l = true) :
    (tick K g head f s).session.kv l (g.slot l s.dpos) =
      (tick K g false none t).session.kv l (g.slot l s.dpos) := by
  rw [tick_kv_ok head f s hok]
  obtain ⟨_, _, _, _, hdone⟩ := tick_linked K (SameLayers.refl g) false none s t
    (liveLinks_fit s.dpos) (h.linked h' hdpos hbx hfloor hfloor') htok hinj
  obtain ⟨hstored, _⟩ := hdone (g4KvStep_err K g false none s fun _ _ => rfl)
  exact hstored.rows l howner _ _ (Or.inr ⟨Geometry.lt_nl_of_isOwner howner, rfl, rfl⟩)

/-- A step that does not fail at a layer, as far as the cache and the counters go. -/
theorem Resident.tick {ρ : Nat → Nat → R} {floor : Nat} {s : Session T X R}
    (h : Resident g ρ floor s) (head : Bool) (f : Option Fault)
    (hok : (g4KvStep K g head f s).err = none)
    (hrow : ∀ l, g.isOwner l →
      (tick K g head f s).session.kv l (g.slot l s.dpos) = ρ l s.dpos) :
    Resident g ρ floor (tick K g head f s).session ∧
      (tick K g head f s).session.dpos = s.dpos + 1 ∧
      (tick K g head f s).session.inj = none ∧
      (tick K g head f s).session.bxOn = s.bxOn := by
  obtain ⟨row, _, hall, hcommit, hinj, hkv, hjkv⟩ := tick_journal K g head f s
  obtain ⟨row', dseq, hsession, _⟩ := g4KvStep_effect K g head f s
  have hdpos : (Kv.tick K g head f s).session.dpos = s.dpos + 1 := by
    simp only [Kv.tick, hok, Session.advance, hsession]
    simp [Session.withSeq]
  have hbx : (Kv.tick K g head f s).session.bxOn = s.bxOn := by
    simp only [Kv.tick, hok, Session.advance, hsession]
    simp [Session.withSeq]
  refine ⟨h.store _ row _ ?_ hcommit hdpos ?_ hkv hjkv, hdpos, hinj, hbx⟩
  · rw [slide_commitPos]
    split
    case isFalse => exact Or.inl rfl
    case isTrue hslides =>
      obtain ⟨_, hfull⟩ := hslides
      have := g.jmax_pos
      exact Or.inr (by omega)
  · intro l howner
    obtain ⟨r, hr⟩ := Option.isSome_iff_exists.mp (hall hok l howner)
    have hslot := hrow l howner
    rw [hkv, if_pos rfl, hr] at hslot
    rw [hr]
    exact congrArg some hslot

namespace Tracks

variable {b s : Session T X R} {on : Bool} {toks : List T} {floor : Nat}

theorem cold (hdpos : s.dpos = 0) (hcommit : 0 < g.ringW → s.commitPos = 0)
    (hmode : s.bxOn = on) (hidle : s.inj = none) : Tracks K g b on [] 0 s :=
  ⟨hdpos, .cold hdpos hcommit, hmode, hidle, Nat.zero_le _⟩

theorem feed (h : Tracks K g b on toks floor s) (new : List T) :
    Tracks K g b on toks floor (s.feed new) :=
  ⟨h.dpos, ⟨h.log.base, h.log.rows, h.log.entries⟩, h.mode, h.idle, h.floor_le⟩

/-- The log of more tokens holds the log of fewer. -/
theorem log_append (h : Tracks K g b on toks floor s) (rest : List T) :
    Resident g (mintedRow K g (b.blank on) (toks ++ rest)) floor s := by
  refine h.log.congr ?_
  intro l _ p hp
  exact mintedRow_append _ _ _ _ _ (by rw [← h.dpos]; exact hp)

/-- Ticks from an empty cache hold what they were fed. -/
theorem minted (b : Session T X R) (on : Bool) (toks : List T) :
    Tracks K g b on toks 0 (Kv.minted K g (b.blank on) toks) := by
  induction toks using List.reverseRecOn with
  | nil => exact .cold rfl (fun _ => rfl) rfl rfl
  | append_singleton toks tok ih =>
      have hlast : Kv.minted K g (b.blank on) (toks ++ [tok]) =
          (Kv.tick K g false none ((Kv.minted K g (b.blank on) toks).feed [tok])).session := by
        simp [Kv.minted, mint]
      obtain ⟨hlog, hdpos, hidle, hmode⟩ := ((ih.feed [tok]).log_append [tok]).tick (K := K)
        false none (g4KvStep_err K g false none _ fun _ _ => rfl) (by
          intro l _
          change _ = mintedRow K g (b.blank on) (toks ++ [tok]) l (Kv.minted K g _ toks).dpos
          rw [mintedRow, ih.dpos, List.take_of_length_le (by simp), hlast]
          simp [Session.feed, ih.dpos])
      rw [hlast]
      refine ⟨?_, hlog, hmode.trans (ih.feed [tok]).mode, hidle, Nat.zero_le _⟩
      rw [hdpos, (ih.feed [tok]).dpos, List.length_append, List.length_singleton]

/-- One more token stepped, whatever the head does. -/
theorem tick (h : Tracks K g b on toks floor s) (head : Bool) (f : Option Fault)
    (hok : (g4KvStep K g head f s).err = none) :
    Tracks K g b on (toks ++ [s.dseq s.dpos]) floor (Kv.tick K g head f s).session := by
  have hmint := Tracks.minted (K := K) (g := g) b on toks
  have hat : (Kv.minted K g (b.blank on) toks).dpos = s.dpos := by rw [hmint.dpos, h.dpos]
  obtain ⟨hlog, hdpos, hidle, hmode⟩ := (h.log_append [s.dseq s.dpos]).tick (K := K) head f hok (by
    intro l howner
    rw [h.log.tick_row (hmint.feed [s.dseq s.dpos]).log hat
      (by rw [h.mode]; exact hmint.mode) h.floor_le (Nat.zero_le _)
      (by simp [Session.feed, hat]) (by rw [h.idle]; exact hmint.idle) head f hok l howner]
    rw [mintedRow, List.take_of_length_le (by simp [h.dpos])]
    simp [Kv.minted, mint])
  refine ⟨?_, hlog, hmode.trans h.mode, hidle, ?_⟩
  · rw [hdpos, h.dpos, List.length_append, List.length_singleton]
  · have := h.floor_le
    omega

/-- The ticks of a prefill, each on the token fed for it. -/
theorem ticks (fs : Script) (n : Nat) (new : List T) (k : Nat) (hk : k + new.length = n)
    (h : Tracks K g b on toks floor s)
    (hseq : ∀ i (hi : i < new.length), s.dseq (s.dpos + i) = new[i])
    (hok : (runOps K g ((List.range' k new.length).map fun i => .tick (i + 1 == n) (fs i)) s).err
      = none) :
    Tracks K g b on (toks ++ new) floor
      (runOps K g ((List.range' k new.length).map fun i => .tick (i + 1 == n) (fs i)) s).session := by
  induction new generalizing k s toks with
  | nil => simpa [runOps] using h
  | cons tok rest ih =>
      simp only [List.length_cons, List.range'_succ, List.map_cons] at hok ⊢
      obtain ⟨hfirst, hrest⟩ := runOps_cons_ok K g _ _ s hok
      obtain ⟨hstep, hdpos⟩ := step_ok_of_tick_ok K (k + 1 == n) (fs k) s hfirst
      obtain ⟨row, dseq, hsession, _, hkeep, _⟩ := tick_effect K g (k + 1 == n) (fs k) s hfirst
      have hnext := h.tick (k + 1 == n) (fs k) hstep
      have htok : s.dseq s.dpos = tok := hseq 0 (by simp)
      rw [htok] at hnext
      have hdone := ih (k + 1) (by simp only [List.length_cons] at hk; omega) hnext (by
        intro i hi
        rw [hdpos, show s.dpos + 1 + i = s.dpos + (i + 1) by omega]
        have hold := hseq (i + 1) (by simp only [List.length_cons]; omega)
        simp only [List.getElem_cons_succ] at hold
        rw [← hold, hsession]
        -- the head, which predicts the next token, is off while tokens remain
        refine hkeep _ (Or.inr ?_)
        simp only [List.length_cons] at hk
        simp only [beq_eq_false_iff_ne]
        omega) hrest
      rw [runOps_cons_session K g _ _ s hfirst, List.append_cons]
      exact hdone

theorem prefill (h : Tracks K g b on toks floor s) (new : List T) (fs : Script)
    (hok : ((Call.prefill new fs).exec K g s).err = none) :
    Tracks K g b on (toks ++ new) floor ((Call.prefill new fs).exec K g s).session ∧
      (toks ++ new).length ≤ g.pmax := by
  cases hqueue : (Call.prefill new fs).queue K g s with
  | error text => simp [Call.exec, hqueue] at hok
  | ok ops =>
      simp only [Call.exec, hqueue] at hok ⊢
      simp only [Call.queue, gemma4KvPrefill, ite_error_eq_ok, Except.ok.injEq] at hqueue
      obtain ⟨_, hroom, rfl⟩ := hqueue
      obtain ⟨_, hticks⟩ := runOps_cons_ok K g _ _ s hok
      simp only [prefillTicks, List.range_eq_range'] at hticks
      have hdone := (h.feed new).ticks fs new.length new 0 (by omega) (by
        intro i hi
        simp [Session.feed, hi]) hticks
      refine ⟨by simpa [runOps, runOp, prefillTicks, List.range_eq_range'] using hdone, ?_⟩
      rw [List.length_append, ← h.dpos]
      omega

/-- A decode step that has moved the position holds its token too. -/
theorem decodeLogits (h : Tracks K g b on toks floor s) (tok : T) (f : Option Fault)
    (hmoved : ((Call.decodeLogits tok f).exec K g s).session.dpos ≠ s.dpos) :
    Tracks K g b on (toks ++ [tok]) floor ((Call.decodeLogits tok f).exec K g s).session ∧
      (toks ++ [tok]).length ≤ g.pmax := by
  have hexec := decodeLogits_exec K g tok f s
  split at hexec
  case isFalse => exact absurd (by rw [hexec.2]) hmoved
  case isTrue hroom =>
    rw [hexec.2] at hmoved ⊢
    have hstep : (g4KvStep K g true f (s.feed [tok])).err = none := by
      cases herr : (g4KvStep K g true f (s.feed [tok])).err with
      | none => rfl
      | some text =>
          obtain ⟨row, dseq, hsession, _⟩ := g4KvStep_effect K g true f (s.feed [tok])
          refine absurd ?_ hmoved
          simp only [Kv.tick, herr, hsession]
          simp [Session.withSeq, Session.feed]
    have hdone := (h.feed [tok]).tick true f hstep
    have htok : (s.feed [tok]).dseq (s.feed [tok]).dpos = tok := by simp [Session.feed]
    rw [htok] at hdone
    refine ⟨hdone, ?_⟩
    rw [List.length_append, List.length_singleton, ← h.dpos]
    omega

/-- An accepted rewind leaves the tokens before. -/
theorem rewind (h : Tracks K g b on toks floor s) (d : Nat) (hd : d ≤ toks.length)
    (hspan : 0 < g.ringW → floor ≤ s.dpos - d ∧ (s.commitPos = 0 ∨ d ≤ 1))
    (hok : ((Call.rewind d).exec K g s).err = none) :
    Tracks K g b on (toks.take (toks.length - d))
      (if s.commitPos = 0 then min floor (s.dpos - d) else s.dpos - d)
      ((Call.rewind d).exec K g s).session := by
  cases hqueue : (Call.rewind d : Call T X R).queue K g s with
  | error text => simp [Call.exec, hqueue] at hok
  | ok ops =>
      obtain ⟨rfl, hle, hroom⟩ := gemma4KvRewind_ok g s d ops hqueue
      simp only [Int.toNat_natCast] at hle hroom
      have hexec : ((Call.rewind d).exec K g s).session = s.undo g d := by
        simp only [Call.exec, hqueue, Int.toNat_natCast]
        rfl
      rw [hexec]
      have hundo := h.log.undo d
        (if s.commitPos = 0 then min floor (s.dpos - d) else s.dpos - d) hle (by
          intro hw
          have hbase := h.log.base hw
          have hcommit := hroom hw
          obtain ⟨hfloor, hone⟩ := hspan hw
          split <;> omega)
      refine ⟨?_, hundo.congr ?_, h.mode, h.idle, ?_⟩
      · change s.dpos - d = _
        rw [h.dpos, List.length_take]
        omega
      · intro l _ p hp
        change p < s.dpos - d at hp
        rw [h.dpos] at hp
        rw [← mintedRow_append _ (toks.take (toks.length - d)) (toks.drop (toks.length - d)) l p
          (by rw [List.length_take]; omega), List.take_append_drop]
      · change _ ≤ s.dpos - d + 1
        split <;> omega

/-- A peek, whether it fails or not, costs the slot and the entry of the live position. -/
theorem peek (h : Tracks K g b on toks floor s) (tok : T) (f : Option Fault) :
    Tracks K g b on toks (s.dpos + 1) ((Call.readGlobalQ tok f).exec K g s).session := by
  have hbase := Spanning.call K (g := g) h.log.base (.readGlobalQ tok f)
  obtain ⟨hdpos, hmode, hidle, row, hkv⟩ :
      ((Call.readGlobalQ tok f).exec K g s).session.dpos = s.dpos ∧
      ((Call.readGlobalQ tok f).exec K g s).session.bxOn = s.bxOn ∧
      ((Call.readGlobalQ tok f).exec K g s).session.inj = none ∧
      ∃ row : Nat → Option R, ∀ l q, ((Call.readGlobalQ tok f).exec K g s).session.kv l q =
        if q = g.slot l s.dpos then (row l).getD (s.kv l q) else s.kv l q := by
    rcases Nat.lt_or_ge (s.dpos + 1) g.pmax with hroom | hfull
    · have hexec : ((Call.readGlobalQ tok f).exec K g s).session =
          (Kv.peek K g f (s.feed [tok])).session := by
        have hfree : ¬g.pmax ≤ s.dpos + 1 := by omega
        simp only [Call.exec, Call.queue, gemma4KvReadGlobalQ, hfree, if_false, runOps, runOp]
        cases (Kv.peek K g f (s.feed [tok])).err <;> rfl
      rw [hexec]
      exact peek_cache f (s.feed [tok])
    · have hexec : ((Call.readGlobalQ tok f).exec K g s).session = s := by
        simp [Call.exec, Call.queue, gemma4KvReadGlobalQ, hfull]
      rw [hexec]
      exact ⟨rfl, rfl, h.idle, fun _ => none, by simp⟩
  refine ⟨hdpos.trans h.dpos, ⟨hbase, ?_, ?_⟩, hmode.trans h.mode, hidle, by rw [hdpos]⟩
  · intro l howner p hp hring
    rw [hdpos] at hp hring
    rw [hkv, if_neg (Resident.slot_ne_live hp fun hringed => by have := (hring hringed).2; omega)]
    exact h.log.rows l howner p hp fun hringed =>
      ⟨(hring hringed).1, by have := (hring hringed).2; have := h.floor_le; omega⟩
  · intro l _ _ p hp _ hfloor _
    rw [hdpos] at hp
    omega

theorem reset (hmode : s.bxOn = on) (hidle : s.inj = none) :
    Tracks K g b on [] 0 ((Call.reset : Call T X R).exec K g s).session :=
  .cold rfl (fun _ => rfl) hmode hidle

theorem refilled (hmode : s.bxOn = on) (hidle : s.inj = none) (toks : List T)
    (hroom : toks.length ≤ g.pmax) : Tracks K g b on toks 0 (s.refilled K g toks) := by
  have hcold : Tracks K g b on [] 0 (Call.reset.exec K g s).session := .reset hmode hidle
  by_cases hempty : toks = []
  · subst hempty
    simpa [Session.refilled, Call.exec, Call.queue, gemma4KvPrefill] using hcold
  · have hacc : (Feed.prefill toks).accepts g.pmax (Call.reset.exec K g s).session.dpos = true := by
      rw [hcold.dpos]
      simp [Feed.accepts, hempty, hroom]
    have hexec := (Feed.prefill toks).exec_ok K g (Call.reset.exec K g s).session hacc
    have hhealthy := healthy_ops K g (Feed.prefill toks).ops (Feed.prefill toks).ops_healthy
      (Call.reset.exec K g s).session
    rw [← hexec.1] at hhealthy
    exact (hcold.prefill toks noFaults hhealthy.1).1

/-- A session that holds `toks` is the same cache as one reset and prefilled with them. -/
theorem sameCache (h : Tracks K g b on toks floor s) (hroom : toks.length ≤ g.pmax) :
    s.SameCache g (s.refilled K g toks) := by
  have hfresh : Tracks K g b on toks 0 (s.refilled K g toks) := .refilled h.mode h.idle toks hroom
  exact h.log.sameCache hfresh.log (by rw [hfresh.dpos, h.dpos]) h.floor_le (Nat.zero_le _)

end Tracks

end Minted

end ShannonPrime.Kv
