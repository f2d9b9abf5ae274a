import ShannonPrime.Kv.Resident

/-!
Rows by the mode they were computed in. A session in byte-exact mode whose resident
rows are all byte-exact keeps them so as long as it is only fed, stepped, peeked at and
reset, and attends to nothing else.
-/

namespace ShannonPrime.Kv

variable {T X R : Type*}

/-- The row is one that the kernels compute in byte-exact mode. -/
def Exact (K : Kernels T X R) (r : R) : Prop := ∃ l p x, r = K.kvRow true l p x

/-- The resident rows are byte-exact, up to the slot the next step writes. -/
def RowsExact (K : Kernels T X R) (g : Geometry) (s : Session T X R) : Prop :=
  ∀ l, g.isOwner l → ∀ p < s.dpos, g.slot l p ≠ g.slot l s.dpos →
    Exact K (s.kv l (g.slot l p))

structure AllExact (K : Kernels T X R) (g : Geometry) (s : Session T X R) : Prop where
  mode : s.bxOn = true
  rows : RowsExact K g s

/-- What a call attended to was byte-exact. -/
def ReadsExact (K : Kernels T X R) (reads : List (List R)) : Prop :=
  ∀ rows ∈ reads, ∀ r ∈ rows, Exact K r

section Ops

variable {K : Kernels T X R} {g : Geometry}

theorem ReadsExact.append {reads reads' : List (List R)} (h : ReadsExact K reads)
    (h' : ReadsExact K reads') : ReadsExact K (reads ++ reads') := by
  intro rows hrows
  rcases List.mem_append.mp hrows with hmem | hmem
  · exact h rows hmem
  · exact h' rows hmem

/-- The layers from `k` on attend to exact rows when the owners below `k` have stored
theirs. -/
theorem layerLoop_reads_exact (f : Option Fault) (n k : Nat) (hn : k + n = g.nl)
    (s : Session T X R) (x : X) (h : AllExact K g s)
    (hlive : ∀ l, g.isOwner l → l < k → Exact K (s.kv l (g.slot l s.dpos))) :
    ReadsExact K (layerLoop K g f (List.range' k n) s x).reads := by
  induction n generalizing k s x with
  | zero =>
      intro rows hrows
      simp [layerLoop] at hrows
  | succ n ih =>
      simp only [List.range'_succ, layerLoop]
      split
      · intro rows hrows
        simp at hrows
      · split
        · intro rows hrows
          simp at hrows
        · have hdpos := layerStore_dpos K g k s x
          have hmode : (layerStore K g k s x).bxOn = true := by
            rw [layerStore_eq, record_bxOn]
            exact h.mode
          have hlive' : ∀ l, g.isOwner l → l < k + 1 →
              Exact K ((layerStore K g k s x).kv l (g.slot l s.dpos)) := by
            intro l howner hl
            rw [layerStore_kv]
            split
            case isTrue => exact ⟨k, s.dpos, x, by rw [h.mode]⟩
            case isFalse hother =>
              refine hlive l howner ?_
              by_contra hge
              have hk : l = k := by omega
              exact hother ⟨rfl, hk, hk ▸ howner⟩
          have hrows' : RowsExact K g (layerStore K g k s x) := by
            intro l howner p hp hne
            rw [hdpos] at hp hne
            rw [layerStore_kv, if_neg (fun heq => hne heq.1)]
            exact h.rows l howner p hp hne
          intro rows hrows
          rcases List.mem_cons.mp hrows with rfl | hmem
          · intro r hr
            simp only [Session.attends, List.mem_map] at hr
            obtain ⟨p, hp, rfl⟩ := hr
            have hk : k < g.nl := by omega
            obtain ⟨howner, hle, _⟩ := g.source_spec hk
            rw [← g.slot_source hk]
            by_cases heq : g.slot (g.source k) p = g.slot (g.source k) s.dpos
            · rw [heq]
              exact hlive' _ howner (by omega)
            · have hlt : p < s.dpos := by
                have hle' := (g.mem_window.mp hp).1
                rw [hdpos] at hle'
                have hne : p ≠ s.dpos := fun hpd => heq (by rw [hpd])
                omega
              exact hrows' _ howner p (by rw [hdpos]; exact hlt) (by rw [hdpos]; exact heq)
          · exact ih (k + 1) (by omega) _ _ ⟨hmode, hrows'⟩
              (fun l howner hl => by rw [hdpos]; exact hlive' l howner hl) rows hmem

/-- A step attends to exact rows and leaves the resident ones exact. When it does not
fail the live row is exact too. -/
theorem g4KvStep_exact (head : Bool) (f : Option Fault) (s : Session T X R)
    (h : AllExact K g s) :
    ReadsExact K (g4KvStep K g head f s).reads ∧ AllExact K g (g4KvStep K g head f s).session ∧
      (g4KvStep K g head f s).session.dpos = s.dpos ∧
      ((g4KvStep K g head f s).err = none → ∀ l, g.isOwner l →
        Exact K ((g4KvStep K g head f s).session.kv l (g.slot l s.dpos))) := by
  obtain ⟨row, dseq, hsession, _, hall, _, hown⟩ := g4KvStep_effect K g head f s
  have hdpos : (g4KvStep K g head f s).session.dpos = s.dpos := by
    rw [hsession]
    simp [Session.withSeq]
  have hkv : ∀ l q, (g4KvStep K g head f s).session.kv l q =
      if q = g.slot l s.dpos then (row l).getD (s.kv l q) else s.kv l q := by
    intro l q
    rw [hsession]
    change ((s.disarm.slide g).record g row).kv l q = _
    rw [record_kv, slide_dpos, disarm_dpos, slide_kv, disarm_kv]
  refine ⟨?_, ⟨?_, ?_⟩, hdpos, ?_⟩
  · have hloop := layerLoop_reads_exact (g := g) f g.nl 0 (by omega) (s.disarm.slide g)
      (K.ple s.bxOn (s.dseq s.dpos) (s.inj.getD (K.embed (s.dseq s.dpos))))
      ⟨by rw [slide_bxOn]; exact h.mode, by
        intro l howner p hp hne
        rw [slide_dpos] at hp hne
        rw [slide_kv]
        exact h.rows l howner p hp hne⟩ (fun l _ hl => absurd hl (Nat.not_lt_zero l))
    rw [← List.range_eq_range'] at hloop
    simp only [g4KvStep]
    split
    · exact hloop
    · split
      · split <;> exact hloop
      · exact hloop
  · rw [hsession]
    simpa [Session.withSeq] using h.mode
  · intro l howner p hp hne
    rw [hdpos] at hp hne
    rw [hkv, if_neg hne]
    exact h.rows l howner p hp hne
  · intro hok l howner
    obtain ⟨r, hr⟩ := Option.isSome_iff_exists.mp (hall hok l howner)
    obtain ⟨x, hx⟩ := hown l r hr
    rw [hkv, if_pos rfl, hr, Option.getD_some]
    exact ⟨l, s.dpos, x, by rw [hx, h.mode]⟩

theorem tick_exact (head : Bool) (f : Option Fault) (s : Session T X R) (h : AllExact K g s) :
    ReadsExact K (tick K g head f s).reads ∧ AllExact K g (tick K g head f s).session := by
  obtain ⟨hreads, hall, hdpos, hlive⟩ := g4KvStep_exact head f s h
  unfold tick
  cases herr : (g4KvStep K g head f s).err with
  | some text =>
      simp only [herr]
      exact ⟨hreads, hall⟩
  | none =>
      simp only [herr]
      refine ⟨hreads, hall.mode, ?_⟩
      intro l howner p hp _
      change p < (g4KvStep K g head f s).session.dpos + 1 at hp
      rw [hdpos] at hp
      change Exact K ((g4KvStep K g head f s).session.kv l (g.slot l p))
      by_cases heq : g.slot l p = g.slot l s.dpos
      · rw [heq]
        exact hlive herr l howner
      · have hne : p ≠ s.dpos := fun hpd => heq (by rw [hpd])
        exact hall.rows l howner p (by rw [hdpos]; omega) (by rw [hdpos]; exact heq)

theorem peek_exact (f : Option Fault) (s : Session T X R) (h : AllExact K g s) :
    ReadsExact K (peek K g f s).reads ∧ AllExact K g (peek K g f s).session := by
  obtain ⟨hreads, hall, _⟩ := g4KvStep_exact false f s h
  unfold peek
  cases herr : (g4KvStep K g false f s).err with
  | some text =>
      simp only [herr]
      exact ⟨hreads, hall⟩
  | none =>
      simp only [herr]
      exact ⟨hreads, hall.mode, hall.rows⟩

theorem AllExact.cold {s : Session T X R} (hmode : s.bxOn = true) (hdpos : s.dpos = 0) :
    AllExact K g s := ⟨hmode, fun _ _ p hp _ => by omega⟩

theorem runOp_exact (op : Op T X R) (hop : op.mints = true) (s : Session T X R)
    (h : AllExact K g s) :
    ReadsExact K (runOp K g op s).reads ∧ AllExact K g (runOp K g op s).session := by
  have hnil : ReadsExact K ([] : List (List R)) := by
    intro rows hrows
    simp at hrows
  cases op with
  | tick head f => exact tick_exact head f s h
  | peek f => exact peek_exact f s h
  | feed toks => exact ⟨hnil, h.mode, h.rows⟩
  | arm x => exact ⟨hnil, h.mode, h.rows⟩
  | room text => exact ⟨hnil, h⟩
  | commit => exact ⟨hnil, h.mode, h.rows⟩
  | reset => exact ⟨hnil, .cold h.mode rfl⟩
  | resetCold => exact ⟨hnil, .cold h.mode rfl⟩
  | _ => simp [Op.mints] at hop

theorem runOps_exact (ops : List (Op T X R)) (hops : ∀ op ∈ ops, op.mints = true)
    (s : Session T X R) (h : AllExact K g s) :
    ReadsExact K (runOps K g ops s).reads ∧ AllExact K g (runOps K g ops s).session := by
  induction ops generalizing s with
  | nil => exact ⟨by intro rows hrows; simp [runOps] at hrows, h⟩
  | cons op rest ih =>
      obtain ⟨hreads, hnext⟩ := runOp_exact op (hops op (by simp)) s h
      obtain ⟨hreads', hlast⟩ :=
        ih (fun op' hop' => hops op' (List.mem_cons_of_mem _ hop')) _ hnext
      simp only [runOps]
      cases herr : (runOp K g op s).err with
      | some text => exact ⟨hreads, hnext⟩
      | none => exact ⟨hreads.append hreads', hlast⟩

/-- A call that only mints rows attends to exact ones and leaves exact ones. -/
theorem Call.exec_exact (c : Call T X R) (hc : c.mints = true) (s : Session T X R)
    (h : AllExact K g s) :
    ReadsExact K (c.exec K g s).reads ∧ AllExact K g (c.exec K g s).session := by
  unfold Call.exec
  cases hqueue : c.queue K g s with
  | error text => exact ⟨by intro rows hrows; simp at hrows, h⟩
  | ok ops =>
      have hplain : c.isPlain = true := by cases c <;> simp [Call.mints, Call.isPlain] at hc ⊢
      exact runOps_exact ops (fun op hop => (plain_queue K g s c hplain ops hqueue op hop).2.2.2 hc)
        s h

/-- The rows of a byte-exact log are exact. -/
theorem mintedRow_exact (b : Session T X R) (toks : List T) (l p : Nat)
    (howner : g.isOwner l = true) (hp : p < toks.length) :
    Exact K (mintedRow K g (b.blank true) toks l p) := by
  have hpre := Tracks.minted (K := K) (g := g) b true (toks.take p)
  have hlast : minted K g (b.blank true) (toks.take (p + 1)) =
      (tick K g false none ((minted K g (b.blank true) (toks.take p)).feed [toks[p]])).session := by
    unfold minted
    rw [← List.take_append_getElem hp, List.foldl_append]
    rfl
  have hat : (minted K g (b.blank true) (toks.take p)).dpos = p := by
    rw [hpre.dpos, List.length_take]
    omega
  obtain ⟨row, dseq, hsession, hrow, _, hown⟩ := tick_effect K g false none
    ((minted K g (b.blank true) (toks.take p)).feed [toks[p]]) (tick_healthy K g false _)
  obtain ⟨r, hr⟩ := Option.isSome_iff_exists.mp ((hrow l).trans howner)
  obtain ⟨x, hx⟩ := hown l r hr
  rw [mintedRow, hlast, hsession]
  change Exact K (((Session.slide g _).record g row).kv l (g.slot l p))
  rw [record_kv, slide_dpos, disarm_dpos]
  have hfed : ((minted K g (b.blank true) (toks.take p)).feed [toks[p]]).dpos = p := hat
  rw [hfed, if_pos rfl, hr, Option.getD_some]
  have hmode : ((minted K g (b.blank true) (toks.take p)).feed [toks[p]]).bxOn = true :=
    hpre.mode
  rw [hmode] at hx
  exact ⟨l, _, x, hx⟩

theorem Tracks.rowsExact {b s : Session T X R} {toks : List T} {floor : Nat}
    (h : Tracks K g b true toks floor s) : RowsExact K g s := by
  intro l howner p hp hne
  obtain ⟨p', hp', hslot, hnear⟩ := g.newest hp hne
  have hfloor := h.floor_le
  rw [← hslot, h.log.rows l howner p' hp' fun hringed => ⟨by have := hnear hringed; omega,
    by have := hnear hringed; omega⟩]
  exact mintedRow_exact b toks l p' howner (by rw [← h.dpos]; exact hp')

/-- Without a ring, rows taken back leave the ones below as they are. -/
theorem RowsExact.undo {s : Session T X R} (h : RowsExact K g s) (hplain : g.ringW = 0) (d : Nat) :
    RowsExact K g (s.undo g d) := by
  intro l howner p hp _
  change p < s.dpos - d at hp
  have hringed : g.isRinged l = false := by simp [Geometry.isRinged, hplain]
  rw [undo_kv_plain hringed]
  refine h l howner p (by omega) ?_
  simp only [Geometry.slot, hringed, Bool.false_eq_true, if_false]
  omega

/-- A rewind attends to nothing and is refused, or takes its positions back. -/
theorem rewind_exec (d : Int) (s : Session T X R) :
    (((Call.rewind d).exec K g s).session = s ∨ (((Call.rewind d).exec K g s).err = none ∧
      ((Call.rewind d).exec K g s).session = s.undo g d.toNat)) ∧
      ((Call.rewind d).exec K g s).reads = [] := by
  unfold Call.exec
  cases hqueue : (Call.rewind d : Call T X R).queue K g s with
  | error text => exact ⟨Or.inl rfl, rfl⟩
  | ok ops =>
      obtain ⟨rfl, _⟩ := gemma4KvRewind_ok g s d ops hqueue
      exact ⟨Or.inr ⟨rfl, rfl⟩, rfl⟩

end Ops

end ShannonPrime.Kv
