import ShannonPrime.Diffusion.WeightCaches

/-!
Who owns what the caches hold. The reservoir holds tensors of models in memory under their
own addresses. What is keyed by a name belongs to the model that ran last, and what is
keyed by a model's address to the model there, as long as the process is careful.
-/

namespace ShannonPrime.Diffusion

variable {o : Options} {live : List (Loaded × Bool)} {m : Loaded}

/-! ### The invariant -/

/-- The caches, beside the models in memory and the model that ran last. -/
structure Own (o : Options) (live : List (Loaded × Bool)) (busy : Option Instance) (c : Caches) :
    Prop where
  reservoir : ∀ e ∈ c.reservoir, ∃ p ∈ live, p.2 = false ∧ p.1.id = e.2 ∧ e.1 ∈ p.1.tensors
  wcache : o.named = true → ∀ e ∈ c.wcache, busy = some e.2
  slots : o.named = true → ∀ i e, c.slots i = some e → busy = some e.2
  embed : ∀ e, c.embed = some e → ∀ p ∈ live, p.1.addr = e.1 → e.2 = p.1.id
  kv : ∀ e, c.kv = some e → ∀ p ∈ live, p.1.addr = e.1.model →
    ∀ L v owners, e.2 L v = some owners → ∀ x ∈ owners, x = p.1.id

/-- The models in memory lie apart. -/
structure Apart (live : List (Loaded × Bool)) (count : Nat) : Prop where
  fresh : ∀ p ∈ live, p.1.id < count
  ids : ∀ p ∈ live, ∀ q ∈ live, p.1.id = q.1.id → p = q
  addrs : ∀ p ∈ live, ∀ q ∈ live, p.1.addr = q.1.addr → p.1.id = q.1.id
  tensors : ∀ p ∈ live, ∀ q ∈ live, ∀ a, a ∈ p.1.tensors → a ∈ q.1.tensors → p.1.id = q.1.id

/-- A forward on its way. -/
structure Going (o : Options) (live : List (Loaded × Bool)) (m : Loaded) (r : Running) : Prop where
  own : Own o live (some m.id) r.caches
  uses : ∀ x ∈ r.uses, x = m.id
  key : ∀ e, r.caches.kv = some e → r.mode ≠ .off → e.1.model = m.addr

/-! ### The caches, one by one -/

theorem mem_of_lookup {α β : Type} [BEq α] [LawfulBEq α] {l : List (α × β)} {k : α} {b : β}
    (h : l.lookup k = some b) : (k, b) ∈ l := by
  obtain ⟨front, back, rfl, _⟩ := List.lookup_eq_some_iff.mp h
  exact List.mem_append_right _ List.mem_cons_self

theorem find_mem {name : String} {a : Addr} (h : m.find name = some a) : a ∈ m.tensors :=
  List.mem_map_of_mem (mem_of_lookup h)

variable {count : Nat} {c : Caches} {r : Running} {luck : Luck}

/-- A row of the reservoir is a row of the model whose tensor has the address. -/
theorem residentPt_own (luck : Luck) (hlive : (m, false) ∈ live) (hapart : Apart live count)
    (h : Own o live (some m.id) c) {a : Addr} (ha : a ∈ m.tensors) :
    (c.residentPt o m luck a).1 = m.id ∧ Own o live (some m.id) (c.residentPt o m luck a).2 ∧
      (c.residentPt o m luck a).2.kv = c.kv := by
  unfold Caches.residentPt
  split
  case isFalse => exact ⟨rfl, h, rfl⟩
  case isTrue =>
      cases hlookup : c.reservoir.lookup a with
      | some owner =>
          obtain ⟨p, hp, _, howner, hin⟩ := h.reservoir _ (mem_of_lookup hlookup)
          exact ⟨howner.symm.trans (hapart.tensors p hp _ hlive a hin ha), h, rfl⟩
      | none =>
          refine ⟨rfl, ?_, ?_⟩
          · dsimp only
            split
            case isFalse => exact h
            case isTrue =>
                refine ⟨?_, h.wcache, h.slots, h.embed, h.kv⟩
                intro e he
                rcases List.mem_append.mp he with hold | hnew
                · exact h.reservoir e hold
                · rw [List.mem_singleton.mp hnew]
                  exact ⟨_, hlive, rfl, rfl, ha⟩
          · dsimp only
            split <;> rfl

theorem resident_own (h : Own o live (some m.id) c) (hpacked : o.packed = true) {name : String}
    {owner : Instance} (hres : c.resident o name = some owner) : owner = m.id := by
  unfold Caches.resident at hres
  split at hres
  case isFalse => cases hres
  case isTrue hw =>
      have hnamed : o.named = true := by simp [Options.named, hpacked, hw]
      exact (Option.some.inj (h.wcache hnamed _ (mem_of_lookup hres))).symm

theorem insert_own (luck : Luck) (h : Own o live (some m.id) c) (name : String) :
    Own o live (some m.id) (c.insert o m luck name) ∧ (c.insert o m luck name).kv = c.kv := by
  unfold Caches.insert
  split
  case isFalse => exact ⟨h, rfl⟩
  case isTrue =>
      refine ⟨⟨h.reservoir, ?_, h.slots, h.embed, h.kv⟩, rfl⟩
      intro hnamed e he
      rcases List.mem_append.mp he with hold | hnew
      · exact h.wcache hnamed e hold
      · rw [List.mem_singleton.mp hnew]

theorem consume_own (h : Own o live (some m.id) c) (hpacked : o.packed = true) {key : String}
    {owner : Instance} {c' : Caches} (hgot : c.consume o key = some (owner, c')) :
    owner = m.id ∧ Own o live (some m.id) c' ∧ c'.kv = c.kv := by
  unfold Caches.consume at hgot
  split at hgot
  case isFalse => cases hgot
  case isTrue hasync =>
      have hnamed : o.named = true := by simp [Options.named, hpacked, hasync]
      obtain ⟨slot, _, hslot⟩ := Option.bind_eq_some_iff.mp hgot
      obtain ⟨e, he, heq⟩ := Option.map_eq_some_iff.mp hslot
      cases heq
      refine ⟨(Option.some.inj (h.slots hnamed slot e he)).symm,
        ⟨h.reservoir, h.wcache, ?_, h.embed, h.kv⟩, rfl⟩
      intro _ i e' he'
      dsimp only at he'
      rcases eq_or_ne i slot with rfl | hne
      · rw [Function.update_self] at he'
        cases he'
      · rw [Function.update_of_ne hne] at he'
        exact h.slots hnamed i e' he'

theorem prefetch_own (luck : Luck) (h : Own o live (some m.id) c) (name : String) (r0 kind : Nat) :
    Own o live (some m.id) (c.prefetch o m luck name r0 kind) ∧
      (c.prefetch o m luck name r0 kind).kv = c.kv := by
  unfold Caches.prefetch
  split
  case isFalse => exact ⟨h, rfl⟩
  case isTrue =>
      dsimp only
      split
      case isTrue => exact ⟨⟨h.reservoir, h.wcache, h.slots, h.embed, h.kv⟩, rfl⟩
      case isFalse =>
          refine ⟨⟨h.reservoir, h.wcache, ?_, h.embed, h.kv⟩, rfl⟩
          intro hnamed i e he
          dsimp only at he
          rcases eq_or_ne i (2 * kind + c.turn kind % 2) with rfl | hne
          · rw [Function.update_self] at he
            cases he
            rfl
          · rw [Function.update_of_ne hne] at he
            exact h.slots hnamed i e he

/-! ### The operations -/

theorem Going.take {c' : Caches} {owner : Instance} (h : Going o live m r) (howner : owner = m.id)
    (hown : Own o live (some m.id) c') (hkv : c'.kv = r.caches.kv) :
    Going o live m (r.take owner c') := by
  refine ⟨hown, ?_, ?_⟩
  · intro x hx
    rcases List.mem_cons.mp hx with rfl | hold
    · exact howner
    · exact h.uses x hold
  · intro e he
    exact h.key e (hkv.symm.trans he)

theorem rows_going (hlive : (m, false) ∈ live) (hapart : Apart live count)
    (h : Going o live m r) {name : String} {r' : Running}
    (hr : r.rows o m luck name = some r') : Going o live m r' := by
  obtain ⟨a, ha, rfl⟩ := Option.map_eq_some_iff.mp hr
  obtain ⟨howner, hown, hkv⟩ := residentPt_own luck hlive hapart h.own (find_mem ha)
  exact h.take howner hown hkv

theorem product_going (hlive : (m, false) ∈ live) (hapart : Apart live count)
    (h : Going o live m r) {name : String} {r' : Running}
    (hr : r.product o m luck name = some r') : Going o live m r' := by
  unfold Running.product at hr
  split at hr
  case isFalse => exact rows_going hlive hapart h hr
  case isTrue hpacked =>
      cases hres : r.caches.resident o name with
      | some owner =>
          rw [hres] at hr
          cases hr
          exact h.take (resident_own h.own hpacked hres) h.own rfl
      | none =>
          rw [hres] at hr
          obtain ⟨_, _, rfl⟩ := Option.map_eq_some_iff.mp hr
          obtain ⟨hown, hkv⟩ := insert_own luck h.own name
          exact h.take rfl hown hkv

theorem slice_going (hlive : (m, false) ∈ live) (hapart : Apart live count)
    (h : Going o live m r) {name : String} {r0 : Nat} {r' : Running}
    (hr : r.slice o m luck name r0 = some r') : Going o live m r' := by
  unfold Running.slice at hr
  dsimp only at hr
  split at hr
  case isFalse => exact rows_going hlive hapart h hr
  case isTrue hpacked =>
      cases hres : r.caches.resident o (sliceKey name r0) with
      | some owner =>
          rw [hres] at hr
          cases hr
          exact h.take (resident_own h.own hpacked hres) h.own rfl
      | none =>
          cases hgot : r.caches.consume o (sliceKey name r0) with
          | some got =>
              obtain ⟨owner, c'⟩ := got
              rw [hres, hgot] at hr
              cases hr
              obtain ⟨howner, hown, hkv⟩ := consume_own h.own hpacked hgot
              exact h.take howner hown hkv
          | none =>
              rw [hres, hgot] at hr
              dsimp only at hr
              split at hr
              case isFalse => exact rows_going hlive hapart h hr
              case isTrue =>
                  obtain ⟨_, _, rfl⟩ := Option.map_eq_some_iff.mp hr
                  obtain ⟨hown, hkv⟩ := insert_own luck h.own (sliceKey name r0)
                  exact h.take rfl hown hkv

theorem embed_going (hlive : (m, false) ∈ live) (hapart : Apart live count)
    (h : Going o live m r) : Going o live m (r.embed o m luck).1 := by
  unfold Running.embed
  cases hcached : r.caches.embed.filter fun e => e.1 == m.addr with
  | some e =>
      obtain ⟨he, hkey⟩ := Option.filter_eq_some_iff.mp hcached
      exact h.take (h.own.embed e he _ hlive (beq_iff_eq.mp hkey).symm) h.own rfl
  | none =>
      have hdropped : Going o live m { r with caches := { r.caches with embed := none } } := by
        refine ⟨⟨h.own.reservoir, h.own.wcache, h.own.slots, ?_, h.own.kv⟩, h.uses, h.key⟩
        intro e he
        cases he
      dsimp only
      cases hfind : m.find m.tokenEmbd with
      | none => exact hdropped
      | some a =>
          obtain ⟨howner, hown, hkv⟩ :=
            residentPt_own luck hlive hapart hdropped.own (find_mem hfind)
          dsimp only
          split
          case isFalse => exact hdropped.take howner hown hkv
          case isTrue =>
              refine hdropped.take howner ⟨hown.reservoir, hown.wcache, hown.slots, ?_, hown.kv⟩ hkv
              rintro _ ⟨⟩ p hp haddr
              exact howner.trans (hapart.addrs _ hlive p hp haddr.symm)

theorem openKV_going (h : Going o live m r) {key : Key Addr} (hkey : key.model = m.addr) :
    Going o live m (r.openKV luck key) := by
  unfold Running.openKV
  cases hcached : r.caches.kv.filter fun e => e.1 == key with
  | some e =>
      obtain ⟨he, hsame⟩ := Option.filter_eq_some_iff.mp hcached
      refine ⟨h.own, h.uses, ?_⟩
      intro e' he' _
      cases he.symm.trans he'
      rw [beq_iff_eq.mp hsame, hkey]
  | none =>
      dsimp only
      split
      case isTrue =>
          refine ⟨⟨h.own.reservoir, h.own.wcache, h.own.slots, h.own.embed, ?_⟩, h.uses, ?_⟩
          · rintro _ ⟨⟩ p _ _ L v owners ⟨⟩
          · rintro _ ⟨⟩ _
            exact hkey
      case isFalse =>
          refine ⟨⟨h.own.reservoir, h.own.wcache, h.own.slots, h.own.embed, ?_⟩, h.uses, ?_⟩
          · intro e he
            cases he
          · intro e he
            cases he

theorem layerKV_going (hlive : (m, false) ∈ live) (hapart : Apart live count)
    (h : Going o live m r) (L : Nat) : Going o live m (r.layerKV luck L) := by
  unfold Running.layerKV
  split
  case h_1 key owners hmode hkv =>
      have hsaved : ∀ v, ∀ x ∈ (owners L v).getD [], x = m.id := by
        intro v x hx
        cases hown : owners L v with
        | none =>
            rw [hown] at hx
            cases hx
        | some l =>
            rw [hown] at hx
            have haddr := h.key _ hkv (by simp [hmode])
            exact h.own.kv _ hkv _ hlive haddr.symm L v l hown x hx
      refine ⟨h.own, ?_, h.key⟩
      intro x hx
      rcases List.mem_append.mp hx with hsplice | hold
      · rcases List.mem_append.mp hsplice with hK | hV
        · exact hsaved false x hK
        · exact hsaved true x hV
      · exact h.uses x hold
  case h_2 key owners hmode hkv =>
      have haddr := h.key _ hkv (by simp [hmode])
      refine ⟨⟨h.own.reservoir, h.own.wcache, h.own.slots, h.own.embed, ?_⟩, h.uses, ?_⟩
      · rintro _ ⟨⟩ p hp hmodel l v saved hl x hx
        dsimp only at hmodel hl
        rcases eq_or_ne l L with rfl | hne
        · rw [Function.update_self] at hl
          split at hl
          case isTrue =>
              cases hl
              rw [h.uses x hx]
              exact hapart.addrs _ hlive p hp (haddr.symm.trans hmodel.symm)
          case isFalse => cases hl
        · rw [Function.update_of_ne hne] at hl
          exact h.own.kv _ hkv p hp hmodel l v saved hl x hx
      · rintro _ ⟨⟩ _
        exact haddr
  case h_3 => exact h

theorem exec_going (luck : Luck) (hlive : (m, false) ∈ live) (hapart : Apart live count) {op : Op}
    (hop : ∀ key, op = .openKV key → key.model = m.addr) (h : Going o live m r) :
    Going o live m (op.exec o m luck r).1 := by
  have hgetD : ∀ got : Option Running, (∀ r', got = some r' → Going o live m r') →
      Going o live m (got.getD r) := by
    intro got hgot
    cases got with
    | none => exact h
    | some r' => exact hgot r' rfl
  cases op with
  | rows name => exact hgetD _ fun r' hr => rows_going hlive hapart h hr
  | product name => exact hgetD _ fun r' hr => product_going hlive hapart h hr
  | slice name r0 => exact hgetD _ fun r' hr => slice_going hlive hapart h hr
  | prefetch name r0 kind =>
      obtain ⟨hown, hkv⟩ := prefetch_own luck h.own name r0 kind
      exact ⟨hown, h.uses, fun e he => h.key e (hkv.symm.trans he)⟩
  | embed => exact embed_going hlive hapart h
  | openKV key => exact openKV_going h (hop key rfl)
  | layerKV L => exact layerKV_going hlive hapart h L

/-- The induction is on the operations. -/
theorem execAll_going (hlive : (m, false) ∈ live) (hapart : Apart live count)
    (ops : List (Op × Luck)) (hops : ∀ p ∈ ops, ∀ key, p.1 = .openKV key → key.model = m.addr)
    (h : Going o live m r) : Going o live m (execAll o m ops r) := by
  induction ops generalizing r with
  | nil => exact h
  | cons p ops ih =>
      obtain ⟨op, luck⟩ := p
      have hnext := exec_going luck hlive hapart (hops _ List.mem_cons_self) h
      unfold execAll
      dsimp only
      split
      · exact ih (fun p hp => hops p (List.mem_cons_of_mem _ hp)) hnext
      · exact hnext

/-- No operation of a layer opens the prefix K/V. -/
theorem gateUpAhead_key (L : Nat) (hits : List Nat) (key : Key Addr) :
    Op.openKV key ∉ gateUpAhead o m L hits := by
  unfold gateUpAhead
  cases hits with
  | nil => simp
  | cons e rest => dsimp only; split <;> simp

theorem expertOps_key (L : Nat) (hits : List Nat) (key : Key Addr) :
    Op.openKV key ∉ expertOps o m L hits := by
  induction hits with
  | nil => simp [expertOps]
  | cons e rest ih => simp [expertOps, gateUpAhead_key, ih]

theorem layerOps_key (L : Nat) (hits : List Nat) (key : Key Addr) :
    Op.openKV key ∉ layerOps o m L hits := by
  unfold layerOps
  split
  · split <;> simp [gateUpAhead_key, expertOps_key]
  · simp [gateUpAhead_key, expertOps_key]

theorem forwardOps_key (call : DgCall) {key : Key Addr}
    (hop : Op.openKV key ∈ forwardOps o m call) : key.model = m.addr := by
  unfold forwardOps at hop
  split at hop
  case isTrue => cases hop
  case isFalse =>
      simp only [List.mem_append, List.mem_map, List.mem_flatMap, List.mem_singleton,
        layerOps_key, reduceCtorEq, and_false, exists_false, or_false, false_or] at hop
      rcases hop with hprev | hopen
      · split at hprev <;> simp at hprev
      · split at hopen
        · cases List.mem_singleton.mp hopen
          rfl
        · cases hopen

theorem forward_going (hlive : (m, false) ∈ live) (hapart : Apart live count)
    (h : Own o live (some m.id) c) (call : DgCall) : Going o live m (c.forward o m call) := by
  apply execAll_going hlive hapart
  · intro p hp key hkey
    obtain ⟨q, hq, rfl⟩ := List.mem_map.mp hp
    apply forwardOps_key (o := o) call
    rw [← hkey]
    exact List.fst_mem_of_mem_zipIdx hq
  · refine ⟨h, ?_, ?_⟩
    · intro x hx
      cases hx
    · intro e _ hmode
      exact absurd rfl hmode

/-! ### The process -/

structure World.Sound (o : Options) (w : World) : Prop where
  own : Own o w.live w.busy w.caches
  apart : Apart w.live w.count

theorem mark_spec {id : Instance} {released : Bool} {q : Loaded × Bool}
    (hq : q ∈ mark live id released) :
    ∃ p ∈ live, q.1 = p.1 ∧ q.2 = if p.1.id = id then released else p.2 := by
  obtain ⟨p, hp, rfl⟩ := List.mem_map.mp hq
  refine ⟨p, hp, ?_⟩
  split <;> exact ⟨rfl, rfl⟩

theorem mem_mark (id : Instance) (released : Bool) {p : Loaded × Bool} (hp : p ∈ live) :
    (p.1, if p.1.id = id then released else p.2) ∈ mark live id released := by
  apply List.mem_map.mpr
  refine ⟨p, hp, ?_⟩
  split <;> rfl

theorem Apart.mark (h : Apart live count) (id : Instance) (released : Bool) :
    Apart (mark live id released) count := by
  constructor
  · intro q hq
    obtain ⟨p, hp, hmodel, _⟩ := mark_spec hq
    rw [hmodel]
    exact h.fresh p hp
  · intro q hq q' hq' hid
    obtain ⟨p, hp, hmodel, hflag⟩ := mark_spec hq
    obtain ⟨p', hp', hmodel', hflag'⟩ := mark_spec hq'
    rw [hmodel, hmodel'] at hid
    cases h.ids p hp p' hp' hid
    exact Prod.ext (hmodel.trans hmodel'.symm) (hflag.trans hflag'.symm)
  · intro q hq q' hq'
    obtain ⟨p, hp, hmodel, _⟩ := mark_spec hq
    obtain ⟨p', hp', hmodel', _⟩ := mark_spec hq'
    rw [hmodel, hmodel']
    exact h.addrs p hp p' hp'
  · intro q hq q' hq'
    obtain ⟨p, hp, hmodel, _⟩ := mark_spec hq
    obtain ⟨p', hp', hmodel', _⟩ := mark_spec hq'
    rw [hmodel, hmodel']
    exact h.tensors p hp p' hp'

theorem model_spec {w : World} {id : Instance} (h : w.model id = some m) :
    m.id = id ∧ ∃ released, (m, released) ∈ w.live := by
  obtain ⟨p, hp, rfl⟩ := Option.map_eq_some_iff.mp h
  exact ⟨by simpa using List.find?_some hp, p.2, List.mem_of_find?_eq_some hp⟩

/-- Where the caches stand when a forward begins. -/
theorem Own.begin {busy : Option Instance} {id : Instance} (h : Own o live busy c)
    (hbusy : o.named = true → busy = none ∨ busy = some id) :
    Own o (mark live id false) (some id) c := by
  have hsame : o.named = true → ∀ owner, busy = some owner → some id = some owner := by
    intro hnamed owner howner
    rcases hbusy hnamed with hnone | hid
    · cases hnone.symm.trans howner
    · exact hid.symm.trans howner
  constructor
  · intro e he
    obtain ⟨p, hp, hflag, howner, hin⟩ := h.reservoir e he
    refine ⟨_, mem_mark id false hp, ?_, howner, hin⟩
    split
    · rfl
    · exact hflag
  · intro hnamed e he
    exact hsame hnamed _ (h.wcache hnamed e he)
  · intro hnamed i e he
    exact hsame hnamed _ (h.slots hnamed i e he)
  · intro e he q hq haddr
    obtain ⟨p, hp, hmodel, _⟩ := mark_spec hq
    rw [hmodel] at haddr ⊢
    exact h.embed e he p hp haddr
  · intro e he q hq haddr
    obtain ⟨p, hp, hmodel, _⟩ := mark_spec hq
    rw [hmodel] at haddr ⊢
    exact h.kv e he p hp haddr

theorem Own.release {busy : Option Instance} (h : Own o live busy c) (id : Instance) :
    Own o (mark live id true) none c.release := by
  refine ⟨fun e he => (List.not_mem_nil he).elim, fun _ e he => (List.not_mem_nil he).elim,
    fun _ i e he => (Option.some_ne_none e he.symm).elim, ?_, ?_⟩
  · intro e he q hq haddr
    obtain ⟨p, hp, hmodel, _⟩ := mark_spec hq
    rw [hmodel] at haddr ⊢
    exact h.embed e he p hp haddr
  · intro e he q hq haddr
    obtain ⟨p, hp, hmodel, _⟩ := mark_spec hq
    rw [hmodel] at haddr ⊢
    exact h.kv e he p hp haddr

theorem Own.free {busy : Option Instance} {id : Instance} (h : Own o live busy c)
    (hreleased : ∀ p ∈ live, p.1.id = id → p.2 = true) :
    Own o (live.filter fun p => p.1.id != id) busy c := by
  refine ⟨?_, h.wcache, h.slots, ?_, ?_⟩
  · intro e he
    obtain ⟨p, hp, hflag, howner, hin⟩ := h.reservoir e he
    have hother : p.1.id ≠ id := by
      intro hid
      cases hflag.symm.trans (hreleased p hp hid)
    exact ⟨p, List.mem_filter.mpr ⟨hp, by simpa using hother⟩, hflag, howner, hin⟩
  · intro e he p hp
    exact h.embed e he p (List.mem_of_mem_filter hp)
  · intro e he p hp
    exact h.kv e he p (List.mem_of_mem_filter hp)

theorem Own.load {busy : Option Instance} (h : Own o live busy c)
    (hembed : ∀ e, c.embed = some e → e.1 ≠ m.addr)
    (hkv : ∀ e, c.kv = some e → e.1.model ≠ m.addr) : Own o ((m, false) :: live) busy c := by
  refine ⟨?_, h.wcache, h.slots, ?_, ?_⟩
  · intro e he
    obtain ⟨p, hp, hrest⟩ := h.reservoir e he
    exact ⟨p, List.mem_cons_of_mem _ hp, hrest⟩
  · intro e he p hp haddr
    rcases List.mem_cons.mp hp with rfl | hold
    · exact absurd haddr.symm (hembed e he)
    · exact h.embed e he p hold haddr
  · intro e he p hp haddr
    rcases List.mem_cons.mp hp with rfl | hold
    · exact absurd haddr.symm (hkv e he)
    · exact h.kv e he p hold haddr

theorem Apart.load (h : Apart live count) (hid : m.id = count)
    (hplace : ∀ p ∈ live, p.1.addr ≠ m.addr ∧ ∀ a ∈ m.tensors, a ∉ p.1.tensors) :
    Apart ((m, false) :: live) (count + 1) := by
  have hnew : ∀ p ∈ live, p.1.id ≠ m.id := by
    intro p hp heq
    exact Nat.ne_of_lt (h.fresh p hp) (heq.trans hid)
  constructor
  · intro p hp
    rcases List.mem_cons.mp hp with rfl | hold
    · exact Nat.lt_succ_of_le (Nat.le_of_eq hid)
    · exact Nat.lt_succ_of_lt (h.fresh p hold)
  · intro p hp q hq heq
    rcases List.mem_cons.mp hp with rfl | hp
    · rcases List.mem_cons.mp hq with rfl | hq
      · rfl
      · exact absurd heq.symm (hnew q hq)
    · rcases List.mem_cons.mp hq with rfl | hq
      · exact absurd heq (hnew p hp)
      · exact h.ids p hp q hq heq
  · intro p hp q hq heq
    rcases List.mem_cons.mp hp with rfl | hp
    · rcases List.mem_cons.mp hq with rfl | hq
      · rfl
      · exact absurd heq.symm (hplace q hq).1
    · rcases List.mem_cons.mp hq with rfl | hq
      · exact absurd heq (hplace p hp).1
      · exact h.addrs p hp q hq heq
  · intro p hp q hq a ha ha'
    rcases List.mem_cons.mp hp with rfl | hp
    · rcases List.mem_cons.mp hq with rfl | hq
      · rfl
      · exact absurd ha' ((hplace q hq).2 a ha)
    · rcases List.mem_cons.mp hq with rfl | hq
      · exact absurd ha ((hplace p hp).2 a ha')
      · exact h.tensors p hp q hq a ha ha'

theorem Apart.free (h : Apart live count) (id : Instance) :
    Apart (live.filter fun p => p.1.id != id) count := by
  have hmem : ∀ p, p ∈ live.filter (fun p => p.1.id != id) → p ∈ live :=
    fun p hp => List.mem_of_mem_filter hp
  exact ⟨fun p hp => h.fresh p (hmem p hp),
    fun p hp q hq => h.ids p (hmem p hp) q (hmem q hq),
    fun p hp q hq => h.addrs p (hmem p hp) q (hmem q hq),
    fun p hp q hq => h.tensors p (hmem p hp) q (hmem q hq)⟩

/-- An event keeps the invariant, and a forward uses what its model owns. -/
theorem World.Sound.step {w : World} (h : w.Sound o) {e : Event} (hallowed : w.Allowed e)
    (hcareful : w.Careful o e) :
    (w.step o e).1.Sound o ∧
      ∀ id call, e = .forward id call → ∀ owner ∈ (w.step o e).2, owner = id := by
  cases e with
  | load m =>
      exact ⟨⟨h.own.load hcareful.1 hcareful.2, h.apart.load hallowed.1 hallowed.2⟩, by simp⟩
  | forward id call =>
      cases hmodel : w.model id with
      | none =>
          have hstep : w.step o (.forward id call) = (w, []) := by
            simp only [World.step, hmodel]
          rw [hstep]
          exact ⟨h, by simp⟩
      | some m =>
          obtain ⟨rfl, released, hlive⟩ := model_spec hmodel
          have hmarked : (m, false) ∈ mark w.live m.id false := by
            simpa using mem_mark m.id false hlive
          have hgoing := forward_going hmarked (h.apart.mark m.id false) (h.own.begin hcareful) call
          simp only [World.step, hmodel]
          refine ⟨⟨hgoing.own, h.apart.mark m.id false⟩, ?_⟩
          rintro _ _ ⟨⟩ owner howner
          exact hgoing.uses owner howner
  | release id => exact ⟨⟨h.own.release id, h.apart.mark id true⟩, by simp⟩
  | free id => exact ⟨⟨h.own.free hallowed, h.apart.free id⟩, by simp⟩
  | releaseEmbed =>
      refine ⟨⟨⟨h.own.reservoir, h.own.wcache, h.own.slots, ?_, h.own.kv⟩, h.apart⟩, by simp⟩
      intro e he
      cases he
  | releasePrefixKV =>
      refine ⟨⟨⟨h.own.reservoir, h.own.wcache, h.own.slots, h.own.embed, ?_⟩, h.apart⟩, by simp⟩
      intro e he
      cases he

theorem World.Sound.init (o : Options) : World.init.Sound o := by
  refine ⟨⟨?_, ?_, ?_, ?_, ?_⟩, ⟨?_, ?_, ?_, ?_⟩⟩ <;> simp [World.init, Caches.init]

theorem World.Sound.run {w : World} (h : w.Sound o) (events : List Event)
    (hallowed : w.Along o World.Allowed events)
    (hcareful : w.Along o (World.Careful o) events) : w.UsesOwn o events := by
  induction events generalizing w with
  | nil => trivial
  | cons e events ih =>
      obtain ⟨hsound, huses⟩ := h.step hallowed.1 hcareful.1
      exact ⟨huses, ih hsound hallowed.2 hcareful.2⟩

/-- In every run of the process whose steps are careful, a forward uses what is derived from
its own model's tensors. -/
theorem uses_own_of_careful (o : Options) (events : List Event)
    (hallowed : World.init.Along o World.Allowed events)
    (hcareful : World.init.Along o (World.Careful o) events) : World.init.UsesOwn o events :=
  (World.Sound.init o).run events hallowed hcareful

/-! ### Two models under one name, and under one address -/

/-- A model of one layer with one expert, at an address, with its tensors behind it. -/
def smallModel (id : Instance) (addr : Addr) : Loaded where
  nLayers := 1
  nVocab := 4
  canvasLength := 1
  swaPeriod := 1
  kvFromStart := 0
  slidingWindow := 1
  nHead := 1
  nHeadSwa := 1
  nExpert := 1
  hasV := fun _ => false
  id := id
  addr := addr
  arena := (["token_embd.weight", "self_cond_gate.weight", "self_cond_up.weight",
    "self_cond_down.weight"] ++ ["attn_q", "attn_k", "attn_output", "ffn_gate", "ffn_up", "ffn_down",
    "ffn_gate_up_exps", "ffn_down_exps"].map (blockName 0)).zipIdx (addr + 1)
  nEmbd := 1
  nFfExp := 1
  tokenEmbd := "token_embd.weight"
  head := "token_embd.weight"
  packable := fun _ => true

def smallCall : DgCall where
  tokens := [2, 3]
  prev := true
  hits := fun _ => [0]
  luck := fun _ => ⟨true, true, true, true, fun _ => true⟩

def plainOptions : Options := ⟨false, false, false, false, false, false⟩

def namedOptions : Options := { plainOptions with packed := true, wcache := true }

def twoLive : List Event :=
  [.load (smallModel 0 100), .load (smallModel 1 200), .forward 0 smallCall, .forward 1 smallCall]

def oneAddress : List Event :=
  [.load (smallModel 0 100), .forward 0 smallCall, .release 0, .free 0, .load (smallModel 1 100),
    .forward 1 smallCall]

/-- Of two live models the second is served the first one's device tensors; a model at the
address of one that was released and freed is served its token embedding. -/
theorem other_model_served :
    (World.init.Along namedOptions World.Allowed twoLive ∧
      ¬ World.init.UsesOwn namedOptions twoLive) ∧
    World.init.Along plainOptions World.Allowed oneAddress ∧
      ¬ World.init.UsesOwn plainOptions oneAddress := by
  refine ⟨⟨by decide, ?_⟩, by decide, ?_⟩
  · intro h
    have hfalse : (0 : Instance) = 1 := h.2.2.2.1 1 smallCall rfl 0 (by decide)
    cases hfalse
  · intro h
    have hfalse : (0 : Instance) = 1 := h.2.2.2.2.2.1 1 smallCall rfl 0 (by decide)
    cases hfalse

/-- A release between the two models, and the release of the embedding before the reuse. -/
theorem careful_run_served :
    World.init.UsesOwn namedOptions
      [.load (smallModel 0 100), .load (smallModel 1 200), .forward 0 smallCall, .release 0,
        .forward 1 smallCall, .release 1, .free 0, .releaseEmbed, .load (smallModel 2 100),
        .forward 2 smallCall] :=
  uses_own_of_careful namedOptions _ (by decide) (by decide)

end ShannonPrime.Diffusion
