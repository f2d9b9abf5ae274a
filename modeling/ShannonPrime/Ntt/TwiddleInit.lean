import ShannonPrime.Lib.Owned
import ShannonPrime.Ntt.Twiddle

/-!
The six twiddle contexts of the skeleton and their arenas (`sp_compute_ntt_twiddle.c`). The
manager of the VTCM may deny any request; a denial rolls back whatever was granted. There is
no call that releases the tables: an arena is given back in a roll back only.
-/

namespace ShannonPrime.Ntt

open Function (update)
open Ownership (Owned)

/-- The prime and the length of a context. -/
abbrev Key := Prime × Size

/-- An entry of `g_tw_ctx`; `context` is what it says of its tables. -/
structure Entry where
  present : Bool
  vtcmBase : Nat
  vtcmSize : Nat
  context : Option Context

/-- An entry set to zero. -/
def Entry.zero : Entry := ⟨false, 0, 0, none⟩

/-- The manager: what `HAP_request_VTCM` answers, by the allocations of the contexts that are
outstanding and the number of requests before this one, and what a granted arena contains. A
denial is no address, and an address that is granted is not null and not outstanding. -/
structure VtcmManager where
  request : List Nat → Nat → Nat → Option Nat
  fresh : ∀ held asked bytes p, request held asked bytes = some p → p ≠ 0 ∧ p ∉ held
  contents : Nat → Nat → Nat

structure TwState where
  entries : Key → Entry
  held : List Nat
  asked : Nat

/-- The skeleton when it is loaded. -/
def TwState.loaded : TwState := ⟨fun _ => Entry.zero, [], 0⟩

/-- `HAP_release_VTCM`; to give back what is not outstanding has no result. -/
def releaseVtcm (st : TwState) (p : Nat) : Option TwState :=
  if p ∈ st.held then some { st with held := st.held.erase p } else none

/-- `sp_tw_arena_size_bytes` -/
def arenaSizeBytes (N : Nat) : Nat :=
  (4 * N + 4 * N + 4 * (N / 2) + 4 * (N / 2) + 4 * (N - 1) + 4 * (N - 1) + 127) / 128 * 128

/-- `sp_tw_init_one` on an entry of the table. -/
def twInitOne (m : VtcmManager) (st : TwState) (k : Key) : Option (TwState × Bool) :=
  if (st.entries k).present then some (st, true)
  else if k.1.modulus.findPsi k.2.len = 0 then some (st, false)
  else
    match m.request st.held st.asked (arenaSizeBytes k.2.len) with
    | none => some ({ st with asked := st.asked + 1 }, false)
    | some p =>
        match initOne k.1 k.2 (m.contents p) with
        | none => do
            let st' ← releaseVtcm { st with held := p :: st.held, asked := st.asked + 1 } p
            let cleared := { st.entries k with vtcmBase := 0, vtcmSize := 0 }
            some ({ st' with entries := update st'.entries k cleared }, false)
        | some c =>
            some ({ entries := update st.entries k ⟨true, p, arenaSizeBytes k.2.len, some c⟩
                    held := p :: st.held
                    asked := st.asked + 1 }, true)

/-- The entries in the order of the loops. -/
def keys : List Key :=
  [Prime.first, .second].flatMap fun p => [Size.n128, .n256, .n512].map fun size => (p, size)

/-- The loops of `sp_tw_init_all`, up to the first failure. -/
def twInitEach (m : VtcmManager) : List Key → TwState → Option (TwState × Bool)
  | [], st => some (st, true)
  | k :: ks, st => do
      let r ← twInitOne m st k
      if r.2 then twInitEach m ks r.1 else some (r.1, false)

/-- One entry of the roll back. -/
def twDrop (st : TwState) (k : Key) : Option TwState := do
  let c := st.entries k
  let st' ← if c.present && c.vtcmBase != 0 then releaseVtcm st c.vtcmBase else some st
  some { st' with entries := update st'.entries k Entry.zero }

/-- `sp_tw_init_all` -/
def twInitAll (m : VtcmManager) (st : TwState) : Option (TwState × Int) := do
  let r ← twInitEach m keys st
  if r.2 then some (r.1, 0)
  else do
    let st' ← keys.foldlM twDrop r.1
    some (st', -1)

/-- `sp_compute_ntt_twiddle_init` -/
def nttTwiddleInit (m : VtcmManager) (st : TwState) (N : Int) : Option (TwState × Int) :=
  if N ≠ 128 ∧ N ≠ 256 ∧ N ≠ 512 then some (st, -1)
  else if keys.all fun k => (st.entries k).present then some (st, 0)
  else do
    let r ← twInitAll m st
    some (r.1, if r.2 ≠ 0 then -1 else 0)

/-- Calls one after another, by the lengths they ask for. -/
def twRun (m : VtcmManager) (st : TwState) (calls : List Int) : Option TwState :=
  calls.foldlM (fun st N => (nttTwiddleInit m st N).map (·.1)) st

/-! What a state owns -/

namespace TwState

/-- The arena of a context that is present. -/
def slots (st : TwState) (k : Key) : Option Nat :=
  if (st.entries k).present then some (st.entries k).vtcmBase else none

/-- All the contexts, or none of them. -/
def Whole (st : TwState) : Prop :=
  (∀ k, (st.entries k).present = true) ∨ ∀ k, (st.entries k).present = false

/-- The arenas of the present contexts are what is outstanding, and hold their tables. -/
structure Sound (st : TwState) : Prop where
  owned : Owned st.slots st.held
  nonNull : ∀ k, (st.entries k).present = true → (st.entries k).vtcmBase ≠ 0
  built : ∀ k, (st.entries k).present = true →
    ∃ c, (st.entries k).context = some c ∧ c.Built k.1 k.2

theorem slots_present {st : TwState} {k : Key} (h : (st.entries k).present = true) :
    st.slots k = some (st.entries k).vtcmBase := if_pos h

theorem slots_absent {st : TwState} {k : Key} (h : ¬ (st.entries k).present = true) :
    st.slots k = none := if_neg h

/-- The slots after an entry is written. -/
theorem slots_update (st : TwState) (k : Key) (e : Entry) (held : List Nat) (asked : Nat) :
    slots ⟨update st.entries k e, held, asked⟩ =
      update st.slots k (if e.present then some e.vtcmBase else none) := by
  funext k'
  rcases eq_or_ne k' k with rfl | hne
  · simp only [slots, Function.update_self]
  · simp only [slots, Function.update_of_ne hne]

theorem sound_loaded : loaded.Sound where
  owned := Ownership.Owned.empty
  nonNull k h := by cases h
  built k h := by cases h

end TwState

theorem mem_keys (k : Key) : k ∈ keys := by
  obtain ⟨p, size⟩ := k
  cases p <;> cases size <;> decide

variable {m : VtcmManager} {st : TwState} {k : Key}

/-- A present context is kept, a granted arena becomes one, and a denial changes nothing but
the count of requests: finding a root and laying out the tables never fail. -/
theorem twInitOne_cases (m : VtcmManager) (st : TwState) (k : Key) :
    ((st.entries k).present = true ∧ twInitOne m st k = some (st, true)) ∨
    ((st.entries k).present = false ∧
      twInitOne m st k = some ({ st with asked := st.asked + 1 }, false)) ∨
    ∃ p c, (st.entries k).present = false ∧ p ≠ 0 ∧ p ∉ st.held ∧ c.Built k.1 k.2 ∧
      twInitOne m st k = some
        (⟨update st.entries k ⟨true, p, arenaSizeBytes k.2.len, some c⟩, p :: st.held,
          st.asked + 1⟩, true) := by
  rw [twInitOne]
  split
  · rename_i hpresent
    exact Or.inl ⟨hpresent, rfl⟩
  · rename_i habsent
    have hfalse : (st.entries k).present = false := Bool.eq_false_of_not_eq_true habsent
    rw [if_neg (findPsi_ne_zero k.1 k.2)]
    cases hrequest : m.request st.held st.asked (arenaSizeBytes k.2.len) with
    | none => exact Or.inr (Or.inl ⟨hfalse, rfl⟩)
    | some p =>
        obtain ⟨hnull, hfresh⟩ := m.fresh _ _ _ _ hrequest
        obtain ⟨c, hc, hbuilt⟩ := initOne_spec k.1 k.2 (m.contents p)
        dsimp only
        rw [hc]
        exact Or.inr (Or.inr ⟨p, c, hfalse, hnull, hfresh, hbuilt, rfl⟩)

theorem twInitOne_sound (h : st.Sound) : ∃ st' ok, twInitOne m st k = some (st', ok) ∧
    st'.Sound ∧ (∀ k', (st.entries k').present = true → (st'.entries k').present = true) ∧
    (ok = true → (st'.entries k).present = true) := by
  rcases twInitOne_cases m st k with ⟨hpresent, hrun⟩ | ⟨habsent, hrun⟩ |
    ⟨p, c, habsent, hnull, hfresh, hbuilt, hrun⟩
  · exact ⟨st, true, hrun, h, fun _ hk => hk, fun _ => hpresent⟩
  · exact ⟨_, false, hrun, ⟨h.owned, h.nonNull, h.built⟩, fun _ hk => hk, nofun⟩
  · refine ⟨_, true, hrun, ?_, ?_, fun _ => ?_⟩
    · constructor
      case owned =>
        rw [TwState.slots_update]
        exact h.owned.acquire (TwState.slots_absent (by rw [habsent]; decide)) hfresh
      case nonNull =>
        intro k' hk'
        rcases eq_or_ne k' k with rfl | hne
        · simpa only [Function.update_self] using hnull
        · simp only [Function.update_of_ne hne] at hk' ⊢
          exact h.nonNull k' hk'
      case built =>
        intro k' hk'
        rcases eq_or_ne k' k with rfl | hne
        · exact ⟨c, by simp only [Function.update_self], hbuilt⟩
        · simp only [Function.update_of_ne hne] at hk' ⊢
          exact h.built k' hk'
    · intro k' hk'
      rcases eq_or_ne k' k with rfl | hne
      · simp only [Function.update_self]
      · simpa only [Function.update_of_ne hne] using hk'
    · simp only [Function.update_self]

/-- The loops keep a sound state sound, and without a failure every context is present. -/
theorem twInitEach_sound (ks : List Key) (h : st.Sound) :
    ∃ st' ok, twInitEach m ks st = some (st', ok) ∧ st'.Sound ∧
      (∀ k', (st.entries k').present = true → (st'.entries k').present = true) ∧
      (ok = true → ∀ k ∈ ks, (st'.entries k).present = true) := by
  induction ks generalizing st with
  | nil => exact ⟨st, true, rfl, h, fun _ hk => hk, fun _ k hk => absurd hk List.not_mem_nil⟩
  | cons k ks ih =>
      obtain ⟨mid, ok, hone, hmid, hkeep, hpresent⟩ := twInitOne_sound (m := m) (k := k) h
      rw [twInitEach, hone, Option.bind_eq_bind, Option.bind_some]
      cases ok with
      | false => exact ⟨mid, false, rfl, hmid, hkeep, nofun⟩
      | true =>
          obtain ⟨st', ok, hrest, hst', hkeep', hall⟩ := ih hmid
          refine ⟨st', ok, hrest, hst', fun k' hk' => hkeep' k' (hkeep k' hk'),
            fun hok k' hk' => ?_⟩
          rcases List.mem_cons.mp hk' with rfl | hrest
          · exact hkeep' k' (hpresent rfl)
          · exact hall hok k' hrest

/-! The roll back -/

/-- An entry of the roll back gives its arena back, which is outstanding, and ends absent. -/
theorem twDrop_sound (h : st.Sound) : ∃ st', twDrop st k = some st' ∧ st'.Sound ∧
    st'.entries = update st.entries k Entry.zero := by
  have hkept : ∀ {held asked}, Owned (update st.slots k none) held →
      TwState.Sound ⟨update st.entries k Entry.zero, held, asked⟩ := by
    intro held asked howned
    constructor
    case owned =>
      rw [TwState.slots_update]
      exact howned
    case nonNull =>
      intro k' hk'
      rcases eq_or_ne k' k with rfl | hne
      · simp only [Function.update_self] at hk'
        cases hk'
      · simp only [Function.update_of_ne hne] at hk' ⊢
        exact h.nonNull k' hk'
    case built =>
      intro k' hk'
      rcases eq_or_ne k' k with rfl | hne
      · simp only [Function.update_self] at hk'
        cases hk'
      · simp only [Function.update_of_ne hne] at hk' ⊢
        exact h.built k' hk'
  rw [twDrop]
  dsimp only
  split
  · rename_i hheld
    have hpresent : (st.entries k).present = true := (Bool.and_eq_true_iff.mp hheld).1
    have hslot := TwState.slots_present hpresent
    rw [releaseVtcm, if_pos (h.owned.mem_held hslot)]
    exact ⟨_, rfl, hkept (h.owned.release hslot), rfl⟩
  · rename_i hfree
    have habsent : ¬ (st.entries k).present = true := by
      intro hpresent
      apply hfree
      rw [hpresent, Bool.true_and, bne_iff_ne]
      exact h.nonNull k hpresent
    have hslots : update st.slots k none = st.slots := by
      rw [← TwState.slots_absent habsent, Function.update_eq_self]
    exact ⟨_, rfl, hkept (by rw [hslots]; exact h.owned), rfl⟩

/-- The roll back of some entries: they end absent, and no other becomes present. -/
theorem rollBack_sound (ks : List Key) (h : st.Sound) :
    ∃ st', ks.foldlM twDrop st = some st' ∧ st'.Sound ∧
      ∀ k, (k ∈ ks ∨ (st.entries k).present = false) → (st'.entries k).present = false := by
  induction ks generalizing st with
  | nil => exact ⟨st, rfl, h, fun k hk => hk.resolve_left List.not_mem_nil⟩
  | cons k ks ih =>
      obtain ⟨mid, hdrop, hmid, hentries⟩ := twDrop_sound (k := k) h
      obtain ⟨st', hrest, hst', habsent⟩ := ih hmid
      rw [List.foldlM_cons, hdrop]
      refine ⟨st', hrest, hst', fun k' hk' => habsent k' ?_⟩
      rw [hentries]
      rcases eq_or_ne k' k with rfl | hne
      · exact Or.inr (by rw [Function.update_self]; rfl)
      · rw [Function.update_of_ne hne]
        exact hk'.imp_left fun hmem => (List.mem_cons.mp hmem).resolve_left hne

/-! The calls -/

/-- A call ends: with all the contexts and 0, or with none of them and -1; a length it does not
know leaves the state. -/
theorem nttTwiddleInit_sound (N : Int) (h : st.Sound) (hwhole : st.Whole) :
    ∃ st' rc, nttTwiddleInit m st N = some (st', rc) ∧ st'.Sound ∧ st'.Whole ∧
      (rc = 0 → ∀ k, (st'.entries k).present = true) ∧
      (rc ≠ 0 → st' = st ∨ ∀ k, (st'.entries k).present = false) := by
  rw [nttTwiddleInit]
  split
  · exact ⟨st, -1, rfl, h, hwhole, nofun, fun _ => Or.inl rfl⟩
  · split
    · rename_i hall
      have hpresent : ∀ k, (st.entries k).present = true := fun k =>
        List.all_eq_true.mp hall k (mem_keys k)
      exact ⟨st, 0, rfl, h, hwhole, fun _ => hpresent, fun hne => absurd rfl hne⟩
    · obtain ⟨mid, ok, heach, hmid, -, hall⟩ := twInitEach_sound (m := m) keys h
      rw [twInitAll, heach]
      cases ok with
      | true =>
          have hpresent : ∀ k, (mid.entries k).present = true := fun k =>
            hall rfl k (mem_keys k)
          exact ⟨mid, 0, rfl, hmid, Or.inl hpresent, fun _ => hpresent, fun hne => absurd rfl hne⟩
      | false =>
          obtain ⟨st', hback, hst', habsent⟩ := rollBack_sound keys hmid
          have hnone : ∀ k, (st'.entries k).present = false := fun k =>
            habsent k (Or.inl (mem_keys k))
          simp only [Option.bind_eq_bind, Bool.false_eq_true, if_false, hback, Option.bind_some]
          exact ⟨st', -1, rfl, hst', Or.inr hnone, nofun, fun _ => Or.inr hnone⟩

theorem twRun_sound (calls : List Int) (h : st.Sound) (hwhole : st.Whole) :
    ∃ st', twRun m st calls = some st' ∧ st'.Sound ∧ st'.Whole := by
  induction calls generalizing st with
  | nil => exact ⟨st, rfl, h, hwhole⟩
  | cons N calls ih =>
      obtain ⟨mid, rc, hcall, hmid, hwhole', -⟩ := nttTwiddleInit_sound (m := m) N h hwhole
      obtain ⟨st', hrest, hst', hend⟩ := ih hmid hwhole'
      refine ⟨st', ?_, hst', hend⟩
      rw [twRun, List.foldlM_cons, hcall]
      exact hrest

/-- Whatever is denied, after any calls all six contexts are present or none is, what is
outstanding is their arenas, one each, and the run has a result: nothing is given back that is
not outstanding. -/
theorem twiddle_all_or_nothing (m : VtcmManager) (calls : List Int) :
    ∃ st, twRun m TwState.loaded calls = some st ∧
      ((∀ k, (st.entries k).present = true) ∨ ∀ k, (st.entries k).present = false) ∧
      st.held.Nodup ∧
      (∀ a, a ∈ st.held ↔ ∃ k, (st.entries k).present = true ∧ (st.entries k).vtcmBase = a) ∧
      ∀ k k', (st.entries k).present = true → (st.entries k').present = true →
        (st.entries k).vtcmBase = (st.entries k').vtcmBase → k = k' := by
  obtain ⟨st, hrun, hsound, hwhole⟩ :=
    twRun_sound (m := m) calls TwState.sound_loaded (Or.inr fun _ => rfl)
  refine ⟨st, hrun, hwhole, hsound.owned.nodup, fun a => ?_, fun k k' hk hk' hbase => ?_⟩
  · rw [hsound.owned.held_iff]
    simp only [TwState.slots, Option.ite_none_right_eq_some, Option.some.injEq]
  · apply hsound.owned.single k k' _ (TwState.slots_present hk)
    rw [TwState.slots_present hk', hbase]

/-- A manager that denies one request. -/
def denyAt (n : Nat) : VtcmManager where
  request held asked _ := if asked = n then none else some (held.sum + 1)
  fresh held asked _ p h := by
    rw [Option.ite_none_left_eq_some] at h
    obtain rfl : held.sum + 1 = p := Option.some.inj h.2
    refine ⟨Nat.succ_ne_zero _, fun hmem => ?_⟩
    have hle : held.sum + 1 ≤ held.sum := List.single_le_sum (fun _ _ => Nat.zero_le _) _ hmem
    omega
  contents _ _ := 0

/-- The fourth request denied, and a second call. -/
theorem twiddle_all_or_nothing_denied : ∃ st, twRun (denyAt 3) TwState.loaded [128, 512] = some st ∧
    ((∀ k, (st.entries k).present = true) ∨ ∀ k, (st.entries k).present = false) := by
  obtain ⟨st, hrun, hwhole, -⟩ := twiddle_all_or_nothing (denyAt 3) [128, 512]
  exact ⟨st, hrun, hwhole⟩

end ShannonPrime.Ntt
