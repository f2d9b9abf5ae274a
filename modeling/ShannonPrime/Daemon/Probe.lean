import ShannonPrime.Kv.Anchor

/-!
The daemon's speculative probes of the resident cache. A candidate episode is
replayed above the live position, a payload is decoded twice (the second time with
some of the episode's rows zeroed), and everything is rewound. The three callers
differ in which candidates they skip, in the first token and in the payload.
-/

namespace ShannonPrime.Daemon

open Kv

variable {T X R : Type*}

/-- An episode up for a probe, the secret resolved for it, and what the device does
to the steps of its two payload decodes. -/
structure Candidate (T R : Type*) where
  npos : Int
  gkEmpty : Bool
  ep : Kv.Episode R
  eptok : List T
  secret : List T
  leg1 : Script
  leg2 : Script

/-- The episode positions whose token is wanted, twelve at most. -/
def targets [DecidableEq T] (eptok want : List T) (npos : Nat) : List Nat :=
  (((eptok.take npos).zipIdx.filter fun (t, _) => want.contains t).map Prod.snd).take 12

section Probes

variable (K : Kernels T X R) (g : Geometry)

/-- Decode up to `k` tokens, each chosen after the step before it; a failing step ends
the payload and is not counted. -/
def payload (fs : Script) (choose : Nat → Session T X R → T) :
    Nat → Nat → T → Session T X R → Session T X R × List T
  | _, 0, _, s => (s, [])
  | i, k + 1, tok, s =>
      let out := (Call.decodeLogits tok (fs i)).exec K g s
      match out.err with
      | some _ => (out.session, [])
      | none =>
          let next := choose i out.session
          let (last, gen) := payload fs choose (i + 1) k next out.session
          (last, next :: gen)

/-- A rewind whose result is ignored. -/
def rewindBy (d : Nat) (s : Session T X R) : Session T X R :=
  ((Call.rewind d).exec K g s).session

/-- One probe: replay, payload, rewind the payload, zero the episode rows whose tokens
occur in the payload from index `w0` on, the same payload again, rewind everything. -/
def knockout [DecidableEq T] (anchor : Nat) (seed : T) (w0 count : Nat)
    (choose : Nat → Session T X R → T) (c : Candidate T R) (s : Session T X R) : Session T X R :=
  let out := (Call.replay c.ep c.npos false).exec K g s
  match out.err with
  | some _ => out.session
  | none =>
      let (s₁, gen) := payload K g c.leg1 choose 0 count seed out.session
      let s₂ := rewindBy K g gen.length s₁
      if gen.isEmpty then rewindBy K g c.npos.toNat s₂
      else
        let rows := targets c.eptok (gen.drop (min w0 gen.length)) c.npos.toNat
        let s₃ := ((Call.ablateRows anchor rows).exec K g s₂).session
        let (s₄, lpa) := payload K g c.leg2 (fun i _ => gen.getD i seed) 0 gen.length seed s₃
        rewindBy K g (lpa.length + c.npos.toNat) s₄

/-- Teacher forcing: the payload is the secret. -/
def forced (seed : T) (c : Candidate T R) (i : Nat) (_ : Session T X R) : T :=
  c.secret.getD i seed

def int2Skips (jmax : Int) (c : Candidate T R) : Bool :=
  c.npos ≤ 0 || c.gkEmpty || (c.secret.isEmpty || c.eptok.isEmpty) ||
    jmax < c.npos + c.secret.length

/-- One candidate of the INT2 stage-2 loop. -/
def int2Step [DecidableEq T] (jmax : Int) (last : T) (anchor : Nat) (s : Session T X R)
    (c : Candidate T R) : Session T X R :=
  if int2Skips jmax c then s
  else knockout K g anchor last 0 c.secret.length (forced last c) c s

/-- The INT2 stage-2 loop. -/
def int2Stage2 [DecidableEq T] (jmax : Int) (last : T) (cs : List (Candidate T R))
    (s : Session T X R) : Session T X R :=
  cs.foldl (int2Step K g jmax last s.dpos) s

/-- The length of the disposer's greedy payload. -/
def kgen : Nat := 8

def disposerSkips (c : Candidate T R) : Bool := c.npos ≤ 0 || c.gkEmpty

/-- One candidate of the disposer's ablation gate. Without a secret it decodes
greedily: `pick` is its argmax over the logits of the step just made. -/
def disposerStep [DecidableEq T] (pick : Session T X R → T) (last : T) (anchor : Nat)
    (s : Session T X R) (c : Candidate T R) : Session T X R :=
  if disposerSkips c then s
  else if c.secret.isEmpty then knockout K g anchor last 2 kgen (fun _ => pick) c s
  else knockout K g anchor last 0 c.secret.length (forced last c) c s

/-- The disposer's ablation gate. -/
def disposer [DecidableEq T] (pick : Session T X R → T) (last : T) (cs : List (Candidate T R))
    (s : Session T X R) : Session T X R :=
  cs.foldl (disposerStep K g pick last s.dpos) s

/-- The curator's probe of one episode, on a cache it opens for it; the payload starts
from the episode's last token. -/
def curatorAdmit [DecidableEq T] (c : Candidate T R) (s : Session T X R) : Session T X R :=
  match c.eptok.getLast? with
  | none => s
  | some seed =>
      if c.secret.isEmpty then s
      else knockout K g s.dpos seed 0 c.secret.length (forced seed c) c s

/-! ### When a probe can be undone -/

/-- The steps of a payload of `k` that succeed. -/
def succeeded (fs : Script) : Nat → Nat → Nat
  | _, 0 => 0
  | i, k + 1 => if Fault.fails g (fs i) then 0 else succeeded fs (i + 1) k + 1

/-- Every step the payload reaches from position `d` on spares the rows readable from
the anchor `a`. -/
def stepsSpare (fs : Script) (a : Nat) : Nat → Nat → Nat → Bool
  | _, _, 0 => true
  | i, d, k + 1 =>
      Fault.spares g a d (fs i) && (Fault.fails g (fs i) || stepsSpare fs a (i + 1) (d + 1) k)

/-- The probe of `c` with a payload of `count` undoes itself, from an anchor `a` with
the journal at `commitPos`: its steps spare the readable rows, and on a ring its
positions fit the journal, together with the uncommitted positions below unless
their slots are apart from the readable ones. -/
def Candidate.undone (a commitPos count : Nat) (c : Candidate T R) : Bool :=
  let base := a + c.npos.toNat
  let tried := min count (g.pmax - 1 - base)
  let ng := succeeded g c.leg1 0 tried
  let n := c.npos.toNat + min tried (ng + 1)
  stepsSpare g c.leg1 a 0 base tried && stepsSpare g c.leg2 a 0 base ng &&
    (g.ringW == 0 || (n ≤ g.jmax && (a - commitPos + n ≤ g.jmax || g.apart a n)))

/-- Every candidate of a loop passes its check `ok` when its turn comes. -/
def runUndone (step : Session T X R → Candidate T R → Session T X R)
    (ok : Session T X R → Candidate T R → Bool) : List (Candidate T R) → Session T X R → Bool
  | [], _ => true
  | c :: cs, s => ok s c && runUndone step ok cs (step s c)

/-- The replay refuses the episode. -/
def Candidate.refused (c : Candidate T R) (s : Session T X R) : Bool :=
  match (Call.replay c.ep c.npos false).queue K g s with
  | .error _ => true
  | .ok _ => false

def int2Undone (jmax : Int) (s : Session T X R) (c : Candidate T R) : Bool :=
  int2Skips jmax c || (c.refused K g s || c.undone g s.dpos s.commitPos c.secret.length)

def disposerUndone (s : Session T X R) (c : Candidate T R) : Bool :=
  disposerSkips c || (c.refused K g s ||
    c.undone g s.dpos s.commitPos (if c.secret.isEmpty then kgen else c.secret.length))

def admitUndone (s : Session T X R) (c : Candidate T R) : Bool :=
  c.secret.isEmpty || c.eptok.isEmpty ||
    (c.refused K g s || c.undone g s.dpos s.commitPos c.secret.length)

variable {K} {g} {s₀ s : Session T X R} {n : Nat}

theorem anchored_payload (h : Anchored g s₀ n s) (fs : Script) (choose : Nat → Session T X R → T)
    (i k : Nat) (tok : T)
    (hspan : 0 < g.ringW → n ≤ g.jmax ∧
      (s₀.dpos - s₀.commitPos + n ≤ g.jmax ∨ g.apart s₀.dpos n = true))
    (tried : Nat) (htried : tried = min k (g.pmax - 1 - s.dpos))
    (hsafe : stepsSpare g fs s₀.dpos i s.dpos tried = true)
    (hroom : s.dpos + min tried (succeeded g fs i tried + 1) ≤ s₀.dpos + n) :
    Anchored g s₀ n (payload K g fs choose i k tok s).1 ∧
      (payload K g fs choose i k tok s).2.length = succeeded g fs i tried ∧
      (payload K g fs choose i k tok s).1.dpos = s.dpos + succeeded g fs i tried := by
  induction k generalizing i tok s tried with
  | zero =>
      have hzero : tried = 0 := by omega
      subst hzero
      exact ⟨h, rfl, rfl⟩
  | succ k ih =>
      have hexec := decodeLogits_exec K g tok (fs i) s
      simp only [Daemon.payload]
      split at hexec
      case isFalse hfull =>
        -- the cache is full: the step is refused before the device sees it
        have hzero : tried = 0 := by omega
        subst hzero
        obtain ⟨herr, hsession⟩ := hexec
        cases hout : ((Call.decodeLogits tok (fs i)).exec K g s).err with
        | none => exact absurd hout herr
        | some text => exact ⟨by rw [hsession]; exact h, rfl, by rw [hsession]; rfl⟩
      case isTrue hfree =>
        obtain ⟨herr, hsession⟩ := hexec
        obtain ⟨rest, rfl⟩ : ∃ rest, tried = rest + 1 := ⟨tried - 1, by omega⟩
        simp only [stepsSpare, Bool.and_eq_true, Bool.or_eq_true] at hsafe
        obtain ⟨hstep, hmove, hdpos⟩ := (h.feed [tok]).tick K (fs i)
          (by change s.dpos < _; omega) hspan hsafe.1
        rw [← hsession] at hstep hdpos
        rw [← herr] at hmove
        change _ = s.dpos + _ at hdpos
        cases hfails : Fault.fails g (fs i) with
        | true =>
            cases hout : ((Call.decodeLogits tok (fs i)).exec K g s).err with
            | none => simp [hmove.mp hout] at hfails
            | some text => exact ⟨hstep, by simp [succeeded, hfails], by simp [succeeded, hfails, hdpos]⟩
        | false =>
            rw [hmove.mpr hfails]
            simp only [hfails, Bool.false_eq_true, if_false] at hdpos
            simp only [succeeded, hfails, Bool.false_eq_true, if_false] at hroom ⊢
            obtain ⟨hlast, hlen, hend⟩ := ih hstep (i + 1) (choose i _) rest (by omega)
              (by rw [hdpos]; exact hsafe.2.resolve_left (by simp [hfails]))
              (by rw [hdpos]; omega)
            refine ⟨hlast, by simp [hlen], ?_⟩
            rw [hend, hdpos]
            omega

theorem succeeded_le (fs : Script) (i k : Nat) : succeeded g fs i k ≤ k := by
  induction k generalizing i with
  | zero => exact Nat.le_refl _
  | succ k ih =>
      simp only [succeeded]
      split
      · exact Nat.zero_le _
      · exact Nat.succ_le_succ (ih (i + 1))

/-- The position and every row readable from it are back. -/
def Pristine (g : Geometry) (s t : Session T X R) : Prop :=
  t.dpos = s.dpos ∧ s.SameReadable g s.dpos t

theorem Pristine.refl (s : Session T X R) : Pristine g s s := ⟨rfl, fun _ _ _ => rfl⟩

theorem Pristine.trans {t r : Session T X R} (h : Pristine g s t) (h' : Pristine g t r) :
    Pristine g s r := by
  refine ⟨h'.1.trans h.1, ?_⟩
  intro l q hread
  have hread' : g.readable t.dpos l q = true := by rw [h.1]; exact hread
  exact (h'.2 l q hread').trans (h.2 l q hread)

theorem pristine_of_anchored {t : Session T X R} (h : Anchored g s n t) (hback : t.dpos = s.dpos) :
    Pristine g s t ∧ Spanning g t :=
  ⟨⟨hback, h.sameReadable hback⟩, fun hw => by rw [hback]; exact h.base hw⟩

/-- A loop whose steps leave no trace, each from the session the ones before left,
leaves none. -/
theorem loop_pristine (step : Session T X R → Candidate T R → Session T X R)
    (ok : Session T X R → Candidate T R → Bool) (anchor : Nat)
    (hstep : ∀ s c, Spanning g s → s.dpos = anchor → ok s c = true →
      Pristine g s (step s c) ∧ Spanning g (step s c))
    (cs : List (Candidate T R)) (hspan : Spanning g s) (hat : s.dpos = anchor)
    (hok : runUndone step ok cs s = true) : Pristine g s (cs.foldl step s) := by
  induction cs generalizing s with
  | nil => exact .refl s
  | cons c cs ih =>
      simp only [runUndone, Bool.and_eq_true] at hok
      obtain ⟨hone, hspan'⟩ := hstep s c hspan hat hok.1
      exact hone.trans (ih hspan' (hone.1.trans hat) hok.2)

variable [DecidableEq T]

theorem targets_lt (eptok want : List T) (npos : Nat) :
    ∀ p ∈ targets eptok want npos, p < npos := by
  intro p hp
  obtain ⟨⟨t, p'⟩, hmem, rfl⟩ := List.mem_map.mp (List.mem_of_mem_take hp)
  have hlt := List.snd_lt_of_mem_zipIdx (List.mem_of_mem_filter hmem)
  have hlen := List.length_take_le npos eptok
  omega

/-- A probe that can be undone, or whose replay is refused, leaves no trace. -/
theorem knockout_anchored (hspan : Spanning g s) (seed : T) (w0 count : Nat)
    (choose : Nat → Session T X R → T) (c : Candidate T R)
    (hundone : (c.refused K g s || c.undone g s.dpos s.commitPos count) = true) :
    ∃ n, Anchored g s n (knockout K g s.dpos seed w0 count choose c s) ∧
      (knockout K g s.dpos seed w0 count choose c s).dpos = s.dpos := by
  set tried := min count (g.pmax - 1 - (s.dpos + c.npos.toNat)) with htried
  set ng := succeeded g c.leg1 0 tried with hng
  set n := c.npos.toNat + min tried (ng + 1) with hn
  refine ⟨n, ?_⟩
  have hstart : Anchored g s n s := .refl hspan
  have hreplay := hstart.replay K c.ep c.npos false (by omega)
  unfold knockout
  cases hqueue : (Call.replay c.ep c.npos false).queue K g s with
  | error text =>
      rw [hqueue] at hreplay
      cases herr : ((Call.replay c.ep c.npos false).exec K g s).err with
      | none => exact absurd herr hreplay.1
      | some text =>
          simp only [herr, hreplay.2]
          exact ⟨hstart, trivial⟩
  | ok ops =>
      rw [hqueue] at hreplay
      obtain ⟨herr, hrows, hbase⟩ := hreplay
      simp only [Candidate.refused, hqueue, Bool.false_or, Candidate.undone, Bool.and_eq_true,
        Bool.or_eq_true, beq_iff_eq, decide_eq_true_eq] at hundone
      rw [← htried, ← hng, ← hn] at hundone
      obtain ⟨⟨hleg1, hleg2⟩, hjournal⟩ := hundone
      have hfits : 0 < g.ringW → n ≤ g.jmax ∧
          (s.dpos - s.commitPos + n ≤ g.jmax ∨ g.apart s.dpos n = true) := by
        intro hw
        exact hjournal.resolve_left (by omega)
      simp only [herr]
      generalize ((Call.replay c.ep c.npos false).exec K g s).session = s₁ at hrows hbase ⊢
      -- the first payload, and its rewind
      obtain ⟨hpay, hlen, hend⟩ := anchored_payload hrows c.leg1 choose 0 count seed hfits tried
        (by rw [hbase]) (by rw [hbase]; exact hleg1) (by rw [hbase]; omega)
      rw [← hng] at hlen hend
      have hngle : ng ≤ tried := succeeded_le c.leg1 0 tried
      generalize payload K g c.leg1 choose 0 count seed s₁ = paid at hpay hlen hend ⊢
      obtain ⟨s₂, gen⟩ := paid
      dsimp only at hpay hlen hend ⊢
      obtain ⟨hback, hback_dpos⟩ := hpay.rewind K gen.length (by omega)
      change Anchored g s n (rewindBy K g gen.length s₂) at hback
      change (rewindBy K g gen.length s₂).dpos = _ at hback_dpos
      generalize rewindBy K g gen.length s₂ = s₃ at hback hback_dpos ⊢
      by_cases hempty : gen.isEmpty = true
      · rw [if_pos hempty]
        obtain ⟨hlast, hlast_dpos⟩ := hback.rewind K c.npos.toNat (by omega)
        exact ⟨hlast, hlast_dpos.trans (by omega)⟩
      · rw [if_neg hempty]
        -- the ablated rows are the episode's, below the live position
        have hrange := targets_lt c.eptok (gen.drop (min w0 gen.length)) c.npos.toNat
        obtain ⟨hcut, hcut_dpos⟩ := hback.ablate K
          (targets c.eptok (gen.drop (min w0 gen.length)) c.npos.toNat)
          (fun p hp => by have := hrange p hp; omega)
        generalize ((Call.ablateRows s.dpos _).exec K g s₃).session = s₄ at hcut hcut_dpos ⊢
        have hat : s₄.dpos = s.dpos + c.npos.toNat := by omega
        have hcap : ng ≤ g.pmax - 1 - (s.dpos + c.npos.toNat) :=
          hngle.trans (Nat.min_le_right _ _)
        obtain ⟨hpay', hlen', hend'⟩ := anchored_payload hcut c.leg2 (fun i _ => gen.getD i seed) 0
          gen.length seed hfits ng (by rw [hat, hlen, Nat.min_eq_left hcap])
          (by rw [hat]; exact hleg2)
          (by rw [hat]; omega)
        generalize payload K g c.leg2 _ 0 gen.length seed s₄ = paid' at hpay' hlen' hend' ⊢
        obtain ⟨s₅, lpa⟩ := paid'
        dsimp only at hpay' hlen' hend' ⊢
        obtain ⟨hlast, hlast_dpos⟩ := hpay'.rewind K (lpa.length + c.npos.toNat) (by omega)
        exact ⟨hlast, hlast_dpos.trans (by omega)⟩

theorem int2Step_pristine (jmax : Int) (last : T) (s : Session T X R) (c : Candidate T R)
    (hspan : Spanning g s) (hok : int2Undone K g jmax s c = true) :
    Pristine g s (int2Step K g jmax last s.dpos s c) ∧
      Spanning g (int2Step K g jmax last s.dpos s c) := by
  unfold int2Step
  split
  case isTrue => exact ⟨.refl s, hspan⟩
  case isFalse hskip =>
    have hundone := (Bool.or_eq_true _ _ ▸ hok).resolve_left hskip
    obtain ⟨n, hanchored, hback⟩ := knockout_anchored hspan last 0 c.secret.length
      (forced last c) c hundone
    exact pristine_of_anchored hanchored hback

theorem disposerStep_pristine (pick : Session T X R → T) (last : T) (s : Session T X R)
    (c : Candidate T R) (hspan : Spanning g s) (hok : disposerUndone K g s c = true) :
    Pristine g s (disposerStep K g pick last s.dpos s c) ∧
      Spanning g (disposerStep K g pick last s.dpos s c) := by
  unfold disposerStep
  split
  case isTrue => exact ⟨.refl s, hspan⟩
  case isFalse hskip =>
    have hundone := (Bool.or_eq_true _ _ ▸ hok).resolve_left hskip
    split
    case isTrue hsecret =>
      rw [if_pos hsecret] at hundone
      obtain ⟨n, hanchored, hback⟩ := knockout_anchored hspan last 2 kgen (fun _ => pick) c hundone
      exact pristine_of_anchored hanchored hback
    case isFalse hsecret =>
      rw [if_neg hsecret] at hundone
      obtain ⟨n, hanchored, hback⟩ := knockout_anchored hspan last 0 c.secret.length
        (forced last c) c hundone
      exact pristine_of_anchored hanchored hback

theorem curatorAdmit_pristine (s : Session T X R) (c : Candidate T R) (hspan : Spanning g s)
    (hok : admitUndone K g s c = true) : Pristine g s (curatorAdmit K g c s) := by
  simp only [admitUndone, Bool.or_eq_true, List.isEmpty_iff] at hok
  unfold curatorAdmit
  cases hlast : c.eptok.getLast? with
  | none => exact .refl s
  | some seed =>
      dsimp only
      split
      case isTrue => exact .refl s
      case isFalse hsecret =>
        have heptok : c.eptok ≠ [] := by
          intro hnil
          simp [hnil] at hlast
        obtain ⟨n, hanchored, hback⟩ := knockout_anchored hspan seed 0 c.secret.length
          (forced seed c) c (by
            rcases hok with (hnil | hnil) | hundone
            · exact absurd (by simp [hnil]) hsecret
            · exact absurd hnil heptok
            · simpa [Bool.or_eq_true] using hundone)
        exact (pristine_of_anchored hanchored hback).1

variable (K) (g)

/-- Speculative probing leaves the resident cache pristine. From the session after any
run of calls, the INT2 loop, the disposer and the curator's probe give back the
position and every row readable from it, for every list of candidates each of which,
when its turn comes, is skipped, refused by the replay, or can be undone. -/
theorem probes_pristine (dseq : Nat → T) (kv jkv : Nat → Nat → R) (calls : List (Call T X R))
    (jmax : Int) (last : T) (pick : Session T X R → T) (cs : List (Candidate T R)) :
    let s := (Session.opened dseq kv jkv).after K g calls
    (runUndone (int2Step K g jmax last s.dpos) (int2Undone K g jmax) cs s = true →
      Pristine g s (int2Stage2 K g jmax last cs s)) ∧
    (runUndone (disposerStep K g pick last s.dpos) (disposerUndone K g) cs s = true →
      Pristine g s (disposer K g pick last cs s)) ∧
    ∀ c, admitUndone K g s c = true → Pristine g s (curatorAdmit K g c s) := by
  intro s
  have hopened : Spanning g (Session.opened dseq kv jkv : Session T X R) := fun _ => Nat.le_refl _
  have hspan : Spanning g s := hopened.run K calls
  refine ⟨?_, ?_, fun c hok => curatorAdmit_pristine s c hspan hok⟩
  · intro hok
    refine loop_pristine _ _ s.dpos ?_ cs hspan rfl hok
    intro s' c hspan' hat hok'
    rw [← hat]
    exact int2Step_pristine jmax last s' c hspan' hok'
  · intro hok
    refine loop_pristine _ _ s.dpos ?_ cs hspan rfl hok
    intro s' c hspan' hat hok'
    rw [← hat]
    exact disposerStep_pristine pick last s' c hspan' hok'

end Probes

/-- A ring of two slots and a journal of `jmax` entries, three of them in use. -/
def probedGeometry (jmax : Nat) (hj : 0 < jmax) : Kv.Geometry :=
  soloGeometry 2 16 2 jmax hj (by decide)

/-- An episode of two positions with the secret `[9]`. -/
def shortCandidate : Candidate Nat Nat :=
  ⟨2, false, ⟨none, 2, none, fun _ p => 50 + p⟩, [7, 9], [9], noFaults, noFaults⟩

/-- The three probes of one short candidate after a prefill of three tokens: six
uncommitted positions fit a journal of eight. -/
theorem probes_pristine_short :
    let K := posKernels 0
    let g := probedGeometry 8 (by decide)
    let s := (Session.opened (fun _ => 0) (fun _ _ => 100) (fun _ _ => 200)).after K g
      [.prefill [1, 2, 3] noFaults]
    Pristine g s (int2Stage2 K g 8 3 [shortCandidate] s) ∧
      Pristine g s (disposer K g (fun _ => 0) 3 [shortCandidate] s) ∧
      Pristine g s (curatorAdmit K g shortCandidate s) := by
  intro K g s
  obtain ⟨hint2, hdisposer, hadmit⟩ := probes_pristine K g (fun _ => 0) (fun _ _ => 100)
    (fun _ _ => 200) [.prefill [1, 2, 3] noFaults] 8 3 (fun _ => 0) [shortCandidate]
  constructor
  · exact hint2 (by decide)
  constructor
  · exact hdisposer (by decide)
  · exact hadmit shortCandidate (by decide)

/-- One position and a secret of three tokens pass the check against a journal of five,
but three uncommitted positions lie below: the journal slides under the payload and
the rewinds put a foreign row into the slot of position 2. -/
theorem int2Stage2_not_pristine :
    let K := posKernels 0
    let g := probedGeometry 5 (by decide)
    let s := (Session.opened (fun _ => 0) (fun _ _ => 100) (fun _ _ => 200)).after K g
      [.prefill [1, 2, 3] noFaults]
    let c : Candidate Nat Nat :=
      ⟨1, false, ⟨none, 1, none, fun _ p => 50 + p⟩, [7], [7, 8, 9], noFaults, noFaults⟩
    int2Skips 5 c = false ∧ c.refused K g s = false ∧ ¬Pristine g s (int2Stage2 K g 5 3 [c] s) := by
  intro K g s c
  refine ⟨by decide, by decide, ?_⟩
  rintro ⟨_, hrows⟩
  exact absurd (hrows 0 0 (by decide)) (by decide)

end ShannonPrime.Daemon
