import ShannonPrime.Kv.Linked
import ShannonPrime.Kv.Run

/-!
The query peek and the calls after it. The peek runs the real step at the live
position and puts the counters back; the row, the journal entry and the token it
has written stay. `Taint` follows these cells through later calls: they get clean
when they are written again, and a journal entry gets tainted when a tainted slot is
saved in it. As long as no tainted cell is read, no later call can tell that the
peek took place.
-/

namespace ShannonPrime.Kv

variable {T X R : Type*}

/-- What a caller can see of a call: its error, the position it leaves, the rows its
attentions read, and the rows a rewind takes from the journal, layer by layer. -/
structure Observation (R : Type*) where
  err : Option String
  dpos : Nat
  reads : List (List R)
  restored : Nat → List R

/-- The journal entries a rewind writes back, the highest position first. -/
def Session.restored (g : Geometry) (s : Session T X R) (d l : Nat) : List R :=
  if g.isOwner l && g.isRinged l then
    (List.range d).map fun i => s.jkv l (s.dpos - 1 - i - s.commitPos)
  else []

/-- What a call takes from the journal when it is accepted. -/
def Call.restored (g : Geometry) (s : Session T X R) : Call T X R → Nat → List R
  | .rewind delta => s.restored g delta.toNat
  | _ => fun _ => []

/-- The cells in which the run with the peek and the run without it may differ. -/
structure Taint where
  slot : Nat → Nat → Bool
  entry : Nat → Nat → Bool
  seq : Nat → Bool
  inj : Bool

section Peek

variable (K : Kernels T X R) (g : Geometry)

def Call.observe (c : Call T X R) (s : Session T X R) : Observation R :=
  let out := c.exec K g s
  { err := out.err
    dpos := out.session.dpos
    reads := out.reads
    restored := if out.err.isNone then c.restored g s else fun _ => [] }

def observations : List (Call T X R) → Session T X R → List (Observation R)
  | [], _ => []
  | c :: rest, s => c.observe K g s :: observations rest (c.exec K g s).session

namespace Taint

/-- What a peek of `tok` on `s` leaves tainted: the live slot of every owner, the
journal entry its step used, the token it staged, and an armed residual, which its
step consumed. -/
def ofPeek [DecidableEq T] (tok : T) (s : Session T X R) : Taint where
  slot l q := g.isOwner l && q == g.slot l s.dpos
  entry l j := g.isOwner l && g.isRinged l && j == s.dpos - (s.slide g).commitPos
  seq q := q == s.dpos && s.dseq q != tok
  inj := s.inj.isSome

variable (τ : Taint)

/-- An operation reads no tainted cell. -/
def spares (s : Session T X R) : Op T X R → Bool
  | .tick _ _ =>
      !τ.seq s.dpos && !τ.inj && (List.range g.nl).all fun l =>
        (g.window l s.dpos).all fun p => p == s.dpos || !τ.slot (g.source l) (g.slot l p)
  | .undo d =>
      (List.range g.nl).all fun l => !(g.isOwner l && g.isRinged l) ||
        (List.range d).all fun i => !τ.entry l (s.dpos - 1 - i - s.commitPos)
  | _ => true

/-- What is tainted after an operation on `s`. A step that fails has stored the rows
of some layers only, so it cleans no slot, and its entry is not relied on. -/
def after (s : Session T X R) : Op T X R → Taint
  | .feed toks =>
      { τ with seq := fun q => τ.seq q && !(s.dpos ≤ q && q < s.dpos + toks.length) }
  | .tick head f =>
      let failed := (g4KvStep K g head f s).err.isSome
      { slot := fun l q =>
          τ.slot l q && (failed || !(g.isOwner l && q == g.slot l s.dpos))
        entry := fun l j =>
          if j = s.dpos - (s.slide g).commitPos then failed || τ.slot l (g.slot l s.dpos)
          else τ.entry l j
        seq := fun q => τ.seq q && (failed || !(head && q == s.dpos + 1))
        inj := false }
  | .undo d =>
      { τ with slot := fun l q =>
          τ.slot l q && !(g.isOwner l && g.isRinged l &&
            (List.range d).any fun i => q == (s.dpos - 1 - i) % g.ringW) }
  | _ => τ

/-- The taint after a queue on `s`, or `none` when it reads a tainted cell. -/
def ops : List (Op T X R) → Session T X R → Taint → Option Taint
  | [], _, τ => some τ
  | op :: rest, s, τ =>
      if τ.spares g s op then
        let out := runOp K g op s
        match out.err with
        | some _ => some (τ.after K g s op)
        | none => ops rest out.session (τ.after K g s op)
      else none

def call (c : Call T X R) (s : Session T X R) (τ : Taint) : Option Taint :=
  match c.queue K g s with
  | .error _ => some τ
  | .ok queued => ops K g queued s τ

def run : List (Call T X R) → Session T X R → Taint → Option Taint
  | [], _, τ => some τ
  | c :: rest, s, τ => (call K g c s τ).bind (run rest (c.exec K g s).session)

/-- Slots are linked to themselves while they are clean. -/
def links : Links := fun l q q' => q' = q ∧ τ.slot l q = false

end Taint

/-- `t` is `s` up to the tainted cells. -/
structure Shadowed (τ : Taint) (s t : Session T X R) : Prop where
  linked : Linked g τ.links s t
  commitPos : t.commitPos = s.commitPos
  entries : ∀ l j, g.isOwner l → g.isRinged l → τ.entry l j = false → s.jkv l j = t.jkv l j
  seq : ∀ q, τ.seq q = false → s.dseq q = t.dseq q
  inj : τ.inj = false → t.inj = s.inj

variable {g}

theorem Linked.mono {A B : Links} {s t : Session T X R} (h : Linked g A s t)
    (hsub : ∀ l, g.isOwner l → ∀ q q', B l q q' → A l q q') : Linked g B s t :=
  ⟨h.dpos, h.bxOn, fun l hl q q' hB => h.rows l hl q q' (hsub l hl q q' hB)⟩

theorem slide_commitPos_congr {s t : Session T X R} (hdpos : t.dpos = s.dpos)
    (hcommit : t.commitPos = s.commitPos) :
    (t.slide g).commitPos = (s.slide g).commitPos := by
  have hslides : t.slides g ↔ s.slides g := by
    unfold Session.slides
    rw [hdpos, hcommit]
  rw [slide_commitPos, slide_commitPos, hdpos, hcommit]
  exact if_congr hslides rfl rfl

namespace Shadowed

variable {K} {τ : Taint} {s t : Session T X R}

theorem tick (h : Shadowed g τ s t) (head : Bool) (f : Option Fault)
    (hspare : τ.spares g s (.tick head f) = true) :
    (Kv.tick K g head f s).err = (Kv.tick K g head f t).err ∧
      (Kv.tick K g head f s).reads = (Kv.tick K g head f t).reads ∧
      Shadowed g (τ.after K g s (.tick head f)) (Kv.tick K g head f s).session
        (Kv.tick K g head f t).session := by
  simp only [Taint.spares, Bool.and_eq_true, Bool.not_eq_true', List.all_eq_true, List.mem_range,
    Bool.or_eq_true, beq_iff_eq] at hspare
  obtain ⟨⟨hseq, hinj⟩, hwindow⟩ := hspare
  have hfit : τ.links.Fit g g s.dpos := by
    constructor
    · rintro l q q' ⟨rfl, _⟩
      rfl
    · intro l hl p hp hne
      exact Or.inl ⟨rfl, (hwindow l hl p hp).resolve_left hne⟩
  have htok : t.dseq s.dpos = s.dseq s.dpos := (h.seq s.dpos hseq).symm
  have hsame := SameLayers.refl g
  obtain ⟨herr, hreads, hlinked, hdseq, hdone⟩ :=
    tick_linked K hsame head f s t hfit h.linked htok (h.inj hinj)
  have hstep : (g4KvStep K g head f s).err = (g4KvStep K g head f t).err :=
    (g4KvStep_linked K hsame head f s t hfit h.linked htok (h.inj hinj)).1
  obtain ⟨row, _, hall, hcommit, hnone, _, hjkv⟩ := tick_journal K g head f s
  obtain ⟨row', _, hall', hcommit', hnone', _, hjkv'⟩ := tick_journal K g head f t
  have hbase := slide_commitPos_congr (g := g) h.linked.dpos h.commitPos
  refine ⟨herr, hreads, ?_, ?_, ?_, ?_, ?_⟩
  · cases hfail : (g4KvStep K g head f s).err with
    | some text =>
        refine hlinked.mono ?_
        rintro l _ q q' ⟨rfl, hclean⟩
        exact ⟨rfl, by simpa [Taint.after, hfail] using hclean⟩
    | none =>
        refine (hdone hfail).1.mono ?_
        rintro l howner q q' ⟨rfl, hclean⟩
        simp only [Taint.after, hfail, Option.isSome_none, Bool.false_or, howner, Bool.true_and,
          Bool.and_eq_false_iff, Bool.not_eq_false', beq_iff_eq] at hclean
        rcases hclean with hslot | rfl
        · exact Or.inl ⟨rfl, hslot⟩
        · have hl : l < g.nl := by
            simp only [Geometry.isOwner, decide_eq_true_eq] at howner
            exact howner.2
          exact Or.inr ⟨hl, rfl, rfl⟩
  · rw [hcommit, hcommit', hbase]
  · intro l j howner hringed hclean
    rw [hjkv, hjkv', hbase, h.linked.dpos]
    simp only [Taint.after] at hclean
    by_cases hj : j = s.dpos - (s.slide g).commitPos
    · -- the entry of this step: both runs saved the same row in it
      simp only [hj, if_true, Bool.or_eq_false_iff, Option.isSome_eq_false_iff,
        Option.isNone_iff_eq_none] at hclean
      obtain ⟨hok, hslot⟩ := hclean
      simp only [hringed, hall hok l howner, hall' (hstep ▸ hok) l howner, hj, true_and, if_true]
      exact h.linked.rows l howner _ _ ⟨rfl, hslot⟩
    · simp only [hj, if_false, and_false] at hclean ⊢
      exact h.entries l j howner hringed hclean
  · intro q hclean
    simp only [Taint.after, Bool.and_eq_false_iff, Bool.or_eq_false_iff, Bool.not_eq_false',
      Bool.and_eq_true, beq_iff_eq, Option.isSome_eq_false_iff, Option.isNone_iff_eq_none] at hclean
    rcases hclean with hq | ⟨hok, hhead, rfl⟩
    · exact hdseq q (h.seq q hq)
    · exact (hdone hok).2 hhead
  · intro _
    rw [hnone, hnone']

theorem feed (h : Shadowed g τ s t) (toks : List T) :
    Shadowed g (τ.after K g s (.feed toks)) (s.feed toks) (t.feed toks) := by
  refine ⟨⟨h.linked.dpos, h.linked.bxOn, h.linked.rows⟩, h.commitPos, h.entries, ?_, h.inj⟩
  intro q hclean
  simp only [Taint.after, Bool.and_eq_false_iff, Bool.not_eq_false', Bool.and_eq_true,
    decide_eq_true_eq] at hclean
  simp only [Session.feed, h.linked.dpos]
  split
  case isFalse hbelow => exact h.seq q (hclean.resolve_right fun hfed => hbelow hfed.1)
  case isTrue hlive =>
    by_cases hfed : q < s.dpos + toks.length
    · rw [List.getElem?_eq_getElem (by omega)]
      rfl
    · rw [List.getElem?_eq_none (by omega)]
      exact h.seq q (hclean.resolve_right fun hin => hfed hin.2)

theorem undo (h : Shadowed g τ s t) (d : Nat) (hspare : τ.spares g s (.undo d) = true) :
    (∀ l, s.restored g d l = t.restored g d l) ∧
      Shadowed g (τ.after K g s (.undo d)) (s.undo g d) (t.undo g d) := by
  simp only [Taint.spares, List.all_eq_true, List.mem_range, Bool.or_eq_true, Bool.not_eq_true',
    Bool.and_eq_false_iff] at hspare
  have hentry : ∀ l, g.isOwner l = true → g.isRinged l = true → ∀ i < d,
      s.jkv l (s.dpos - 1 - i - s.commitPos) = t.jkv l (s.dpos - 1 - i - s.commitPos) := by
    intro l howner hringed i hi
    have hl : l < g.nl := by
      simp only [Geometry.isOwner, decide_eq_true_eq] at howner
      exact howner.2
    rcases hspare l hl with (hfalse | hfalse) | hclean
    · simp [hfalse] at howner
    · simp [hfalse] at hringed
    · exact h.entries l _ howner hringed (hclean i hi)
  refine ⟨?_, ⟨?_, h.linked.bxOn, ?_⟩, h.commitPos, h.entries, h.seq, h.inj⟩
  · intro l
    unfold Session.restored
    rw [h.linked.dpos, h.commitPos]
    by_cases hl : (g.isOwner l && g.isRinged l) = true
    · rw [if_pos hl, if_pos hl]
      simp only [Bool.and_eq_true] at hl
      exact List.map_congr_left fun i hi => hentry l hl.1 hl.2 i (List.mem_range.mp hi)
    · rw [if_neg hl, if_neg hl]
  · simp only [Session.undo, h.linked.dpos]
  · rintro l howner q q' ⟨rfl, hclean⟩
    simp only [Taint.after, Bool.and_eq_false_iff, Bool.not_eq_false', Bool.and_eq_true,
      List.any_eq_true, List.mem_range, beq_iff_eq] at hclean
    simp only [Session.undo, h.linked.dpos, h.commitPos]
    split
    case isFalse hplain =>
      apply h.linked.rows l howner q' q'
      exact ⟨rfl, hclean.resolve_right fun hin => hplain ⟨hin.1.1, hin.1.2⟩⟩
    case isTrue hring =>
      refine UndoLog.restoreDown_congr d q' (hentry l hring.1 hring.2) ?_
      rcases hclean with hslot | ⟨_, i, hi, hq⟩
      · exact Or.inr (h.linked.rows l howner q' q' ⟨rfl, hslot⟩)
      · exact Or.inl ⟨i, hi, hq⟩

/-- The operations of the forward verbs and the undo, one at a time. -/
theorem op (h : Shadowed g τ s t) (op : Op T X R)
    (hop : op.isForward = true ∨ ∃ d, op = .undo d) (hspare : τ.spares g s op = true) :
    (runOp K g op s).err = (runOp K g op t).err ∧
      (runOp K g op s).reads = (runOp K g op t).reads ∧
      Shadowed g (τ.after K g s op) (runOp K g op s).session (runOp K g op t).session := by
  cases op with
  | feed toks => exact ⟨rfl, rfl, h.feed toks⟩
  | tick head f => exact h.tick head f hspare
  | undo d => exact ⟨rfl, rfl, (h.undo d hspare).2⟩
  | commit =>
      exact ⟨rfl, rfl, ⟨h.linked.dpos, h.linked.bxOn, h.linked.rows⟩, h.linked.dpos, h.entries,
        h.seq, h.inj⟩
  | reset => exact ⟨rfl, rfl, ⟨rfl, h.linked.bxOn, h.linked.rows⟩, rfl, h.entries, h.seq, h.inj⟩
  | _ => simp [Op.isForward] at hop

theorem ops (queued : List (Op T X R)) (τ' : Taint)
    (hqueued : ∀ op ∈ queued, op.isForward = true ∨ ∃ d, op = .undo d) (h : Shadowed g τ s t)
    (hspare : Taint.ops K g queued s τ = some τ') :
    (runOps K g queued s).err = (runOps K g queued t).err ∧
      (runOps K g queued s).reads = (runOps K g queued t).reads ∧
      Shadowed g τ' (runOps K g queued s).session (runOps K g queued t).session := by
  induction queued generalizing s t τ with
  | nil =>
      simp only [Taint.ops, Option.some.injEq] at hspare
      subst hspare
      exact ⟨rfl, rfl, h⟩
  | cons op rest ih =>
      simp only [Taint.ops] at hspare
      split at hspare
      case isFalse => simp at hspare
      case isTrue hclean =>
        obtain ⟨herr, hreads, hnext⟩ := h.op op (hqueued op (by simp)) hclean
        cases hfail : (runOp K g op s).err with
        | some text =>
            have hfail' : (runOp K g op t).err = some text := herr ▸ hfail
            simp only [hfail, Option.some.injEq] at hspare
            subst hspare
            simp only [runOps, hfail, hfail']
            exact ⟨trivial, hreads, hnext⟩
        | none =>
            have hfail' : (runOp K g op t).err = none := herr ▸ hfail
            simp only [hfail] at hspare
            obtain ⟨herr', hreads', hlast⟩ :=
              ih (fun op' hop' => hqueued op' (List.mem_cons_of_mem _ hop')) hnext hspare
            simp only [runOps, hfail, hfail']
            exact ⟨herr', by rw [hreads, hreads'], hlast⟩

/-- A forward verb checks its arguments against the counters only. -/
theorem queue_eq (h : Shadowed g τ s t) (c : Call T X R) (hc : c.isForward = true) :
    c.queue K g t = c.queue K g s := by
  have hdpos := h.linked.dpos
  have hcommit := h.commitPos
  cases c <;> simp only [Call.isForward, Bool.false_eq_true] at hc <;>
    simp only [Call.queue, gemma4KvPrefill, gemma4KvDecode, gemma4KvDecodeLogits,
      gemma4KvDecodeBatch, gemma4KvRewind, gemma4KvCommit, gemma4KvReset, hdpos, hcommit]

theorem queued_forward (s : Session T X R) (c : Call T X R) (hc : c.isForward = true)
    (queued : List (Op T X R)) (hqueue : c.queue K g s = .ok queued) :
    ∀ op ∈ queued, op.isForward = true ∨ ∃ d, op = .undo d := by
  intro op hop
  cases hplain : c.isPlain with
  | true => exact Or.inl ((plain_queue K g s c hplain queued hqueue op hop).2.1 hc)
  | false =>
      cases c <;> simp only [Call.isPlain, Call.isForward, Bool.false_eq_true, Bool.true_eq_false]
        at hplain hc
      rw [(gemma4KvRewind_ok g s _ queued hqueue).1] at hop
      exact Or.inr ⟨_, List.mem_singleton.mp hop⟩

theorem restored_eq (h : Shadowed g τ s t) (c : Call T X R) (queued : List (Op T X R))
    (hqueue : c.queue K g s = .ok queued) (τ' : Taint)
    (hspare : Taint.ops K g queued s τ = some τ') : c.restored g t = c.restored g s := by
  cases c with
  | rewind delta =>
      rw [(gemma4KvRewind_ok g s delta queued hqueue).1] at hspare
      simp only [Taint.ops] at hspare
      split at hspare
      case isFalse => simp at hspare
      case isTrue hclean => exact funext fun l => ((h.undo (K := K) _ hclean).1 l).symm
  | _ => rfl

theorem call (h : Shadowed g τ s t) (c : Call T X R) (hc : c.isForward = true) (τ' : Taint)
    (hspare : Taint.call K g c s τ = some τ') :
    c.observe K g t = c.observe K g s ∧
      Shadowed g τ' (c.exec K g s).session (c.exec K g t).session := by
  have hqueue := h.queue_eq (K := K) c hc
  cases hqueued : c.queue K g s with
  | error text =>
      rw [hqueued] at hqueue
      simp only [Taint.call, hqueued, Option.some.injEq] at hspare
      subst hspare
      refine ⟨?_, by simpa only [Call.exec, hqueued, hqueue] using h⟩
      simp [Call.observe, Call.exec, hqueued, hqueue, h.linked.dpos]
  | ok queued =>
      rw [hqueued] at hqueue
      simp only [Taint.call, hqueued] at hspare
      obtain ⟨herr, hreads, hnext⟩ := h.ops queued τ' (queued_forward s c hc queued hqueued) hspare
      have hrestored := h.restored_eq c queued hqueued τ' hspare
      refine ⟨?_, by simpa only [Call.exec, hqueued, hqueue] using hnext⟩
      simp only [Call.observe, Call.exec, hqueued, hqueue, herr, hreads, hrestored,
        hnext.linked.dpos]

theorem run (cs : List (Call T X R)) (hcs : ∀ c ∈ cs, c.isForward = true)
    (h : Shadowed g τ s t) (hspare : (Taint.run K g cs s τ).isSome = true) :
    observations K g cs t = observations K g cs s := by
  induction cs generalizing s t τ with
  | nil => rfl
  | cons c rest ih =>
      simp only [Taint.run] at hspare
      cases hcall : Taint.call K g c s τ with
      | none => simp [hcall] at hspare
      | some τ' =>
          obtain ⟨hobserve, hnext⟩ := h.call c (hcs c (by simp)) τ' hcall
          simp only [hcall, Option.bind_some] at hspare
          have hrest := ih (fun c' hc' => hcs c' (List.mem_cons_of_mem _ hc')) hnext hspare
          simp only [observations, hobserve, hrest]

end Shadowed

/-- What a peek leaves of a session: everything but a row at the live slot of owners,
an entry of the journal and the armed residual. -/
theorem peek_session (f : Option Fault) (s : Session T X R)
    (hstep : (∀ l, l ≤ g.nl → Fault.atLayer l f = none) ∨ ¬s.slides g) :
    ∃ row : Nat → Option R, (∀ l, (row l).isSome → g.isOwner l) ∧
      (peek K g f s).session =
        { (s.disarm.slide g).record g row with
          commitPos := s.commitPos, jcur := (peek K g f s).session.jcur } := by
  obtain ⟨row, dseq, hsession, hdom, _, hseq, _⟩ := g4KvStep_effect K g false f s
  have hdseq : dseq = s.dseq := funext fun q => hseq q (Or.inr rfl)
  refine ⟨row, hdom, ?_⟩
  unfold peek
  cases herr : (g4KvStep K g false f s).err with
  | none =>
      simp only [herr, hsession, hdseq]
      simp [Session.withSeq, Session.record]
  | some text =>
      have hfree : ¬s.slides g := by
        rcases hstep with hhealthy | hfree
        · rw [g4KvStep_err K g false f s hhealthy] at herr
          cases herr
        · exact hfree
      have hbase : (s.disarm.slide g).commitPos = s.commitPos := by
        rw [slide_disarm_commitPos, if_neg hfree]
      simp only [herr, hsession, hdseq]
      simp [Session.withSeq, Session.record, hbase]

theorem feed_singleton_dseq (s : Session T X R) (tok : T) (q : Nat) :
    (s.feed [tok]).dseq q = if q = s.dpos then tok else s.dseq q := by
  simp only [Session.feed]
  by_cases hq : q = s.dpos
  · simp [hq]
  · by_cases hle : s.dpos ≤ q
    · rw [if_pos hle, if_neg hq, List.getElem?_eq_none (by simp; omega)]
      rfl
    · rw [if_neg hle, if_neg hq]

/-- The session after a peek is the one before it, up to the cells the peek wrote. A
step that fails leaves the journal counters where it has moved them, so then the
journal must not have been full. -/
theorem shadowed_peek [DecidableEq T] (tok : T) (f : Option Fault) (s : Session T X R)
    (haccept : s.dpos + 1 < g.pmax)
    (hstep : (∀ l, l ≤ g.nl → Fault.atLayer l f = none) ∨ ¬s.slides g) :
    Shadowed g (Taint.ofPeek g tok s) s ((Call.readGlobalQ tok f).exec K g s).session := by
  have hexec : ((Call.readGlobalQ tok f).exec K g s).session =
      (peek K g f (s.feed [tok])).session := by
    have hroom : ¬g.pmax ≤ s.dpos + 1 := by omega
    simp only [Call.exec, Call.queue, gemma4KvReadGlobalQ, hroom, if_false, runOps, runOp]
    cases (peek K g f (s.feed [tok])).err <;> rfl
  obtain ⟨row, hdom, hsession⟩ := peek_session K f (s.feed [tok]) hstep
  rw [hexec, hsession]
  have hbase : ((s.feed [tok]).disarm.slide g).commitPos = (s.slide g).commitPos := by
    rw [slide_disarm_commitPos, slide_commitPos]
    rfl
  constructor
  · constructor
    · simp [Session.feed]
    · simp [Session.feed]
    · rintro l howner q q' ⟨rfl, hclean⟩
      have hne : q' ≠ g.slot l s.dpos := by
        rintro rfl
        simp [Taint.ofPeek, howner] at hclean
      change s.kv l q' = (((s.feed [tok]).disarm.slide g).record g row).kv l q'
      rw [record_kv, slide_dpos, slide_kv]
      exact (if_neg hne).symm
  · rfl
  · intro l j howner hringed hclean
    have hne : j ≠ s.dpos - (s.slide g).commitPos := by
      rintro rfl
      simp [Taint.ofPeek, howner, hringed] at hclean
    change s.jkv l j = (((s.feed [tok]).disarm.slide g).record g row).jkv l j
    rw [record_jkv, slide_dpos, slide_jkv, hbase, if_neg fun hentry => hne hentry.2.2]
    rfl
  · intro q hclean
    change s.dseq q = (((s.feed [tok]).disarm.slide g).record g row).dseq q
    rw [record_dseq, slide_dseq, disarm_dseq, feed_singleton_dseq]
    simp only [Taint.ofPeek, Bool.and_eq_false_iff, bne_eq_false_iff_eq, beq_eq_false_iff_ne]
      at hclean
    split
    case isTrue hq => exact hclean.resolve_left fun hne => hne hq
    case isFalse => rfl
  · intro hclean
    simp only [Taint.ofPeek, Option.isSome_eq_false_iff, Option.isNone_iff_eq_none] at hclean
    change (((s.feed [tok]).disarm.slide g).record g row).inj = s.inj
    rw [record_inj, slide_inj, hclean]
    rfl

/-- A peek cannot be observed by later prefill, decode, rewind, commit and reset calls
that read none of the cells it has left tainted: they return the same errors and
positions, read the same rows and restore the same ones. -/
theorem peek_transparent [DecidableEq T] (tok : T) (f : Option Fault) (s : Session T X R)
    (cs : List (Call T X R)) (haccept : s.dpos + 1 < g.pmax)
    (hcs : ∀ c ∈ cs, c.isForward = true)
    (hstep : (∀ l, l ≤ g.nl → Fault.atLayer l f = none) ∨ ¬s.slides g)
    (hspare : (Taint.run K g cs s (Taint.ofPeek g tok s)).isSome = true) :
    observations K g cs ((Call.readGlobalQ tok f).exec K g s).session =
      observations K g cs s :=
  (shadowed_peek K tok f s haccept hstep).run cs hcs hspare

end Peek

/-- Three tokens in a ring of two slots and a journal of four entries. -/
def threeTokens : Session Nat Unit Nat :=
  ((Call.prefill [1, 2, 3] noFaults).exec (posKernels 0)
    (soloGeometry 2 8 2 4 (by decide) (by decide))
    (Session.opened (fun _ => 0) (fun _ _ => 100) (fun _ _ => 200))).session

/-- A prefill after the peek writes all its cells again; the entry with the peek's row
is left behind by the commit. -/
theorem peek_transparent_prefill :
    observations (posKernels 0) (soloGeometry 2 8 2 4 (by decide) (by decide))
        [.prefill [4, 5] noFaults, .rewind 1, .commit, .decode 2 noFaults, .rewind 2]
        ((Call.readGlobalQ 9 none).exec (posKernels 0)
          (soloGeometry 2 8 2 4 (by decide) (by decide)) threeTokens).session =
      observations (posKernels 0) (soloGeometry 2 8 2 4 (by decide) (by decide))
        [.prefill [4, 5] noFaults, .rewind 1, .commit, .decode 2 noFaults, .rewind 2]
        threeTokens :=
  peek_transparent (posKernels 0) 9 none threeTokens _ (by decide) (by decide)
    (Or.inl fun _ _ => rfl) (by decide)

/-- After a peek at position 3 of the ring, a prefill of one token and a rewind of
one put the peek's row where position 1 was. -/
theorem rewind_restores_peeked_row :
    observations (posKernels 0) (soloGeometry 2 8 2 4 (by decide) (by decide))
        [.prefill [4] noFaults, .rewind 1]
        ((Call.readGlobalQ 9 none).exec (posKernels 0)
          (soloGeometry 2 8 2 4 (by decide) (by decide)) threeTokens).session ≠
      observations (posKernels 0) (soloGeometry 2 8 2 4 (by decide) (by decide))
        [.prefill [4] noFaults, .rewind 1] threeTokens := by
  intro h
  have hrestored := congrArg (List.map fun o => o.restored 0) h
  exact absurd hrestored (by decide)

end ShannonPrime.Kv
