import ShannonPrime.Kv.Context

/-!
The device indices of a run. Every verb checks its room, some so that the cache may be filled to
its end and some so that one position stays free; the head writes its token one position past the
one it consumes. The indices stay inside exactly when no prefill fills the cache to its end.
-/

namespace ShannonPrime.Kv

variable {T X R : Type*}

/-- The places of `dseq` that an operation at position `pos` reads or writes. -/
def Op.seqIndices (pos : Nat) : Op T X R → List Nat
  | .feed toks => List.range' pos toks.length
  | .tick head _ => pos :: if head then [pos + 1] else []
  | .peek _ => [pos]
  | .sink toks => List.range toks.length
  | _ => []

/-- The slots of a full cache that an operation at position `pos` writes. -/
def Op.fullSlots (g : Geometry) (pos : Nat) : Op T X R → List Nat
  | .tick _ _ | .peek _ | .put _ => [pos]
  | .sink toks => List.range toks.length
  | .attenuate base n => List.range' base n
  | .ablate base ps => (ps.map (base + ·)).filter (· < g.pmax)
  | _ => []

def Op.indices (g : Geometry) (pos : Nat) (op : Op T X R) : List Nat :=
  op.seqIndices pos ++ op.fullSlots g pos

/-- Where an operation that returns 0 leaves the position. -/
def Op.posAfter (pos : Nat) : Op T X R → Nat
  | .tick _ _ | .put _ => pos + 1
  | .undo d => pos - d
  | .reset | .resetCold => 0
  | .sink toks => toks.length
  | _ => pos

section Indices

variable (K : Kernels T X R) (g : Geometry)

/-- The indices of a queue, up to its first failure. -/
def opsIndices : List (Op T X R) → Session T X R → List Nat
  | [], _ => []
  | op :: rest, s =>
      let out := runOp K g op s
      op.indices g s.dpos ++ if out.err.isNone then opsIndices rest out.session else []

def Call.indices (c : Call T X R) (s : Session T X R) : List Nat :=
  match c.queue K g s with
  | .error _ => []
  | .ok ops => opsIndices K g ops s

/-- The indices of a run, in order. -/
def runIndices : List (Call T X R) → Session T X R → List Nat
  | [], _ => []
  | c :: rest, s => c.indices K g s ++ runIndices rest (c.exec K g s).session

/-- The indices of a queue that returns 0, by positions alone. -/
def queueIndices (pos : Nat) : List (Op T X R) → List Nat
  | [] => []
  | op :: rest => op.indices g pos ++ queueIndices (op.posAfter pos) rest

theorem runOp_dpos (op : Op T X R) (s : Session T X R) (hok : (runOp K g op s).err = none) :
    (runOp K g op s).session.dpos = op.posAfter s.dpos := by
  cases op with
  | tick head f =>
      obtain ⟨hpass, hdpos, -, -⟩ := tick_counters K g head f s
      rw [runOp] at hok ⊢
      rw [hdpos, halts_of_passes (hpass.mp hok)]
      rfl
  | peek f =>
      obtain ⟨row, hsession, -, -⟩ := peek_effect K g f s hok
      rw [runOp, hsession]
      exact slide_dpos g s.disarm
  | _ => rfl

def queuePos (pos : Nat) (ops : List (Op T X R)) : Nat :=
  ops.foldl Op.posAfter pos

/-- A queue that returns 0 is known by its positions. -/
theorem opsIndices_ok (ops : List (Op T X R)) (s : Session T X R)
    (hok : (runOps K g ops s).err = none) :
    opsIndices K g ops s = queueIndices g s.dpos ops ∧
      (runOps K g ops s).session.dpos = queuePos s.dpos ops := by
  induction ops generalizing s with
  | nil => exact ⟨rfl, rfl⟩
  | cons op rest ih =>
      obtain ⟨hone, hrest⟩ := runOps_cons_ok K g op rest s hok
      obtain ⟨hindices, hpos⟩ := ih _ hrest
      have hdpos := runOp_dpos K g op s hone
      rw [hdpos] at hindices hpos
      constructor
      · simp only [opsIndices, hone, Option.isNone_none, if_true, hindices, queueIndices]
      · rw [runOps_cons_session K g op rest s hone, hpos]
        rfl

theorem queueIndices_append (pos : Nat) (ops ops' : List (Op T X R)) :
    queueIndices g pos (ops ++ ops') =
      queueIndices g pos ops ++ queueIndices g (queuePos pos ops) ops' := by
  induction ops generalizing pos with
  | nil => rfl
  | cons op rest ih =>
      rw [List.cons_append, queueIndices, queueIndices, ih, List.append_assoc]
      rfl

theorem queuePos_append (pos : Nat) (ops ops' : List (Op T X R)) :
    queuePos pos (ops ++ ops') = queuePos (queuePos pos ops) ops' := List.foldl_append

/-- Parts of a queue that move one position each, with indices below `c` past it. -/
theorem parts_indices {β : Type*} {f : β → List (Op T X R)} {c : Nat}
    (hpos : ∀ b pos, queuePos pos (f b) = pos + 1)
    (hf : ∀ b pos, ∀ x ∈ queueIndices g pos (f b), x < pos + 1 + c) (l : List β) (pos : Nat) :
    queuePos pos (l.flatMap f) = pos + l.length ∧
      ∀ x ∈ queueIndices g pos (l.flatMap f), x < pos + l.length + c := by
  induction l generalizing pos with
  | nil => exact ⟨rfl, fun x hx => nomatch hx⟩
  | cons b l ih =>
      obtain ⟨hend, hrest⟩ := ih (pos + 1)
      rw [List.flatMap_cons, queuePos_append, queueIndices_append, hpos, hend, List.length_cons]
      refine ⟨by omega, fun x hx => ?_⟩
      rcases List.mem_append.mp hx with hfirst | hlater
      · have hlt := hf b pos x hfirst
        omega
      · have hlt := hrest x hlater
        omega

/-- The last part reaches one position past itself. -/
theorem parts_last {β : Type*} {f : β → List (Op T X R)}
    (hpos : ∀ b pos, queuePos pos (f b) = pos + 1)
    (hf : ∀ b pos, pos + 1 ∈ queueIndices g pos (f b)) {l : List β} (hl : l ≠ []) (pos : Nat) :
    pos + l.length ∈ queueIndices g pos (l.flatMap f) := by
  induction l generalizing pos with
  | nil => exact absurd rfl hl
  | cons b l ih =>
      rw [List.flatMap_cons, queueIndices_append, hpos, List.length_cons]
      rcases eq_or_ne l [] with rfl | hmore
      · exact List.mem_append_left _ (hf b pos)
      · have hlast := ih hmore (pos + 1)
        rw [show pos + (l.length + 1) = pos + 1 + l.length by omega]
        exact List.mem_append_right _ hlast

theorem map_eq_flatMap {β : Type*} (f : β → Op T X R) (l : List β) :
    l.map f = l.flatMap fun b => [f b] := List.map_eq_flatMap

end Indices

section Calls

variable (K : Kernels T X R) (g : Geometry)

/-- A prefill, of whatever kind, that ends at the end of the cache. -/
def Call.fills (s : Session T X R) : Call T X R → Prop
  | .prefill toks _ => s.dpos + toks.length = g.pmax
  | .injectTokens toks _ _ => s.dpos + toks.length = g.pmax
  | .injectSeq frames _ _ => s.dpos + frames.length = g.pmax
  | _ => False

/-- What is said of a queue: where it ends, and when its indices are inside. -/
def QueueInside (pos : Nat) (ops : List (Op T X R)) (fills : Prop) : Prop :=
  queuePos pos ops ≤ g.pmax ∧ ((∀ i ∈ queueIndices g pos ops, i < g.pmax) ↔ ¬fills)

variable {g}

theorem feed_indices (pos : Nat) (toks : List T) :
    queueIndices (X := X) (R := R) g pos [.feed toks] = List.range' pos toks.length := by
  simp [queueIndices, Op.indices, Op.seqIndices, Op.fullSlots]

theorem tick_indices (pos : Nat) (head : Bool) (f : Option Fault) :
    queueIndices g pos [(.tick head f : Op T X R)] =
      pos :: (if head then [pos + 1] else []) ++ [pos] := by
  simp [queueIndices, Op.indices, Op.seqIndices, Op.fullSlots]

/-- A queue that reaches no further than its end, which fits. -/
theorem QueueInside.short {pos : Nat} {ops : List (Op T X R)} (hend : queuePos pos ops ≤ g.pmax)
    (hinside : ∀ i ∈ queueIndices g pos ops, i < g.pmax) :
    QueueInside g pos ops False :=
  ⟨hend, fun _ h => h, fun _ => hinside⟩

/-- A queue whose head reaches one place past its end, which fits. -/
theorem QueueInside.reaching {pos n : Nat} {ops : List (Op T X R)}
    (hend : queuePos pos ops = pos + n) (hfits : pos + n ≤ g.pmax)
    (hinside : ∀ i ∈ queueIndices g pos ops, i < pos + n + 1)
    (hlast : pos + n ∈ queueIndices g pos ops) :
    QueueInside g pos ops (pos + n = g.pmax) := by
  refine ⟨hend ▸ hfits, fun hall hfull => ?_, fun hfree i hi => ?_⟩
  · have hlt := hall _ hlast
    omega
  · have hlt := hinside i hi
    omega

/-- Operations behind a queue that move nothing and touch only what is inside. -/
theorem QueueInside.append {pos : Nat} {ops ops' : List (Op T X R)} {fills : Prop}
    (h : QueueInside g pos ops fills) (hstay : queuePos (queuePos pos ops) ops' = queuePos pos ops)
    (hinside : ∀ i ∈ queueIndices g (queuePos pos ops) ops', i < g.pmax) :
    QueueInside g pos (ops ++ ops') fills := by
  obtain ⟨hend, hiff⟩ := h
  refine ⟨by rwa [queuePos_append, hstay], ?_⟩
  rw [queueIndices_append, List.forall_mem_append, hiff]
  exact and_iff_left hinside

/-- The steps of a prefill before its last, and of a replay, stay behind their end. -/
theorem ticks_short (n k : Nat) (hk : k < n) (fs : Script) (pos : Nat) :
    queuePos pos ((List.range k).map fun i => (.tick (i + 1 == n) (fs i) : Op T X R)) = pos + k ∧
      ∀ x ∈ queueIndices g pos
          ((List.range k).map fun i => (.tick (i + 1 == n) (fs i) : Op T X R)), x < pos + k := by
  have hheads : (List.range k).map (fun i => (.tick (i + 1 == n) (fs i) : Op T X R)) =
      (List.range k).map fun i => .tick false (fs i) := by
    apply List.map_congr_left
    intro i hi
    have hlt := List.mem_range.mp hi
    rw [show (i + 1 == n) = false by simp; omega]
  rw [hheads, map_eq_flatMap]
  have hparts := parts_indices (g := g) (c := 0)
    (f := fun i => [(.tick false (fs i) : Op T X R)]) (fun _ _ => rfl)
    (fun i p x hx => by
      rw [tick_indices] at hx
      simp at hx
      omega) (List.range k) pos
  simpa only [List.length_range, Nat.add_zero] using hparts

theorem prefill_inside {toks : List T} (fs : Script) {pos : Nat} (hne : toks ≠ [])
    (hfits : pos + toks.length ≤ g.pmax) :
    QueueInside g pos (.feed toks :: prefillTicks toks.length fs : List (Op T X R))
      (pos + toks.length = g.pmax) := by
  obtain ⟨k, hk⟩ : ∃ k, toks.length = k + 1 :=
    ⟨toks.length - 1, by have := List.length_pos_of_ne_nil hne; omega⟩
  obtain ⟨hpos, hbefore⟩ := ticks_short (g := g) (X := X) (T := T) (R := R) (k + 1) k
    (Nat.lt_succ_self k) fs pos
  have hqueue : (.feed toks :: prefillTicks toks.length fs : List (Op T X R)) =
      [.feed toks] ++ ((List.range k).map (fun i => .tick (i + 1 == k + 1) (fs i)) ++
        [.tick true (fs k)]) := by
    rw [prefillTicks, hk, List.range_succ, List.map_append]
    simp
  have hfeed : queuePos pos [(.feed toks : Op T X R)] = pos := rfl
  have hindices : queueIndices g pos (.feed toks :: prefillTicks toks.length fs : List (Op T X R)) =
      List.range' pos toks.length ++ (queueIndices g pos
        ((List.range k).map fun i => (.tick (i + 1 == k + 1) (fs i) : Op T X R)) ++
          [pos + k, pos + k + 1, pos + k]) := by
    rw [hqueue, queueIndices_append, queueIndices_append, hfeed, hpos, feed_indices, tick_indices]
    rfl
  have hend : queuePos pos (.feed toks :: prefillTicks toks.length fs : List (Op T X R)) =
      pos + toks.length := by
    rw [hqueue, queuePos_append, queuePos_append, hfeed, hpos, hk]
    rfl
  refine .reaching hend hfits (fun i hi => ?_) ?_
  · rw [hindices] at hi
    rcases List.mem_append.mp hi with hfed | hi
    · have hrange := (List.mem_range'_1.mp hfed).2
      omega
    · rcases List.mem_append.mp hi with hearly | hlast
      · have hlt := hbefore i hearly
        omega
      · simp at hlast
        omega
  · rw [hindices, hk]
    simp [Nat.add_assoc]

/-- Parts that each step once with the head on. -/
theorem heads_inside {β : Type*} {f : β → List (Op T X R)} {l : List β} (pos : Nat)
    (hpos : ∀ b p, queuePos p (f b) = p + 1)
    (hf : ∀ b p, ∀ x, x ∈ queueIndices g p (f b) ↔ x = p ∨ x = p + 1) :
    (pos + l.length < g.pmax → QueueInside g pos (l.flatMap f) False) ∧
      (l ≠ [] → pos + l.length ≤ g.pmax →
        QueueInside g pos (l.flatMap f) (pos + l.length = g.pmax)) := by
  obtain ⟨hend, hinside⟩ := parts_indices (g := g) (c := 1) hpos
    (fun b p x hx => by
      rcases (hf b p x).mp hx with rfl | rfl <;> omega) l pos
  constructor
  · intro hroom
    refine .short (by omega) fun i hi => ?_
    have hlt := hinside i hi
    omega
  · intro hne hfits
    refine .reaching hend hfits hinside (parts_last g hpos (fun b p => ?_) hne pos)
    exact (hf b p (p + 1)).mpr (Or.inr rfl)

/-- Every frame of `inject_seq` has passed the room check of its own prefill. -/
theorem injectSeq_room (K : Kernels T X R) (ph : T) (fs : Script) (text : String)
    (l : List (X × Nat)) (s : Session T X R) (hs : s.dpos ≤ g.pmax)
    (hok : (runOps K g (l.flatMap fun (frame, i) =>
      [.arm frame, .room text, .feed [ph], .tick true (fs i)]) s).err = none) :
    s.dpos + l.length ≤ g.pmax := by
  induction l generalizing s with
  | nil => exact hs
  | cons b l ih =>
      obtain ⟨frame, i⟩ := b
      obtain ⟨_, hroom⟩ := runOps_cons_ok K g _ _ _ hok
      obtain ⟨hroom, hfeed⟩ := runOps_cons_ok K g _ _ _ hroom
      obtain ⟨_, htick⟩ := runOps_cons_ok K g _ _ _ hfeed
      obtain ⟨hstep, hrest⟩ := runOps_cons_ok K g _ _ _ htick
      have hfits : s.dpos + 1 ≤ g.pmax := by
        by_contra hfull
        have hfull : g.pmax < s.dpos + 1 := by omega
        simp [runOp, hfull] at hroom
      have hdpos := runOp_dpos K g _ _ hstep
      change _ = s.dpos + 1 at hdpos
      have hlast := ih _ (hdpos ▸ hfits) hrest
      rw [hdpos] at hlast
      rw [List.length_cons]
      omega

/-- The queue of a call that returns 0. -/
theorem queue_inside (K : Kernels T X R) (c : Call T X R) {s : Session T X R}
    (hs : s.dpos ≤ g.pmax) {ops : List (Op T X R)} (hqueue : c.queue K g s = .ok ops)
    (hok : (runOps K g ops s).err = none) :
    QueueInside g s.dpos ops (c.fills g s) := by
  cases c with
  | prefill toks fs =>
      simp only [Call.queue, gemma4KvPrefill, ite_error_eq_ok, Except.ok.injEq] at hqueue
      obtain ⟨hne, hfits, rfl⟩ := hqueue
      exact prefill_inside fs (by simpa using hne) (by omega)
  | decode nGen fs =>
      simp only [Call.queue, gemma4KvDecode, ite_error_eq_ok, Except.ok.injEq] at hqueue
      obtain ⟨hnGen, hroom, rfl⟩ := hqueue
      rw [map_eq_flatMap]
      refine (heads_inside _ (fun _ _ => rfl) fun i p x => ?_).1 ?_
      · simp [tick_indices]
        omega
      · rw [List.length_range]
        omega
  | decodeLogits tok f =>
      simp only [Call.queue, gemma4KvDecodeLogits, ite_error_eq_ok, Except.ok.injEq] at hqueue
      obtain ⟨hroom, rfl⟩ := hqueue
      refine .short (by simp [queuePos, Op.posAfter]; omega) fun i hi => ?_
      simp [queueIndices, Op.indices, Op.seqIndices, Op.fullSlots, Op.posAfter] at hi
      omega
  | decodeBatch toks fs =>
      simp only [Call.queue, gemma4KvDecodeBatch, ite_error_eq_ok, Except.ok.injEq] at hqueue
      obtain ⟨hne, hroom, rfl⟩ := hqueue
      refine (heads_inside _ (fun _ _ => rfl) fun b p x => ?_).1 ?_
      · simp [queueIndices, Op.indices, Op.seqIndices, Op.fullSlots, Op.posAfter]
        omega
      · rw [List.length_zipIdx]
        omega
  | rewind delta =>
      obtain ⟨rfl, hle, _⟩ := gemma4KvRewind_ok g s delta ops hqueue
      exact .short (by simp [queuePos, Op.posAfter]; omega) fun i hi => by
        simp [queueIndices, Op.indices, Op.seqIndices, Op.fullSlots] at hi
  | prefillBatched toks decline =>
      obtain ⟨rfl, hcold, hne, hfits⟩ := gemma4KvPrefillBatched_ok g s toks decline ops hqueue
      exact .short (by simpa [queuePos, Op.posAfter] using hfits) fun i hi => by
        simp [queueIndices, Op.indices, Op.seqIndices, Op.fullSlots] at hi
        omega
  | injectTokens toks atten fs =>
      simp only [Call.queue, gemma4KvInjectTokens, ite_error_eq_ok, Except.ok.injEq] at hqueue
      obtain ⟨hne, hfits, rfl⟩ := hqueue
      have hrun := (heads_inside (g := g) (l := toks.zipIdx)
        (f := fun (tok, i) => [.arm (K.embed tok), .feed [tok],
          (.tick true (fs i) : Op T X R)]) s.dpos (fun _ _ => rfl) fun b p x => by
            simp [queueIndices, Op.indices, Op.seqIndices, Op.fullSlots, Op.posAfter]
            omega).2
        (by simpa using hne) (by rw [List.length_zipIdx]; omega)
      rw [List.length_zipIdx] at hrun
      cases atten with
      | false => simpa [Call.fills] using hrun
      | true =>
          refine hrun.append (by rfl) fun i hi => ?_
          simp [queueIndices, Op.indices, Op.seqIndices, Op.fullSlots] at hi
          omega
  | injectSeq frames ph fs =>
      simp only [Call.queue, gemma4KvInjectSeq, ite_error_eq_ok, Except.ok.injEq] at hqueue
      obtain ⟨hne, rfl⟩ := hqueue
      have hfits := injectSeq_room K ph fs _ frames.zipIdx s hs hok
      have hrun := (heads_inside (g := g) (l := frames.zipIdx)
        (f := fun (frame, i) => [.arm frame, .room "gemma4_kv_prefill: exceeds Pmax", .feed [ph],
          (.tick true (fs i) : Op T X R)]) s.dpos (fun _ _ => rfl) fun b p x => by
            simp [queueIndices, Op.indices, Op.seqIndices, Op.fullSlots, Op.posAfter]
            omega).2
        (by simpa using hne) hfits
      rw [List.length_zipIdx] at hrun
      exact hrun
  | replay ep npos zero =>
      obtain ⟨row, rfl, _, hfits, _⟩ := gemma4KvReplay_ok g s ep npos _ ops hqueue
      rw [map_eq_flatMap]
      obtain ⟨hend, hinside⟩ := parts_indices (g := g) (c := 0)
        (f := fun p => [(.put (row p) : Op T X R)]) (fun _ _ => rfl)
        (fun p pos x hx => by
          simp [queueIndices, Op.indices, Op.seqIndices, Op.fullSlots] at hx
          omega) (List.range npos.toNat) s.dpos
      rw [List.length_range] at hend hinside
      refine .short (by omega) fun i hi => ?_
      have hlt := hinside i hi
      omega
  | ablateRows base pos =>
      obtain rfl : [.ablate base pos] = ops := Except.ok.inj hqueue
      exact .short hs fun i hi => by
        simp [queueIndices, Op.indices, Op.seqIndices, Op.fullSlots] at hi
        exact hi.2
  | readGlobalQ tok f =>
      simp only [Call.queue, gemma4KvReadGlobalQ, ite_error_eq_ok, Except.ok.injEq] at hqueue
      obtain ⟨hroom, rfl⟩ := hqueue
      refine .short hs fun i hi => ?_
      simp [queueIndices, Op.indices, Op.seqIndices, Op.fullSlots, Op.posAfter] at hi
      omega
  | commit | reset | resetCold | byteexactSet on =>
      obtain rfl := Except.ok.inj hqueue
      exact .short (by simp [queuePos, Op.posAfter, hs]) fun i hi => by
        simp [queueIndices, Op.indices, Op.seqIndices, Op.fullSlots] at hi

/-- One call that returns 0. -/
theorem call_inside (K : Kernels T X R) (c : Call T X R) {s : Session T X R}
    (hs : s.dpos ≤ g.pmax) (hok : (c.exec K g s).err = none) :
    (c.exec K g s).session.dpos ≤ g.pmax ∧
      ((∀ i ∈ c.indices K g s, i < g.pmax) ↔ ¬c.fills g s) := by
  cases hqueue : c.queue K g s with
  | error text => simp [Call.exec, hqueue] at hok
  | ok ops =>
      simp only [Call.exec, Call.indices, hqueue] at hok ⊢
      obtain ⟨hindices, hdpos⟩ := opsIndices_ok K g ops s hok
      rw [hindices, hdpos]
      exact queue_inside K c hs hqueue hok

end Calls

section Runs

variable (K : Kernels T X R) (g : Geometry)

/-- Some prefill of the run ends at the end of the cache. -/
def runFills : List (Call T X R) → Session T X R → Prop
  | [], _ => False
  | c :: rest, s => c.fills g s ∨ runFills rest (c.exec K g s).session

/-- A refused rewind does nothing. -/
theorem rewind_refused {c : Call T X R} (hc : c.isRewind = true) {s : Session T X R}
    {text : String} (herr : (c.exec K g s).err = some text) :
    (c.exec K g s).session = s ∧ c.indices K g s = [] ∧ ¬c.fills g s := by
  cases c with
  | rewind delta =>
      cases hqueue : gemma4KvRewind g s delta with
      | error e => exact ⟨by simp [Call.exec, Call.queue, hqueue],
          by simp [Call.indices, Call.queue, hqueue], fun h => h⟩
      | ok ops =>
          obtain ⟨rfl, _⟩ := gemma4KvRewind_ok g s delta ops hqueue
          simp [Call.exec, Call.queue, hqueue, runOps, runOp] at herr
  | _ => exact absurd hc Bool.false_ne_true

/-- From a position inside the cache, by induction on the run. -/
theorem run_inside (cs : List (Call T X R)) {s : Session T X R} (hs : s.dpos ≤ g.pmax)
    (hok : accepted K g cs s = true) :
    (∀ i ∈ runIndices K g cs s, i < g.pmax) ↔ ¬runFills K g cs s := by
  induction cs generalizing s with
  | nil => exact ⟨fun _ h => h, fun _ i hi => absurd hi List.not_mem_nil⟩
  | cons c cs ih =>
      rw [accepted, Bool.and_eq_true, Bool.or_eq_true] at hok
      obtain ⟨hcall, hrest⟩ := hok
      have hone : (c.exec K g s).session.dpos ≤ g.pmax ∧
          ((∀ i ∈ c.indices K g s, i < g.pmax) ↔ ¬c.fills g s) := by
        cases herr : (c.exec K g s).err with
        | none => exact call_inside K c hs herr
        | some text =>
            have hrewind : c.isRewind = true := by simpa [herr] using hcall
            obtain ⟨hsame, hnone, hnot⟩ := rewind_refused K g hrewind herr
            rw [hsame, hnone]
            exact ⟨hs, fun _ => hnot, fun _ i hi => absurd hi List.not_mem_nil⟩
      rw [runIndices, List.forall_mem_append, hone.2, ih hone.1 hrest, runFills, not_or]

/-- The indices of a run from an open cache are inside it exactly when no prefill, by tokens or by
frames, ends at `Pmax`: such a prefill passes its check, which the decode verbs make strict, and
its head writes `dseq[Pmax]`. -/
theorem device_positions_inside_iff (dseq : Nat → T) (kv jkv : Nat → Nat → R)
    (cs : List (Call T X R)) (hok : accepted K g cs (Session.opened dseq kv jkv) = true) :
    (∀ i ∈ runIndices K g cs (Session.opened dseq kv jkv), i < g.pmax) ↔
      ¬runFills K g cs (Session.opened dseq kv jkv) :=
  run_inside K g cs (Nat.zero_le _) hok

end Runs

/-- A prefill, a decode and a rewind with a place to spare. -/
theorem device_positions_inside_short :
    accepted (posKernels (9 : Nat)) (soloGeometry 4 4 2 2 (by decide) (by decide))
        [.prefill [5, 6] noFaults, .decode 1 noFaults, .rewind 1]
        (Session.opened (fun _ => 0) (fun _ _ => 0) fun _ _ => 0) = true ∧
      ∀ i ∈ runIndices (posKernels (9 : Nat)) (soloGeometry 4 4 2 2 (by decide) (by decide))
        [.prefill [5, 6] noFaults, .decode 1 noFaults, .rewind 1]
        (Session.opened (fun _ => 0) (fun _ _ => 0) fun _ _ => 0), i < 4 :=
  ⟨by decide, (device_positions_inside_iff (posKernels (9 : Nat))
    (soloGeometry 4 4 2 2 (by decide) (by decide)) (fun _ => 0) (fun _ _ => 0) (fun _ _ => 0)
    [.prefill [5, 6] noFaults, .decode 1 noFaults, .rewind 1] (by decide)).mpr (by
      simp [runFills, Call.fills, Session.opened, soloGeometry])⟩

/-- A prompt of two tokens into a cache of two: the call returns 0, and its head writes the third
place. -/
theorem prefill_to_the_end_writes_past :
    ¬(accepted (posKernels (9 : Nat)) (soloGeometry 2 2 2 2 (by decide) (by decide))
        [.prefill [5, 6] noFaults] (Session.opened (fun _ => 0) (fun _ _ => 0) fun _ _ => 0) = true →
      ∀ i ∈ runIndices (posKernels (9 : Nat)) (soloGeometry 2 2 2 2 (by decide) (by decide))
        [.prefill [5, 6] noFaults] (Session.opened (fun _ => 0) (fun _ _ => 0) fun _ _ => 0),
        i < 2) := by
  decide

end ShannonPrime.Kv
