import Mathlib.Data.List.Infix
import Mathlib.Data.Set.Insert
import Mathlib.Logic.Function.Basic
import Mathlib.Logic.Relation

/-!
Streams and events of an accelerator. The host writes its buffers and queues copies and kernels on
streams. A stream works in order; an event lets a stream, or the host, wait for what came before
the event's last record. `Clocks` say what is known to be done at a point of the program. A
program that respects them has no hazard in any order of execution, and every kernel reads what it
would read if each action was done at once.

A program is a list, latest action first, and an action in it is named by what came earlier.
-/

namespace ShannonPrime.Streams

/-- Streams `S`, events `E`, buffers of the host `H` and of the device `D`, kernels `K`. -/
inductive Action (S E H D V K : Type) where
  | write (b : H) (v : V)
  | sync (e : E)
  | wait (s : S) (e : E)
  | record (s : S) (e : E)
  | copy (s : S) (src : H) (dst : D)
  | kernel (s : S) (k : K)

variable {S E H D V K : Type}

namespace Action

/-- Where it is queued; the host does the others itself. -/
def stream : Action S E H D V K → Option S
  | write _ _ | sync _ => none
  | wait s _ | record s _ | copy s _ _ | kernel s _ => some s

/-- The event it waits for. -/
def awaited : Action S E H D V K → Option E
  | sync e | wait _ e => some e
  | _ => none

end Action

/-! ## Actions of a program -/

section Suffixes

variable {h earlier : List (Action S E H D V K)} {a : Action S E H D V K}

theorem suffix_tail (hs : (a :: earlier) <:+ h) : earlier <:+ h :=
  (List.suffix_cons a earlier).trans hs

theorem suffix_length (hs : (a :: earlier) <:+ h) : earlier.length < h.length := by
  have hle := hs.length_le
  rw [List.length_cons] at hle
  exact hle

/-- The number of actions before it tells an action from the others. -/
theorem suffix_unique {a' : Action S E H D V K} {earlier' : List (Action S E H D V K)}
    (hs : (a :: earlier) <:+ h) (hs' : (a' :: earlier') <:+ h)
    (hlen : earlier.length = earlier'.length) : a = a' ∧ earlier = earlier' := by
  have hle : (a :: earlier).length ≤ (a' :: earlier').length := by simp [hlen]
  have heq := (List.suffix_of_suffix_length_le hs hs' hle).eq_of_length (by simp [hlen])
  exact List.cons.inj heq

/-- Of two actions one is the other or comes before it. -/
theorem suffix_before {a' : Action S E H D V K} {earlier' : List (Action S E H D V K)}
    (hs : (a :: earlier) <:+ h) (hs' : (a' :: earlier') <:+ h)
    (hlen : earlier'.length < earlier.length) : (a' :: earlier') <:+ earlier :=
  List.suffix_of_suffix_length_le hs' (suffix_tail hs) hlen

/-- Of the copies into a buffer one is the last. -/
theorem exists_last_copy {s : S} {src : H} {dst : D}
    (hs : (Action.copy s src dst :: earlier) <:+ h) :
    ∃ s' src' last, (Action.copy s' src' dst :: last) <:+ h ∧
      ∀ s' src' later, (Action.copy s' src' dst :: later) <:+ h → later.length ≤ last.length := by
  classical
  induction h with
  | nil => simp at hs
  | cons a h ih =>
      by_cases hcopy : ∃ s' src', a = .copy s' src' dst
      · obtain ⟨s', src', rfl⟩ := hcopy
        refine ⟨s', src', h, List.suffix_rfl, fun s'' src'' later hl => ?_⟩
        have hlt := suffix_length hl
        rw [List.length_cons] at hlt
        omega
      · have hrest : ∀ {s' src' later}, (Action.copy s' src' dst :: later) <:+ a :: h →
            (Action.copy s' src' dst :: later) <:+ h := by
          intro s' src' later hl
          rcases List.suffix_cons_iff.mp hl with heq | hl
          · exact absurd ⟨s', src', (List.cons.inj heq).1.symm⟩ hcopy
          · exact hl
        obtain ⟨s', src', last, hlast, hall⟩ := ih (hrest hs)
        exact ⟨s', src', last, hlast.trans (List.suffix_cons a h),
          fun s'' src'' later hl => hall s'' src'' later (hrest hl)⟩

end Suffixes

/-! ## Clocks -/

section Clocks

variable [DecidableEq S] [DecidableEq E]

def lastRecord (e : E) : List (Action S E H D V K) → Option Nat
  | [] => none
  | .record _ e' :: earlier => if e' = e then some earlier.length else lastRecord e earlier
  | _ :: earlier => lastRecord e earlier

/-- What the host, a stream and an event know to be done, by the number of actions before it. -/
structure Clocks (S E : Type) where
  host : Set Nat
  stream : S → Set Nat
  event : E → Set Nat

namespace Clocks

/-- What is done before an action. -/
def before (c : Clocks S E) : Action S E H D V K → Set Nat
  | .write _ _ => c.host
  | .sync e => c.host ∪ c.event e
  | .wait s e => c.stream s ∪ c.event e
  | .record s _ | .copy s _ _ | .kernel s _ => c.stream s

def step (c : Clocks S E) (n : Nat) (a : Action S E H D V K) : Clocks S E :=
  let known := insert n (c.before a)
  match a with
  | .write _ _ | .sync _ => { c with host := known }
  | .wait s _ | .copy s _ _ | .kernel s _ => { c with stream := Function.update c.stream s known }
  | .record s e =>
      { c with
        stream := Function.update c.stream s known
        event := Function.update c.event e known }

end Clocks

def clocks : List (Action S E H D V K) → Clocks S E
  | [] => ⟨∅, fun _ => ∅, fun _ => ∅⟩
  | a :: earlier => (clocks earlier).step earlier.length a

section Sources

variable {h : List (Action S E H D V K)} {i : Nat}

/-- What a stream knows is on it, or known before something that is. -/
theorem stream_clock {s : S} (hi : i ∈ (clocks h).stream s) :
    ∃ a earlier, (a :: earlier) <:+ h ∧ a.stream = some s ∧
      (i = earlier.length ∨ i ∈ (clocks earlier).before a) := by
  induction h with
  | nil => cases hi
  | cons a h ih =>
      have hold : i ∈ (clocks h).stream s → ∃ a' earlier, (a' :: earlier) <:+ a :: h ∧
          a'.stream = some s ∧ (i = earlier.length ∨ i ∈ (clocks earlier).before a') := by
        intro hi
        obtain ⟨a', earlier, hs, hrest⟩ := ih hi
        exact ⟨a', earlier, hs.trans (List.suffix_cons a h), hrest⟩
      have hnew : ∀ s', a.stream = some s' →
          i ∈ Function.update (clocks h).stream s' (insert h.length ((clocks h).before a)) s →
          ∃ a' earlier, (a' :: earlier) <:+ a :: h ∧ a'.stream = some s ∧
            (i = earlier.length ∨ i ∈ (clocks earlier).before a') := by
        intro s' hs' hi
        rcases eq_or_ne s s' with rfl | hne
        · rw [Function.update_self, Set.mem_insert_iff] at hi
          exact ⟨a, h, List.suffix_rfl, hs', hi⟩
        · rw [Function.update_of_ne hne] at hi
          exact hold hi
      cases a with
      | write b v => exact hold hi
      | sync e => exact hold hi
      | wait s' e => exact hnew s' rfl hi
      | record s' e => exact hnew s' rfl hi
      | copy s' src dst => exact hnew s' rfl hi
      | kernel s' k => exact hnew s' rfl hi

/-- What an event knows is its last record, or known before that. -/
theorem event_clock {e : E} (hi : i ∈ (clocks h).event e) :
    ∃ s earlier, (Action.record s e :: earlier) <:+ h ∧
      lastRecord e h = some earlier.length ∧
      (i = earlier.length ∨ i ∈ (clocks earlier).before (.record s e : Action S E H D V K)) := by
  induction h with
  | nil => cases hi
  | cons a h ih =>
      have hold : i ∈ (clocks h).event e → lastRecord e (a :: h) = lastRecord e h →
          ∃ s earlier, (Action.record s e :: earlier) <:+ a :: h ∧
            lastRecord e (a :: h) = some earlier.length ∧
            (i = earlier.length ∨
              i ∈ (clocks earlier).before (.record s e : Action S E H D V K)) := by
        intro hi hlast
        obtain ⟨s, earlier, hs, hrecord, hrest⟩ := ih hi
        exact ⟨s, earlier, hs.trans (List.suffix_cons a h), hlast.trans hrecord, hrest⟩
      cases a with
      | record s' e' =>
          rcases eq_or_ne e e' with rfl | hne
          · have hknown : i ∈ Function.update (clocks h).event e
                (insert h.length ((clocks h).before (.record s' e : Action S E H D V K))) e := hi
            rw [Function.update_self, Set.mem_insert_iff] at hknown
            exact ⟨s', h, List.suffix_rfl, if_pos rfl, hknown⟩
          · have hknown : i ∈ Function.update (clocks h).event e'
                (insert h.length ((clocks h).before (.record s' e' : Action S E H D V K))) e := hi
            rw [Function.update_of_ne hne] at hknown
            exact hold hknown (if_neg hne.symm)
      | write b v => exact hold hi rfl
      | sync e' => exact hold hi rfl
      | wait s' e' => exact hold hi rfl
      | copy s' src dst => exact hold hi rfl
      | kernel s' k => exact hold hi rfl

theorem stream_mono {s : S} {earlier : List (Action S E H D V K)} (hs : earlier <:+ h) :
    (clocks earlier).stream s ⊆ (clocks h).stream s := by
  induction h with
  | nil => rw [List.suffix_nil.mp hs]
  | cons a h ih =>
      rcases List.suffix_cons_iff.mp hs with rfl | hs
      · exact Set.Subset.rfl
      · refine (ih hs).trans ?_
        have hnew : ∀ s' x, (clocks h).stream s' ⊆ x →
            (clocks h).stream s ⊆ Function.update (clocks h).stream s' x s := by
          intro s' x hx
          rcases eq_or_ne s s' with rfl | hne
          · rw [Function.update_self]
            exact hx
          · rw [Function.update_of_ne hne]
        cases a with
        | write b v => exact Set.Subset.rfl
        | sync e => exact Set.Subset.rfl
        | wait s' e =>
            exact hnew s' _ (Set.subset_union_left.trans (Set.subset_insert _ _))
        | record s' e => exact hnew s' _ (Set.subset_insert _ _)
        | copy s' src dst => exact hnew s' _ (Set.subset_insert _ _)
        | kernel s' k => exact hnew s' _ (Set.subset_insert _ _)

theorem clocks_stream_self {s : S} {a : Action S E H D V K} (hstream : a.stream = some s) :
    (clocks (a :: h)).stream s = insert h.length ((clocks h).before a) := by
  cases a with
  | write b v => cases hstream
  | sync e => cases hstream
  | wait s' e =>
      obtain rfl := Option.some.inj hstream
      exact Function.update_self s' _ (clocks h).stream
  | record s' e =>
      obtain rfl := Option.some.inj hstream
      exact Function.update_self s' _ (clocks h).stream
  | copy s' src dst =>
      obtain rfl := Option.some.inj hstream
      exact Function.update_self s' _ (clocks h).stream
  | kernel s' k =>
      obtain rfl := Option.some.inj hstream
      exact Function.update_self s' _ (clocks h).stream

/-- A record passes on what its stream knows. -/
theorem clocks_event_record (s : S) (e : E) :
    (clocks (.record s e :: h : List (Action S E H D V K))).event e =
      (clocks (.record s e :: h : List (Action S E H D V K))).stream s :=
  (Function.update_self e _ (clocks h).event).trans (Function.update_self s _ (clocks h).stream).symm

theorem clocks_event_of_ne {e e' : E} (hne : e' ≠ e) (s : S) :
    (clocks (.record s e :: h : List (Action S E H D V K))).event e' = (clocks h).event e' :=
  Function.update_of_ne hne _ (clocks h).event

/-- A stream knows what is on it. -/
theorem mem_stream {s : S} {a : Action S E H D V K} {earlier : List (Action S E H D V K)}
    (hs : (a :: earlier) <:+ h) (hstream : a.stream = some s) :
    earlier.length ∈ (clocks h).stream s := by
  apply stream_mono hs
  rw [clocks_stream_self hstream]
  exact Set.mem_insert _ _

end Sources

variable (reads : K → List D)

def Allowed (earlier : List (Action S E H D V K)) : Action S E H D V K → Prop
  | .write b _ => ∀ s dst before, (.copy s b dst :: before) <:+ earlier →
      before.length ∈ (clocks earlier).host
  | .copy s _ dst =>
      (∀ s' k before, (.kernel s' k :: before) <:+ earlier → dst ∈ reads k →
        before.length ∈ (clocks earlier).stream s) ∧
      ∀ s' src before, (.copy s' src dst :: before) <:+ earlier →
        before.length ∈ (clocks earlier).stream s
  | .kernel s k => ∀ b ∈ reads k, ∃ s' src before, (.copy s' src b :: before) <:+ earlier ∧
      before.length ∈ (clocks earlier).stream s ∧
      ∀ s' src later, (.copy s' src b :: later) <:+ earlier → later.length ≤ before.length
  | _ => True

def Disciplined : List (Action S E H D V K) → Prop
  | [] => True
  | a :: earlier => Allowed reads earlier a ∧ Disciplined earlier

end Clocks

/-! ## Memory -/

structure Memory (H D V : Type) where
  host : H → V
  dev : D → V

section Memory

variable [DecidableEq H] [DecidableEq D]

def Action.effect (a : Action S E H D V K) (m : Memory H D V) : Memory H D V :=
  match a with
  | write b v => { m with host := Function.update m.host b v }
  | copy _ src dst => { m with dev := Function.update m.dev dst (m.host src) }
  | _ => m

/-- Each action done at once. -/
def inOrder (m : Memory H D V) : List (Action S E H D V K) → Memory H D V
  | [] => m
  | a :: earlier => a.effect (inOrder m earlier)

variable {h earlier : List (Action S E H D V K)} {m : Memory H D V} {s : S} {src : H} {dst : D}

/-- What the host has in a buffer stays until it writes it. -/
theorem inOrder_host (hs : earlier <:+ h)
    (hw : ∀ v later, (Action.write src v :: later) <:+ h → later.length < earlier.length) :
    (inOrder m h).host src = (inOrder m earlier).host src := by
  induction h with
  | nil => rw [List.suffix_nil.mp hs]
  | cons a h ih =>
      rcases List.suffix_cons_iff.mp hs with rfl | hs
      · rfl
      · have hle := hs.length_le
        have hrest := ih hs fun v later hl => hw v later (hl.trans (List.suffix_cons a h))
        cases a with
        | write b v =>
            have hne : src ≠ b := by
              rintro rfl
              exact absurd (hw v h List.suffix_rfl) (not_lt.mpr hle)
            rw [← hrest]
            exact Function.update_of_ne hne _ _
        | sync e => exact hrest
        | wait s' e => exact hrest
        | record s' e => exact hrest
        | copy s' src' dst' => exact hrest
        | kernel s' k => exact hrest

/-- A buffer of the device has what the last copy put there. -/
theorem inOrder_dev (hs : (Action.copy s src dst :: earlier) <:+ h)
    (hlast : ∀ s' src' later, (Action.copy s' src' dst :: later) <:+ h →
      later.length ≤ earlier.length) :
    (inOrder m h).dev dst = (inOrder m earlier).host src := by
  induction h with
  | nil => simp at hs
  | cons a h ih =>
      rcases List.suffix_cons_iff.mp hs with heq | hs
      · obtain ⟨rfl, rfl⟩ := List.cons.inj heq
        exact Function.update_self _ _ _
      · have hlt := suffix_length hs
        have hrest := ih hs fun s' src' later hl =>
          hlast s' src' later (hl.trans (List.suffix_cons a h))
        cases a with
        | copy s' src' dst' =>
            have hne : dst ≠ dst' := by
              rintro rfl
              exact absurd (hlast s' src' h List.suffix_rfl) (not_le.mpr hlt)
            rw [← hrest]
            exact Function.update_of_ne hne _ _
        | write b v => exact hrest
        | sync e => exact hrest
        | wait s' e => exact hrest
        | record s' e => exact hrest
        | kernel s' k => exact hrest

end Memory

/-! ## Execution -/

section Execution

variable [DecidableEq S] [DecidableEq E]

/-- The actions that were issued, those of them that are done, and the memory. -/
structure State (S E H D V K : Type) where
  issued : List (Action S E H D V K)
  done : Set Nat
  mem : Memory H D V

/-- An action may be done after those before it on its stream, and after the last record of the
event it waits for. -/
structure Ready (done : Set Nat) (a : Action S E H D V K) (earlier : List (Action S E H D V K)) :
    Prop where
  queue : ∀ s, a.stream = some s → ∀ a' earlier', (a' :: earlier') <:+ earlier →
    a'.stream = some s → earlier'.length ∈ done
  event : ∀ e, a.awaited = some e → ∀ n, lastRecord e earlier = some n → n ∈ done

/-- An action that may be under way. -/
structure State.Running (σ : State S E H D V K) (a : Action S E H D V K)
    (earlier : List (Action S E H D V K)) : Prop where
  issued : (a :: earlier) <:+ σ.issued
  pending : earlier.length ∉ σ.done
  ready : Ready σ.done a earlier

/-- What holds in every state that is reached. -/
structure Sound (σ : State S E H D V K) : Prop where
  bound : ∀ i ∈ σ.done, i < σ.issued.length
  host : ∀ i ∈ (clocks σ.issued).host, i ∈ σ.done
  direct : ∀ a earlier, (a :: earlier) <:+ σ.issued → a.stream = none → earlier.length ∈ σ.done
  closed : ∀ a earlier, (a :: earlier) <:+ σ.issued → earlier.length ∈ σ.done →
    (clocks earlier).before a ⊆ σ.done

/-- An action that may be done has everything known before it done. -/
theorem Ready.before_subset {done : Set Nat} {a : Action S E H D V K}
    {earlier : List (Action S E H D V K)} (hready : Ready done a earlier)
    (hhost : a.stream = none → (clocks earlier).host ⊆ done)
    (hclosed : ∀ a' earlier', (a' :: earlier') <:+ earlier → earlier'.length ∈ done →
      (clocks earlier').before a' ⊆ done) :
    (clocks earlier).before a ⊆ done := by
  have hqueue : ∀ s, a.stream = some s → (clocks earlier).stream s ⊆ done := by
    intro s hs i hi
    obtain ⟨a', earlier', hsuffix, hs', rfl | hbefore⟩ := stream_clock hi
    · exact hready.queue s hs a' earlier' hsuffix hs'
    · exact hclosed a' earlier' hsuffix (hready.queue s hs a' earlier' hsuffix hs') hbefore
  have hevent : ∀ e, a.awaited = some e → (clocks earlier).event e ⊆ done := by
    intro e he i hi
    obtain ⟨s, earlier', hsuffix, hlast, rfl | hbefore⟩ := event_clock hi
    · exact hready.event e he _ hlast
    · exact hclosed _ earlier' hsuffix (hready.event e he _ hlast) hbefore
  cases a with
  | write b v => exact hhost rfl
  | sync e => exact Set.union_subset (hhost rfl) (hevent e rfl)
  | wait s e => exact Set.union_subset (hqueue s rfl) (hevent e rfl)
  | record s e => exact hqueue s rfl
  | copy s src dst => exact hqueue s rfl
  | kernel s k => exact hqueue s rfl

namespace Sound

variable {σ : State S E H D V K}

theorem init (m : Memory H D V) : Sound (⟨[], ∅, m⟩ : State S E H D V K) where
  bound i hi := by cases hi
  host i hi := by cases hi
  direct a earlier hs := by simp at hs
  closed a earlier hs := by simp at hs

/-- What may be under way has all before it done. -/
theorem running (h : Sound σ) {a : Action S E H D V K} {earlier : List (Action S E H D V K)}
    (hrunning : σ.Running a earlier) : (clocks earlier).before a ⊆ σ.done :=
  hrunning.ready.before_subset
    (fun hdirect => absurd (h.direct a earlier hrunning.issued hdirect) hrunning.pending)
    fun a' earlier' hs => h.closed a' earlier' (hs.trans (suffix_tail hrunning.issued))

end Sound

section Programs

variable {reads : K → List D} {h earlier : List (Action S E H D V K)} {σ : State S E H D V K}
  {s : S} {src : H} {dst : D}

theorem Disciplined.suffix (hd : Disciplined reads h) (hs : earlier <:+ h) :
    Disciplined reads earlier := by
  induction h with
  | nil =>
      rw [List.suffix_nil.mp hs]
      exact hd
  | cons a h ih =>
      rcases List.suffix_cons_iff.mp hs with rfl | hs
      · exact hd
      · exact ih hd.2 hs

theorem Disciplined.allowed (hd : Disciplined reads h) {a : Action S E H D V K}
    (hs : (a :: earlier) <:+ h) : Allowed reads earlier a :=
  (hd.suffix hs).1

/-- Two copies into one buffer are done one after the other. -/
theorem Sound.successive (h : Sound σ) (hd : Disciplined reads σ.issued) {s' : S} {src' : H}
    {later : List (Action S E H D V K)} (hs : (Action.copy s src dst :: earlier) <:+ σ.issued)
    (hs' : (Action.copy s' src' dst :: later) <:+ σ.issued) (hdone : later.length ∈ σ.done)
    (hlt : earlier.length < later.length) : earlier.length ∈ σ.done :=
  h.closed _ later hs' hdone
    ((hd.allowed hs').2 s src earlier (suffix_before hs' hs hlt))

end Programs

variable [DecidableEq H] [DecidableEq D]

inductive Step (prog : List (Action S E H D V K)) : State S E H D V K → State S E H D V K → Prop
  | host {issued done mem} (a : Action S E H D V K) : (a :: issued) <:+ prog →
      a.stream = none → Ready done a issued →
      Step prog ⟨issued, done, mem⟩ ⟨a :: issued, insert issued.length done, a.effect mem⟩
  | issue {issued done mem} (a : Action S E H D V K) (s : S) : (a :: issued) <:+ prog →
      a.stream = some s → Step prog ⟨issued, done, mem⟩ ⟨a :: issued, done, mem⟩
  | finish {issued done mem} (a : Action S E H D V K) (earlier : List (Action S E H D V K)) :
      (a :: earlier) <:+ issued → earlier.length ∉ done → Ready done a earlier →
      Step prog ⟨issued, done, mem⟩ ⟨issued, insert earlier.length done, a.effect mem⟩

def Reaches (prog : List (Action S E H D V K)) (m : Memory H D V) (σ : State S E H D V K) : Prop :=
  Relation.ReflTransGen (Step prog) ⟨[], ∅, m⟩ σ

section Steps

variable {reads : K → List D} {prog earlier : List (Action S E H D V K)} {m : Memory H D V}
  {σ σ' : State S E H D V K} {s : S} {src : H} {dst : D}

theorem Sound.step (h : Sound σ) (hstep : Step prog σ σ') : Sound σ' := by
  cases hstep with
  | host a hnext hdirect hready =>
      rename_i issued done mem
      have hbefore : (clocks issued).before a ⊆ done :=
        hready.before_subset (fun _ => h.host) fun a' earlier' => h.closed a' earlier'
      constructor
      · intro i hi
        rcases hi with rfl | hi
        · simp
        · exact (h.bound i hi).trans (by simp)
      · intro i hi
        cases a with
        | write b v =>
            rcases hi with rfl | hi
            · exact Set.mem_insert _ _
            · exact Set.mem_insert_of_mem _ (hbefore hi)
        | sync e =>
            rcases hi with rfl | hi
            · exact Set.mem_insert _ _
            · exact Set.mem_insert_of_mem _ (hbefore hi)
        | wait s e => cases hdirect
        | record s e => cases hdirect
        | copy s src dst => cases hdirect
        | kernel s k => cases hdirect
      · intro a' earlier hs hdirect'
        rcases List.suffix_cons_iff.mp hs with heq | hs
        · obtain ⟨rfl, rfl⟩ := List.cons.inj heq
          exact Set.mem_insert _ _
        · exact Set.mem_insert_of_mem _ (h.direct a' earlier hs hdirect')
      · intro a' earlier hs hdone
        rcases List.suffix_cons_iff.mp hs with heq | hs
        · obtain ⟨rfl, rfl⟩ := List.cons.inj heq
          exact hbefore.trans (Set.subset_insert _ _)
        · rcases hdone with hlast | hdone
          · exact absurd hlast (suffix_length hs).ne
          · exact (h.closed a' earlier hs hdone).trans (Set.subset_insert _ _)
  | issue a s hnext hstream =>
      rename_i issued done mem
      constructor
      · intro i hi
        exact (h.bound i hi).trans (by simp)
      · intro i hi
        apply h.host
        cases a with
        | write b v => cases hstream
        | sync e => cases hstream
        | wait s' e => exact hi
        | record s' e => exact hi
        | copy s' src dst => exact hi
        | kernel s' k => exact hi
      · intro a' earlier hs hdirect
        rcases List.suffix_cons_iff.mp hs with heq | hs
        · obtain ⟨rfl, rfl⟩ := List.cons.inj heq
          rw [hdirect] at hstream
          cases hstream
        · exact h.direct a' earlier hs hdirect
      · intro a' earlier hs hdone
        rcases List.suffix_cons_iff.mp hs with heq | hs
        · obtain ⟨rfl, rfl⟩ := List.cons.inj heq
          exact absurd (h.bound _ hdone) (lt_irrefl _)
        · exact h.closed a' earlier hs hdone
  | finish a earlier hs hpending hready =>
      rename_i issued done mem
      have hbefore : (clocks earlier).before a ⊆ done :=
        hready.before_subset (fun hdirect => absurd (h.direct a earlier hs hdirect) hpending)
          fun a' earlier' hs' => h.closed a' earlier' (hs'.trans (suffix_tail hs))
      constructor
      · intro i hi
        rcases hi with rfl | hi
        · exact suffix_length hs
        · exact h.bound i hi
      · intro i hi
        exact Set.mem_insert_of_mem _ (h.host i hi)
      · intro a' earlier' hs' hdirect
        exact Set.mem_insert_of_mem _ (h.direct a' earlier' hs' hdirect)
      · intro a' earlier' hs' hdone
        refine Set.Subset.trans ?_ (Set.subset_insert _ _)
        rcases hdone with hlast | hdone
        · obtain ⟨rfl, rfl⟩ := suffix_unique hs' hs hlast
          exact hbefore
        · exact h.closed a' earlier' hs' hdone

/-- The host's buffers are as they would be, and a buffer of the device has what the latest copy
that is done was to put there. -/
structure Faithful (m : Memory H D V) (σ : State S E H D V K) : Prop where
  host : σ.mem.host = (inOrder m σ.issued).host
  dev : ∀ s src dst earlier, (Action.copy s src dst :: earlier) <:+ σ.issued →
    earlier.length ∈ σ.done →
    (∀ s' src' later, (Action.copy s' src' dst :: later) <:+ σ.issued →
      later.length ∈ σ.done → later.length ≤ earlier.length) →
    σ.mem.dev dst = (inOrder m earlier).host src

omit [DecidableEq S] [DecidableEq E] in
theorem Faithful.init (m : Memory H D V) : Faithful m (⟨[], ∅, m⟩ : State S E H D V K) where
  host := rfl
  dev s src dst earlier hs := by simp at hs

/-- The host does not touch the source of a copy that is not done. -/
theorem Sound.source (h : Sound σ) (hd : Disciplined reads σ.issued)
    (hs : (Action.copy s src dst :: earlier) <:+ σ.issued) (hpending : earlier.length ∉ σ.done) :
    (inOrder m σ.issued).host src = (inOrder m earlier).host src := by
  apply inOrder_host (suffix_tail hs)
  intro v later hw
  by_contra hlater
  have hlt : earlier.length < later.length := by
    rcases Nat.lt_or_eq_of_le (Nat.le_of_not_lt hlater) with hlt | heq
    · exact hlt
    · cases (suffix_unique hs hw heq).1
  have hknown := hd.allowed hw s dst earlier (suffix_before hw hs hlt)
  exact hpending (h.closed _ later hw (h.direct _ later hw rfl) hknown)

theorem Faithful.step (hf : Faithful m σ) (h : Sound σ) (hd : Disciplined reads σ.issued)
    (hstep : Step prog σ σ') : Faithful m σ' := by
  cases hstep with
  | host a hnext hdirect hready =>
      rename_i issued done mem
      -- the position of the action of the host is new and belongs to no copy
      have hold : ∀ {s src dst earlier}, (Action.copy s src dst :: earlier) <:+ a :: issued →
          earlier.length ∈ insert issued.length done →
          (Action.copy s src dst :: earlier) <:+ issued ∧ earlier.length ∈ done := by
        intro s src dst earlier hs hdone
        rcases List.suffix_cons_iff.mp hs with heq | hs
        · rw [← (List.cons.inj heq).1] at hdirect
          cases hdirect
        · exact ⟨hs, hdone.resolve_left (suffix_length hs).ne⟩
      have hdev : (a.effect mem).dev = mem.dev := by
        cases a with
        | copy s src dst => cases hdirect
        | _ => rfl
      constructor
      · have hhost := hf.host
        cases a with
        | write b v => exact congrArg (fun f => Function.update f b v) hhost
        | sync e => exact hhost
        | wait s e => cases hdirect
        | record s e => cases hdirect
        | copy s src dst => cases hdirect
        | kernel s k => cases hdirect
      · intro s src dst earlier hs hdone hlast
        obtain ⟨hs, hdone⟩ := hold hs hdone
        rw [hdev]
        exact hf.dev s src dst earlier hs hdone fun s' src' later hl hl' =>
          hlast s' src' later (hl.trans (List.suffix_cons a issued)) (Set.mem_insert_of_mem _ hl')
  | issue a s hnext hstream =>
      rename_i issued done mem
      constructor
      · have hhost := hf.host
        cases a with
        | write b v => cases hstream
        | sync e => cases hstream
        | wait s e => exact hhost
        | record s e => exact hhost
        | copy s src dst => exact hhost
        | kernel s k => exact hhost
      · intro s src dst earlier hs hdone hlast
        rcases List.suffix_cons_iff.mp hs with heq | hs
        · obtain ⟨rfl, rfl⟩ := List.cons.inj heq
          exact absurd (h.bound _ hdone) (lt_irrefl _)
        · exact hf.dev s src dst earlier hs hdone fun s' src' later hl =>
            hlast s' src' later (hl.trans (List.suffix_cons a issued))
  | finish a earlier hs hpending hready =>
      rename_i issued done mem
      have hdevice : a.stream ≠ none := fun hdirect => hpending (h.direct a earlier hs hdirect)
      constructor
      · have hhost := hf.host
        cases a with
        | write b v => exact absurd rfl hdevice
        | sync e => exact absurd rfl hdevice
        | wait s e => exact hhost
        | record s e => exact hhost
        | copy s src dst => exact hhost
        | kernel s k => exact hhost
      · intro s src dst before hs' hdone hlast
        by_cases hsame : before.length = earlier.length
        · -- the copy itself, whose source is as it was when it was queued
          obtain ⟨rfl, rfl⟩ := suffix_unique hs' hs hsame
          have hsource := h.source (m := m) hd hs hpending
          rw [← hf.host] at hsource
          exact (Function.update_self _ _ _).trans hsource
        · have hdone' : before.length ∈ done := hdone.resolve_left hsame
          have hrest := hf.dev s src dst before hs' hdone' fun s' src' later hl hl' =>
            hlast s' src' later hl (Set.mem_insert_of_mem _ hl')
          cases a with
          | copy s' src' dst' =>
              rcases eq_or_ne dst dst' with rfl | hne
              · have hle := hlast s' src' earlier hs (Set.mem_insert _ _)
                exact absurd (h.successive hd hs hs' hdone' (by omega)) hpending
              · exact (Function.update_of_ne hne _ _).trans hrest
          | write b v => exact absurd rfl hdevice
          | sync e => exact absurd rfl hdevice
          | wait s' e => exact hrest
          | record s' e => exact hrest
          | kernel s' k => exact hrest

/-- No hazards: the host writes a buffer when all copies from it are done; a copy is under way when
all kernels before it that read its target are done; and while a kernel is under way, what it reads
is what it would read in order. -/
structure Safe (reads : K → List D) (prog : List (Action S E H D V K)) (m : Memory H D V)
    (σ : State S E H D V K) : Prop where
  staging : ∀ b v, (Action.write b v :: σ.issued) <:+ prog → ∀ s dst earlier,
    (Action.copy s b dst :: earlier) <:+ σ.issued → earlier.length ∈ σ.done
  target : ∀ s src dst later, σ.Running (.copy s src dst) later → ∀ s' k earlier,
    (Action.kernel s' k :: earlier) <:+ later → dst ∈ reads k → earlier.length ∈ σ.done
  reads : ∀ s k earlier, σ.Running (.kernel s k) earlier → ∀ b ∈ reads k,
    σ.mem.dev b = (inOrder m earlier).dev b

theorem Disciplined.safe_of (hd : Disciplined reads prog) (hissued : σ.issued <:+ prog)
    (h : Sound σ) (hf : Faithful m σ) : Safe reads prog m σ := by
  constructor
  · intro b v hnext s dst earlier hs
    exact h.host _ (hd.allowed hnext s dst earlier hs)
  · intro s src dst later hrunning s' k earlier hs hreads
    have hallowed := hd.allowed (hrunning.issued.trans hissued)
    exact h.running hrunning (hallowed.1 s' k earlier hs hreads)
  · intro s k earlier hrunning b hb
    obtain ⟨s', src, before, hs, hknown, hlast⟩ :=
      hd.allowed (hrunning.issued.trans hissued) b hb
    have hdone := h.running hrunning hknown
    rw [inOrder_dev hs hlast]
    apply hf.dev s' src b before (hs.trans (suffix_tail hrunning.issued)) hdone
    intro s'' src'' later hl hl'
    rcases lt_trichotomy later.length earlier.length with hlt | heq | hgt
    · exact hlast s'' src'' later (suffix_before hrunning.issued hl hlt)
    · cases (suffix_unique hl hrunning.issued heq).1
    · have hknown' := (hd.allowed (hl.trans hissued)).1 s k earlier
        (suffix_before hl hrunning.issued hgt) hb
      exact absurd (h.closed _ later hl hl' hknown') hrunning.pending

omit [DecidableEq S] in
theorem Reaches.issued (hreach : Reaches prog m σ) : σ.issued <:+ prog := by
  induction hreach with
  | refl => exact List.nil_suffix
  | tail _ hstep ih =>
      cases hstep with
      | host a hnext => exact hnext
      | issue a s hnext => exact hnext
      | finish => exact ih

/-- A program that respects the clocks has no hazard in any execution. -/
theorem Disciplined.safe (hd : Disciplined reads prog) (hreach : Reaches prog m σ) :
    Safe reads prog m σ := by
  have hall : Sound σ ∧ Faithful m σ := by
    induction hreach with
    | refl => exact ⟨Sound.init m, Faithful.init m⟩
    | tail hbefore hstep ih =>
        obtain ⟨h, hf⟩ := ih
        exact ⟨h.step hstep, hf.step h (hd.suffix (Reaches.issued hbefore)) hstep⟩
  exact hd.safe_of hreach.issued hall.1 hall.2

end Steps

end Execution

end ShannonPrime.Streams
