import Mathlib.Data.UInt
import Mathlib.Logic.Function.Basic
import ShannonPrime.Lib.Runs

/-!
The peer map of the shard coordinator. The accept loop registers a connection under its
address; a close watcher and a stream loop, one of each for every connection, both take
the address out again once the connection is closed. Neither looks at whose entry it
takes out.
-/

namespace ShannonPrime.Network

open Runs

structure ConnectedPeer where
  shardId : UInt8

/-- `u8::MAX`: no block has come yet. -/
def unknownShard : UInt8 := 255

/-- A connection the endpoint has handed out, and how far the tasks of `run_garner_loop`
have come with it: whether it is registered, and whether the close watcher and the stream
loop have made their removals. -/
structure Connection (Addr : Type*) where
  remoteAddr : Addr
  isOpen : Bool
  registered : Bool
  watcherDone : Bool
  streamsDone : Bool

variable {Addr : Type*}

/-- One not yet registered. -/
def Connection.accepted (addr : Addr) : Connection Addr where
  remoteAddr := addr
  isOpen := true
  registered := false
  watcherDone := false
  streamsDone := false

/-- The connections so far, by the order of the endpoint's numbering; the one that the
accept loop holds and has not registered; whether the loop still runs. -/
structure Coordinator (Addr : Type*) where
  conn : Nat → Option (Connection Addr)
  held : Option Nat
  accepting : Bool
  peerMap : Addr → Option ConnectedPeer

/-- What can happen next, in any order. `accept`, `register` and `stop` are the accept
loop's own steps; `block` is a stream task of the connection with a whole block in hand,
before or after the connection is closed. -/
inductive Event (Addr : Type*) where
  | accept (c : Nat) (addr : Addr)
  | register (c : Nat)
  | stop
  | close (c : Nat)
  | block (c : Nat) (primeSelector : UInt8)
  | watcher (c : Nat)
  | streams (c : Nat)

/-- `and_modify` of the entry: the shard is that of the first block. -/
def ConnectedPeer.refine (primeSelector : UInt8) (p : ConnectedPeer) : ConnectedPeer :=
  if p.shardId = unknownShard then { p with shardId := primeSelector } else p

/-- The watcher has a removal to make. -/
def Connection.watcherReady (k : Connection Addr) : Bool :=
  k.registered && !k.isOpen && !k.watcherDone

/-- The stream loop has a removal to make. -/
def Connection.streamsReady (k : Connection Addr) : Bool :=
  k.registered && !k.isOpen && !k.streamsDone

namespace Coordinator

/-- The peer map is empty when the daemon starts the loop. -/
def init : Coordinator Addr where
  conn _ := none
  held := none
  accepting := true
  peerMap _ := none

def put (s : Coordinator Addr) (c : Nat) (k : Connection Addr) : Coordinator Addr :=
  { s with conn := Function.update s.conn c (some k) }

variable [DecidableEq Addr]

def setPeer (s : Coordinator Addr) (addr : Addr) (p : Option ConnectedPeer) :
    Coordinator Addr :=
  { s with peerMap := Function.update s.peerMap addr p }

/-- An event of connection `c`, which changes nothing where there is no such connection. -/
def on (s : Coordinator Addr) (c : Nat) (act : Connection Addr → Coordinator Addr) :
    Coordinator Addr :=
  (s.conn c).elim s act

/-- One event. One that cannot happen now changes nothing. -/
def step (s : Coordinator Addr) : Event Addr → Coordinator Addr
  | .accept c addr =>
      if s.accepting && s.held.isNone && (s.conn c).isNone then
        { s.put c (.accepted addr) with held := some c }
      else s
  | .register c => s.on c fun k =>
      if s.held = some c then
        { (s.put c { k with registered := true }).setPeer k.remoteAddr
            (some { shardId := unknownShard }) with held := none }
      else s
  | .stop => { s with accepting := s.accepting && s.held.isSome }
  | .close c => s.on c fun k => s.put c { k with isOpen := false }
  | .block c primeSelector => s.on c fun k =>
      if k.registered then
        s.setPeer k.remoteAddr ((s.peerMap k.remoteAddr).map (.refine primeSelector))
      else s
  | .watcher c => s.on c fun k =>
      if k.watcherReady then (s.put c { k with watcherDone := true }).setPeer k.remoteAddr none
      else s
  | .streams c => s.on c fun k =>
      if k.streamsReady then (s.put c { k with streamsDone := true }).setPeer k.remoteAddr none
      else s

end Coordinator

namespace Coordinator

/-- A registered connection that is open has its address in the map. -/
def Listed (s : Coordinator Addr) : Prop :=
  ∀ c k, s.conn c = some k → k.registered → k.isOpen → (s.peerMap k.remoteAddr).isSome

/-- Both removals of every closed connection have been made. -/
def Settled (s : Coordinator Addr) : Prop :=
  ∀ c k, s.conn c = some k → k.registered → k.isOpen = false → k.watcherDone ∧ k.streamsDone

/-- Every address in the map is that of an open connection. -/
def Living (s : Coordinator Addr) : Prop :=
  ∀ addr, (s.peerMap addr).isSome → ∃ c k, s.conn c = some k ∧ k.remoteAddr = addr ∧ k.isOpen

/-- The map is exact. -/
def Exact (s : Coordinator Addr) : Prop := s.Listed ∧ (s.Settled → s.Living)

/-- The address an event takes out of the map. -/
def removal (s : Coordinator Addr) : Event Addr → Option Addr
  | .watcher c => (s.conn c).bind fun k => if k.watcherReady then some k.remoteAddr else none
  | .streams c => (s.conn c).bind fun k => if k.streamsReady then some k.remoteAddr else none
  | _ => none

/-- The event takes no address out of the map that a registered open connection has. -/
def Spares (s : Coordinator Addr) (e : Event Addr) : Prop :=
  ∀ addr, s.removal e = some addr →
    ∀ c k, s.conn c = some k → k.registered → k.isOpen → k.remoteAddr ≠ addr

/-- What every event keeps: the held connection is not registered; the removals come after
registration and close; an address in the map still has both removals of one of its
connections before it. -/
structure Sound (s : Coordinator Addr) : Prop where
  held_new : ∀ c k, s.held = some c → s.conn c = some k → k.registered = false
  done_closed : ∀ c k, s.conn c = some k → k.watcherDone || k.streamsDone →
    k.registered ∧ k.isOpen = false
  owed : ∀ addr, (s.peerMap addr).isSome → ∃ c k, s.conn c = some k ∧ k.remoteAddr = addr ∧
    k.registered ∧ k.watcherDone = false ∧ k.streamsDone = false

theorem Sound.living {s : Coordinator Addr} (h : s.Sound) (hsettled : s.Settled) : s.Living := by
  intro addr haddr
  obtain ⟨c, k, hk, hat, hreg, hw, -⟩ := h.owed addr haddr
  refine ⟨c, k, hk, hat, ?_⟩
  cases hopen : k.isOpen with
  | true => rfl
  | false =>
      have hdone := (hsettled c k hk hreg hopen).1
      rw [hw] at hdone
      cases hdone

theorem Sound.undone {s : Coordinator Addr} (h : s.Sound) {c : Nat} {k : Connection Addr}
    (hk : s.conn c = some k) (hnew : k.registered = false) :
    k.watcherDone = false ∧ k.streamsDone = false := by
  have hdone : ¬ (k.watcherDone || k.streamsDone) := by
    intro hdone
    have hreg := (h.done_closed c k hk hdone).1
    rw [hnew] at hreg
    cases hreg
  simpa using hdone

theorem Sound.exact_iff {s : Coordinator Addr} (h : s.Sound) : s.Exact ↔ s.Listed :=
  and_iff_left h.living

theorem init_sound : (init : Coordinator Addr).Sound where
  held_new _ _ h := by cases h
  done_closed _ _ h := by cases h
  owed _ h := by cases h

theorem init_listed : (init : Coordinator Addr).Listed := by
  intro c k h
  cases h

theorem put_conn (s : Coordinator Addr) (c c' : Nat) (k : Connection Addr) :
    (s.put c k).conn c' = if c' = c then some k else s.conn c' := by
  simp only [put, Function.update_apply]

@[simp] theorem put_held (s : Coordinator Addr) (c : Nat) (k : Connection Addr) :
    (s.put c k).held = s.held := rfl

@[simp] theorem put_peerMap (s : Coordinator Addr) (c : Nat) (k : Connection Addr) :
    (s.put c k).peerMap = s.peerMap := rfl

section Peers

variable [DecidableEq Addr]

theorem setPeer_peerMap (s : Coordinator Addr) (addr addr' : Addr) (p : Option ConnectedPeer) :
    (s.setPeer addr p).peerMap addr' = if addr' = addr then p else s.peerMap addr' := by
  simp only [setPeer, Function.update_apply]

@[simp] theorem setPeer_conn (s : Coordinator Addr) (addr : Addr) (p : Option ConnectedPeer) :
    (s.setPeer addr p).conn = s.conn := rfl

@[simp] theorem setPeer_held (s : Coordinator Addr) (addr : Addr) (p : Option ConnectedPeer) :
    (s.setPeer addr p).held = s.held := rfl

end Peers
end Coordinator

namespace Coordinator

variable {s : Coordinator Addr} {c : Nat} {k : Connection Addr}

/-- What an event of a connection may assume: that there is one. -/
theorem on_property {P : Coordinator Addr → Prop} {act : Connection Addr → Coordinator Addr}
    (hnone : P s) (hsome : ∀ k, s.conn c = some k → P (act k)) : P (s.on c act) := by
  cases hk : s.conn c with
  | none => simpa [on, hk] using hnone
  | some k => simpa [on, hk] using hsome k hk

theorem watcherReady_closed (h : k.watcherReady) : k.registered ∧ k.isOpen = false := by
  simp only [Connection.watcherReady, Bool.and_eq_true, Bool.not_eq_true'] at h
  exact h.1

theorem streamsReady_closed (h : k.streamsReady) : k.registered ∧ k.isOpen = false := by
  simp only [Connection.streamsReady, Bool.and_eq_true, Bool.not_eq_true'] at h
  exact h.1

theorem accept_sound (h : s.Sound) (hc : s.conn c = none) (addr : Addr) :
    Sound { s.put c (.accepted addr) with held := some c } where
  held_new := by
    intro c' k' hheld hk'
    obtain rfl : c = c' := Option.some.inj hheld
    simp only [put_conn, ite_true, Option.some.injEq] at hk'
    rw [← hk']
    rfl
  done_closed := by
    intro c' k' hk' hdone
    rw [put_conn] at hk'
    split at hk'
    case isTrue => cases hk'; cases hdone
    case isFalse => exact h.done_closed c' k' hk' hdone
  owed := by
    intro addr' hin
    obtain ⟨c', k', hk', hrest⟩ := h.owed addr' hin
    have hne : c' ≠ c := by
      intro heq
      rw [heq, hc] at hk'
      cases hk'
    exact ⟨c', k', by simpa [put_conn, hne] using hk', hrest⟩

theorem close_sound (h : s.Sound) (hk : s.conn c = some k) :
    (s.put c { k with isOpen := false }).Sound where
  held_new := by
    intro c' k' hheld hk'
    rw [put_conn] at hk'
    split at hk'
    case isTrue heq => cases hk'; exact h.held_new c k (heq ▸ hheld) hk
    case isFalse => exact h.held_new c' k' hheld hk'
  done_closed := by
    intro c' k' hk' hdone
    rw [put_conn] at hk'
    split at hk'
    case isTrue => cases hk'; exact ⟨(h.done_closed c k hk hdone).1, rfl⟩
    case isFalse => exact h.done_closed c' k' hk' hdone
  owed := by
    intro addr hin
    obtain ⟨c', k', hk', hrest⟩ := h.owed addr hin
    by_cases heq : c' = c
    · rw [heq, hk] at hk'
      cases hk'
      exact ⟨c, { k with isOpen := false }, by simp [put_conn], hrest⟩
    · exact ⟨c', k', by simpa [put_conn, heq] using hk', hrest⟩

/-- A change that registers and opens nothing and takes no address out keeps what is listed. -/
theorem Listed.mono {s' : Coordinator Addr} (h : s.Listed)
    (hconn : ∀ c k', s'.conn c = some k' → k'.registered → k'.isOpen →
      ∃ k, s.conn c = some k ∧ k.remoteAddr = k'.remoteAddr ∧ k.registered ∧ k.isOpen)
    (hmap : ∀ addr, (s.peerMap addr).isSome → (s'.peerMap addr).isSome) : s'.Listed := by
  intro c k' hk' hreg hopen
  obtain ⟨k, hk, haddr, hreg, hopen⟩ := hconn c k' hk' hreg hopen
  rw [← haddr]
  exact hmap _ (h c k hk hreg hopen)

theorem accept_listed (h : s.Listed) (addr : Addr) :
    Listed { s.put c (.accepted addr) with held := some c } := by
  apply h.mono
  · intro c' k' hk' hreg hopen
    simp only [put_conn] at hk'
    split at hk'
    case isTrue => cases hk'; cases hreg
    case isFalse => exact ⟨k', hk', rfl, hreg, hopen⟩
  · exact fun addr' hin => hin

theorem close_listed (h : s.Listed) : (s.put c { k with isOpen := false }).Listed := by
  apply h.mono
  · intro c' k' hk' hreg hopen
    rw [put_conn] at hk'
    split at hk'
    case isTrue => cases hk'; cases hopen
    case isFalse => exact ⟨k', hk', rfl, hreg, hopen⟩
  · exact fun addr' hin => hin

theorem spares_none {e : Event Addr} (h : s.removal e = none) : s.Spares e := by
  intro addr haddr
  rw [h] at haddr
  cases haddr

theorem spares_some {e : Event Addr} {addr : Addr} (h : s.removal e = some addr) :
    s.Spares e ↔ ∀ c k, s.conn c = some k → k.registered → k.isOpen → k.remoteAddr ≠ addr := by
  simp [Spares, h]

variable [DecidableEq Addr]

theorem register_sound (h : s.Sound) (hk : s.conn c = some k) (hheld : s.held = some c)
    (p : ConnectedPeer) :
    Sound { (s.put c { k with registered := true }).setPeer k.remoteAddr (some p) with
      held := none } where
  held_new _ _ hnone := by cases hnone
  done_closed := by
    intro c' k' hk' hdone
    rw [setPeer_conn, put_conn] at hk'
    split at hk'
    case isTrue =>
        cases hk'
        have hclosed := h.done_closed c k hk hdone
        rw [h.held_new c k hheld hk] at hclosed
        cases hclosed.1
    case isFalse => exact h.done_closed c' k' hk' hdone
  owed := by
    intro addr hin
    by_cases hat : addr = k.remoteAddr
    · exact ⟨c, { k with registered := true }, by simp [put_conn], hat.symm, rfl,
        by simpa using h.undone hk (h.held_new c k hheld hk)⟩
    · have hold : (s.peerMap addr).isSome := by simpa [setPeer_peerMap, hat] using hin
      obtain ⟨c', k', hk', haddr, hreg, hrest⟩ := h.owed addr hold
      have hne : c' ≠ c := by
        intro heq
        rw [heq, hk] at hk'
        cases hk'
        exact hat haddr.symm
      exact ⟨c', k', by simpa [put_conn, hne] using hk', haddr, hreg, hrest⟩

theorem setPeer_sound (h : s.Sound) (addr : Addr) (p : Option ConnectedPeer)
    (hp : p.isSome → (s.peerMap addr).isSome) : (s.setPeer addr p).Sound where
  held_new := h.held_new
  done_closed := h.done_closed
  owed := by
    intro addr' hin
    apply h.owed addr'
    rw [setPeer_peerMap] at hin
    split at hin
    case isTrue heq => rw [heq]; exact hp hin
    case isFalse => exact hin

/-- A removal by one of the two tasks of a closed connection. -/
theorem remove_sound (h : s.Sound) (hk : s.conn c = some k) (hreg : k.registered)
    (hclosed : k.isOpen = false) (k' : Connection Addr)
    (hreg' : k'.registered = k.registered) (hopen' : k'.isOpen = k.isOpen) :
    ((s.put c k').setPeer k.remoteAddr none).Sound where
  held_new := by
    intro c₁ k₁ hheld hk₁
    rw [setPeer_conn, put_conn] at hk₁
    split at hk₁
    case isTrue heq =>
        cases hk₁
        rw [hreg']
        exact h.held_new c k (heq ▸ hheld) hk
    case isFalse => exact h.held_new c₁ k₁ hheld hk₁
  done_closed := by
    intro c₁ k₁ hk₁ hdone
    rw [setPeer_conn, put_conn] at hk₁
    split at hk₁
    case isTrue => cases hk₁; exact ⟨hreg'.trans hreg, hopen'.trans hclosed⟩
    case isFalse => exact h.done_closed c₁ k₁ hk₁ hdone
  owed := by
    intro addr hin
    rw [setPeer_peerMap] at hin
    split at hin
    case isTrue => cases hin
    case isFalse hne =>
        obtain ⟨c₁, k₁, hk₁, hat, hrest⟩ := h.owed addr hin
        have hother : c₁ ≠ c := by
          intro heq
          rw [heq, hk] at hk₁
          cases hk₁
          exact hne hat.symm
        exact ⟨c₁, k₁, by simpa [put_conn, hother] using hk₁, hat, hrest⟩

theorem step_sound (s : Coordinator Addr) (e : Event Addr) (h : s.Sound) : (s.step e).Sound := by
  cases e with
  | accept c addr =>
      simp only [step]
      split
      case isTrue hready =>
          simp only [Bool.and_eq_true, Option.isNone_iff_eq_none] at hready
          exact accept_sound h hready.2 addr
      case isFalse => exact h
  | register c =>
      refine on_property h fun k hk => ?_
      split
      case isTrue hheld => exact register_sound h hk hheld _
      case isFalse => exact h
  | stop => exact ⟨h.held_new, h.done_closed, h.owed⟩
  | close c => exact on_property h fun k hk => close_sound h hk
  | block c primeSelector =>
      refine on_property h fun k hk => ?_
      split
      case isTrue => exact setPeer_sound h _ _ (by simp)
      case isFalse => exact h
  | watcher c =>
      refine on_property h fun k hk => ?_
      split
      case isTrue hready =>
          obtain ⟨hreg, hclosed⟩ := watcherReady_closed hready
          exact remove_sound h hk hreg hclosed _ rfl rfl
      case isFalse => exact h
  | streams c =>
      refine on_property h fun k hk => ?_
      split
      case isTrue hready =>
          obtain ⟨hreg, hclosed⟩ := streamsReady_closed hready
          exact remove_sound h hk hreg hclosed _ rfl rfl
      case isFalse => exact h

theorem register_listed (h : s.Listed) (p : ConnectedPeer) :
    Listed { (s.put c { k with registered := true }).setPeer k.remoteAddr (some p) with
      held := none } := by
  intro c' k' hk' hreg hopen
  simp only [setPeer_conn, put_conn] at hk'
  simp only [setPeer_peerMap, put_peerMap]
  split
  case isTrue => rfl
  case isFalse hne =>
      split at hk'
      case isTrue => cases hk'; exact absurd rfl hne
      case isFalse => exact h c' k' hk' hreg hopen

theorem setPeer_listed (h : s.Listed) (addr : Addr) (p : Option ConnectedPeer)
    (hp : (s.peerMap addr).isSome → p.isSome) : (s.setPeer addr p).Listed := by
  apply h.mono
  · exact fun c' k' hk' hreg hopen => ⟨k', hk', rfl, hreg, hopen⟩
  · intro addr' hin
    rw [setPeer_peerMap]
    split
    case isTrue heq => exact hp (heq ▸ hin)
    case isFalse => exact hin

/-- A removal for a closed connection leaves the others listed exactly when none of them
has its address. -/
theorem remove_listed_iff (h : s.Listed) (hk : s.conn c = some k) (hclosed : k.isOpen = false)
    (k' : Connection Addr) (hopen' : k'.isOpen = k.isOpen) (addr : Addr) :
    ((s.put c k').setPeer addr none).Listed ↔
      ∀ c k, s.conn c = some k → k.registered → k.isOpen → k.remoteAddr ≠ addr := by
  have hother : ∀ c₁ k₁, s.conn c₁ = some k₁ → k₁.isOpen → c₁ ≠ c := by
    intro c₁ k₁ hk₁ hopen heq
    rw [heq, hk] at hk₁
    cases hk₁
    rw [hclosed] at hopen
    cases hopen
  constructor
  · intro hlisted c₁ k₁ hk₁ hreg hopen hat
    have hin := hlisted c₁ k₁ (by simp [put_conn, hother c₁ k₁ hk₁ hopen, hk₁]) hreg hopen
    simp [setPeer_peerMap, hat] at hin
  · intro hspared c₁ k₁ hk₁ hreg hopen
    rw [setPeer_conn, put_conn] at hk₁
    split at hk₁
    case isTrue =>
        cases hk₁
        rw [hopen', hclosed] at hopen
        cases hopen
    case isFalse =>
        rw [setPeer_peerMap, if_neg (hspared c₁ k₁ hk₁ hreg hopen)]
        exact h c₁ k₁ hk₁ hreg hopen

/-- What the watcher and the stream loop do, each with its own mark. -/
theorem task_listed_iff {e : Event Addr} {ready : Connection Addr → Bool}
    {done : Connection Addr → Connection Addr} (h : s.Listed)
    (hstep : s.step e = s.on c fun k =>
      if ready k then (s.put c (done k)).setPeer k.remoteAddr none else s)
    (hremoval : s.removal e = (s.conn c).bind fun k =>
      if ready k then some k.remoteAddr else none)
    (hready : ∀ k, ready k → k.isOpen = false) (hdone : ∀ k, (done k).isOpen = k.isOpen) :
    (s.step e).Listed ↔ s.Spares e := by
  cases hk : s.conn c with
  | none => simpa [hstep, on, hk, h] using spares_none (by simp [hremoval, hk])
  | some k =>
      cases hr : ready k with
      | false => simpa [hstep, on, hk, hr, h] using spares_none (by simp [hremoval, hk, hr])
      | true =>
          have haddr : s.removal e = some k.remoteAddr := by simp [hremoval, hk, hr]
          rw [spares_some haddr]
          simpa [hstep, on, hk, hr] using
            remove_listed_iff h hk (hready k hr) (done k) (hdone k) k.remoteAddr

theorem step_listed_iff (s : Coordinator Addr) (e : Event Addr) (h : s.Listed) :
    (s.step e).Listed ↔ s.Spares e := by
  cases e with
  | accept c addr =>
      refine iff_of_true ?_ (spares_none rfl)
      simp only [step]
      split
      case isTrue => exact accept_listed h addr
      case isFalse => exact h
  | register c =>
      refine iff_of_true (on_property h fun k hk => ?_) (spares_none rfl)
      split
      case isTrue => exact register_listed h _
      case isFalse => exact h
  | stop => exact iff_of_true h (spares_none rfl)
  | close c => exact iff_of_true (on_property h fun k hk => close_listed h) (spares_none rfl)
  | block c primeSelector =>
      refine iff_of_true (on_property h fun k hk => ?_) (spares_none rfl)
      split
      case isTrue => exact setPeer_listed h _ _ (by simp)
      case isFalse => exact h
  | watcher c =>
      exact task_listed_iff h rfl rfl
        (fun k hready => (watcherReady_closed hready).2) fun k => rfl
  | streams c =>
      exact task_listed_iff h rfl rfl
        (fun k hready => (streamsReady_closed hready).2) fun k => rfl

/-- From the start of the loop the peer map is exact in every state exactly when no removal
for a closed connection comes while another connection of its address is registered and
open. -/
theorem peer_map_exact_iff (events : List (Event Addr)) :
    Always step Exact init events ↔ Each step Spares init events := by
  apply always_iff_each (W := Sound) init_sound step_sound (init_sound.exact_iff.mpr init_listed)
  intro s e hsound hexact
  rw [(step_sound s e hsound).exact_iff]
  exact step_listed_iff s e hexact.1

/-- A worker that reconnects from its socket before the tasks of its old connection have
run: the first removal takes the new connection's entry. -/
theorem reconnect_unlisted :
    ¬ Always step Exact init ([.accept 0 7, .register 0, .close 0, .accept 1 7, .register 1,
      .watcher 0] : List (Event Nat)) := by
  intro h
  have hlisted := h.last.1 1 { Connection.accepted 7 with registered := true } rfl rfl rfl
  cases hlisted

end Coordinator

end ShannonPrime.Network
