import ShannonPrime.Cpu.Ring2Backend
import ShannonPrime.Lib.Records

/-!
A peer as the store of the second ring (`ring2_quic.rs`): the requests on the wire, the server's
map of blocks, and the calls of the backend. The transport delivers a request and its reply, or
cuts the stream.
-/

namespace ShannonPrime.Network.Ring2

open Cpu (Block)
open Cpu.Ring2
open Fetch
open Records

/-- `R2_MAGIC`, "SPR2" -/
def r2Magic : Nat := 0x53505232

/-- `R2_HDR` -/
def r2Hdr : Nat := 64

structure R2Req where
  op : Nat
  which : Nat
  len : Nat
  off : Nat
  deriving DecidableEq, Repr

/-- The fields of the header, with the bytes between them, which are zero. -/
def reqFields (r : R2Req) : List (Nat × Nat) :=
  [(4, r2Magic), (1, r.op), (1, r.which), (2, 0), (4, r.len), (4, 0), (8, r.off), (40, 0)]

def reqToBytes (r : R2Req) : List UInt8 := fields (reqFields r)

def reqFromBytes (b : List UInt8) : Option R2Req :=
  if number b 0 4 ≠ r2Magic then none
  else
    some
      { op := number b 4 1
        which := number b 5 1
        len := number b 8 4
        off := number b 16 8 }

/-- The peer's blocks, by stream and offset. -/
abbrev PeerStore := Nat × Nat → Option Block

/-- The task of one stream: what it replies to the bytes that arrive, if it does. -/
def serve (store : PeerStore) (stream : List UInt8) : Option (List UInt8) × PeerStore :=
  if stream.length < r2Hdr then (none, store)
  else
    match reqFromBytes (stream.take r2Hdr) with
    | none => (none, store)
    | some req =>
        if req.op = 1 then
          let payload := stream.drop r2Hdr
          if payload.length < req.len then (none, store)
          else (some [0], Function.update store (req.which, req.off) (some (payload.take req.len)))
        else if req.op = 0 then
          match store (req.which, req.off) with
          | some blk => if blk.length = req.len then (some (0 :: blk), store) else (some [1], store)
          | none => (some [1], store)
        else (none, store)

/-- What the transport does with one stream: the request arrives and its reply returns, or only
the first `n` bytes arrive and the client sees an error. -/
inductive Fate where
  | served
  | cut (n : Nat)
  deriving DecidableEq, Repr

def exchange (store : PeerStore) (stream : List UInt8) : Fate → Option (List UInt8) × PeerStore
  | .served => serve store stream
  | .cut n => (none, (serve store (stream.take n)).2)

/-- `one_write` -/
def oneWrite (store : PeerStore) (which : Nat) (off : UInt64) (src : Block) (fate : Fate) :
    Bool × PeerStore :=
  let r := exchange store
    (reqToBytes { op := 1, which, len := src.length % 2 ^ 32, off := off.toNat } ++ src) fate
  match r.1 with
  | some (status :: _) => (status == 0, r.2)
  | _ => (false, r.2)

/-- `one_read` of `len` bytes. -/
def oneRead (store : PeerStore) (which : Nat) (off : UInt64) (len : Nat) (fate : Fate) :
    Option Block :=
  let r := exchange store
    (reqToBytes { op := 0, which, len := len % 2 ^ 32, off := off.toNat }) fate
  match r.1 with
  | some (status :: payload) =>
      if status ≠ 0 ∨ payload.length < len then none else some (payload.take len)
  | _ => none

/-- `which as u8` -/
def whichByte (which : Int) : Nat := (which % 2 ^ 8).toNat

/-- A call of the backend; it has no `read_batch2`. -/
def remoteStep (store : PeerStore) (fate : Fate) : Call → Delivered × PeerStore
  | .write which off src =>
      let r := oneWrite store (whichByte which) off src fate
      (if r.1 then some [] else none, r.2)
  | .read which off len =>
      ((oneRead store (whichByte which) off len fate).map fun p => [some p], store)
  | .readBatch reqs len =>
      (reqs.mapM fun req => (oneRead store (whichByte req.1) req.2 len fate).map some, store)
  | .readBatch2 _ _ => (none, store)

/-- What a sequence of calls delivers, each with what the transport does to it. -/
def remoteRun (store : PeerStore) : List (Call × Fate) → List Delivered
  | [] => []
  | (call, fate) :: calls =>
      (remoteStep store fate call).1 :: remoteRun (remoteStep store fate call).2 calls

/-! ## The wire -/

/-- The fields of a request fit the header. -/
structure R2Req.Fits (r : R2Req) : Prop where
  op : r.op < 2 ^ 8
  which : r.which < 2 ^ 8
  len : r.len < 2 ^ 32
  off : r.off < 2 ^ 64

variable {r : R2Req}

theorem reqToBytes_length (r : R2Req) : (reqToBytes r).length = r2Hdr := fields_length (reqFields r)

/-- A header is read as the request that it was written for. -/
theorem reqFromBytes_reqToBytes (h : r.Fits) : reqFromBytes (reqToBytes r) = some r := by
  have hfield : ∀ {i w n : Nat}, (reqFields r)[i]? = some (w, n) →
      number (reqToBytes r) (fieldAt (reqFields r) i) w = n % 256 ^ w := by
    intro i w n hi
    have hnumber := number_field [] hi
    rwa [List.append_nil] at hnumber
  have hmagic : number (reqToBytes r) 0 4 = r2Magic := hfield (i := 0) rfl
  have hop : number (reqToBytes r) 4 1 = r.op :=
    (hfield (i := 1) rfl).trans (Nat.mod_eq_of_lt h.op)
  have hwhich : number (reqToBytes r) 5 1 = r.which :=
    (hfield (i := 2) rfl).trans (Nat.mod_eq_of_lt h.which)
  have hlen : number (reqToBytes r) 8 4 = r.len :=
    (hfield (i := 4) rfl).trans (Nat.mod_eq_of_lt h.len)
  have hoff : number (reqToBytes r) 16 8 = r.off :=
    (hfield (i := 6) rfl).trans (Nat.mod_eq_of_lt h.off)
  rw [reqFromBytes, if_neg (not_not.mpr hmagic), hop, hwhich, hlen, hoff]

/-- A stream that begins with a header is served for its request. -/
theorem reqFromBytes_stream (h : r.Fits) (payload : List UInt8) :
    reqFromBytes ((reqToBytes r ++ payload).take r2Hdr) = some r ∧
      (reqToBytes r ++ payload).drop r2Hdr = payload := by
  rw [← reqToBytes_length r, List.take_left, List.drop_left]
  exact ⟨reqFromBytes_reqToBytes h, rfl⟩

/-! ## The peer next to the local store

To callers that keep to whole blocks of the presized files both are a map from blocks to what was
written there last; they part where nothing was written, which the peer refuses and the file reads
as zeros. -/

/-- A block of a stream. -/
abbrev Key := Fin 2 × UInt64

/-- What each block was last written with, and what became of the request. -/
abbrev History := Key → Option (Block × Fate)

def record (h : History) : Call × Fate → History
  | (.write which off src, fate) =>
      match streamOf which with
      | some w => Function.update h (w, off) (some (src, fate))
      | none => h
  | _ => h

def history (calls : List (Call × Fate)) : History := calls.foldl record fun _ => none

/-- The blocks that a call reads. -/
def readsOf : Call → List Key
  | .write _ _ _ => []
  | .read which off _ => ((streamOf which).map fun w => (w, off)).toList
  | .readBatch reqs _ => reqs.filterMap fun req => (streamOf req.1).map fun w => (w, req.2)
  | .readBatch2 reqs _ => reqs.filterMap fun req => (streamOf req.1).map fun w => (w, req.2)

/-- The discipline of the second ring: whole blocks of the stream, within its presized file. -/
def Disciplined (blk cap : Fin 2 → Nat) : Call → Prop
  | .write which off src =>
      ∃ w, streamOf which = some w ∧ src.length = blk w ∧ InBlocks (blk w) (cap w) off
  | .read which off len =>
      ∃ w, streamOf which = some w ∧ len = blk w ∧ InBlocks (blk w) (cap w) off
  | .readBatch reqs len =>
      ∀ req ∈ reqs, ∃ w, streamOf req.1 = some w ∧ len = blk w ∧ InBlocks (blk w) (cap w) req.2
  | .readBatch2 _ _ => False

/-- The bytes of a block that was written, or zeros. -/
def valueAt (blk : Fin 2 → Nat) (h : History) (k : Key) : Block :=
  match h k with
  | some (data, _) => data
  | none => List.replicate (blk k.1) 0

/-- The last write of the block reached the peer, and its reply returned. -/
def Stored (h : History) (k : Key) : Prop := ∃ data, h k = some (data, .served)

section

variable {blk cap : Fin 2 → Nat} {h : History} {call : Call} {fate : Fate}

/-- A disciplined batch is read block by block. -/
theorem mapM_reads {α : Type} {reqs : List (Int × UInt64)} {len : Nat}
    (hcall : Disciplined blk cap (.readBatch reqs len)) {f : Int × UInt64 → Option α}
    {g : Key → Option α}
    (hfg : ∀ req ∈ reqs, ∀ w, streamOf req.1 = some w → len = blk w →
      InBlocks (blk w) (cap w) req.2 → f req = g (w, req.2)) :
    reqs.mapM f = (readsOf (.readBatch reqs len)).mapM g := by
  induction reqs with
  | nil => rfl
  | cons req reqs ih =>
      obtain ⟨w, hw, hlen, hin⟩ := hcall req List.mem_cons_self
      have hreads : readsOf (.readBatch (req :: reqs) len) =
          (w, req.2) :: readsOf (.readBatch reqs len) := by
        rw [readsOf, List.filterMap_cons_some (b := (w, req.2)) (by rw [hw]; rfl)]
        rfl
      rw [hreads, List.mapM_cons, List.mapM_cons, hfg req List.mem_cons_self w hw hlen hin,
        ih (fun req' hreq' => hcall req' (List.mem_cons_of_mem _ hreq'))
          fun req' hreq' => hfg req' (List.mem_cons_of_mem _ hreq')]

/-- The blocks that a disciplined call reads lie in the files. -/
theorem inBlocks_of_reads (hcall : Disciplined blk cap call) {k : Key} (hk : k ∈ readsOf call) :
    InBlocks (blk k.1) (cap k.1) k.2 := by
  cases call with
  | write which off src => exact absurd hk List.not_mem_nil
  | read which off len =>
      obtain ⟨w, hw, -, hin⟩ := hcall
      rw [readsOf, hw] at hk
      rw [List.mem_singleton.mp hk]
      exact hin
  | readBatch reqs len =>
      obtain ⟨req, hreq, hkey⟩ := List.mem_filterMap.mp hk
      obtain ⟨w, hw, -, hin⟩ := hcall req hreq
      rw [hw] at hkey
      cases hkey
      exact hin
  | readBatch2 reqs len => exact hcall.elim

/-! ## The local store -/

/-- The files have what was written last, and zeros elsewhere. -/
structure LocalAgrees (blk cap : Fin 2 → Nat) (h : History) (r : Fin 2 → Ring2Disk) : Prop where
  block : ∀ w, (r w).block = blk w
  capacity : ∀ w, (r w).capacity = cap w
  blocks : ∀ w off, InBlocks (blk w) (cap w) off →
    diskStore.read (r w) off = some (valueAt blk h (w, off))

variable {r : Fin 2 → Ring2Disk}

theorem localAgrees_open (hopen : ∀ w, ring2DiskOpen (cap w) (blk w) = some (r w)) :
    LocalAgrees blk cap (fun _ => none) r := by
  have hfields : ∀ w, (r w).block = blk w ∧ (r w).capacity = cap w := by
    intro w
    have hw := hopen w
    rw [ring2DiskOpen] at hw
    split at hw
    · rw [← Option.some.inj hw]
      exact ⟨rfl, rfl⟩
    · cases hw
  refine ⟨fun w => (hfields w).1, fun w => (hfields w).2, fun w off hin => ?_⟩
  have hread := @ring2DiskOpen_read _ off _ _ (hopen w)
    (by rwa [(hfields w).1, (hfields w).2])
  rwa [(hfields w).1] at hread

theorem LocalAgrees.write (fate : Fate) (hr : LocalAgrees blk cap h r) {w : Fin 2} {off : UInt64}
    {src : Block} (hlen : src.length = blk w) (hin : InBlocks (blk w) (cap w) off) :
    ∃ d, diskStore.write (r w) off src = some d ∧
      LocalAgrees blk cap (Function.update h (w, off) (some (src, fate)))
        (Function.update r w d) := by
  have hin' : InBlocks (r w).block (r w).capacity off := by rwa [hr.block, hr.capacity]
  refine ⟨ring2DiskWrite (r w) off src, diskStore_write hin' (by rw [hr.block, hlen]), ?_⟩
  constructor
  case block =>
    intro w'
    rw [Function.update_apply]
    split
    · rename_i hw
      rw [hw]
      exact hr.block w
    · exact hr.block w'
  case capacity =>
    intro w'
    rw [Function.update_apply]
    split
    · rename_i hw
      rw [hw]
      exact hr.capacity w
    · exact hr.capacity w'
  case blocks =>
    intro w' off' hin''
    rw [Function.update_apply, valueAt, Function.update_apply]
    split
    · rename_i hw
      subst hw
      rw [diskStore.read_write (diskStore_write hin' (by rw [hr.block, hlen])) off']
      split
      · rename_i hoff
        rw [if_pos (by rw [hoff])]
      · rename_i hoff
        rw [if_neg fun heq => hoff (Prod.ext_iff.mp heq).2]
        exact hr.blocks _ _ hin''
    · rename_i hw
      rw [if_neg fun heq => hw (Prod.ext_iff.mp heq).1]
      exact hr.blocks _ _ hin''

/-- A disciplined call succeeds and delivers what was written last. -/
theorem direct_disciplined (fate : Fate) (hr : LocalAgrees blk cap h r)
    (hcall : Disciplined blk cap call) :
    (direct diskStore blk r call).1 =
        some ((readsOf call).map fun k => some (valueAt blk h k)) ∧
      LocalAgrees blk cap (record h (call, fate)) (direct diskStore blk r call).2 := by
  cases call with
  | write which off src =>
      obtain ⟨w, hw, hlen, hin⟩ := hcall
      obtain ⟨d, hd, hagrees⟩ := hr.write fate hlen hin
      rw [direct, record, hw]
      dsimp only
      rw [if_neg (not_not.mpr hlen), hd]
      exact ⟨rfl, hagrees⟩
  | read which off len =>
      obtain ⟨w, hw, hlen, hin⟩ := hcall
      rw [direct, readsOf, hw]
      refine ⟨?_, hr⟩
      dsimp only
      rw [Option.bind_some, if_neg (not_not.mpr hlen), hr.blocks w off hin]
      rfl
  | readBatch reqs len =>
      refine ⟨?_, hr⟩
      rw [direct]
      dsimp only
      rw [mapM_reads hcall (g := fun k => (diskStore.read (r k.1) k.2).map some)]
      · apply Traverse.mapM_eq_some
        intro k hk
        rw [hr.blocks k.1 k.2 (inBlocks_of_reads hcall hk)]
        rfl
      · intro req _ w hw hlen _
        rw [hw]
        exact if_neg (not_not.mpr hlen)
  | readBatch2 reqs len => exact hcall.elim

/-! ## The peer -/

/-- The peer has the blocks whose last write it served, and none that was never written. -/
structure RemoteAgrees (blk : Fin 2 → Nat) (h : History) (store : PeerStore) : Prop where
  absent : ∀ w off, h (w, off) = none → store (w.val, off.toNat) = none
  stored : ∀ w off data, h (w, off) = some (data, .served) →
    store (w.val, off.toNat) = some data ∧ data.length = blk w

variable {store : PeerStore}

theorem whichByte_stream {which : Int} {w : Fin 2} (hw : streamOf which = some w) :
    whichByte which = w.val := by
  rw [streamOf] at hw
  split at hw
  · rename_i hzero
    cases hw
    rw [hzero]
    rfl
  · split at hw
    · rename_i hone
      cases hw
      rw [hone]
      rfl
    · cases hw

theorem req_fits {op len : Nat} (hop : op < 2 ^ 8) (hlen : len < 2 ^ 32) (w : Fin 2)
    (off : UInt64) : R2Req.Fits { op, which := w.val, len, off := off.toNat } := by
  have hoff := off.toNat_lt
  have hw := w.isLt
  exact ⟨hop, by dsimp only; omega, hlen, hoff⟩

/-- A write that is served leaves its block at the peer. -/
theorem serve_write {src : Block} (hlen : src.length < 2 ^ 32) (w : Fin 2) (off : UInt64) :
    serve store (reqToBytes { op := 1, which := w.val, len := src.length, off := off.toNat } ++ src) =
      (some [0], Function.update store (w.val, off.toNat) (some src)) := by
  obtain ⟨hreq, hpayload⟩ := reqFromBytes_stream (req_fits (show 1 < 2 ^ 8 by omega) hlen w off) src
  rw [serve, if_neg, hreq]
  · dsimp only
    rw [hpayload, if_pos rfl, if_neg (Nat.lt_irrefl _), List.take_length]
  · rw [List.length_append, reqToBytes_length]
    omega

/-- However much of a stream arrives, no block but that of its request changes. -/
theorem serve_cut {req : R2Req} (hfits : req.Fits) (payload : List UInt8) (n : Nat)
    {k : Nat × Nat} (hk : k ≠ (req.which, req.off)) :
    (serve store ((reqToBytes req ++ payload).take n)).2 k = store k := by
  rw [serve]
  split
  · rfl
  · rename_i hlong
    have hn : r2Hdr ≤ n := by
      rw [List.length_take] at hlong
      omega
    have hhead : ((reqToBytes req ++ payload).take n).take r2Hdr =
        (reqToBytes req ++ payload).take r2Hdr := by
      rw [List.take_take, Nat.min_eq_left hn]
    rw [hhead, (reqFromBytes_stream hfits payload).1]
    dsimp only
    split
    · split
      · rfl
      · exact Function.update_of_ne hk _ _
    · split
      · split
        · split <;> rfl
        · rfl
      · rfl

theorem oneRead_served {len : Nat} (hlen : len < 2 ^ 32) (w : Fin 2) (off : UInt64) :
    oneRead store w.val off len .served =
      match store (w.val, off.toNat) with
      | some data => if data.length = len then some data else none
      | none => none := by
  have hstream := reqFromBytes_stream (req_fits (show 0 < 2 ^ 8 by omega) hlen w off) []
  rw [List.append_nil] at hstream
  rw [oneRead, Nat.mod_eq_of_lt hlen, exchange, serve, if_neg, hstream.1]
  · dsimp only
    rw [if_neg (by omega), if_pos rfl]
    cases store (w.val, off.toNat) with
    | none => rfl
    | some data =>
        dsimp only
        rcases eq_or_ne data.length len with hdata | hdata
        · rw [if_pos hdata, if_pos hdata]
          dsimp only
          rw [if_neg fun hno => hno.elim (fun hne => hne rfl) (by omega), ← hdata, List.take_length]
        · rw [if_neg hdata, if_neg hdata]
          rfl
  · rw [reqToBytes_length]
    exact Nat.lt_irrefl _

theorem oneWrite_served {src : Block} (hlen : src.length < 2 ^ 32) (w : Fin 2) (off : UInt64) :
    oneWrite store w.val off src .served =
      (true, Function.update store (w.val, off.toNat) (some src)) := by
  rw [oneWrite, Nat.mod_eq_of_lt hlen, exchange, serve_write hlen]
  rfl

/-- Whatever the transport does to a write, the other blocks stay. -/
theorem oneWrite_other {src : Block} (hlen : src.length < 2 ^ 32) (w : Fin 2) (off : UInt64)
    {k : Nat × Nat} (hk : k ≠ (w.val, off.toNat)) :
    (oneWrite store w.val off src fate).2 k = store k := by
  cases fate with
  | served =>
      rw [oneWrite_served hlen]
      exact Function.update_of_ne hk _ _
  | cut n =>
      rw [oneWrite, Nat.mod_eq_of_lt hlen, exchange]
      exact serve_cut (req_fits (show 1 < 2 ^ 8 by omega) hlen w off) src n hk

/-- A call leaves the peer with what its history says. -/
theorem remoteStep_agrees (fate : Fate) (hs : RemoteAgrees blk h store) (hblk : ∀ w, blk w < 2 ^ 32)
    (hcall : Disciplined blk cap call) :
    RemoteAgrees blk (record h (call, fate)) (remoteStep store fate call).2 := by
  cases call with
  | write which off src =>
      obtain ⟨w, hw, hlen, -⟩ := hcall
      have hsmall : src.length < 2 ^ 32 := hlen ▸ hblk w
      have hother : ∀ {w' : Fin 2} {off' : UInt64}, (w', off') ≠ (w, off) →
          (oneWrite store w.val off src fate).2 (w'.val, off'.toNat) =
            store (w'.val, off'.toNat) := by
        intro w' off' hne
        apply oneWrite_other hsmall
        intro heq
        obtain ⟨hw', hoff'⟩ := Prod.ext_iff.mp heq
        exact hne (Prod.ext (Fin.val_injective hw') (UInt64.toNat_inj.mp hoff'))
      have hstep : (remoteStep store fate (.write which off src)).2 =
          (oneWrite store w.val off src fate).2 := by
        rw [remoteStep, whichByte_stream hw]
      have hrecord : record h (.write which off src, fate) =
          Function.update h (w, off) (some (src, fate)) := by
        rw [record, hw]
      rw [hrecord, hstep]
      constructor
      case absent =>
        intro w' off' hnone
        rw [Function.update_apply] at hnone
        split at hnone
        · cases hnone
        · rename_i hne
          rw [hother hne]
          exact hs.absent w' off' hnone
      case stored =>
        intro w' off' data hdata
        rw [Function.update_apply] at hdata
        split at hdata
        · rename_i heq
          cases heq
          cases hdata
          rw [oneWrite_served hsmall]
          exact ⟨Function.update_self _ _ _, hlen⟩
        · rename_i hne
          rw [hother hne]
          exact hs.stored w' off' data hdata
  | read which off len => exact hs
  | readBatch reqs len => exact hs
  | readBatch2 reqs len => exact hcall.elim

/-- A block is read as it was written last, if the peer served the write, and not at all if it
was never written. -/
theorem oneRead_agrees (hs : RemoteAgrees blk h store) (hblk : ∀ w, blk w < 2 ^ 32) (k : Key) :
    (Stored h k → oneRead store k.1.val k.2 (blk k.1) .served = some (valueAt blk h k)) ∧
      (h k = none → oneRead store k.1.val k.2 (blk k.1) .served = none) := by
  rw [oneRead_served (hblk k.1)]
  constructor
  · rintro ⟨data, hdata⟩
    obtain ⟨hstore, hlen⟩ := hs.stored k.1 k.2 data hdata
    rw [hstore, valueAt, hdata]
    exact if_pos hlen
  · intro hnone
    rw [hs.absent k.1 k.2 hnone]

/-- A disciplined call that is served. -/
theorem remoteStep_served (hs : RemoteAgrees blk h store) (hblk : ∀ w, blk w < 2 ^ 32)
    (hcall : Disciplined blk cap call) :
    ((∀ k ∈ readsOf call, Stored h k) → (remoteStep store .served call).1 =
        some ((readsOf call).map fun k => some (valueAt blk h k))) ∧
      ((∃ k ∈ readsOf call, h k = none) → (remoteStep store .served call).1 = none) := by
  cases call with
  | write which off src =>
      obtain ⟨w, hw, hlen, -⟩ := hcall
      have hsmall : src.length < 2 ^ 32 := hlen ▸ hblk w
      rw [remoteStep, whichByte_stream hw, oneWrite_served hsmall]
      exact ⟨fun _ => rfl, fun ⟨_, hk, _⟩ => absurd hk List.not_mem_nil⟩
  | read which off len =>
      obtain ⟨w, hw, rfl, -⟩ := hcall
      obtain ⟨hstored, habsent⟩ := oneRead_agrees hs hblk (w, off)
      rw [remoteStep, whichByte_stream hw, readsOf, hw]
      constructor
      · intro hall
        rw [hstored (hall _ (List.mem_singleton_self _))]
        rfl
      · rintro ⟨k, hk, hnone⟩
        rw [List.mem_singleton.mp hk] at hnone
        rw [habsent hnone]
        rfl
  | readBatch reqs len =>
      have hreads : (remoteStep store .served (.readBatch reqs len)).1 =
          (readsOf (.readBatch reqs len)).mapM fun k =>
            (oneRead store k.1.val k.2 (blk k.1) .served).map some := by
        apply mapM_reads hcall
        intro req _ w hw hlen _
        rw [whichByte_stream hw, hlen]
      rw [hreads]
      constructor
      · intro hall
        apply Traverse.mapM_eq_some
        intro k hk
        rw [(oneRead_agrees hs hblk k).1 (hall k hk)]
        rfl
      · rintro ⟨k, hk, hnone⟩
        rw [Option.eq_none_iff_forall_ne_some]
        intro blocks hblocks
        obtain ⟨y, hy⟩ := Traverse.mapM_mem hblocks k hk
        rw [(oneRead_agrees hs hblk k).2 hnone] at hy
        cases hy
  | readBatch2 reqs len => exact hcall.elim

end

/-! ## Whole runs -/

section

variable {blk cap : Fin 2 → Nat} {calls : List (Call × Fate)}

theorem directRun_disciplined {h : History} {r : Fin 2 → Ring2Disk}
    (hr : LocalAgrees blk cap h r) (hcalls : ∀ c ∈ calls, Disciplined blk cap c.1) {i : Nat}
    {call : Call} {fate : Fate} (hi : calls[i]? = some (call, fate)) :
    (directRun diskStore blk r (calls.map Prod.fst))[i]? =
      some (some ((readsOf call).map fun k =>
        some (valueAt blk ((calls.take i).foldl record h) k))) := by
  induction calls generalizing h r i with
  | nil => cases hi
  | cons c calls ih =>
      obtain ⟨hdelivered, hnext⟩ := direct_disciplined c.2 hr (hcalls c List.mem_cons_self)
      rw [List.map_cons, directRun]
      cases i with
      | zero =>
          cases hi
          rw [List.getElem?_cons_zero, hdelivered]
          rfl
      | succ i =>
          rw [List.getElem?_cons_succ, List.take_succ_cons, List.foldl_cons]
          exact ih hnext (fun c' hc' => hcalls c' (List.mem_cons_of_mem _ hc')) hi

theorem remoteRun_disciplined {h : History} {store : PeerStore} (hs : RemoteAgrees blk h store)
    (hblk : ∀ w, blk w < 2 ^ 32) (hcalls : ∀ c ∈ calls, Disciplined blk cap c.1) {i : Nat}
    {call : Call} (hi : calls[i]? = some (call, .served)) :
    ((∀ k ∈ readsOf call, Stored ((calls.take i).foldl record h) k) →
        (remoteRun store calls)[i]? = some (some ((readsOf call).map fun k =>
          some (valueAt blk ((calls.take i).foldl record h) k)))) ∧
      ((∃ k ∈ readsOf call, (calls.take i).foldl record h k = none) →
        (remoteRun store calls)[i]? = some none) := by
  induction calls generalizing h store i with
  | nil => cases hi
  | cons c calls ih =>
      obtain ⟨call', fate⟩ := c
      have hdisc := hcalls _ List.mem_cons_self
      have hnext := remoteStep_agrees fate hs hblk hdisc
      rw [remoteRun]
      cases i with
      | zero =>
          cases hi
          obtain ⟨hstored, habsent⟩ := remoteStep_served hs hblk hdisc
          rw [List.getElem?_cons_zero, Option.some_inj, Option.some_inj]
          exact ⟨hstored, habsent⟩
      | succ i =>
          rw [List.getElem?_cons_succ, List.take_succ_cons, List.foldl_cons]
          exact ih hnext (fun c' hc' => hcalls c' (List.mem_cons_of_mem _ hc')) hi

end

/-- Every disciplined call on the local store succeeds, whatever its caches, and delivers what
was written last or zeros. The peer delivers the same to a call that the transport serves, if it
served the last writes of the blocks that are read, and refuses a block that was never
written. -/
theorem remote_refines (blk cap : Fin 2 → Nat) (r : Fin 2 → Ring2Disk)
    (junk : Fin 2 → Cpu.BlkCache) (nslot : Fin 2 → Nat) (calls : List (Call × Fate))
    (hopen : ∀ w, ring2DiskOpen (cap w) (blk w) = some (r w)) (hblk : ∀ w, blk w < 2 ^ 32)
    (hcalls : ∀ c ∈ calls, Disciplined blk cap c.1) (i : Nat) (call : Call)
    (hi : calls[i]? = some (call, .served)) :
    (run diskStore (opened r blk junk nslot) (calls.map Prod.fst))[i]? =
        some (some ((readsOf call).map fun k => some (valueAt blk (history (calls.take i)) k))) ∧
      ((∀ k ∈ readsOf call, Stored (history (calls.take i)) k) →
        (remoteRun (fun _ => none) calls)[i]? =
          (run diskStore (opened r blk junk nslot) (calls.map Prod.fst))[i]?) ∧
      ((∃ k ∈ readsOf call, history (calls.take i) k = none) →
        (remoteRun (fun _ => none) calls)[i]? = some none) := by
  have hcoherent : Coherent diskStore (opened r blk junk nslot) := fun w =>
    Cpu.BlkCache.coherent_new _ _ _
  have hempty : RemoteAgrees blk (fun _ => none) fun _ => none :=
    ⟨fun _ _ _ => rfl, fun _ _ _ hno => (nomatch hno)⟩
  have hlocal := directRun_disciplined (localAgrees_open hopen) hcalls hi
  obtain ⟨hstored, habsent⟩ := remoteRun_disciplined hempty hblk hcalls hi
  rw [run_direct hcoherent]
  exact ⟨hlocal, fun hall => (hstored hall).trans hlocal.symm, habsent⟩

/-- A file of two blocks of two bytes. -/
def smallDisk : Ring2Disk := ⟨2, 4, BlockFile.presized 4, Nat.two_pos, Nat.le_refl 4⟩

def smallCalls : List (Call × Fate) :=
  [(.write 0 2 [7, 9], .served), (.write 1 0 [1, 1], .cut 65), (.readBatch [(0, 2)] 2, .served)]

/-- A block is read back after a write of another stream that was cut. -/
theorem remote_refines_small : (remoteRun (fun _ => none) smallCalls)[2]? =
    some (some [some [7, 9]]) := by
  have hcalls : ∀ c ∈ smallCalls, Disciplined (fun _ => 2) (fun _ => 4) c.1 := by
    intro c hc
    rcases List.mem_cons.mp hc with rfl | hc
    · exact ⟨0, rfl, rfl, by decide⟩
    · rcases List.mem_cons.mp hc with rfl | hc
      · exact ⟨1, rfl, rfl, by decide⟩
      · rw [List.mem_singleton.mp hc]
        intro req hreq
        rw [List.mem_singleton.mp hreq]
        exact ⟨0, rfl, rfl, by decide⟩
  obtain ⟨hlocal, hsame, -⟩ := remote_refines (fun _ => 2) (fun _ => 4) (fun _ => smallDisk)
    (fun _ => emptyCache) (fun _ => 8) smallCalls (fun _ => rfl) (fun _ => by decide) hcalls 2
    (.readBatch [(0, 2)] 2) rfl
  refine (hsame fun k hk => ?_).trans hlocal
  rw [List.mem_singleton.mp hk]
  exact ⟨[7, 9], rfl⟩

/-- The file reads a block that was never written as zeros, and the peer refuses it. -/
theorem remote_misses : ¬ ∀ (blk cap : Fin 2 → Nat) (r : Fin 2 → Ring2Disk) (calls : List Call),
    (∀ w, ring2DiskOpen (cap w) (blk w) = some (r w)) → (∀ w, blk w < 2 ^ 32) →
      (∀ call ∈ calls, Disciplined blk cap call) →
        remoteRun (fun _ => none) (calls.map fun call => (call, .served)) =
          run diskStore (opened r blk (fun _ => emptyCache) fun _ => 0) calls := by
  intro h
  have hread := h (fun _ => 2) (fun _ => 4) (fun _ => smallDisk) [.read 0 2 2] (fun _ => rfl)
    (fun _ => by decide) fun call hcall => by
      rw [List.mem_singleton.mp hcall]
      exact ⟨0, rfl, rfl, by decide⟩
  exact absurd hread (by decide)

end ShannonPrime.Network.Ring2
