import ShannonPrime.Lib.Runs
import ShannonPrime.Swarm.Object

/-!
The mutual authentication of the swarm (`client_auth`, `server_auth`), frame by frame, and
the system of the nodes: any number of sessions of each of them, every frame chosen by the
network. A node signs with one key the objects it publishes and the challenges of its
peers. Signatures are ideal: one is valid when the holder of the key has made it.
-/

namespace ShannonPrime.Swarm

open Utf8 Runs

variable {Key : Type*}

/-- A node: its id, its key and the roster it was given. -/
structure Node (Key : Type*) where
  nodeId : List Char
  key : Key
  roster : Roster Key

/-- Where a session is: which frame it waits for, and what it has from the earlier ones. -/
inductive Stage (Key : Type*) where
  | clientId (nc : List UInt8)
  | clientNonce (nc : List UInt8) (peer : List Char)
  | clientSig (nc : List UInt8) (peer : List Char) (ns : List UInt8)
  | clientReply (peer : List Char)
  | serverId
  | serverNonce (peer : List Char)
  | serverSig (peer : List Char) (vk : Key) (ns : List UInt8)
  | done (peer : List Char)
  | failed

/-- What a frame leads to: the next stage, the frames sent, the message signed for them. -/
structure Outcome (Key : Type*) where
  stage : Stage Key
  sent : List (List UInt8)
  signed : Option (List UInt8)

def Outcome.fail (sent : List (List UInt8)) : Outcome Key := ⟨.failed, sent, none⟩

def okFrame : List UInt8 := encode ['O', 'K']

def noFrame : List UInt8 := encode ['N', 'O']

/-- The longest frame that `rd` takes. -/
def maxFrame : Nat := 64 * 1024 * 1024

section Auth

variable (sign : Key → List UInt8 → List UInt8) (verify : Key → List UInt8 → List UInt8 → Bool)
variable (me : Node Key)

def clientAuth : Stage Key → List UInt8 → Outcome Key
  | .clientId nc, frame =>
      match fromUtf8 frame with
      | some peer => ⟨.clientNonce nc peer, [], none⟩
      | none => .fail []
  | .clientNonce nc peer, frame => ⟨.clientSig nc peer frame, [], none⟩
  | .clientSig nc peer ns, frame =>
      match signatureOf frame with
      | none => .fail []
      | some sig =>
          match me.roster peer with
          | none => .fail []
          | some vk =>
              if verify vk nc sig then ⟨.clientReply peer, [sign me.key ns], some ns⟩
              else .fail []
  | .clientReply peer, frame => if frame = okFrame then ⟨.done peer, [], none⟩ else .fail []
  | stage, _ => ⟨stage, [], none⟩

/-- `ns` is the nonce that the server draws when it needs one. -/
def serverAuth (ns : List UInt8) : Stage Key → List UInt8 → Outcome Key
  | .serverId, frame =>
      match fromUtf8 frame with
      | some peer => ⟨.serverNonce peer, [], none⟩
      | none => .fail []
  | .serverNonce peer, frame =>
      match me.roster peer with
      | none => .fail [noFrame]
      | some vk =>
          ⟨.serverSig peer vk ns, [encode me.nodeId, ns, sign me.key frame], some frame⟩
  | .serverSig peer vk ns, frame =>
      match signatureOf frame with
      | none => .fail []
      | some sig => if verify vk ns sig then ⟨.done peer, [okFrame], none⟩ else .fail [noFrame]
  | stage, _ => ⟨stage, [], none⟩

/-- The next frame of a session of either side. -/
def authFrame (ns : List UInt8) (stage : Stage Key) (frame : List UInt8) : Outcome Key :=
  if maxFrame < frame.length then .fail []
  else
    match stage with
    | .serverId | .serverNonce _ | .serverSig _ _ _ => serverAuth sign verify me ns stage frame
    | _ => clientAuth sign verify me stage frame

end Auth

/-! ## The system -/

variable {N : Type*}

structure Session (N Key : Type*) where
  node : N
  stage : Stage Key

/-- The sessions by the number of their connection, every signature made, what has been
published (key, address and normalized body), the frames sent. -/
structure System (N Key : Type*) where
  session : Nat → Option (Session N Key)
  signed : List (Key × List UInt8)
  published : List (Key × List Char × List Char)
  sent : List (Nat × List UInt8)

/-- The 32 bytes of a nonce. -/
abbrev Nonce := Fin 32 → UInt8

/-- What can happen next, in any order. `frame` is the next frame that the node has from a
connection, with the nonce it draws should it need one. -/
inductive Event (N : Type*) where
  | publish (n : N) (addr body : List Char)
  | connect (c : Nat) (n : N) (nc : Nonce)
  | incoming (c : Nat) (n : N)
  | frame (c : Nat) (bytes : List UInt8) (ns : Nonce)

namespace System

def init : System N Key := ⟨fun _ => none, [], [], []⟩

variable [DecidableEq Key] (sign : Key → List UInt8 → List UInt8)

/-- An ideal signature: the holder of the key has signed the message. -/
def verifies (s : System N Key) (vk : Key) (msg sig : List UInt8) : Bool :=
  decide ((vk, msg) ∈ s.signed) && sig == sign vk msg

variable (nodes : N → Node Key)

def put (s : System N Key) (c : Nat) (n : N) (stage : Stage Key) (sent : List (List UInt8)) :
    System N Key :=
  { s with
    session := Function.update s.session c (some ⟨n, stage⟩)
    sent := s.sent ++ sent.map fun f => (c, f) }

/-- The holder of the key has signed the message. -/
def record (s : System N Key) (k : Key) (msg : List UInt8) : System N Key :=
  { s with signed := (k, msg) :: s.signed }

/-- One event. An address is one line; a connection has one session. -/
def step (s : System N Key) : Event N → System N Key
  | .publish n addr body =>
      if '\n' ∈ addr then s
      else
        { s.record (nodes n).key (signingPayload addr body) with
          published := ((nodes n).key, addr, norm body) :: s.published }
  | .connect c n nc =>
      if (s.session c).isSome then s
      else s.put c n (.clientId (List.ofFn nc)) [encode (nodes n).nodeId, List.ofFn nc]
  | .incoming c n => if (s.session c).isSome then s else s.put c n .serverId []
  | .frame c bytes ns =>
      match s.session c with
      | none => s
      | some ⟨n, stage⟩ =>
          let out := authFrame sign (s.verifies sign) (nodes n) (List.ofFn ns) stage bytes
          match out.signed with
          | none => s.put c n out.stage out.sent
          | some msg => (s.record (nodes n).key msg).put c n out.stage out.sent

/-- The challenge that a node answers when it has a frame: a server that of a rostered peer,
a client that of a peer that has proved its key. -/
def answered (s : System N Key) (n : N) : Stage Key → List UInt8 → Option (List UInt8)
  | .serverNonce peer, frame =>
      if frame.length ≤ maxFrame ∧ ((nodes n).roster peer).isSome then some frame else none
  | .clientSig nc peer ns, frame =>
      match (nodes n).roster peer with
      | none => none
      | some vk => if frame.length = 64 ∧ s.verifies sign vk nc frame then some ns else none
  | _, _ => none

/-- No node answers a challenge that is the payload of an object it has not published. -/
def Harmless (s : System N Key) : Event N → Prop
  | .frame c bytes _ => ∀ n stage msg, s.session c = some ⟨n, stage⟩ →
      s.answered sign nodes n stage bytes = some msg → ∀ addr body, '\n' ∉ addr →
        msg = signingPayload addr body → ((nodes n).key, addr, norm body) ∈ s.published
  | _ => True

/-- An object that is accepted has been published by the signer it names. -/
def Provenanced (sha256 : List UInt8 → List UInt8) (s : System N Key) : Prop :=
  ∀ (roster : Roster Key) addr text cls,
    accept sha256 (s.verifies sign) addr text (some roster) = .ok cls →
      ∃ signer vk, (parseFm text).1 memSigner = some signer ∧ roster signer = some vk ∧
        (vk, addr, norm (parseFm text).2) ∈ s.published

end System

end ShannonPrime.Swarm

/-!
Provenance over the runs of the swarm. A signature that a node accepts is one that its
maker made, for an object it published or for a challenge; so the named signer published the
object unless some node has answered a challenge that is the payload of an object.
-/

namespace ShannonPrime.Swarm

open Utf8 Runs

namespace System

variable {N Key : Type*} {s : System N Key}

/-- Whatever has the form of a payload has been signed to publish the object. -/
def Clean (s : System N Key) : Prop :=
  ∀ k addr body, '\n' ∉ addr → (k, signingPayload addr body) ∈ s.signed →
    (k, addr, norm body) ∈ s.published

theorem clean_init : (init : System N Key).Clean := by
  intro k addr body _ hmem
  cases hmem

theorem Clean.publish (h : s.Clean) (nodes : N → Node Key) (n : N) (addr body : List Char)
    (haddr : '\n' ∉ addr) :
    ({ s.record (nodes n).key (signingPayload addr body) with
        published := ((nodes n).key, addr, norm body) :: s.published } : System N Key).Clean := by
  intro k addr' body' haddr' hmem
  rcases List.mem_cons.mp hmem with heq | hold
  · obtain ⟨rfl, hpayload⟩ := Prod.mk.inj heq
    obtain ⟨rfl, hbody⟩ := signingPayload_inj haddr' haddr hpayload
    rw [hbody]
    exact List.mem_cons_self
  · exact List.mem_cons_of_mem _ (h k addr' body' haddr' hold)

theorem Clean.record (h : s.Clean) (k : Key) (msg : List UInt8)
    (hmsg : ∀ addr body, '\n' ∉ addr → msg = signingPayload addr body →
      (k, addr, norm body) ∈ s.published) : (s.record k msg).Clean := by
  intro k' addr body haddr hmem
  rcases List.mem_cons.mp hmem with heq | hold
  · obtain ⟨rfl, hpayload⟩ := Prod.mk.inj heq
    exact hmsg addr body haddr hpayload.symm
  · exact h k' addr body haddr hold

variable [DecidableEq Key] {sign : Key → List UInt8 → List UInt8} {nodes : N → Node Key}
variable {sha256 : List UInt8 → List UInt8}

/-- A frame makes a node sign the challenge that it answers, and nothing else. -/
theorem authFrame_signed (n : N) (ns : List UInt8) (stage : Stage Key) (bytes : List UInt8) :
    (authFrame sign (s.verifies sign) (nodes n) ns stage bytes).signed =
      s.answered sign nodes n stage bytes := by
  by_cases hlong : maxFrame < bytes.length
  · have hne : ¬bytes.length ≤ maxFrame := Nat.not_le.mpr hlong
    have h64 : ¬bytes.length = 64 := by
      unfold maxFrame at hlong
      omega
    unfold authFrame
    rw [if_pos hlong]
    cases stage with
    | serverNonce peer => simp [answered, Outcome.fail, hne]
    | clientSig nc peer ns' =>
        cases hvk : (nodes n).roster peer with
        | none => simp [answered, Outcome.fail, hvk]
        | some vk => simp [answered, Outcome.fail, hvk, h64]
    | clientId _ | clientNonce _ _ | clientReply _ | serverId | serverSig _ _ _ | done _
    | failed => rfl
  · have hle : bytes.length ≤ maxFrame := Nat.le_of_not_lt hlong
    unfold authFrame
    rw [if_neg hlong]
    cases stage with
    | serverNonce peer =>
        cases hvk : (nodes n).roster peer with
        | none => simp [serverAuth, answered, Outcome.fail, hvk]
        | some vk => simp [serverAuth, answered, hvk, hle]
    | clientSig nc peer ns' =>
        by_cases h64 : bytes.length = 64
        · cases hvk : (nodes n).roster peer with
          | none => simp [clientAuth, answered, Outcome.fail, hvk, signatureOf, h64]
          | some vk =>
              cases hproof : s.verifies sign vk nc bytes <;>
                simp [clientAuth, answered, Outcome.fail, hvk, signatureOf, h64, hproof]
        · cases hvk : (nodes n).roster peer with
          | none => simp [clientAuth, answered, Outcome.fail, hvk, signatureOf, h64]
          | some vk => simp [clientAuth, answered, Outcome.fail, hvk, signatureOf, h64]
    | clientId nc =>
        simp only [clientAuth, answered]
        cases fromUtf8 bytes <;> rfl
    | clientNonce nc peer => rfl
    | clientReply peer =>
        simp only [clientAuth, answered]
        split <;> rfl
    | serverId =>
        simp only [serverAuth, answered]
        cases fromUtf8 bytes <;> rfl
    | serverSig peer vk ns' =>
        simp only [serverAuth, answered]
        cases signatureOf bytes with
        | none => rfl
        | some sig =>
            dsimp only
            split <;> rfl
    | done peer => rfl
    | failed => rfl

theorem clean_step (e : Event N) (h : s.Clean) (hharmless : s.Harmless sign nodes e) :
    (s.step sign nodes e).Clean := by
  cases e with
  | publish n addr body =>
      simp only [step]
      split
      · exact h
      · rename_i haddr
        exact h.publish nodes n addr body haddr
  | connect c n nc =>
      simp only [step]
      split
      · exact h
      · exact h
  | incoming c n =>
      simp only [step]
      split
      · exact h
      · exact h
  | frame c bytes ns =>
      simp only [step]
      cases hses : s.session c with
      | none => exact h
      | some ses =>
          obtain ⟨n, stage⟩ := ses
          dsimp only
          rw [authFrame_signed]
          cases hmsg : s.answered sign nodes n stage bytes with
          | none => exact h
          | some msg => exact h.record _ msg (hharmless n stage msg hses hmsg)

theorem Clean.provenanced (h : s.Clean) : s.Provenanced sign sha256 := by
  intro roster addr text cls haccept
  obtain ⟨haddr, -, hprov⟩ := accept_eq_ok haccept
  obtain ⟨signer, vk, sig, hsigner, hvk, hverify⟩ := verifyProvenance_eq_ok hprov
  refine ⟨signer, vk, hsigner, hvk, h vk addr _ haddr ?_⟩
  exact of_decide_eq_true (Bool.and_eq_true_iff.mp hverify).1

/-- In a run in which no node answers a challenge that is the payload of an object it has not
published, whatever is accepted was published by the signer it names, at every moment. -/
theorem swarm_provenance (sign : Key → List UInt8 → List UInt8) (nodes : N → Node Key)
    (sha256 : List UInt8 → List UInt8) (events : List (Event N))
    (hharmless : Each (step sign nodes) (Harmless sign nodes) init events) :
    Always (step sign nodes) (Provenanced sign sha256) init events := by
  have hclean : Always (step sign nodes) Clean init events :=
    hharmless.always clean_init fun _ e h hstep => clean_step e h hstep
  intro before hbefore
  exact (hclean before hbefore).provenanced

/-- The challenge answered at an event, if there is one. -/
def challengeOf (sign : Key → List UInt8 → List UInt8) (nodes : N → Node Key)
    (s : System N Key) : Event N → Option (List UInt8)
  | .frame c bytes _ =>
      (s.session c).bind fun ses => s.answered sign nodes ses.node ses.stage bytes
  | _ => none

/-- No challenge that a run answers has a newline in it. -/
def quiet (sign : Key → List UInt8 → List UInt8) (nodes : N → Node Key) :
    System N Key → List (Event N) → Bool
  | _, [] => true
  | s, e :: later =>
      ((s.challengeOf sign nodes e).all fun msg => !msg.contains 10) &&
        quiet sign nodes (s.step sign nodes e) later

/-- A challenge without a newline is no payload. -/
theorem each_harmless_of_quiet {events : List (Event N)}
    (h : quiet sign nodes s events = true) :
    Each (step sign nodes) (Harmless sign nodes) s events := by
  induction events generalizing s with
  | nil => exact each_nil
  | cons e later ih =>
      obtain ⟨hnow, hlater⟩ := Bool.and_eq_true_iff.mp h
      refine (each_cons e).mpr ⟨?_, ih hlater⟩
      cases e with
      | frame c bytes ns =>
          intro n stage msg hses hmsg addr body _ hpayload
          have hmem := newline_mem_signingPayload addr body
          rw [← hpayload] at hmem
          simp [challengeOf, hses, hmsg, hmem] at hnow
      | publish _ _ _ | connect _ _ _ | incoming _ _ => exact trivial

/-! ## Two runs -/

/-- Two nodes with each other in their rosters. -/
def pairRoster : Roster Nat := fun id =>
  if id = ['a'] then some 1 else if id = ['b'] then some 2 else none

def pairNodes : Bool → Node Nat
  | false => ⟨['a'], 1, pairRoster⟩
  | true => ⟨['b'], 2, pairRoster⟩

/-- A signature of 64 bytes, the key in the first of them. -/
def keySign (k : Nat) (_ : List UInt8) : List UInt8 := UInt8.ofNat k :: List.replicate 63 0

/-- The digest of the body of one line, `hi`. -/
def hiDigest (_ : List UInt8) : List UInt8 :=
  [152, 234, 110, 79, 33, 111, 47, 180, 182, 159, 255, 155, 58, 68, 132, 44, 56, 104, 108, 166,
    133, 243, 245, 93, 196, 140, 93, 63, 177, 16, 123, 228]

/-- `a` connects to `b` and each proves its key to the other. -/
def handshakeRun : List (Event Bool) :=
  [.publish false ['x'] ['h', 'i'], .connect 0 false fun _ => 1, .incoming 1 true,
    .frame 1 (encode ['a']) fun _ => 2, .frame 1 (List.replicate 32 1) fun _ => 2,
    .frame 0 (encode ['b']) fun _ => 3, .frame 0 (List.replicate 32 2) fun _ => 3,
    .frame 0 (keySign 2 []) fun _ => 3, .frame 1 (keySign 1 []) fun _ => 2,
    .frame 0 okFrame fun _ => 3]

theorem handshake_provenance :
    Always (step keySign pairNodes) (Provenanced keySign hiDigest) init handshakeRun :=
  swarm_provenance keySign pairNodes hiDigest handshakeRun (each_harmless_of_quiet (by decide))

/-- Someone without a key asks `b` to answer a challenge that is the payload of an object. -/
def forgeryRun : List (Event Bool) :=
  [.incoming 0 true, .frame 0 (encode ['a']) fun _ => 2,
    .frame 0 (signingPayload (addrOf hiDigest ['h', 'i']) ['h', 'i']) fun _ => 2]

/-- The object with the answer as its provenance. -/
def forgedText : List Char :=
  fence ++ ['\n'] ++ memSigner ++ [':', ' ', 'b', '\n'] ++ memSig ++ [':', ' '] ++
    hexEncode (keySign 2 []) ++ ['\n'] ++ fence ++ ['\n', 'h', 'i', '\n']

theorem forged_object_accepted :
    ¬Always (step keySign pairNodes) (Provenanced keySign hiDigest) init forgeryRun := by
  intro h
  have haccept : accept hiDigest
      ((after (step keySign pairNodes) init forgeryRun).verifies keySign)
      (addrOf hiDigest ['h', 'i']) forgedText (some pairRoster) = .ok .content := by
    decide
  obtain ⟨signer, vk, -, -, hpublished⟩ := h.last pairRoster _ _ _ haccept
  exact absurd hpublished List.not_mem_nil

end System

end ShannonPrime.Swarm
