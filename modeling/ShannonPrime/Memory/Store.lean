import ShannonPrime.Recall.Select

/-!
The memory of the daemon: the curated registry read at startup, the nightshift episodes that
grow at run time, the registry file behind both, and the shared store of concepts that is
merged in. A memory is forgotten by a turn, superseded or merged by the decide pass, captured,
reconciled with the store, and read back after a restart. Files that can be opened can be
written.
-/

namespace ShannonPrime.Memory

open Recall Ranking

abbrev Text := List Char

/-- The 256 bits of a signature. -/
abbrev Sig := BitVec 256

/-! ### Texts -/

/-- `str::contains`. -/
def containsText (pat s : Text) : Bool := s.tails.any fun t => pat.isPrefixOf t

/-- `str::replace`. The count is of characters of a match still to be passed over. -/
def replaceFrom (pat rep : Text) : Nat → Text → Text
  | _, [] => []
  | n + 1, _ :: s => replaceFrom pat rep n s
  | 0, c :: s =>
      if pat.isPrefixOf (c :: s) then rep ++ replaceFrom pat rep (pat.length - 1) s
      else c :: replaceFrom pat rep 0 s

def replaceText (pat rep : String) (s : Text) : Text := replaceFrom pat.toList rep.toList 0 s

/-- `s.get(n..)`, in bytes. -/
def getFrom : Nat → Text → Option Text
  | 0, s => some s
  | _ + 1, [] => none
  | n + 1, c :: s => if c.utf8Size ≤ n + 1 then getFrom (n + 1 - c.utf8Size) s else none

/-- `find`, in bytes. -/
def findText (pat s : Text) : Option Nat :=
  (s.tails.findIdx? fun t => pat.isPrefixOf t).map fun i => byteLen (s.take i)

/-- The payload of a captured user turn, as it is delivered. -/
def userSaid (text : Text) : Text := "The user said: ".toList ++ text

/-! ### Episodes and files -/

structure MemPolicy where
  memClass : Text
  delivery : Text
  declineWhen : List Text
  declineMessage : Text
  deriving DecidableEq

def classDefaultDelivery (memClass : Text) : Text :=
  if memClass = "private-secret".toList then "attr-gate-strict".toList
  else if memClass = "counterfact".toList ∨ memClass = "same-template".toList then
    "systemecho".toList
  else if memClass = "preference".toList ∨ memClass = "persona".toList then "system".toList
  else "recite".toList

/-- `MemPolicy::from_class`. -/
def MemPolicy.fromClass (memClass : Text) : MemPolicy :=
  if memClass = "private-secret".toList then
    ⟨memClass, classDefaultDelivery memClass,
      ["zero-inference".toList, "attribute-absent".toList], Recall.declineMessage.toList⟩
  else ⟨memClass, classDefaultDelivery memClass, [], []⟩

/-- What governs an episode's recall. The selection keys are left out. -/
structure Episode where
  name : Text
  text : Text
  sig : Sig
  policy : Option MemPolicy
  /-- 0 is active, 1 is superseded. -/
  lifecycle : Nat
  deriving DecidableEq

/-- A JSON row of the registry file: the fields that are there and have their type. -/
structure Row where
  name : Option Text
  dir : Option Text
  text : Option Text
  sig : Option Sig
  memClass : Option Text
  memDelivery : Option Text
  memDeclineWhen : Option (List Text)
  memDeclineMessage : Option Text
  lifecycle : Option Nat
  deriving DecidableEq

/-- A line that is not blank, none when it does not parse. -/
abbrev Line := Option Row

/-- A concept of the shared store. It is `keyed` when its selection key is cached or can be
minted. -/
structure Concept where
  addr : Text
  body : Text
  policy : Option MemPolicy
  keyed : Bool
  deriving DecidableEq

/-- The files that are only read: the policy beside an episode, and the texts by signature of
`corpus_manifest.jsonl`. -/
structure Disk where
  okfPolicy : Text → Option MemPolicy
  manifest : Sig → Option Text

structure Env where
  /-- `SP_RECALL_REGISTRY` names a file. -/
  registryPath : Bool
  /-- `SP_MEM_LIFECYCLE` -/
  lifecycle : Bool
  /-- `SP_NIGHTSHIFT_PERSIST` -/
  persist : Bool
  /-- `SP_MEM_OKF_STORE` -/
  okfStore : Bool
  /-- Superseded episodes are scanned too, as under `SP_RECALL_AUDIT` or by a selector that
  does not look at the lifecycle. -/
  audit : Bool
  deriving DecidableEq

/-- `registry` is fixed at startup; none switches recall off. `file` is none when there is no
registry file to read. -/
structure Store where
  registry : Option (List Episode)
  nightshift : List Episode
  file : Option (List Line)
  concepts : List Concept
  deriving DecidableEq

/-- Every episode in memory, in the order it is scanned. -/
def Store.pool (st : Store) : List Episode := st.registry.getD [] ++ st.nightshift

def Env.active (env : Env) (e : Episode) : Bool := e.lifecycle == 0 || env.audit

/-- What a turn can recall. -/
def Store.candidates (env : Env) (st : Store) : List Episode :=
  match st.registry with
  | none => []
  | some _ => st.pool.filter env.active

/-! ### Reading the registry -/

variable (disk : Disk)

def Row.policy (r : Row) : Option MemPolicy :=
  r.memClass.map fun c =>
    ⟨c, r.memDelivery.getD (classDefaultDelivery c), r.memDeclineWhen.getD [],
      r.memDeclineMessage.getD Recall.declineMessage.toList⟩

def loadRow (r : Row) : Option Episode :=
  match r.dir, r.sig with
  | some dir, some sig =>
      some
        { name := r.name.getD "?".toList
          text := r.text.getD []
          sig
          policy := (disk.okfPolicy dir).or r.policy
          lifecycle := r.lifecycle.getD 0 % 256 }
  | _, _ => none

/-- An episode without a text has the manifest's. -/
def backfill (e : Episode) : Episode :=
  if e.text = [] then { e with text := (disk.manifest e.sig).getD [] } else e

def loadRegistry (lines : List Line) : List Episode :=
  (lines.filterMap fun l => l.bind (loadRow disk)).map (backfill disk)

/-! ### Removal -/

section Removal

variable (victims : List Text)

def retireEpisodes (life : Bool) (eps : List Episode) : List Episode :=
  if life then eps.map fun e => if victims.contains e.text then { e with lifecycle := 1 } else e
  else eps.filter fun e => !victims.contains e.text

/-- `mark_superseded_registry` -/
def markSuperseded (victim : Text) (lc : Nat) (lines : List Line) : List Line :=
  lines.map fun l => l.map fun r =>
    if r.text = some victim then { r with lifecycle := some lc } else r

def retireLines (life : Bool) (lines : List Line) : List Line :=
  if life then victims.foldl (fun lines victim => markSuperseded victim 1 lines) lines
  else lines.filter fun l => !l.any fun r => r.text.any victims.contains

/-- The texts leave the nightshift list and the registry file, or are marked there. -/
def Store.retire (env : Env) (st : Store) : Store :=
  { st with
    nightshift := retireEpisodes victims env.lifecycle st.nightshift
    file := if env.registryPath then st.file.map (retireLines victims env.lifecycle) else st.file }

end Removal

/-! ### The forget turn -/

variable {F : Type} [LinearOrder F] (A : Arith F) (u : Unicode) (env : Env)

def tokenOverlap (evidence cited : Text) : F :=
  if (overlapToks evidence).isEmpty then A.zero
  else A.ratio ((overlapToks evidence).filter (overlapToks cited).contains).length
    (overlapToks evidence).length

def bestOverlap (q : Text) (eps : List Episode) : Option (F × Text) :=
  eps.foldl (fun best ep =>
    let ov := tokenOverlap A q ep.text
    if best.all (·.1 < ov) then some (ov, ep.text) else best) none

def isForget (rawUser : Option Text) : Bool :=
  rawUser.any fun s =>
    let l := u.toLowercase s
    containsText "forget".toList l || containsText "delete that".toList l ||
      containsText "erase".toList l

/-- The store after a forget turn, with the text it removed. -/
def Store.forget (st : Store) (rawUser : Option Text) : Store × Option Text :=
  if isForget u rawUser then
    let ftext := (rawUser.map trim).getD []
    let q := replaceText "erase" " " (replaceText "please" " "
      (replaceText "forget" " " (u.toLowercase ftext)))
    match (bestOverlap A q st.pool).filter fun best => A.ratio 1 4 ≤ best.1 with
    | some (_, text) => (st.retire [text] env, some text)
    | none => (st, none)
  else (st, none)

/-! ### Capture -/

/-- The artifacts of a capture that went through. -/
structure Captured where
  name : Text
  dir : Text
  sig : Sig
  /-- `classify_mem_class`, under `SP_MEM_CLASSIFY`. -/
  memClass : Option Text

def Captured.episode (c : Captured) (text : Text) : Episode :=
  ⟨c.name, text, c.sig, c.memClass.map MemPolicy.fromClass, 0⟩

def Captured.row (c : Captured) (text : Text) : Row :=
  ⟨some c.name, some c.dir, some text, some c.sig, c.memClass, none, none, none, none⟩

/-- The end of `capture_live_episode`: a row of the registry file and a live episode. -/
def Store.capture (st : Store) (c : Captured) (text : Text) : Store :=
  { st with
    nightshift := st.nightshift ++ [c.episode text]
    file := if env.persist && env.registryPath then some (st.file.getD [] ++ [some (c.row text)])
      else st.file }

/-! ### The decide pass -/

/-- The memories about the subject of a new fact, the closest first. -/
def Store.related (st : Store) (newName newText : Text) : List Text :=
  let cands := st.pool.foldl (fun cands ep =>
    if ep.name = newName ∨ ep.text = newText then cands
    else
      let ov := tokenOverlap A newText ep.text
      if A.ratio 3 10 ≤ ov ∧ ¬cands.any fun c => c.2 = ep.text then cands ++ [(ov, ep.text)]
      else cands) ([] : List (F × Text))
  ((ranked Prod.fst cands).take 5).map Prod.snd

/-- The number in the reply to the first question, in upper case. -/
def parseChanged (reply : Text) : Option Nat :=
  if containsText "NONE".toList reply then none
  else
    let digits := (reply.dropWhile fun c => !isAsciiDigit c).takeWhile isAsciiDigit
    if digits.isEmpty then none
    else
      let n := digits.foldl (fun n c => 10 * n + (c.toNat - 0x30)) 0
      if n < 2 ^ 64 then some n else none

/-- The combined fact in the reply to the second. -/
def parseMerge (reply : Text) : Option Text :=
  let mtrim := trim reply
  let lower := u.toLowercase mtrim
  match lower.tails.findIdx? fun t => "merge".toList.isPrefixOf t with
  | none => none
  | some i =>
      if containsText "none".toList (lower.take i) then none
      else
        let rest := (getFrom (byteLen (lower.take i) + 5) mtrim).getD []
        let bare := trim (rest.dropWhile fun c => [':', '=', '-', '>', ' '].contains c)
        let combined := trim ((bare.dropWhile (· == '"')).rdropWhile (· == '"'))
        if 4 ≤ combined.length then some combined else none

/-- The model retires one of the related memories by its number. -/
def Store.supersede (st : Store) (cands : List Text) (reply : Text) : Store × Option Text :=
  match parseChanged reply with
  | some n =>
      match if 1 ≤ n then cands[n - 1]? else none with
      | some victim => (st.retire [victim] env, some victim)
      | none => (st, none)
  | none => (st, none)

/-- Both facts are dropped and the combined one is captured, when that goes through. -/
def Store.merge (st : Store) (newText cand combined : Text) (capture : Option Captured) : Store :=
  let dropped := st.retire [newText, cand] env
  match capture with
  | some c => dropped.capture env c combined
  | none => dropped

/-- The replies are to the first question, in upper case, and to the second. -/
def Store.decide (st : Store) (newName newText changed merging : Text)
    (capture : Option Captured) : Store × Option Text :=
  match st.related A newName newText with
  | [] => (st, none)
  | cand :: cands =>
      match st.supersede env (cand :: cands) changed with
      | (st', some victim) => (st', some victim)
      | (st', none) =>
          match parseMerge u merging with
          | some combined => (st'.merge env newText cand combined capture, none)
          | none => (st', none)

/-! ### The shared store -/

/-- `iter_mut().find(p)` -/
def updateFirst (p : Episode → Bool) (f : Episode → Episode) : List Episode → List Episode
  | [] => []
  | e :: eps => if p e then f e :: eps else e :: updateFirst p f eps

/-- One concept of the pass: an episode that is there takes its policy, a new one is added. -/
def reconcileConcept (already : List Text) (acc : List Episode × List Episode) (c : Concept) :
    List Episode × List Episode :=
  if already.contains c.addr then
    (updateFirst (fun e => e.name == c.addr)
      (fun e =>
        if e.policy.map (·.memClass) = c.policy.map (·.memClass) then e
        else { e with policy := c.policy }) acc.1, acc.2)
  else if c.body.isEmpty || !c.keyed then acc
  else (acc.1, acc.2 ++ [⟨c.addr, c.body, 0, c.policy, 0⟩])

/-- `load_and_mint_okf_store` -/
def Store.reconcile (st : Store) : Store :=
  let (nightshift, eps) :=
    st.concepts.foldl (reconcileConcept (st.nightshift.map (·.name))) (st.nightshift, [])
  { st with nightshift := nightshift ++ eps }

/-- `refine_okf_store`, with the class the model gives a body. -/
def Store.refine (st : Store) (classify : Text → Option Text) : Store :=
  let changed := fun c : Concept =>
    if c.body.isEmpty then none
    else
      (classify c.body).filter fun new =>
        let cur := c.policy.map (·.memClass)
        cur ≠ some new &&
          !(cur = some "private-secret".toList && new ≠ "private-secret".toList)
  { st with
    nightshift := st.concepts.foldl (fun ns c =>
      match changed c with
      | some new =>
          updateFirst (fun e => e.name == c.addr)
            (fun e => { e with policy := some (MemPolicy.fromClass new) }) ns
      | none => ns) st.nightshift
    concepts := st.concepts.map fun c =>
      match changed c with
      | some new => { c with policy := some (MemPolicy.fromClass new) }
      | none => c }

/-- A new process: the registry is read from the file, the nightshift list starts empty, and
the shared store is merged in. -/
def Store.restart (st : Store) : Store :=
  let fresh : Store :=
    { st with
      registry := if env.registryPath then st.file.map (loadRegistry disk) else none
      nightshift := [] }
  if env.okfStore then fresh.reconcile else fresh

/-! ### Runs -/

/-- What changes the memory. A chat turn is a sequence of these. -/
inductive Action where
  | forget (rawUser : Option Text)
  /-- The nightshift capture of a user turn, and the store verb. -/
  | remember (c : Captured) (text : Text)
  | decide (newName newText changed merging : Text) (capture : Option Captured)
  | reconcile
  | refine (classify : Text → Option Text)
  /-- Someone edits the shared store. -/
  | author (concepts : List Concept)
  | restart

def Store.step (st : Store) : Action → Store
  | .forget rawUser => (st.forget A u env rawUser).1
  | .remember c text => st.capture env c (userSaid text)
  | .decide newName newText changed merging capture =>
      (st.decide A u env newName newText changed merging capture).1
  | .reconcile => if env.okfStore then st.reconcile else st
  | .refine classify => st.refine classify
  | .author concepts => { st with concepts }
  | .restart => st.restart disk env

/-- The text that an action forgets or supersedes. -/
def Store.victim (st : Store) : Action → Option Text
  | .forget rawUser => (st.forget A u env rawUser).2
  | .decide newName newText changed merging capture =>
      (st.decide A u env newName newText changed merging capture).2
  | _ => none

end ShannonPrime.Memory
