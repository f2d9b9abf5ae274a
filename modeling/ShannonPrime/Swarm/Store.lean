import ShannonPrime.Lib.Runs
import ShannonPrime.Swarm.Handshake

/-!
The store of a node: what it writes when it pulls from a peer, and what it answers a peer
that asks. An address is used as a file name as it comes. Paths are those of a Unix file
system without symbolic links; a write that the system refuses changes nothing.
-/

namespace ShannonPrime.Swarm

open Utf8
open Recall (isWhitespace firstWord)

/-! ## Files -/

/-- The components of an absolute path. -/
abbrev Path := List (List Char)

structure FileSys where
  file : Path → Option (List UInt8)
  dir : Path → Bool

namespace FileSys

/-- The path that components lead to from a directory; the last of them is a file's name. -/
def walk (fs : FileSys) : Path → List (List Char) → Option Path
  | _, [] => none
  | cur, [name] => some (cur ++ [name])
  | cur, c :: rest =>
      if c = [] ∨ c = ['.'] then walk fs cur rest
      else if c = ['.', '.'] then walk fs cur.dropLast rest
      else if fs.dir (cur ++ [c]) then walk fs (cur ++ [c]) rest
      else none

/-- `base.join(name)`, as the system resolves it. -/
def join (fs : FileSys) (base : Path) (name : List Char) : Option Path :=
  if name.head? = some '/' then fs.walk [] (name.splitOnP (· == '/'))
  else if fs.dir base then fs.walk base (name.splitOnP (· == '/'))
  else none

def read (fs : FileSys) (path : Option Path) : Option (List UInt8) := path.bind fs.file

def write (fs : FileSys) (path : Option Path) (bytes : List UInt8) : FileSys :=
  match path with
  | some p => if fs.dir p then fs else { fs with file := Function.update fs.file p (some bytes) }
  | none => fs

/-- `create_dir_all`. -/
def createDirAll (fs : FileSys) (path : Path) : FileSys :=
  if (fs.file path).isSome then fs
  else { fs with dir := fun p => fs.dir p || p.isPrefixOf path }

end FileSys

def mdSuffix : List Char := ['.', 'm', 'd']

def fullDir (root : Path) : Path := root ++ [['f', 'u', 'l', 'l']]

def sumDir (root : Path) : Path := root ++ [['s', 'u', 'm']]

/-- `have` has the address. -/
def holds (root : Path) (fs : FileSys) (addr : List Char) : Bool :=
  (fs.file (fullDir root ++ [addr ++ mdSuffix])).isSome || fs.dir (fullDir root ++ [addr ++ mdSuffix])

/-! ## Pulling -/

section Pull

variable {Key : Type*} (sha256 : List UInt8 → List UInt8)
variable (verify : Key → List UInt8 → List UInt8 → Bool) (root : Path)

/-- The write of an accepted object. -/
def commit (fs : FileSys) (addr text : List Char) : FileSys :=
  fs.write (fs.join (fullDir root) (addr ++ mdSuffix)) (encode text)

/-- The copy of a summary. -/
def commitSum (fs : FileSys) (addr summary : List Char) : FileSys :=
  fs.write (fs.join (sumDir root) (addr ++ mdSuffix)) (encode summary)

section Directory

variable (remoteFull remoteSum : List Char → Option (List Char)) (roster : Option (Roster Key))

def pullEach : FileSys → List (List Char) → FileSys
  | fs, [] => fs
  | fs, addr :: rest =>
      match remoteFull addr with
      | none => pullEach fs rest
      | some text =>
          match accept sha256 verify addr text roster with
          | .error _ => pullEach fs rest
          | .ok _ =>
              match remoteSum addr with
              | none => pullEach (commit root fs addr text) rest
              | some summary =>
                  pullEach (commitSum root (commit root fs addr text) addr summary) rest

/-- `pull`, from another directory: what it has of an address, and its summary of it. -/
def pull (fs : FileSys) (addrs : List (List Char)) : FileSys :=
  pullEach sha256 verify root remoteFull remoteSum roster
    ((fs.createDirAll (fullDir root)).createDirAll (sumDir root)) addrs

end Directory

structure SyncReport where
  pulled : List (List Char)
  rejected : List (List Char × Reject)

def missFrame : List UInt8 := encode ['M', 'I', 'S', 'S']

/-- The addresses are asked for in turn; each has the peer's next frame for its answer. There
is no report when the peer breaks off. -/
def fetchAll (roster : Roster Key) : FileSys → SyncReport → List (List Char) →
    List (List UInt8) → FileSys × Option SyncReport
  | fs, report, [], _ => (fs, some report)
  | fs, _, _ :: _, [] => (fs, none)
  | fs, report, addr :: rest, reply :: replies =>
      if maxFrame < reply.length then (fs, none)
      else if reply = missFrame then
        fetchAll roster fs { report with rejected := report.rejected ++ [(addr, .missing)] }
          rest replies
      else
        match accept sha256 verify addr (fromUtf8Lossy reply) (some roster) with
        | .ok _ =>
            fetchAll roster
              (commit root (fs.createDirAll (fullDir root)) addr (fromUtf8Lossy reply))
              { report with pulled := report.pulled ++ [addr] } rest replies
        | .error reason =>
            fetchAll roster fs { report with rejected := report.rejected ++ [(addr, reason)] }
              rest replies

def stripCr (line : List Char) : List Char :=
  if line.getLast? = some '\r' then line.dropLast else line

/-- `lines()`, without the empty ones. -/
def lines (text : List Char) : List (List Char) :=
  let pieces := text.splitOnP (· == '\n')
  (pieces.dropLast.map stripCr ++ (pieces.getLast?.toList)).filter fun line => !line.isEmpty

/-- What a peer's list names that the node does not hold. -/
def missing (fs : FileSys) (listing : List UInt8) : List (List Char) :=
  (lines (fromUtf8Lossy listing)).dedup.filter fun addr => !holds root fs addr

/-- `pull_from`; the addresses are asked for in the order in which the hash set has them. -/
def pullFrom (roster : Roster Key) (fs : FileSys) (listing : List UInt8)
    (order : List (List Char)) (replies : List (List UInt8)) : FileSys × Option SyncReport :=
  if listing.length ≤ maxFrame ∧ order.Perm (missing root fs listing) then
    fetchAll sha256 verify root roster fs ⟨[], []⟩ order replies
  else (fs, none)

/-- The candidates of a peer's answer that the node does not hold, nearest first. -/
def candidates (fs : FileSys) (answer : List UInt8) : List (List Char) :=
  (((lines (fromUtf8Lossy answer)).map firstWord).filter fun addr => !addr.isEmpty).filter
    fun addr => !holds root fs addr

/-- `discover_similar`. -/
def discoverSimilar (roster : Roster Key) (fs : FileSys) (answer : List UInt8)
    (replies : List (List UInt8)) : FileSys × Option SyncReport :=
  if answer.length ≤ maxFrame then
    fetchAll sha256 verify root roster fs ⟨[], []⟩ (candidates root fs answer) replies
  else (fs, none)

/-- The answer to `GET:` and what follows it in the frame. -/
def serveGet (fs : FileSys) (request : List UInt8) : List UInt8 :=
  (fs.read (fs.join (fullDir root) (fromUtf8Lossy request ++ mdSuffix))).getD missFrame

end Pull

/-! ## The node -/

/-- What the node does, with all that a peer sends for it. -/
inductive Op (Key : Type*) where
  | pull (remoteFull remoteSum : List Char → Option (List Char)) (addrs : List (List Char))
      (roster : Option (Roster Key))
  | pullFrom (roster : Roster Key) (listing : List UInt8) (order : List (List Char))
      (replies : List (List UInt8))
  | discoverSimilar (roster : Roster Key) (answer : List UInt8) (replies : List (List UInt8))
  | get (request : List UInt8)

section Node

variable {Key : Type*} (sha256 : List UInt8 → List UInt8)
variable (verify : Key → List UInt8 → List UInt8 → Bool) (root : Path)

def storeStep (fs : FileSys) : Op Key → FileSys
  | .pull remoteFull remoteSum addrs roster =>
      pull sha256 verify root remoteFull remoteSum roster fs addrs
  | .pullFrom roster listing order replies =>
      (pullFrom sha256 verify root roster fs listing order replies).1
  | .discoverSimilar roster answer replies =>
      (discoverSimilar sha256 verify root roster fs answer replies).1
  | .get _ => fs

end Node

end ShannonPrime.Swarm
