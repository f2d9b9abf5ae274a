import Mathlib.Algebra.Order.BigOperators.Group.List
import Mathlib.Algebra.Order.Group.Nat
import Mathlib.Data.Char
import Mathlib.Data.List.Dedup
import Mathlib.Data.List.Lex
import ShannonPrime.Swarm.StoreSafety

/-!
The mesh (`transport.rs`): every node serves its store and pulls from its peers, one at a
time. A pull asks for the peer's list once and then for one object after the other, and what
other nodes do falls between its requests. A connection may break at any moment.
-/

namespace ShannonPrime.Swarm

open Utf8 Runs

/-- `have_set`, of the names that reading the directory yields. -/
def haveSet (names : List (List Char)) : List UInt8 :=
  encode (['\n'].intercalate (names.mergeSort fun a b => decide (a ≤ b)))

/-- A pull that is under way. -/
structure Transfer (N : Type*) where
  peer : N
  pending : List (List Char)
  report : SyncReport

/-- With the last answer the puller says `DONE`. -/
def Transfer.goOn {N : Type*} (tr : Transfer N) : Option (Transfer N) :=
  if tr.pending = [] then none else some tr

structure Mesh (N : Type*) where
  fs : N → FileSys
  transfer : N → Option (Transfer N)

inductive MeshEvent (N : Type*)
  /-- `LIST`, with the names in the peer's directory and the order of the hash set. -/
  | dial (n peer : N) (names order : List (List Char))
  | get (n : N)
  | drop (n : N)

section Step

variable {N Key : Type*} [DecidableEq N] (sha256 : List UInt8 → List UInt8)
variable (verify : Key → List UInt8 → List UInt8 → Bool) (root : N → Path)
variable (roster : N → Roster Key)

/-- The next object of a transfer, and the answer to it. -/
def fetchNext (s : Mesh N) (n : N) (tr : Transfer N) (addr : List Char) (rest : List (List Char)) :
    Mesh N :=
  let answer := fetchAll sha256 verify (root n) (roster n) (s.fs n) tr.report [addr]
    [serveGet (root tr.peer) (s.fs tr.peer) (encode addr)]
  { fs := Function.update s.fs n answer.1
    transfer := Function.update s.transfer n
      (answer.2.bind fun report => Transfer.goOn ⟨tr.peer, rest, report⟩) }

def meshStep (s : Mesh N) : MeshEvent N → Mesh N
  | .dial n peer names order =>
      if (s.transfer n).isSome || maxFrame < (haveSet names).length then s
      else
        { s with
          transfer := Function.update s.transfer n (Transfer.goOn ⟨peer, order, ⟨[], []⟩⟩) }
  | .get n =>
      match s.transfer n with
      | none => s
      | some tr =>
          match tr.pending with
          | [] => s
          | addr :: rest => fetchNext sha256 verify root roster s n tr addr rest
  | .drop n => { s with transfer := Function.update s.transfer n none }

/-- The directory yields the names it holds, and the hash set has what is missing. -/
def Possible (s : Mesh N) : MeshEvent N → Prop
  | .dial n peer names order =>
      names.Nodup ∧ (∀ addr, addr ∈ names ↔ holds (root peer) (s.fs peer) addr) ∧
        order.Perm (missing (root n) (s.fs n) (haveSet names))
  | _ => True

end Step

/-! ## A store -/

def objectPath (root : Path) (addr : List Char) : Path := fullDir root ++ [addr ++ mdSuffix]

/-- A name that a line can hold and a path takes as it stands. -/
structure Named (addr : List Char) : Prop where
  nonempty : addr ≠ []
  line : '\n' ∉ addr
  ending : '\r' ∉ addr
  component : '/' ∉ addr

/-- The directory of the objects has files only, of well-formed texts that fit a frame. -/
structure Store (root : Path) (fs : FileSys) : Prop where
  place : fs.file (fullDir root) = none
  inside : ∀ addr, (fs.file (objectPath root addr)).isSome → fs.dir (fullDir root)
  files : ∀ addr, fs.dir (objectPath root addr) = false
  named : ∀ addr, (fs.file (objectPath root addr)).isSome → Named addr
  text : ∀ addr bytes, fs.file (objectPath root addr) = some bytes →
    bytes.length ≤ maxFrame ∧ ∃ text, bytes = encode text

section Store

variable {root : Path} {fs : FileSys} {addr text : List Char}

theorem objectPath_inj {addr' : List Char} :
    objectPath root addr = objectPath root addr' ↔ addr = addr' := by
  constructor
  · intro h
    have hname := (List.append_inj' h rfl).2
    exact List.append_cancel_right (List.singleton_inj.mp hname)
  · rintro rfl
    rfl

theorem objectPath_ne_fullDir : objectPath root addr ≠ fullDir root := by
  intro h
  have hlen := congrArg List.length h
  simp [objectPath] at hlen

theorem head_ne_slash (h : '/' ∉ addr) : (addr ++ mdSuffix).head? ≠ some '/' :=
  fun hhead => slash_not_mem_md h (List.mem_of_mem_head? hhead)

theorem Store.holds_eq (h : Store root fs) (addr : List Char) :
    holds root fs addr = (fs.file (objectPath root addr)).isSome := by
  have hdir := h.files addr
  rw [objectPath] at hdir
  rw [holds, hdir, Bool.or_false]
  rfl

/-- The path to an object, where there is a directory of objects. -/
theorem join_object (hslash : '/' ∉ addr) (hdir : fs.dir (fullDir root) = true) :
    fs.join (fullDir root) (addr ++ mdSuffix) = some (objectPath root addr) := by
  have hname := slash_not_mem_md hslash
  have hsplit : (addr ++ mdSuffix).splitOnP (· == '/') = [addr ++ mdSuffix] := by
    apply List.splitOnP_eq_singleton
    intro c hc
    rw [beq_eq_false_iff_ne]
    rintro rfl
    exact hname hc
  rw [FileSys.join, if_neg (head_ne_slash hslash), if_pos hdir, hsplit]
  rfl

/-- A peer answers with the object's file. -/
theorem Store.serveGet_eq (h : Store root fs) (hslash : '/' ∉ addr) :
    serveGet root fs (encode addr) = (fs.file (objectPath root addr)).getD missFrame := by
  rw [serveGet, fromUtf8Lossy_encode]
  by_cases hdir : fs.dir (fullDir root) = true
  · rw [join_object hslash hdir]
    rfl
  · have hnone : fs.file (objectPath root addr) = none := by
      by_contra hsome
      exact hdir (h.inside addr (Option.isSome_iff_ne_none.mpr hsome))
    have hjoin : ∀ p, fs.join (fullDir root) (addr ++ mdSuffix) ≠ some p := by
      intro p hp
      rw [FileSys.join, if_neg (head_ne_slash hslash), if_neg hdir] at hp
      cases hp
    rw [hnone, Option.eq_none_iff_forall_ne_some.mpr hjoin]
    rfl

theorem createDirAll_dir (hplace : fs.file (fullDir root) = none) (p : Path) :
    (fs.createDirAll (fullDir root)).dir p = (fs.dir p || p.isPrefixOf (fullDir root)) := by
  rw [FileSys.createDirAll, if_neg (by rw [hplace]; decide)]

theorem Store.dir_full (h : Store root fs) :
    (fs.createDirAll (fullDir root)).dir (fullDir root) = true := by
  rw [createDirAll_dir h.place, Bool.or_eq_true]
  exact Or.inr (List.isPrefixOf_iff_prefix.mpr (List.prefix_refl _))

theorem Store.dir_object (h : Store root fs) (addr : List Char) :
    (fs.createDirAll (fullDir root)).dir (objectPath root addr) = false := by
  rw [createDirAll_dir h.place, h.files, Bool.false_or, ← Bool.not_eq_true,
    List.isPrefixOf_iff_prefix]
  intro hpre
  have hlen := hpre.length_le
  rw [objectPath, List.length_append, List.length_singleton] at hlen
  omega

/-- The write of an object under a name that the store does not have. -/
theorem Store.commit_eq (h : Store root fs) (hnamed : Named addr) (text : List Char) :
    (commit root (fs.createDirAll (fullDir root)) addr text).file =
        Function.update fs.file (objectPath root addr) (some (encode text)) ∧
      (commit root (fs.createDirAll (fullDir root)) addr text).dir =
        (fs.createDirAll (fullDir root)).dir := by
  rw [commit, join_object hnamed.component h.dir_full, FileSys.write,
    if_neg (by rw [h.dir_object]; decide)]
  exact ⟨by rw [FileSys.createDirAll_file], rfl⟩

theorem Store.committed (h : Store root fs) (hnamed : Named addr)
    (hfits : (encode text).length ≤ maxFrame) :
    Store root (commit root (fs.createDirAll (fullDir root)) addr text) := by
  obtain ⟨hfile, hdir⟩ := h.commit_eq hnamed text
  have hothers : ∀ addr', addr' ≠ addr →
      (commit root (fs.createDirAll (fullDir root)) addr text).file (objectPath root addr') =
        fs.file (objectPath root addr') := by
    intro addr' hne
    rw [hfile, Function.update_of_ne (mt objectPath_inj.mp hne)]
  constructor
  case place =>
    rw [hfile, Function.update_of_ne objectPath_ne_fullDir.symm]
    exact h.place
  case inside =>
    intro _ _
    rw [hdir]
    exact h.dir_full
  case files =>
    intro addr'
    rw [hdir]
    exact h.dir_object addr'
  case named =>
    intro addr' hsome
    by_cases hsame : addr' = addr
    · rw [hsame]
      exact hnamed
    · rw [hothers addr' hsame] at hsome
      exact h.named addr' hsome
  case text =>
    intro addr' bytes hbytes
    by_cases hsame : addr' = addr
    · rw [hsame, hfile, Function.update_self, Option.some_inj] at hbytes
      rw [← hbytes]
      exact ⟨hfits, text, rfl⟩
    · rw [hothers addr' hsame] at hbytes
      exact h.text addr' bytes hbytes

end Store

/-! ## The list -/

section Listing

variable {names all : List (List Char)} {addr : List Char}

theorem lines_intercalate (h : ∀ addr ∈ names, Named addr) :
    lines (['\n'].intercalate names) = names := by
  rcases eq_or_ne names [] with rfl | hne
  · rfl
  have hpieces : (['\n'].intercalate names).splitOnP (· == '\n') = names :=
    List.splitOn_intercalate '\n' (fun addr haddr => (h addr haddr).line) hne
  have hstrip : names.dropLast.map stripCr = names.dropLast := by
    rw [List.map_congr_left (g := id) fun addr haddr => ?_, List.map_id]
    have hending := (h addr (List.dropLast_subset _ haddr)).ending
    exact if_neg fun hlast => hending (List.mem_of_getLast? hlast)
  have hlast := List.dropLast_append_getLast? _ (List.getLast?_eq_some_getLast hne)
  rw [lines, hpieces, hstrip, List.getLast?_eq_some_getLast hne, Option.toList_some, hlast,
    List.filter_eq_self]
  intro addr haddr
  rw [Bool.not_eq_true', List.isEmpty_eq_false_iff]
  exact (h addr haddr).nonempty

/-- The puller reads the names that the peer has. -/
theorem mem_lines_haveSet (h : ∀ addr ∈ names, Named addr) :
    addr ∈ lines (fromUtf8Lossy (haveSet names)) ↔ addr ∈ names := by
  rw [haveSet, fromUtf8Lossy_encode,
    lines_intercalate fun addr haddr => h addr (List.mem_mergeSort.mp haddr), List.mem_mergeSort]

theorem mem_missing {root : Path} {fs : FileSys} (h : ∀ addr ∈ names, Named addr) :
    addr ∈ missing root fs (haveSet names) ↔ addr ∈ names ∧ holds root fs addr = false := by
  rw [missing, List.mem_filter, List.mem_dedup, mem_lines_haveSet h, Bool.not_eq_true']

theorem haveSet_length (hne : names ≠ []) :
    (haveSet names).length + 1 = (names.map fun addr => (encode addr).length + 1).sum := by
  have hsum : ∀ ls : List (List Char), ls ≠ [] → (encode (['\n'].intercalate ls)).length + 1 =
      (ls.map fun addr => (encode addr).length + 1).sum := by
    intro ls hls
    induction ls with
    | nil => exact absurd rfl hls
    | cons addr rest ih =>
        rcases eq_or_ne rest [] with rfl | hmore
        · simp
        · rw [List.intercalate_cons_of_ne_nil hmore, List.map_cons, List.sum_cons, ← ih hmore,
            encode_append, encode_append, List.length_append, List.length_append]
          have hbreak : (encode ['\n']).length = 1 := rfl
          omega
  have hperm := List.mergeSort_perm names fun a b => decide (a ≤ b)
  rw [haveSet, hsum _ (fun hnil => hne (hnil ▸ hperm).nil_eq.symm), (hperm.map _).sum_eq]

/-- A list of fewer names is no longer. -/
theorem haveSet_length_le (hnodup : names.Nodup) (hsub : names ⊆ all) :
    (haveSet names).length ≤ (haveSet all).length := by
  rcases eq_or_ne names [] with rfl | hne
  · rw [haveSet, List.mergeSort_nil]
    exact Nat.zero_le _
  have hall : all ≠ [] := by
    rintro rfl
    exact hne (List.subset_nil.mp hsub)
  obtain ⟨l, hperm, hsublist⟩ := List.subperm_of_subset hnodup hsub
  have hsum := (hsublist.map fun addr => (encode addr).length + 1).sum_le_sum
    fun _ _ => Nat.zero_le _
  rw [(hperm.map _).sum_eq, ← haveSet_length hne, ← haveSet_length hall] at hsum
  omega

end Listing

/-! ## One request -/

section Mesh

variable {N Key : Type*} {sha256 : List UInt8 → List UInt8}
variable {verify : Key → List UInt8 → List UInt8 → Bool} {root : N → Path}
variable {roster : N → Roster Key} {s : Mesh N} {n : N} {addr : List Char}

/-- The file of an object at a node. -/
def Mesh.file (root : N → Path) (s : Mesh N) (n : N) (addr : List Char) : Option (List UInt8) :=
  (s.fs n).file (objectPath (root n) addr)

/-- What the puller makes of an answer that fits a frame. -/
inductive Answered (sha256 : List UInt8 → List UInt8)
    (verify : Key → List UInt8 → List UInt8 → Bool) (root : Path) (roster : Roster Key)
    (fs : FileSys) (addr : List Char) (reply : List UInt8) : FileSys → Prop
  | kept (h : reply = missFrame ∨ ∀ cls,
      accept sha256 verify addr (fromUtf8Lossy reply) (some roster) ≠ .ok cls) :
      Answered sha256 verify root roster fs addr reply fs
  | written {cls : Class} (hmiss : reply ≠ missFrame)
      (h : accept sha256 verify addr (fromUtf8Lossy reply) (some roster) = .ok cls) :
      Answered sha256 verify root roster fs addr reply
        (commit root (fs.createDirAll (fullDir root)) addr (fromUtf8Lossy reply))

theorem fetchAll_one (sha256 : List UInt8 → List UInt8)
    (verify : Key → List UInt8 → List UInt8 → Bool) (root : Path) (roster : Roster Key)
    (fs : FileSys) (addr : List Char) {reply : List UInt8} (hfits : reply.length ≤ maxFrame)
    (report : SyncReport) :
    ∃ report', (fetchAll sha256 verify root roster fs report [addr] [reply]).2 = some report' ∧
      Answered sha256 verify root roster fs addr reply
        (fetchAll sha256 verify root roster fs report [addr] [reply]).1 := by
  rw [fetchAll, if_neg (Nat.not_lt.mpr hfits)]
  split
  · rename_i hmiss
    exact ⟨_, rfl, .kept (Or.inl hmiss)⟩
  · rename_i hmiss
    cases haccept : accept sha256 verify addr (fromUtf8Lossy reply) (some roster) with
    | ok cls => exact ⟨_, rfl, .written hmiss haccept⟩
    | error reason =>
        refine ⟨_, rfl, .kept (Or.inr fun cls hok => ?_)⟩
        exact absurd (haccept.symm.trans hok) (by simp)

/-! ## What no step breaks -/

/-- What a transfer may have before it. -/
def Open (root : N → Path) (s : Mesh N) (n : N) (pending : List (List Char)) : Prop :=
  pending.Nodup ∧ ∀ addr ∈ pending, Named addr ∧ s.file root n addr = none

theorem goOn_eq_some {tr tr' : Transfer N} : tr.goOn = some tr' ↔ tr.pending ≠ [] ∧ tr = tr' := by
  rw [Transfer.goOn]
  split
  · rename_i hnil
    simp [hnil]
  · rename_i hne
    simp [hne]

/-- Every store is well formed and keeps what it had, and what it has come by since has been
accepted and is the same text that some node began with. -/
structure Sound (sha256 : List UInt8 → List UInt8)
    (verify : Key → List UInt8 → List UInt8 → Bool) (root : N → Path) (roster : N → Roster Key)
    (s₀ s : Mesh N) : Prop where
  stores : ∀ n, Store (root n) (s.fs n)
  pending : ∀ n tr, s.transfer n = some tr → Open root s n tr.pending
  kept : ∀ n p bytes, (s₀.fs n).file p = some bytes → (s.fs n).file p = some bytes
  origin : ∀ n addr bytes, s.file root n addr = some bytes → s₀.file root n addr = some bytes ∨
    (∃ m, s₀.file root m addr = some bytes) ∧
      ∃ text cls, bytes = encode text ∧ accept sha256 verify addr text (some (roster n)) = .ok cls

variable {s₀ : Mesh N}

theorem Sound.from_somewhere (h : Sound sha256 verify root roster s₀ s) {bytes : List UInt8}
    (hfile : s.file root n addr = some bytes) : ∃ m, s₀.file root m addr = some bytes := by
  rcases h.origin n addr bytes hfile with hown | ⟨hother, -⟩
  · exact ⟨n, hown⟩
  · exact hother

/-- The requests that a list leads to. -/
theorem Sound.dialed (h : Sound sha256 verify root roster s₀ s) {peer : N}
    {names order : List (List Char)}
    (hpossible : Possible root s (.dial n peer names order)) : Open root s n order := by
  obtain ⟨-, hnames, horder⟩ := hpossible
  have hnamed : ∀ addr ∈ names, Named addr := by
    intro addr haddr
    have hholds := (hnames addr).mp haddr
    rw [(h.stores peer).holds_eq] at hholds
    exact (h.stores peer).named addr hholds
  refine ⟨horder.nodup_iff.mpr ((List.nodup_dedup _).filter _), fun addr haddr => ?_⟩
  obtain ⟨hmem, hfree⟩ := (mem_missing hnamed).mp (horder.mem_iff.mp haddr)
  rw [(h.stores n).holds_eq, Option.isSome_eq_false_iff, Option.isNone_iff_eq_none] at hfree
  exact ⟨hnamed addr hmem, hfree⟩

/-- An answer keeps the store well formed, and all that it writes is the object asked for. -/
theorem Sound.answered (h : Sound sha256 verify root roster s₀ s) {m : N} {fs : FileSys}
    (hnamed : Named addr)
    (hanswered : Answered sha256 verify (root n) (roster n) (s.fs n) addr
      ((s.file root m addr).getD missFrame) fs) :
    Store (root n) fs ∧ (fs.file = (s.fs n).file ∨ ∃ bytes, s.file root m addr = some bytes ∧
      fs.file = Function.update (s.fs n).file (objectPath (root n) addr) (some bytes) ∧
      ∃ text cls, bytes = encode text ∧
        accept sha256 verify addr text (some (roster n)) = .ok cls) := by
  cases hanswered with
  | kept _ => exact ⟨h.stores n, Or.inl rfl⟩
  | written hmiss haccept =>
      cases hfile : s.file root m addr with
      | none =>
          rw [hfile] at hmiss
          exact absurd rfl hmiss
      | some bytes =>
          obtain ⟨hfits, text, rfl⟩ := (h.stores m).text addr bytes hfile
          rw [hfile] at haccept
          rw [Option.getD_some, fromUtf8Lossy_encode] at haccept ⊢
          exact ⟨(h.stores n).committed hnamed hfits, Or.inr ⟨_, rfl,
            ((h.stores n).commit_eq hnamed text).1, text, _, rfl, haccept⟩⟩

/-! ## One step -/

variable [DecidableEq N]

variable (sha256 verify roster) in
/-- The next request of a transfer. -/
theorem fetchNext_eq (hstores : ∀ n, Store (root n) (s.fs n)) (n : N) (tr : Transfer N)
    (rest : List (List Char)) (hnamed : Named addr) :
    ∃ fs report, Answered sha256 verify (root n) (roster n) (s.fs n) addr
        ((s.file root tr.peer addr).getD missFrame) fs ∧
      fetchNext sha256 verify root roster s n tr addr rest =
        { fs := Function.update s.fs n fs
          transfer := Function.update s.transfer n (Transfer.goOn ⟨tr.peer, rest, report⟩) } := by
  have hreply : serveGet (root tr.peer) (s.fs tr.peer) (encode addr) =
      (s.file root tr.peer addr).getD missFrame := (hstores tr.peer).serveGet_eq hnamed.component
  have hfits : ((s.file root tr.peer addr).getD missFrame).length ≤ maxFrame := by
    cases hfile : s.file root tr.peer addr with
    | none => decide
    | some bytes => exact ((hstores tr.peer).text addr bytes hfile).1
  obtain ⟨report, hreport, hanswered⟩ := fetchAll_one sha256 verify (root n) (roster n) (s.fs n)
    addr hfits tr.report
  refine ⟨_, report, hanswered, ?_⟩
  rw [fetchNext, hreply]
  simp only [hreport, Option.bind_some]

/-- A change of one transfer. -/
theorem Sound.transfer (h : Sound sha256 verify root roster s₀ s) {next : Option (Transfer N)}
    (hnext : ∀ tr, next = some tr → Open root s n tr.pending) :
    Sound sha256 verify root roster s₀
      { s with transfer := Function.update s.transfer n next } where
  stores := h.stores
  pending m tr htr := by
    by_cases hsame : m = n
    · subst hsame
      exact hnext tr (by simpa using htr)
    · exact h.pending m tr (by simpa [Function.update_of_ne hsame] using htr)
  kept := h.kept
  origin := h.origin

/-- The store of one node grows by an object. -/
theorem Sound.fetched (h : Sound sha256 verify root roster s₀ s) {m : N} {fs : FileSys}
    {next : Option (Transfer N)} (hnamed : Named addr) (hfree : s.file root n addr = none)
    (hanswered : Answered sha256 verify (root n) (roster n) (s.fs n) addr
      ((s.file root m addr).getD missFrame) fs)
    (hnext : ∀ tr, next = some tr → Open root s n (addr :: tr.pending)) :
    Sound sha256 verify root roster s₀
      { fs := Function.update s.fs n fs, transfer := Function.update s.transfer n next } := by
  obtain ⟨hstore, hfiles⟩ := h.answered hnamed hanswered
  have hsame : ∀ p, p ≠ objectPath (root n) addr → fs.file p = (s.fs n).file p := by
    intro p hp
    rcases hfiles with heq | ⟨bytes, -, heq, -⟩
    · rw [heq]
    · rw [heq, Function.update_of_ne hp]
  constructor
  case stores =>
    intro n'
    rcases eq_or_ne n' n with rfl | hne
    · simpa using hstore
    · simpa [Function.update_of_ne hne] using h.stores n'
  case pending =>
    intro n' tr htr
    rcases eq_or_ne n' n with rfl | hne
    · obtain ⟨hnodup, hopen⟩ := hnext tr (by simpa using htr)
      obtain ⟨haddr, hrest⟩ := List.nodup_cons.mp hnodup
      refine ⟨hrest, fun addr' haddr' => ?_⟩
      obtain ⟨hnamed', hfree'⟩ := hopen addr' (List.mem_cons_of_mem _ haddr')
      have hne : addr' ≠ addr := by
        rintro rfl
        exact haddr haddr'
      refine ⟨hnamed', ?_⟩
      simp only [Mesh.file, Function.update_self]
      rw [hsame _ (mt objectPath_inj.mp hne)]
      exact hfree'
    · obtain ⟨hnodup, hopen⟩ := h.pending n' tr (by simpa [Function.update_of_ne hne] using htr)
      refine ⟨hnodup, fun addr' haddr' => ?_⟩
      simp only [Mesh.file, Function.update_of_ne hne]
      exact hopen addr' haddr'
  case kept =>
    intro n' p bytes hbytes
    have hbefore := h.kept n' p bytes hbytes
    rcases eq_or_ne n' n with rfl | hne
    · have hp : p ≠ objectPath (root n') addr := by
        rintro rfl
        rw [Mesh.file, hbefore] at hfree
        cases hfree
      simpa [hsame p hp] using hbefore
    · simpa [Function.update_of_ne hne] using hbefore
  case origin =>
    intro n' addr' bytes hbytes
    rcases eq_or_ne n' n with rfl | hne
    · simp only [Mesh.file, Function.update_self] at hbytes
      rcases eq_or_ne addr' addr with rfl | haddr
      · rcases hfiles with heq | ⟨bytes', hpeer, heq, haccept⟩
        · rw [heq] at hbytes
          exact h.origin n' addr' bytes hbytes
        · rw [heq, Function.update_self, Option.some_inj] at hbytes
          subst hbytes
          exact Or.inr ⟨h.from_somewhere hpeer, haccept⟩
      · rw [hsame _ (mt objectPath_inj.mp haddr)] at hbytes
        exact h.origin n' addr' bytes hbytes
    · simp only [Mesh.file, Function.update_of_ne hne] at hbytes
      exact h.origin n' addr' bytes hbytes

/-- What a step does to the stores: at most one object is added to one of them, which asked
for it. -/
theorem Sound.step (h : Sound sha256 verify root roster s₀ s) {e : MeshEvent N}
    (hpossible : Possible root s e) :
    Sound sha256 verify root roster s₀ (meshStep sha256 verify root roster s e) := by
  cases e with
  | dial n peer names order =>
      rw [meshStep]
      split
      · exact h
      · apply h.transfer
        intro tr htr
        obtain ⟨-, rfl⟩ := goOn_eq_some.mp htr
        exact h.dialed hpossible
  | get n =>
      rw [meshStep]
      split
      · exact h
      · rename_i tr htr
        split
        · exact h
        · rename_i addr rest hpending
          have hopen := h.pending n tr htr
          rw [hpending] at hopen
          obtain ⟨hnamed, hfree⟩ := hopen.2 addr List.mem_cons_self
          obtain ⟨fs, report, hanswered, hnext⟩ :=
            fetchNext_eq sha256 verify roster h.stores n tr rest hnamed
          rw [hnext]
          apply h.fetched hnamed hfree hanswered
          intro tr' htr'
          obtain ⟨-, rfl⟩ := goOn_eq_some.mp htr'
          exact hopen
  | drop n =>
      apply h.transfer
      intro tr htr
      cases htr

/-- A run breaks nothing. -/
theorem Sound.run (h : Sound sha256 verify root roster s₀ s) {events : List (MeshEvent N)}
    (hpossible : Each (meshStep sha256 verify root roster) (Possible root) s events) :
    Sound sha256 verify root roster s₀ (after (meshStep sha256 verify root roster) s events) :=
  (hpossible.always h fun _ _ hs he => hs.step he).last

omit [DecidableEq N] in
theorem Sound.rebase (h : Sound sha256 verify root roster s₀ s) :
    Sound sha256 verify root roster s s :=
  ⟨h.stores, h.pending, fun _ _ _ hbytes => hbytes, fun _ _ _ hbytes => Or.inl hbytes⟩

/-! ## A pull that nothing comes between -/

/-- The peer's answers to the requests. -/
def answers (root : Path) (fs : FileSys) (addrs : List (List Char)) : List (List UInt8) :=
  addrs.map fun addr => serveGet root fs (encode addr)

omit [DecidableEq N] in
theorem fetchAll_cons {root : Path} {roster : Roster Key} (fs : FileSys) (report : SyncReport)
    (rest : List (List Char)) (reply : List UInt8) (replies : List (List UInt8)) :
    (fetchAll sha256 verify root roster fs report (addr :: rest) (reply :: replies)).1 =
      match (fetchAll sha256 verify root roster fs report [addr] [reply]).2 with
      | none => (fetchAll sha256 verify root roster fs report [addr] [reply]).1
      | some report' => (fetchAll sha256 verify root roster
          (fetchAll sha256 verify root roster fs report [addr] [reply]).1 report' rest
          replies).1 := by
  by_cases hlong : maxFrame < reply.length
  · simp only [fetchAll, if_pos hlong]
  · by_cases hmiss : reply = missFrame
    · simp only [fetchAll, if_neg hlong, if_pos hmiss]
    · cases haccept : accept sha256 verify addr (fromUtf8Lossy reply) (some roster) <;>
        simp only [fetchAll, if_neg hlong, if_neg hmiss, haccept]

theorem gets_idle (h : s.transfer n = none) (k : Nat) :
    after (meshStep sha256 verify root roster) s (List.replicate k (.get n)) = s := by
  have hstep : meshStep sha256 verify root roster s (.get n) = s := by
    simp only [meshStep, h]
  induction k with
  | zero => rfl
  | succ k ih =>
      rw [List.replicate_succ', after_concat, ih, hstep]

theorem gets_eq_fetchAll (tr : Transfer N) (htr : s.transfer n = some tr) (hother : tr.peer ≠ n) :
    (after (meshStep sha256 verify root roster) s
        (List.replicate tr.pending.length (.get n))).fs n =
      (fetchAll sha256 verify (root n) (roster n) (s.fs n) tr.report tr.pending
        (answers (root tr.peer) (s.fs tr.peer) tr.pending)).1 := by
  obtain ⟨peer, pending, report⟩ := tr
  induction pending generalizing s report with
  | nil => rfl
  | cons addr rest ih =>
      have hfirst : meshStep sha256 verify root roster s (.get n) =
          fetchNext sha256 verify root roster s n ⟨peer, addr :: rest, report⟩ addr rest := by
        simp only [meshStep, htr]
      have hpeer : (meshStep sha256 verify root roster s (.get n)).fs peer = s.fs peer := by
        rw [hfirst, fetchNext]
        exact Function.update_of_ne hother _ _
      have hlater : after (meshStep sha256 verify root roster) s
          (List.replicate (rest.length + 1) (.get n)) =
          after (meshStep sha256 verify root roster)
            (meshStep sha256 verify root roster s (.get n)) (List.replicate rest.length (.get n)) :=
        rfl
      rw [List.length_cons, hlater, answers, List.map_cons, fetchAll_cons]
      cases hnext : (fetchAll sha256 verify (root n) (roster n) (s.fs n) report [addr]
          [serveGet (root peer) (s.fs peer) (encode addr)]).2 with
      | none =>
          rw [gets_idle (by rw [hfirst, fetchNext, hnext]; simp), hfirst, fetchNext]
          simp
      | some report' =>
          rcases eq_or_ne rest [] with rfl | hrest
          · rw [hfirst, fetchNext]
            simp [fetchAll]
          · have htransfer : (meshStep sha256 verify root roster s (.get n)).transfer n =
                some ⟨peer, rest, report'⟩ := by
              rw [hfirst, fetchNext, hnext]
              simp [Transfer.goOn, hrest]
            rw [ih report' htransfer hother, hpeer, hfirst, fetchNext]
            simp [answers]

/-- What a pull does when no other node comes between its requests. -/
theorem pull_undisturbed {m : N} {names order : List (List Char)} (hidle : s.transfer n = none)
    (hother : m ≠ n) (hpossible : Possible root s (.dial n m names order)) :
    (after (meshStep sha256 verify root roster) s
        (.dial n m names order :: List.replicate order.length (.get n))).fs n =
      (pullFrom sha256 verify (root n) (roster n) (s.fs n) (haveSet names) order
        (answers (root m) (s.fs m) order)).1 := by
  obtain ⟨-, -, horder⟩ := hpossible
  change (after _ (meshStep sha256 verify root roster s (.dial n m names order)) _).fs n = _
  rw [meshStep, hidle, Option.isSome_none, Bool.false_or, pullFrom]
  by_cases hfits : (haveSet names).length ≤ maxFrame
  · rw [if_neg (by simpa using hfits), if_pos ⟨hfits, horder⟩]
    rcases eq_or_ne order [] with rfl | hne
    · rfl
    · have hgoes : Transfer.goOn (⟨m, order, ⟨[], []⟩⟩ : Transfer N) = some ⟨m, order, ⟨[], []⟩⟩ :=
        goOn_eq_some.mpr ⟨hne, rfl⟩
      rw [hgoes]
      exact gets_eq_fetchAll ⟨m, order, ⟨[], []⟩⟩ (Function.update_self ..) hother
  · rw [if_pos (by simpa using hfits), if_neg fun h => hfits h.1, gets_idle hidle]

/-! ## Rounds -/

/-- Every copy of the object that a node begins with is one that every node accepts. -/
def Spreads (sha256 : List UInt8 → List UInt8) (verify : Key → List UInt8 → List UInt8 → Bool)
    (root : N → Path) (roster : N → Roster Key) (s₀ : Mesh N) (addr : List Char) : Prop :=
  ∀ m text, s₀.file root m addr = some (encode text) → encode text ≠ missFrame ∧
    ∀ n, ∃ cls, accept sha256 verify addr text (some (roster n)) = .ok cls

/-- The node has the object or is to ask the peer for it. -/
def Coming (root : N → Path) (s : Mesh N) (n m : N) (addr : List Char) : Prop :=
  (s.file root n addr).isSome ∨
    ∃ tr, s.transfer n = some tr ∧ tr.peer = m ∧ addr ∈ tr.pending

omit [DecidableEq N] in
/-- An object that spreads is written when it is asked for. -/
theorem Sound.written (h : Sound sha256 verify root roster s₀ s)
    (hspreads : Spreads sha256 verify root roster s₀ addr) {m : N} {fs : FileSys}
    (hpeer : (s.file root m addr).isSome) (hnamed : Named addr)
    (hanswered : Answered sha256 verify (root n) (roster n) (s.fs n) addr
      ((s.file root m addr).getD missFrame) fs) :
    (fs.file (objectPath (root n) addr)).isSome := by
  obtain ⟨bytes, hbytes⟩ := Option.isSome_iff_exists.mp hpeer
  obtain ⟨-, text, rfl⟩ := (h.stores m).text addr bytes hbytes
  obtain ⟨m₀, horigin⟩ := h.from_somewhere hbytes
  obtain ⟨hmiss, haccepts⟩ := hspreads m₀ text horigin
  rw [hbytes, Option.getD_some] at hanswered
  cases hanswered with
  | kept hkept =>
      rcases hkept with heq | hrefused
      · exact absurd heq hmiss
      · obtain ⟨cls, hcls⟩ := haccepts n
        rw [fromUtf8Lossy_encode] at hrefused
        exact absurd hcls (hrefused cls)
  | written _ _ =>
      rw [((h.stores n).commit_eq hnamed _).1, Function.update_self]
      rfl

/-- What a node has it keeps. -/
theorem Sound.file_kept (h : Sound sha256 verify root roster s₀ s) {events : List (MeshEvent N)}
    (hpossible : Each (meshStep sha256 verify root roster) (Possible root) s events)
    (hfile : (s.file root n addr).isSome) :
    ((after (meshStep sha256 verify root roster) s events).file root n addr).isSome := by
  obtain ⟨bytes, hbytes⟩ := Option.isSome_iff_exists.mp hfile
  exact Option.isSome_iff_exists.mpr ⟨bytes, (h.rebase.run hpossible).kept n _ bytes hbytes⟩

/-- A transfer that nothing breaks gets nearer to each of its objects. -/
theorem Coming.step {m : N} (hcoming : Coming root s n m addr)
    (h : Sound sha256 verify root roster s₀ s)
    (hspreads : Spreads sha256 verify root roster s₀ addr) {e : MeshEvent N}
    (hpossible : Possible root s e) (hpeer : (s.file root m addr).isSome) (hkeeps : e ≠ .drop n) :
    Coming root (meshStep sha256 verify root roster s e) n m addr := by
  rcases hcoming with hfile | ⟨tr, htr, rfl, haddr⟩
  · exact Or.inl (h.file_kept ((each_cons e).mpr ⟨hpossible, each_nil⟩) hfile)
  cases e with
  | dial n' peer names order =>
      refine Or.inr ⟨tr, ?_, rfl, haddr⟩
      rw [meshStep]
      split
      · exact htr
      · rename_i hfree
        have hne : n ≠ n' := by
          rintro rfl
          rw [htr] at hfree
          exact hfree rfl
        simpa [Function.update_of_ne hne] using htr
  | get n' =>
      rcases eq_or_ne n n' with rfl | hne
      · cases hpending : tr.pending with
        | nil =>
            rw [hpending] at haddr
            cases haddr
        | cons next rest =>
            have hopen := (h.pending n tr htr).2
            rw [hpending] at hopen haddr
            obtain ⟨fs, report, hanswered, hstep⟩ := fetchNext_eq sha256 verify roster h.stores n
              tr rest (hopen next List.mem_cons_self).1
            simp only [meshStep, htr, hpending, hstep]
            rcases List.mem_cons.mp haddr with rfl | hrest
            · left
              have hwritten := h.written hspreads hpeer (hopen addr List.mem_cons_self).1 hanswered
              simpa [Mesh.file] using hwritten
            · right
              refine ⟨⟨tr.peer, rest, report⟩, ?_, rfl, hrest⟩
              simp only [Function.update_self]
              exact goOn_eq_some.mpr ⟨List.ne_nil_of_mem hrest, rfl⟩
      · refine Or.inr ⟨tr, ?_, rfl, haddr⟩
        rw [meshStep]
        split
        · exact htr
        · split
          · exact htr
          · simpa [fetchNext, Function.update_of_ne hne] using htr
  | drop n' =>
      have hne : n ≠ n' := by
        rintro rfl
        exact hkeeps rfl
      exact Or.inr ⟨tr, by simpa [meshStep, Function.update_of_ne hne] using htr, rfl, haddr⟩

theorem Coming.run {m : N} {events : List (MeshEvent N)} (hcoming : Coming root s n m addr)
    (h : Sound sha256 verify root roster s₀ s)
    (hspreads : Spreads sha256 verify root roster s₀ addr)
    (hpossible : Each (meshStep sha256 verify root roster) (Possible root) s events)
    (hpeer : (s.file root m addr).isSome) (hkeeps : .drop n ∉ events) :
    Coming root (after (meshStep sha256 verify root roster) s events) n m addr := by
  induction events using List.reverseRecOn with
  | nil => exact hcoming
  | append_singleton events e ih =>
      obtain ⟨hearlier, hlast⟩ := (each_concat e).mp hpossible
      rw [List.mem_append, List.mem_singleton, not_or] at hkeeps
      rw [after_concat]
      exact (ih hearlier hkeeps.1).step (h.run hearlier) hspreads hlast
        (h.file_kept hearlier hpeer) (fun he => hkeeps.2 he.symm)

/-- A round: no connection breaks, every node gets to pull from each of its peers, and at the
end nothing is under way. All that the nodes do may interleave. -/
structure Round (sha256 : List UInt8 → List UInt8)
    (verify : Key → List UInt8 → List UInt8 → Bool) (root : N → Path) (roster : N → Roster Key)
    (peers : N → List N) (s : Mesh N) (events : List (MeshEvent N)) : Prop where
  possible : Each (meshStep sha256 verify root roster) (Possible root) s events
  unbroken : ∀ n, .drop n ∉ events
  dialed : ∀ n, ∀ m ∈ peers n, ∃ before names order rest,
    events = before ++ .dial n m names order :: rest ∧
      (after (meshStep sha256 verify root roster) s before).transfer n = none
  finished : ∀ n, (after (meshStep sha256 verify root roster) s events).transfer n = none

/-- All the names there are fit a list. -/
def Listable (root : N → Path) (s₀ : Mesh N) : Prop :=
  ∃ all, (haveSet all).length ≤ maxFrame ∧ ∀ n addr, (s₀.file root n addr).isSome → addr ∈ all

/-- What the peer has when it is asked for its list. -/
theorem Sound.coming_of_dial (h : Sound sha256 verify root roster s₀ s)
    (hlistable : Listable root s₀) {m : N} {names order : List (List Char)}
    (hpossible : Possible root s (.dial n m names order)) (hfree : s.transfer n = none)
    (hpeer : (s.file root m addr).isSome) :
    Coming root (meshStep sha256 verify root roster s (.dial n m names order)) n m addr := by
  obtain ⟨hnodup, hnames, horder⟩ := id hpossible
  have hholds : ∀ addr, addr ∈ names → (s.file root m addr).isSome := by
    intro addr haddr
    have hheld := (hnames addr).mp haddr
    rwa [(h.stores m).holds_eq] at hheld
  have hfits : (haveSet names).length ≤ maxFrame := by
    obtain ⟨all, hall, hmem⟩ := hlistable
    refine (haveSet_length_le hnodup fun addr haddr => ?_).trans hall
    obtain ⟨bytes, hbytes⟩ := Option.isSome_iff_exists.mp (hholds addr haddr)
    obtain ⟨m₀, horigin⟩ := h.from_somewhere hbytes
    exact hmem m₀ addr (Option.isSome_iff_exists.mpr ⟨bytes, horigin⟩)
  have hmem : addr ∈ names := by
    rw [hnames, (h.stores m).holds_eq]
    exact hpeer
  have hnamed : ∀ addr ∈ names, Named addr := fun addr haddr =>
    (h.stores m).named addr (hholds addr haddr)
  rw [meshStep, hfree, Option.isSome_none, Bool.false_or,
    if_neg (by simpa using hfits)]
  cases hown : s.file root n addr with
  | some bytes => exact Or.inl (Option.isSome_iff_exists.mpr ⟨bytes, hown⟩)
  | none =>
      have hpending : addr ∈ order := by
        rw [horder.mem_iff, mem_missing hnamed, (h.stores n).holds_eq]
        exact ⟨hmem, by rw [Option.isSome_eq_false_iff, Option.isNone_iff_eq_none]; exact hown⟩
      refine Or.inr ⟨⟨m, order, ⟨[], []⟩⟩, ?_, rfl, hpending⟩
      simp only [Function.update_self]
      exact goOn_eq_some.mpr ⟨List.ne_nil_of_mem hpending, rfl⟩

/-- A round brings what a peer has. -/
theorem Sound.round (h : Sound sha256 verify root roster s₀ s) (hlistable : Listable root s₀)
    (hspreads : Spreads sha256 verify root roster s₀ addr) {peers : N → List N}
    {events : List (MeshEvent N)} (hround : Round sha256 verify root roster peers s events) {m : N}
    (hm : m ∈ peers n) (hpeer : (s.file root m addr).isSome) :
    ((after (meshStep sha256 verify root roster) s events).file root n addr).isSome := by
  obtain ⟨before, names, order, rest, rfl, hfree⟩ := hround.dialed n m hm
  obtain ⟨hbefore, hlater⟩ := each_append.mp hround.possible
  obtain ⟨hdial, hrest⟩ := (each_cons _).mp hlater
  have hfinished := hround.finished n
  rw [after_append] at hfinished ⊢
  have hsound := h.run hbefore
  have hpeer' := h.file_kept hbefore hpeer
  set s' := after (meshStep sha256 verify root roster) s before
  have hdialed := hsound.step hdial
  have hcoming : Coming root (meshStep sha256 verify root roster s' (.dial n m names order)) n m
      addr := hsound.coming_of_dial hlistable hdial hfree hpeer'
  have hkept := hsound.file_kept ((each_cons _).mpr ⟨hdial, each_nil⟩) hpeer'
  have hlast := hcoming.run hdialed hspreads hrest hkept fun hdrop => hround.unbroken n
    (List.mem_append_right _ (List.mem_cons_of_mem _ hdrop))
  rcases hlast with hfile | ⟨tr, htr, -⟩
  · exact hfile
  · exact absurd (hfinished.symm.trans htr) (by simp)

/-- A chain of at most `k` pulls leads from one node to the other. -/
def Within (peers : N → List N) : Nat → N → N → Prop
  | 0, n, m => n = m
  | k + 1, n, m => ∃ j, (j = n ∨ j ∈ peers n) ∧ Within peers k j m

/-- One round after the other. -/
def Rounds (sha256 : List UInt8 → List UInt8) (verify : Key → List UInt8 → List UInt8 → Bool)
    (root : N → Path) (roster : N → Roster Key) (peers : N → List N) (s : Mesh N)
    (rounds : List (List (MeshEvent N))) : Prop :=
  ∀ before events rest, rounds = before ++ events :: rest → Round sha256 verify root roster peers
    (after (meshStep sha256 verify root roster) s before.flatten) events

section

variable {peers : N → List N} {rounds : List (List (MeshEvent N))}

theorem Rounds.concat {events : List (MeshEvent N)}
    (h : Rounds sha256 verify root roster peers s (rounds ++ [events])) :
    Rounds sha256 verify root roster peers s rounds ∧
      Round sha256 verify root roster peers
        (after (meshStep sha256 verify root roster) s rounds.flatten) events := by
  constructor
  · rintro before events' rest rfl
    apply h before events' (rest ++ [events])
    rw [List.append_assoc, List.cons_append]
  · exact h rounds events [] rfl

theorem Rounds.possible (h : Rounds sha256 verify root roster peers s rounds) :
    Each (meshStep sha256 verify root roster) (Possible root) s rounds.flatten := by
  induction rounds using List.reverseRecOn with
  | nil => exact each_nil
  | append_singleton rounds events ih =>
      obtain ⟨hearlier, hlast⟩ := h.concat
      rw [List.flatten_append, List.flatten_singleton, each_append]
      exact ⟨ih hearlier, hlast.possible⟩

/-- With every round the objects get one pull further. -/
theorem Sound.after_rounds (h : Sound sha256 verify root roster s₀ s) (hlistable : Listable root s₀)
    (hspreads : Spreads sha256 verify root roster s₀ addr)
    (hrounds : Rounds sha256 verify root roster peers s rounds) {n m : N}
    (hwithin : Within peers rounds.length n m) (hpeer : (s.file root m addr).isSome) :
    ((after (meshStep sha256 verify root roster) s rounds.flatten).file root n addr).isSome := by
  induction rounds using List.reverseRecOn generalizing n with
  | nil =>
      obtain rfl : n = m := hwithin
      exact hpeer
  | append_singleton rounds events ih =>
      obtain ⟨hearlier, hlast⟩ := hrounds.concat
      rw [List.length_append] at hwithin
      obtain ⟨j, hj, hrest⟩ := hwithin
      have hhas := ih hearlier hrest
      have hsound := h.run hearlier.possible
      rw [List.flatten_append, List.flatten_singleton, after_append]
      rcases hj with rfl | hj
      · exact hsound.file_kept hlast.possible hhas
      · exact hsound.round hlistable hspreads hlast hj hhas

end

/-- Whatever the nodes have done, in whichever order, each still has what it began with, and what
it has come by is an accepted copy of what some node began with. And when afterwards every node
gets through its pulls in as many rounds as there are pulls between two nodes, the one has what
the other had, whatever the order within a round. -/
theorem mesh_converges (sha256 : List UInt8 → List UInt8)
    (verify : Key → List UInt8 → List UInt8 → Bool) (root : N → Path) (roster : N → Roster Key)
    (peers : N → List N) (s₀ : Mesh N) (events : List (MeshEvent N))
    (rounds : List (List (MeshEvent N))) (hstores : ∀ n, Store (root n) (s₀.fs n))
    (hidle : ∀ n, s₀.transfer n = none)
    (hpossible : Each (meshStep sha256 verify root roster) (Possible root) s₀ events)
    (hrounds : Rounds sha256 verify root roster peers
      (after (meshStep sha256 verify root roster) s₀ events) rounds) :
    (∀ n p bytes, (s₀.fs n).file p = some bytes →
      ((after (meshStep sha256 verify root roster) s₀ (events ++ rounds.flatten)).fs n).file p =
        some bytes) ∧
    (∀ n addr bytes, (after (meshStep sha256 verify root roster) s₀
        (events ++ rounds.flatten)).file root n addr = some bytes →
      s₀.file root n addr = some bytes ∨ (∃ m, s₀.file root m addr = some bytes) ∧
        ∃ text cls, bytes = encode text ∧
          accept sha256 verify addr text (some (roster n)) = .ok cls) ∧
    (Listable root s₀ → ∀ n m addr, Spreads sha256 verify root roster s₀ addr →
      Within peers rounds.length n m →
      ((after (meshStep sha256 verify root roster) s₀ events).file root m addr).isSome →
      ((after (meshStep sha256 verify root roster) s₀
        (events ++ rounds.flatten)).file root n addr).isSome) := by
  have hinit : Sound sha256 verify root roster s₀ s₀ :=
    ⟨hstores, fun n tr htr => absurd ((hidle n).symm.trans htr) (by simp), fun _ _ _ h => h,
      fun _ _ _ h => Or.inl h⟩
  have hsound := hinit.run hpossible
  have hlast := hsound.run hrounds.possible
  rw [after_append]
  exact ⟨hlast.kept, hlast.origin, fun hlistable n m addr hspreads hwithin hpeer =>
    hsound.after_rounds hlistable hspreads hrounds hwithin hpeer⟩

end Mesh

/-! ## Two nodes -/

def helloAddr : List Char := addrOf helloDigest ['h', 'i']

/-- A store with one object. -/
def helloStore : FileSys where
  file p := if p = objectPath [['m']] helloAddr then some (encode (signedText [])) else none
  dir p := p.isPrefixOf (fullDir [['m']])

/-- One node has the object, the other one nothing. -/
def twoNodes : Mesh Bool where
  fs n := if n then helloStore else emptyStore
  transfer _ := none

def twoPeers (n : Bool) : List Bool := if n then [] else [true]

def oneRound : List (MeshEvent Bool) := [.dial false true [helloAddr] [helloAddr], .get false]

theorem helloStore_file (addr : List Char) :
    helloStore.file (objectPath [['m']] addr) =
      if addr = helloAddr then some (encode (signedText [])) else none := by
  rw [helloStore]
  simp only [objectPath_inj]

theorem helloStore_store : Store [['m']] helloStore where
  place := by
    simp only [helloStore]
    exact if_neg objectPath_ne_fullDir.symm
  inside _ _ := by decide
  files addr := by
    rw [← Bool.not_eq_true]
    intro hpre
    have hlen := (List.isPrefixOf_iff_prefix.mp hpre).length_le
    rw [objectPath, List.length_append, List.length_singleton] at hlen
    omega
  named addr hsome := by
    rw [helloStore_file] at hsome
    split at hsome
    · rename_i heq
      rw [heq]
      exact ⟨by decide, by decide, by decide, by decide⟩
    · cases hsome
  text addr bytes hbytes := by
    rw [helloStore_file] at hbytes
    split at hbytes
    · rw [← Option.some_inj.mp hbytes]
      exact ⟨by decide +kernel, _, rfl⟩
    · cases hbytes

theorem emptyStore_store : Store [['m']] emptyStore where
  place := rfl
  inside _ h := by cases h
  files := helloStore_store.files
  named _ h := by cases h
  text _ _ h := by cases h

theorem haveSet_hello : haveSet [helloAddr] = encode helloAddr := by
  rw [haveSet, List.mergeSort_singleton, List.intercalate_singleton]

theorem oneRound_rounds : Rounds helloDigest peerSigns (fun _ => [['m']]) (fun _ => peerRoster)
    twoPeers twoNodes [oneRound] := by
  intro before events rest hrounds
  obtain ⟨rfl, rfl, rfl⟩ : before = [] ∧ events = oneRound ∧ rest = [] := by
    cases before with
    | nil =>
        obtain ⟨hevents, hrest⟩ := List.cons.inj hrounds
        exact ⟨rfl, hevents.symm, hrest.symm⟩
    | cons _ before => simp at hrounds
  constructor
  case possible =>
    rw [List.flatten_nil, after_nil, oneRound, each_cons, each_cons]
    refine ⟨⟨List.nodup_singleton _, fun addr => ?_, ?_⟩, trivial, each_nil⟩
    · rw [List.mem_singleton]
      change _ ↔ holds [['m']] helloStore addr = true
      rw [helloStore_store.holds_eq, helloStore_file]
      split <;> simp_all
    · rw [haveSet_hello]
      have hmissing : missing [['m']] emptyStore (encode helloAddr) = [helloAddr] := by
        decide
      exact hmissing ▸ List.Perm.refl _
  case unbroken => exact fun n hdrop => by simp [oneRound] at hdrop
  case dialed =>
    intro n m hm
    cases n with
    | true => cases hm
    | false =>
        obtain rfl : m = true := List.mem_singleton.mp hm
        exact ⟨[], [helloAddr], [helloAddr], [.get false], rfl, rfl⟩
  case finished =>
    intro n
    have hfits : (maxFrame < (encode helloAddr).length) = False := by decide
    cases n <;> simp [oneRound, twoNodes, after, meshStep, fetchNext, Transfer.goOn,
      haveSet_hello, hfits]

/-- The object reaches the other node in a round. -/
theorem mesh_converges_two :
    ((after (meshStep helloDigest peerSigns (fun _ => [['m']]) fun _ => peerRoster) twoNodes
      oneRound).file (fun _ => [['m']]) false helloAddr).isSome := by
  have hstores : ∀ n, Store [['m']] (twoNodes.fs n) := by
    intro n
    cases n with
    | true => exact helloStore_store
    | false => exact emptyStore_store
  have hhello : ∀ n addr bytes, twoNodes.file (fun _ => [['m']]) n addr = some bytes →
      addr = helloAddr ∧ bytes = encode (signedText []) := by
    intro n addr bytes hbytes
    cases n with
    | false => cases hbytes
    | true =>
        change helloStore.file (objectPath [['m']] addr) = some bytes at hbytes
        rw [helloStore_file] at hbytes
        split at hbytes
        · rename_i heq
          exact ⟨heq, (Option.some_inj.mp hbytes).symm⟩
        · cases hbytes
  obtain ⟨-, -, hconverges⟩ := mesh_converges helloDigest peerSigns (fun _ => [['m']])
    (fun _ => peerRoster) twoPeers twoNodes [] [oneRound] hstores (fun _ => rfl) each_nil
    oneRound_rounds
  refine hconverges ⟨[helloAddr], by rw [haveSet_hello]; decide, fun n addr h => ?_⟩ false true
    helloAddr ?_ ⟨true, Or.inr List.mem_cons_self, rfl⟩ ?_
  · obtain ⟨bytes, hbytes⟩ := Option.isSome_iff_exists.mp h
    rw [(hhello n addr bytes hbytes).1]
    exact List.mem_cons_self
  · intro m text htext
    obtain rfl := encode_injective (hhello m helloAddr _ htext).2
    have hcontent : accept helloDigest peerSigns helloAddr (signedText []) (some peerRoster) =
        .ok .content := by decide
    exact ⟨by decide, fun _ => ⟨_, hcontent⟩⟩
  · change (helloStore.file (objectPath [['m']] helloAddr)).isSome
    rw [helloStore_file, if_pos rfl]
    rfl

end ShannonPrime.Swarm
