import ShannonPrime.Swarm.Store

/-!
What a node's store keeps of itself against its peers. An object that is its own hash has
sixteen digits for its address; an episode has the address it names itself, and that is a
file name as it stands. So the writes stay in the store as long as the episodes that are
accepted have signatures for addresses.
-/

namespace ShannonPrime.Swarm

open Utf8 Runs

/-! ## Addresses -/

def isLowerHex (c : Char) : Bool :=
  (0x30 ≤ c.toNat && c.toNat ≤ 0x39) || (0x61 ≤ c.toNat && c.toNat ≤ 0x66)

def c2Prefix : List Char := ['c', '2', 's', 'i', 'g', '_']

/-- The 64 digits of a signature, or these with the prefix that the curator writes. -/
def isSignatureAddr (addr : List Char) : Bool :=
  let hex := (stripPrefix c2Prefix addr).getD addr
  hex.length == 64 && hex.all isLowerHex

/-- Nothing in the address has a meaning in a path. -/
def Plain (addr : List Char) : Prop := '/' ∉ addr ∧ '.' ∉ addr

theorem hexDigit_plain : ∀ n < 16, hexDigit n ≠ '/' ∧ hexDigit n ≠ '.' := by decide

theorem plain_hexEncode (bytes : List UInt8) : Plain (hexEncode bytes) := by
  have hdigits : ∀ c ∈ hexEncode bytes, c ≠ '/' ∧ c ≠ '.' := by
    intro c hc
    obtain ⟨b, -, hb⟩ := List.mem_flatMap.mp hc
    have hlt : b.toNat < 256 := b.toNat_lt
    rcases List.mem_cons.mp hb with rfl | hb
    · exact hexDigit_plain _ (by omega)
    · rw [List.mem_singleton.mp hb]
      exact hexDigit_plain _ (by omega)
  exact ⟨fun h => (hdigits _ h).1 rfl, fun h => (hdigits _ h).2 rfl⟩

theorem plain_of_isSignatureAddr {addr : List Char} (h : isSignatureAddr addr = true) :
    Plain addr := by
  obtain ⟨-, hhex⟩ := Bool.and_eq_true_iff.mp h
  rw [List.all_eq_true] at hhex
  have hslash : isLowerHex '/' = false := by decide
  have hdot : isLowerHex '.' = false := by decide
  unfold stripPrefix at hhex
  split at hhex
  · rename_i hpre
    obtain ⟨hex, rfl⟩ := List.isPrefixOf_iff_prefix.mp hpre
    rw [Option.getD_some, List.drop_left] at hhex
    constructor
    · intro hmem
      rcases List.mem_append.mp hmem with hpre | hrest
      · exact absurd hpre (by decide)
      · rw [hhex _ hrest] at hslash
        cases hslash
    · intro hmem
      rcases List.mem_append.mp hmem with hpre | hrest
      · exact absurd hpre (by decide)
      · rw [hhex _ hrest] at hdot
        cases hdot
  · rw [Option.getD_none] at hhex
    constructor
    · intro hmem
      rw [hhex _ hmem] at hslash
      cases hslash
    · intro hmem
      rw [hhex _ hmem] at hdot
      cases hdot

variable {Key : Type*} {sha256 : List UInt8 → List UInt8}
variable {verify : Key → List UInt8 → List UInt8 → Bool} {root : Path}

/-- The address is the hash of the text's body, or it is a signature. -/
def Addressed (sha256 : List UInt8 → List UInt8) (addr text : List Char) : Prop :=
  addr = addrOf sha256 (parseFm text).2 ∨ isSignatureAddr addr = true

theorem Addressed.plain {addr text : List Char} (h : Addressed sha256 addr text) : Plain addr := by
  rcases h with rfl | hsig
  · have hplain := plain_hexEncode (sha256 (encode (norm (parseFm text).2)))
    exact ⟨fun hmem => hplain.1 (List.mem_of_mem_take hmem),
      fun hmem => hplain.2 (List.mem_of_mem_take hmem)⟩
  · exact plain_of_isSignatureAddr hsig

theorem classify_of_accept {addr text : List Char} {roster : Option (Roster Key)} {cls : Class}
    (h : accept sha256 verify addr text roster = .ok cls) :
    classify sha256 addr (parseFm text).1 (parseFm text).2 = cls ∧ cls ≠ .bad := by
  unfold accept at h
  dsimp only at h
  split at h
  · cases h
  · rename_i hbad
    have hcls : classify sha256 addr (parseFm text).1 (parseFm text).2 = cls := by
      split at h
      · exact Except.ok.inj h
      · split at h
        · exact Except.ok.inj h
        · cases h
    refine ⟨hcls, fun hbad' => hbad ?_⟩
    rw [hcls, hbad']

/-- An accepted object is addressed well, unless it is an episode with some other name. -/
theorem addressed_of_accept {addr text : List Char} {roster : Option (Roster Key)} {cls : Class}
    (h : accept sha256 verify addr text roster = .ok cls)
    (hc2 : cls = .c2 → isSignatureAddr addr = true) : Addressed sha256 addr text := by
  obtain ⟨hcls, hbad⟩ := classify_of_accept h
  cases cls with
  | content =>
      left
      unfold classify at hcls
      split at hcls
      · rename_i heq
        exact heq.symm
      · split at hcls <;> cases hcls
  | c2 => exact Or.inr (hc2 rfl)
  | bad => exact absurd rfl hbad

/-! ## Writes -/

namespace FileSys

variable {fs : FileSys}

@[simp] theorem createDirAll_file (path : Path) : (fs.createDirAll path).file = fs.file := by
  unfold createDirAll
  split <;> rfl

/-- A plain name is joined as one component. -/
theorem join_plain {base : Path} {name : List Char} (hslash : '/' ∉ name) {path : Path}
    (h : fs.join base name = some path) : path = base ++ [name] := by
  have hsplit : name.splitOnP (· == '/') = [name] := by
    apply List.splitOnP_eq_singleton
    intro c hc
    rw [beq_eq_false_iff_ne]
    rintro rfl
    exact hslash hc
  unfold join at h
  split at h
  · rename_i hhead
    exact absurd (List.mem_of_mem_head? (Option.mem_def.mpr hhead)) hslash
  · split at h
    · rw [hsplit, walk, Option.some_inj] at h
      exact h.symm
    · cases h

/-- A write changes at most the file at its path. -/
theorem write_file {path : Option Path} {bytes : List UInt8} {p : Path}
    (h : (fs.write path bytes).file p ≠ fs.file p) :
    path = some p ∧ (fs.write path bytes).file p = some bytes := by
  cases path with
  | none => exact absurd rfl h
  | some q =>
      simp only [write] at h ⊢
      split at h
      · exact absurd rfl h
      · rename_i hdir
        rw [if_neg hdir]
        by_cases hp : p = q
        · subst hp
          exact ⟨rfl, Function.update_self _ _ _⟩
        · exact absurd (Function.update_of_ne hp _ _) h

end FileSys

theorem slash_not_mem_md {addr : List Char} (h : '/' ∉ addr) : '/' ∉ addr ++ mdSuffix := by
  intro hmem
  rcases List.mem_append.mp hmem with haddr | hmd
  · exact h haddr
  · exact absurd hmd (by decide)

theorem commit_file {fs : FileSys} {addr text : List Char} (hplain : Plain addr) {p : Path}
    (h : (commit root fs addr text).file p ≠ fs.file p) :
    p = fullDir root ++ [addr ++ mdSuffix] ∧
      (commit root fs addr text).file p = some (encode text) := by
  obtain ⟨hpath, hbytes⟩ := FileSys.write_file h
  exact ⟨FileSys.join_plain (slash_not_mem_md hplain.1) hpath, hbytes⟩

/-- The file of an object that has been accepted under its address. -/
def WrittenAs (sha256 : List UInt8 → List UInt8) (verify : Key → List UInt8 → List UInt8 → Bool)
    (root : Path) (roster : Option (Roster Key)) (addr text : List Char) (p : Path)
    (bytes : Option (List UInt8)) : Prop :=
  p = fullDir root ++ [addr ++ mdSuffix] ∧ Plain addr ∧ Addressed sha256 addr text ∧
    bytes = some (encode text) ∧ ∃ cls, accept sha256 verify addr text roster = .ok cls

theorem commit_writtenAs {fs : FileSys} {addr text : List Char} {roster : Option (Roster Key)}
    {cls : Class} (haccept : accept sha256 verify addr text roster = .ok cls)
    (hc2 : cls = .c2 → isSignatureAddr addr = true) {p : Path}
    (h : (commit root fs addr text).file p ≠ fs.file p) :
    WrittenAs sha256 verify root roster addr text p ((commit root fs addr text).file p) := by
  have haddressed := addressed_of_accept haccept hc2
  obtain ⟨hp, hbytes⟩ := commit_file haddressed.plain h
  exact ⟨hp, haddressed.plain, haddressed, hbytes, cls, haccept⟩

/-- What the answers of a peer change. -/
theorem fetchAll_file {roster : Roster Key} {addrs : List (List Char)}
    {replies : List (List UInt8)} {fs : FileSys} {report : SyncReport}
    (hc2 : ∀ addr reply, (addr, reply) ∈ addrs.zip replies →
      accept sha256 verify addr (fromUtf8Lossy reply) (some roster) = .ok .c2 →
        isSignatureAddr addr = true) {p : Path}
    (h : (fetchAll sha256 verify root roster fs report addrs replies).1.file p ≠ fs.file p) :
    ∃ addr reply, (addr, reply) ∈ addrs.zip replies ∧
      WrittenAs sha256 verify root (some roster) addr (fromUtf8Lossy reply) p
        ((fetchAll sha256 verify root roster fs report addrs replies).1.file p) := by
  induction addrs generalizing fs report replies with
  | nil =>
      rw [fetchAll] at h
      exact absurd rfl h
  | cons addr rest ih =>
      cases replies with
      | nil =>
          rw [fetchAll] at h
          exact absurd rfl h
      | cons reply replies =>
          have hrest : ∀ {fs' : FileSys} {report' : SyncReport},
              (fetchAll sha256 verify root roster fs' report' rest replies).1.file p ≠ fs'.file p →
                ∃ a r, (a, r) ∈ (addr :: rest).zip (reply :: replies) ∧
                  WrittenAs sha256 verify root (some roster) a (fromUtf8Lossy r) p
                    ((fetchAll sha256 verify root roster fs' report' rest replies).1.file p) := by
            intro fs' report' hne
            obtain ⟨a, r, hmem, hwritten⟩ := ih
              (fun a r hmem => hc2 a r (by
                rw [List.zip_cons_cons]
                exact List.mem_cons_of_mem _ hmem)) hne
            refine ⟨a, r, ?_, hwritten⟩
            rw [List.zip_cons_cons]
            exact List.mem_cons_of_mem _ hmem
          rw [fetchAll] at h ⊢
          split
          · rename_i hlong
            rw [if_pos hlong] at h
            exact absurd rfl h
          · rename_i hlong
            rw [if_neg hlong] at h
            split
            · rename_i hmiss
              rw [if_pos hmiss] at h
              exact hrest h
            · rename_i hmiss
              rw [if_neg hmiss] at h
              cases haccept : accept sha256 verify addr (fromUtf8Lossy reply) (some roster) with
              | error reason =>
                  rw [haccept] at h
                  exact hrest h
              | ok cls =>
                  rw [haccept] at h
                  dsimp only at h ⊢
                  -- the file was last written for a later answer or for this one
                  by_cases hlater : (fetchAll sha256 verify root roster
                      (commit root (fs.createDirAll (fullDir root)) addr (fromUtf8Lossy reply))
                      { report with pulled := report.pulled ++ [addr] } rest replies).1.file p =
                    (commit root (fs.createDirAll (fullDir root)) addr
                      (fromUtf8Lossy reply)).file p
                  · rw [hlater] at h ⊢
                    refine ⟨addr, reply, by simp, ?_⟩
                    apply commit_writtenAs haccept
                    · rintro rfl
                      exact hc2 addr reply (by simp) haccept
                    · rwa [FileSys.createDirAll_file]
                  · exact hrest hlater

section PullEach

variable {remoteFull remoteSum : List Char → Option (List Char)} {roster : Option (Roster Key)}

/-- What another directory without summaries changes. -/
theorem pullEach_file {addrs : List (List Char)} {fs : FileSys}
    (hc2 : ∀ addr text, addr ∈ addrs → remoteFull addr = some text →
      accept sha256 verify addr text roster = .ok .c2 → isSignatureAddr addr = true)
    (hsum : ∀ addr text cls, addr ∈ addrs → remoteFull addr = some text →
      accept sha256 verify addr text roster = .ok cls → remoteSum addr = none) {p : Path}
    (h : (pullEach sha256 verify root remoteFull remoteSum roster fs addrs).file p ≠ fs.file p) :
    ∃ addr text, addr ∈ addrs ∧ remoteFull addr = some text ∧
      WrittenAs sha256 verify root roster addr text p
        ((pullEach sha256 verify root remoteFull remoteSum roster fs addrs).file p) := by
  induction addrs generalizing fs with
  | nil =>
      rw [pullEach] at h
      exact absurd rfl h
  | cons addr rest ih =>
      have hrest : ∀ {fs' : FileSys},
          (pullEach sha256 verify root remoteFull remoteSum roster fs' rest).file p ≠ fs'.file p →
            ∃ a text, a ∈ addr :: rest ∧ remoteFull a = some text ∧
              WrittenAs sha256 verify root roster a text p
                ((pullEach sha256 verify root remoteFull remoteSum roster fs' rest).file p) := by
        intro fs' hne
        obtain ⟨a, text, hmem, hwritten⟩ := ih
          (fun a text hmem => hc2 a text (List.mem_cons_of_mem _ hmem))
          (fun a text cls hmem => hsum a text cls (List.mem_cons_of_mem _ hmem)) hne
        exact ⟨a, text, List.mem_cons_of_mem _ hmem, hwritten⟩
      rw [pullEach] at h ⊢
      cases htext : remoteFull addr with
      | none =>
          rw [htext] at h
          exact hrest h
      | some text =>
          rw [htext] at h
          dsimp only at h ⊢
          cases haccept : accept sha256 verify addr text roster with
          | error reason =>
              rw [haccept] at h
              exact hrest h
          | ok cls =>
              have hnone := hsum addr text cls List.mem_cons_self htext haccept
              rw [haccept, hnone] at h
              rw [hnone]
              dsimp only at h ⊢
              by_cases hlater :
                  (pullEach sha256 verify root remoteFull remoteSum roster
                    (commit root fs addr text) rest).file p = (commit root fs addr text).file p
              · rw [hlater] at h ⊢
                refine ⟨addr, text, List.mem_cons_self, htext, ?_⟩
                apply commit_writtenAs haccept _ h
                rintro rfl
                exact hc2 addr text List.mem_cons_self htext haccept
              · exact hrest hlater

end PullEach

/-! ## Runs -/

/-- The roster that an operation checks objects against. -/
def Op.roster : Op Key → Option (Roster Key)
  | .pull _ _ _ roster => roster
  | .pullFrom roster _ _ _ => some roster
  | .discoverSimilar roster _ _ => some roster
  | .get _ => none

section Operations

variable (sha256 : List UInt8 → List UInt8) (verify : Key → List UInt8 → List UInt8 → Bool)
variable (root : Path)

/-- The texts that peers give for an address. -/
def Fetched (fs : FileSys) (addr text : List Char) : Op Key → Prop
  | .pull remoteFull _ addrs _ => addr ∈ addrs ∧ remoteFull addr = some text
  | .pullFrom _ _ order replies =>
      ∃ reply, (addr, reply) ∈ order.zip replies ∧ text = fromUtf8Lossy reply
  | .discoverSimilar _ answer replies =>
      ∃ reply, (addr, reply) ∈ (candidates root fs answer).zip replies ∧ text = fromUtf8Lossy reply
  | .get _ => False

/-- The episodes that pass the checks have signatures for addresses, another directory has no
summaries of what passes, and a request has no separator or names no file. -/
structure Contained (fs : FileSys) (op : Op Key) : Prop where
  episodes : ∀ addr text, Fetched root fs addr text op →
    accept sha256 verify addr text op.roster = .ok .c2 → isSignatureAddr addr = true
  summaries : ∀ remoteFull remoteSum addrs roster, op = .pull remoteFull remoteSum addrs roster →
    ∀ addr text cls, Fetched root fs addr text op →
      accept sha256 verify addr text roster = .ok cls → remoteSum addr = none
  requests : ∀ request, op = .get request → '/' ∉ fromUtf8Lossy request ∨
    fs.read (fs.join (fullDir root) (fromUtf8Lossy request ++ mdSuffix)) = none

/-- What an operation may do: a file that it changes is that of an object which it has fetched
and accepted under its address, and a request has the text of a file of the store. -/
structure Kept (fs : FileSys) (op : Op Key) : Prop where
  written : ∀ p, (storeStep sha256 verify root fs op).file p ≠ fs.file p →
    ∃ addr text, Fetched root fs addr text op ∧
      WrittenAs sha256 verify root op.roster addr text p
        ((storeStep sha256 verify root fs op).file p)
  served : ∀ request, op = .get request → serveGet root fs request = missFrame ∨
    ∃ name, '/' ∉ name ∧ fs.file (fullDir root ++ [name]) = some (serveGet root fs request)

/-- Every file that is not as it was is that of an object accepted under its address. -/
def Intact (fs₀ fs : FileSys) : Prop :=
  ∀ p, fs.file p ≠ fs₀.file p →
    ∃ addr text roster, WrittenAs sha256 verify root roster addr text p (fs.file p)

variable {sha256 verify root}

theorem Contained.written {fs : FileSys} {op : Op Key}
    (h : Contained sha256 verify root fs op) {p : Path}
    (hne : (storeStep sha256 verify root fs op).file p ≠ fs.file p) :
    ∃ addr text, Fetched root fs addr text op ∧
      WrittenAs sha256 verify root op.roster addr text p
        ((storeStep sha256 verify root fs op).file p) := by
  obtain ⟨hepisodes, hsummaries, -⟩ := h
  cases op with
  | pull remoteFull remoteSum addrs roster =>
      simp only [storeStep, pull] at hne ⊢
      have hdirs : ((fs.createDirAll (fullDir root)).createDirAll (sumDir root)).file p =
          fs.file p := by
        simp only [FileSys.createDirAll_file]
      rw [← hdirs] at hne
      obtain ⟨addr, text, hmem, htext, hwritten⟩ := pullEach_file
        (fun a t hmem htext => hepisodes a t ⟨hmem, htext⟩)
        (fun a t cls hmem htext => hsummaries _ _ _ _ rfl a t cls ⟨hmem, htext⟩) hne
      exact ⟨addr, text, ⟨hmem, htext⟩, hwritten⟩
  | pullFrom roster listing order replies =>
      simp only [storeStep, pullFrom] at hne ⊢
      split at hne
      · rename_i hready
        rw [if_pos hready]
        obtain ⟨addr, reply, hmem, hwritten⟩ :=
          fetchAll_file (fun a r hmem => hepisodes a _ ⟨r, hmem, rfl⟩) hne
        exact ⟨addr, _, ⟨reply, hmem, rfl⟩, hwritten⟩
      · exact absurd rfl hne
  | discoverSimilar roster answer replies =>
      simp only [storeStep, discoverSimilar] at hne ⊢
      split at hne
      · rename_i hready
        rw [if_pos hready]
        obtain ⟨addr, reply, hmem, hwritten⟩ :=
          fetchAll_file (fun a r hmem => hepisodes a _ ⟨r, hmem, rfl⟩) hne
        exact ⟨addr, _, ⟨reply, hmem, rfl⟩, hwritten⟩
      · exact absurd rfl hne
  | get request => exact absurd rfl hne

theorem Contained.served {fs : FileSys} {request : List UInt8}
    (h : Contained sha256 verify root fs (.get request)) :
    serveGet root fs request = missFrame ∨
      ∃ name, '/' ∉ name ∧ fs.file (fullDir root ++ [name]) = some (serveGet root fs request) := by
  rcases h.requests request rfl with hslash | hnone
  · unfold serveGet
    cases hjoin : fs.join (fullDir root) (fromUtf8Lossy request ++ mdSuffix) with
    | none => exact Or.inl rfl
    | some path =>
        have hname := slash_not_mem_md hslash
        have hpath := FileSys.join_plain hname hjoin
        subst hpath
        cases hfile : fs.file (fullDir root ++ [fromUtf8Lossy request ++ mdSuffix]) with
        | none =>
            left
            simp [FileSys.read, hfile]
        | some bytes =>
            right
            refine ⟨_, hname, ?_⟩
            simp [FileSys.read, hfile]
  · left
    rw [serveGet, hnone, Option.getD_none]

theorem Contained.kept {fs : FileSys} {op : Op Key} (h : Contained sha256 verify root fs op) :
    Kept sha256 verify root fs op := by
  refine ⟨fun p hne => h.written hne, ?_⟩
  rintro request rfl
  exact h.served

theorem Intact.step {fs₀ fs : FileSys} {op : Op Key} (h : Intact sha256 verify root fs₀ fs)
    (hkept : Kept sha256 verify root fs op) :
    Intact sha256 verify root fs₀ (storeStep sha256 verify root fs op) := by
  intro p hne
  by_cases hstep : (storeStep sha256 verify root fs op).file p = fs.file p
  · rw [hstep] at hne ⊢
    exact h p hne
  · obtain ⟨addr, text, -, hwritten⟩ := hkept.written p hstep
    exact ⟨addr, text, op.roster, hwritten⟩

end Operations

/-- Over a run whose operations are all contained, each of them writes only what it has
accepted and answers only from the store, and every file is at every moment as it was or that
of an accepted object. -/
theorem store_integrity (sha256 : List UInt8 → List UInt8)
    (verify : Key → List UInt8 → List UInt8 → Bool) (root : Path) (fs : FileSys)
    (ops : List (Op Key))
    (h : Each (storeStep sha256 verify root) (Contained sha256 verify root) fs ops) :
    Each (storeStep sha256 verify root) (Kept sha256 verify root) fs ops ∧
      Always (storeStep sha256 verify root) (Intact sha256 verify root fs) fs ops := by
  constructor
  · intro before op hbefore
    exact (h before op hbefore).kept
  · refine h.always (fun p hne => absurd rfl hne) fun fs' op hintact hcontained => ?_
    exact hintact.step hcontained.kept

/-! ## Two runs -/

/-- The digest of the body of one line, `hi`. -/
def helloDigest (_ : List UInt8) : List UInt8 :=
  [152, 234, 110, 79, 33, 111, 47, 180, 182, 159, 255, 155, 58, 68, 132, 44, 56, 104, 108, 166,
    133, 243, 245, 93, 196, 140, 93, 63, 177, 16, 123, 228]

/-- A peer that is on the roster signs what it sends. -/
def peerSigns (_ : Nat) (_ _ : List UInt8) : Bool := true

def peerRoster : Roster Nat := fun id => if id = ['b'] then some 2 else none

def signedText (more : List Char) : List Char :=
  fence ++ ['\n'] ++ memSigner ++ [':', ' ', 'b', '\n'] ++ memSig ++ [':', ' '] ++
    List.replicate 128 '0' ++ ['\n'] ++ more ++ fence ++ ['\n', 'h', 'i', '\n']

/-- An empty store. -/
def emptyStore : FileSys where
  file _ := none
  dir p := p.isPrefixOf (fullDir [['m']])

/-- One object is pulled by its hash and served again. -/
def contentRun : List (Op Nat) :=
  [.pullFrom peerRoster (encode (addrOf helloDigest ['h', 'i'])) [addrOf helloDigest ['h', 'i']]
      [encode (signedText [])],
    .get (encode (addrOf helloDigest ['h', 'i']))]

theorem content_run_kept :
    Each (storeStep helloDigest peerSigns [['m']]) (Kept helloDigest peerSigns [['m']])
        emptyStore contentRun ∧
      Always (storeStep helloDigest peerSigns [['m']])
        (Intact helloDigest peerSigns [['m']] emptyStore) emptyStore contentRun := by
  apply store_integrity
  rw [contentRun, each_cons, each_cons]
  refine ⟨⟨?_, ?_, ?_⟩, ⟨?_, ?_, ?_⟩, each_nil⟩
  · rintro addr text ⟨reply, hmem, rfl⟩ haccept
    obtain ⟨rfl, rfl⟩ := Prod.mk.inj (List.mem_singleton.mp hmem)
    have hcontent : accept helloDigest peerSigns (addrOf helloDigest ['h', 'i'])
        (fromUtf8Lossy (encode (signedText []))) (some peerRoster) = .ok .content := by
      decide +kernel
    exact absurd (hcontent.symm.trans haccept) (by decide)
  · intro _ _ _ _ hop
    cases hop
  · intro _ hop
    cases hop
  · intro _ _ hfetched
    exact hfetched.elim
  · intro _ _ _ _ hop
    cases hop
  · intro request hop
    cases hop
    exact Or.inl (by decide)

/-- A peer lists an episode under a path that leads out of the store. -/
def escapingRun : List (Op Nat) :=
  [.pullFrom peerRoster (encode ['.', '.', '/', 'x']) [['.', '.', '/', 'x']]
    [encode (signedText (memAddr ++ [':', ' ', '.', '.', '/', 'x', '\n'] ++ memKind ++
      [':', ' '] ++ episode ++ ['\n']))]]

theorem episode_written_outside :
    ¬(Each (storeStep helloDigest peerSigns [['m']]) (Kept helloDigest peerSigns [['m']])
        emptyStore escapingRun ∧
      Always (storeStep helloDigest peerSigns [['m']])
        (Intact helloDigest peerSigns [['m']] emptyStore) emptyStore escapingRun) := by
  rintro ⟨-, h⟩
  have hwritten : (after (storeStep helloDigest peerSigns [['m']]) emptyStore escapingRun).file
      [['m'], ['x', '.', 'm', 'd']] ≠ emptyStore.file [['m'], ['x', '.', 'm', 'd']] := by
    decide +kernel
  obtain ⟨addr, text, roster, hpath, -⟩ := h.last _ hwritten
  have hlen := congrArg List.length hpath
  simp [fullDir] at hlen

end ShannonPrime.Swarm
