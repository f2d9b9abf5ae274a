import ShannonPrime.Tokenizer.Vocab

/-!
The merge tables of the Gemma 4 encoding: from the pair of two ids to the line of the merge, and
from the line to the id of what it makes. A merge of which a side or the result is no token is
refused, since a table that is keyed by ids cannot hold it.
-/

namespace ShannonPrime.Tokenizer

open LinearProbe

def g4Slot (k : UInt64) (mask : Nat) : Nat :=
  let k := (k ^^^ (k >>> 33)) * 0xFF51AFD7ED558CCD
  let k := (k ^^^ (k >>> 33)) * 0xC4CEB9FE1A85EC53
  (k ^^^ (k >>> 33)).toNat &&& mask

/-- Empty cells hold a key that is not one of two ids. -/
def g4EmptyKey : UInt64 := 0xFFFFFFFFFFFFFFFF

def g4Key (lid rid : Nat) : UInt64 := (UInt64.ofNat lid <<< 32) ||| UInt64.ofNat rid

/-- The pairs' lines, and the id that each line makes, if any. -/
structure G4Tables where
  pairs : Nat → Option (UInt64 × Nat)
  pairmask : Nat
  result : List (Option Nat)

/-- The first writer, of the lowest rank, wins. -/
def g4PairPut (t : G4Tables) (key : UInt64) (rank : Nat) : G4Tables :=
  { t with
    pairs := put (t.pairmask + 1) (fun k => g4Slot k t.pairmask) Prod.fst t.pairs (key, rank) }

def g4PairRank (t : G4Tables) (l r : Nat) : Option Nat :=
  (get (t.pairmask + 1) (fun k => g4Slot k t.pairmask) Prod.fst t.pairs (g4Key l r)).map Prod.snd

/-- The two sides, split at the first space behind the first byte. -/
def g4Split (line : List UInt8) : Option (List UInt8 × List UInt8) :=
  match (line.drop 1).findIdx? fun b => b == 0x20 with
  | none => none
  | some k =>
      let sp := k + 1
      if sp + 1 ≥ line.length then none else some (line.take sp, line.drop (sp + 1))

inductive G4Error where
  | mergeCount
  | side (i : Nat)
  | result (i : Nat)
  | byteToken (b : Nat)
  deriving DecidableEq, Repr

/-- One line. A line without separator is inert. -/
def g4AddMerge (v : Vocab) (t : G4Tables) (i : Nat) (line : List UInt8) : Except G4Error G4Tables :=
  match g4Split line with
  | none => .ok { t with result := t.result ++ [none] }
  | some (left, right) =>
      match v.lookup left, v.lookup right with
      | some lid, some rid =>
          match v.lookup (left ++ right) with
          | none => .error (.result i)
          | some res => .ok { g4PairPut t (g4Key lid rid) i with result := t.result ++ [some res] }
      | _, _ => .error (.side i)

def g4AddMerges (v : Vocab) : G4Tables → Nat → List (List UInt8) → Except G4Error G4Tables
  | t, _, [] => .ok t
  | t, i, line :: lines =>
      match g4AddMerge v t i line with
      | .error e => .error e
      | .ok t => g4AddMerges v t (i + 1) lines

def hexDigit (d : Nat) : UInt8 := UInt8.ofNat (if d < 10 then 0x30 + d else 0x41 + (d - 10))

/-- `<0xNN>` -/
def byteName (b : Nat) : List UInt8 :=
  [0x3C, 0x30, 0x78, hexDigit (b / 16), hexDigit (b % 16), 0x3E]

/-- The ids of the byte tokens, all of which have to be there. -/
def byteTable (v : Vocab) : List Nat → Except G4Error (List Nat)
  | [] => .ok []
  | b :: bs =>
      match v.lookup (byteName b) with
      | none => .error (.byteToken b)
      | some id =>
          match byteTable v bs with
          | .error e => .error e
          | .ok ids => .ok (id :: ids)

structure Gemma4 where
  vocab : Vocab
  tables : G4Tables
  byteTok : List Nat

def spG4Build (v : Vocab) (merges : List (List UInt8)) : Except G4Error Gemma4 :=
  if merges.length = 0 ∨ merges.length > 0x7FFFFFFF then .error .mergeCount
  else
    let cap := doubled (merges.length * 2) (2 ^ 4) (merges.length * 2)
    match g4AddMerges v ⟨fun _ => none, cap - 1, []⟩ 0 merges with
    | .error e => .error e
    | .ok t =>
        match byteTable v (List.range 256) with
        | .error e => .error e
        | .ok ids => .ok ⟨v, t, ids⟩

/-! ## The keys -/

theorem g4Key_toNat {lid rid : Nat} (hl : lid < 2 ^ 31) (hr : rid < 2 ^ 31) :
    (g4Key lid rid).toNat = 2 ^ 32 * lid + rid := by
  have hlid : (UInt64.ofNat lid <<< 32).toNat = 2 ^ 32 * lid := by
    rw [UInt64.toNat_shiftLeft, UInt64.toNat_ofNat', Nat.mod_eq_of_lt (a := lid) (by omega),
      show (32 : UInt64).toNat % 64 = 32 from rfl, Nat.shiftLeft_eq, Nat.mul_comm]
    exact Nat.mod_eq_of_lt (by omega)
  rw [g4Key, UInt64.toNat_or, hlid, UInt64.toNat_ofNat', Nat.mod_eq_of_lt (by omega),
    Nat.two_pow_add_eq_or_of_lt (by omega)]

theorem g4Key_inj {lid rid lid' rid' : Nat} (hl : lid < 2 ^ 31) (hr : rid < 2 ^ 31)
    (hl' : lid' < 2 ^ 31) (hr' : rid' < 2 ^ 31) (h : g4Key lid rid = g4Key lid' rid') :
    lid = lid' ∧ rid = rid' := by
  have hnat := congrArg UInt64.toNat h
  rw [g4Key_toNat hl hr, g4Key_toNat hl' hr'] at hnat
  omega

/-- No pair of ids has the key of an empty cell. -/
theorem g4Key_ne_empty {lid rid : Nat} (hl : lid < 2 ^ 31) (hr : rid < 2 ^ 31) :
    g4Key lid rid ≠ g4EmptyKey := by
  intro h
  have hnat := congrArg UInt64.toNat h
  rw [g4Key_toNat hl hr] at hnat
  have hempty : g4EmptyKey.toNat = 2 ^ 64 - 1 := rfl
  omega

/-! ## What the tables hold -/

/-- The first line that merges the two strings. -/
def mergeRank (merges : List (List UInt8)) (a b : List UInt8) : Option Nat :=
  merges.findIdx? fun line => decide (g4Split line = some (a, b))

/-- The id of what a line makes. -/
def lineResult (v : Vocab) (line : List UInt8) : Option Nat :=
  (g4Split line).bind fun sides => v.lookup (sides.1 ++ sides.2)

/-- The tables hold the lines: every line's sides and result are tokens. -/
structure Holds (v : Vocab) (t : G4Tables) (lines : List (List UInt8)) : Prop where
  good : Good (t.pairmask + 1) (fun k => g4Slot k t.pairmask)
    (Prod.fst : UInt64 × Nat → UInt64) t.pairs
  load : load (t.pairmask + 1) t.pairs ≤ lines.length
  result : t.result = lines.map (lineResult v)
  sides : ∀ line ∈ lines, ∀ l r, g4Split line = some (l, r) →
    (v.lookup l).isSome ∧ (v.lookup r).isSome ∧ (v.lookup (l ++ r)).isSome
  rank : ∀ a b lid rid, v.lookup a = some lid → v.lookup b = some rid →
    g4PairRank t lid rid = mergeRank lines a b

theorem mergeRank_snoc (lines : List (List UInt8)) (line a b : List UInt8) :
    mergeRank (lines ++ [line]) a b = (mergeRank lines a b).or
      (if g4Split line = some (a, b) then some lines.length else none) := by
  rw [mergeRank, mergeRank, List.findIdx?_append, List.findIdx?_singleton]
  by_cases h : g4Split line = some (a, b)
  · simp [h]
  · simp [h]

/-- One more line. -/
theorem Holds.addMerge {v : Vocab} {t t' : G4Tables} {lines : List (List UInt8)}
    {line : List UInt8} (h : Holds v t lines) (hroom : lines.length + 1 < t.pairmask + 1)
    (hadd : g4AddMerge v t lines.length line = .ok t') :
    Holds v t' (lines ++ [line]) ∧ t'.pairmask = t.pairmask := by
  rw [g4AddMerge] at hadd
  cases hsplit : g4Split line with
  | none =>
      simp only [hsplit, Except.ok.injEq] at hadd
      subst hadd
      refine ⟨⟨h.good, ?_, ?_, ?_, ?_⟩, rfl⟩
      · rw [List.length_append]
        exact h.load.trans (Nat.le_add_right _ _)
      · dsimp only
        rw [h.result, List.map_append, List.map_singleton, lineResult, hsplit]
        rfl
      · intro line' hline' l r hlr
        rcases List.mem_append.mp hline' with hold | hnew
        · exact h.sides line' hold l r hlr
        · rw [List.mem_singleton.mp hnew, hsplit] at hlr
          cases hlr
      · intro a b lid rid ha hb
        rw [mergeRank_snoc, if_neg (by rw [hsplit]; exact Option.some_ne_none _ ∘ Eq.symm),
          Option.or_none]
        exact h.rank a b lid rid ha hb
  | some sides =>
      obtain ⟨left, right⟩ := sides
      simp only [hsplit] at hadd
      cases hleft : v.lookup left with
      | none =>
          rw [hleft] at hadd
          cases hadd
      | some lid =>
          cases hright : v.lookup right with
          | none =>
              rw [hleft, hright] at hadd
              cases hadd
          | some rid =>
              cases hres : v.lookup (left ++ right) with
              | none =>
                  simp only [hleft, hright, hres] at hadd
                  cases hadd
              | some res =>
                  simp only [hleft, hright, hres, Except.ok.injEq] at hadd
                  subst hadd
                  have hload := h.load
                  obtain ⟨hgood, hload', hget⟩ :=
                    h.good.put (g4Key lid rid, lines.length) (by omega)
                  refine ⟨⟨hgood, ?_, ?_, ?_, ?_⟩, rfl⟩
                  · rw [List.length_append, List.length_singleton]
                    exact hload'.trans (Nat.succ_le_succ hload)
                  · dsimp only [g4PairPut]
                    rw [h.result, List.map_append, List.map_singleton, lineResult, hsplit]
                    exact congrArg _ (congrArg (fun id => [id]) hres.symm)
                  · intro line' hline' l r hlr
                    rcases List.mem_append.mp hline' with hold | hnew
                    · exact h.sides line' hold l r hlr
                    · rw [List.mem_singleton.mp hnew, hsplit, Option.some_inj,
                        Prod.mk.injEq] at hlr
                      rw [← hlr.1, ← hlr.2, hleft, hright, hres]
                      exact ⟨rfl, rfl, rfl⟩
                  · intro a b la rb ha hb
                    have hkey : g4Key lid rid = g4Key la rb ↔ g4Split line = some (a, b) := by
                      rw [hsplit, Option.some_inj]
                      constructor
                      · intro heq
                        obtain ⟨hl, hr⟩ := g4Key_inj (v.lookup_lt hleft) (v.lookup_lt hright)
                          (v.lookup_lt ha) (v.lookup_lt hb) heq
                        rw [← hl] at ha
                        rw [← hr] at hb
                        rw [v.lookup_inj hleft ha, v.lookup_inj hright hb]
                      · intro heq
                        rw [Prod.mk.injEq] at heq
                        rw [heq.1, ha, Option.some_inj] at hleft
                        rw [heq.2, hb, Option.some_inj] at hright
                        rw [hleft, hright]
                    rw [mergeRank_snoc, ← h.rank a b la rb ha hb]
                    dsimp only [g4PairRank, g4PairPut]
                    rw [hget]
                    by_cases hsame : g4Key lid rid = g4Key la rb
                    · rw [if_pos hsame, if_pos (hkey.mp hsame)]
                      cases get (t.pairmask + 1) (fun k => g4Slot k t.pairmask) Prod.fst t.pairs
                          (g4Key la rb) <;> rfl
                    · rw [if_neg hsame, if_neg fun heq => hsame (hkey.mpr heq), Option.or_none,
                        Option.or_none]

theorem Holds.addMerges {v : Vocab} {t t' : G4Tables} {lines rest : List (List UInt8)}
    (h : Holds v t lines) (hroom : lines.length + rest.length < t.pairmask + 1)
    (hadd : g4AddMerges v t lines.length rest = .ok t') : Holds v t' (lines ++ rest) := by
  induction rest generalizing t lines with
  | nil =>
      cases hadd
      rw [List.append_nil]
      exact h
  | cons line rest ih =>
      rw [List.length_cons] at hroom
      rw [g4AddMerges] at hadd
      cases hone : g4AddMerge v t lines.length line with
      | error e =>
          rw [hone] at hadd
          cases hadd
      | ok t₁ =>
          simp only [hone] at hadd
          obtain ⟨hholds, hmask⟩ := h.addMerge (by omega) hone
          have hlen : (lines ++ [line]).length = lines.length + 1 := List.length_append
          rw [List.append_cons]
          apply ih hholds
          · rw [hlen, hmask]
            omega
          · rw [hlen]
            exact hadd

/-- Tables that have been built hold all the lines. -/
theorem spG4Build_holds {v : Vocab} {merges : List (List UInt8)} {t : Gemma4}
    (h : spG4Build v merges = .ok t) : t.vocab = v ∧ Holds v t.tables merges := by
  rw [spG4Build] at h
  split at h
  · cases h
  · dsimp only at h
    obtain ⟨hlow, htarget⟩ := le_doubled (merges.length * 2) (2 ^ 4) (merges.length * 2)
      (by omega) (by omega)
    generalize hcap : doubled (merges.length * 2) (2 ^ 4) (merges.length * 2) = cap at h hlow htarget
    have hempty : Holds v ⟨fun _ => none, cap - 1, []⟩ [] := by
      refine ⟨good_empty (fun k => Nat.lt_succ_of_le Nat.and_le_right) (Nat.succ_pos _), ?_, rfl,
        List.forall_mem_nil _, fun a b lid rid _ _ => ?_⟩
      · rw [load_empty]
        exact Nat.le_refl _
      · have hgood : Good (cap - 1 + 1) (fun k => g4Slot k (cap - 1))
            (Prod.fst : UInt64 × Nat → UInt64) fun _ => none :=
          good_empty (fun k => Nat.lt_succ_of_le Nat.and_le_right) (Nat.succ_pos _)
        have hnone := hgood.get_eq_none (k := g4Key lid rid)
        dsimp only [g4PairRank]
        rw [hnone.mpr (by rintro i a ⟨⟩)]
        rfl
    cases hadd : g4AddMerges v ⟨fun _ => none, cap - 1, []⟩ 0 merges with
    | error e =>
        rw [hadd] at h
        cases h
    | ok tables =>
        have hholds := hempty.addMerges (by dsimp only [List.length_nil]; omega) hadd
        simp only [hadd] at h
        cases hbytes : byteTable v (List.range 256) with
        | error e =>
            rw [hbytes] at h
            cases h
        | ok ids =>
            simp only [hbytes, Except.ok.injEq] at h
            subst h
            exact ⟨rfl, hholds⟩

/-! ## What is accepted -/

/-- The line is inert, or its sides and its result are tokens. -/
def Resolves (v : Vocab) (line : List UInt8) : Prop :=
  ∀ l r, g4Split line = some (l, r) → l ∈ v.tok ∧ r ∈ v.tok ∧ l ++ r ∈ v.tok

theorem g4AddMerge_ok {v : Vocab} {t : G4Tables} {i : Nat} {line : List UInt8}
    (h : Resolves v line) : ∃ t', g4AddMerge v t i line = .ok t' := by
  rw [g4AddMerge]
  cases hsplit : g4Split line with
  | none => exact ⟨_, rfl⟩
  | some sides =>
      obtain ⟨l, r⟩ := sides
      obtain ⟨hl, hr, hres⟩ := h l r hsplit
      obtain ⟨lid, hlid⟩ := Option.isSome_iff_exists.mp (Vocab.lookup_isSome.mpr hl)
      obtain ⟨rid, hrid⟩ := Option.isSome_iff_exists.mp (Vocab.lookup_isSome.mpr hr)
      obtain ⟨res, hres⟩ := Option.isSome_iff_exists.mp (Vocab.lookup_isSome.mpr hres)
      simp only [hlid, hrid, hres]
      exact ⟨_, rfl⟩

theorem g4AddMerges_ok {v : Vocab} {lines : List (List UInt8)} (t : G4Tables) (i : Nat)
    (h : ∀ line ∈ lines, Resolves v line) : ∃ t', g4AddMerges v t i lines = .ok t' := by
  induction lines generalizing t i with
  | nil => exact ⟨t, rfl⟩
  | cons line lines ih =>
      obtain ⟨t₁, hone⟩ := g4AddMerge_ok (t := t) (i := i) (h line List.mem_cons_self)
      rw [g4AddMerges, hone]
      exact ih t₁ (i + 1) fun line' hline' => h line' (List.mem_cons_of_mem _ hline')

theorem byteTable_ok {v : Vocab} {bs : List Nat} :
    (∃ ids, byteTable v bs = .ok ids) ↔ ∀ b ∈ bs, byteName b ∈ v.tok := by
  induction bs with
  | nil => exact ⟨fun _ => List.forall_mem_nil _, fun _ => ⟨[], rfl⟩⟩
  | cons b bs ih =>
      rw [List.forall_mem_cons, ← ih, byteTable]
      cases hid : v.lookup (byteName b) with
      | none =>
          constructor
          · rintro ⟨ids, ⟨⟩⟩
          · rintro ⟨hmem, -⟩
            rw [← Vocab.lookup_isSome, hid] at hmem
            cases hmem
      | some id =>
          have hmem : byteName b ∈ v.tok := by
            rw [← Vocab.lookup_isSome, hid]
            rfl
          cases hids : byteTable v bs with
          | error e =>
              constructor
              · rintro ⟨ids, ⟨⟩⟩
              · rintro ⟨-, ids, ⟨⟩⟩
          | ok ids => exact ⟨fun _ => ⟨hmem, ids, rfl⟩, fun _ => ⟨_, rfl⟩⟩

/-- What the tables are built from: a number of lines that fits, all of which can be told by
ids, and a token for every byte. -/
theorem spG4Build_ok_iff {v : Vocab} {merges : List (List UInt8)} :
    (∃ t, spG4Build v merges = .ok t) ↔
      0 < merges.length ∧ merges.length ≤ 0x7FFFFFFF ∧ (∀ line ∈ merges, Resolves v line) ∧
        ∀ b < 256, byteName b ∈ v.tok := by
  constructor
  · rintro ⟨t, h⟩
    have hsides := (spG4Build_holds h).2.sides
    rw [spG4Build] at h
    split at h
    · cases h
    · rename_i hcount
      refine ⟨by omega, by omega, ?_, ?_⟩
      · intro line hline l r hsplit
        obtain ⟨hl, hr, hres⟩ := hsides line hline l r hsplit
        exact ⟨Vocab.lookup_isSome.mp hl, Vocab.lookup_isSome.mp hr, Vocab.lookup_isSome.mp hres⟩
      · have hbytes : ∃ ids, byteTable v (List.range 256) = .ok ids := by
          dsimp only at h
          split at h
          · cases h
          · split at h
            · cases h
            · exact ⟨_, by assumption⟩
        intro b hb
        exact byteTable_ok.mp hbytes b (List.mem_range.mpr hb)
  · rintro ⟨hpos, hle, hlines, hbytes⟩
    obtain ⟨tables, htables⟩ := g4AddMerges_ok
      ⟨fun _ => none, doubled (merges.length * 2) (2 ^ 4) (merges.length * 2) - 1, []⟩ 0 hlines
    obtain ⟨ids, hids⟩ := byteTable_ok.mpr fun b hb => hbytes b (List.mem_range.mp hb)
    rw [spG4Build, if_neg (by omega)]
    simp only [htables, hids]
    exact ⟨_, rfl⟩

end ShannonPrime.Tokenizer
