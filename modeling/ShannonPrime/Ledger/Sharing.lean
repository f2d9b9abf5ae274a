import ShannonPrime.Ledger.Replay
import ShannonPrime.Lib.Runs

/-!
Handles that share a ledger file. Each append goes to the end of the file in one piece;
the offset it returns is the handle's own count, taken from the file when the handle was
opened and moved by its own appends only.
-/

namespace ShannonPrime.Ledger

open Runs

/-- What the processes do, in the order the file sees it. -/
inductive Event where
  | openAt (h : Nat)
  | append (h : Nat) (r : SpinorReceipt)

/-- An append that returned: the offset it gave, the length the file had before it. -/
structure Appended where
  offset : Nat
  start : Nat
  receipt : SpinorReceipt

structure Shared where
  file : List Byte
  handle : Nat → Option Handle
  log : List Appended

/-- No handle is open yet. -/
def Shared.init (file : List Byte) : Shared := ⟨file, fun _ => none, []⟩

/-- One call. A handle that is not open cannot append. -/
def Shared.step (s : Shared) : Event → Shared
  | .openAt h => { s with handle := Function.update s.handle h (some (openLedger s.file)) }
  | .append h r =>
      match s.handle h with
      | none => s
      | some l =>
          let out := Ledger.append s.file l r
          { file := out.1
            handle := Function.update s.handle h (some out.2.1)
            log := s.log ++ [⟨out.2.2, s.file.length, r⟩] }

/-- Every append of another handle so far came before an opening of `h`. -/
def Quiet (h : Nat) (before : List Event) : Prop :=
  ∀ earlier h' r later, before = earlier ++ .append h' r :: later → h' ≠ h →
    Event.openAt h' ∈ earlier → Event.openAt h ∈ later

section Run

variable {file : List Byte} {evs : List Event}

theorem concat_split {evs earlier later : List Event} {e x : Event} :
    evs ++ [e] = earlier ++ x :: later ↔
      (later = [] ∧ earlier = evs ∧ x = e) ∨
        ∃ rest, later = rest ++ [e] ∧ evs = earlier ++ x :: rest := by
  constructor
  · intro h
    rcases List.eq_nil_or_concat' later with rfl | ⟨rest, e', rfl⟩
    · left
      obtain ⟨hevs, he⟩ := List.append_inj' h rfl
      exact ⟨rfl, hevs.symm, (List.cons.inj he).1.symm⟩
    · right
      rw [← List.cons_append, ← List.append_assoc] at h
      obtain ⟨hevs, he⟩ := List.append_inj' h rfl
      rw [List.cons.injEq] at he
      exact ⟨rest, by rw [he.1], hevs⟩
  · rintro (⟨rfl, rfl, rfl⟩ | ⟨rest, rfl, rfl⟩)
    · rfl
    · simp

theorem quiet_opened (h : Nat) : Quiet h (evs ++ [.openAt h]) := by
  intro earlier h' r later hsplit _ _
  rcases concat_split.mp hsplit with ⟨_, _, hx⟩ | ⟨rest, rfl, _⟩
  · cases hx
  · exact List.mem_append_right _ (List.mem_singleton.mpr rfl)

/-- An event that is no append of another open handle does not disturb. -/
theorem quiet_concat {h : Nat} {e : Event} (hopen : e ≠ .openAt h)
    (hother : ∀ h' r, e = .append h' r → h' ≠ h → Event.openAt h' ∉ evs) :
    Quiet h (evs ++ [e]) ↔ Quiet h evs := by
  constructor
  · intro hq earlier h' r later hsplit hne hin
    have hlater := hq earlier h' r (later ++ [e])
      (concat_split.mpr (Or.inr ⟨later, rfl, hsplit⟩)) hne hin
    rcases List.mem_append.mp hlater with hmem | hlast
    · exact hmem
    · exact absurd (List.mem_singleton.mp hlast).symm hopen
  · intro hq earlier h' r later hsplit hne hin
    rcases concat_split.mp hsplit with ⟨_, rfl, hx⟩ | ⟨rest, rfl, hrest⟩
    · exact absurd hin (hother h' r hx.symm hne)
    · exact List.mem_append_left _ (hq earlier h' r rest hrest hne hin)

theorem quiet_opened_other {h h' : Nat} (hne : h ≠ h') :
    Quiet h (evs ++ [.openAt h']) ↔ Quiet h evs := by
  apply quiet_concat
  · intro heq
    exact hne (Event.openAt.inj heq).symm
  · intro h'' r heq
    cases heq

theorem quiet_appended {h h' : Nat} {r : SpinorReceipt}
    (hother : h' ≠ h → Event.openAt h' ∉ evs) :
    Quiet h (evs ++ [.append h' r]) ↔ Quiet h evs := by
  apply quiet_concat
  · intro heq
    cases heq
  · intro h'' r' heq hne
    obtain ⟨rfl, _⟩ := Event.append.inj heq
    exact hother hne

theorem not_quiet_concat {h h' : Nat} {r : SpinorReceipt} (hne : h' ≠ h)
    (hin : Event.openAt h' ∈ evs) : ¬Quiet h (evs ++ [.append h' r]) := by
  intro hq
  have hlater := hq evs h' r [] rfl hne hin
  cases hlater

/-- The handles that are open are those an event opened. -/
theorem handle_isSome (file : List Byte) (h : Nat) :
    ((after Shared.step (.init file) evs).handle h).isSome ↔ Event.openAt h ∈ evs := by
  induction evs using List.reverseRecOn with
  | nil => simp [Shared.init]
  | append_singleton evs e ih =>
      rw [after_concat]
      cases e with
      | openAt h' =>
          simp only [Shared.step, List.mem_append, List.mem_singleton, Event.openAt.injEq]
          by_cases heq : h = h'
          · subst heq
            simp
          · rw [Function.update_of_ne heq, ih]
            simp [heq]
      | append h' r =>
          have hmem : Event.openAt h ∈ evs ++ [.append h' r] ↔ Event.openAt h ∈ evs := by simp
          rw [hmem, ← ih]
          simp only [Shared.step]
          cases hl : (after Shared.step (.init file) evs).handle h' with
          | none => exact Iff.rfl
          | some l =>
              by_cases heq : h = h'
              · subst heq
                simp [hl]
              · simp only
                rw [Function.update_of_ne heq]

/-- A handle's count never passes the file's length, and reaches it while it is quiet. -/
theorem handle_count {h : Nat} {l : Handle}
    (hl : (after Shared.step (.init file) evs).handle h = some l) :
    l.bytesWritten ≤ (after Shared.step (.init file) evs).file.length ∧
      (l.bytesWritten = (after Shared.step (.init file) evs).file.length ↔ Quiet h evs) := by
  induction evs using List.reverseRecOn generalizing l with
  | nil => cases hl
  | append_singleton evs e ih =>
      rw [after_concat] at hl ⊢
      cases e with
      | openAt h' =>
          simp only [Shared.step] at hl ⊢
          by_cases heq : h = h'
          · subst heq
            rw [Function.update_self, Option.some_inj] at hl
            subst hl
            exact ⟨Nat.le_refl _, fun _ => quiet_opened h, fun _ => rfl⟩
          · rw [Function.update_of_ne heq] at hl
            rw [quiet_opened_other heq]
            exact ih hl
      | append h' r =>
          simp only [Shared.step] at hl ⊢
          cases hl' : (after Shared.step (.init file) evs).handle h' with
          | none =>
              simp only [hl'] at hl ⊢
              have hclosed : Event.openAt h' ∉ evs := by
                rw [← handle_isSome file, hl']
                simp
              rw [quiet_appended fun _ => hclosed]
              exact ih hl
          | some l' =>
              simp only [hl', Ledger.append] at hl ⊢
              rw [List.length_append, r.size]
              by_cases heq : h = h'
              · subst heq
                rw [Function.update_self, Option.some_inj] at hl
                subst hl
                obtain ⟨hle, hiff⟩ := ih hl'
                rw [quiet_appended fun hne => absurd rfl hne, ← hiff]
                exact ⟨by simp only; omega, by simp only; omega⟩
              · rw [Function.update_of_ne heq] at hl
                obtain ⟨hle, _⟩ := ih hl
                have hin : Event.openAt h' ∈ evs := by
                  rw [← handle_isSome file, hl']
                  rfl
                refine ⟨by omega, fun hsame => ?_,
                  fun hq => absurd hq (not_quiet_concat (fun heq' => heq heq'.symm) hin)⟩
                rw [receiptBytes] at hsame
                omega

/-- The appends that returned, with what each of them did. -/
theorem mem_log {a : Appended} :
    a ∈ (after Shared.step (.init file) evs).log ↔
      ∃ earlier h r later l, evs = earlier ++ .append h r :: later ∧
        (after Shared.step (.init file) earlier).handle h = some l ∧
        a = ⟨l.bytesWritten, (after Shared.step (.init file) earlier).file.length, r⟩ := by
  induction evs using List.reverseRecOn with
  | nil => simp [Shared.init]
  | append_singleton evs e ih =>
      have hold : (∃ earlier h r later l, evs = earlier ++ .append h r :: later ∧
          (after Shared.step (.init file) earlier).handle h = some l ∧
          a = ⟨l.bytesWritten, (after Shared.step (.init file) earlier).file.length, r⟩) →
          ∃ earlier h r later l, evs ++ [e] = earlier ++ .append h r :: later ∧
          (after Shared.step (.init file) earlier).handle h = some l ∧
          a = ⟨l.bytesWritten, (after Shared.step (.init file) earlier).file.length, r⟩ := by
        rintro ⟨earlier, h, r, later, l, hsplit, hl, ha⟩
        exact ⟨earlier, h, r, later ++ [e], l,
          concat_split.mpr (Or.inr ⟨later, rfl, hsplit⟩), hl, ha⟩
      have hnew : (∃ earlier h r later l, evs ++ [e] = earlier ++ .append h r :: later ∧
          (after Shared.step (.init file) earlier).handle h = some l ∧
          a = ⟨l.bytesWritten, (after Shared.step (.init file) earlier).file.length, r⟩) →
          (∃ h r l, e = .append h r ∧ (after Shared.step (.init file) evs).handle h = some l ∧
            a = ⟨l.bytesWritten, (after Shared.step (.init file) evs).file.length, r⟩) ∨
          a ∈ (after Shared.step (.init file) evs).log := by
        rintro ⟨earlier, h, r, later, l, hsplit, hl, ha⟩
        rcases concat_split.mp hsplit with ⟨_, rfl, rfl⟩ | ⟨rest, _, hrest⟩
        · exact Or.inl ⟨h, r, l, rfl, hl, ha⟩
        · exact Or.inr (ih.mpr ⟨earlier, h, r, rest, l, hrest, hl, ha⟩)
      rw [after_concat]
      cases e with
      | openAt h' =>
          constructor
          · intro ha
            exact hold (ih.mp ha)
          · intro ha
            rcases hnew ha with ⟨h, r, l, he, _⟩ | hin
            · cases he
            · exact hin
      | append h' r' =>
          simp only [Shared.step]
          cases hl' : (after Shared.step (.init file) evs).handle h' with
          | none =>
              constructor
              · intro ha
                exact hold (ih.mp ha)
              · intro ha
                rcases hnew ha with ⟨h, r, l, he, hl, _⟩ | hin
                · obtain ⟨rfl, _⟩ := Event.append.inj he
                  rw [hl'] at hl
                  cases hl
                · exact hin
          | some l' =>
              simp only [Ledger.append, List.mem_append, List.mem_singleton]
              constructor
              · rintro (ha | rfl)
                · exact hold (ih.mp ha)
                · exact ⟨evs, h', r', [], l', rfl, hl', rfl⟩
              · intro ha
                rcases hnew ha with ⟨h, r, l, he, hl, rfl⟩ | hin
                · obtain ⟨rfl, rfl⟩ := Event.append.inj he
                  rw [hl', Option.some_inj] at hl
                  subst hl
                  exact Or.inr rfl
                · exact Or.inl hin

theorem after_append (s : Shared) (earlier later : List Event) :
    after Shared.step s (earlier ++ later) =
      after Shared.step (after Shared.step s earlier) later := by
  simp [after]

/-- The file only grows at its end. -/
theorem file_grows (s : Shared) (later : List Event) :
    s.file <+: (after Shared.step s later).file := by
  induction later using List.reverseRecOn with
  | nil => exact List.prefix_refl _
  | append_singleton later e ih =>
      rw [after_concat]
      cases e with
      | openAt h => exact ih
      | append h r =>
          simp only [Shared.step]
          split
          · exact ih
          · exact ih.trans (List.prefix_append _ _)

/-- A record is found in the final file where the append put it. -/
theorem record_at {a : Appended} (ha : a ∈ (after Shared.step (.init file) evs).log) :
    ((after Shared.step (.init file) evs).file.drop a.start).take receiptBytes =
      a.receipt.asBytes := by
  obtain ⟨earlier, h, r, later, l, rfl, hl, rfl⟩ := mem_log.mp ha
  have hstep : (Shared.step (after Shared.step (.init file) earlier) (.append h r)).file =
      (after Shared.step (.init file) earlier).file ++ r.asBytes := by
    simp only [Shared.step, hl, Ledger.append]
  have hgrows := file_grows (Shared.step (after Shared.step (.init file) earlier) (.append h r))
    later
  rw [hstep] at hgrows
  obtain ⟨rest, hrest⟩ := hgrows
  have hfinal : (after Shared.step (.init file) (earlier ++ .append h r :: later)).file =
      (after Shared.step (.init file) earlier).file ++ (r.asBytes ++ rest) := by
    rw [after_append, ← List.append_assoc, hrest]
    rfl
  rw [hfinal, List.drop_left, List.take_left' r.size]

end Run

/-- Every append of a run returned the offset of its record in the final file, and the record
is read back there. -/
def OffsetsTrue (s : Shared) : Prop :=
  ∀ a ∈ s.log, a.offset = a.start ∧
    (s.file.drop a.offset).take receiptBytes = a.receipt.asBytes

/-- Offsets are true exactly in the runs where no handle appends after another one has
appended since it was opened. -/
theorem offsets_true_iff (file : List Byte) (evs : List Event) :
    OffsetsTrue (after Shared.step (.init file) evs) ↔
      ∀ earlier h r later, evs = earlier ++ .append h r :: later →
        Event.openAt h ∈ earlier → Quiet h earlier := by
  constructor
  · intro htrue earlier h r later hsplit hin
    obtain ⟨l, hl⟩ := Option.isSome_iff_exists.mp ((handle_isSome file h).mpr hin)
    have hlogged := htrue _ (mem_log.mpr ⟨earlier, h, r, later, l, hsplit, hl, rfl⟩)
    exact (handle_count hl).2.mp hlogged.1
  · intro hquiet a ha
    have hrecord := record_at ha
    obtain ⟨earlier, h, r, later, l, hsplit, hl, rfl⟩ := mem_log.mp ha
    have hin : Event.openAt h ∈ earlier := by
      rw [← handle_isSome file, hl]
      rfl
    have hsame := (handle_count hl).2.mpr (hquiet earlier h r later hsplit hin)
    refine ⟨hsame, ?_⟩
    dsimp only at hrecord ⊢
    rw [hsame]
    exact hrecord

/-- Two handles on a new ledger, both opened first: the second one's append says 0. -/
theorem second_handle_offset :
    ¬OffsetsTrue (after Shared.step (.init [])
      [.openAt 0, .openAt 1, .append 0 (mintedReceipt 0 1 7), .append 1 (mintedReceipt 1 2 7)]) := by
  intro htrue
  have hsecond := htrue ⟨0, 64, mintedReceipt 1 2 7⟩ (by
    simp [after, Shared.step, Shared.init, Ledger.append, openLedger, mintedReceipt])
  exact absurd hsecond.1 (by decide)

end ShannonPrime.Ledger
