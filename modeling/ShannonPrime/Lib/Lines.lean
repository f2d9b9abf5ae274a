import Mathlib.Logic.Basic

/-!
A text as lines. `lines` cuts at line feeds and takes a carriage return off a line that ends with
one and a line feed; `unlines` ends every line with a line feed. What is written with `unlines` is
read back by `lines` up to the carriage returns at the ends of lines.
-/

namespace ShannonPrime.Lines

/-- Put a character before the first line. -/
def consHead (c : Char) : List (List Char) → List (List Char)
  | [] => [[c]]
  | l :: ls => (c :: l) :: ls

def lines : List Char → List (List Char)
  | [] => []
  | '\n' :: s => [] :: lines s
  | '\r' :: '\n' :: s => [] :: lines s
  | c :: s => consHead c (lines s)

def unlines (ls : List (List Char)) : List Char := ls.flatMap (· ++ ['\n'])

/-- The line without the carriage return it ends with. -/
def stripCR : List Char → List Char
  | [] => []
  | ['\r'] => []
  | c :: l => c :: stripCR l

@[simp] theorem unlines_nil : unlines [] = [] := rfl

theorem unlines_cons (l : List Char) (ls : List (List Char)) :
    unlines (l :: ls) = l ++ '\n' :: unlines ls := by
  simp [unlines]

theorem unlines_append (ls ls' : List (List Char)) :
    unlines (ls ++ ls') = unlines ls ++ unlines ls' := List.flatMap_append

/-- A carriage return is taken off, or nothing is. -/
theorem stripCR_eq (l : List Char) :
    stripCR l = l ∧ l.getLast? ≠ some '\r' ∨ l = stripCR l ++ ['\r'] := by
  induction l using stripCR.induct with
  | case1 => exact .inl ⟨rfl, by simp⟩
  | case2 => exact .inr rfl
  | case3 c l hlast ih =>
      rw [stripCR.eq_3 c l hlast]
      rcases ih with ⟨hsame, hend⟩ | hcut
      · refine .inl ⟨by rw [hsame], ?_⟩
        cases l with
        | nil =>
            intro hc
            obtain rfl : c = '\r' := by simpa using hc
            exact hlast rfl rfl
        | cons d l => simpa [List.getLast?_cons_cons] using hend
      · exact .inr (by rw [List.cons_append, ← hcut])

theorem stripCR_eq_self_iff {l : List Char} : stripCR l = l ↔ l.getLast? ≠ some '\r' := by
  rcases stripCR_eq l with ⟨hsame, hend⟩ | hcut
  · exact ⟨fun _ => hend, fun _ => hsame⟩
  · constructor
    · intro hsame
      rw [hsame] at hcut
      simp at hcut
    · intro hend
      rw [hcut] at hend
      simp at hend

theorem mem_of_mem_stripCR {l : List Char} {c : Char} (hc : c ∈ stripCR l) : c ∈ l := by
  rcases stripCR_eq l with ⟨hsame, _⟩ | hcut
  · rwa [hsame] at hc
  · rw [hcut]
    exact List.mem_append_left _ hc

/-- A line that is ended by a line feed. -/
theorem lines_line {l : List Char} (hl : '\n' ∉ l) (s : List Char) :
    lines (l ++ '\n' :: s) = stripCR l :: lines s := by
  induction l using stripCR.induct with
  | case1 => rw [List.nil_append, lines, stripCR]
  | case2 => rw [List.singleton_append, lines, stripCR]
  | case3 c l hlast ih =>
      obtain ⟨hc, hrest⟩ := List.ne_and_not_mem_of_not_mem_cons hl
      rw [List.cons_append, lines, ih hrest, stripCR.eq_3 c l hlast, consHead]
      · exact fun h => hc h.symm
      · intro s' hr hs'
        cases l with
        | nil => exact hlast hr rfl
        | cons d l =>
            rw [List.cons_append, List.cons.injEq] at hs'
            exact hrest (hs'.1 ▸ List.mem_cons_self)

/-- A last line without a line feed. -/
theorem lines_last {l : List Char} (hl : '\n' ∉ l) (hne : l ≠ []) : lines l = [l] := by
  induction l with
  | nil => exact absurd rfl hne
  | cons c l ih =>
      obtain ⟨hc, hrest⟩ := List.ne_and_not_mem_of_not_mem_cons hl
      rw [lines]
      · rcases eq_or_ne l [] with rfl | hmore
        · rfl
        · rw [ih hrest hmore, consHead]
      · exact fun h => hc h.symm
      · rintro s - rfl
        exact hrest List.mem_cons_self

theorem lines_unlines {ls : List (List Char)} (h : ∀ l ∈ ls, '\n' ∉ l) (s : List Char) :
    lines (unlines ls ++ s) = ls.map stripCR ++ lines s := by
  induction ls with
  | nil => rfl
  | cons l ls ih =>
      rw [unlines_cons, List.append_assoc, List.cons_append, lines_line (h l List.mem_cons_self),
        ih fun l' hl' => h l' (List.mem_cons_of_mem _ hl')]
      rfl

/-- The lines and the end of a text. -/
theorem exists_unlines (s : List Char) :
    ∃ ls last, s = unlines ls ++ last ∧ (∀ l ∈ ls, '\n' ∉ l) ∧ '\n' ∉ last := by
  induction s with
  | nil => exact ⟨[], [], rfl, by simp, by simp⟩
  | cons c s ih =>
      obtain ⟨ls, last, rfl, hls, hlast⟩ := ih
      rcases eq_or_ne c '\n' with rfl | hc
      · exact ⟨[] :: ls, last, by simp [unlines_cons], by simpa using hls, hlast⟩
      · cases ls with
        | nil => exact ⟨[], c :: last, rfl, by simp, by simpa [hc.symm] using hlast⟩
        | cons l ls =>
            refine ⟨(c :: l) :: ls, last, by simp [unlines_cons], fun l' hl' => ?_, hlast⟩
            rcases List.mem_cons.mp hl' with rfl | hl'
            · have hold := hls l List.mem_cons_self
              simp [hc.symm, hold]
            · exact hls l' (List.mem_cons_of_mem _ hl')

/-- No line of a text has a line feed. -/
theorem not_mem_of_mem_lines {s l : List Char} (hl : l ∈ lines s) : '\n' ∉ l := by
  obtain ⟨ls, last, rfl, hls, hlast⟩ := exists_unlines s
  rw [lines_unlines hls, List.mem_append] at hl
  rcases hl with hl | hl
  · obtain ⟨l', hl', rfl⟩ := List.mem_map.mp hl
    exact fun hmem => hls l' hl' (mem_of_mem_stripCR hmem)
  · rcases eq_or_ne last [] with rfl | hne
    · simp [lines] at hl
    · rw [lines_last hlast hne, List.mem_singleton] at hl
      rwa [hl]

/-- The first line of a text is known. -/
theorem first_line_eq {a b a' b' : List Char} (ha : '\n' ∉ a) (ha' : '\n' ∉ a')
    (h : a ++ '\n' :: b = a' ++ '\n' :: b') : a = a' ∧ b = b' := by
  induction a generalizing a' with
  | nil =>
      cases a' with
      | nil => exact ⟨rfl, by simpa using h⟩
      | cons c a' =>
          have hc : '\n' = c := (List.cons.inj h).1
          exact absurd (hc ▸ List.mem_cons_self) ha'
  | cons c a ih =>
      cases a' with
      | nil =>
          have hc : c = '\n' := (List.cons.inj h).1
          exact absurd (hc ▸ List.mem_cons_self) ha
      | cons c' a' =>
          obtain ⟨hc, hrest⟩ := List.cons.inj h
          obtain ⟨hsame, hb⟩ := ih (fun hm => ha (List.mem_cons_of_mem _ hm))
            (fun hm => ha' (List.mem_cons_of_mem _ hm)) hrest
          exact ⟨by rw [hc, hsame], hb⟩

/-- Lines are known from the text they are written to. -/
theorem unlines_injective {ls ls' : List (List Char)} (h : ∀ l ∈ ls, '\n' ∉ l)
    (h' : ∀ l ∈ ls', '\n' ∉ l) (heq : unlines ls = unlines ls') : ls = ls' := by
  induction ls generalizing ls' with
  | nil =>
      cases ls' with
      | nil => rfl
      | cons l' ls' => simp [unlines_cons] at heq
  | cons l ls ih =>
      cases ls' with
      | nil => simp [unlines_cons] at heq
      | cons l' ls' =>
          rw [unlines_cons, unlines_cons] at heq
          obtain ⟨hl, hrest⟩ := first_line_eq (h l List.mem_cons_self) (h' l' List.mem_cons_self) heq
          rw [hl, ih (fun a ha => h a (List.mem_cons_of_mem _ ha))
            (fun a ha => h' a (List.mem_cons_of_mem _ ha)) hrest]

/-! ### The pieces between line feeds -/

theorem unlines_splitOn (s : List Char) : unlines (s.splitOn '\n') = s ++ ['\n'] := by
  have hpieces : ∀ ls : List (List Char), ls ≠ [] →
      unlines ls = ['\n'].intercalate ls ++ ['\n'] := by
    intro ls hne
    induction ls with
    | nil => exact absurd rfl hne
    | cons l ls ih =>
        rcases eq_or_ne ls [] with rfl | hmore
        · simp [unlines]
        · rw [unlines_cons, ih hmore, List.intercalate_cons_of_ne_nil hmore]
          simp
  rw [hpieces _ (List.splitOn_ne_nil _ _), List.intercalate_splitOn]

theorem splitOn_unlines {ls : List (List Char)} (h : ∀ l ∈ ls, '\n' ∉ l) (s : List Char) :
    (unlines ls ++ s).splitOn '\n' = ls ++ s.splitOn '\n' := by
  induction ls with
  | nil => rfl
  | cons l ls ih =>
      rw [unlines_cons, List.append_assoc, List.cons_append,
        List.splitOn_append_cons_self_of_not_mem (h l List.mem_cons_self),
        ih fun l' hl' => h l' (List.mem_cons_of_mem _ hl')]
      rfl

theorem not_mem_of_mem_splitOn {s l : List Char} (hl : l ∈ s.splitOn '\n') : '\n' ∉ l := by
  obtain ⟨ls, last, rfl, hls, hlast⟩ := exists_unlines s
  rw [splitOn_unlines hls, List.splitOn_eq_singleton hlast, List.mem_append,
    List.mem_singleton] at hl
  rcases hl with hl | rfl
  · exact hls l hl
  · exact hlast

/-! ### Carriage returns -/

/-- The text without the carriage returns that stand before line feeds. -/
def dropCR : List Char → List Char
  | [] => []
  | '\r' :: '\n' :: s => '\n' :: dropCR s
  | c :: s => c :: dropCR s

/-- A text is empty, begins with the two characters of a line end, or begins with another. -/
theorem crlf_induction {motive : List Char → Prop} (nil : motive [])
    (crlf : ∀ s, motive s → motive ('\r' :: '\n' :: s))
    (cons : ∀ c s, (∀ s', c = '\r' → s = '\n' :: s' → False) → motive s → motive (c :: s))
    (s : List Char) : motive s :=
  dropCR.induct motive nil crlf cons s

theorem dropCR_nil : dropCR [] = [] := rfl

theorem dropCR_crlf (s : List Char) : dropCR ('\r' :: '\n' :: s) = '\n' :: dropCR s := rfl

theorem dropCR_cons {c : Char} {s : List Char} (h : ∀ s', c = '\r' → s = '\n' :: s' → False) :
    dropCR (c :: s) = c :: dropCR s :=
  dropCR.eq_3 c s h

theorem dropCR_line {l : List Char} (hl : '\n' ∉ l) (s : List Char) :
    dropCR (l ++ '\n' :: s) = stripCR l ++ '\n' :: dropCR s := by
  induction l using stripCR.induct with
  | case1 => rw [List.nil_append, stripCR, List.nil_append, dropCR_cons (by simp)]
  | case2 => rw [List.singleton_append, dropCR_crlf, stripCR, List.nil_append]
  | case3 c l hlast ih =>
      obtain ⟨_, hrest⟩ := List.ne_and_not_mem_of_not_mem_cons hl
      rw [List.cons_append, dropCR_cons, ih hrest, stripCR.eq_3 c l hlast, List.cons_append]
      intro s' hr hs'
      cases l with
      | nil => exact hlast hr rfl
      | cons d l =>
          rw [List.cons_append, List.cons.injEq] at hs'
          exact hrest (hs'.1 ▸ List.mem_cons_self)

theorem dropCR_unlines {ls : List (List Char)} (h : ∀ l ∈ ls, '\n' ∉ l) :
    dropCR (unlines ls) = unlines (ls.map stripCR) := by
  induction ls with
  | nil => rfl
  | cons l ls ih =>
      rw [unlines_cons, dropCR_line (h l List.mem_cons_self),
        ih fun l' hl' => h l' (List.mem_cons_of_mem _ hl'), List.map_cons, unlines_cons]

theorem dropCR_sublist (s : List Char) : (dropCR s).Sublist s := by
  induction s using crlf_induction with
  | nil => exact List.Sublist.refl []
  | crlf s ih =>
      rw [dropCR_crlf]
      exact (ih.cons_cons '\n').cons '\r'
  | cons c s hcrlf ih =>
      rw [dropCR_cons hcrlf]
      exact ih.cons_cons c

theorem dropCR_eq_self_iff {s : List Char} : dropCR s = s ↔ ¬['\r', '\n'] <:+: s := by
  induction s using crlf_induction with
  | nil => simp [dropCR_nil]
  | crlf s ih =>
      refine ⟨fun h => ?_, fun h => absurd ⟨[], s, rfl⟩ h⟩
      have hlength := congrArg List.length h
      have hle := (dropCR_sublist s).length_le
      rw [dropCR_crlf, List.length_cons, List.length_cons, List.length_cons] at hlength
      omega
  | cons c s hcrlf ih =>
      rw [dropCR_cons hcrlf, List.cons.injEq, List.infix_cons_iff, not_or]
      constructor
      · rintro ⟨_, hrest⟩
        refine ⟨fun hprefix => ?_, ih.mp hrest⟩
        obtain ⟨t, ht⟩ := hprefix
        exact hcrlf t (List.cons.inj ht).1.symm (List.cons.inj ht).2.symm
      · rintro ⟨_, hrest⟩
        exact ⟨rfl, ih.mpr hrest⟩

theorem dropCR_concat {c : Char} (hc : c ≠ '\n') (s : List Char) :
    dropCR (s ++ [c]) = dropCR s ++ [c] := by
  induction s using crlf_induction with
  | nil => rw [List.nil_append, dropCR_cons (by simp), dropCR_nil, List.nil_append]
  | crlf s ih => rw [List.cons_append, List.cons_append, dropCR_crlf, ih, dropCR_crlf, List.cons_append]
  | cons d s hcrlf ih =>
      rw [List.cons_append, dropCR_cons, ih, dropCR_cons hcrlf, List.cons_append]
      rintro s' hd hs'
      cases s with
      | nil => exact hc (List.cons.inj hs').1
      | cons e s => exact hcrlf s hd (by rw [(List.cons.inj hs').1])

theorem dropCR_concat_newline (s : List Char) :
    dropCR (s ++ ['\n']) = stripCR (dropCR s) ++ ['\n'] := by
  induction s using crlf_induction with
  | nil => rfl
  | crlf s ih =>
      rw [List.cons_append, List.cons_append, dropCR_crlf, ih, dropCR_crlf,
        stripCR.eq_3 _ _ (by simp), List.cons_append]
  | cons d s hcrlf ih =>
      rw [List.cons_append, dropCR_cons hcrlf]
      cases s with
      | nil =>
          rcases eq_or_ne d '\r' with rfl | hd
          · rfl
          · rw [List.nil_append, dropCR_cons fun s' hr _ => hd hr, dropCR_nil,
              stripCR.eq_3 _ _ fun hr _ => hd hr]
            rfl
      | cons e s =>
          have hmore : dropCR (e :: s) ≠ [] := by
            unfold dropCR
            split <;> simp_all
          rw [dropCR_cons fun s' hd hs' => hcrlf s hd (by rw [(List.cons.inj hs').1]), ih,
            stripCR.eq_3 _ _ fun _ hnil => hmore hnil, List.cons_append]

end ShannonPrime.Lines
