import ShannonPrime.Swarm.Store

/-!
An object that is published and then read on another node. Its body is normalized when it is
stored, when it is read and when its address is computed again, and each time the carriage
return is taken from in front of a newline: the address comes back unless a second one stood
there.
-/

namespace ShannonPrime.Swarm

open Utf8
open Recall (trim isWhitespace)

/-- Lines, each with its newline. -/
def unlines (lines : List (List Char)) : List Char := lines.flatMap fun l => l ++ ['\n']

/-- A text with these lines between the fences. -/
def withFrontmatter (first : List Char) (lines : List (List Char)) (tail : List Char) :
    List Char :=
  fence ++ '\n' :: (unlines (first :: lines) ++ (fence ++ '\n' :: tail))

/-- A stored object: the frontmatter, empty lines, and the normalized body. -/
def storedObject (first : List Char) (lines : List (List Char)) (gap : Nat) (body : List Char) :
    List Char :=
  withFrontmatter first lines (List.replicate gap '\n' ++ norm body)

/-- What lies between the fences are lines, and none ends the frontmatter. -/
structure Fenced (first : List Char) (lines : List (List Char)) : Prop where
  first_line : '\n' ∉ first
  line : ∀ l ∈ lines, '\n' ∉ l
  inside : ∀ l ∈ lines, fence.isPrefixOf l = false

/-- The text stands between characters that are not white space. -/
def Inner (w s : List Char) : Prop :=
  ∃ p q, s = p ++ (w ++ q) ∧ (∃ c ∈ p, isWhitespace c = false) ∧ ∃ c ∈ q, isWhitespace c = false

/-! ## Line ends -/

theorem crlfToLf_cons {c : Char} {s : List Char} (h : c = '\r' → s.head? ≠ some '\n') :
    crlfToLf (c :: s) = c :: crlfToLf s := by
  rw [crlfToLf]
  rintro rest rfl rfl
  exact h rfl rfl

theorem no_newline {c : Char} {rest : List Char}
    (h : ∀ rest', c = '\r' → rest = '\n' :: rest' → False) : c = '\r' → rest.head? ≠ some '\n' := by
  intro hc hhead
  obtain ⟨rest', hrest⟩ := List.head?_eq_some_iff.mp hhead
  exact h rest' hc hrest

theorem crlfToLf_append {a b : List Char}
    (h : a.getLast? = some '\r' → b.head? ≠ some '\n') :
    crlfToLf (a ++ b) = crlfToLf a ++ crlfToLf b := by
  induction a using crlfToLf.induct with
  | case1 rest ih =>
      have hrest : rest.getLast? = some '\r' → b.head? ≠ some '\n' := by
        intro hlast
        apply h
        rw [List.getLast?_cons, List.getLast?_cons, hlast]
        rfl
      rw [List.cons_append, List.cons_append, crlfToLf, ih hrest, crlfToLf]
      rfl
  | case2 c rest hno ih =>
      have hself := no_newline hno
      cases rest with
      | nil =>
          have hhead : c = '\r' → ([] ++ b).head? ≠ some '\n' := by
            rintro rfl
            exact h rfl
          rw [List.cons_append, crlfToLf_cons hhead, crlfToLf_cons hself]
          rfl
      | cons c' rest' =>
          have hrest : (c' :: rest').getLast? = some '\r' → b.head? ≠ some '\n' := by
            intro hlast
            apply h
            rw [List.getLast?_cons, hlast]
            rfl
          have hhead : c = '\r' → (c' :: rest' ++ b).head? ≠ some '\n' := hself
          rw [List.cons_append, crlfToLf_cons hhead, ih hrest, crlfToLf_cons hself]
          rfl
  | case3 => rfl

theorem crlfToLf_of_not_mem {l : List Char} (h : '\n' ∉ l) : crlfToLf l = l := by
  induction l with
  | nil => rfl
  | cons c l ih =>
      rw [crlfToLf_cons, ih fun hl => h (List.mem_cons_of_mem _ hl)]
      rintro - hhead
      exact h (List.mem_cons_of_mem _ (List.mem_of_mem_head? hhead))

/-- The carriage return at the end of a line is taken. -/
theorem stripCr_starts (l : List Char) : stripCr l <+: l := by
  rw [stripCr]
  split
  · exact List.dropLast_prefix l
  · exact List.prefix_refl l

theorem crlfToLf_line {l s : List Char} (h : '\n' ∉ l) :
    crlfToLf (l ++ '\n' :: s) = stripCr l ++ '\n' :: crlfToLf s := by
  have hnewline : crlfToLf ('\n' :: s) = '\n' :: crlfToLf s :=
    crlfToLf_cons fun hno => absurd hno (by decide)
  rw [stripCr]
  split
  · rename_i hlast
    obtain ⟨l', rfl⟩ := List.getLast?_eq_some_iff.mp hlast
    have hl' : '\n' ∉ l' := fun hmem => h (List.mem_append_left _ hmem)
    rw [List.dropLast_concat, List.append_assoc, List.singleton_append,
      crlfToLf_append (b := '\r' :: '\n' :: s) (fun _ hno => (nomatch hno)), crlfToLf_of_not_mem hl',
      crlfToLf]
  · rename_i hlast
    rw [crlfToLf_append fun hcr => absurd hcr hlast, crlfToLf_of_not_mem h, hnewline]

/-! ## The frontmatter is found -/

theorem unlines_cons_append (l : List Char) (lines : List (List Char)) (s : List Char) :
    unlines (l :: lines) ++ s = l ++ '\n' :: (unlines lines ++ s) := by
  rw [unlines, List.flatMap_cons, List.append_assoc, List.append_assoc]
  rfl

theorem crlfToLf_unlines {lines : List (List Char)} (h : ∀ l ∈ lines, '\n' ∉ l) (s : List Char) :
    crlfToLf (unlines lines ++ s) = unlines (lines.map stripCr) ++ crlfToLf s := by
  induction lines with
  | nil => rfl
  | cons l lines ih =>
      rw [unlines_cons_append, crlfToLf_line (h l List.mem_cons_self),
        ih fun l' hl' => h l' (List.mem_cons_of_mem _ hl'), List.map_cons, unlines_cons_append]

theorem Fenced.stripCr {first : List Char} {lines : List (List Char)} (h : Fenced first lines) :
    Fenced (stripCr first) (lines.map stripCr) := by
  constructor
  case first_line => exact fun hmem => h.first_line ((stripCr_starts first).subset hmem)
  case line =>
    intro l hl hmem
    obtain ⟨l', hl', rfl⟩ := List.mem_map.mp hl
    exact h.line l' hl' ((stripCr_starts l').subset hmem)
  case inside =>
    intro l hl
    obtain ⟨l', hl', rfl⟩ := List.mem_map.mp hl
    rw [Bool.eq_false_iff]
    intro hfence
    have hprefix := (List.isPrefixOf_iff_prefix.mp hfence).trans (stripCr_starts l')
    exact Bool.eq_false_iff.mp (h.inside l' hl') (List.isPrefixOf_iff_prefix.mpr hprefix)

theorem crlfToLf_withFrontmatter {first : List Char} {lines : List (List Char)}
    (h : Fenced first lines) (tail : List Char) :
    crlfToLf (withFrontmatter first lines tail) =
      withFrontmatter (stripCr first) (lines.map stripCr) (crlfToLf tail) := by
  have hfence : ∀ s, crlfToLf (fence ++ '\n' :: s) = fence ++ '\n' :: crlfToLf s := fun s =>
    crlfToLf_line (by decide)
  have hall : ∀ l ∈ first :: lines, '\n' ∉ l :=
    List.forall_mem_cons.mpr ⟨h.first_line, h.line⟩
  rw [withFrontmatter, hfence, crlfToLf_unlines hall, hfence, List.map_cons]
  rfl

theorem findStr_cons (pat : List Char) (c : Char) (s : List Char) :
    findStr pat (c :: s) =
      if pat.isPrefixOf (c :: s) then some 0 else (findStr pat s).map (· + 1) := by
  have htails : (c :: s).tails = (c :: s) :: s.tails := rfl
  rw [findStr, htails, List.findIdx?_cons]
  rfl

/-- The text behind the first end of a frontmatter. -/
def Ends (s tail : List Char) : Prop :=
  ∃ stop, findStr ('\n' :: fence) s = some stop ∧ s.drop (stop + 4) = tail

theorem ends_here (tail : List Char) : Ends ('\n' :: (fence ++ tail)) tail := by
  refine ⟨0, ?_, rfl⟩
  rw [findStr_cons, if_pos]
  exact List.isPrefixOf_iff_prefix.mpr ⟨tail, rfl⟩

theorem Ends.cons {s tail : List Char} (h : Ends s tail) {c : Char}
    (hno : ('\n' :: fence).isPrefixOf (c :: s) = false) : Ends (c :: s) tail := by
  obtain ⟨stop, hfind, hdrop⟩ := h
  refine ⟨stop + 1, ?_, hdrop⟩
  rw [findStr_cons, hno, hfind]
  rfl

theorem Ends.append {s tail : List Char} (h : Ends s tail) {l : List Char} (hl : '\n' ∉ l) :
    Ends (l ++ s) tail := by
  induction l with
  | nil => exact h
  | cons c l ih =>
      apply (ih fun hmem => hl (List.mem_cons_of_mem _ hmem)).cons
      have hc : ('\n' == c) = false := by
        rw [beq_eq_false_iff_ne]
        rintro rfl
        exact hl List.mem_cons_self
      rw [List.isPrefixOf_cons_cons, hc, Bool.false_and]

/-- A line that does not begin with the fence does not end the frontmatter. -/
theorem fence_line {l s : List Char} (h : fence.isPrefixOf l = false) :
    fence.isPrefixOf (l ++ '\n' :: s) = false := by
  rw [Bool.eq_false_iff] at h ⊢
  intro hfence
  have hprefix := List.isPrefixOf_iff_prefix.mp hfence
  rcases Nat.lt_or_ge l.length 3 with hshort | hlong
  · have hline : l ++ ['\n'] <+: l ++ '\n' :: s := by
      rw [List.prefix_append_right_inj]
      exact ⟨s, rfl⟩
    have hin : l ++ ['\n'] <+: fence := by
      apply List.prefix_of_prefix_length_le hline hprefix
      rw [List.length_append, List.length_singleton]
      exact hshort
    exact absurd (hin.subset (List.mem_append_right _ (List.mem_singleton_self _))) (by decide)
  · exact h (List.isPrefixOf_iff_prefix.mpr
      (List.prefix_of_prefix_length_le hprefix (List.prefix_append _ _) hlong))

theorem ends_unlines {first : List Char} {lines : List (List Char)} (h : Fenced first lines)
    (tail : List Char) : Ends (unlines (first :: lines) ++ (fence ++ tail)) tail := by
  induction lines generalizing first with
  | nil =>
      rw [unlines_cons_append]
      exact (ends_here tail).append h.first_line
  | cons l lines ih =>
      have hl := h.line l List.mem_cons_self
      have hrest : Fenced l lines :=
        ⟨hl, fun l' hl' => h.line l' (List.mem_cons_of_mem _ hl'),
          fun l' hl' => h.inside l' (List.mem_cons_of_mem _ hl')⟩
      rw [unlines_cons_append]
      apply Ends.append _ h.first_line
      apply (ih hrest).cons
      rw [List.isPrefixOf_cons_cons, unlines_cons_append, fence_line (h.inside l List.mem_cons_self),
        Bool.and_false]

/-- The body that is read is the stored one, with its line ends taken once more. -/
theorem parseFm_storedObject {first : List Char} {lines : List (List Char)} (h : Fenced first lines)
    (gap : Nat) (body : List Char) :
    (parseFm (storedObject first lines gap body)).2 =
      List.replicate gap '\n' ++ crlfToLf (norm body) := by
  have hgap : crlfToLf (List.replicate gap '\n' ++ norm body) =
      List.replicate gap '\n' ++ crlfToLf (norm body) := by
    induction gap with
    | zero => rfl
    | succ gap ih =>
        rw [List.replicate_succ, List.cons_append, crlfToLf_cons (fun hno => absurd hno (by decide)),
          ih]
        rfl
  obtain ⟨stop, hfind, hdrop⟩ := ends_unlines h.stripCr
    ('\n' :: (List.replicate gap '\n' ++ crlfToLf (norm body)))
  have hstrip : stripPrefix (fence ++ ['\n']) (crlfToLf (storedObject first lines gap body)) =
      some (unlines (stripCr first :: lines.map stripCr) ++
        (fence ++ '\n' :: (List.replicate gap '\n' ++ crlfToLf (norm body)))) := by
    rw [storedObject, crlfToLf_withFrontmatter h, hgap, stripPrefix, if_pos]
    · rfl
    · exact List.isPrefixOf_iff_prefix.mpr ⟨_, rfl⟩
  rw [parseFm, hstrip]
  dsimp only
  rw [hfind]
  dsimp only
  rw [hdrop]
  rfl

/-! ## When normalizing twice changes the body -/

/-- A carriage return in front of a newline. -/
def HasCrlf (s : List Char) : Prop := ∃ p q, s = p ++ '\r' :: '\n' :: q

theorem crlfToLf_of_not_hasCrlf {s : List Char} (h : ¬ HasCrlf s) : crlfToLf s = s := by
  induction s with
  | nil => rfl
  | cons c s ih =>
      rw [crlfToLf_cons, ih]
      · rintro ⟨p, q, rfl⟩
        exact h ⟨c :: p, q, rfl⟩
      · rintro rfl hhead
        obtain ⟨s', rfl⟩ := List.head?_eq_some_iff.mp hhead
        exact h ⟨[], s', rfl⟩

/-- Each line end that is taken takes a carriage return. -/
theorem count_crlfToLf (s : List Char) :
    (crlfToLf s).count '\r' ≤ s.count '\r' ∧
      (HasCrlf s → (crlfToLf s).count '\r' < s.count '\r') := by
  induction s using crlfToLf.induct with
  | case1 rest ih =>
      have hleft : (crlfToLf ('\r' :: '\n' :: rest)).count '\r' = (crlfToLf rest).count '\r' := by
        rw [crlfToLf]
        exact List.count_cons_of_ne (by decide)
      have hright : ('\r' :: '\n' :: rest).count '\r' = rest.count '\r' + 1 := by
        rw [List.count_cons_self, List.count_cons_of_ne (by decide)]
      rw [hleft, hright]
      exact ⟨Nat.le_succ_of_le ih.1, fun _ => Nat.lt_succ_of_le ih.1⟩
  | case2 c rest hno ih =>
      have hself := no_newline hno
      rw [crlfToLf_cons hself, List.count_cons, List.count_cons]
      refine ⟨Nat.add_le_add_right ih.1 _, ?_⟩
      rintro ⟨p, q, hsplit⟩
      apply Nat.add_lt_add_right
      apply ih.2
      cases p with
      | nil =>
          cases hsplit
          exact absurd rfl (hself rfl)
      | cons c' p =>
          cases hsplit
          exact ⟨p, q, rfl⟩
  | case3 =>
      refine ⟨Nat.le_refl _, ?_⟩
      rintro ⟨p, q, hnil⟩
      exact absurd hnil.symm (List.append_ne_nil_of_right_ne_nil p (List.cons_ne_nil _ _))

theorem count_trim_le (s : List Char) : (trim s).count '\r' ≤ s.count '\r' :=
  (((List.rdropWhile_prefix _ _).sublist.trans (List.dropWhile_suffix _).sublist).count_le _)

theorem trim_head {s : List Char} {c : Char} (h : (trim s).head? = some c) :
    isWhitespace c = false := by
  have hprefix : trim s <+: s.dropWhile isWhitespace := List.rdropWhile_prefix _ _
  obtain ⟨rest, hrest⟩ := List.head?_eq_some_iff.mp h
  obtain ⟨back, hback⟩ := hprefix
  have hnot := List.head?_dropWhile_not isWhitespace s
  rw [← hback, hrest, List.cons_append, List.head?_cons] at hnot
  simpa using hnot

theorem trim_last {s : List Char} {c : Char} (h : (trim s).getLast? = some c) :
    isWhitespace c = false := by
  obtain ⟨front, hfront⟩ := List.getLast?_eq_some_iff.mp h
  have hne : trim s ≠ [] := by
    rw [hfront]
    exact List.append_ne_nil_of_right_ne_nil front (List.cons_ne_nil _ _)
  have hnot := List.rdropWhile_last_not isWhitespace (s.dropWhile isWhitespace) hne
  have hlast : (trim s).getLast hne = c := by
    rw [List.getLast?_eq_some_getLast hne] at h
    exact Option.some.inj h
  rw [← hlast]
  exact Bool.eq_false_iff.mpr hnot

section

variable {w : List Char}

theorem inner_white_cons {c : Char} (hc : isWhitespace c = true) (s : List Char) :
    Inner w (c :: s) = Inner w s := by
  apply propext
  constructor
  · rintro ⟨p, q, hs, ⟨a, ha, hawhite⟩, hq⟩
    cases p with
    | nil => cases ha
    | cons c' p =>
        obtain ⟨rfl, rfl⟩ := List.cons.inj hs
        refine ⟨p, q, rfl, ⟨a, (List.mem_cons.mp ha).resolve_left ?_, hawhite⟩, hq⟩
        rintro rfl
        exact Bool.noConfusion (hc.symm.trans hawhite)
  · rintro ⟨p, q, rfl, ⟨a, ha, hawhite⟩, hq⟩
    exact ⟨c :: p, q, rfl, ⟨a, List.mem_cons_of_mem _ ha, hawhite⟩, hq⟩

theorem inner_white_concat {c : Char} (hc : isWhitespace c = true) (s : List Char) :
    Inner w (s ++ [c]) = Inner w s := by
  apply propext
  constructor
  · rintro ⟨p, q, hs, hp, ⟨a, ha, hawhite⟩⟩
    rcases List.eq_nil_or_concat q with rfl | ⟨q', c', rfl⟩
    · cases ha
    · rw [List.concat_eq_append, ← List.append_assoc, ← List.append_assoc] at hs
      obtain ⟨rfl, hlast⟩ := List.append_inj' hs rfl
      cases hlast
      rw [List.append_assoc]
      refine ⟨p, q', rfl, hp, a, ?_, hawhite⟩
      rw [List.concat_eq_append] at ha
      refine (List.mem_append.mp ha).resolve_right fun hmem => ?_
      rw [List.mem_singleton.mp hmem] at hawhite
      exact Bool.noConfusion (hc.symm.trans hawhite)
  · rintro ⟨p, q, rfl, hp, a, ha, hawhite⟩
    refine ⟨p, q ++ [c], ?_, hp, a, List.mem_append_left _ ha, hawhite⟩
    simp only [List.append_assoc]

end

theorem inner_norm (body : List Char) :
    Inner ['\r', '\n'] (norm body) ↔ Inner ['\r', '\n'] (crlfToLf body) := by
  have htrim := Recall.trim_invariant (Inner ['\r', '\n'])
    (fun c s hc => inner_white_cons hc s) (fun c s hc => inner_white_concat hc s) (crlfToLf body)
  rw [norm, inner_white_concat (by decide), htrim]

/-- A normalized body begins and ends with what is not white space, but for its newline. -/
theorem hasCrlf_norm (body : List Char) : HasCrlf (norm body) ↔ Inner ['\r', '\n'] (norm body) := by
  constructor
  · rintro ⟨p, q, hsplit⟩
    have hhead : ∀ c, (trim (crlfToLf body)).head? = some c → isWhitespace c = false :=
      fun c => trim_head
    have hlast : ∀ c, (trim (crlfToLf body)).getLast? = some c → isWhitespace c = false :=
      fun c => trim_last
    rw [norm] at hsplit ⊢
    generalize trim (crlfToLf body) = t at hsplit hhead hlast ⊢
    rw [inner_white_concat (by decide)]
    rcases List.eq_nil_or_concat q with rfl | ⟨q', c', rfl⟩
    · have hends : t ++ ['\n'] = (p ++ ['\r']) ++ ['\n'] := by
        rw [hsplit, List.append_assoc]
        rfl
      obtain ⟨rfl, -⟩ := List.append_inj' hends rfl
      exact absurd (hlast '\r' List.getLast?_concat) (by decide)
    · have hends : t ++ ['\n'] = (p ++ '\r' :: '\n' :: q') ++ [c'] := by
        rw [hsplit, List.concat_eq_append, List.append_assoc]
        rfl
      obtain ⟨rfl, -⟩ := List.append_inj' hends rfl
      refine ⟨p, q', rfl, ?_, ?_⟩
      · cases p with
        | nil => exact absurd (hhead '\r' rfl) (by decide)
        | cons c p => exact ⟨c, List.mem_cons_self, hhead c rfl⟩
      · rcases List.eq_nil_or_concat q' with rfl | ⟨q'', c, rfl⟩
        · have hnl : (p ++ ['\r', '\n']).getLast? = some '\n' := by
            rw [List.getLast?_append]
            rfl
          exact absurd (hlast '\n' hnl) (by decide)
        · rw [List.concat_eq_append] at hlast ⊢
          refine ⟨c, List.mem_append_right _ (List.mem_singleton_self c), hlast c ?_⟩
          rw [← List.cons_append, ← List.cons_append, ← List.append_assoc, List.getLast?_concat]
  · rintro ⟨p, q, hsplit, -, -⟩
    exact ⟨p, q, hsplit⟩

/-- A line end is left where two carriage returns stood in front of the newline. -/
theorem crlfToLf_split {s p q : List Char} : crlfToLf s = p ++ '\r' :: '\n' :: q ↔
    ∃ p' q', s = p' ++ '\r' :: '\r' :: '\n' :: q' ∧ crlfToLf p' = p ∧ crlfToLf q' = q := by
  constructor
  · intro h
    induction s using crlfToLf.induct generalizing p with
    | case1 rest ih =>
        rw [crlfToLf] at h
        cases p with
        | nil => cases h
        | cons c p =>
            obtain ⟨rfl, hrest⟩ := List.cons.inj h
            obtain ⟨p', q', rfl, rfl, hq⟩ := ih hrest
            exact ⟨'\r' :: '\n' :: p', q', rfl, by rw [crlfToLf], hq⟩
    | case2 c rest hno ih =>
        have hself := no_newline hno
        rw [crlfToLf_cons hself] at h
        cases p with
        | nil =>
            obtain ⟨rfl, hrest⟩ := List.cons.inj h
            rw [crlfToLf.eq_def] at hrest
            split at hrest
            · rename_i rest'
              obtain ⟨-, hq⟩ := List.cons.inj hrest
              exact ⟨[], rest', rfl, rfl, hq⟩
            · rename_i c' rest' hno'
              obtain ⟨rfl, -⟩ := List.cons.inj hrest
              exact absurd rfl (hself rfl)
            · cases hrest
        | cons c' p =>
            obtain ⟨rfl, hrest⟩ := List.cons.inj h
            obtain ⟨p', q', rfl, rfl, hq⟩ := ih hrest
            refine ⟨c :: p', q', rfl, crlfToLf_cons fun hc hhead => hself hc ?_, hq⟩
            rw [List.head?_append, hhead]
            rfl
    | case3 => exact absurd h.symm (List.append_ne_nil_of_right_ne_nil p (List.cons_ne_nil _ _))
  · rintro ⟨p', q', rfl, rfl, rfl⟩
    have hhead : ∀ s : List Char, ('\r' :: s).head? ≠ some '\n' := by
      intro s
      rw [List.head?_cons]
      decide
    have htail : crlfToLf ('\r' :: '\r' :: '\n' :: q') = '\r' :: '\n' :: crlfToLf q' := by
      rw [crlfToLf_cons fun _ => hhead _, crlfToLf]
    rw [crlfToLf_append fun _ => hhead _, htail]

/-- Only carriage returns are taken. -/
theorem mem_crlfToLf {s : List Char} {c : Char} (hc : isWhitespace c = false) :
    c ∈ crlfToLf s ↔ c ∈ s := by
  have hr : c ≠ '\r' := by
    rintro rfl
    exact absurd hc (by decide)
  induction s using crlfToLf.induct with
  | case1 rest ih =>
      rw [crlfToLf, List.mem_cons, List.mem_cons, List.mem_cons, or_iff_right hr]
      exact or_congr_right ih
  | case2 c' rest hno ih =>
      have hself := no_newline hno
      rw [crlfToLf_cons hself, List.mem_cons, List.mem_cons]
      exact or_congr_right ih
  | case3 => exact Iff.rfl

theorem inner_crlfToLf (body : List Char) :
    Inner ['\r', '\n'] (crlfToLf body) ↔ Inner ['\r', '\r', '\n'] body := by
  constructor
  · rintro ⟨p, q, hsplit, ⟨a, ha, hawhite⟩, b, hb, hbwhite⟩
    obtain ⟨p', q', rfl, rfl, rfl⟩ := crlfToLf_split.mp hsplit
    exact ⟨p', q', rfl, ⟨a, (mem_crlfToLf hawhite).mp ha, hawhite⟩,
      b, (mem_crlfToLf hbwhite).mp hb, hbwhite⟩
  · rintro ⟨p', q', hsplit, ⟨a, ha, hawhite⟩, b, hb, hbwhite⟩
    exact ⟨crlfToLf p', crlfToLf q', crlfToLf_split.mpr ⟨p', q', hsplit, rfl, rfl⟩,
      ⟨a, (mem_crlfToLf hawhite).mpr ha, hawhite⟩, b, (mem_crlfToLf hbwhite).mpr hb, hbwhite⟩

/-- Normalizing a normalized body again. -/
theorem norm_norm_iff (body : List Char) :
    norm (crlfToLf (norm body)) = norm body ↔ ¬ Inner ['\r', '\r', '\n'] body := by
  rw [← inner_crlfToLf, ← inner_norm, ← hasCrlf_norm]
  constructor
  · intro hsame hcrlf
    have hless := (count_crlfToLf (norm body)).2 hcrlf
    have hagain := (count_crlfToLf (crlfToLf (norm body))).1
    have htrim := count_trim_le (crlfToLf (crlfToLf (norm body)))
    have hcount : (norm (crlfToLf (norm body))).count '\r' =
        (trim (crlfToLf (crlfToLf (norm body)))).count '\r' := by
      rw [norm, List.count_append, List.count_singleton, if_neg (by decide), Nat.add_zero]
    rw [hsame] at hcount
    omega
  · intro hno
    have hfixed := crlfToLf_of_not_hasCrlf hno
    have htrim : trim (norm body) = trim (crlfToLf body) := by
      rw [norm, Recall.trim_white_concat (by decide)]
      exact Recall.trim_invariant trim (fun c s hc => Recall.trim_white_cons hc s)
        (fun c s hc => Recall.trim_white_concat hc s) _
    rw [hfixed, norm, hfixed, htrim, norm]

/-! ## Published and read -/

theorem norm_replicate (gap : Nat) (s : List Char) :
    norm (List.replicate gap '\n' ++ s) = norm s := by
  induction gap with
  | zero => rfl
  | succ gap ih =>
      have hhead : '\n' = '\r' → (List.replicate gap '\n' ++ s).head? ≠ some '\n' := fun hno =>
        absurd hno (by decide)
      rw [← ih, norm, List.replicate_succ, List.cons_append, crlfToLf_cons hhead,
        Recall.trim_white_cons (by decide), norm]

/-- The hash has no collision at two bodies. -/
def Distinguishes (sha256 : List UInt8 → List UInt8) (a b : List Char) : Prop :=
  addrOf sha256 a = addrOf sha256 b → norm a = norm b

/-- An object is taken for its content under the address of its body just when no two carriage
returns stand in front of a newline within the body. -/
theorem publish_content_iff (sha256 : List UInt8 → List UInt8) (first : List Char)
    (lines : List (List Char)) (gap : Nat) (body : List Char) (hfenced : Fenced first lines)
    (hhash : Distinguishes sha256 body (parseFm (storedObject first lines gap body)).2) :
    classify sha256 (addrOf sha256 body) (parseFm (storedObject first lines gap body)).1
        (parseFm (storedObject first lines gap body)).2 = .content ↔
      ¬ Inner ['\r', '\r', '\n'] body := by
  have hread : norm (parseFm (storedObject first lines gap body)).2 =
      norm (crlfToLf (norm body)) := by
    rw [parseFm_storedObject hfenced, norm_replicate]
  rw [← norm_norm_iff, ← hread, classify]
  split
  · rename_i haddr
    exact iff_of_true rfl (hhash haddr.symm).symm
  · rename_i haddr
    have hnorm : norm (parseFm (storedObject first lines gap body)).2 ≠ norm body := by
      intro hsame
      apply haddr
      rw [addrOf, addrOf, hsame]
    refine iff_of_false ?_ hnorm
    split <;> exact fun h => (nomatch h)

/-- The digests of `a\r\nb\n` and of `a\nb\n`. -/
def sampleSha256 (bytes : List UInt8) : List UInt8 :=
  if bytes = [0x61, 0x0D, 0x0A, 0x62, 0x0A] then
    [0x95, 0x3B, 0xBA, 0x9A, 0xC9, 0x72, 0x6E, 0xAE, 0xA0, 0x7E, 0x84,
      0x4A, 0xBC, 0xF1, 0x44, 0xA0, 0xAF, 0xE9, 0x98, 0x03, 0x92, 0x57,
      0xC7, 0xA8, 0x8B, 0x66, 0x65, 0x81, 0x95, 0x97, 0xF3, 0x9D]
  else
    [0x91, 0x11, 0x69, 0xDD, 0xAA, 0xF1, 0x46, 0xAF, 0xF5, 0x39, 0xF5,
      0x8C, 0x26, 0xC4, 0x89, 0xAF, 0x3B, 0x89, 0x2D, 0xFF, 0x0F, 0xE2,
      0x83, 0xC1, 0xC2, 0x64, 0xC6, 0x5A, 0xE5, 0xAA, 0x59, 0xA2]

theorem publish_content_iff_sample :
    classify sampleSha256 (addrOf sampleSha256 ['\r', 'a', '\r', '\n', 'b'])
      (parseFm (storedObject ['x', ':'] [] 1 ['\r', 'a', '\r', '\n', 'b'])).1
      (parseFm (storedObject ['x', ':'] [] 1 ['\r', 'a', '\r', '\n', 'b'])).2 = .content := by
  apply (publish_content_iff sampleSha256 ['x', ':'] [] 1 ['\r', 'a', '\r', '\n', 'b']
    ⟨by decide, List.forall_mem_nil _, List.forall_mem_nil _⟩ fun _ => by decide).mpr
  exact (norm_norm_iff _).mp (by decide)

/-- `a\r\r\nb` comes back as another body, whose address is another. -/
theorem publish_changes : ¬ ∀ (sha256 : List UInt8 → List UInt8) (first : List Char)
    (lines : List (List Char)) (gap : Nat) (body : List Char), Fenced first lines →
    classify sha256 (addrOf sha256 body) (parseFm (storedObject first lines gap body)).1
      (parseFm (storedObject first lines gap body)).2 = .content := by
  intro h
  have hsample := h sampleSha256 ['x', ':'] [] 1 ['a', '\r', '\r', '\n', 'b']
    ⟨by decide, List.forall_mem_nil _, List.forall_mem_nil _⟩
  exact absurd hsample (by decide)

end ShannonPrime.Swarm
