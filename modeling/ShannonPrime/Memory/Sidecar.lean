import ShannonPrime.Memory.Okf

/-!
The document written beside a captured episode. It takes the class and the name as they come and
the text line by line, so it reads back when the class is a line, the name adds no policy and no
delimiter, and the text has no carriage return before a line feed: the reader of lines takes it
away.
-/

namespace ShannonPrime.Memory.Okf

open Recall Lines

/-- `write_episode_okf`, the text of the file. -/
def writeEpisodeOkf (text memClass name : Text) : Text :=
  let title := (text.take 60).map fun c => if c = '\n' then ' ' else c
  unlines
    (["---".toList, entry "type" "memory".toList, entry "title" title, entry "description" title,
      entry "tags" ("[mem-okf, episode, ".toList ++ memClass ++ "]".toList),
      entry "sp_status" "ACTIVE".toList, entry "mem_kind" "episode".toList,
      entry "mem_addr" name] ++
    policyLines memClass ++
    ["---".toList, [], text])

/-- The lines of a name behind its first. -/
def laterLines (name : Text) : List Text := (name.splitOn '\n').tail

/-- Lines that leave no decline behind. -/
def Quiet (ls : List Text) : Prop :=
  (PolicyLines.start.scan ls).declineWhen = [] ∧ (PolicyLines.start.scan ls).declineMessage = []

instance (ls : List Text) : Decidable (Quiet ls) := inferInstanceAs (Decidable (_ ∧ _))

/-! ### The lines of the document -/

theorem entry_colon (key : String) (v : Text) : ':' ∈ entry key v := by
  simp [entry]

theorem unlines_entry (key : String) {v first : Text} {rest : List Text}
    (hv : v.splitOn '\n' = first :: rest) :
    unlines [entry key v] = unlines (entry key first :: rest) := by
  have hpieces := unlines_splitOn v
  rw [hv, unlines_cons] at hpieces
  rw [unlines_cons, unlines_cons, unlines_nil, entry, entry, List.append_assoc, ← hpieces,
    List.append_assoc (key.toList ++ ": ".toList)]

/-- The lines before the name's. -/
def headLines (text memClass : Text) : List Text :=
  let title := (text.take 60).map fun c => if c = '\n' then ' ' else c
  [entry "type" "memory".toList, entry "title" title, entry "description" title,
    entry "tags" ("[mem-okf, episode, ".toList ++ memClass ++ "]".toList),
    entry "sp_status" "ACTIVE".toList, entry "mem_kind" "episode".toList]

theorem writeEpisodeOkf_lines (text memClass name : Text) {first : Text} {rest : List Text}
    (hname : name.splitOn '\n' = first :: rest) :
    writeEpisodeOkf text memClass name =
      unlines ("---".toList :: (headLines text memClass ++ entry "mem_addr" first :: rest ++
        policyLines memClass ++ "---".toList :: [] :: text.splitOn '\n')) := by
  have haddr := unlines_entry "mem_addr" hname
  have htext : unlines [text] = unlines (text.splitOn '\n') := by
    rw [unlines_splitOn, unlines_cons, unlines_nil]
  have hdoc : writeEpisodeOkf text memClass name =
      unlines ["---".toList] ++ unlines (headLines text memClass) ++
        unlines [entry "mem_addr" name] ++ unlines (policyLines memClass) ++
        unlines ["---".toList, []] ++ unlines [text] := by
    simp only [← unlines_append]
    simp only [writeEpisodeOkf, headLines, List.append_assoc, List.cons_append, List.nil_append]
  rw [hdoc, haddr, htext]
  simp only [← unlines_append]
  congr 1
  simp

/-! ### What the lines are -/

theorem entry_line {key : String} (hkey : '\n' ∉ key.toList) {v : Text} (hv : '\n' ∉ v) :
    '\n' ∉ entry key v := by
  simp only [entry, List.mem_append, not_or]
  exact ⟨⟨hkey, by decide⟩, hv⟩

theorem policyLines_line {memClass : Text} (hclass : '\n' ∉ memClass) :
    ∀ l ∈ policyLines memClass, '\n' ∉ l := by
  have hkeys : ∀ k ∈ policyKeys, '\n' ∉ k.toList := by decide
  have hvalues : ∀ v ∈ policyValues, '\n' ∉ v := by decide
  intro l hl
  obtain ⟨k, v, rfl, hk, hv⟩ := mem_policyLines hl
  refine entry_line (hkeys k hk) ?_
  rcases hv with rfl | hv
  · exact hclass
  · exact hvalues v hv

theorem policyLines_free (memClass : Text) : Free (policyLines memClass) := by
  intro l hl
  obtain ⟨k, v, rfl, _, _⟩ := mem_policyLines hl
  exact isDelimiter_of_colon (entry_colon k v)

section Head

variable (text memClass : Text)

theorem headLines_line (hclass : '\n' ∉ memClass) : ∀ l ∈ headLines text memClass, '\n' ∉ l := by
  have htitle : '\n' ∉ (text.take 60).map fun c => if c = '\n' then ' ' else c := by
    intro hmem
    obtain ⟨c, _, hc⟩ := List.mem_map.mp hmem
    split at hc
    · exact absurd hc (by decide)
    · rename_i hother
      exact hother hc
  intro l hl
  simp only [headLines, List.mem_cons, List.not_mem_nil, or_false] at hl
  rcases hl with rfl | rfl | rfl | rfl | rfl | rfl
  · decide
  · exact entry_line (by decide) htitle
  · exact entry_line (by decide) htitle
  · refine entry_line (by decide) ?_
    simp only [List.mem_append, not_or]
    exact ⟨⟨by decide, hclass⟩, by decide⟩
  · decide
  · decide

theorem headLines_free : Free (headLines text memClass) := by
  intro l hl
  apply isDelimiter_of_colon
  simp only [headLines, List.mem_cons, List.not_mem_nil, or_false] at hl
  rcases hl with rfl | rfl | rfl | rfl | rfl | rfl <;> exact entry_colon _ _

/-- None of the other lines sets anything. -/
theorem headLines_scan (f : PolicyLines) : f.scan (headLines text memClass) = f := by
  simp only [headLines, PolicyLines.scan, List.foldl_cons, List.foldl_nil]
  rw [PolicyLines.line_entry _ (by decide), PolicyLines.line_entry _ (by decide),
    PolicyLines.line_entry _ (by decide), PolicyLines.line_entry _ (by decide),
    PolicyLines.line_entry _ (by decide), PolicyLines.line_entry _ (by decide)]
  rfl

end Head

theorem policy_scan_iff {memClass : Text} (hclass : trim memClass = memClass) (ls : List Text) :
    ((PolicyLines.start.scan ls).scan (policyLines memClass)).policy =
        some (MemPolicy.fromClass memClass) ↔
      memClass = "private-secret".toList ∨ Quiet ls := by
  rw [PolicyLines.scan_policyLines _ hclass]
  split
  · rename_i hsecret
    refine iff_of_true ?_ (Or.inl hsecret)
    rw [MemPolicy.fromClass, if_pos hsecret]
    rfl
  · rename_i hplain
    rw [MemPolicy.fromClass, if_neg hplain, or_iff_right hplain, Quiet, PolicyLines.policy]
    simp

/-! ### The body -/

/-- Trimming overlooks what becomes of the carriage returns. -/
theorem trim_dropCR_trim (s : Text) : trim (dropCR (trim s)) = trim (dropCR s) := by
  refine trim_invariant (fun s => trim (dropCR s)) (fun w s hw => ?_) (fun w s hw => ?_) s
  · by_cases hcrlf : w = '\r' ∧ ∃ s', s = '\n' :: s'
    · obtain ⟨rfl, s', rfl⟩ := hcrlf
      rw [dropCR_crlf, dropCR_cons (by simp)]
    · rw [dropCR_cons fun s' hr hs => hcrlf ⟨hr, s', hs⟩, trim_white_cons hw]
  · rcases eq_or_ne w '\n' with rfl | hne
    · rw [dropCR_concat_newline, trim_white_concat (by decide), trim_stripCR]
    · rw [dropCR_concat hne, trim_white_concat hw]

theorem trim_dropCR_iff (s : Text) : trim (dropCR s) = trim s ↔ ¬['\r', '\n'] <:+: trim s := by
  rw [← trim_dropCR_trim, ← dropCR_eq_self_iff]
  constructor
  · intro h
    refine (dropCR_sublist _).eq_of_length_le ?_
    calc (trim s).length = (trim (dropCR (trim s))).length := by rw [h]
      _ ≤ (dropCR (trim s)).length := trim_length_le _
  · intro h
    rw [h, trim_trim]

theorem filter_dropCR (s : Text) :
    (dropCR s).filter (!isWhitespace ·) = s.filter (!isWhitespace ·) := by
  induction s using crlf_induction with
  | nil => rfl
  | crlf s ih =>
      rw [dropCR_crlf, List.filter_cons_of_neg (by decide), ih, List.filter_cons_of_neg (by decide),
        List.filter_cons_of_neg (by decide)]
  | cons c s hcrlf ih => rw [dropCR_cons hcrlf, List.filter_cons, List.filter_cons, ih]

/-- A body that holds a delimiter and all of the text holds more than the text. -/
theorem body_ne_text {text : Text} {ls : List Text} {d : Text} (hmem : d ∈ ls)
    (hd : isDelimiter d = true) :
    trim (unlines (ls ++ (text.splitOn '\n').map stripCR)) ≠ trim text := by
  intro h
  have hchars := congrArg (List.filter (!isWhitespace ·)) h
  rw [filter_trim, filter_trim, unlines_append, List.filter_append, ← dropCR_unlines
    fun _ hl => not_mem_of_mem_splitOn hl, unlines_splitOn, filter_dropCR, List.filter_append]
    at hchars
  have hnone : (unlines ls).filter (!isWhitespace ·) = [] := by
    simpa [isWhitespace] using hchars
  have hdash : '-' ∈ trim d := by
    rw [beq_iff_eq.mp hd]
    decide
  have hin : '-' ∈ unlines ls :=
    List.mem_flatMap.mpr ⟨d, hmem, List.mem_append_left _ ((mem_trim (by decide)).mp hdash)⟩
  exact absurd (List.filter_eq_nil_iff.mp hnone '-' hin) (by decide)

theorem exists_delimiter {ls : List Text} (h : ¬Free ls) :
    ∃ before d after, ls = before ++ d :: after ∧ Free before ∧ isDelimiter d = true := by
  induction ls with
  | nil => exact absurd (fun _ hl => nomatch hl) h
  | cons l ls ih =>
      cases hl : isDelimiter l with
      | true => exact ⟨[], l, ls, rfl, (fun _ hl => nomatch hl), hl⟩
      | false =>
          have hrest : ¬Free ls := fun hfree => h (by
            rintro l' hl'
            rcases List.mem_cons.mp hl' with rfl | hl'
            · exact hl
            · exact hfree l' hl')
          obtain ⟨before, d, after, rfl, hbefore, hd⟩ := ih hrest
          refine ⟨l :: before, d, after, rfl, fun l' hl' => ?_, hd⟩
          rcases List.mem_cons.mp hl' with rfl | hl'
          · exact hl
          · exact hbefore l' hl'

theorem Free.append {ls ls' : List Text} (h : Free ls) (h' : Free ls') : Free (ls ++ ls') := by
  intro l hl
  rcases List.mem_append.mp hl with hl | hl
  · exact h l hl
  · exact h' l hl

theorem Free.cons {l : Text} {ls : List Text} (hl : isDelimiter l = false) (h : Free ls) :
    Free (l :: ls) := by
  intro l' hl'
  rcases List.mem_cons.mp hl' with rfl | hl'
  · exact hl
  · exact h l' hl'

theorem Free.stripCR {ls : List Text} (h : Free ls) : Free (ls.map Lines.stripCR) := by
  intro l hl
  obtain ⟨l', hl', rfl⟩ := List.mem_map.mp hl
  rw [isDelimiter_stripCR]
  exact h l' hl'

/-- The lines of the document, for a class on one line. -/
theorem lines_writeEpisodeOkf (text : Text) {memClass name first : Text} {rest : List Text}
    (hclass : '\n' ∉ memClass) (hname : name.splitOn '\n' = first :: rest) :
    lines (writeEpisodeOkf text memClass name) =
      ("---".toList :: (headLines text memClass ++ entry "mem_addr" first :: rest ++
        policyLines memClass ++ "---".toList :: [] :: text.splitOn '\n')).map stripCR := by
  have hpieces : ∀ l ∈ first :: rest, '\n' ∉ l := by
    rw [← hname]
    exact fun l hl => not_mem_of_mem_splitOn hl
  have hline : ∀ l ∈ "---".toList :: (headLines text memClass ++ entry "mem_addr" first :: rest ++
      policyLines memClass ++ "---".toList :: [] :: text.splitOn '\n'), '\n' ∉ l := by
    intro l hl
    simp only [List.mem_cons, List.mem_append] at hl
    rcases hl with rfl | ((hl | rfl | hl) | hl) | rfl | rfl | hl
    · decide
    · exact headLines_line text memClass hclass l hl
    · exact entry_line (by decide) (hpieces first List.mem_cons_self)
    · exact hpieces l (List.mem_cons_of_mem _ hl)
    · exact policyLines_line hclass l hl
    · decide
    · decide
    · exact not_mem_of_mem_splitOn hl
  have hlines := lines_unlines hline []
  rw [List.append_nil, ← writeEpisodeOkf_lines text memClass name hname] at hlines
  rw [hlines, lines, List.append_nil]

section Read

variable {text memClass name first : Text} {rest : List Text} (hclass : '\n' ∉ memClass)
  (hname : name.splitOn '\n' = first :: rest)
include hclass hname

variable (text) in
/-- A name without delimiters leaves the document its two. -/
theorem read_free (hrest : Free rest) (htrim : trim memClass = memClass) :
    (parseOkfPolicy (writeEpisodeOkf text memClass name) = some (MemPolicy.fromClass memClass) ↔
        memClass = "private-secret".toList ∨ Quiet rest) ∧
      okfBody (writeEpisodeOkf text memClass name) = trim (dropCR text) := by
  have hfm : Free (headLines text memClass ++ entry "mem_addr" first :: rest ++
      policyLines memClass) :=
    ((headLines_free text memClass).append
      (hrest.cons (isDelimiter_of_colon (entry_colon _ _)))).append (policyLines_free memClass)
  have hlines := lines_writeEpisodeOkf text hclass hname
  rw [List.map_cons, List.map_append, List.map_cons] at hlines
  obtain ⟨hpolicy, hbody⟩ := read_document [] hlines (fun _ hl => nomatch hl) (by decide)
    hfm.stripCR (by decide)
  constructor
  · have haddr : PolicyLines.start.scan (entry "mem_addr" first :: rest) =
        PolicyLines.start.scan rest := by
      rw [PolicyLines.scan, List.foldl_cons, PolicyLines.line_entry _ (by decide)]
      rfl
    rw [hpolicy, PolicyLines.scan_stripCR, PolicyLines.scan_append, PolicyLines.scan_append,
      headLines_scan, haddr]
    exact policy_scan_iff htrim rest
  · rw [hbody, List.map_cons, unlines_cons, ← dropCR_unlines
      (fun _ hl => not_mem_of_mem_splitOn hl), unlines_splitOn, dropCR_concat_newline]
    change trim ('\n' :: _) = _
    rw [trim_white_cons (by decide), trim_white_concat (by decide), trim_stripCR]

/-- A delimiter in the name ends the frontmatter early. -/
theorem read_cut (hrest : ¬Free rest) :
    okfBody (writeEpisodeOkf text memClass name) ≠ trim text := by
  obtain ⟨before, d, after, rfl, hbefore, hd⟩ := exists_delimiter hrest
  have hfm : Free (headLines text memClass ++ entry "mem_addr" first :: before) :=
    (headLines_free text memClass).append
      (hbefore.cons (isDelimiter_of_colon (entry_colon _ _)))
  have hlines := lines_writeEpisodeOkf text hclass hname
  have hsplit : "---".toList :: (headLines text memClass ++
      entry "mem_addr" first :: (before ++ d :: after) ++ policyLines memClass ++
        "---".toList :: [] :: text.splitOn '\n') =
      "---".toList :: ((headLines text memClass ++ entry "mem_addr" first :: before) ++
        d :: ((after ++ policyLines memClass ++ ["---".toList, []]) ++ text.splitOn '\n')) := by
    simp
  rw [hsplit, List.map_cons, List.map_append, List.map_cons, List.map_append] at hlines
  obtain ⟨_, hbody⟩ := read_document [] hlines (fun _ hl => nomatch hl) (by decide)
    hfm.stripCR (by rwa [isDelimiter_stripCR])
  rw [hbody, List.map_append]
  refine body_ne_text (d := "---".toList) ?_ (by decide)
  exact List.mem_map.mpr ⟨"---".toList, by simp, by decide⟩

end Read

/-- Both readers give back what was written exactly when the class is a trimmed line, no later line
of the name delimits, nor declines what the class does not, and no line of the text ends with a
carriage return. -/
theorem sidecar_round_trip_iff (text memClass name : Text) :
    (parseOkfPolicy (writeEpisodeOkf text memClass name) = some (MemPolicy.fromClass memClass) ∧
        okfBody (writeEpisodeOkf text memClass name) = trim text) ↔
      ('\n' ∉ memClass ∧ trim memClass = memClass) ∧ Free (laterLines name) ∧
        (memClass = "private-secret".toList ∨ Quiet (laterLines name)) ∧
        ¬['\r', '\n'] <:+: trim text := by
  obtain ⟨first, rest, hname⟩ := List.exists_cons_of_ne_nil (List.splitOn_ne_nil '\n' name)
  have hlater : laterLines name = rest := by rw [laterLines, hname, List.tail_cons]
  have hsame : (MemPolicy.fromClass memClass).memClass = memClass := by
    rw [MemPolicy.fromClass]
    split <;> rfl
  rw [hlater]
  by_cases hclass : '\n' ∉ memClass ∧ trim memClass = memClass
  · obtain ⟨hline, htrim⟩ := hclass
    by_cases hrest : Free rest
    · obtain ⟨hpolicy, hbody⟩ := read_free text hline hname hrest htrim
      rw [hpolicy, hbody, trim_dropCR_iff]
      constructor
      · rintro ⟨hquiet, hcrlf⟩
        exact ⟨⟨hline, htrim⟩, hrest, hquiet, hcrlf⟩
      · rintro ⟨_, _, hquiet, hcrlf⟩
        exact ⟨hquiet, hcrlf⟩
    · exact ⟨fun h => absurd h.2 (read_cut hline hname hrest), fun h => absurd h.2.1 hrest⟩
  · refine ⟨fun h => ?_, fun h => absurd h.1 hclass⟩
    have hclean := parseOkfPolicy_clean h.1
    rw [hsame] at hclean
    exact absurd hclean hclass

/-- A text of two lines in the other convention. -/
theorem crlf_not_returned :
    ¬(parseOkfPolicy (writeEpisodeOkf "a\r\nb".toList "counterfact".toList "ep_live_m1".toList) =
        some (MemPolicy.fromClass "counterfact".toList) ∧
      okfBody (writeEpisodeOkf "a\r\nb".toList "counterfact".toList "ep_live_m1".toList) =
        trim "a\r\nb".toList) :=
  fun h => absurd h.2 (by decide)

end ShannonPrime.Memory.Okf
