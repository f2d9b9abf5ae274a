import ShannonPrime.Transcode.HeaderText

/-!
The scan of a header by hand: it takes each value whose braces are counted right, and finds the
fields of a tensor wherever they stand.
-/

namespace ShannonPrime.Transcode.Safetensors

/-! ## Fields -/

theorem neutral_quote : Neutral (chr '"') := ⟨by decide, by decide, by decide⟩

/-- What the scan searches for in quotes. -/
structure Word (w : List Byte) : Prop where
  plain : chr '"' ∉ w
  letter : ∃ c ∈ ascii "dsBF".toList, w.head? = some c

/-- A quote that closes a string begins no word. -/
theorem Word.head_ne {w : List Byte} (hw : Word w) (g : Space) {d : Byte}
    (hd : d ∉ ascii "dsBF".toList) (s : List Byte) :
    (w ++ [chr '"']).head? ≠ (g.val ++ d :: s).head? := by
  obtain ⟨c, hc, hhead⟩ := hw.letter
  rw [List.head?_append, hhead, Option.some_or]
  intro h
  obtain ⟨g, hg⟩ := g
  cases g with
  | nil =>
      obtain rfl := Option.some.inj h
      exact hd hc
  | cons b g =>
      obtain rfl := Option.some.inj h
      rcases hg c List.mem_cons_self with rfl | rfl | rfl | rfl <;> exact absurd hc (by decide)

variable {t : Tensor} {w : List Byte}

theorem Word.strstr_key (hw : Word w) (sp : Spacing) {key : List Byte} (hplain : chr '"' ∉ key)
    (hkey : key ≠ w) (value s : List Byte) :
    strstr (quoted w) (sp.pair key value ++ s) = strstr (quoted w) (value ++ (sp.after ++ s)) := by
  have hgap : chr '"' ∉ sp.colon.val ++ chr ':' :: sp.value.val :=
    not_mem_append (neutral_quote.not_space sp.colon)
      (not_mem_cons (by decide) (neutral_quote.not_space sp.value))
  have hskip := strstr_skip hgap (w := w) (value ++ (sp.after ++ s))
  simp only [Spacing.pair, List.append_assoc, List.cons_append] at hskip ⊢
  rw [strstr_skip (neutral_quote.not_space sp.before),
    strstr_quoted hw.plain hplain hkey (hw.head_ne sp.colon (by decide) _), hskip]

theorem Field.plain (f : Field) : chr '"' ∉ f.key := by
  cases f <;> decide

theorem Tensor.dtype_plain (t : Tensor) : chr '"' ∉ t.dtype :=
  fun hmem => (t.word.1 _ hmem).1 rfl

/-- A field of another name and without the word for its value. -/
theorem Word.strstr_field (hw : Word w) {f : Field} (hkey : f.key ≠ w)
    (hdtype : f = .dtype → t.dtype ≠ w) {d : Byte} (hd : d ∉ ascii "dsBF".toList)
    (s : List Byte) : strstr (quoted w) (t.field f ++ d :: s) = strstr (quoted w) (d :: s) := by
  have hafter := neutral_quote.not_space (t.spacing f).after
  rw [Tensor.field, hw.strstr_key _ f.plain hkey]
  cases f with
  | dtype =>
      rw [Tensor.fieldValue,
        strstr_quoted hw.plain t.dtype_plain (hdtype rfl) (hw.head_ne _ hd _),
        strstr_skip hafter]
  | shape =>
      rw [Tensor.fieldValue, strstr_skip (neutral_quote.not_array _ _), strstr_skip hafter]
  | dataOffsets =>
      rw [Tensor.fieldValue, strstr_skip (neutral_quote.not_array _ _), strstr_skip hafter]

/-- The fields from some on, and the end of the object. -/
def Tensor.rest (t : Tensor) (l : List Field) : List Byte :=
  (l.flatMap fun f => chr ',' :: t.field f) ++ [chr '\x7d']

theorem Tensor.rest_cons (t : Tensor) (l : List Field) :
    ∃ d s, t.rest l = d :: s ∧ d ∉ ascii "dsBF".toList ∧ d ≠ chr '"' := by
  cases l with
  | nil => exact ⟨chr '\x7d', [], rfl, by decide, by decide⟩
  | cons f l => exact ⟨chr ',', _, rfl, by decide, by decide⟩

theorem Tensor.rest_append (t : Tensor) (f : Field) (l : List Field) :
    t.rest (f :: l) = chr ',' :: (t.field f ++ t.rest l) := by
  simp only [Tensor.rest, List.flatMap_cons, List.cons_append, List.append_assoc]

theorem strstr_separator {d : Byte} (hd : d ≠ chr '"') (s : List Byte) :
    strstr (quoted w) (d :: s) = strstr (quoted w) s :=
  strstr_skip (g := [d]) (not_mem_cons hd.symm List.not_mem_nil) s

/-- The search passes the fields where it has nothing to find. -/
theorem Word.strstr_rest (hw : Word w) {l : List Field}
    (hl : ∀ f ∈ l, f.key ≠ w ∧ (f = .dtype → t.dtype ≠ w)) (l' : List Field) :
    strstr (quoted w) (t.rest (l ++ l')) = strstr (quoted w) (t.rest l') := by
  induction l with
  | nil => rfl
  | cons f l ih =>
      obtain ⟨hkey, hdtype⟩ := hl f List.mem_cons_self
      obtain ⟨d, s, hrest, hd, -⟩ := t.rest_cons (l ++ l')
      rw [List.cons_append, t.rest_append, strstr_separator (by decide), hrest,
        hw.strstr_field hkey hdtype hd, ← hrest]
      exact ih fun f' hf' => hl f' (List.mem_cons_of_mem f hf')

theorem strstr_text (t : Tensor) (w : List Byte) :
    strstr (quoted w) t.text = strstr (quoted w) (t.rest t.order) := by
  obtain ⟨f, l, horder⟩ := List.exists_cons_of_ne_nil
    (show t.order ≠ [] from fun h => absurd (h ▸ t.complete.length_eq) (by decide))
  have htext : t.text = (chr '\x7b' :: (t.gap .dtype).val) ++ (t.field f ++ t.rest l) := by
    simp only [Tensor.text, object, Tensor.rest, horder, List.map_cons, commas, List.flatMap_map,
      List.cons_append, List.append_assoc]
  rw [htext, strstr_skip, horder, t.rest_append, strstr_separator (by decide)]
  exact not_mem_cons (by decide) (neutral_quote.not_space _)

theorem Field.word (f : Field) : Word f.key := by
  cases f <;> exact ⟨by decide, by decide⟩

theorem Field.key_injective {f f' : Field} (h : f.key = f'.key) : f = f' := by
  revert h
  cases f <;> cases f' <;> decide

theorem Tensor.order_split (t : Tensor) (f : Field) :
    ∃ l l', t.order = l ++ f :: l' ∧ f ∉ l := by
  have hnodup : t.order.Nodup := t.complete.nodup_iff.mpr (by decide)
  have hmem : f ∈ t.order := t.complete.mem_iff.mpr (by cases f <;> decide)
  obtain ⟨l, l', horder⟩ := List.append_of_mem hmem
  rw [horder, List.nodup_append] at hnodup
  exact ⟨l, l', horder, fun h => hnodup.2.2 f h f List.mem_cons_self rfl⟩

/-- Each key is found where its value follows. -/
theorem Tensor.strstr_key (t : Tensor) (f : Field) (hdtype : t.dtype ≠ f.key) :
    ∃ s, strstr (quoted f.key) t.text = some (quoted f.key ++ ((t.spacing f).colon ++ chr ':' ::
      ((t.spacing f).value ++ (t.fieldValue f ++ s)))) := by
  obtain ⟨l, l', horder, hl⟩ := t.order_split f
  have hskip : ∀ f' ∈ l, f'.key ≠ f.key ∧ (f' = .dtype → t.dtype ≠ f.key) := by
    intro f' hf'
    refine ⟨fun h => hl ?_, fun _ => hdtype⟩
    rwa [← Field.key_injective h]
  refine ⟨(t.spacing f).after ++ t.rest l', ?_⟩
  rw [strstr_text, horder, f.word.strstr_rest hskip, t.rest_append, strstr_separator (by decide),
    Tensor.field]
  simp only [Spacing.pair, List.append_assoc, List.cons_append]
  rw [strstr_skip (neutral_quote.not_space _), strstr_found]

/-- A word that is no key is found exactly where it is the type. -/
theorem Word.strstr_dtype (hw : Word w) (hkey : ∀ f : Field, f.key ≠ w) (t : Tensor) :
    (strstr (quoted w) t.text).isSome = decide (t.dtype = w) := by
  rw [strstr_text]
  by_cases hdtype : t.dtype = w
  · obtain ⟨l, l', horder, hl⟩ := t.order_split .dtype
    have hskip : ∀ f ∈ l, f.key ≠ w ∧ (f = .dtype → t.dtype ≠ w) := by
      intro f hf
      refine ⟨hkey f, ?_⟩
      rintro rfl
      exact absurd hf hl
    rw [horder, hw.strstr_rest hskip, t.rest_append, strstr_separator (by decide), Tensor.field,
      hw.strstr_key _ (Field.plain _) (hkey _), Tensor.fieldValue, hdtype, strstr_found]
    exact (decide_eq_true rfl).symm
  · have hnone := hw.strstr_rest (t := t) (l := t.order) (fun f _ => ⟨hkey f, fun _ => hdtype⟩) []
    rw [List.append_nil] at hnone
    rw [hnone, decide_eq_false hdtype]
    exact congrArg Option.isSome (strstr_separator (by decide) [])

theorem word_bf16 : Word (ascii "BF16".toList) ∧ ∀ f : Field, f.key ≠ ascii "BF16".toList :=
  ⟨⟨by decide, by decide⟩, fun f => by cases f <;> decide⟩

theorem word_f32 : Word (ascii "F32".toList) ∧ ∀ f : Field, f.key ≠ ascii "F32".toList :=
  ⟨⟨by decide, by decide⟩, fun f => by cases f <;> decide⟩

/-- The first bracket behind a key is that of its array. -/
theorem strchr_array (f : Field) (sp : Spacing) (gap : Space) (items : List Number)
    (s : List Byte) :
    strchr (chr '[') (quoted f.key ++ (sp.colon ++ chr ':' :: (sp.value ++ (array gap items ++ s)))) =
      chr '[' :: (gap ++ (commas (items.map Number.text) ++ chr ']' :: s)) := by
  have hkey : chr '[' ∉ quoted f.key := by
    cases f <;> decide
  have hgap : chr '[' ∉ quoted f.key ++ (sp.colon.val ++ chr ':' :: sp.value.val) := by
    apply not_mem_append hkey
    apply not_mem_append (sp.colon.not_mem (by decide))
    exact not_mem_cons (by decide) (sp.value.not_mem (by decide))
  have hskip := strchr_append hgap (gap ++ (commas (items.map Number.text) ++ chr ']' :: s))
  simp only [array, List.append_assoc, List.cons_append, List.nil_append] at hskip ⊢
  exact hskip

theorem Tensor.shapeOf_text (t : Tensor) (hdtype : t.dtype ≠ Field.shape.key) :
    shapeOf t.text = t.shape.map Number.value ↔ ∀ n ∈ t.shape.dropLast, n.Tight := by
  obtain ⟨s, hs⟩ := t.strstr_key .shape hdtype
  have hword : ascii "\"shape\"".toList = quoted Field.shape.key := by decide
  rw [shapeOf, hword, hs]
  simp only [Tensor.fieldValue, strchr_array]
  exact shapeLoop_array _ t.dims s

/-- The end reads as zero where the start is loose. -/
theorem Tensor.offsetsOf_text (t : Tensor) (hdtype : t.dtype ≠ Field.dataOffsets.key) :
    ∃ v, offsetsOf t.text = some (t.start.value, v - t.start.value) ∧
      (t.start.Tight → v = t.stop.value) ∧ (¬ t.start.Tight → v = 0) := by
  obtain ⟨s, hs⟩ := t.strstr_key .dataOffsets hdtype
  have hword : ascii "\"data_offsets\"".toList = quoted Field.dataOffsets.key := by decide
  have hblank : ∀ c ∈ (t.gap .dataOffsets).val ++ t.start.before.val, isSpace c = true := by
    intro c hc
    rcases List.mem_append.mp hc with hc | hc
    · exact (t.gap .dataOffsets).isSpace c hc
    · exact t.start.before.isSpace c hc
  have htext : (t.gap .dataOffsets).val ++ (commas ([t.start, t.stop].map Number.text) ++
      chr ']' :: s) = (t.gap .dataOffsets ++ t.start.before.val) ++ (t.start.digits ++
        (t.start.after ++ chr ',' :: (t.stop.text ++ chr ']' :: s))) := by
    rw [commas_numbers]
    simp only [List.flatMap_cons, List.flatMap_nil, List.append_nil, List.append_assoc,
      List.cons_append]
  have hstop := strtoull_number (isSpace_dropWhile t.stop.before.isSpace) t.stop
    (show isDigit (chr ']') = false from rfl) s
  rw [offsetsOf, hword, hs]
  simp only [Tensor.fieldValue, strchr_array]
  rw [htext, strtoull_number hblank t.start (by rfl)]
  by_cases htight : t.start.Tight
  · refine ⟨t.stop.value, ?_, fun _ => rfl, fun h => absurd htight h⟩
    simp only [dropWhile_comma htight, hstop]
  · obtain ⟨g, hg, -, hdrop⟩ := dropWhile_loose htight (t.stop.text ++ chr ']' :: s)
    refine ⟨0, ?_, fun h => absurd h htight, fun _ => rfl⟩
    simp only [hdrop, strtoull_stop hg (Or.inl rfl)]

theorem Number.value_eq_zero (n : Number) : n.value = 0 ↔ decimal n.digits = 0 := by
  rw [Number.value, ← BitVec.toNat_inj, BitVec.toNat_ofNat, Nat.mod_eq_of_lt n.fits]
  exact Iff.rfl

theorem Tensor.length_value (t : Tensor) :
    BitVec.ofNat 64 (decimal t.stop.digits - decimal t.start.digits) =
      t.stop.value - t.start.value := by
  have hsum : BitVec.ofNat 64 (decimal t.stop.digits - decimal t.start.digits +
      decimal t.start.digits) = _ := BitVec.ofNat_add _ _
  rw [Nat.sub_add_cancel t.ordered] at hsum
  rw [Number.value, Number.value, hsum, BitVec.add_sub_cancel]

/-- What has a name of its own in the scan. -/
theorem Tensor.isBf16_text (t : Tensor) :
    (strstr (ascii "\"BF16\"".toList) t.text).isSome = decide (t.dtype = ascii "BF16".toList) :=
  word_bf16.1.strstr_dtype word_bf16.2 t

theorem Tensor.isF32_text (t : Tensor) :
    (strstr (ascii "\"F32\"".toList) t.text).isSome = decide (t.dtype = ascii "F32".toList) :=
  word_f32.1.strstr_dtype word_f32.2 t

/-- Another type is in no part of the text. -/
theorem Tensor.entryOf_skipped {t : Tensor} (ht : t.recorded = none) (key : List Byte) :
    entryOf key t.text = none := by
  have hdtype : ¬ (t.dtype = ascii "BF16".toList ∨ t.dtype = ascii "F32".toList) := by
    intro h
    rw [Tensor.recorded, if_pos h] at ht
    exact Option.some_ne_none _ ht
  rw [not_or] at hdtype
  have habsent : ∀ p, (strstr p t.text).isSome = false → (strstr p (t.text.take 511)).isSome = false := by
    intro p hp
    rw [Bool.eq_false_iff, ne_eq, strstr_isSome] at hp ⊢
    exact fun h => hp (h.trans (List.take_prefix 511 t.text).isInfix)
  have hbf16 := habsent _ (t.isBf16_text.trans (decide_eq_false hdtype.1))
  have hf32 := Option.isSome_eq_false_iff.mp
    (habsent _ (t.isF32_text.trans (decide_eq_false hdtype.2)))
  rw [entryOf]
  split
  · rfl
  · simp only [hbf16, hf32]
    rfl

/-- A value that fits the buffer is recorded as it should where it is legible. -/
theorem Tensor.entryOf_recorded {t : Tensor} {e : StEntry} (ht : t.recorded = some e)
    (hshort : t.text.length ≤ 511) : entryOf t.name t.text = some e ↔ t.Legible := by
  rw [Tensor.recorded] at ht
  split at ht
  · rename_i hdtype
    have hkey : ∀ f : Field, t.dtype ≠ f.key := by
      intro f
      rcases hdtype with h | h
      · exact h ▸ (word_bf16.2 f).symm
      · exact h ▸ (word_f32.2 f).symm
    obtain ⟨v, hoff, htight, hloose⟩ := t.offsetsOf_text (hkey .dataOffsets)
    have hshape := t.shapeOf_text (hkey .shape)
    have htype : (!decide (t.dtype = ascii "BF16".toList) &&
        (strstr (ascii "\"F32\"".toList) t.text).isNone) = false := by
      rcases hdtype with h | h
      · rw [decide_eq_true h]
        rfl
      · have hsome := t.isF32_text.trans (decide_eq_true h)
        rw [Option.isNone_eq_false_iff.mpr hsome, Bool.and_false]
    have hlen : v - t.start.value = t.stop.value - t.start.value ↔
        t.start.Tight ∨ decimal t.stop.digits = 0 := by
      rw [BitVec.sub_left_inj, ← t.stop.value_eq_zero]
      by_cases h : t.start.Tight
      · exact iff_of_true (htight h) (Or.inl h)
      · rw [hloose h, or_iff_right h]
        exact eq_comm
    cases hname : (ascii "__metadata__".toList).isPrefixOf t.name with
    | true =>
        rw [entryOf, if_pos hname]
        refine iff_of_false (Option.some_ne_none e).symm fun h => ?_
        exact Bool.false_ne_true (h.name.symm.trans hname)
    | false =>
        rw [entryOf, hname, if_neg Bool.false_ne_true, List.take_of_length_le hshort, ← ht]
        simp only [t.isBf16_text, htype, hoff, Bool.false_eq_true, if_false, Option.map_some,
          List.take_of_length_le (Nat.le_of_lt_succ t.short), t.length_value, Option.some.injEq,
          StEntry.mk.injEq, true_and, hshape, hlen]
        exact ⟨fun h => ⟨h.1, h.2, hname⟩, fun h => ⟨h.shape, h.offsets⟩⟩
  · exact absurd ht.symm (Option.some_ne_none e)

/-! ## Braces -/

theorem level_cons (c : Byte) (s : List Byte) : level (c :: s) =
    (if c = chr '\x7b' then 1 else if c = chr '\x7d' then -1 else 0) + level s := by
  have hne : chr '\x7b' ≠ chr '\x7d' := by decide
  simp only [level, List.count_cons, beq_iff_eq]
  split
  · rename_i h
    rw [if_neg (h ▸ hne)]
    push_cast
    ring
  · split
    · push_cast
      ring
    · push_cast
      ring

theorem level_append (s t : List Byte) : level (s ++ t) = level s + level t := by
  simp only [level, List.count_append]
  push_cast
  ring

/-- The loop over a value ends where its braces are first closed. -/
theorem braces_eq {s : List Byte} (hs : s ≠ []) {d : Int}
    (hopen : ∀ n, 0 < n → n < s.length → d + level (s.take n) ≠ 0) (hclosed : d + level s = 0)
    (t : List Byte) : braces d (s ++ t) = (s, t) := by
  induction s generalizing d with
  | nil => exact absurd rfl hs
  | cons c s ih =>
      have hstep : (if c = chr '\x7b' then d + 1 else if c = chr '\x7d' then d - 1 else d) =
          d + level [c] := by
        have hnil : level [] = 0 := rfl
        rw [level_cons, hnil]
        split
        · omega
        · split <;> omega
      have hsum : level (c :: s) = level [c] + level s := level_append [c] s
      rw [List.cons_append, braces, hstep]
      cases s with
      | nil =>
          have hzero : d + level [c] = 0 := hclosed
          rw [List.nil_append, if_pos (Or.inr hzero)]
      | cons c' s =>
          have hfirst : d + level [c] ≠ 0 :=
            hopen 1 Nat.one_pos (Nat.succ_lt_succ (Nat.succ_pos s.length))
          rw [hsum, ← add_assoc] at hclosed
          have hmore : ¬ (c' :: s ++ t = [] ∨ d + level [c] = 0) :=
            not_or.mpr ⟨List.cons_ne_nil c' (s ++ t), hfirst⟩
          rw [if_neg hmore, ih (List.cons_ne_nil c' s) _ hclosed]
          intro n hpos hn
          have hnext := hopen (n + 1) (Nat.succ_pos n) (Nat.succ_lt_succ hn)
          have hcut : level ((c :: c' :: s).take (n + 1)) = level [c] + level ((c' :: s).take n) :=
            level_append [c] _
          rwa [hcut, ← add_assoc] at hnext

theorem braces_object {gap : Space} {pairs : List (List Byte)}
    (hpairs : Balanced (gap ++ commas pairs)) (t : List Byte) :
    braces 0 (object gap pairs ++ t) = (object gap pairs, t) := by
  have hopen : level [chr '\x7b'] = 1 := rfl
  have hclose : level [chr '\x7d'] = -1 := rfl
  have hfirst : ∀ s, level (chr '\x7b' :: s) = 1 + level s := fun s => level_append [chr '\x7b'] s
  apply braces_eq (List.cons_ne_nil _ _)
  · intro n hpos hn
    obtain ⟨k, rfl⟩ := Nat.exists_eq_add_of_le' hpos
    have hk : k ≤ (gap ++ commas pairs).length := by
      simp only [List.length_cons, List.length_append, List.length_nil] at hn ⊢
      omega
    have hlevel := hpairs.1 k hk
    rw [List.take_succ_cons, hfirst, List.take_append_of_le_length hk]
    omega
  · rw [hfirst, level_append, hpairs.2, hclose]
    rfl

theorem balanced_of_free {s : List Byte} (hopen : chr '\x7b' ∉ s) (hclose : chr '\x7d' ∉ s) :
    Balanced s := by
  have hlevel : ∀ n, level (s.take n) = 0 := by
    intro n
    rw [level, List.count_eq_zero_of_not_mem fun h => hopen (List.mem_of_mem_take h),
      List.count_eq_zero_of_not_mem fun h => hclose (List.mem_of_mem_take h)]
    rfl
  refine ⟨fun n _ => (hlevel n).ge, ?_⟩
  rw [← List.take_length (l := s)]
  exact hlevel _

/-! ## Members -/

theorem neutral_open : Neutral (chr '\x7b') := ⟨by decide, by decide, by decide⟩

theorem neutral_close : Neutral (chr '\x7d') := ⟨by decide, by decide, by decide⟩

theorem Member.key_plain (m : Member) : chr '"' ∉ m.key := by
  cases m with
  | metadata m => exact show chr '"' ∉ ascii "__metadata__".toList by decide
  | tensor t => exact fun h => (t.plain _ h).1 rfl

/-- The fields of a tensor hold no braces. -/
theorem Tensor.balanced (t : Tensor) : Balanced (t.gap .dtype ++ commas (t.order.map t.field)) := by
  have hfree : ∀ x, Neutral x → x ≠ chr '"' → x ∉ t.dtype → (∀ f : Field, x ∉ f.key) →
      x ∉ (t.gap .dtype).val ++ commas (t.order.map t.field) := by
    intro x hx hquote hdtype hkey
    apply not_mem_append (hx.not_space _)
    apply hx.not_commas
    intro s hs
    obtain ⟨f, -, rfl⟩ := List.mem_map.mp hs
    exact hx.not_field hquote hdtype f (hkey f)
  apply balanced_of_free
  · exact hfree _ neutral_open (by decide) t.word.2.1 fun f => by cases f <;> decide
  · exact hfree _ neutral_close (by decide) t.word.2.2 fun f => by cases f <;> decide

/-- The text of a member is an object whose braces are counted right. -/
def Member.Counted (m : Member) : Prop :=
  ∃ gap pairs, m.text = object gap pairs ∧ Balanced (gap ++ commas pairs)

theorem Header.counted {h : Header} (hbalanced : h.Balanced) {p : Spacing × Member}
    (hp : p ∈ h.members) : p.2.Counted := by
  cases hm : p.2 with
  | metadata m => exact ⟨m.gap, m.pairs, rfl, hbalanced p hp m hm⟩
  | tensor t => exact ⟨t.gap .dtype, t.order.map t.field, rfl, t.balanced⟩

theorem scan_skip {g : List Byte} (hg : chr '"' ∉ g) (turns : Nat) (s : List Byte) :
    scan turns (g ++ s) = scan turns s := by
  cases turns with
  | zero => rfl
  | succ turns =>
      have hskip : strchr (chr '"') (g ++ s) = strchr (chr '"') s := by
        rw [strchr, List.dropWhile_append_of_pos]
        · rfl
        · intro c hc
          exact bne_iff_ne.mpr fun h => hg (h ▸ hc)
      rw [scan, scan, hskip]

theorem scan_key {key s : List Byte} (hkey : chr '"' ∉ key) {v : List Byte} (hv : v ≠ [])
    (hs : strchr (chr '\x7b') s = v) (turns : Nat) :
    scan (turns + 1) (chr '"' :: (key ++ chr '"' :: s)) =
      (entryOf key (braces 0 v).1).toList ++ scan turns (braces 0 v).2 := by
  have hquote : strchr (chr '"') (chr '"' :: (key ++ chr '"' :: s)) =
      chr '"' :: (key ++ chr '"' :: s) := strchr_append List.not_mem_nil _
  rw [scan, hquote]
  simp only [strchr_append hkey, hs]
  cases v with
  | nil => exact absurd rfl hv
  | cons c v => simp only [takeWhile_append hkey]

/-- A turn of the scan is a member. -/
theorem Member.scan {m : Member} (hm : m.Counted) (sp : Spacing) (turns : Nat) (s : List Byte) :
    Safetensors.scan (turns + 1) (sp.pair m.key m.text ++ s) =
      (entryOf m.key m.text).toList ++ Safetensors.scan turns (sp.after ++ s) := by
  obtain ⟨gap, pairs, htext, hbalanced⟩ := hm
  have hgap : chr '\x7b' ∉ sp.colon.val ++ chr ':' :: sp.value.val := by
    apply not_mem_append (neutral_open.not_space _)
    exact not_mem_cons (by decide) (neutral_open.not_space _)
  have hvalue : strchr (chr '\x7b') (sp.colon ++ chr ':' :: (sp.value ++ (m.text ++ (sp.after ++ s)))) =
      m.text ++ (sp.after ++ s) := by
    have hskip := strchr_append hgap (gap ++ commas pairs ++ [chr '\x7d'] ++ (sp.after ++ s))
    simp only [htext, object, List.append_assoc, List.cons_append] at hskip ⊢
    exact hskip
  have hbraces := braces_object hbalanced (sp.after ++ s)
  rw [← htext] at hbraces
  simp only [Spacing.pair, quoted, List.append_assoc, List.cons_append, List.nil_append]
  rw [scan_skip (neutral_quote.not_space _), scan_key m.key_plain _ hvalue, hbraces]
  rw [htext]
  exact List.cons_ne_nil _ _

/-- The members from some on, the end of the header and its padding. -/
def rest (l : List (Spacing × Member)) (tail : Space) : List Byte :=
  (l.flatMap fun p => chr ',' :: p.1.pair p.2.key p.2.text) ++ chr '\x7d' :: tail.val

theorem rest_cons (p : Spacing × Member) (l : List (Spacing × Member)) (tail : Space) :
    rest (p :: l) tail = [chr ','] ++ (p.1.pair p.2.key p.2.text ++ rest l tail) := by
  simp only [rest, List.flatMap_cons, List.cons_append, List.append_assoc, List.nil_append]

theorem scan_rest {g : List Byte} (hg : chr '"' ∉ g) {l : List (Spacing × Member)}
    (hl : ∀ p ∈ l, p.2.Counted) (tail : Space) {turns : Nat} (hturns : l.length < turns) :
    scan turns (g ++ rest l tail) = l.filterMap fun p => entryOf p.2.key p.2.text := by
  induction l generalizing g turns with
  | nil =>
      obtain ⟨turns, rfl⟩ := Nat.exists_eq_add_of_le' hturns
      have hnone : chr '"' ∉ g ++ chr '\x7d' :: tail.val :=
        not_mem_append hg (not_mem_cons (by decide) (neutral_quote.not_space tail))
      have hstop := strchr_eq_nil hnone
      simp only [rest, List.flatMap_nil, List.nil_append, scan, hstop, List.filterMap_nil]
  | cons p l ih =>
      cases turns with
      | zero => exact absurd hturns (Nat.not_lt_zero _)
      | succ turns =>
          have hnext := ih (neutral_quote.not_space p.1.after)
            (fun q hq => hl q (List.mem_cons_of_mem p hq)) (Nat.lt_of_succ_lt_succ hturns)
          rw [scan_skip hg, rest_cons, scan_skip (by decide), Member.scan (hl p List.mem_cons_self),
            hnext, List.filterMap_cons]
          cases entryOf p.2.key p.2.text <;> rfl

theorem length_rest (l : List (Spacing × Member)) (tail : Space) :
    l.length < (rest l tail).length := by
  induction l with
  | nil => exact Nat.succ_pos _
  | cons p l ih =>
      rw [rest_cons, List.length_append, List.length_append, List.length_cons, List.length_singleton]
      omega

/-- The scan takes every member, whatever it makes of it. -/
theorem Header.entries_text {h : Header} (hbalanced : h.Balanced) :
    entries h.text = h.members.filterMap fun p => entryOf p.2.key p.2.text := by
  have hcounted : ∀ p ∈ h.members, p.2.Counted := fun p hp => Header.counted hbalanced hp
  have hgap := neutral_quote.not_space h.gap
  have htext : h.text = chr '\x7b' :: (h.gap ++
      (commas (h.members.map fun p => p.1.pair p.2.key p.2.text) ++ chr '\x7d' :: h.tail.val)) := by
    simp only [Header.text, object, List.cons_append, List.append_assoc, List.nil_append]
  have hopen : ∀ s, strchr (chr '\x7b') (chr '\x7b' :: s) = chr '\x7b' :: s := fun s =>
    strchr_append List.not_mem_nil s
  simp only [entries, htext, hopen]
  cases hmembers : h.members with
  | nil => exact scan_rest hgap (fun p hp => absurd hp List.not_mem_nil) h.tail (Nat.succ_pos _)
  | cons p l =>
      rw [hmembers] at hcounted
      have hfirst : commas ((p :: l).map fun p => p.1.pair p.2.key p.2.text) ++ chr '\x7d' :: h.tail.val =
          p.1.pair p.2.key p.2.text ++ rest l h.tail := by
        simp only [List.map_cons, commas, rest, List.flatMap_map, List.append_assoc]
      have hlen := length_rest l h.tail
      rw [hfirst, scan_skip hgap]
      generalize hturns : (h.gap.val ++ (p.1.pair p.2.key p.2.text ++ rest l h.tail)).length + 1 = turns
      have hmany : (p :: l).length < turns := by
        simp only [List.length_append, List.length_cons] at hturns ⊢
        omega
      have hscan := scan_rest List.not_mem_nil hcounted h.tail hmany
      rwa [List.nil_append, rest_cons, scan_skip (by decide)] at hscan

/-! ## The header -/

section

variable {ι β K : Type} {l : List ι} {f g : ι → Option β} {key : ι → K} {name : β → K}

theorem eq_some_of_filterMap (hkey : (l.map key).Nodup)
    (hf : ∀ x ∈ l, ∀ b, f x = some b → name b = key x)
    (hg : ∀ x ∈ l, ∀ b, g x = some b → name b = key x) (h : l.filterMap f = l.filterMap g) {x : ι}
    (hx : x ∈ l) {b : β} (hb : f x = some b) : g x = some b := by
  have hmem : b ∈ l.filterMap g := h ▸ List.mem_filterMap.mpr ⟨x, hx, hb⟩
  obtain ⟨y, hy, hgy⟩ := List.mem_filterMap.mp hmem
  have hsame : key y = key x := (hg y hy b hgy).symm.trans (hf x hx b hb)
  rwa [List.inj_on_of_nodup_map hkey hy hx hsame] at hgy

/-- Where every result has the name of its own, lists of results are equal result by result. -/
theorem filterMap_eq_iff (hkey : (l.map key).Nodup)
    (hf : ∀ x ∈ l, ∀ b, f x = some b → name b = key x)
    (hg : ∀ x ∈ l, ∀ b, g x = some b → name b = key x) :
    l.filterMap f = l.filterMap g ↔ ∀ x ∈ l, f x = g x := by
  refine ⟨fun h x hx => Option.ext fun b => ?_, fun h => List.filterMap_congr h⟩
  exact ⟨eq_some_of_filterMap hkey hf hg h hx, eq_some_of_filterMap hkey hg hf h.symm hx⟩

end

theorem entryOf_name {key value : List Byte} {e : StEntry} (he : entryOf key value = some e) :
    e.name = key.take 127 := by
  rw [entryOf] at he
  split at he
  · exact absurd he.symm (Option.some_ne_none e)
  · simp only at he
    split at he
    · exact absurd he.symm (Option.some_ne_none e)
    · obtain ⟨range, -, rfl⟩ := Option.map_eq_some_iff.mp he
      rfl

theorem Member.entryOf_name {m : Member} {e : StEntry} (he : entryOf m.key m.text = some e) :
    e.name = m.key := by
  rw [Safetensors.entryOf_name he]
  apply List.take_of_length_le
  cases m with
  | metadata m => exact show (ascii "__metadata__".toList).length ≤ 127 by decide
  | tensor t => exact Nat.le_of_lt_succ t.short

theorem Member.recorded_name {m : Member} {e : StEntry} (he : m.recorded = some e) :
    e.name = m.key := by
  cases m with
  | metadata m => exact absurd he.symm (Option.some_ne_none e)
  | tensor t =>
      rw [Member.recorded, Tensor.recorded] at he
      split at he
      · obtain rfl := Option.some.inj he
        rfl
      · exact absurd he.symm (Option.some_ne_none e)

/-- What the scan records of a header with values that fit, and where it is what it should be. -/
theorem Header.entries_iff {h : Header} (hbalanced : h.Balanced) (hshort : h.Short) :
    entries h.text = h.recorded ↔ h.Legible := by
  rw [Header.entries_text hbalanced, Header.recorded, filterMap_eq_iff h.distinct
    (fun p _ e => Member.entryOf_name) fun p _ e => Member.recorded_name]
  constructor
  · intro hsame p hp t ht hrec
    obtain ⟨e, he⟩ := Option.ne_none_iff_exists'.mp hrec
    have hentry := hsame p hp
    rw [ht] at hentry
    exact (Tensor.entryOf_recorded he (hshort p hp t ht hrec)).mp (hentry.trans he)
  · intro hlegible p hp
    cases hm : p.2 with
    | metadata m =>
        have hprefix : (ascii "__metadata__".toList).isPrefixOf (ascii "__metadata__".toList) = true := by
          decide
        exact if_pos hprefix
    | tensor t =>
        cases he : t.recorded with
        | none => exact (Tensor.entryOf_skipped he t.name).trans he.symm
        | some e =>
            have hrec : t.recorded ≠ none := by
              rw [he]
              exact Option.some_ne_none e
            have hentry := Tensor.entryOf_recorded he (hshort p hp t hm hrec)
            exact (hentry.mpr (hlegible p hp t hm hrec)).trans he.symm

theorem neutral_nul : Neutral 0 := ⟨by decide, by decide, by decide⟩

theorem nul_plain {s : List Byte} (hs : Plain s) : 0 ∉ s :=
  fun h => absurd (hs 0 h).2.2 (by decide)

theorem StringBody.nul {s : List Byte} (hs : StringBody s) : 0 ∉ s := by
  induction hs with
  | nil => exact List.not_mem_nil
  | plain hc _ ih =>
      refine not_mem_cons ?_ ih
      rintro rfl
      exact absurd hc.2.2 (by decide)
  | escape hc _ ih =>
      refine not_mem_cons (by decide) (not_mem_cons ?_ ih)
      rintro rfl
      exact absurd hc (by decide)

theorem nul_object {gap : Space} {pairs : List (List Byte)} (hpairs : ∀ s ∈ pairs, 0 ∉ s) :
    0 ∉ object gap pairs := by
  apply not_mem_cons (by decide)
  apply not_mem_append (not_mem_append (neutral_nul.not_space gap) (neutral_nul.not_commas hpairs))
  exact not_mem_cons (by decide) List.not_mem_nil

theorem Member.nul (m : Member) : 0 ∉ m.key ∧ 0 ∉ m.text := by
  cases m with
  | metadata m =>
      refine ⟨show 0 ∉ ascii "__metadata__".toList by decide, nul_object fun s hs => ?_⟩
      obtain ⟨e, he, rfl⟩ := List.mem_map.mp hs
      obtain ⟨hkey, hvalue⟩ := m.strings e he
      exact neutral_nul.not_pair (by decide) _ hkey.nul (Neutral.not_quoted (by decide) hvalue.nul)
  | tensor t =>
      refine ⟨nul_plain t.plain, nul_object fun s hs => ?_⟩
      obtain ⟨f, -, rfl⟩ := List.mem_map.mp hs
      exact neutral_nul.not_field (by decide) (nul_plain t.word.1) f (by cases f <;> decide)

/-- The text of a header has no end before its own. -/
theorem Header.nul (h : Header) : 0 ∉ h.text := by
  apply not_mem_append _ (neutral_nul.not_space h.tail)
  apply nul_object
  intro s hs
  obtain ⟨p, -, rfl⟩ := List.mem_map.mp hs
  exact neutral_nul.not_pair (by decide) p.1 p.2.nul.1 p.2.nul.2

theorem stOpen_eq {h : Header} {file : List Byte} (hfile : HasHeader file h) :
    stOpen file =
      if 2 ^ 26 < h.text.length then none else some ⟨8 + h.text.length, entries h.text⟩ := by
  obtain ⟨hsize, hload, htext⟩ := hfile
  have hpos : 0 < h.text.length := Nat.succ_pos _
  have hnul : h.text.takeWhile (· != 0) = h.text := by
    apply List.takeWhile_eq_self_iff.mpr
    intro c hc
    exact bne_iff_ne.mpr fun h0 => h.nul (h0 ▸ hc)
  simp only [stOpen, hload, htext, hnul]
  by_cases hbig : 2 ^ 26 < h.text.length
  · rw [if_pos (Or.inr (Or.inr hbig)), if_pos hbig]
  · rw [if_neg (by omega), if_neg (by omega), if_neg hbig]

/-- Where no brace in the metadata misleads the count and every value fits the buffer, the tensors
are recorded exactly where the header is no longer than the parser takes, and legible. -/
theorem st_open_records_iff {h : Header} {file : List Byte} (hfile : HasHeader file h)
    (hbalanced : h.Balanced) (hshort : h.Short) :
    stOpen file = some ⟨8 + h.text.length, h.recorded⟩ ↔ h.text.length ≤ 2 ^ 26 ∧ h.Legible := by
  rw [stOpen_eq hfile, ← Header.entries_iff hbalanced hshort]
  split
  · rename_i hbig
    exact iff_of_false (Option.some_ne_none _).symm fun hall => absurd hbig (Nat.not_lt.mpr hall.1)
  · rename_i hbig
    rw [Option.some.injEq, StCtx.mk.injEq]
    exact ⟨fun hall => ⟨Nat.le_of_not_lt hbig, hall.2⟩, fun hall => ⟨rfl, hall.2⟩⟩

/-! A brace in the metadata -/

def noSpace : Space := ⟨[], fun _ hc => absurd hc List.not_mem_nil⟩

def compact : Spacing := ⟨noSpace, noSpace, noSpace, noSpace⟩

def digitNumber (d : Char) (h : isDigit (chr d) = true) : Number where
  before := noSpace
  digits := [chr d]
  after := noSpace
  nonempty := List.cons_ne_nil _ _
  isDigit := fun _ hc => List.mem_singleton.mp hc ▸ h
  fits := by
    rw [decimal, List.foldl_cons, List.foldl_nil]
    have hbyte := (chr d).isLt
    omega

/-- One value of four bytes. -/
def oneTensor : Tensor where
  name := [chr 'w']
  dtype := ascii "F32".toList
  shape := [digitNumber '1' rfl]
  start := digitNumber '0' rfl
  stop := digitNumber '4' rfl
  order := [.dtype, .shape, .dataOffsets]
  spacing := fun _ => compact
  gap := fun _ => noSpace
  plain := by unfold Plain; decide
  short := by decide
  word := by unfold Plain; decide
  dims := by decide
  ordered := by decide
  complete := List.Perm.refl _

/-- One string of metadata, one character long, and one tensor. -/
def noteHeader (c : Byte) (hc : c ≠ chr '"' ∧ c ≠ chr '\\' ∧ 32 ≤ c.toNat) : Header where
  members := [(compact, .metadata {
      entries := [(compact, [chr 'a'], [c])]
      gap := noSpace
      strings := fun _ he => by
        obtain rfl := List.mem_singleton.mp he
        exact ⟨.plain (by decide) .nil, .plain hc .nil⟩ }),
    (compact, .tensor oneTensor)]
  gap := noSpace
  tail := noSpace
  distinct := show [ascii "__metadata__".toList, [chr 'w']].Nodup by decide

def noteFile (h : Header) : List Byte :=
  LittleEndian.bytes 8 h.text.length ++ h.text ++ List.replicate 4 0

def letterHeader : Header := noteHeader (chr 'b') (by decide)

theorem letterHeader_members {p : Spacing × Member} (hp : p ∈ letterHeader.members) :
    (∃ m, p.2 = .metadata m ∧ m.gap.val ++ commas m.pairs = ascii "\"a\":\"b\"".toList) ∨
      p.2 = .tensor oneTensor := by
  rcases List.mem_cons.mp hp with rfl | hp
  · exact Or.inl ⟨_, rfl, by decide⟩
  · rw [List.mem_singleton.mp hp]
    exact Or.inr rfl

theorem st_open_records_letter :
    stOpen (noteFile letterHeader) = some ⟨8 + letterHeader.text.length, letterHeader.recorded⟩ := by
  have hfile : HasHeader (noteFile letterHeader) letterHeader :=
    ⟨by decide, by decide, by decide⟩
  refine (st_open_records_iff hfile ?_ ?_).mpr ⟨by decide, ?_⟩
  · intro p hp m hm
    rcases letterHeader_members hp with ⟨m', hm', htext⟩ | ht
    · obtain rfl := Member.metadata.inj (hm.symm.trans hm')
      rw [htext]
      unfold Balanced
      decide
    · exact Member.noConfusion (hm.symm.trans ht)
  · intro p hp t ht hrec
    rcases letterHeader_members hp with ⟨m', hm', -⟩ | ht'
    · exact Member.noConfusion (ht.symm.trans hm')
    · obtain rfl := Member.tensor.inj (ht.symm.trans ht')
      decide
  · intro p hp t ht hrec
    rcases letterHeader_members hp with ⟨m', hm', -⟩ | ht'
    · exact Member.noConfusion (ht.symm.trans hm')
    · obtain rfl := Member.tensor.inj (ht.symm.trans ht')
      exact ⟨fun n hn => absurd hn List.not_mem_nil,
        Or.inl fun c hc => absurd hc List.not_mem_nil, by decide⟩

def braceHeader : Header := noteHeader (chr '\x7d') (by decide)

/-- The brace ends the metadata early: the tensor is recorded under a name that is none. -/
theorem st_open_brace : HasHeader (noteFile braceHeader) braceHeader ∧
    stOpen (noteFile braceHeader) ≠ some ⟨8 + braceHeader.text.length, braceHeader.recorded⟩ ∧
    braceHeader.recorded.map StEntry.name = [[chr 'w']] ∧
    ((stOpen (noteFile braceHeader)).map fun st => st.e.map StEntry.name) =
      some [ascii "\x7d,".toList] := by
  refine ⟨⟨?_, ?_, ?_⟩, ?_, ?_, ?_⟩ <;> decide

end ShannonPrime.Transcode.Safetensors
