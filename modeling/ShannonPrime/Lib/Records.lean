import Mathlib.Data.List.Basic
import ShannonPrime.Lib.Fetch

/-!
Records one after another in a run of bytes, each behind its length: where they lie when
`word p` is the length that stands at `p`, in `w` bytes.
-/

namespace ShannonPrime.Records

/-- The start and the length of each of `n` records, the first one's length at `p`. -/
def spans (w : Nat) (word : Nat → Nat) : Nat → Nat → List (Nat × Nat)
  | 0, _ => []
  | n + 1, p => (p + w, word p) :: spans w word n (p + w + word p)

/-- Where `n` records end. -/
def finish (w : Nat) (word : Nat → Nat) : Nat → Nat → Nat
  | 0, p => p
  | n + 1, p => finish w word n (p + w + word p)

/-- Where the last length that is read ends. -/
def lengthsEnd (w : Nat) (word : Nat → Nat) (n p : Nat) : Nat :=
  match n with
  | 0 => p
  | n + 1 => finish w word n p + w

variable {w : Nat} {word word' : Nat → Nat} {n p : Nat}

@[simp] theorem spans_length : (spans w word n p).length = n := by
  induction n generalizing p with
  | zero => rfl
  | succ n ih => rw [spans, List.length_cons, ih]

theorem le_finish : p ≤ finish w word n p := by
  induction n generalizing p with
  | zero => exact Nat.le_refl p
  | succ n ih => exact Nat.le_trans (by omega) ih

/-- A length is read behind the one before it. -/
theorem lengthsEnd_succ : lengthsEnd w word (n + 1) p =
    if n = 0 then p + w else lengthsEnd w word n (p + w + word p) := by
  cases n with
  | zero => rfl
  | succ n => rfl

theorem le_lengthsEnd : p ≤ lengthsEnd w word n p := by
  cases n with
  | zero => exact Nat.le_refl p
  | succ n => exact Nat.le_trans (le_finish (n := n)) (Nat.le_add_right _ _)

theorem lengthsEnd_le_finish : lengthsEnd w word n p ≤ finish w word n p := by
  induction n generalizing p with
  | zero => exact Nat.le_refl p
  | succ n ih =>
      rw [lengthsEnd_succ, finish]
      split
      · exact Nat.le_trans (Nat.le_add_right _ _) le_finish
      · exact ih

/-- Every record ends where the records do or before, and its length stands in front of it. -/
theorem mem_spans {s : Nat × Nat} (h : s ∈ spans w word n p) :
    p + w ≤ s.1 ∧ s.1 + s.2 ≤ finish w word n p := by
  induction n generalizing p with
  | zero => exact absurd h List.not_mem_nil
  | succ n ih =>
      rcases List.mem_cons.mp h with rfl | hrest
      · exact ⟨Nat.le_refl _, le_finish⟩
      · obtain ⟨hlo, hhi⟩ := ih hrest
        exact ⟨by omega, hhi⟩

/-- The records start where the last length ends or before. -/
theorem start_le {s : Nat × Nat} (h : s ∈ spans w word n p) : s.1 ≤ lengthsEnd w word n p := by
  induction n generalizing p with
  | zero => exact absurd h List.not_mem_nil
  | succ n ih =>
      rw [lengthsEnd_succ]
      rcases List.mem_cons.mp h with rfl | hrest
      · split
        · exact Nat.le_refl _
        · exact Nat.le_trans (Nat.le_add_right _ _) le_lengthsEnd
      · rw [if_neg fun hzero => ?_]
        · exact ih hrest
        · rw [hzero] at hrest
          exact absurd hrest List.not_mem_nil

/-- Records that each end within a bound do so together. -/
theorem finish_le {bound : Nat} (hp : p ≤ bound)
    (h : ∀ s ∈ spans w word n p, s.1 + s.2 ≤ bound) : finish w word n p ≤ bound := by
  induction n generalizing p with
  | zero => exact hp
  | succ n ih =>
      exact ih (h _ List.mem_cons_self) fun s hs => h s (List.mem_cons_of_mem _ hs)

/-- The last record, behind the others. -/
theorem spans_succ : spans w word (n + 1) p =
    spans w word n p ++ [(lengthsEnd w word (n + 1) p, word (finish w word n p))] := by
  induction n generalizing p with
  | zero => rfl
  | succ n ih =>
      have hrest := ih (p := p + w + word p)
      rw [spans, hrest]
      rfl

theorem finish_succ : finish w word (n + 1) p =
    lengthsEnd w word (n + 1) p + word (finish w word n p) := by
  induction n generalizing p with
  | zero => rfl
  | succ n ih => exact ih (p := p + w + word p)

/-- Records with the same lengths up to their end lie alike. -/
theorem spans_congr (h : ∀ a, a + w ≤ finish w word n p → word a = word' a) :
    spans w word n p = spans w word' n p ∧ finish w word n p = finish w word' n p := by
  induction n generalizing p with
  | zero => exact ⟨rfl, rfl⟩
  | succ n ih =>
      have hfirst : word p = word' p :=
        h p (Nat.le_trans (Nat.le_add_right _ _) (le_finish (n := n)))
      have hrest := ih (p := p + w + word p) h
      rw [spans, spans, finish, finish, ← hfirst, hrest.1, hrest.2]
      exact ⟨rfl, rfl⟩

end ShannonPrime.Records

/-!
Records written behind their lengths are found again where they were written.
-/

namespace ShannonPrime.Records

open Fetch

/-- The low `w` bytes of a number. -/
def leBytes (w n : Nat) : List UInt8 := (List.range w).map fun k => ⟨LittleEndian.byteOf n k⟩

/-- Records, each behind its length. -/
def put (w : Nat) (texts : List (List UInt8)) : List UInt8 :=
  texts.flatMap fun t => leBytes w t.length ++ t

variable {w : Nat} {before after : List UInt8}

@[simp] theorem leBytes_length (w n : Nat) : (leBytes w n).length = w := by
  rw [leBytes, List.length_map, List.length_range]

/-- Bytes between others. -/
theorem slice_between (text : List UInt8) :
    slice (before ++ (text ++ after)) before.length text.length = text := by
  rw [slice, List.drop_left, List.take_left]

theorem cells_between {text : List UInt8} {k : Nat} (hk : k < text.length) :
    cells (before ++ (text ++ after)) (before.length + k) = cells text k := by
  rw [cells, cells, List.getD_eq_getElem?_getD, List.getD_eq_getElem?_getD,
    List.getElem?_append_right (Nat.le_add_right _ _), Nat.add_sub_cancel_left,
    List.getElem?_append_left hk]

theorem cells_leBytes {n k : Nat} (hk : k < w) : cells (leBytes w n) k = LittleEndian.byteOf n k := by
  rw [cells, leBytes, List.getD_eq_getElem?_getD, List.getElem?_map,
    List.getElem?_range hk]
  rfl

theorem number_between (n : Nat) :
    number (before ++ (leBytes w n ++ after)) before.length w = n % 256 ^ w := by
  apply LittleEndian.load_byteOf
  intro k hk
  rw [cells_between (by rwa [leBytes_length]), cells_leBytes hk]

/-- The records that stand behind `before` in a file are found there, in positions that start
`base` bytes into the file. -/
theorem spans_put {file : List UInt8} {base p : Nat} (hp : before.length = base + p)
    (texts : List (List UInt8)) (hfits : ∀ t ∈ texts, t.length < 256 ^ w)
    (hfile : file = before ++ (put w texts ++ after)) :
    (spans w (fun a => number file (base + a) w) texts.length p).map
        (fun s => slice file (base + s.1) s.2) = texts ∧
      finish w (fun a => number file (base + a) w) texts.length p = p + (put w texts).length := by
  induction texts generalizing before p with
  | nil => exact ⟨rfl, rfl⟩
  | cons t texts ih =>
      have hput : put w (t :: texts) = leBytes w t.length ++ t ++ put w texts := rfl
      have hlen : number file (base + p) w = t.length := by
        rw [← hp, hfile, hput, List.append_assoc, List.append_assoc, number_between]
        exact Nat.mod_eq_of_lt (hfits t List.mem_cons_self)
      have htext : slice file (base + (p + w)) t.length = t := by
        have hat : base + (p + w) = (before ++ leBytes w t.length).length := by
          rw [List.length_append, leBytes_length]
          omega
        have hsplit : file = (before ++ leBytes w t.length) ++ (t ++ (put w texts ++ after)) := by
          rw [hfile, hput]
          simp only [List.append_assoc]
        rw [hat, hsplit, slice_between]
      have hrest := @ih (before ++ leBytes w t.length ++ t) (p + w + t.length)
        (by simp only [List.length_append, leBytes_length]; omega)
        (fun t' ht' => hfits t' (List.mem_cons_of_mem _ ht'))
        (by rw [hfile, hput]; simp only [List.append_assoc])
      rw [List.length_cons, spans, finish, hlen, List.map_cons, htext, hrest.1, hrest.2, hput]
      refine ⟨rfl, ?_⟩
      simp only [List.length_append, leBytes_length]
      omega

/-! Fields of a fixed layout -/

/-- Numbers one after another, each in its width. -/
def fields (l : List (Nat × Nat)) : List UInt8 := l.flatMap fun f => leBytes f.1 f.2

/-- Where a field stands. -/
def fieldAt (l : List (Nat × Nat)) (i : Nat) : Nat := ((l.take i).map Prod.fst).sum

theorem fields_length (l : List (Nat × Nat)) : (fields l).length = (l.map Prod.fst).sum := by
  induction l with
  | nil => rfl
  | cons f l ih =>
      have hcons : fields (f :: l) = leBytes f.1 f.2 ++ fields l := rfl
      rw [hcons, List.length_append, leBytes_length, ih, List.map_cons, List.sum_cons]

theorem number_field {l : List (Nat × Nat)} {i n : Nat} (after : List UInt8) (h : l[i]? = some (w, n)) :
    number (fields l ++ after) (fieldAt l i) w = n % 256 ^ w := by
  obtain ⟨hi, hval⟩ := List.getElem?_eq_some_iff.mp h
  have hsplit : l = l.take i ++ (w, n) :: l.drop (i + 1) := by
    rw [← hval, List.getElem_cons_drop, List.take_append_drop]
  have hbytes : fields l ++ after =
      fields (l.take i) ++ (leBytes w n ++ (fields (l.drop (i + 1)) ++ after)) := by
    conv_lhs => rw [hsplit]
    simp only [fields, List.flatMap_append, List.flatMap_cons, List.append_assoc]
  rw [hbytes, fieldAt, ← fields_length]
  exact number_between n

end ShannonPrime.Records
