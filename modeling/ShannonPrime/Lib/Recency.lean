import Mathlib.Data.List.Nodup
import Mathlib.Logic.Function.Basic
import Mathlib.Tactic.Common

/-!
A doubly linked list over arrays of links, from the entry used last to the one used longest ago.
-/

namespace ShannonPrime.Recency

variable {ι : Type*} [DecidableEq ι]

structure Links (ι : Type*) where
  prev : ι → Option ι
  next : ι → Option ι
  head : Option ι
  tail : Option ι

/-- The neighbour before `s`, or the head, gets what is behind it. -/
def skipNext (l : Links ι) (s : ι) : Links ι :=
  match l.prev s with
  | some p => { l with next := Function.update l.next p (l.next s) }
  | none => { l with head := l.next s }

/-- The neighbour behind `s`, or the tail, gets what is before it. -/
def skipPrev (l : Links ι) (s : ι) : Links ι :=
  match l.next s with
  | some n => { l with prev := Function.update l.prev n (l.prev s) }
  | none => { l with tail := l.prev s }

def unlink (l : Links ι) (s : ι) : Links ι := skipPrev (skipNext l s) s

def pushFront (l : Links ι) (s : ι) : Links ι :=
  let prev := Function.update l.prev s none
  { prev := match l.head with
      | some h => Function.update prev h (some s)
      | none => prev
    next := Function.update l.next s l.head
    head := some s
    tail := match l.tail with
      | some t => some t
      | none => some s }

def touch (l : Links ι) (s : ι) : Links ι := pushFront (unlink l s) s

/-! ## The order -/

/-- The links of a stretch between two entries. -/
def Segment (prev next : ι → Option ι) : Option ι → List ι → Option ι → Prop
  | _, [], _ => True
  | p, s :: l, q => prev s = p ∧ next s = l.head?.or q ∧ Segment prev next (some s) l q

/-- The links are those of the order. -/
structure Represents (l : Links ι) (order : List ι) : Prop where
  nodup : order.Nodup
  head : l.head = order.head?
  tail : l.tail = order.getLast?
  links : Segment l.prev l.next none order none

section Segments

variable {prev next prev' next' : ι → Option ι} {l m : List ι} {p q : Option ι}

omit [DecidableEq ι] in
theorem segment_append : Segment prev next p (l ++ m) q ↔
    Segment prev next p l (m.head?.or q) ∧ Segment prev next (l.getLast?.or p) m q := by
  induction l generalizing p with
  | nil => simp only [List.nil_append, Segment, List.getLast?_nil, Option.none_or, true_and]
  | cons s l ih =>
      have hhead : (l ++ m).head?.or q = l.head?.or (m.head?.or q) := by
        rw [List.head?_append, Option.or_assoc]
      have hlast : (s :: l).getLast?.or p = l.getLast?.or (some s) := by
        cases l with
        | nil => rfl
        | cons x l => rw [List.getLast?_cons_cons, List.getLast?_cons]; rfl
      rw [List.cons_append, Segment, Segment, ih, hhead, hlast, and_assoc, and_assoc]

omit [DecidableEq ι] in
theorem Segment.congr (h : Segment prev next p l q) (hprev : ∀ s ∈ l, prev' s = prev s)
    (hnext : ∀ s ∈ l, next' s = next s) : Segment prev' next' p l q := by
  induction l generalizing p with
  | nil => trivial
  | cons s l ih =>
      obtain ⟨hp, hn, hrest⟩ := h
      refine ⟨by rw [hprev s List.mem_cons_self, hp], by rw [hnext s List.mem_cons_self, hn],
        ih hrest (fun x hx => hprev x (List.mem_cons_of_mem _ hx))
          fun x hx => hnext x (List.mem_cons_of_mem _ hx)⟩

/-- The last entry of a stretch may lead elsewhere. -/
theorem Segment.relink_last (h : Segment prev next p l q) (hnodup : l.Nodup) (q' : Option ι)
    (hl : l ≠ []) :
    Segment prev (Function.update next (l.getLast hl) q') p l q' := by
  obtain ⟨front, s, rfl⟩ := (List.eq_nil_or_concat' l).resolve_left hl
  obtain ⟨-, -, hdisjoint⟩ := List.nodup_append.mp hnodup
  obtain ⟨hfront, hp, -, -⟩ := segment_append.mp h
  have hlast : (front ++ [s]).getLast hl = s := List.getLast_concat
  rw [hlast]
  refine segment_append.mpr ⟨hfront.congr (fun _ _ => rfl) fun x hx => ?_, hp, ?_, trivial⟩
  · exact Function.update_of_ne (hdisjoint x hx s List.mem_cons_self) _ _
  · rw [Function.update_self]
    rfl

/-- The first entry of a stretch may lead back elsewhere. -/
theorem Segment.relink_first {s : ι} (h : Segment prev next p (s :: l) q) (hs : s ∉ l)
    {p' : Option ι} : Segment (Function.update prev s p') next p' (s :: l) q := by
  obtain ⟨-, hn, hrest⟩ := h
  refine ⟨Function.update_self _ _ _, hn, hrest.congr (fun x hx => ?_) fun _ _ => rfl⟩
  apply Function.update_of_ne
  rintro rfl
  exact hs hx

end Segments

section Operations

variable {l : Links ι} {order : List ι} {s : ι}

theorem Represents.pushFront (h : Represents l order) (hs : s ∉ order) :
    Represents (pushFront l s) (s :: order) := by
  obtain ⟨hnodup, hhead, htail, hlinks⟩ := h
  refine ⟨List.nodup_cons.mpr ⟨hs, hnodup⟩, rfl, ?_, ?_⟩
  · rw [Recency.pushFront, htail, List.getLast?_cons]
    cases order.getLast? <;> rfl
  · cases order with
    | nil =>
        rw [Recency.pushFront, hhead]
        exact ⟨Function.update_self _ _ _, Function.update_self _ _ _, trivial⟩
    | cons t order =>
        rw [Recency.pushFront, hhead]
        have hne : ∀ x ∈ t :: order, x ≠ s := by
          rintro x hx rfl
          exact hs hx
        have hst := hne t List.mem_cons_self
        refine ⟨?_, Function.update_self _ _ _, ?_⟩
        · rw [List.head?_cons]
          dsimp only
          rw [Function.update_of_ne hst.symm, Function.update_self]
        · have hkept : Segment (Function.update l.prev s none) (Function.update l.next s (some t))
              none (t :: order) none :=
            hlinks.congr (fun x hx => Function.update_of_ne (hne x hx) _ _)
              fun x hx => Function.update_of_ne (hne x hx) _ _
          exact hkept.relink_first (List.nodup_cons.mp hnodup).1

/-- The entries before `s` lead past it. -/
theorem Represents.skipNext {pre post : List ι} (h : Represents l (pre ++ s :: post)) :
    (skipNext l s).prev = l.prev ∧ (skipNext l s).tail = l.tail ∧
      (skipNext l s).next s = post.head? ∧ (skipNext l s).head = (pre ++ post).head? ∧
      Segment l.prev (skipNext l s).next none pre post.head? ∧
      Segment l.prev (skipNext l s).next (some s) post none := by
  obtain ⟨hnodup, hhead, -, hlinks⟩ := h
  obtain ⟨hpre, hprev, hnext, hpost⟩ := segment_append.mp hlinks
  rw [Option.or_none] at hprev hnext
  obtain ⟨hnodupPre, hnodupPost, hdisjoint⟩ := List.nodup_append.mp hnodup
  rcases List.eq_nil_or_concat' pre with rfl | ⟨front, p, rfl⟩
  · have hskip : Recency.skipNext l s = { l with head := l.next s } := by
      rw [Recency.skipNext, hprev]
      rfl
    rw [hskip]
    exact ⟨rfl, rfl, hnext, hnext, trivial, hpost⟩
  · have hskip : Recency.skipNext l s = { l with next := Function.update l.next p (l.next s) } := by
      rw [Recency.skipNext, hprev, List.getLast?_concat]
    have hne : ∀ x ∈ s :: post, x ≠ p := fun x hx =>
      (hdisjoint p (List.mem_append_right _ List.mem_cons_self) x hx).symm
    rw [hskip, hnext]
    refine ⟨rfl, rfl, ?_, ?_, ?_, ?_⟩
    · dsimp only
      rw [Function.update_of_ne (hne s List.mem_cons_self), hnext]
    · cases front <;> exact hhead
    · have hrelink := hpre.relink_last hnodupPre post.head?
        (List.append_ne_nil_of_right_ne_nil _ (List.cons_ne_nil _ _))
      rw [List.getLast_concat] at hrelink
      exact hrelink
    · apply hpost.congr (fun _ _ => rfl)
      intro x hx
      exact Function.update_of_ne (hne x (List.mem_cons_of_mem _ hx)) _ _

/-- An entry comes out of the order. -/
theorem Represents.unlink (h : Represents l order) (hs : s ∈ order) :
    Represents (unlink l s) (order.erase s) := by
  obtain ⟨pre, post, rfl⟩ := List.append_of_mem hs
  obtain ⟨hprev, htail, hnext, hhead, hpre, hpost⟩ := h.skipNext
  obtain ⟨hnodup, -, htail', hlinks⟩ := h
  obtain ⟨-, hprevs, -, -⟩ := segment_append.mp hlinks
  rw [Option.or_none, ← hprev] at hprevs
  obtain ⟨hnodupPre, hnodupPost, hdisjoint⟩ := List.nodup_append.mp hnodup
  have hspre : s ∉ pre := fun hmem => hdisjoint s hmem s List.mem_cons_self rfl
  have herase : (pre ++ s :: post).erase s = pre ++ post := by
    rw [List.erase_append_right _ hspre, List.erase_cons_head]
  have hnodup' : (pre ++ post).Nodup := hnodup.sublist <|
    (List.Sublist.refl pre).append (List.sublist_cons_self s post)
  rw [herase, Recency.unlink]
  cases post with
  | nil =>
      have hskip : skipPrev (Recency.skipNext l s) s =
          { Recency.skipNext l s with tail := pre.getLast? } := by
        rw [skipPrev, hnext, hprevs]
        rfl
      rw [hskip]
      refine ⟨hnodup', hhead, by rw [List.append_nil], ?_⟩
      rw [List.append_nil]
      dsimp only
      rw [hprev]
      exact hpre
  | cons n post =>
      have hskip : skipPrev (Recency.skipNext l s) s = { Recency.skipNext l s with
          prev := Function.update (Recency.skipNext l s).prev n pre.getLast? } := by
        rw [skipPrev, hnext, hprevs]
        rfl
      rw [hskip, hprev]
      refine ⟨hnodup', hhead, ?_, segment_append.mpr ⟨?_, ?_⟩⟩
      · dsimp only
        rw [htail, htail', List.getLast?_append, List.getLast?_append, List.getLast?_cons_cons]
      · apply hpre.congr (fun x hx => ?_) fun _ _ => rfl
        apply Function.update_of_ne
        exact hdisjoint x hx n (List.mem_cons_of_mem _ List.mem_cons_self)
      · rw [Option.or_none]
        exact hpost.relink_first (List.nodup_cons.mp (List.nodup_cons.mp hnodupPost).2).1

/-- The entry used last is the first. -/
theorem Represents.touch (h : Represents l order) (hs : s ∈ order) :
    Represents (touch l s) (s :: order.erase s) :=
  (h.unlink hs).pushFront h.nodup.not_mem_erase

end Operations

end ShannonPrime.Recency
