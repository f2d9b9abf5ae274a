import Mathlib.Data.List.Nodup
import Mathlib.Data.List.Range
import ShannonPrime.Diffusion.Forward

/-!
What a pass makes of one row. The batches of the experts come apart again into the rows
of their tokens, so a computed row of a layer is a function of the same row of the input
and of the K/V the layer attends to.
-/

namespace ShannonPrime.Diffusion

/-! ### The tables -/

section Tables

variable {F : Type} (entries : List (Entry F))

theorem offset_le {e e' : Nat} (h : e < e') :
    offset entries e + count entries e ≤ offset entries e' := by
  induction e' with
  | zero => cases h
  | succ k ih =>
      rcases Nat.lt_or_eq_of_le (Nat.le_of_lt_succ h) with hlt | rfl
      · exact (ih hlt).trans (Nat.le_add_right _ _)
      · exact le_refl _

/-- The places of two experts do not overlap. -/
theorem offset_inj {e e' j j' : Nat} (hj : j < count entries e) (hj' : j' < count entries e')
    (h : offset entries e + j = offset entries e' + j') : e = e' ∧ j = j' := by
  rcases Nat.lt_trichotomy e e' with hlt | rfl | hlt
  · have := offset_le entries hlt
    omega
  · exact ⟨rfl, by omega⟩
  · have := offset_le entries hlt
    omega

theorem count_append (done : List (Entry F)) (en : Entry F) (e : Nat) :
    count (done ++ [en]) e = count done e + if en.expert = e then 1 else 0 := by
  simp [count, List.countP_cons]

theorem count_le_append (done rest : List (Entry F)) (e : Nat) :
    count done e ≤ count (done ++ rest) e := by
  simp [count]

def Entry.target (en : Entry F) : Nat × F := (en.tok, en.weight)

/-- After a part of the entries, each expert has its entries so far, in order. -/
theorem fill_done (done rest : List (Entry F)) (hentries : entries = done ++ rest) :
    let tb := done.foldl (Tables.fill (offset entries)) ⟨fun _ => 0, fun _ => none⟩
    (∀ e, tb.cur e = count done e) ∧
      ∀ e j, j < count done e →
        tb.slot (offset entries e + j) =
          ((done.filter fun en => en.expert == e).map Entry.target)[j]? := by
  induction done using List.reverseRecOn generalizing rest with
  | nil =>
      constructor
      · intro e
        rfl
      · intro e j hj
        cases hj
  | append_singleton done en ih =>
      obtain ⟨hcur, hslot⟩ := ih (en :: rest) (by simpa using hentries)
      simp only [List.foldl_append, List.foldl_cons, List.foldl_nil]
      constructor
      · intro e
        rw [count_append]
        by_cases he : en.expert = e
        · subst he
          simp [Tables.fill, hcur]
        · simp [Tables.fill, Function.update_of_ne (Ne.symm he), hcur, he]
      · intro e j hj
        have hroom : count done en.expert < count entries en.expert := by
          have hle := count_le_append (done ++ [en]) rest en.expert
          rw [count_append, if_pos rfl, ← hentries] at hle
          omega
        have hin : j < count entries e := by
          have hle := count_le_append (done ++ [en]) rest e
          rw [← hentries] at hle
          omega
        have hlen : ((done.filter fun en => en.expert == e).map Entry.target).length =
            count done e := by
          simp [count, List.countP_eq_length_filter]
        rw [List.filter_append, List.map_append]
        simp only [Tables.fill, hcur]
        rcases Nat.lt_or_ge j (count done e) with hold | hnew
        · have hne : offset entries e + j ≠ offset entries en.expert + count done en.expert := by
            intro heq
            obtain ⟨rfl, rfl⟩ := offset_inj entries hin hroom heq
            exact absurd hold (lt_irrefl _)
          rw [Function.update_of_ne hne, hslot e j hold, List.getElem?_append_left (by omega)]
        · have he : en.expert = e := by
            by_contra he
            rw [count_append, if_neg he] at hj
            omega
          subst he
          have hjeq : j = count done en.expert := by
            rw [count_append, if_pos rfl] at hj
            omega
          subst hjeq
          rw [Function.update_self, List.getElem?_append_right (by omega), hlen]
          simp [Entry.target]

theorem build_slot (e j : Nat) (hj : j < count entries e) :
    (Tables.build entries).slot (offset entries e + j) =
      ((entries.filter fun en => en.expert == e).map Entry.target)[j]? :=
  (fill_done entries entries [] (by simp)).2 e j hj

end Tables

/-- A loop over the places of a list is a fold. -/
theorem foldl_range_getElem? {α β : Type} (f : β → α → β) (l : List α) (b : β) :
    (List.range l.length).foldl (fun b j => match l[j]? with | some x => f b x | none => b) b =
      l.foldl f b := by
  have htaken : ∀ k, k ≤ l.length →
      (List.range k).foldl (fun b j => match l[j]? with | some x => f b x | none => b) b =
        (l.take k).foldl f b := by
    intro k
    induction k with
    | zero => intro _; rfl
    | succ k ih =>
        intro hk
        rw [List.range_succ, List.foldl_append, ih (by omega), List.take_add_one,
          List.foldl_append, List.foldl_cons, List.foldl_nil, List.getElem?_eq_getElem hk]
        rfl
  rw [htaken l.length le_rfl, List.take_length]

/-- A fold of updates changes a row by the entries of that row. -/
theorem foldl_update_row {R α : Type} (row : α → Nat) (f : R → α → R) (l : List α)
    (rows : Rows R) (t : Nat) :
    l.foldl (fun rows a => Function.update rows (row a) (f (rows (row a)) a)) rows t =
      (l.filter fun a => row a == t).foldl f (rows t) := by
  induction l generalizing rows with
  | nil => rfl
  | cons a l ih =>
      rw [List.foldl_cons, ih]
      by_cases ha : row a = t
      · subst ha
        rw [List.filter_cons_of_pos (by simp), List.foldl_cons, Function.update_self]
      · rw [List.filter_cons_of_neg (by simpa using ha), Function.update_of_ne (Ne.symm ha)]

/-- The entries of one token in a scan over all. -/
theorem flatMap_range'_filter {β : Type} (f : Nat → List β) (row : β → Nat)
    (hrow : ∀ t, ∀ b ∈ f t, row b = t) (base k t : Nat) (hbase : base ≤ t) (ht : t < base + k) :
    ((List.range' base k).flatMap f).filter (fun b => row b == t) = f t := by
  have hself : (f t).filter (fun b => row b == t) = f t := by
    apply List.filter_eq_self.mpr
    intro b hb
    simpa using hrow t b hb
  have hother : ∀ t', t' ≠ t → (f t').filter (fun b => row b == t) = [] := by
    intro t' hne
    apply List.filter_eq_nil_iff.mpr
    intro b hb
    simpa [hrow t' b hb] using hne
  have hnone : ∀ k base, (∀ t', base ≤ t' → t' < base + k → t' ≠ t) →
      ((List.range' base k).flatMap f).filter (fun b => row b == t) = [] := by
    intro k
    induction k with
    | zero => simp
    | succ k ih =>
        intro base hbase
        rw [List.range'_succ, List.flatMap_cons, List.filter_append,
          hother base (hbase base le_rfl (by omega)), List.nil_append]
        apply ih
        intro t' hle hlt
        exact hbase t' (by omega) (by omega)
  induction k generalizing base with
  | zero => omega
  | succ k ih =>
      rw [List.range'_succ, List.flatMap_cons, List.filter_append]
      rcases Nat.lt_or_eq_of_le hbase with hlt | rfl
      · rw [hother base (by omega), List.nil_append]
        exact ih (base + 1) (by omega) (by omega)
      · rw [hself, hnone k (base + 1) (by intro t' hle _; omega), List.append_nil]

namespace Model

variable {R H F : Type} (m : Model R H F)

/-! ### The mixture of experts, row by row -/

theorem expertBatch_eq (L e : Nat) (entries : List (Entry F)) (hidden moe : Rows R) :
    m.expertBatch L entries hidden moe e =
      (entries.filter fun en => en.expert == e).foldl
        (fun moe en => Function.update moe en.tok
          (m.axpy (moe en.tok) en.weight (m.expertRow L e (hidden en.tok)))) moe := by
  have hlen : ((entries.filter fun en => en.expert == e).map Entry.target).length =
      count entries e := by
    simp [count, List.countP_eq_length_filter]
  have hfold := foldl_range_getElem? (fun (moe : Rows R) (p : Nat × F) =>
      Function.update moe p.1 (m.axpy (moe p.1) p.2 (m.expertRow L e (hidden p.1))))
    ((entries.filter fun en => en.expert == e).map Entry.target) moe
  rw [hlen, List.foldl_map] at hfold
  rw [expertBatch]
  refine Eq.trans ?_ hfold
  apply List.foldl_ext
  intro moe' j hj
  rw [build_slot entries e j (List.mem_range.mp hj)]
  cases ((entries.filter fun en => en.expert == e).map Entry.target)[j]? <;> rfl

/-- What the experts make of one token. -/
def moeRow (m : Model R H F) (L : Nat) (x hidden : R) : R :=
  (List.range m.nExpert).foldl
    (fun acc e => ((m.route L x).filter fun p => p.1 == e).foldl
      (fun acc p => m.axpy acc p.2 (m.expertRow L e hidden)) acc)
    m.moeZero

theorem moe_row {L base n t : Nat} (x hidden : Rows R) (hbase : base ≤ t) (ht : t < n) :
    m.moe L base n x hidden t = m.moeRow L (x t) (hidden t) := by
  have hrow : ∀ t', ∀ en ∈ (m.route L (x t')).map fun p => (⟨t', p.1, p.2⟩ : Entry F),
      en.tok = t' := by
    intro t' en hen
    obtain ⟨p, _, rfl⟩ := List.mem_map.mp hen
    rfl
  have hentries : ∀ e, ((m.entries L base n x).filter fun en => en.expert == e).filter
      (fun en => en.tok == t) =
        ((m.route L (x t)).filter fun p => p.1 == e).map fun p => ⟨t, p.1, p.2⟩ := by
    intro e
    rw [List.filter_comm, entries,
      flatMap_range'_filter _ Entry.tok hrow base (n - base) t hbase (by omega),
      List.filter_map]
    rfl
  have hstep : ∀ (moe : Rows R) e, m.expertBatch L (m.entries L base n x) hidden moe e t =
      ((m.route L (x t)).filter fun p => p.1 == e).foldl
        (fun acc p => m.axpy acc p.2 (m.expertRow L e (hidden t))) (moe t) := by
    intro moe e
    rw [m.expertBatch_eq, foldl_update_row Entry.tok
      (fun acc en => m.axpy acc en.weight (m.expertRow L e (hidden en.tok))), hentries,
      List.foldl_map]
  have hrun : ∀ (l : List Nat) (moe : Rows R),
      l.foldl (m.expertBatch L (m.entries L base n x) hidden) moe t =
        l.foldl (fun acc e => ((m.route L (x t)).filter fun p => p.1 == e).foldl
          (fun acc p => m.axpy acc p.2 (m.expertRow L e (hidden t))) acc) (moe t) := by
    intro l
    induction l with
    | nil => intro _; rfl
    | cons e l ih =>
        intro moe
        rw [List.foldl_cons, List.foldl_cons, ih, hstep]
  exact hrun _ _

/-! ### A row of a layer -/

def queryRow (m : Model R H F) (L t : Nat) (x : R) : R :=
  m.rope L t (m.qNorm L (m.qProj L (m.attnNorm L x)))

def keyRow (m : Model R H F) (L t : Nat) (x : R) : R :=
  m.rope L t (m.kNorm L (m.kProj L (m.attnNorm L x)))

def valueRow (m : Model R H F) (L : Nat) (x : R) : R :=
  m.vNorm L (if m.hasV L then m.vProj L (m.attnNorm L x) else m.kProj L (m.attnNorm L x))

def tailRow (m : Model R H F) (L : Nat) (inPrompt : Bool) (x ao : R) : R :=
  let x1 := m.add x (m.postAttnNorm L (m.oProj L ao))
  let n1 := m.ffnNorm L x1
  let mlp := m.ffnDown L (m.geluMul (m.ffnGate L n1) (m.ffnUp L n1))
  let ffn := m.add (m.postFfwNorm1 L mlp)
    (m.postFfwNorm2 L (m.moeRow L x1 (m.preFfwNorm2 L x1)))
  let y := m.add (m.postFfwNorm L ffn) x1
  if inPrompt then m.encScale L y else m.decScale L y

def layerRow (m : Model R H F) (L P n t : Nat) (x : R) (kv : Rows R × Rows R) : R :=
  m.tailRow L (t < P) x (m.attend L P n (m.queryRow L t x) kv.1 kv.2 t)

theorem rowsFrom_of_le {base t : Nat} (h : base ≤ t) (old new : Rows R) :
    rowsFrom base old new t = new t :=
  if_neg (Nat.not_lt.mpr h)

variable {pass : Pass R} {L t : Nat}

theorem freshKV_row (pass : Pass R) (L : Nat) {t : Nat} (x : Rows R) (hbase : pass.base ≤ t) :
    (m.freshKV pass L fun t => m.attnNorm L (x t)).1 t = m.keyRow L t (x t) ∧
      (m.freshKV pass L fun t => m.attnNorm L (x t)).2 t = m.valueRow L (x t) := by
  unfold freshKV keyRow valueRow
  dsimp only
  constructor
  · rw [rowsFrom_of_le hbase]
  · split
    case isTrue => rw [rowsFrom_of_le hbase]
    case isFalse => rw [rowsFrom_of_le hbase]

theorem layerOn_row (st : Residual R) (kv : Rows R × Rows R) (hbase : pass.base ≤ t)
    (ht : t < pass.nTok) :
    (m.layerOn pass L st kv).x t = m.layerRow L pass.promptRows pass.nTok t (st.x t) kv := by
  simp only [layerOn, layerTail, layerRow, tailRow, queries, queryRow, rowsFrom_of_le hbase,
    m.moe_row _ _ hbase ht, decide_eq_true_eq]

theorem layer_row {st out : Residual R} {kv : Rows R × Rows R} (hkv : m.useKV pass L st = some kv)
    (hout : m.layer pass L st = some out) (hbase : pass.base ≤ t) (ht : t < pass.nTok) :
    out.x t = m.layerRow L pass.promptRows pass.nTok t (st.x t) kv := by
  rw [layer, hkv] at hout
  cases hout
  exact m.layerOn_row st kv hbase ht

end Model

/-! ### Two passes -/

theorem rel_bind {α α' β β' : Type} {r : α → α' → Prop} {r' : β → β' → Prop} {o : Option α}
    {o' : Option α'} {f : α → Option β} {f' : α' → Option β'} (ho : Option.Rel r o o')
    (hf : ∀ a a', o = some a → o' = some a' → r a a' → Option.Rel r' (f a) (f' a')) :
    Option.Rel r' (o.bind f) (o'.bind f') := by
  cases ho with
  | none => exact .none
  | some h => exact hf _ _ rfl rfl h

theorem rel_some {α β : Type} {r : α → β → Prop} {a : α} {o : Option β}
    (h : Option.Rel r (some a) o) : ∃ b, o = some b ∧ r a b := by
  cases h with
  | some h => exact ⟨_, rfl, h⟩

theorem rel_some_right {α β : Type} {r : α → β → Prop} {o : Option α} {b : β}
    (h : Option.Rel r o (some b)) : ∃ a, o = some a ∧ r a b := by
  cases h with
  | some h => exact ⟨_, rfl, h⟩

/-- The K/V of two passes agree on some rows. -/
def SameKV {R : Type} (keys : Nat → Prop) (kv kv' : Rows R × Rows R) : Prop :=
  ∀ s, keys s → kv.1 s = kv'.1 s ∧ kv.2 s = kv'.2 s

/-- Two passes agree on some rows of the residual and some rows of every layer's K/V. -/
structure AgreeOn {R : Type} (rows keys : Nat → Prop) (st st' : Residual R) : Prop where
  x : ∀ t, rows t → st.x t = st'.x t
  kv : ∀ L, Option.Rel (SameKV keys) (st.kv L) (st'.kv L)

namespace Model

variable {R H F : Type} (m : Model R H F) {rows keys : Nat → Prop} {pass pass' : Pass R}
  {st st' : Residual R} {L : Nat}

theorem useKV_agree (pass pass' : Pass R) (L : Nat) (hst : AgreeOn rows keys st st')
    (hown : L < m.kvfs → SameKV keys (m.ownKV pass L st.x) (m.ownKV pass' L st'.x)) :
    Option.Rel (SameKV keys) (m.useKV pass L st) (m.useKV pass' L st') := by
  unfold useKV
  split
  case isTrue howner => exact .some (hown howner)
  case isFalse =>
      cases m.sharedFrom L with
      | ofNat src => exact hst.kv src
      | negSucc _ => exact .none

/-- A layer keeps the agreement, if its attention agrees on the rows. -/
theorem layer_agree (pass pass' : Pass R) (L : Nat)
    (hP : pass.promptRows = pass'.promptRows) (hn : pass.nTok = pass'.nTok)
    (hrows : ∀ t, rows t → pass.base ≤ t ∧ pass'.base ≤ t ∧ t < pass.nTok)
    (hst : AgreeOn rows keys st st')
    (huse : Option.Rel (SameKV keys) (m.useKV pass L st) (m.useKV pass' L st'))
    (hatt : ∀ kv kv', m.useKV pass L st = some kv → m.useKV pass' L st' = some kv' →
      SameKV keys kv kv' → ∀ t, rows t → ∀ q,
        m.attend L pass.promptRows pass.nTok q kv.1 kv.2 t =
          m.attend L pass.promptRows pass.nTok q kv'.1 kv'.2 t) :
    Option.Rel (AgreeOn rows keys) (m.layer pass L st) (m.layer pass' L st') := by
  unfold layer
  rw [Option.map_eq_bind, Option.map_eq_bind]
  apply rel_bind huse
  intro kv kv' hkv hkv' hsame
  apply Option.Rel.some
  constructor
  · intro t ht
    obtain ⟨hbase, hbase', hlt⟩ := hrows t ht
    rw [m.layerOn_row st kv hbase hlt, m.layerOn_row st' kv' hbase' (hn ▸ hlt), ← hP, ← hn,
      ← hst.x t ht, layerRow, layerRow, hatt kv kv' hkv hkv' hsame t ht]
  · intro l
    dsimp only [layerOn]
    split
    case isTrue =>
        rcases eq_or_ne l L with rfl | hne
        · rw [Function.update_self, Function.update_self]
          exact .some hsame
        · rw [Function.update_of_ne hne, Function.update_of_ne hne]
          exact hst.kv l
    case isFalse => exact hst.kv l

end Model

end ShannonPrime.Diffusion
