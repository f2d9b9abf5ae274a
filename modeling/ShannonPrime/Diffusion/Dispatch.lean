import Mathlib.Algebra.Module.Basic
import Mathlib.Analysis.Complex.Exponential
import Mathlib.Data.List.GetD
import ShannonPrime.Diffusion.Router
import ShannonPrime.Diffusion.Rows
import ShannonPrime.Lib.Buffer

/-!
The expert-major dispatch of the diffusion step: each token routed into a token-major table,
a counting sort into the lists of the experts, and one batch for each expert that has tokens.
Every access to a table is checked. Token by token the output is what the token's own experts
add up to.
-/

namespace ShannonPrime.Diffusion

open Buffer (store)

/-- The sizes, and the first token that is routed. -/
structure Batch where
  nTok : Nat
  NU : Nat
  NE : Nat
  start : Nat

namespace Batch

/-- The tokens routed, in order. -/
def tokens (c : Batch) : List Nat := List.range' c.start (c.nTok - c.start)

/-- The entries of the tables for tokens. -/
def slots (c : Batch) : Nat := c.nTok * c.NU

end Batch

/-- `rt_idx`, `rt_wt` and `et_cnt` -/
structure RoutingTables (K : Type) where
  rtIdx : Nat → Nat
  rtWt : Nat → Val K
  etCnt : Nat → Nat

/-- `et_tok` and `et_w`, and `cur`. -/
structure ExpertLists (K : Type) where
  cur : Nat → Nat
  etTok : Nat → Nat
  etW : Nat → Val K

section Model

variable {K R : Type} [Zero K]

/-- `et_cnt[e]++` -/
def bump (n : Nat) (cnt : Nat → Nat) (e : Nat) : Option (Nat → Nat) :=
  if e < n then some (Function.update cnt e (cnt e + 1)) else none

/-- A token's experts and weights into the tables, and its experts counted. -/
def routeTok (c : Batch) (r : Nat → List (Nat × Val K)) (tb : RoutingTables K) (t : Nat) :
    Option (RoutingTables K) :=
  if t * c.NU + (r t).length ≤ c.slots then do
    let cnt ← (r t).foldlM (fun cnt q => bump c.NE cnt q.1) tb.etCnt
    some {
      rtIdx := store tb.rtIdx (t * c.NU) (r t).length fun k => ((r t).map Prod.fst).getD k 0
      rtWt := store tb.rtWt (t * c.NU) (r t).length fun k => ((r t).map Prod.snd).getD k .nan
      etCnt := cnt }
  else none

def routeAll (c : Batch) (r : Nat → List (Nat × Val K)) : Option (RoutingTables K) :=
  c.tokens.foldlM (routeTok c r) ⟨fun _ => 0, fun _ => .fin 0, fun _ => 0⟩

/-- `et_off` -/
def etOff (cnt : Nat → Nat) : Nat → Nat
  | 0 => 0
  | e + 1 => etOff cnt e + cnt e

/-- The slot `k` of a token goes to the end of its expert's list. -/
def placeSlot (c : Batch) (tb : RoutingTables K) (t : Nat) (ls : ExpertLists K) (k : Nat) :
    Option (ExpertLists K) :=
  let i := t * c.NU + k
  let e := tb.rtIdx i
  let pos := etOff tb.etCnt e + ls.cur e
  if i < c.slots ∧ e < c.NE ∧ pos < c.slots then
    some {
      cur := Function.update ls.cur e (ls.cur e + 1)
      etTok := Function.update ls.etTok pos t
      etW := Function.update ls.etW pos (tb.rtWt i) }
  else none

def fillTok (c : Batch) (tb : RoutingTables K) (ls : ExpertLists K) (t : Nat) :
    Option (ExpertLists K) :=
  (List.range c.NU).foldlM (placeSlot c tb t) ls

def fillAll (c : Batch) (tb : RoutingTables K) : Option (ExpertLists K) :=
  c.tokens.foldlM (fillTok c tb) ⟨fun _ => 0, fun _ => 0, fun _ => .fin 0⟩

/-- The weight as a number. -/
def Val.real : Val K → K
  | .fin x => x
  | _ => 0

variable [AddCommMonoid R] [SMul K R]

/-- The batch of one expert: its tokens' columns gathered, the expert run on them, and each
result added to its token's row. There is room for `n_tok` columns. -/
def expertTurn (c : Batch) (tb : RoutingTables K) (ls : ExpertLists K) (f : Nat → R → R)
    (x : Nat → R) (st : (Nat → R) × (Nat → R)) (e : Nat) : Option ((Nat → R) × (Nat → R)) :=
  let cnt := tb.etCnt e
  let off := etOff tb.etCnt e
  if cnt = 0 then some st
  else if c.nTok < cnt ∨ c.slots < off + cnt then none
  else
    let xb := store st.1 0 cnt fun j => x (ls.etTok (off + j))
    some (xb, (List.range cnt).foldl (fun dmoe j =>
      let t := ls.etTok (off + j)
      Function.update dmoe t (dmoe t + (ls.etW (off + j)).real • f e (xb j))) st.2)

/-- The experts one after another, from a cleared accumulator. -/
def expertLoop (c : Batch) (tb : RoutingTables K) (ls : ExpertLists K) (f : Nat → R → R)
    (x xb : Nat → R) : Option (Nat → R) :=
  ((List.range c.NE).foldlM (expertTurn c tb ls f x) (xb, fun _ => 0)).map Prod.snd

/-- The experts of one token, in the order of its slots. -/
def tokenMajor (f : Nat → R → R) (r : List (Nat × Val K)) (x : R) : R :=
  r.foldl (fun y q => y + q.2.real • f q.1 x) 0

end Model

section Dispatch

variable {K R : Type} [Field K] [LinearOrder K] [AddCommMonoid R] [SMul K R]

/-- The entries of `used`. -/
def usedSize : Nat := 256

/-- The tables, the lists and what the experts add up to, from the logits of the tokens. -/
def dispatch (e : K → K) (c : Batch) (lt : Nat → Nat → Val K) (f : Nat → R → R) (x xb : Nat → R) :
    Option (RoutingTables K × ExpertLists K × (Nat → R)) :=
  if usedSize < c.NE then none
  else do
    let tb ← routeAll c fun t => route e c.NE c.NU (lt t)
    let ls ← fillAll c tb
    let dmoe ← expertLoop c tb ls f x xb
    some (tb, ls, dmoe)

end Dispatch

section Reference

variable {K R : Type} [Field K] [LinearOrder K] [AddCommMonoid R] [SMul K R]

/-- One turn of the selection of `gemma4_moe_ffn_cuda`, where no index stands for none. -/
def pickPlain (h : Nat → Val K) (NE : Nat) (s : Picks K) : Option (Picks K) :=
  match scanBest h s.used NE with
  | (some i, bv) => some ⟨Function.update s.used i true, s.out ++ [(i, bv)]⟩
  | (none, _) => none

/-- `gemma4_moe_ffn_cuda` from the logits of a token on. -/
def gemma4MoeFfn (e : K → K) (NE NU : Nat) (lt : Nat → Val K) (f : Nat → R → R) (x : R) :
    Option R := do
  let s ← (List.range NU).foldlM (fun s _ => pickPlain (softmax e lt NE) NE s)
    ⟨fun _ => false, []⟩
  some (tokenMajor f (s.out.map fun q => (q.1, q.2.div (weightSum s.out))) x)

end Reference

/-! The entries behind the tables -/

section Entries

variable {K : Type} {c : Batch} {r : Nat → List (Nat × Val K)}

/-- The entries of some tokens, in the order of the scan. -/
def entriesOf (r : Nat → List (Nat × Val K)) (ts : List Nat) : List (Entry (Val K)) :=
  ts.flatMap fun t => (r t).map fun q => ⟨t, q.1, q.2⟩

theorem entriesOf_append (ts : List Nat) (t : Nat) :
    entriesOf r (ts ++ [t]) = entriesOf r ts ++ (r t).map fun q => ⟨t, q.1, q.2⟩ := by
  rw [entriesOf, List.flatMap_append, List.flatMap_singleton]
  rfl

theorem tokens_nodup (c : Batch) : c.tokens.Nodup := List.nodup_range'

theorem tokens_length (c : Batch) : c.tokens.length ≤ c.nTok := by
  rw [Batch.tokens, List.length_range']
  exact Nat.sub_le _ _

theorem tokens_slots (c : Batch) : c.tokens.length * c.NU ≤ c.slots :=
  Nat.mul_le_mul_right _ (tokens_length c)

/-- What the tables ask of the routing of a token. -/
structure Sound (c : Batch) (r : Nat → List (Nat × Val K)) (t : Nat) : Prop where
  count : (r t).length = c.NU
  distinct : ((r t).map Prod.fst).Nodup
  inside : ∀ q ∈ r t, q.1 < c.NE

theorem mem_entriesOf {ts : List Nat} {en : Entry (Val K)} :
    en ∈ entriesOf r ts ↔ en.tok ∈ ts ∧ (en.expert, en.weight) ∈ r en.tok := by
  rw [entriesOf, List.mem_flatMap]
  constructor
  · rintro ⟨t, ht, hen⟩
    obtain ⟨q, hq, rfl⟩ := List.mem_map.mp hen
    exact ⟨ht, hq⟩
  · rintro ⟨ht, hq⟩
    exact ⟨en.tok, ht, List.mem_map.mpr ⟨_, hq, rfl⟩⟩

theorem entriesOf_length {ts : List Nat} (hr : ∀ t ∈ ts, Sound c r t) :
    (entriesOf r ts).length = ts.length * c.NU := by
  induction ts with
  | nil => rw [List.length_nil, Nat.zero_mul]; rfl
  | cons t ts ih =>
      have hcons : entriesOf r (t :: ts) =
          ((r t).map fun q => ⟨t, q.1, q.2⟩) ++ entriesOf r ts := rfl
      rw [hcons, List.length_append, List.length_map, (hr t List.mem_cons_self).count,
        ih fun t' ht' => hr t' (List.mem_cons_of_mem _ ht'), List.length_cons]
      ring

/-- No expert stands twice with a token. -/
theorem entriesOf_nodup {ts : List Nat} (hts : ts.Nodup) (hr : ∀ t ∈ ts, Sound c r t) :
    ((entriesOf r ts).map fun en => (en.tok, en.expert)).Nodup := by
  rw [entriesOf, List.map_flatMap, List.nodup_flatMap]
  refine ⟨fun t ht => ?_, ?_⟩
  · rw [List.map_map]
    have hpair : (fun q : Nat × Val K => (t, q.1)) = (fun e => (t, e)) ∘ Prod.fst := rfl
    change ((r t).map fun q : Nat × Val K => (t, q.1)).Nodup
    rw [hpair, ← List.map_map]
    exact (hr t ht).distinct.map fun e e' h => congrArg Prod.snd h
  · refine hts.imp fun {t t'} hne => ?_
    apply List.disjoint_left.mpr
    intro q hq hq'
    obtain ⟨en, hen, rfl⟩ := List.mem_map.mp hq
    obtain ⟨en', hen', heq⟩ := List.mem_map.mp hq'
    obtain ⟨p, -, rfl⟩ := List.mem_map.mp hen
    obtain ⟨p', -, rfl⟩ := List.mem_map.mp hen'
    exact hne (congrArg Prod.fst heq).symm

/-- The tokens of an expert's entries are distinct. -/
theorem expert_tokens_nodup {ts : List Nat} (hts : ts.Nodup) (hr : ∀ t ∈ ts, Sound c r t)
    (e : Nat) : (((entriesOf r ts).filter fun en => en.expert == e).map Entry.tok).Nodup := by
  have hpairs := (entriesOf_nodup hts hr).sublist
    ((List.filter_sublist (p := fun en : Entry (Val K) => en.expert == e)).map
      fun en : Entry (Val K) => (en.tok, en.expert))
  have hmap : ((entriesOf r ts).filter fun en => en.expert == e).map
        (fun en : Entry (Val K) => (en.tok, en.expert)) =
      (((entriesOf r ts).filter fun en => en.expert == e).map Entry.tok).map fun t => (t, e) := by
    rw [List.map_map]
    refine List.map_congr_left fun en hen => ?_
    have hexpert : en.expert = e := beq_iff_eq.mp (List.mem_filter.mp hen).2
    rw [Function.comp_apply, hexpert]
  rw [hmap] at hpairs
  exact hpairs.of_map _

theorem count_le_tokens {ts : List Nat} (hts : ts.Nodup) (hr : ∀ t ∈ ts, Sound c r t) (e : Nat) :
    count (entriesOf r ts) e ≤ ts.length := by
  have hnodup := expert_tokens_nodup hts hr e
  have hsub : ((entriesOf r ts).filter fun en => en.expert == e).map Entry.tok ⊆ ts := by
    intro t ht
    obtain ⟨en, hen, rfl⟩ := List.mem_map.mp ht
    exact (mem_entriesOf.mp (List.mem_of_mem_filter hen)).1
  have hle := (List.subperm_of_subset hnodup hsub).length_le
  rwa [List.length_map, ← List.countP_eq_length_filter] at hle

theorem countP_expert_succ (entries : List (Entry (Val K))) (e : Nat) :
    entries.countP (fun en => decide (en.expert < e + 1)) =
      entries.countP (fun en => decide (en.expert < e)) + count entries e := by
  induction entries with
  | nil => rfl
  | cons en rest ih =>
      have hcount : count (en :: rest) e = count rest e + if en.expert == e then 1 else 0 :=
        List.countP_cons
      rw [List.countP_cons, List.countP_cons, ih, hcount]
      simp only [decide_eq_true_eq, beq_iff_eq]
      split <;> split <;> split <;> omega

/-- The offsets stay within the entries. -/
theorem offset_le_length (entries : List (Entry (Val K))) (e : Nat) :
    offset entries e ≤ entries.length := by
  have hcount : offset entries e = entries.countP fun en => decide (en.expert < e) := by
    induction e with
    | zero => exact (List.countP_eq_zero.mpr fun en _ => by simp).symm
    | succ e ih => rw [offset, ih, countP_expert_succ]
  rw [hcount]
  exact List.countP_le_length

end Entries

/-! The tables hold the entries -/

section Tables

variable {K : Type} [Zero K] {c : Batch} {r : Nat → List (Nat × Val K)}

omit [Zero K] in
theorem bump_all {n : Nat} (l : List (Nat × Val K)) (cnt : Nat → Nat) (hl : ∀ q ∈ l, q.1 < n)
    (t : Nat) :
    ∃ cnt', l.foldlM (fun cnt q => bump n cnt q.1) cnt = some cnt' ∧
      ∀ e, cnt' e = cnt e + count (l.map fun q => (⟨t, q.1, q.2⟩ : Entry (Val K))) e := by
  induction l generalizing cnt with
  | nil => exact ⟨cnt, rfl, fun e => rfl⟩
  | cons q l ih =>
      obtain ⟨cnt', hrun, hcnt⟩ := ih (Function.update cnt q.1 (cnt q.1 + 1))
        fun q' hq' => hl q' (List.mem_cons_of_mem _ hq')
      have hbump : bump n cnt q.1 = some (Function.update cnt q.1 (cnt q.1 + 1)) :=
        if_pos (hl q List.mem_cons_self)
      refine ⟨cnt', ?_, fun e => ?_⟩
      · rw [List.foldlM_cons, hbump]
        exact hrun
      · rw [hcnt, List.map_cons, count, count, List.countP_cons]
        by_cases he : e = q.1
        · subst he
          rw [Function.update_self, if_pos (beq_self_eq_true _)]
          omega
        · rw [Function.update_of_ne he, if_neg (by simpa using Ne.symm he)]
          omega

/-- The token-major tables hold the routing of the tokens, and the counts are those of their
entries. -/
structure Holds (c : Batch) (r : Nat → List (Nat × Val K)) (ts : List Nat)
    (tb : RoutingTables K) : Prop where
  expert : ∀ t ∈ ts, ∀ k (hk : k < (r t).length), tb.rtIdx (t * c.NU + k) = (r t)[k].1
  weight : ∀ t ∈ ts, ∀ k (hk : k < (r t).length), tb.rtWt (t * c.NU + k) = (r t)[k].2
  count : ∀ e, tb.etCnt e = count (entriesOf r ts) e

theorem store_row {α : Type} {b : Nat → α} {v : Nat → α} {NU t t' k : Nat} (hk : k < NU) :
    store b (t * NU) NU v (t' * NU + k) = if t' = t then v k else b (t' * NU + k) := by
  by_cases ht : t' = t
  · subst ht
    rw [if_pos rfl, Buffer.store_inside hk]
  · rw [if_neg ht]
    apply Buffer.store_outside
    rcases Nat.lt_or_gt_of_ne ht with hbelow | habove
    · left
      have := Buffer.block_le (w := NU) hbelow
      omega
    · right
      have := Buffer.block_le (w := NU) habove
      omega

omit [Zero K] in
theorem Holds.routeTok {ts : List Nat} {tb : RoutingTables K} (htb : Holds c r ts tb)
    (hts : ∀ t ∈ ts, Sound c r t) {t : Nat} (hr : Sound c r t) (ht : t < c.nTok) :
    ∃ tb', routeTok c r tb t = some tb' ∧ Holds c r (ts ++ [t]) tb' := by
  obtain ⟨cnt, hrun, hcnt⟩ := bump_all (r t) tb.etCnt hr.inside t
  have hroom : t * c.NU + (r t).length ≤ c.slots := by
    rw [hr.count]
    exact Buffer.block_le ht
  refine ⟨_, by rw [Diffusion.routeTok, if_pos hroom, hrun]; rfl, ?_, ?_, ?_⟩
  · intro t' ht' k hk
    have hkNU : k < c.NU := by
      rcases List.mem_append.mp ht' with hold | hnew
      · rw [← (hts t' hold).count]
        exact hk
      · rw [List.mem_singleton.mp hnew, hr.count] at hk
        exact hk
    simp only [hr.count, store_row hkNU]
    by_cases hsame : t' = t
    · subst hsame
      rw [if_pos rfl, List.getD_eq_getElem _ _ (by rwa [List.length_map]), List.getElem_map]
    · rw [if_neg hsame]
      refine htb.expert t' ((List.mem_append.mp ht').resolve_right fun hnew => hsame ?_) k hk
      exact List.mem_singleton.mp hnew
  · intro t' ht' k hk
    have hkNU : k < c.NU := by
      rcases List.mem_append.mp ht' with hold | hnew
      · rw [← (hts t' hold).count]
        exact hk
      · rw [List.mem_singleton.mp hnew, hr.count] at hk
        exact hk
    simp only [hr.count, store_row hkNU]
    by_cases hsame : t' = t
    · subst hsame
      rw [if_pos rfl, List.getD_eq_getElem _ _ (by rwa [List.length_map]), List.getElem_map]
    · rw [if_neg hsame]
      refine htb.weight t' ((List.mem_append.mp ht').resolve_right fun hnew => hsame ?_) k hk
      exact List.mem_singleton.mp hnew
  · intro e
    refine (hcnt e).trans ?_
    rw [htb.count, entriesOf_append]
    exact List.countP_append.symm

theorem mem_tokens {t : Nat} : t ∈ c.tokens ↔ c.start ≤ t ∧ t < c.nTok := by
  rw [Batch.tokens, List.mem_range'_1]
  omega

theorem routeAll_holds (hr : ∀ t ∈ c.tokens, Sound c r t) :
    ∃ tb, routeAll c r = some tb ∧ Holds c r c.tokens tb := by
  have hloop : ∀ done rest, c.tokens = done ++ rest → ∀ tb, Holds c r done tb →
      ∃ tb', rest.foldlM (routeTok c r) tb = some tb' ∧ Holds c r c.tokens tb' := by
    intro done rest
    induction rest generalizing done with
    | nil =>
        intro hall tb htb
        refine ⟨tb, rfl, ?_⟩
        rw [hall, List.append_nil]
        exact htb
    | cons t rest ih =>
        intro hall tb htb
        have ht : t ∈ c.tokens := by
          rw [hall]
          exact List.mem_append_right _ List.mem_cons_self
        have hdone : ∀ t ∈ done, Sound c r t := fun t' ht' => hr t' (by
          rw [hall]
          exact List.mem_append_left _ ht')
        obtain ⟨tb', hstep, htb'⟩ := htb.routeTok hdone (hr t ht) (mem_tokens.mp ht).2
        obtain ⟨tb'', hrun, hholds⟩ := ih (done ++ [t])
          (by rw [hall, List.append_assoc, List.singleton_append]) tb' htb'
        refine ⟨tb'', ?_, hholds⟩
        rw [List.foldlM_cons, hstep]
        exact hrun
  exact hloop [] c.tokens rfl _ ⟨fun t ht => absurd ht List.not_mem_nil,
    fun t ht => absurd ht List.not_mem_nil, fun e => rfl⟩

/-- The lists as far as they are filled: those of the abstract tables. -/
structure Filled (entries done : List (Entry (Val K))) (ls : ExpertLists K) : Prop where
  cur : ls.cur = (done.foldl (Tables.fill (offset entries)) ⟨fun _ => 0, fun _ => none⟩).cur
  slot : ∀ pos t w,
    (done.foldl (Tables.fill (offset entries)) ⟨fun _ => 0, fun _ => none⟩).slot pos = some (t, w) →
      ls.etTok pos = t ∧ ls.etW pos = w

omit [Zero K] in
theorem etOff_eq {cnt : Nat → Nat} {entries : List (Entry (Val K))}
    (hcnt : ∀ e, cnt e = count entries e) (e : Nat) : etOff cnt e = offset entries e := by
  induction e with
  | zero => rfl
  | succ e ih => rw [etOff, offset, ih, hcnt]

omit [Zero K] in
/-- One slot of a token: its place lies within the table. -/
theorem Filled.placeSlot {tb : RoutingTables K} (htb : Holds c r c.tokens tb)
    (hr : ∀ t ∈ c.tokens, Sound c r t) {done rest : List (Entry (Val K))} {ls : ExpertLists K}
    {t k : Nat} (ht : t ∈ c.tokens) (hk : k < (r t).length)
    (hall : entriesOf r c.tokens = done ++ ⟨t, (r t)[k].1, (r t)[k].2⟩ :: rest)
    (hls : Filled (entriesOf r c.tokens) done ls) :
    ∃ ls', placeSlot c tb t ls k = some ls' ∧
      Filled (entriesOf r c.tokens) (done ++ [⟨t, (r t)[k].1, (r t)[k].2⟩]) ls' := by
  have hexpert := htb.expert t ht k hk
  have hinside := (hr t ht).inside _ (List.getElem_mem hk)
  have hkNU : k < c.NU := (hr t ht).count ▸ hk
  have hslot : t * c.NU + k < c.slots := by
    have := Buffer.block_le (w := c.NU) (mem_tokens.mp ht).2
    unfold Batch.slots
    omega
  have hcur : ls.cur (r t)[k].1 = count done (r t)[k].1 := by
    rw [hls.cur]
    exact (fill_done _ done _ hall).1 _
  have hoff := etOff_eq htb.count
  have hpos : etOff tb.etCnt (r t)[k].1 + ls.cur (r t)[k].1 < c.slots := by
    have hroom := count_le_append (done ++ [⟨t, (r t)[k].1, (r t)[k].2⟩]) rest (r t)[k].1
    rw [count_append, if_pos rfl, List.append_assoc, List.singleton_append, ← hall] at hroom
    have hend := offset_le_length (entriesOf r c.tokens) ((r t)[k].1 + 1)
    rw [offset, entriesOf_length hr] at hend
    have htotal := tokens_slots c
    rw [hoff, hcur]
    omega
  refine ⟨_, if_pos ⟨hslot, by rw [hexpert]; exact hinside, by rw [hexpert]; exact hpos⟩, ?_, ?_⟩
  · rw [List.foldl_append, List.foldl_cons, List.foldl_nil, hexpert]
    simp only [Tables.fill]
    rw [hls.cur]
  · intro pos t' w hw
    rw [List.foldl_append, List.foldl_cons, List.foldl_nil] at hw
    simp only [Tables.fill, ← hls.cur, ← hoff] at hw
    simp only [hexpert, htb.weight t ht k hk]
    by_cases hat : pos = etOff tb.etCnt (r t)[k].1 + ls.cur (r t)[k].1
    · rw [hat, Function.update_self] at hw ⊢
      rw [Function.update_self]
      obtain ⟨rfl, rfl⟩ := Prod.mk.inj (Option.some.inj hw)
      exact ⟨rfl, rfl⟩
    · rw [Function.update_of_ne hat] at hw ⊢
      rw [Function.update_of_ne hat]
      exact hls.slot pos t' w hw

omit [Zero K] in
theorem Filled.fillTok {tb : RoutingTables K} (htb : Holds c r c.tokens tb)
    (hr : ∀ t ∈ c.tokens, Sound c r t) {done rest : List (Entry (Val K))} {ls : ExpertLists K}
    {t : Nat} (ht : t ∈ c.tokens)
    (hall : entriesOf r c.tokens = done ++ ((r t).map fun q => ⟨t, q.1, q.2⟩) ++ rest)
    (hls : Filled (entriesOf r c.tokens) done ls) :
    ∃ ls', fillTok c tb ls t = some ls' ∧
      Filled (entriesOf r c.tokens) (done ++ (r t).map fun q => ⟨t, q.1, q.2⟩) ls' := by
  have hloop : ∀ n, n ≤ (r t).length → ∃ ls',
      (List.range n).foldlM (Diffusion.placeSlot c tb t) ls = some ls' ∧
        Filled (entriesOf r c.tokens) (done ++ ((r t).take n).map fun q => ⟨t, q.1, q.2⟩) ls' := by
    intro n
    induction n with
    | zero =>
        refine fun _ => ⟨ls, rfl, ?_⟩
        rw [List.take_zero, List.map_nil, List.append_nil]
        exact hls
    | succ n ih =>
        intro hn
        obtain ⟨ls', hrun, hls'⟩ := ih (by omega)
        have htake : (r t).take (n + 1) = (r t).take n ++ [(r t)[n]] :=
          (List.take_concat_get' (r t) n hn).symm
        have hdrop : r t = (r t).take n ++ (r t)[n] :: (r t).drop (n + 1) := by
          rw [List.getElem_cons_drop, List.take_append_drop]
        have hsplit : entriesOf r c.tokens =
            (done ++ ((r t).take n).map fun q => ⟨t, q.1, q.2⟩) ++ ⟨t, (r t)[n].1, (r t)[n].2⟩ ::
              (((r t).drop (n + 1)).map (fun q => ⟨t, q.1, q.2⟩) ++ rest) := by
          rw [hall]
          conv_lhs => rw [hdrop]
          simp only [List.map_append, List.map_cons, List.append_assoc, List.cons_append]
        obtain ⟨ls'', hstep, hls''⟩ := hls'.placeSlot htb hr ht hn hsplit
        refine ⟨ls'', ?_, ?_⟩
        · rw [List.range_succ, List.foldlM_append, hrun]
          simp only [Option.bind_eq_bind, Option.bind_some, List.foldlM_cons, List.foldlM_nil]
          rw [hstep]
          rfl
        · rw [htake, List.map_append, List.map_singleton, ← List.append_assoc]
          exact hls''
  obtain ⟨ls', hrun, hls'⟩ := hloop (r t).length (le_refl _)
  rw [List.take_length] at hls'
  rw [(hr t ht).count] at hrun
  exact ⟨ls', hrun, hls'⟩

theorem fillAll_filled {tb : RoutingTables K} (htb : Holds c r c.tokens tb)
    (hr : ∀ t ∈ c.tokens, Sound c r t) :
    ∃ ls, fillAll c tb = some ls ∧
      Filled (entriesOf r c.tokens) (entriesOf r c.tokens) ls := by
  have hloop : ∀ done rest, c.tokens = done ++ rest → ∀ ls,
      Filled (entriesOf r c.tokens) (entriesOf r done) ls →
      ∃ ls', rest.foldlM (Diffusion.fillTok c tb) ls = some ls' ∧
        Filled (entriesOf r c.tokens) (entriesOf r c.tokens) ls' := by
    intro done rest
    induction rest generalizing done with
    | nil =>
        intro hall ls hls
        rw [List.append_nil] at hall
        rw [← hall] at hls
        exact ⟨ls, rfl, hls⟩
    | cons t rest ih =>
        intro hall ls hls
        have ht : t ∈ c.tokens := by
          rw [hall]
          exact List.mem_append_right _ List.mem_cons_self
        have hentries : entriesOf r c.tokens =
            entriesOf r done ++ ((r t).map fun q => ⟨t, q.1, q.2⟩) ++ entriesOf r rest := by
          rw [hall, entriesOf, List.flatMap_append, List.flatMap_cons, List.append_assoc]
          rfl
        obtain ⟨ls', hstep, hls'⟩ := hls.fillTok htb hr ht hentries
        rw [← entriesOf_append] at hls'
        obtain ⟨ls'', hrun, hfilled⟩ := ih (done ++ [t])
          (by rw [hall, List.append_assoc, List.singleton_append]) ls' hls'
        refine ⟨ls'', ?_, hfilled⟩
        rw [List.foldlM_cons, hstep]
        exact hrun
  exact hloop [] c.tokens rfl _ ⟨rfl, fun pos t w hw => absurd hw.symm (Option.some_ne_none _)⟩

omit [Zero K] in
/-- A place in the list of an expert holds the entry of that place. -/
theorem Filled.place {entries : List (Entry (Val K))} {ls : ExpertLists K}
    (hls : Filled entries entries ls) {e j : Nat}
    (hj : j < (entries.filter fun en => en.expert == e).length) :
    ls.etTok (offset entries e + j) = (entries.filter fun en => en.expert == e)[j].tok ∧
      ls.etW (offset entries e + j) = (entries.filter fun en => en.expert == e)[j].weight := by
  have hcount : j < count entries e := by rwa [count, List.countP_eq_length_filter]
  apply hls.slot
  have hslot := build_slot entries e j hcount
  rw [List.getElem?_map, List.getElem?_eq_getElem hj] at hslot
  exact hslot

end Tables

/-! The experts -/

section Experts

variable {K R : Type} [Zero K] [AddCommMonoid R] [SMul K R] {c : Batch}
variable {r : Nat → List (Nat × Val K)} {f : Nat → R → R} {x : Nat → R}

/-- What an entry adds. -/
def term (f : Nat → R → R) (x : Nat → R) (e : Nat) (en : Entry (Val K)) : R :=
  en.weight.real • f e (x en.tok)

def addTerm (f : Nat → R → R) (x : Nat → R) (e : Nat) (dmoe : Nat → R) (en : Entry (Val K)) :
    Nat → R :=
  Function.update dmoe en.tok (dmoe en.tok + term f x e en)

/-- A batch that is given its expert's entries adds each of them to the row of its token. -/
theorem expertTurn_eq {tb : RoutingTables K} {ls : ExpertLists K} (hr : ∀ t ∈ c.tokens, Sound c r t)
    (htb : Holds c r c.tokens tb) (hls : Filled (entriesOf r c.tokens) (entriesOf r c.tokens) ls)
    (st : (Nat → R) × (Nat → R)) (e : Nat) :
    ∃ xb, expertTurn c tb ls f x st e = some (xb,
      ((entriesOf r c.tokens).filter fun en => en.expert == e).foldl (addTerm f x e) st.2) := by
  have hcount : tb.etCnt e = ((entriesOf r c.tokens).filter fun en => en.expert == e).length := by
    rw [htb.count, count, List.countP_eq_length_filter]
  have hoff := etOff_eq htb.count e
  have hcolumns : tb.etCnt e ≤ c.nTok := by
    rw [htb.count]
    exact (count_le_tokens (tokens_nodup c) hr e).trans (tokens_length c)
  have hend : etOff tb.etCnt e + tb.etCnt e ≤ c.slots := by
    have hnext := offset_le_length (entriesOf r c.tokens) (e + 1)
    rw [offset, ← hoff, ← htb.count, entriesOf_length hr] at hnext
    exact hnext.trans (tokens_slots c)
  generalize hl : (entriesOf r c.tokens).filter (fun en => en.expert == e) = l at hcount
  by_cases hzero : tb.etCnt e = 0
  · rw [hcount, List.length_eq_zero_iff] at hzero
    refine ⟨st.1, ?_⟩
    rw [expertTurn, if_pos (by rw [hcount, hzero]; rfl), hzero]
    rfl
  · refine ⟨store st.1 0 (tb.etCnt e) fun j => x (ls.etTok (etOff tb.etCnt e + j)), ?_⟩
    rw [expertTurn, if_neg hzero, if_neg (by omega)]
    refine congrArg some (Prod.ext rfl ?_)
    have hfold := foldl_range_getElem? (addTerm f x e) l st.2
    simp only
    rw [← hfold, hcount]
    apply List.foldl_ext
    intro dmoe j hj
    have hj' : j < l.length := List.mem_range.mp hj
    have hplace := hls.place (e := e) (j := j) (by rwa [hl])
    simp only [hl] at hplace
    rw [Buffer.store, if_pos (by omega), List.getElem?_eq_getElem hj']
    simp only [Nat.sub_zero, hoff, hplace.1, hplace.2]
    rfl

omit [Zero K] [SMul K R] in
theorem foldl_add {α : Type} (g : α → R) (l : List α) (y : R) :
    l.foldl (fun y q => y + g q) y = y + (l.map g).sum := by
  induction l generalizing y with
  | nil => rw [List.foldl_nil, List.map_nil, List.sum_nil, add_zero]
  | cons q l ih => rw [List.foldl_cons, ih, List.map_cons, List.sum_cons, add_assoc]

omit [Zero K] [SMul K R] in
/-- A sum expert by expert is the sum over the list. -/
theorem sum_by_expert {NE : Nat} (l : List (Nat × Val K)) (g : Nat × Val K → R)
    (hl : ∀ q ∈ l, q.1 < NE) :
    ∑ e ∈ Finset.range NE, ((l.filter fun q => q.1 == e).map g).sum = (l.map g).sum := by
  induction l with
  | nil => exact Finset.sum_eq_zero fun e _ => rfl
  | cons q l ih =>
      have hone : ∀ e, (((q :: l).filter fun q => q.1 == e).map g).sum =
          (if q.1 = e then g q else 0) + ((l.filter fun q => q.1 == e).map g).sum := by
        intro e
        by_cases he : q.1 = e
        · rw [List.filter_cons_of_pos (p := fun q : Nat × Val K => q.1 == e) (beq_iff_eq.mpr he),
            List.map_cons, List.sum_cons, if_pos he]
        · rw [List.filter_cons_of_neg (p := fun q : Nat × Val K => q.1 == e) (by simpa using he),
            if_neg he, zero_add]
      simp only [hone, Finset.sum_add_distrib]
      rw [ih fun q' hq' => hl q' (List.mem_cons_of_mem _ hq'), Finset.sum_ite_eq,
        if_pos (Finset.mem_range.mpr (hl q List.mem_cons_self)), List.map_cons, List.sum_cons]

omit [Zero K] in
/-- The entries of a token with an expert are those of its routing. -/
theorem token_entries {t : Nat} (ht : t ∈ c.tokens) (e : Nat) :
    ((entriesOf r c.tokens).filter fun en => en.expert == e).filter (fun en => en.tok == t) =
      ((r t).filter fun q => q.1 == e).map fun q => ⟨t, q.1, q.2⟩ := by
  have hrow : ∀ t', ∀ en ∈ (r t').map fun q => (⟨t', q.1, q.2⟩ : Entry (Val K)), en.tok = t' := by
    intro t' en hen
    obtain ⟨q, -, rfl⟩ := List.mem_map.mp hen
    rfl
  obtain ⟨hlo, hhi⟩ := mem_tokens.mp ht
  rw [List.filter_comm, entriesOf, Batch.tokens,
    flatMap_range'_filter _ Entry.tok hrow c.start (c.nTok - c.start) t hlo (by omega),
    List.filter_map]
  rfl

/-- Every token's row is what its own experts add up to, in the order of its slots. -/
theorem expertLoop_row {tb : RoutingTables K} {ls : ExpertLists K}
    (hr : ∀ t ∈ c.tokens, Sound c r t) (htb : Holds c r c.tokens tb)
    (hls : Filled (entriesOf r c.tokens) (entriesOf r c.tokens) ls) (xb : Nat → R) :
    ∃ dmoe, expertLoop c tb ls f x xb = some dmoe ∧
      ∀ t ∈ c.tokens, dmoe t = tokenMajor f (r t) (x t) := by
  have hloop : ∀ n, n ≤ c.NE → ∃ st,
      (List.range n).foldlM (expertTurn c tb ls f x) (xb, fun _ => 0) = some st ∧
      ∀ t ∈ c.tokens, st.2 t = ∑ e ∈ Finset.range n,
        (((r t).filter fun q => q.1 == e).map fun q => q.2.real • f q.1 (x t)).sum := by
    intro n
    induction n with
    | zero => exact fun _ => ⟨_, rfl, fun t _ => rfl⟩
    | succ n ih =>
        intro hn
        obtain ⟨st, hrun, hst⟩ := ih (by omega)
        obtain ⟨xb', hturn⟩ := expertTurn_eq (f := f) (x := x) hr htb hls st n
        refine ⟨(xb', ((entriesOf r c.tokens).filter fun en => en.expert == n).foldl
          (addTerm f x n) st.2), ?_, fun t ht => ?_⟩
        · rw [List.range_succ, List.foldlM_append, hrun]
          simp only [Option.bind_eq_bind, Option.bind_some, List.foldlM_cons, List.foldlM_nil]
          rw [hturn]
          rfl
        · simp only
          unfold addTerm
          rw [foldl_update_row Entry.tok (fun acc en => acc + term f x n en), token_entries ht,
            foldl_add, hst t ht, Finset.sum_range_succ, List.map_map]
          congr 2
          refine List.map_congr_left fun q hq => ?_
          have hexpert : q.1 = n := beq_iff_eq.mp (List.mem_filter.mp hq).2
          rw [Function.comp_apply, term, hexpert]
  obtain ⟨st, hrun, hst⟩ := hloop c.NE (le_refl _)
  refine ⟨st.2, by rw [expertLoop, hrun]; rfl, fun t ht => ?_⟩
  rw [hst t ht, sum_by_expert (r t) (fun q => q.2.real • f q.1 (x t)) (hr t ht).inside, tokenMajor,
    foldl_add, zero_add]

end Experts

/-! The dispatch as a whole -/

section Whole

variable {K R : Type} {c : Batch}

namespace RoutingTables

/-- The expert in a slot of a token. -/
def expert (tb : RoutingTables K) (c : Batch) (t k : Nat) : Nat := tb.rtIdx (t * c.NU + k)

def weight (tb : RoutingTables K) (c : Batch) (t k : Nat) : Val K := tb.rtWt (t * c.NU + k)

/-- The places of an expert's list. -/
def InList (tb : RoutingTables K) (e pos : Nat) : Prop :=
  etOff tb.etCnt e ≤ pos ∧ pos < etOff tb.etCnt (e + 1)

end RoutingTables

/-- A token's slots: distinct experts, and weights that sum to one. -/
structure Slots [Field K] (c : Batch) (tb : RoutingTables K) (t : Nat) : Prop where
  inside : ∀ k < c.NU, tb.expert c t k < c.NE
  distinct : ∀ k < c.NU, ∀ k' < c.NU, tb.expert c t k = tb.expert c t k' → k = k'
  total : ∃ w : Nat → K, (∀ k < c.NU, tb.weight c t k = .fin (w k)) ∧
    ∑ k ∈ Finset.range c.NU, w k = 1

/-- No expert outside the slots of a token is more probable than one in them. -/
def MostProbable [LE K] (c : Batch) (tb : RoutingTables K) (t : Nat) (p : Nat → K) : Prop :=
  ∀ i < c.NE, (∀ k < c.NU, tb.expert c t k ≠ i) → ∀ k < c.NU, p i ≤ p (tb.expert c t k)

/-- Every slot has one place in the list of its expert, with its weight, and every place of a
list is that of a slot. -/
structure Listed (c : Batch) (tb : RoutingTables K) (ls : ExpertLists K) : Prop where
  once : ∀ t ∈ c.tokens, ∀ k < c.NU, ∃ pos, tb.InList (tb.expert c t k) pos ∧ pos < c.slots ∧
    ls.etTok pos = t ∧ ls.etW pos = tb.weight c t k ∧
    ∀ pos', tb.InList (tb.expert c t k) pos' → ls.etTok pos' = t → pos' = pos
  only : ∀ e pos, tb.InList e pos → ls.etTok pos ∈ c.tokens ∧
    ∃ k < c.NU, tb.expert c (ls.etTok pos) k = e ∧ ls.etW pos = tb.weight c (ls.etTok pos) k

section

variable {r : Nat → List (Nat × Val K)} {tb : RoutingTables K} {ls : ExpertLists K}

theorem index_inj {α β : Type} {g : α → β} {l : List α} (hl : (l.map g).Nodup) {j j' : Nat}
    (hj : j < l.length) (hj' : j' < l.length) (h : g l[j] = g l[j']) : j = j' := by
  have hlen : (l.map g).length = l.length := List.length_map g
  have hinj := List.nodup_iff_injective_getElem.mp hl
  have hfin : (⟨j, hlen ▸ hj⟩ : Fin (l.map g).length) = ⟨j', hlen ▸ hj'⟩ := by
    apply hinj
    simp only [List.getElem_map]
    exact h
  exact Fin.mk.inj hfin

theorem Routed.sound [Field K] {t : Nat} {w : Nat → K} (hr : Routed c.NE c.NU (r t) w) :
    Sound c r t :=
  ⟨hr.count, hr.distinct, hr.inside⟩

theorem Holds.slots [Field K] (htb : Holds c r c.tokens tb) {t : Nat} (ht : t ∈ c.tokens)
    {w : Nat → K} (hr : Routed c.NE c.NU (r t) w) : Slots c tb t := by
  have hexpert : ∀ k (hk : k < (r t).length), tb.expert c t k = (r t)[k].1 := htb.expert t ht
  refine ⟨fun k hk => ?_, fun k hk k' hk' heq => ?_, fun k => w (tb.expert c t k), ?_, ?_⟩
  · rw [← hr.count] at hk
    rw [hexpert k hk]
    exact hr.inside _ (List.getElem_mem hk)
  · rw [← hr.count] at hk hk'
    rw [hexpert k hk, hexpert k' hk'] at heq
    exact index_inj hr.distinct hk hk' heq
  · intro k hk
    rw [← hr.count] at hk
    simp only [hexpert k hk]
    exact (htb.weight t ht k hk).trans (hr.weight _ (List.getElem_mem hk))
  · have hrow : (r t).map (fun q => w q.1) =
        (List.range c.NU).map fun k => w (tb.expert c t k) := by
      apply List.ext_getElem
      · rw [List.length_map, List.length_map, List.length_range, hr.count]
      · intro k hk hk'
        rw [List.length_map] at hk
        rw [List.getElem_map, List.getElem_map, List.getElem_range, hexpert k hk]
    rw [← hr.total, hrow]
    rfl

theorem Holds.mostProbable [LE K] (htb : Holds c r c.tokens tb) {t : Nat} (ht : t ∈ c.tokens)
    (hr : Sound c r t) {p : Nat → K}
    (hp : ∀ i < c.NE, i ∉ (r t).map Prod.fst → ∀ q ∈ r t, p i ≤ p q.1) : MostProbable c tb t p := by
  have hexpert : ∀ k (hk : k < (r t).length), tb.expert c t k = (r t)[k].1 := htb.expert t ht
  intro i hi hout k hk
  rw [← hr.count] at hk
  rw [hexpert k hk]
  refine hp i hi (fun hmem => ?_) _ (List.getElem_mem hk)
  obtain ⟨q, hq, rfl⟩ := List.mem_map.mp hmem
  obtain ⟨k', hk', rfl⟩ := List.getElem_of_mem hq
  exact hout k' (hr.count ▸ hk') (hexpert k' hk')

theorem Filled.listed (htb : Holds c r c.tokens tb) (hr : ∀ t ∈ c.tokens, Sound c r t)
    (hls : Filled (entriesOf r c.tokens) (entriesOf r c.tokens) ls) : Listed c tb ls := by
  have hoff := etOff_eq htb.count
  have hplace : ∀ e pos, tb.InList e pos →
      ∃ j, j < ((entriesOf r c.tokens).filter fun en => en.expert == e).length ∧
        pos = offset (entriesOf r c.tokens) e + j := by
    intro e pos hpos
    obtain ⟨hlo, hhi⟩ := hpos
    rw [etOff, hoff, htb.count, count, List.countP_eq_length_filter] at hhi
    rw [hoff] at hlo
    exact ⟨pos - offset (entriesOf r c.tokens) e, by omega, by omega⟩
  refine ⟨fun t ht k hk => ?_, fun e pos hpos => ?_⟩
  · have hkr : k < (r t).length := (hr t ht).count ▸ hk
    have hexpert : tb.expert c t k = (r t)[k].1 := htb.expert t ht k hkr
    rw [hexpert]
    generalize hl : (entriesOf r c.tokens).filter (fun en => en.expert == (r t)[k].1) = l
    have hmem : (⟨t, (r t)[k].1, (r t)[k].2⟩ : Entry (Val K)) ∈ l := by
      rw [← hl, List.mem_filter]
      exact ⟨mem_entriesOf.mpr ⟨ht, List.getElem_mem hkr⟩, beq_self_eq_true _⟩
    obtain ⟨j, hj, hat⟩ := List.getElem_of_mem hmem
    have hspot := hls.place (e := (r t)[k].1) (j := j) (by rwa [hl])
    simp only [hl, hat] at hspot
    have hend := offset_le_length (entriesOf r c.tokens) ((r t)[k].1 + 1)
    have hcount : count (entriesOf r c.tokens) (r t)[k].1 = l.length := by
      rw [count, List.countP_eq_length_filter, hl]
    rw [offset, hcount, entriesOf_length hr] at hend
    have hslots := tokens_slots c
    refine ⟨offset (entriesOf r c.tokens) (r t)[k].1 + j, ⟨?_, ?_⟩, by omega, hspot.1,
      hspot.2.trans (htb.weight t ht k hkr).symm, fun pos' hpos' htok => ?_⟩
    · rw [hoff]
      exact Nat.le_add_right _ _
    · rw [etOff, hoff, htb.count, hcount]
      omega
    · obtain ⟨j', hj', rfl⟩ := hplace _ _ hpos'
      have hspot' := hls.place (e := (r t)[k].1) (j := j') hj'
      simp only [hl] at hspot' hj'
      have hnodup := expert_tokens_nodup (tokens_nodup c) hr (r t)[k].1
      rw [hl] at hnodup
      have hsame : j' = j := by
        refine index_inj hnodup hj' hj ?_
        rw [hat, ← hspot'.1]
        exact htok
      rw [hsame]
  · obtain ⟨j, hj, rfl⟩ := hplace _ _ hpos
    obtain ⟨htok, hweight⟩ := hls.place hj
    have hmem := List.mem_filter.mp (List.getElem_mem hj)
    obtain ⟨hin, hq⟩ := mem_entriesOf.mp hmem.1
    obtain ⟨k, hk, hat⟩ := List.getElem_of_mem hq
    rw [htok, hweight]
    refine ⟨hin, k, (hr _ hin).count ▸ hk, ?_, ?_⟩
    · refine (htb.expert _ hin k hk).trans ?_
      rw [hat]
      exact beq_iff_eq.mp hmem.2
    · refine (Eq.trans (htb.weight _ hin k hk) ?_).symm
      rw [hat]

end

section

variable [Field K] [AddCommMonoid R] [SMul K R]

/-- A token's own experts, slot after slot of its row. -/
def slotSum (c : Batch) (tb : RoutingTables K) (f : Nat → R → R) (t : Nat) (y : R) : R :=
  (List.range c.NU).foldl
    (fun acc k => acc + (tb.weight c t k).real • f (tb.expert c t k) y) 0

theorem Holds.slotSum_eq {r : Nat → List (Nat × Val K)} {tb : RoutingTables K}
    (htb : Holds c r c.tokens tb) (f : Nat → R → R) {t : Nat} (ht : t ∈ c.tokens)
    (hr : Sound c r t) (y : R) : slotSum c tb f t y = tokenMajor f (r t) y := by
  rw [slotSum, tokenMajor,
    ← foldl_range_getElem? (fun y' (q : Nat × Val K) => y' + q.2.real • f q.1 y) (r t), hr.count]
  apply List.foldl_ext
  intro acc k hk
  have hk' : k < (r t).length := hr.count ▸ List.mem_range.mp hk
  have hexpert : tb.expert c t k = (r t)[k].1 := htb.expert t ht k hk'
  have hweight : tb.weight c t k = (r t)[k].2 := htb.weight t ht k hk'
  rw [hexpert, hweight, List.getElem?_eq_getElem hk']

variable [LinearOrder K] [IsStrictOrderedRing K]

/-- Where the softmax gives probabilities, the experts of a token are those of the token-major
step. -/
theorem gemma4MoeFfn_eq {e : K → K} {NE NU : Nat} {lt : Nat → Val K} {p : Nat → K}
    (hp : Probabilities (softmax e lt NE) NE p) (hNU : 1 ≤ NU) (hNE : NU ≤ NE) (f : Nat → R → R)
    (y : R) : gemma4MoeFfn e NE NU lt f y = some (tokenMajor f (route e NE NU lt) y) := by
  have hloop : ∀ k ≤ NE, (List.range k).foldlM (fun s _ => pickPlain (softmax e lt NE) NE s)
      ⟨fun _ => false, []⟩ = some (picks (softmax e lt NE) NE k) := by
    intro k
    induction k with
    | zero => exact fun _ => rfl
    | succ k ih =>
        intro hk
        have hfree := (picks_spec (h := softmax e lt NE) (show k ≤ NE by omega)).1.free hk
        obtain ⟨b, -, hbest, -⟩ := scanBest_prob hp hfree
        have hpicks : picks (softmax e lt NE) NE (k + 1) =
            pick (softmax e lt NE) NE (picks (softmax e lt NE) NE k) := by
          rw [picks, List.range_succ, List.foldl_append]
          rfl
        rw [List.range_succ, List.foldlM_append, ih (by omega), hpicks, pick, hbest]
        simp only [Option.bind_eq_bind, Option.bind_some, List.foldlM_cons, List.foldlM_nil]
        rw [pickPlain, hbest]
        rfl
  rw [gemma4MoeFfn, hloop NU hNE, route, renorm_prob hp hNU hNE]
  rfl

/-- Whatever the logits are, the tables give every token its experts, the lists hold them once,
and each token's row is what its own experts add up to. The transcoder refuses a model that uses
no expert. -/
theorem dispatch_routed {e : K → K} (hexp : ∀ y, 0 < e y) (c : Batch) (hNU : 1 ≤ c.NU)
    (hNE : c.NU ≤ c.NE) (hused : c.NE ≤ 256) (lt : Nat → Nat → Val K) (f : Nat → R → R)
    (x xb : Nat → R) :
    ∃ tb ls dmoe, dispatch e c lt f x xb = some (tb, ls, dmoe) ∧
      (∀ t ∈ c.tokens, Slots c tb t) ∧ Listed c tb ls ∧
      (∀ t ∈ c.tokens, dmoe t = slotSum c tb f t (x t)) ∧
      ∀ t ∈ c.tokens, ∀ y : Nat → K, (∀ i < c.NE, lt t i = .fin (y i)) →
        ∃ m s, maxLogit (lt t) c.NE = .fin m ∧ 0 < s ∧ MostProbable c tb t (prob e y m c.NE) ∧
          (∀ k < c.NU, tb.weight c t k = .fin (prob e y m c.NE (tb.expert c t k) / s)) ∧
          gemma4MoeFfn e c.NE c.NU (lt t) f (x t) = some (dmoe t) := by
  generalize hr : (fun t => route e c.NE c.NU (lt t)) = r
  have hrt : ∀ t, r t = route e c.NE c.NU (lt t) := fun t => by rw [← hr]
  have hrouted : ∀ t, ∃ w : Nat → K, Routed c.NE c.NU (r t) w := fun t => by
    rw [hrt]
    exact route_spec hexp (lt t) hNU hNE
  have hsound : ∀ t, Sound c r t := fun t => (hrouted t).choose_spec.sound
  obtain ⟨tb, htables, htb⟩ := routeAll_holds (c := c) fun t _ => hsound t
  obtain ⟨ls, hlists, hls⟩ := fillAll_filled htb fun t _ => hsound t
  obtain ⟨dmoe, hloop, hrow⟩ := expertLoop_row (f := f) (x := x) (fun t _ => hsound t) htb hls xb
  have hrun : dispatch e c lt f x xb = some (tb, ls, dmoe) := by
    have hfits : ¬ usedSize < c.NE := Nat.not_lt.mpr hused
    rw [dispatch, if_neg hfits, hr, htables]
    simp only [Option.bind_eq_bind, Option.bind_some]
    rw [hlists]
    simp only [Option.bind_some]
    rw [hloop]
    rfl
  refine ⟨tb, ls, dmoe, hrun, fun t ht => htb.slots ht (hrouted t).choose_spec,
    hls.listed htb fun t _ => hsound t, fun t ht => ?_, fun t ht y hy => ?_⟩
  · rw [hrow t ht, htb.slotSum_eq f ht (hsound t)]
  · obtain ⟨m, hmax, hp⟩ := softmax_ordinary hexp (by omega) hy
    obtain ⟨s, hs, hweights, hmost⟩ := route_prob hp hNU hNE
    rw [← hrt] at hweights hmost
    refine ⟨m, s, hmax, hs, htb.mostProbable ht (hsound t) hmost, fun k hk => ?_, ?_⟩
    · have hk' : k < (r t).length := (hsound t).count.symm ▸ hk
      have hexpert : tb.expert c t k = (r t)[k].1 := htb.expert t ht k hk'
      rw [hexpert]
      exact (htb.weight t ht k hk').trans (hweights.weight _ (List.getElem_mem hk'))
    · rw [gemma4MoeFfn_eq hp hNU hNE, ← hrt, hrow t ht]

/-- One token has no number among its logits, the other has equal ones. -/
theorem dispatch_routed_two : ∃ tb ls dmoe,
    dispatch Real.exp ⟨2, 1, 2, 0⟩ (fun t _ => if t = 0 then .nan else .fin 0)
      (fun e (y : ℝ) => y + e) (fun t => t) (fun _ => 0) = some (tb, ls, dmoe) ∧
      Slots ⟨2, 1, 2, 0⟩ tb 0 ∧ Slots ⟨2, 1, 2, 0⟩ tb 1 ∧ Listed ⟨2, 1, 2, 0⟩ tb ls := by
  obtain ⟨tb, ls, dmoe, hrun, hslots, hlisted, -⟩ :=
    dispatch_routed Real.exp_pos ⟨2, 1, 2, 0⟩ (by decide) (by decide) (by decide)
      (fun t _ => if t = 0 then .nan else .fin 0) (fun e (y : ℝ) => y + e) (fun t => t) fun _ => 0
  exact ⟨tb, ls, dmoe, hrun, hslots 0 (by decide), hslots 1 (by decide), hlisted⟩

end

end Whole

end ShannonPrime.Diffusion
