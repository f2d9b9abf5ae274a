import ShannonPrime.Cuda.Islands

/-!
The exponential of the islands is monotone, in spite of its roundings and of the seams
between the powers of two.
-/

namespace ShannonPrime.Cuda

open Islands Word64

theorem hornerStep_mono {table : Nat → Int} {r r' acc acc' next next' : Int} {k : Nat}
    (hr : 0 ≤ r) (hrr : r ≤ r') (hacc : 0 ≤ acc) (hle : acc ≤ acc')
    (h : hornerStep table r acc k = some next) (h' : hornerStep table r' acc' k = some next') :
    table k ≤ next ∧ next ≤ next' := by
  simp only [hornerStep, Option.bind_eq_bind, Option.bind_eq_some_iff, checked_eq_some] at h h'
  obtain ⟨-, ⟨-, rfl⟩, -, rfl⟩ := h
  obtain ⟨-, ⟨-, rfl⟩, -, rfl⟩ := h'
  have hprod : acc * r ≤ acc' * r' := mul_le_mul hle hrr hr (hacc.trans hle)
  have hquot : acc * r / one ≤ acc' * r' / one := Int.ediv_le_ediv scale_pos hprod
  have hnonneg : 0 ≤ acc * r / one := whole_nonneg (mul_nonneg hacc hr)
  constructor <;> omega

theorem horner_fold_mono {table : Nat → Int} {r r' : Int} (hr : 0 ≤ r) (hrr : r ≤ r')
    {ks : List Nat} (htable : ∀ k ∈ ks, 0 ≤ table k) {acc acc' p p' : Int} (hacc : 0 ≤ acc)
    (hle : acc ≤ acc') (h : ks.foldlM (hornerStep table r) acc = some p)
    (h' : ks.foldlM (hornerStep table r') acc' = some p') : p ≤ p' := by
  induction ks generalizing acc acc' with
  | nil =>
      cases h
      cases h'
      exact hle
  | cons k ks ih =>
      rw [List.foldlM_cons] at h h'
      obtain ⟨next, hnext, h⟩ := Option.bind_eq_some_iff.mp h
      obtain ⟨next', hnext', h'⟩ := Option.bind_eq_some_iff.mp h'
      obtain ⟨hlow, hstep⟩ := hornerStep_mono hr hrr hacc hle hnext hnext'
      have hk := htable k List.mem_cons_self
      exact ih (fun k hk => htable k (List.mem_cons_of_mem _ hk)) (hk.trans hlow) hstep h h'

theorem exp2Frac_mono {r r' p p' : Int} (hr : 0 ≤ r) (hrr : r ≤ r') (h : exp2Frac r = some p)
    (h' : exp2Frac r' = some p') : p ≤ p' :=
  horner_fold_mono hr hrr (by decide) (by decide) (le_refl _) h h'

/-- Within one power of two the values lie between it and the next smaller one. -/
theorem expOf_power {g e : Int} (hg : 0 ≤ g) (hn : g / one < 32)
    (he : expOf exp2Frac g = some e) :
    one / 2 ^ ((g / one).toNat + 1) ≤ e ∧ e ≤ one / 2 ^ (g / one).toNat := by
  have hone : one = 2 ^ 30 := rfl
  have hquot := whole_nonneg hg
  have hsucc : (g / one + 1).toNat = (g / one).toNat + 1 := by omega
  have hhalf : ∀ x : Int, x / 2 ^ ((g / one).toNat + 1) = x / 2 / 2 ^ (g / one).toNat := by
    intro x
    rw [pow_succ', Int.ediv_ediv_of_nonneg (by decide)]
  rcases eq_or_ne (g % one) 0 with hr | hr
  · rw [expOf_whole hg hn hr] at he
    cases he
    rw [hhalf]
    exact ⟨Int.ediv_le_ediv (by positivity) (by decide), le_refl _⟩
  · obtain ⟨p, hp, hlo, hhi⟩ := exp2Frac_rest g
    rw [expOf_frac hg hn hr hp, hsucc] at he
    cases he
    constructor
    · exact Int.ediv_le_ediv (by positivity) hlo
    · rw [hhalf]
      exact Int.ediv_le_ediv (by positivity) (by omega)

theorem expOf_anti {g g' e e' : Int} (hg : 0 ≤ g) (hle : g ≤ g')
    (he : expOf exp2Frac g = some e) (he' : expOf exp2Frac g' = some e') : e' ≤ e := by
  have hg' : 0 ≤ g' := hg.trans hle
  have hquot := whole_nonneg hg
  have hpow : g / one ≤ g' / one := Int.ediv_le_ediv scale_pos hle
  have hsplit := Int.emod_add_mul_ediv g one
  have hsplit' := Int.emod_add_mul_ediv g' one
  have hbounds := rest_bounds g
  have hbounds' := rest_bounds g'
  rcases Int.lt_or_le (g' / one) 32 with hn' | hn'
  · have hn : g / one < 32 := by omega
    obtain ⟨hlow, hhigh⟩ := expOf_power hg hn he
    obtain ⟨hlow', hhigh'⟩ := expOf_power hg' hn' he'
    rcases eq_or_lt_of_le hpow with heq | hless
    · -- within one power the fraction decides
      rcases eq_or_ne (g % one) 0 with hr | hr
      · rw [expOf_whole hg hn hr] at he
        cases he
        rw [heq]
        exact hhigh'
      · have hfrac : g % one ≤ g' % one := by
          rw [heq] at hsplit
          omega
        obtain ⟨p, hp, -, -⟩ := exp2Frac_rest g
        obtain ⟨p', hp', -, -⟩ := exp2Frac_rest g'
        rw [expOf_frac hg hn hr hp, heq] at he
        rw [expOf_frac hg' hn' (by omega) hp'] at he'
        cases he
        cases he'
        exact Int.ediv_le_ediv (by positivity)
          (exp2Frac_mono (by omega) (by omega) hp' hp)
    · have hexp : (g / one).toNat + 1 ≤ (g' / one).toNat := by omega
      calc e' ≤ one / 2 ^ (g' / one).toNat := hhigh'
        _ ≤ one / 2 ^ ((g / one).toNat + 1) := by
            rw [← Nat.sub_add_cancel hexp, pow_add, mul_comm,
              ← Int.ediv_ediv_of_nonneg (by positivity)]
            exact Int.ediv_le_self _ (Int.ediv_nonneg scale_pos.le (by positivity))
        _ ≤ e := hlow
  · rw [expOf_past hn'] at he'
    cases he'
    obtain ⟨e₀, he₀, hnonneg, -⟩ := expOf_some hg
    rw [he] at he₀
    cases he₀
    exact hnonneg

/-- The kernel's exponential for the arguments a score can give. -/
theorem bxExpFixed_some {d : Int} (hlo : -2 ^ 62 < d) :
    ∃ e, bxExpFixed d = some e ∧ 0 ≤ e ∧ e ≤ bxOne := by
  rcases Int.lt_or_le d 0 with hneg | hnonneg
  · have hone : one = 2 ^ 30 := rfl
    have hlog : log2e = 1549082005 := rfl
    have hfit : -(d * log2e / one) < 2 ^ 63 := by
      rw [hlog, hone]
      omega
    rw [bxExpFixed_eq hneg hfit]
    exact expOf_some (exponent_nonneg hneg)
  · exact ⟨bxOne, if_pos hnonneg, by decide, le_refl _⟩

theorem bxExpFixed_mono {d d' e e' : Int} (hlo : -2 ^ 62 < d) (hle : d ≤ d')
    (he : bxExpFixed d = some e) (he' : bxExpFixed d' = some e') : e ≤ e' := by
  rcases Int.lt_or_le d' 0 with hneg' | hnonneg'
  · have hone : one = 2 ^ 30 := rfl
    have hlog : log2e = 1549082005 := rfl
    have hneg : d < 0 := by omega
    have hfit : -(d * log2e / one) < 2 ^ 63 := by
      rw [hlog, hone]
      omega
    have hfit' : -(d' * log2e / one) < 2 ^ 63 := by
      rw [hlog, hone]
      omega
    rw [bxExpFixed_eq hneg hfit] at he
    rw [bxExpFixed_eq hneg' hfit'] at he'
    apply expOf_anti (exponent_nonneg hneg') _ he' he
    exact Int.ediv_le_ediv scale_pos (mul_le_mul_of_nonneg_right (by omega) (by decide))
  · obtain ⟨e₀, he₀, -, htop⟩ := bxExpFixed_some hlo
    rw [he] at he₀
    cases he₀
    rw [bxExpFixed, if_pos hnonneg'] at he'
    cases he'
    exact htop

end ShannonPrime.Cuda
