import ThresholdKeygen.Proofs.Interpolation.Verdicts

/-!
# Coefficients together and one by one

The Lagrange coefficients of some indices are computed together, with one inversion for all of them,
or each on its own, with a division. The first way needs all indices to be incongruent, the second
only that none is congruent to the one asked for. Main statement: `coefficients_agree`, where the
first way succeeds both compute the same coefficients, which add up to one, and each way fails
exactly for want of what it needs.
-/

namespace ThresholdKeygen

open Polynomial

/-! ### Division -/

namespace Scalar

theorem div_eq (a : Scalar) {b : Scalar} (hb : b ≠ 0) : a.div b = .ok (a * b⁻¹) := by
  rw [div, inv_eq hb]
  rfl

theorem div_eq_error (a : Scalar) {b : Scalar} (hb : b = 0) :
    a.div b = .error (.zeroDivision .noInverse) := by
  rw [div, inv, if_pos hb]
  rfl

end Scalar

section Indices

variable {indices : List Int} {i place : Int}

/-! ### Single coefficients -/

/-- Among different indices, the coefficient of one of them is a quotient. -/
theorem lagrangeCoefficient_eq_div (hi : i ∈ indices) (hnodup : indices.Nodup) :
    lagrangeCoefficient i indices place =
      (lagrangeFraction i indices place).1.div (lagrangeFraction i indices place).2 := by
  rw [lagrangeCoefficient, if_neg (not_not.2 hi), if_neg (not_not.2 hnodup)]

/-- A single coefficient needs a target among different indices, of which no other is congruent to
the target. -/
theorem exists_lagrangeCoefficient_iff :
    (∃ c, lagrangeCoefficient i indices place = .ok c) ↔
      i ∈ indices ∧ indices.Nodup ∧ ∀ j ∈ indices, j ≠ i → ¬ j ≡ i [ZMOD groupOrder] := by
  constructor
  · rintro ⟨c, hc⟩
    have hi : i ∈ indices := by
      by_contra hi
      rw [lagrangeCoefficient, if_pos hi] at hc
      cases hc
    have hnodup : indices.Nodup := by
      by_contra hnodup
      rw [lagrangeCoefficient, if_neg (not_not.2 hi), if_pos hnodup] at hc
      cases hc
    refine ⟨hi, hnodup, fun j hj hne hmod => ?_⟩
    have hzero := (@denominator_eq_zero_iff indices i place).2 ⟨j, hj, hne, hmod⟩
    rw [lagrangeCoefficient_eq_div hi hnodup, Scalar.div_eq_error _ hzero] at hc
    cases hc
  · rintro ⟨hi, hnodup, hapart⟩
    rw [lagrangeCoefficient_eq_div hi hnodup]
    refine ⟨_, Scalar.div_eq _ fun hzero => ?_⟩
    obtain ⟨j, hj, hne, hmod⟩ := denominator_eq_zero_iff.1 hzero
    exact hapart j hj hne hmod

theorem lagrangeCoefficient_zeroDivision_iff (hi : i ∈ indices) (hnodup : indices.Nodup) :
    (∃ fault, lagrangeCoefficient i indices place = .error (.zeroDivision fault)) ↔
      ∃ j ∈ indices, j ≠ i ∧ j ≡ i [ZMOD groupOrder] := by
  rw [lagrangeCoefficient_eq_div hi hnodup, ← @denominator_eq_zero_iff indices i place]
  constructor
  · rintro ⟨fault, hfault⟩
    by_contra hne
    rw [Scalar.div_eq _ hne] at hfault
    cases hfault
  · intro hzero
    exact ⟨_, Scalar.div_eq_error _ hzero⟩

/-! ### All coefficients -/

theorem exists_lagrangeCoefficients_iff :
    (∃ coefficients, lagrangeCoefficients indices place = .ok coefficients) ↔
      Incongruent indices := by
  constructor
  · rintro ⟨coefficients, hcoefficients⟩
    by_contra h
    by_cases hnodup : indices.Nodup
    · obtain ⟨i, hi, j, hj, hne, hmod⟩ := exists_modEq hnodup h
      rw [lagrangeCoefficients_eq_error hnodup hi hj hne hmod] at hcoefficients
      cases hcoefficients
    · rw [lagrangeCoefficients, if_pos hnodup] at hcoefficients
      cases hcoefficients
  · intro h
    exact ⟨_, lagrangeCoefficients_eq (incongruent_iff.1 h) place⟩

/-- What has been computed for incongruent indices, as quotients. -/
theorem of_lagrangeCoefficients_eq_ok {coefficients : List (Int × Scalar)}
    (h : lagrangeCoefficients indices place = .ok coefficients) :
    Incongruent indices ∧ coefficients = indices.map fun i =>
      (i, (lagrangeFraction i indices place).1 * (lagrangeFraction i indices place).2⁻¹) := by
  have hincongruent := exists_lagrangeCoefficients_iff.1 ⟨coefficients, h⟩
  rw [lagrangeCoefficients_eq (incongruent_iff.1 hincongruent)] at h
  exact ⟨hincongruent, (Except.ok.inj h).symm⟩

/-- The basis of the polynomials through some indices adds up to the polynomial one. -/
theorem sum_quotients (h : Incongruent indices) (hne : indices ≠ []) :
    (indices.map fun i =>
      (lagrangeFraction i indices place).1 * (lagrangeFraction i indices place).2⁻¹).sum = 1 := by
  have hdistinct := incongruent_iff.1 h
  have hbasis := Lagrange.sum_basis (injOn_of_distinct hdistinct)
    ((List.toFinset_nonempty_iff indices).2 hne)
  calc (indices.map fun i =>
      (lagrangeFraction i indices place).1 * (lagrangeFraction i indices place).2⁻¹).sum
    _ = (indices.map fun i => (Lagrange.basis indices.toFinset (fun i : Int => (i : Scalar))
          i).eval (place : Scalar)).sum := by simp only [eval_basis_eq hdistinct]
    _ = (∑ i ∈ indices.toFinset, Lagrange.basis indices.toFinset (fun i : Int => (i : Scalar))
          i).eval (place : Scalar) := by
      rw [eval_finsetSum, List.sum_toFinset _ h.nodup]
    _ = 1 := by rw [hbasis, eval_one]

end Indices

/-! ### Agreement -/

/-- What the coefficients of some indices at a place have to do with each other, computed together
and one by one. -/
structure CoefficientsAgree (indices : List Int) (place : Int) : Prop where
  /-- Together they are computed for the indices in their order. -/
  indices_eq (coefficients : List (Int × Scalar))
    (h : lagrangeCoefficients indices place = .ok coefficients) :
    coefficients.map Prod.fst = indices
  single_eq (coefficients : List (Int × Scalar))
    (h : lagrangeCoefficients indices place = .ok coefficients) :
    ∀ entry ∈ coefficients, lagrangeCoefficient entry.1 indices place = .ok entry.2
  sum_eq_one (coefficients : List (Int × Scalar))
    (h : lagrangeCoefficients indices place = .ok coefficients) (hne : indices ≠ []) :
    Scalar.sum (coefficients.map Prod.snd) = 1
  returns_iff : (∃ coefficients, lagrangeCoefficients indices place = .ok coefficients) ↔
    Incongruent indices
  single_returns_iff (i : Int) : (∃ c, lagrangeCoefficient i indices place = .ok c) ↔
    i ∈ indices ∧ indices.Nodup ∧ ∀ j ∈ indices, j ≠ i → ¬ j ≡ i [ZMOD groupOrder]
  single_zeroDivision_iff (hnodup : indices.Nodup) (i : Int) (hi : i ∈ indices) :
    (∃ fault, lagrangeCoefficient i indices place = .error (.zeroDivision fault)) ↔
      ∃ j ∈ indices, j ≠ i ∧ j ≡ i [ZMOD groupOrder]

/-- Both ways to Lagrange coefficients agree, and fail for want of incongruent indices only. -/
theorem coefficients_agree (indices : List Int) (place : Int) :
    CoefficientsAgree indices place := by
  refine ⟨fun coefficients h => ?_, fun coefficients h entry hentry => ?_,
    fun coefficients h hne => ?_, exists_lagrangeCoefficients_iff,
    fun _ => exists_lagrangeCoefficient_iff,
    fun hnodup _ hi => lagrangeCoefficient_zeroDivision_iff hi hnodup⟩
  · obtain ⟨-, rfl⟩ := of_lagrangeCoefficients_eq_ok h
    simp [Function.comp_def]
  · obtain ⟨hincongruent, rfl⟩ := of_lagrangeCoefficients_eq_ok h
    obtain ⟨i, hi, rfl⟩ := List.mem_map.1 hentry
    rw [lagrangeCoefficient_eq_div hi hincongruent.nodup]
    exact Scalar.div_eq _ (denominator_ne_zero (incongruent_iff.1 hincongruent) hi)
  · obtain ⟨hincongruent, rfl⟩ := of_lagrangeCoefficients_eq_ok h
    rw [Scalar.sum_eq, List.map_map]
    exact sum_quotients hincongruent hne

/-- Indices below zero and above the group order, at a place that is none of them; and three indices
of which two are congruent, where only the third one has a coefficient. -/
theorem exists_coefficients_agree :
    (∃ coefficients, lagrangeCoefficients [-2, groupOrder + 5, 3] 7 = .ok coefficients ∧
      (∀ entry ∈ coefficients,
        lagrangeCoefficient entry.1 [-2, groupOrder + 5, 3] 7 = .ok entry.2) ∧
      Scalar.sum (coefficients.map Prod.snd) = 1) ∧
    (¬ ∃ coefficients, lagrangeCoefficients [1, 2, groupOrder + 2] 0 = .ok coefficients) ∧
    (∃ c, lagrangeCoefficient 1 [1, 2, groupOrder + 2] 0 = .ok c) ∧
    ∃ fault, lagrangeCoefficient 2 [1, 2, groupOrder + 2] 0 = .error (.zeroDivision fault) := by
  have hagree := coefficients_agree [-2, groupOrder + 5, 3] 7
  have hagree' := coefficients_agree [1, 2, groupOrder + 2] 0
  refine ⟨?_, ?_, ?_, ?_⟩
  · have hindices : Incongruent [-2, groupOrder + 5, 3] := by
      rw [Incongruent]
      decide
    obtain ⟨coefficients, h⟩ := hagree.returns_iff.2 hindices
    exact ⟨coefficients, h, hagree.single_eq _ h, hagree.sum_eq_one _ h (by simp)⟩
  · rw [hagree'.returns_iff, Incongruent]
    decide
  · exact (hagree'.single_returns_iff 1).2 ⟨by simp, by decide, by decide⟩
  · exact (hagree'.single_zeroDivision_iff (by decide) 2 (by simp)).2
      ⟨groupOrder + 2, by simp, by decide, by decide⟩

end ThresholdKeygen
