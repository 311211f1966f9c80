import Mathlib.LinearAlgebra.Lagrange
import ThresholdKeygen.Proofs.Scalar.Field

/-!
# Interpolation recovers polynomials

Lagrange coefficients are computed with one shared inversion. Main statement: `interpolate_eq_eval`,
through enough points of a polynomial, with indices that differ as scalars, interpolation computes
the value of that polynomial anywhere.
-/

namespace ThresholdKeygen

open Polynomial

/-! ### Shared inversion -/

theorem inverseChain_eq {acc : Scalar} {scalars : List Scalar} (hacc : acc ≠ 0)
    (hne : ∀ s ∈ scalars, s ≠ 0) :
    inverseChain acc scalars = .ok (acc⁻¹, scalars.map (·⁻¹)) := by
  induction scalars generalizing acc with
  | nil =>
    rw [inverseChain, Scalar.inv_eq hacc]
    rfl
  | cons s scalars ih =>
    obtain ⟨hs, hrest⟩ := List.forall_mem_cons.1 hne
    have hinverse : (acc * s)⁻¹ * s = acc⁻¹ := by field_simp
    have hshare : acc * (acc * s)⁻¹ = s⁻¹ := by field_simp
    rw [inverseChain, ih (mul_ne_zero hacc hs) hrest]
    simp only [bind, Except.bind, pure, Except.pure, hinverse, hshare, List.map_cons]

theorem batchInverse_eq {scalars : List Scalar} (hne : ∀ s ∈ scalars, s ≠ 0) :
    batchInverse scalars = .ok (scalars.map (·⁻¹)) := by
  rw [batchInverse, inverseChain_eq one_ne_zero hne]
  rfl

/-! ### Lagrange coefficients -/

theorem lagrangeFraction_eq (target place : Int) (indices : List Int) :
    lagrangeFraction target indices place =
      (((indices.filter (· ≠ target)).map fun j : Int => (place : Scalar) - j).prod,
        ((indices.filter (· ≠ target)).map fun j : Int => (target : Scalar) - j).prod) := by
  unfold lagrangeFraction
  suffices h : ∀ num den : Scalar, indices.foldl _ (num, den) =
      (num * ((indices.filter (· ≠ target)).map fun j : Int => (place : Scalar) - j).prod,
        den * ((indices.filter (· ≠ target)).map fun j : Int => (target : Scalar) - j).prod) by
    rw [h, one_mul, one_mul]
  intro num den
  induction indices generalizing num den with
  | nil => simp
  | cons j indices ih =>
    rw [List.foldl_cons]
    by_cases hj : j = target
    · dsimp only
      rw [if_pos hj, ih, List.filter_cons_of_neg (by simpa using hj)]
    · dsimp only
      rw [if_neg hj, ih, List.filter_cons_of_pos (by simpa using hj), List.map_cons,
        List.map_cons, List.prod_cons, List.prod_cons, ← mul_assoc, ← mul_assoc]
      rfl

section Distinct

variable {indices : List Int} (hdistinct : (indices.map fun i : Int => (i : Scalar)).Nodup)

include hdistinct

theorem nodup_of_distinct : indices.Nodup := List.Nodup.of_map _ hdistinct

theorem injOn_of_distinct : Set.InjOn (fun i : Int => (i : Scalar)) indices.toFinset := by
  intro i hi j hj h
  exact List.inj_on_of_nodup_map hdistinct (by simpa using hi) (by simpa using hj) h

theorem denominator_ne_zero {target : Int} (htarget : target ∈ indices) :
    (lagrangeFraction target indices place).2 ≠ 0 := by
  rw [lagrangeFraction_eq, Ne, List.prod_eq_zero_iff, List.mem_map]
  rintro ⟨j, hj, hzero⟩
  simp only [List.mem_filter, decide_eq_true_eq] at hj
  exact hj.2 (List.inj_on_of_nodup_map hdistinct hj.1 htarget (sub_eq_zero.1 hzero).symm)

theorem lagrangeCoefficients_eq (place : Int) :
    lagrangeCoefficients indices place =
      .ok (indices.map fun i => (i, (lagrangeFraction i indices place).1 *
        (lagrangeFraction i indices place).2⁻¹)) := by
  have hinverse : batchInverse ((indices.map fun i => lagrangeFraction i indices place).map
      Prod.snd) = .ok ((indices.map fun i => (lagrangeFraction i indices place).2⁻¹)) := by
    rw [batchInverse_eq, List.map_map, List.map_map]
    · rfl
    · intro s hs
      simp only [List.map_map, List.mem_map, Function.comp_apply] at hs
      obtain ⟨i, hi, rfl⟩ := hs
      exact denominator_ne_zero hdistinct hi
  rw [lagrangeCoefficients, if_neg (not_not.2 (nodup_of_distinct hdistinct))]
  simp only [bind, Except.bind, pure, Except.pure]
  rw [hinverse]
  simp only [List.zip, List.map_map, List.zipWith_map_left, List.zipWith_map_right,
    List.zipWith_self, Function.comp_apply]

/-- The value of a polynomial of the Lagrange basis, as a quotient of products. -/
theorem eval_basis_eq (target place : Int) :
    (Lagrange.basis indices.toFinset (fun i : Int => (i : Scalar)) target).eval (place : Scalar) =
      (lagrangeFraction target indices place).1 * (lagrangeFraction target indices place).2⁻¹ := by
  have herase : indices.toFinset.erase target = (indices.filter (· ≠ target)).toFinset := by
    ext j
    simp [and_comm]
  have hnodup : (indices.filter (· ≠ target)).Nodup := (nodup_of_distinct hdistinct).filter _
  rw [Lagrange.basis, herase, List.prod_toFinset _ hnodup, eval_list_prod, List.map_map,
    lagrangeFraction_eq, List.prod_inv, List.map_map, ← List.prod_map_mul]
  refine congrArg List.prod (List.map_congr_left fun j _ => ?_)
  simp [Lagrange.basisDivisor, mul_comm]

/-- Interpolation through values of a polynomial at enough indices. -/
theorem interpolate_values {f : Scalar[X]} (hne : indices ≠ [])
    (hdegree : f.degree < indices.length)
    (place : Int) :
    interpolate (indices.map fun i : Int => (i, f.eval (i : Scalar))) place =
      .ok (f.eval (place : Scalar)) := by
  have hnodup := nodup_of_distinct hdistinct
  have hcard : f.degree < (indices.toFinset.card : WithBot ℕ) := by
    rwa [List.toFinset_card_of_nodup hnodup]
  have hlagrange : f.eval (place : Scalar) = (indices.map fun i : Int =>
      (lagrangeFraction i indices place).1 * (lagrangeFraction i indices place).2⁻¹ *
        f.eval (i : Scalar)).sum := by
    conv_lhs => rw [Lagrange.eq_interpolate (injOn_of_distinct hdistinct) hcard]
    rw [Lagrange.interpolate_apply, List.sum_toFinset _ hnodup, eval_listSum, List.map_map]
    refine congrArg List.sum (List.map_congr_left fun i _ => ?_)
    rw [Function.comp_apply, eval_mul, eval_C, eval_basis_eq hdistinct, mul_comm]
  have hfst : (indices.map fun i : Int => (i, f.eval (i : Scalar))).map Prod.fst = indices := by
    simp [Function.comp_def]
  rw [interpolate, if_neg (by simpa using hne), hfst, lagrangeCoefficients_eq hdistinct, hlagrange]
  simp only [bind, Except.bind, pure, Except.pure, List.map_map, List.zipWith_map,
    List.zipWith_self, Scalar.sum_eq, Function.comp_apply]

end Distinct

/-- Interpolation through enough points of a polynomial is evaluation. -/
theorem interpolate_eq_eval {points : List (Int × Scalar)} {f : Scalar[X]} (hne : points ≠ [])
    (hdistinct : (points.map fun point => (point.1 : Scalar)).Nodup)
    (hdegree : f.degree < points.length)
    (hvalue : ∀ point ∈ points, point.2 = f.eval (point.1 : Scalar)) (place : Int) :
    interpolate points place = .ok (f.eval (place : Scalar)) := by
  have hpoints : points = (points.map Prod.fst).map fun i : Int => (i, f.eval (i : Scalar)) := by
    rw [List.map_map]
    refine (List.map_id points).symm.trans (List.map_congr_left fun point hpoint => ?_)
    exact Prod.ext rfl (hvalue point hpoint)
  rw [hpoints]
  refine interpolate_values ?_ (by simpa using hne) (by simpa using hdegree) place
  rwa [List.map_map]

/-- Interpolation weighs the values of its points by the coefficients of their indices. -/
theorem sum_of_interpolate_eq_ok {points : List (Int × Scalar)} {place : Int} {y : Scalar}
    {coefficients : List (Int × Scalar)}
    (hcoefficients : lagrangeCoefficients (points.map Prod.fst) place = .ok coefficients)
    (h : interpolate points place = .ok y) :
    (List.zipWith (· * ·) (coefficients.map Prod.snd) (points.map Prod.snd)).sum = y := by
  rw [interpolate] at h
  split at h
  · cases h
  · dsimp only [bind, Except.bind, pure, Except.pure] at h
    rw [hcoefficients] at h
    rw [← Scalar.sum_eq]
    exact Except.ok.inj h

end ThresholdKeygen
