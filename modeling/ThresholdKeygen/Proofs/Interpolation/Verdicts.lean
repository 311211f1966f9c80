import ThresholdKeygen.Proofs.Coefficients
import ThresholdKeygen.Proofs.Interpolation

/-!
# When interpolation succeeds

Indices are integers, and the polynomials behind their values are over residues. Interpolation asks
for different integers and needs different residues. Main statement: `interpolate_exact`, it refuses
an empty list and repeated indices as such, divides by zero when two different indices are
congruent, and otherwise computes the polynomial of least degree through all points.
-/

namespace ThresholdKeygen

open Polynomial

/-! ### Shared inversion -/

/-- The only inversion is that of the whole product, so that a zero anywhere is noticed there. -/
theorem inverseChain_eq_error {acc : Scalar} {scalars : List Scalar}
    (h : acc * scalars.prod = 0) :
    inverseChain acc scalars = .error (.zeroDivision .noInverse) := by
  induction scalars generalizing acc with
  | nil =>
    rw [List.prod_nil, mul_one] at h
    rw [inverseChain, Scalar.inv, if_pos h]
    rfl
  | cons s scalars ih =>
    rw [List.prod_cons, ← mul_assoc] at h
    rw [inverseChain, ih h]
    rfl

theorem batchInverse_eq_error {scalars : List Scalar} (h : 0 ∈ scalars) :
    batchInverse scalars = .error (.zeroDivision .noInverse) := by
  rw [batchInverse, inverseChain_eq_error (by rw [List.prod_eq_zero h, mul_zero])]
  rfl

/-! ### Congruent indices -/

/-- That no two of some indices are congruent modulo the group order. -/
def Incongruent (indices : List Int) : Prop :=
  indices.Pairwise fun i j => ¬ i ≡ j [ZMOD groupOrder]

theorem intCast_eq_iff_modEq {i j : Int} : (i : Scalar) = j ↔ i ≡ j [ZMOD groupOrder] := by
  rw [Scalar.intCast_eq_intCast_iff, Int.modEq_comm, Int.modEq_iff_dvd]

section Indices

variable {indices : List Int} {i j place : Int}

/-- Incongruent indices are different scalars. -/
theorem incongruent_iff :
    Incongruent indices ↔ (indices.map fun i : Int => (i : Scalar)).Nodup := by
  rw [Incongruent, List.Nodup, List.pairwise_map]
  simp only [Ne, intCast_eq_iff_modEq]

theorem Incongruent.nodup (h : Incongruent indices) : indices.Nodup :=
  nodup_of_distinct (incongruent_iff.1 h)

theorem Incongruent.not_modEq (h : Incongruent indices) (hi : i ∈ indices) (hj : j ∈ indices)
    (hne : i ≠ j) : ¬ i ≡ j [ZMOD groupOrder] := by
  intro hmod
  exact hne (List.inj_on_of_nodup_map (incongruent_iff.1 h) hi hj (intCast_eq_iff_modEq.2 hmod))

/-- Among different indices that are not incongruent, two are congruent. -/
theorem exists_modEq (hnodup : indices.Nodup) (h : ¬ Incongruent indices) :
    ∃ i ∈ indices, ∃ j ∈ indices, i ≠ j ∧ i ≡ j [ZMOD groupOrder] := by
  by_contra hnone
  refine h (hnodup.pairwise_of_forall_ne fun i hi j hj hne hmod => hnone ?_)
  exact ⟨i, hi, j, hj, hne, hmod⟩

/-- A denominator has a zero factor when another index is congruent to the one it belongs to. -/
theorem denominator_eq_zero_iff :
    (lagrangeFraction i indices place).2 = 0 ↔ ∃ j ∈ indices, j ≠ i ∧ j ≡ i [ZMOD groupOrder] := by
  rw [lagrangeFraction_eq, List.prod_eq_zero_iff, List.mem_map]
  simp only [List.mem_filter, decide_eq_true_eq, and_assoc, sub_eq_zero,
    eq_comm (a := (i : Scalar)), intCast_eq_iff_modEq]

theorem lagrangeCoefficients_eq_error (hnodup : indices.Nodup) (hi : i ∈ indices)
    (hj : j ∈ indices) (hne : i ≠ j) (hmod : i ≡ j [ZMOD groupOrder]) :
    lagrangeCoefficients indices place = .error (.zeroDivision .noInverse) := by
  have hzero : 0 ∈ (indices.map fun i => lagrangeFraction i indices place).map Prod.snd :=
    List.mem_map.2 ⟨_, List.mem_map.2 ⟨i, hi, rfl⟩,
      denominator_eq_zero_iff.2 ⟨j, hj, hne.symm, hmod.symm⟩⟩
  rw [lagrangeCoefficients, if_neg (not_not.2 hnodup)]
  dsimp only [bind, Except.bind, pure, Except.pure]
  rw [batchInverse_eq_error hzero]

end Indices

/-! ### Interpolation -/

section Points

variable {points : List (Int × Scalar)} {place : Int}

/-- Through points with incongruent indices there is a polynomial, which interpolation computes. -/
theorem exists_interpolant (hne : points ≠ []) (h : Incongruent (points.map Prod.fst)) :
    ∃ f : Scalar[X], f.degree < points.length ∧
      (∀ point ∈ points, f.eval (point.1 : Scalar) = point.2) ∧
      ∀ place, interpolate points place = .ok (f.eval (place : Scalar)) := by
  have hdistinct : (points.map fun point => (point.1 : Scalar)).Nodup := by
    rw [incongruent_iff, List.map_map] at h
    exact h
  -- The indices of a Lagrange basis form a finite set, here that of the points themselves.
  have hinj : Set.InjOn (fun point : Int × Scalar => (point.1 : Scalar)) points.toFinset := by
    intro a ha b hb
    exact List.inj_on_of_nodup_map hdistinct (by simpa using ha) (by simpa using hb)
  have hcard : points.toFinset.card = points.length :=
    List.toFinset_card_of_nodup (List.Nodup.of_map _ hdistinct)
  let f := Lagrange.interpolate points.toFinset (fun point => (point.1 : Scalar)) Prod.snd
  have hvalue : ∀ point ∈ points, f.eval (point.1 : Scalar) = point.2 := fun point hpoint =>
    Lagrange.eval_interpolate_at_node _ hinj (List.mem_toFinset.2 hpoint)
  have hdegree : f.degree < points.length := hcard ▸ Lagrange.degree_interpolate_lt _ hinj
  exact ⟨f, hdegree, hvalue, fun place => interpolate_eq_eval hne hdistinct hdegree
    (fun point hpoint => (hvalue point hpoint).symm) place⟩

theorem interpolate_nil : interpolate [] place = .error (.value .noPoints) := rfl

theorem interpolate_of_repeated (hne : points ≠ []) (h : ¬ (points.map Prod.fst).Nodup) :
    interpolate points place = .error (.value .repeatedIndices) := by
  rw [interpolate, if_neg (by simpa using hne), lagrangeCoefficients, if_pos h]
  rfl

theorem interpolate_of_congruent (hnodup : (points.map Prod.fst).Nodup) {i j : Int}
    (hi : i ∈ points.map Prod.fst) (hj : j ∈ points.map Prod.fst) (hne : i ≠ j)
    (hmod : i ≡ j [ZMOD groupOrder]) :
    interpolate points place = .error (.zeroDivision .noInverse) := by
  have hpoints : points ≠ [] := by
    rintro rfl
    cases hi
  rw [interpolate, if_neg (by simpa using hpoints),
    lagrangeCoefficients_eq_error hnodup hi hj hne hmod]
  rfl

/-- What interpolation answers, by what is the matter with the indices. -/
inductive Interpolated (points : List (Int × Scalar)) : Except Error Scalar → Prop where
  | empty (h : points = []) : Interpolated points (.error (.value .noPoints))
  | repeated (hne : points ≠ []) (h : ¬ (points.map Prod.fst).Nodup) :
    Interpolated points (.error (.value .repeatedIndices))
  | congruent (hnodup : (points.map Prod.fst).Nodup) {i j : Int} (hi : i ∈ points.map Prod.fst)
    (hj : j ∈ points.map Prod.fst) (hne : i ≠ j) (hmod : i ≡ j [ZMOD groupOrder]) :
    Interpolated points (.error (.zeroDivision .noInverse))
  | value (hne : points ≠ []) (h : Incongruent (points.map Prod.fst)) (y : Scalar) :
    Interpolated points (.ok y)

theorem interpolated (points : List (Int × Scalar)) (place : Int) :
    Interpolated points (interpolate points place) := by
  by_cases hne : points = []
  · rw [hne, interpolate_nil]
    exact .empty rfl
  by_cases hnodup : (points.map Prod.fst).Nodup
  · by_cases h : Incongruent (points.map Prod.fst)
    · obtain ⟨f, -, -, heval⟩ := exists_interpolant hne h
      rw [heval]
      exact .value hne h _
    · obtain ⟨i, hi, j, hj, hij, hmod⟩ := exists_modEq hnodup h
      rw [interpolate_of_congruent hnodup hi hj hij hmod]
      exact .congruent hnodup hi hj hij hmod
  · rw [interpolate_of_repeated hne hnodup]
    exact .repeated hne hnodup

end Points

/-- The verdicts of interpolation for some points, at any place. -/
structure InterpolationVerdicts (points : List (Int × Scalar)) (place : Int) : Prop where
  value_iff : (∃ fault, interpolate points place = .error (.value fault)) ↔
    points = [] ∨ ¬ (points.map Prod.fst).Nodup
  zeroDivision_iff : (∃ fault, interpolate points place = .error (.zeroDivision fault)) ↔
    (points.map Prod.fst).Nodup ∧ ∃ i ∈ points.map Prod.fst, ∃ j ∈ points.map Prod.fst,
      i ≠ j ∧ i ≡ j [ZMOD groupOrder]
  ok_iff : (∃ y, interpolate points place = .ok y) ↔
    points ≠ [] ∧ Incongruent (points.map Prod.fst)

theorem interpolationVerdicts (points : List (Int × Scalar)) (place : Int) :
    InterpolationVerdicts points place := by
  have hanswer := interpolated points place
  constructor
  all_goals generalize interpolate points place = answer at hanswer ⊢
  · cases hanswer with
    | empty h => simp [h]
    | repeated hne h => simp [h]
    | congruent hnodup hi =>
      have hne : points ≠ [] := by
        rintro rfl
        cases hi
      simp [hne, hnodup]
    | value hne h => simp [hne, h.nodup]
  · cases hanswer with
    | empty h => simp [h]
    | repeated hne h => simp [h]
    | congruent hnodup hi hj hne hmod =>
      exact ⟨fun _ => ⟨hnodup, _, hi, _, hj, hne, hmod⟩, fun _ => ⟨_, rfl⟩⟩
    | value hne h =>
      refine ⟨nofun, ?_⟩
      rintro ⟨-, i, hi, j, hj, hij, hmod⟩
      exact absurd hmod (h.not_modEq hi hj hij)
  · cases hanswer with
    | empty h => simp [h]
    | repeated hne h => exact ⟨nofun, fun hboth => absurd hboth.2.nodup h⟩
    | congruent hnodup hi hj hne hmod =>
      exact ⟨nofun, fun hboth => absurd hmod (hboth.2.not_modEq hi hj hne)⟩
    | value hne h => exact ⟨fun _ => ⟨hne, h⟩, fun _ => ⟨_, rfl⟩⟩

/-- Interpolation through enough values of a polynomial is evaluation; through any values, it gives
each index its own; and it refuses exactly for want of points, or of different indices, or of
incongruent ones. -/
theorem interpolate_exact :
    (∀ (coeffs : Coefficients) (indices : List Int) (place : Int), indices ≠ [] →
      coeffs.length ≤ indices.length → Incongruent indices →
        interpolate (indices.map fun i => (i, coeffs.evaluate (Scalar.ofInt i))) place =
          .ok (coeffs.evaluate (Scalar.ofInt place))) ∧
    (∀ points : List (Int × Scalar), Incongruent (points.map Prod.fst) → ∀ point ∈ points,
      interpolate points point.1 = .ok point.2) ∧
    ∀ points place, InterpolationVerdicts points place := by
  refine ⟨fun coeffs indices place hne hlength h => ?_, fun points h point hpoint => ?_,
    interpolationVerdicts⟩
  · have hdegree : coeffs.toPolynomial.degree < indices.length :=
      coeffs.degree_toPolynomial_lt.trans_le (by exact_mod_cast hlength)
    have hvalues := interpolate_values (incongruent_iff.1 h) hne hdegree place
    simp only [Coefficients.eval_toPolynomial] at hvalues
    exact hvalues
  · obtain ⟨f, -, hvalue, heval⟩ := exists_interpolant (List.ne_nil_of_mem hpoint) h
    rw [heval, hvalue point hpoint]

/-- Indices below zero and above the group order, and a pair that is congruent. -/
theorem exists_interpolate_exact :
    Incongruent [-2, groupOrder + 5, 3] ∧
    interpolate (([-2, groupOrder + 5, 3] : List Int).map fun i =>
      (i, Coefficients.evaluate [30, 3, 1] (Scalar.ofInt i))) (-1) = .ok 28 ∧
    interpolate [(-2, 7), (groupOrder + 5, 0), (3, 1)] (groupOrder + 5) = .ok 0 ∧
    ∃ fault, interpolate [(1, 24), (groupOrder + 1, 59)] 0 = .error (.zeroDivision fault) := by
  have hindices : Incongruent [-2, groupOrder + 5, 3] := by
    rw [Incongruent]
    decide
  obtain ⟨hpolynomial, hvalue, hverdicts⟩ := interpolate_exact
  refine ⟨hindices, ?_, ?_, ?_⟩
  · rw [hpolynomial _ _ _ (by simp) (by simp) hindices]
    exact congrArg Except.ok (by decide)
  · exact hvalue [(-2, 7), (groupOrder + 5, 0), (3, 1)] hindices (groupOrder + 5, 0) (by simp)
  · exact (hverdicts _ _).zeroDivision_iff.2
      ⟨by decide, 1, .head _, groupOrder + 1, .tail _ (.head _), by decide, by decide⟩

end ThresholdKeygen
