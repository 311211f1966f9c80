import ThresholdKeygen.Proofs.Interpolation.Verdicts
import ThresholdKeygen.Proofs.Refusal

/-!
# One inversion for many scalars

Multiplying scalars up and inverting their product costs a single inversion. Main statement:
`batchInverse_exact`, the answer is that of inverting the scalars one by one, also in its refusal.
-/

namespace ThresholdKeygen

theorem Scalar.inv_zero : Scalar.inv 0 = .error (.zeroDivision .noInverse) := if_pos rfl

theorem Scalar.inv_eq_ok_iff {s inverse : Scalar} : s.inv = .ok inverse ↔ s * inverse = 1 := by
  by_cases hs : s = 0
  · simp [hs, Scalar.inv_zero]
  · rw [Scalar.inv_eq hs, Except.ok.injEq]
    constructor
    · rintro rfl
      exact mul_inv_cancel₀ hs
    · exact fun h => (eq_inv_of_mul_eq_one_right h).symm

/-- One by one, the first zero stops the inversions. -/
theorem mapM_inv_eq (scalars : List Scalar) : scalars.mapM Scalar.inv =
    if 0 ∈ scalars then .error (.zeroDivision .noInverse) else .ok (scalars.map (·⁻¹)) := by
  split
  · rename_i hzero
    obtain ⟨before, after, rfl, hbefore⟩ := List.eq_append_cons_of_mem hzero
    refine mapM_eq_error_iff.2 ⟨before, 0, after, rfl, fun s hs => ?_, Scalar.inv_zero⟩
    exact ⟨_, Scalar.inv_eq (ne_of_mem_of_not_mem hs hbefore)⟩
  · rename_i hzero
    exact mapM_eq_ok fun s hs => Scalar.inv_eq (ne_of_mem_of_not_mem hs hzero)

/-- All at once, a zero anywhere makes the product zero. -/
theorem batchInverse_eq_ite (scalars : List Scalar) : batchInverse scalars =
    if 0 ∈ scalars then .error (.zeroDivision .noInverse) else .ok (scalars.map (·⁻¹)) := by
  split
  · exact batchInverse_eq_error ‹_›
  · exact batchInverse_eq fun s hs => ne_of_mem_of_not_mem hs ‹_›

/-- What one inversion for some scalars comes to. -/
structure SharedInversion (scalars : List Scalar) : Prop where
  eq_mapM : batchInverse scalars = scalars.mapM Scalar.inv
  zeroDivision_iff : (∃ fault, batchInverse scalars = .error (.zeroDivision fault)) ↔ 0 ∈ scalars
  ok_iff : (∃ inverses, batchInverse scalars = .ok inverses) ↔ 0 ∉ scalars
  inverses_iff : ∀ inverses, batchInverse scalars = .ok inverses ↔
    List.Forall₂ (fun s inverse => s * inverse = 1) scalars inverses

/-- One inversion for all scalars answers like an inversion for each of them: it divides by zero
exactly when one of them is zero, and otherwise gives the inverse of each at its place. -/
theorem batchInverse_exact (scalars : List Scalar) : SharedInversion scalars where
  eq_mapM := by rw [batchInverse_eq_ite, mapM_inv_eq]
  zeroDivision_iff := by
    rw [batchInverse_eq_ite]
    split <;> simp [*]
  ok_iff := by
    rw [batchInverse_eq_ite]
    split <;> simp [*]
  inverses_iff := by
    intro inverses
    rw [batchInverse_eq_ite, ← mapM_inv_eq, mapM_eq_ok_iff]
    simp only [Scalar.inv_eq_ok_iff]

end ThresholdKeygen
