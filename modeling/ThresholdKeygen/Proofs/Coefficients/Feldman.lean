import ThresholdKeygen.Proofs.Coefficients
import ThresholdKeygen.Proofs.Point.Residues

/-!
# Checks of honest commitments

A share is checked by evaluating the commitment in the exponent, with one multiple of a point per
coefficient. Main statement: `feldman_exact`, on the commitment to any polynomial this is the image
of its value, so that the check accepts this value and nothing else.
-/

namespace ThresholdKeygen

open Finset

/-- Horner's rule is the sum of the coefficients times powers. -/
theorem Coefficients.evaluate_eq_sum (coeffs : Coefficients) (x : Scalar) :
    coeffs.evaluate x = ∑ k ∈ range coeffs.length, coeffs.getD k 0 * x ^ k := by
  induction coeffs with
  | nil => simp
  | cons c coeffs ih =>
    rw [evaluate_cons, ih, List.length_cons, sum_range_succ']
    simp only [List.getD_cons_zero, List.getD_cons_succ, pow_zero, mul_one, sum_mul, mul_assoc,
      pow_succ]

/-- How the commitment to a polynomial is evaluated at an index, and which shares it accepts. -/
structure FeldmanExact (K : Type) [Suite K] (coeffs : Coefficients) (x : Int) : Prop where
  evaluate_eq : evaluateCommitment (coeffs.commit : List (Point K)) (Scalar.ofInt x) =
    .ofScalar (coeffs.evaluate (Scalar.ofInt x))
  evaluate_eq_sum : evaluateCommitment (coeffs.commit : List (Point K)) (Scalar.ofInt x) =
    .ofScalar (∑ k ∈ range coeffs.length, coeffs.getD k 0 * Scalar.ofInt x ^ k)
  accepts_iff : ∀ share, verifyShare (coeffs.commit : List (Point K)) share x = true ↔
    share = coeffs.evaluate (Scalar.ofInt x)
  verifyShare_eq : ∀ share, (Commitment.ofCoefficients coeffs : Commitment K).verifyShare share x =
    verifyShare (coeffs.commit : List (Point K)) share x

/-- The commitment to a polynomial evaluates to the image of the value, for any coefficients and at
any index, and both checks accept exactly this value as a share. -/
theorem feldman_exact {K : Type} [Suite K] [LawfulSuite K] (coeffs : Coefficients) (x : Int) :
    FeldmanExact K coeffs x where
  evaluate_eq := evaluateCommitment_commit coeffs _
  evaluate_eq_sum := by rw [evaluateCommitment_commit, Coefficients.evaluate_eq_sum]
  accepts_iff := by
    intro share
    have haccepts := (Commitment.ofCoefficients coeffs : Commitment K).verifyShare_iff share x
    rwa [Commitment.logs_ofCoefficients] at haccepts
  verifyShare_eq := fun _ => rfl

/-- Coefficients of which two are zero, at an index below zero: the value is accepted, and zero is
not. The polynomial without coefficients has the share zero everywhere. -/
theorem exists_feldman_exact :
    verifyShare (Coefficients.commit [5, 0, 3, 0] : List (Point ResidueKey)) 17 (-2) = true ∧
    verifyShare (Coefficients.commit [5, 0, 3, 0] : List (Point ResidueKey)) 0 (-2) = false ∧
    verifyShare (Coefficients.commit [] : List (Point ResidueKey)) 0 groupOrder = true := by
  have h := feldman_exact (K := ResidueKey) [5, 0, 3, 0] (-2)
  refine ⟨(h.accepts_iff _).2 (by decide), ?_, ?_⟩
  · rw [← Bool.not_eq_true, h.accepts_iff]
    decide
  · exact ((feldman_exact [] _).accepts_iff _).2 rfl

end ThresholdKeygen
