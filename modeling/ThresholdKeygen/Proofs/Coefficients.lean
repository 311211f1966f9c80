import Mathlib.Algebra.Polynomial.Degree.Lemmas
import Mathlib.Algebra.Polynomial.Eval.Degree
import ThresholdKeygen.Commitment
import ThresholdKeygen.Proofs.Point.Logarithm

/-!
# Coefficient lists as polynomials

Horner's rule computes the value of the polynomial with given coefficients, a row of powers does so
too, and on commitments both do it in the exponent. Main statement: `verifyShare_iff`, a commitment
accepts for an index exactly one share, the value there.
-/

namespace ThresholdKeygen

open Polynomial

namespace Coefficients

/-- The polynomial with some coefficients. -/
noncomputable def toPolynomial : Coefficients → Scalar[X]
  | [] => 0
  | c :: coeffs => C c + X * toPolynomial coeffs

@[simp] theorem evaluate_nil (x : Scalar) : evaluate [] x = 0 := rfl

@[simp] theorem evaluate_cons (c : Scalar) (coeffs : Coefficients) (x : Scalar) :
    evaluate (c :: coeffs) x = evaluate coeffs x * x + c := rfl

/-- Horner's rule is evaluation. -/
theorem eval_toPolynomial (coeffs : Coefficients) (x : Scalar) :
    coeffs.toPolynomial.eval x = coeffs.evaluate x := by
  induction coeffs with
  | nil => simp [toPolynomial]
  | cons c coeffs ih =>
    rw [toPolynomial, evaluate_cons, eval_add, eval_C, eval_mul, eval_X, ih]
    ring

theorem degree_toPolynomial_lt (coeffs : Coefficients) :
    coeffs.toPolynomial.degree < coeffs.length := by
  induction coeffs with
  | nil => simp [toPolynomial]
  | cons c coeffs ih =>
    rw [toPolynomial, List.length_cons, Nat.cast_succ]
    refine (degree_add_le _ _).trans_lt (max_lt ?_ ?_)
    · apply degree_C_le.trans_lt
      exact_mod_cast Nat.succ_pos coeffs.length
    · rw [mul_comm, degree_mul_X]
      exact WithBot.add_lt_add_right (by decide) ih

/-- At zero only the constant term is left. -/
theorem evaluate_zero (coeffs : Coefficients) : coeffs.evaluate 0 = coeffs.headD 0 := by
  cases coeffs with
  | nil => rfl
  | cons c coeffs => simp

/-! ### Sums -/

section Sums

variable {ι : Type} (places : List ι) (x : Scalar)

theorem evaluate_map_zero : evaluate (places.map fun _ => 0) x = 0 := by
  induction places with
  | nil => rfl
  | cons k places ih => rw [List.map_cons, evaluate_cons, ih, zero_mul, zero_add]

theorem evaluate_map_add (a b : ι → Scalar) :
    evaluate (places.map fun k => a k + b k) x =
      evaluate (places.map a) x + evaluate (places.map b) x := by
  induction places with
  | nil => simp
  | cons k places ih =>
    rw [List.map_cons, List.map_cons, List.map_cons, evaluate_cons, evaluate_cons, evaluate_cons,
      ih]
    ring

theorem evaluate_map_mul (w : Scalar) (a : ι → Scalar) :
    evaluate (places.map fun k => w * a k) x = w * evaluate (places.map a) x := by
  induction places with
  | nil => simp
  | cons k places ih =>
    rw [List.map_cons, List.map_cons, evaluate_cons, evaluate_cons, ih]
    ring

/-- Adding up polynomials coefficient by coefficient adds up their values. -/
theorem evaluate_map_sum {κ : Type} (members : List κ) (a : κ → ι → Scalar) :
    evaluate (places.map fun k => (members.map fun i => a i k).sum) x =
      (members.map fun i => evaluate (places.map (a i)) x).sum := by
  induction members with
  | nil => simpa using evaluate_map_zero places x
  | cons i members ih =>
    simp only [List.map_cons, List.sum_cons]
    rw [evaluate_map_add, ih]

end Sums

theorem map_range_getD (coeffs : Coefficients) :
    (List.range coeffs.length).map (fun k => coeffs.getD k 0) = coeffs := by
  apply List.ext_getElem (by simp)
  intro k hk _
  simp only [List.length_map, List.length_range] at hk
  simp [List.getElem?_eq_getElem hk]

/-! ### Rows of powers -/

theorem sum_zipWith_powersFrom (x acc : Scalar) (coeffs : Coefficients) :
    (List.zipWith (· * ·) (powersFrom x acc coeffs.length) coeffs).sum =
      acc * coeffs.evaluate x := by
  induction coeffs generalizing acc with
  | nil => simp [powersFrom]
  | cons c coeffs ih =>
    rw [List.length_cons, powersFrom, List.zipWith_cons_cons, List.sum_cons, ih, evaluate_cons]
    ring

@[simp] theorem length_powersFrom (x acc : Scalar) (count : Nat) :
    (powersFrom x acc count).length = count := by
  induction count generalizing acc with
  | zero => rfl
  | succ count ih => rw [powersFrom, List.length_cons, ih]

/-! ### Commitments -/

variable {K : Type} [Suite K] [LawfulSuite K]

@[simp] theorem map_log_commit (coeffs : Coefficients) :
    (coeffs.commit : List (Point K)).map Point.log = coeffs := by
  simp [commit, Function.comp_def]

omit [LawfulSuite K] in
theorem headD_commit (coeffs : Coefficients) :
    (coeffs.commit : List (Point K)).headD .identity = Point.ofScalar (coeffs.headD 0) := by
  cases coeffs <;> simp [commit]

theorem commit_map_log (points : List (Point K)) : commit (points.map Point.log) = points := by
  simp [commit, Function.comp_def]

end Coefficients

variable {K : Type} [Suite K] [LawfulSuite K]

/-- Horner's rule in the exponent. -/
theorem log_evaluateCommitment (points : List (Point K)) (x : Scalar) :
    (evaluateCommitment points x).log = Coefficients.evaluate (points.map Point.log) x := by
  induction points with
  | nil => rfl
  | cons p points ih =>
    have hcons : evaluateCommitment (p :: points) x = x • evaluateCommitment points x + p := rfl
    rw [hcons, Point.log_add, Point.log_smul, ih, List.map_cons, Coefficients.evaluate_cons,
      mul_comm]

/-- On the commitment to a polynomial, this is the image of its value. -/
theorem evaluateCommitment_commit (coeffs : Coefficients) (x : Scalar) :
    evaluateCommitment (coeffs.commit : List (Point K)) x = .ofScalar (coeffs.evaluate x) := by
  apply Point.log_injective
  rw [log_evaluateCommitment, Coefficients.map_log_commit, Point.log_ofScalar]

omit [Suite K] [LawfulSuite K] in
theorem pointAt_natCast {points : List (Point K)} {k : Nat} (hk : k < points.length) :
    pointAt points k = .ok points[k] := by
  simp [pointAt, hk, show ¬ (k : Int) < 0 by omega]

namespace Commitment

/-- The polynomial behind a commitment. -/
noncomputable def logs (c : Commitment K) : Coefficients := c.points.map Point.log

@[simp] theorem length_logs (c : Commitment K) : c.logs.length = c.points.length := by
  simp [logs]

omit [LawfulSuite K] in
theorem constant_ofCoefficients {coeffs : Coefficients} (h : 0 < coeffs.length) :
    (ofCoefficients coeffs : Commitment K).constant = .ok (.ofScalar (coeffs.headD 0)) := by
  obtain ⟨c, coeffs, rfl⟩ := List.exists_cons_of_length_pos h
  rfl

@[simp] theorem logs_ofCoefficients (coeffs : Coefficients) :
    (ofCoefficients coeffs : Commitment K).logs = coeffs := by
  simp [logs, ofCoefficients]

@[simp] theorem ofCoefficients_logs (c : Commitment K) : ofCoefficients c.logs = c := by
  rw [ofCoefficients, logs, Coefficients.commit_map_log]

/-- The share that a commitment accepts is the value of the polynomial behind it. -/
theorem verifyShare_iff (c : Commitment K) (share : Scalar) (index : Int) :
    c.verifyShare share index = true ↔ share = c.logs.evaluate index := by
  rw [verifyShare, beq_iff_eq, Point.eq_iff_log_eq, Point.log_ofScalar, evaluate,
    log_evaluateCommitment, Scalar.ofInt_eq_intCast, logs]

end Commitment

end ThresholdKeygen
