import ThresholdKeygen.Point
import ThresholdKeygen.RandomSource

/-!
# Sharing polynomials

A dealer shares the constant term of a polynomial, given by its coefficients from the constant term
up. The share for an index is the value there; the public commitment multiplies the generator by
each coefficient, and can be evaluated like the polynomial itself.
-/

namespace ThresholdKeygen

variable {K : Type} [Suite K] {σ : Type} [RandomSource σ]

/-- The coefficients of a polynomial, the constant term first. -/
abbrev Coefficients := List Scalar

namespace Coefficients

/-- The value of a polynomial, by Horner's rule. -/
def evaluate (coeffs : Coefficients) (x : Scalar) : Scalar :=
  coeffs.foldr (fun c acc => acc * x + c) 0

/-- The multiple of the generator by each coefficient. -/
def commit (coeffs : Coefficients) : List (Point K) :=
  coeffs.map Point.ofScalar

/-- A random polynomial of a given degree, with a given constant term or a random one. -/
def sample (who : Int) (degree : Int) (constant : Option Scalar) :
    ExceptT Error (StateM σ) Coefficients := do
  if degree < 0 then throw (.value .negativeDegree)
  match constant with
  | some c => return c :: (← (drawScalars who degree.toNat : StateM σ _))
  | none => (drawScalars who (degree.toNat + 1) : StateM σ _)

end Coefficients

/-- The value of a polynomial times the generator, from the commitment alone. -/
def evaluateCommitment (points : List (Point K)) (x : Scalar) : Point K :=
  points.foldr (fun c acc => x • acc + c) Point.identity

/-- Whether a share for an index agrees with a commitment. -/
def verifyShare (points : List (Point K)) (share : Scalar) (index : Int) : Bool :=
  Point.ofScalar share == evaluateCommitment points (Scalar.ofInt index)

end ThresholdKeygen
