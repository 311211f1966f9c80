import ThresholdKeygen.Capacity
import ThresholdKeygen.Coefficients

/-!
# Polynomial commitments

The public image of a dealer's polynomial. Its encoding is the number of points in four bytes and
then the points.
-/

namespace ThresholdKeygen

variable {K : Type} [Suite K]

/-- A commitment to a polynomial, one point per coefficient. -/
structure Commitment (K : Type) where
  points : List (Point K)

/-- Equal numbers of equal points. -/
instance : BEq (Commitment K) := ⟨fun c d => c.points == d.points⟩

/-- A place in a list of points; negative places count from the end. -/
def pointAt (points : List (Point K)) (place : Int) : Except Error (Point K) :=
  let i := if place < 0 then place + points.length else place
  match if i < 0 then none else points[i.toNat]? with
  | some p => .ok p
  | none => .error (.outOfRange (if isPlace place then .tuple else .boundless))

/-- A list of points behind its length in four bytes. -/
def packPoints (points : List (Point K)) : Bytes :=
  Bytes.ofNat 4 points.length ++ points.flatMap Point.toBytes

/-- Reads a number of encoded points. -/
def unpackPoints : (count : Nat) → Bytes → Except Error (List (Point K))
  | 0, _ => return []
  | count + 1, bytes => do
    let p ← Point.ofBytes? (bytes.take Point.width)
    return p :: (← unpackPoints count (bytes.drop Point.width))

namespace Commitment

/-- The commitment to given coefficients. -/
def ofCoefficients (coeffs : Coefficients) : Commitment K := ⟨coeffs.commit⟩

/-- The number of coefficients. -/
def threshold (c : Commitment K) : Nat := c.points.length

/-- The image of the constant term. -/
def constant (c : Commitment K) : Except Error (Point K) := pointAt c.points 0

/-- The image of the value at an index. -/
def evaluate (c : Commitment K) (x : Int) : Point K := evaluateCommitment c.points (Scalar.ofInt x)

/-- Whether a share for an index agrees with the commitment. -/
def verifyShare (c : Commitment K) (share : Scalar) (x : Int) : Bool :=
  Point.ofScalar share == c.evaluate x

def toBytes (c : Commitment K) : Bytes := packPoints c.points

/-- Reads the encoding of a commitment. -/
def ofBytes? (bytes : Bytes) : Except Error (Commitment K) := do
  if bytes.length < 4 then throw (.value .truncatedCommitment)
  let count := Bytes.toNat (bytes.take 4)
  if bytes.length ≠ 4 + count * Point.width then
    throw (.value (.commitmentBytes count bytes.length))
  return ⟨← unpackPoints count (bytes.drop 4)⟩

end Commitment

end ThresholdKeygen
