import ThresholdKeygen.Secp256k1.Curve
import ThresholdKeygen.Point

/-!
# The suite secp256k1 with SHA-256

Keys are affine points of the curve; their encoding is the compressed form of SEC 1: the sign of the
second coordinate, then the first coordinate in 32 bytes.
-/

namespace ThresholdKeygen.Secp256k1

/-- The generator that the standard fixes. -/
def base : Affine where
  x := 0x79BE667EF9DCBBAC55A06295CE870B07029BFCDB2DCE28D959F2815B16F81798
  y := 0x483ADA7726A3C4655DA4FBFC0E1108A8FD17B448A68554199C47D08FFB10D4B8
  x_lt := by decide
  y_lt := by decide
  equation := by decide

namespace Affine

/-- The compressed encoding. -/
def encode (p : Affine) : Bytes :=
  UInt8.ofNat (2 + p.y % 2) :: Bytes.ofNat 32 p.x

/-- The point with a first coordinate and a sign of the second one. -/
def ofX? (x sign : Nat) : Option Affine := do
  if fieldSize ≤ x then none
  let y ← sqrt? (add (mul x (mul x x)) 7)
  ofCoordinates? x (if y % 2 = sign then y else fieldSize - y)

/-- Reads a compressed encoding; a first coordinate outside the field or off the curve is
refused. -/
def decode? : Bytes → Option Affine
  | [] => none
  | sign :: rest =>
    if rest.length = 32 ∧ (sign = 2 ∨ sign = 3) then ofX? (Bytes.toNat rest) (sign.toNat - 2)
    else none

/-- The multiple by a nonzero scalar. -/
def scale (s : Scalar) (p : Affine) : Affine :=
  ((Jacobian.ofAffine p).multiply 256 s.val).toAffine?.getD base

/-- The sum of some points; it fails when that is the point at infinity. -/
def combine? (points : List Affine) : Option Affine :=
  (points.foldl (fun acc p => acc.sum (.ofAffine p)) Jacobian.infinity).toAffine?

end Affine

instance : Suite Affine where
  ofScalar s := base.scale s
  scale := Affine.scale
  combine? := Affine.combine?
  encode := Affine.encode
  decode? := Affine.decode?
  hash := Sha256.hash

end ThresholdKeygen.Secp256k1
