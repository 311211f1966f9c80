import ThresholdKeygen.Scalar

/-!
# The curve secp256k1

The curve `y² = x³ + 7` over the field with `p = 2²⁵⁶ - 2³² - 977` elements. Sums and multiples are
computed in Jacobian coordinates, where `(x, y, z)` stands for the affine point `(x/z², y/z³)`, so
that one field inversion at the end suffices.
-/

namespace ThresholdKeygen.Secp256k1

/-- The size of the coordinate field. -/
def fieldSize : Nat :=
  0xFFFFFFFFFFFFFFFFFFFFFFFFFFFFFFFFFFFFFFFFFFFFFFFFFFFFFFFEFFFFFC2F

/-! ### Field operations -/

def add (a b : Nat) : Nat := (a + b) % fieldSize

def sub (a b : Nat) : Nat := (a + (fieldSize - b)) % fieldSize

def mul (a b : Nat) : Nat := a * b % fieldSize

def inv (a : Nat) : Nat := powMod fieldSize a (fieldSize - 2)

/-- A root of `a`, if it has one; the field size is 3 modulo 4. -/
def sqrt? (a : Nat) : Option Nat :=
  let r := powMod fieldSize a ((fieldSize + 1) / 4)
  if mul r r = a % fieldSize then some r else none

/-! ### Points -/

/-- A point of the curve other than the point at infinity, by its affine coordinates. -/
structure Affine where
  x : Nat
  y : Nat
  x_lt : x < fieldSize
  y_lt : y < fieldSize
  equation : mul y y = add (mul x (mul x x)) 7
deriving DecidableEq

/-- The point with given affine coordinates, if it lies on the curve. -/
def Affine.ofCoordinates? (x y : Nat) : Option Affine :=
  if h : x < fieldSize ∧ y < fieldSize ∧ mul y y = add (mul x (mul x x)) 7 then
    some ⟨x, y, h.1, h.2.1, h.2.2⟩
  else none

/-- Jacobian coordinates; `z = 0` is the point at infinity. -/
structure Jacobian where
  x : Nat
  y : Nat
  z : Nat

namespace Jacobian

def infinity : Jacobian := ⟨1, 1, 0⟩

def ofAffine (p : Affine) : Jacobian := ⟨p.x, p.y, 1⟩

/-- The affine coordinates, none for the point at infinity. -/
def toAffine? (p : Jacobian) : Option Affine :=
  if p.z = 0 then none
  else
    let i := inv p.z
    let ii := mul i i
    Affine.ofCoordinates? (mul p.x ii) (mul p.y (mul ii i))

/-- The tangent rule. -/
def double (p : Jacobian) : Jacobian :=
  let a := mul p.x p.x
  let b := mul p.y p.y
  let c := mul b b
  let t := mul (add p.x b) (add p.x b)
  let d := mul 2 (sub t (add a c))
  let e := mul 3 a
  let x := sub (mul e e) (mul 2 d)
  ⟨x, sub (mul e (sub d x)) (mul 8 c), mul 2 (mul p.y p.z)⟩

/-- The chord rule, with the tangent rule for equal points and infinity for opposite ones. -/
def sum (p q : Jacobian) : Jacobian :=
  if p.z = 0 then q
  else if q.z = 0 then p
  else
    let zp := mul p.z p.z
    let zq := mul q.z q.z
    let up := mul p.x zq
    let uq := mul q.x zp
    let sp := mul p.y (mul q.z zq)
    let sq := mul q.y (mul p.z zp)
    let h := sub uq up
    let r := sub sq sp
    if h = 0 then if r = 0 then double p else infinity
    else
      let hh := mul h h
      let hhh := mul h hh
      let v := mul up hh
      let x := sub (mul r r) (add hhh (mul 2 v))
      ⟨x, sub (mul r (sub v x)) (mul sp hhh), mul (mul p.z q.z) h⟩

/-- The multiple of `p` by the last `digits` binary digits of `n`. -/
def multiply (p : Jacobian) : (digits n : Nat) → Jacobian
  | 0, _ => infinity
  | digits + 1, n =>
    let half := double (multiply p digits (n / 2))
    if n % 2 = 1 then sum half p else half

end Jacobian

end ThresholdKeygen.Secp256k1
