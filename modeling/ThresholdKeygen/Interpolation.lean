import ThresholdKeygen.Scalar

/-!
# Interpolation

Powers, shared inversion and Lagrange interpolation of scalars. Indices are integers; they have to
differ as integers, and inverting their differences fails when two agree modulo the group order.
-/

namespace ThresholdKeygen

/-- The first `count` powers of `x`, times `acc`. -/
def powersFrom (x acc : Scalar) : (count : Nat) → List Scalar
  | 0 => []
  | count + 1 => acc :: powersFrom x (acc * x) count

/-- The powers `1, x, x², …`, as many as asked for. -/
def powers (x : Scalar) (count : Int) : Except Error (List Scalar) :=
  if count < 0 then .error (.value .negativeCount) else .ok (powersFrom x 1 count.toNat)

/-- The inverse of `acc` times the product of some scalars, and the inverses of the scalars. -/
def inverseChain (acc : Scalar) : List Scalar → Except Error (Scalar × List Scalar)
  | [] => return (← acc.inv, [])
  | x :: rest => do
    let (inverse, inverses) ← inverseChain (acc * x) rest
    return (inverse * x, acc * inverse :: inverses)

/-- The inverses of some scalars, with a single inversion; refused when one of them is zero. -/
def batchInverse (scalars : List Scalar) : Except Error (List Scalar) :=
  return (← inverseChain 1 scalars).2

/-- Numerator and denominator of the Lagrange coefficient of an index. -/
def lagrangeFraction (target : Int) (indices : List Int) (place : Int) : Scalar × Scalar :=
  indices.foldl
    (fun (num, den) j =>
      if j = target then (num, den)
      else
        (num * (Scalar.ofInt place - Scalar.ofInt j), den * (Scalar.ofInt target - Scalar.ofInt j)))
    (1, 1)

/-- The Lagrange coefficient of one index for the value at `place`. -/
def lagrangeCoefficient (target : Int) (indices : List Int) (place : Int) : Except Error Scalar :=
  if target ∉ indices then .error (.written (.value (.targetMissing target)))
  else if ¬ indices.Nodup then .error (.value .repeatedIndices)
  else
    let (num, den) := lagrangeFraction target indices place
    num.div den

/-- The Lagrange coefficients of all indices, with a single inversion. -/
def lagrangeCoefficients (indices : List Int) (place : Int) :
    Except Error (List (Int × Scalar)) := do
  if ¬ indices.Nodup then throw (.value .repeatedIndices)
  let fractions := indices.map fun i => lagrangeFraction i indices place
  let inverses ← batchInverse (fractions.map Prod.snd)
  return indices.zip (List.zipWith (· * ·) (fractions.map Prod.fst) inverses)

/-- The value at `place` of the polynomial of least degree through some points. -/
def interpolate (points : List (Int × Scalar)) (place : Int) : Except Error Scalar := do
  if points.isEmpty then throw (.value .noPoints)
  let coefficients ← lagrangeCoefficients (points.map Prod.fst) place
  return Scalar.sum (List.zipWith (· * ·) (coefficients.map Prod.snd) (points.map Prod.snd))

end ThresholdKeygen
