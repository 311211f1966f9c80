import ThresholdKeygen.Interpolation

/-!
# Power maps

The powers of every share index, computed once for all checks and public evaluations of a run.
-/

namespace ThresholdKeygen

/-- For each index `1, …, rows.length` its powers from the zeroth up, `threshold` many. -/
structure PowerMap where
  threshold : Int
  rows : List (List Scalar)

namespace PowerMap

/-- The powers of the indices `1, …, n`. -/
def derive (n threshold : Int) : Except Error PowerMap := do
  return ⟨threshold, ← (upTo n).mapM fun x => powers (Scalar.ofInt x) threshold⟩

/-- The number of indices. -/
def size (m : PowerMap) : Nat := m.rows.length

/-- The powers of an index. -/
def row (m : PowerMap) (x : Int) : Except Error (List Scalar) :=
  let refusal := Error.parameters (.rowOutside x m.size)
  if x < 1 then .error refusal
  else match m.rows[(x - 1).toNat]? with
    | some row => .ok row
    | none => .error refusal

end PowerMap

end ThresholdKeygen
