import ThresholdKeygen.Config.Datum

/-!
# Quantities

The numbers among the values of a configuration, compared exactly: truth values count as zero and
one, and floating-point numbers as the dyadic fractions that they are.
-/

namespace ThresholdKeygen

/-- The size of a number: the finite ones are `mantissa·2^exponent`. -/
inductive Quantity where
  | nan
  | infinite (negative : Bool)
  | finite (mantissa exponent : Int)

namespace Quantity

/-- Whether a number is less than another one; the value that is no number never is. -/
def less : Quantity → Quantity → Bool
  | nan, _ | _, nan => false
  | infinite negative, infinite other => negative && !other
  | infinite negative, finite .. => negative
  | finite .., infinite negative => !negative
  | finite m e, finite n f =>
    m * Int.pow 2 (e - min e f).toNat < n * Int.pow 2 (f - min e f).toNat

/-- Whether a number is at most another one. -/
def atMost : Quantity → Quantity → Bool
  | nan, _ | _, nan => false
  | a, b => !b.less a

end Quantity

namespace Datum

/-- The size of a value that is a number. -/
def quantity? : Datum → Option Quantity
  | bool b => some (.finite (if b then 1 else 0) 0)
  | int n => some (.finite n 0)
  | float x =>
    match Decimal.shape x with
    | .nan => some .nan
    | .infinite negative => some (.infinite negative)
    | .finite negative size =>
      some (.finite (if negative then -(size.mantissa : Int) else size.mantissa) size.exponent)
  | _ => none

/-- Compares two numbers; values of other kinds are refused. -/
def compareBy (symbol : String) (relation : Quantity → Quantity → Bool) (a b : Datum) :
    Except Error Bool :=
  match a.quantity?, b.quantity? with
  | some x, some y => .ok (relation x y)
  | _, _ => .error (.kind (.comparison symbol a.kind b.kind))

/-- Whether a number is less than another one. -/
def isLess : Datum → Datum → Except Error Bool := compareBy "<" Quantity.less

/-- Whether a number is at most another one. -/
def isAtMost : Datum → Datum → Except Error Bool := compareBy "<=" Quantity.atMost

end Datum

end ThresholdKeygen
