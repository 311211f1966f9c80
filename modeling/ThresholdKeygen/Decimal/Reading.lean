import ThresholdKeygen.Text.Numeral

/-!
# Reading decimals

Floating-point numbers from decimal text: an optional sign, digits with an optional point among
them, and an optional exponent; or the name of infinity or of the value that is no number.
-/

namespace ThresholdKeygen.Decimal

/-- The floating-point number nearest to `digits·10^scale`. -/
def ofParts (negative : Bool) (digits : Nat) (scale : Int) : Float :=
  let lead := (Nat.toDigits 10 digits).length + scale
  let size : Float :=
    if digits = 0 ∨ lead < -400 then 0
    else if lead > 400 then 1 / 0
    else Float.ofScientific digits (scale < 0) scale.natAbs
  if negative then -size else size

/-- The digits of a run, none when there is no digit at the front; a misplaced underscore is
refused. -/
def optionalDigits : List Char → Option (List Char × List Char)
  | [] => some ([], [])
  | c :: rest => if c.isDigit then Text.splitDigits false (c :: rest) else some ([], c :: rest)

/-- An exponent and the rest. -/
def readExponent (text : List Char) : Option (Int × List Char) := do
  let (negative, unsigned) := Text.splitSign text
  let (digits, rest) ← Text.splitDigits false unsigned
  let n : Int := Text.decimalValue digits
  return (if negative then -n else n, rest)

/-- Reads an unsigned decimal and gives it a sign. -/
def readUnsigned (negative : Bool) (text : List Char) : Option (Float × List Char) := do
  let (whole, rest) ← optionalDigits text
  let (fraction, rest) ← match rest with
    | '.' :: rest => optionalDigits rest
    | rest => some ([], rest)
  if whole.isEmpty && fraction.isEmpty then none
  let (exponent, rest) ← match rest with
    | 'e' :: rest | 'E' :: rest => readExponent rest
    | rest => some (0, rest)
  let digits := Text.decimalValue (whole ++ fraction)
  return (ofParts negative digits (exponent - fraction.length), rest)

/-- A value that is given by its name, whatever the case of its letters. -/
def readName (negative : Bool) (text : List Char) : Option Float :=
  let name := String.ofList (text.map Char.toLower)
  if name = "inf" ∨ name = "infinity" then some (if negative then -1 / 0 else 1 / 0)
  else if name = "nan" then some (0 / 0)
  else none

/-- Reads a floating-point number with blanks around it. -/
def read? (text : List Char) : Option Float :=
  let simple := Text.dropBlanks (text.map Text.simplify)
  let (negative, unsigned) := Text.splitSign (Text.dropBlanks simple.reverse).reverse
  match readName negative unsigned with
  | some x => some x
  | none =>
    match readUnsigned negative unsigned with
    | some (x, []) => some x
    | _ => none

end ThresholdKeygen.Decimal
