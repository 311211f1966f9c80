import ThresholdKeygen.Config.Datum
import ThresholdKeygen.Decimal.Reading
import ThresholdKeygen.Toml.Fault

/-!
# Numbers in documents

Integers in base ten, sixteen, eight and two, and floating-point numbers, with a sign in front.
Underscores are left out, once their places have been checked.
-/

namespace ThresholdKeygen.Toml

open Text

/-- Whether two characters stand next to each other somewhere. -/
def adjacent (first second : Char) (text : List Char) : Bool :=
  (text.zip (text.drop 1)).contains (first, second)

/-- Whether zeros in front of a numeral and underscores in it are where they may be. -/
def isStrict (numeral : List Char) : Bool :=
  let numeral := trim numeral
  if numeral.isEmpty then false
  else if numeral.head? = some '_' ∨ numeral.getLast? = some '_' then false
  else if adjacent '_' '.' numeral || adjacent '.' '_' numeral then false
  else
    match numeral with
    | [_] => true
    | '0' :: c :: _ =>
      (c = '.' || c = 'o' || c = 'b' || c = 'x') && !adjacent '_' '_' numeral
    | '+' :: '0' :: c :: _ | '-' :: '0' :: c :: _ => c = '.' && !adjacent '_' '_' numeral
    | _ => !adjacent '_' '_' numeral

/-- Reads digits behind the mark of their base. In base ten zeros stand in front of zeros only. -/
def readUnsigned? (text : List Char) : Option Nat :=
  match text with
  | '0' :: 'x' :: digits | '0' :: 'X' :: digits => ofDigits? 16 digits
  | '0' :: 'o' :: digits | '0' :: 'O' :: digits => ofDigits? 8 digits
  | '0' :: 'b' :: digits | '0' :: 'B' :: digits => ofDigits? 2 digits
  | _ =>
    if maxDigits < text.length then none
    else (ofDigits? 10 text).filter fun n => text.head? ≠ some '0' || n = 0

/-- Reads an integer with blanks around it. -/
def readInt? (text : List Char) : Option Int :=
  let text := (dropBlanks (text.map simplify).reverse).reverse
  let (negative, unsigned) := splitSign (dropBlanks text)
  (readUnsigned? unsigned).map fun n => if negative then -(n : Int) else n

/-- Whether a numeral without sign is written with a point or an exponent. -/
def isFractional (numeral : List Char) : Bool :=
  '.' ∈ numeral || ('x' ∉ numeral && ('e' ∈ numeral || 'E' ∈ numeral))

/-- Whether a numeral without sign names infinity or the value that is no number. -/
def isNamed (numeral : List Char) : Bool :=
  let name := numeral.map Char.toLower
  name = ['i', 'n', 'f'] || name = ['n', 'a', 'n']

/-- Reads a floating-point number; digits have to stand in front and behind the point. -/
def readFraction (numeral : List Char) : Read Float :=
  match numeral with
  | [] => .error .malformed
  | first :: _ =>
    if !first.isDigit ∨ (numeral.dropWhile (· ≠ '.')) = ['.'] then .error .malformed
    else .ofOption (Decimal.read? numeral)

/-- Reads a number. -/
def readNumber (strict : Bool) (text : List Char) : Read Datum := do
  if !strict then throw .malformed
  let (negative, unsigned) := splitSign text
  let numeral := unsigned.filter (· ≠ '_')
  if isFractional numeral then
    let x ← readFraction numeral
    return .float (if negative then 0 - x else x)
  else if isNamed numeral then
    let x ← Read.ofOption (Decimal.read? numeral)
    return .float (if negative then 0 - x else x)
  else
    let n ← Read.ofOption (readInt? numeral)
    return .int (if negative then -n else n)

end ThresholdKeygen.Toml
