import ThresholdKeygen.Error
import ThresholdKeygen.Text.Blank
import ThresholdKeygen.Text.DecimalDigit
import ThresholdKeygen.Text.Quoted

/-!
# Numerals

Integers from text. The digits may be those of any script, single underscores may stand between
digits, and white space may stand around the numeral. Bases other than ten have ASCII digits only.
-/

namespace ThresholdKeygen.Text

/-- The ASCII character that a numeral has for another one: blanks become spaces, digits of all
scripts ASCII digits. -/
def simplify (c : Char) : Char :=
  if c.toNat < 127 then c
  else if isBlank c then ' '
  else match digitValue? c with
    | some d => Char.ofNat (48 + d)
    | none => '?'

/-- The ASCII character that a numeral has for a code point. -/
def simplifyPoint : CodePoint → Char
  | .char c => simplify c
  | .surrogate _ => '?'

/-- The blanks that may stand around a numeral. -/
def isNumeralBlank (c : Char) : Bool :=
  c = ' ' || (9 ≤ c.toNat && c.toNat ≤ 13)

/-- A simplified text without blanks in front. -/
def dropBlanks (text : List Char) : List Char := text.dropWhile isNumeralBlank

/-- A sign in front of a numeral, and the rest. -/
def splitSign : List Char → Bool × List Char
  | '-' :: rest => (true, rest)
  | '+' :: rest => (false, rest)
  | rest => (false, rest)

/-- The longest run of digits with single underscores between them, and the rest. It is refused when
an underscore stands at its ends or next to another one. -/
def splitDigits (afterDigit : Bool) : List Char → Option (List Char × List Char)
  | [] => if afterDigit then some ([], []) else none
  | c :: rest =>
    if c.isDigit then (splitDigits true rest).map fun (digits, rest) => (c :: digits, rest)
    else if !afterDigit then none
    else if c = '_' then splitDigits false rest
    else some ([], c :: rest)

/-- The number with given decimal digits. -/
def decimalValue (digits : List Char) : Nat :=
  digits.foldl (fun acc d => acc * 10 + (d.toNat - 48)) 0

/-- The value of a digit in bases up to sixteen. -/
def digitOf (c : Char) : Nat :=
  if c.isDigit then c.toNat - 48
  else if 'a' ≤ c ∧ c ≤ 'f' then c.toNat - 87
  else if 'A' ≤ c ∧ c ≤ 'F' then c.toNat - 55
  else 16

/-- The number with given digits in a base; there has to be a digit. -/
def ofDigits? (base : Nat) (digits : List Char) : Option Nat :=
  if digits.isEmpty ∨ digits.any (fun c => base ≤ digitOf c) then none
  else some (digits.foldl (fun n c => n * base + digitOf c) 0)

/-- Reads an integer from code points. -/
def readPoints (text : List CodePoint) : Except NumeralFault Int :=
  let malformed := NumeralFault.malformed (String.ofList ((quotedPoints text).toList.take 200))
  let (negative, unsigned) := splitSign (dropBlanks (text.map simplifyPoint))
  match splitDigits false unsigned with
  | none => .error malformed
  | some (digits, rest) =>
    if digits.length > maxDigits then .error (.tooLong digits.length)
    else if !(dropBlanks rest).isEmpty then .error malformed
    else
      let n : Int := decimalValue digits
      .ok (if negative then -n else n)

/-- Reads an integer. -/
def readInt (text : String) : Except NumeralFault Int := readPoints (codePoints text)

end ThresholdKeygen.Text
