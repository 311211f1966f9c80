import ThresholdKeygen.Bytes
import ThresholdKeygen.Text.CodePoint
import ThresholdKeygen.Text.Printable

/-!
# Quoted text

Text in quotes for messages. Single quotes are used unless the text holds single quotes and no
double ones; the quote, the backslash and code points that are not printable are escaped.
-/

namespace ThresholdKeygen.Text

/-- A number in at least `width` hexadecimal digits. -/
def hexPadded (width n : Nat) : List Char :=
  let digits := (hexText n).toList
  List.replicate (width - digits.length) '0' ++ digits

/-- The escape of a code point by its number. -/
def escapeNumber (n : Nat) : List Char :=
  if n < 0x100 then '\\' :: 'x' :: hexPadded 2 n
  else if n < 0x10000 then '\\' :: 'u' :: hexPadded 4 n
  else '\\' :: 'U' :: hexPadded 8 n

/-- A code point between given quotes. -/
def escape (quote : Char) : CodePoint → List Char
  | .surrogate place => escapeNumber (CodePoint.surrogate place).toNat
  | .char c =>
    if c = quote ∨ c = '\\' then ['\\', c]
    else if c = '\n' then ['\\', 'n']
    else if c = '\r' then ['\\', 'r']
    else if c = '\t' then ['\\', 't']
    else if isPrintable c then [c]
    else escapeNumber c.toNat

/-- Code points in quotes. -/
def quotedPoints (text : List CodePoint) : String :=
  let quote := if .char '\'' ∈ text ∧ .char '"' ∉ text then '"' else '\''
  String.ofList (quote :: text.flatMap (escape quote) ++ [quote])

/-- A text in quotes. -/
def quoted (text : String) : String := quotedPoints (codePoints text)

end ThresholdKeygen.Text
