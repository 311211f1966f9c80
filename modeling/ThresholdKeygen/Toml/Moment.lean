import ThresholdKeygen.Config.Datum
import ThresholdKeygen.Decimal.Reading
import ThresholdKeygen.Toml.Fault

/-!
# Dates and times in documents

A date is `year-month-day`; a time of day or an offset may follow it. A time of day may also stand
alone. The separators of a date are not looked at, only their places.
-/

namespace ThresholdKeygen.Toml

open Text

/-- The characters between two places. -/
def slice (first last : Nat) (text : List Char) : List Char := (text.drop first).take (last - first)

/-- The integer that some characters name. -/
def intOf? (text : List Char) : Option Int := (readInt (String.ofList text)).toOption

/-- The text of a moment: its kind, and its parts up to the last that is needed. -/
def moment (kind : String) (parts : List Int) : Datum :=
  .moment kind ("datetime." ++ kind ++ "(" ++ ", ".intercalate (parts.map toString) ++ ")")

/-- The seconds and microseconds that the text of a moment shows. -/
def shownSeconds (second micro : Int) : List Int :=
  if micro ≠ 0 then [second, micro] else if second ≠ 0 then [second] else []

/-- Whether a time of day exists. -/
def isTime (hour minute second : Int) : Bool :=
  0 ≤ hour && hour < 24 && 0 ≤ minute && minute < 60 && 0 ≤ second && second < 60

/-! ### Times of day -/

/-- The number that two digits in front of a text name, and the rest. -/
def twoDigits? : List Char → Option (Int × List Char)
  | a :: b :: rest =>
    if a.isDigit && b.isDigit then some (decimalValue [a, b], rest) else none
  | _ => none

/-- The number that three to six digits behind a point name, zero when there are fewer. -/
def microseconds : List Char → Int
  | '.' :: rest =>
    let digits := (rest.takeWhile Char.isDigit).take 6
    if 3 ≤ digits.length then decimalValue digits else 0
  | _ => 0

/-- The parts of a time of day in front of a text: hour, minute, second and microsecond. -/
def timeParts? (text : List Char) : Option (Int × Int × Int × Int) :=
  match twoDigits? text with
  | some (hour, ':' :: rest) =>
    match twoDigits? rest with
    | some (minute, ':' :: rest) =>
      (twoDigits? rest).map fun (second, rest) => (hour, minute, second, microseconds rest)
    | _ => none
  | _ => none

/-- A time of day, refused when it does not exist. -/
def timeOf (parts : Int × Int × Int × Int) : Read Datum :=
  let (hour, minute, second, micro) := parts
  if isTime hour minute second then
    .ok (moment "time" ([hour, minute] ++ shownSeconds second micro))
  else .error .malformed

/-! ### Dates -/

/-- Whether a year has a leap day. -/
def isLeap (year : Int) : Bool := year % 4 = 0 && (year % 100 ≠ 0 || year % 400 = 0)

/-- The number of days in a month. -/
def daysIn (year month : Int) : Int :=
  if month = 2 then (if isLeap year then 29 else 28)
  else if month = 4 ∨ month = 6 ∨ month = 9 ∨ month = 11 then 30
  else 31

/-- Whether a date exists. -/
def isDate (year month day : Int) : Bool :=
  1 ≤ year && year ≤ 9999 && 1 ≤ month && month ≤ 12 && 1 ≤ day && day ≤ daysIn year month

/-- Whether a text is an offset: `Z`, or hours and minutes behind a sign. -/
def isOffset (text : List Char) : Bool :=
  text = ['Z'] || ((intOf? (slice 1 3 text)).isSome && (intOf? (slice 4 6 text)).isSome)

/-- The fraction of a second and the offset behind it. -/
def splitOffset (text : List Char) : List Char × Option (List Char) :=
  if text.getLast? = some 'Z' ∨ text.getLast? = some 'z' then (text.dropLast, some ['Z'])
  else
    let sign := if '+' ∈ text then '+' else '-'
    let fraction := text.takeWhile (· ≠ sign)
    (fraction, if fraction = text then none else some (text.drop fraction.length))

/-- The whole part of `n·10^-places`, computed with floating-point numbers. -/
def scaleDown (n : Int) (places : Nat) : Read Int := do
  let size := Float.ofNat n.natAbs
  if size.isInf then throw (.refused (.overflow .noFloat))
  match Decimal.shape (size * Decimal.ofParts false 1 (-places)) with
  | .finite _ size => return if n < 0 then -size.floor else size.floor
  | _ => return 0

/-- The microseconds in a fraction of a second, zero when it or its offset cannot be read. -/
def fractionOf (text : List Char) : Read Int := do
  let (fraction, offset) := splitOffset text
  if !offset.all isOffset then return 0
  match intOf? fraction with
  | none => return 0
  | some n =>
    if fraction.length ≤ 6 then return n * Nat.pow 10 (6 - fraction.length)
    scaleDown n (fraction.length - 6)

/-- The microseconds in a text with the form of a date and a time of day. -/
def microsecondsOf (text : List Char) : Read Int :=
  if (text.drop 19).head? = some '.' then fractionOf (text.drop 20) else .ok 0

/-- The date in a text, with a time of day when there is more than a date. -/
def dateOf? (text : List Char) (micro : Int) : Option Datum := do
  if '-' ∉ text.drop 1 then none
  let year ← intOf? (slice 0 4 text)
  let month ← intOf? (slice 5 7 text)
  let day ← intOf? (slice 8 10 text)
  if text.length = 10 then
    if isDate year month day then some (moment "date" [year, month, day]) else none
  else
    let hour ← intOf? (slice 11 13 text)
    let minute ← intOf? (slice 14 16 text)
    let second ← intOf? (slice 17 19 text)
    if isDate year month day && isTime hour minute second && 0 ≤ micro && micro < Nat.pow 10 6 then
      some (moment "datetime" ([year, month, day, hour, minute] ++ shownSeconds second micro))
    else none

/-- Reads a date. The fraction of a second is looked at first, whatever stands in front of it. -/
def readDate? (text : List Char) : Read (Option Datum) := do
  return dateOf? text (← microsecondsOf text)

end ThresholdKeygen.Toml
