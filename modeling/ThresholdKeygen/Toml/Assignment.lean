import ThresholdKeygen.Toml.Moment
import ThresholdKeygen.Toml.Number
import ThresholdKeygen.Text.Pieces

/-!
# Assignments

A line `key = value` puts a value into a table. A key may have several parts with dots between them,
which lead through tables; those that are missing are made on the way. The reader of values is given
from outside, since values hold assignments in turn.
-/

namespace ThresholdKeygen

namespace Datum

/-- The empty table. -/
def emptyTable : Datum := .table false []

/-- Puts an entry into a list of entries, in the place of one with the same key. -/
def putEntry (key : String) (value : Datum) : List (String × Datum) → List (String × Datum)
  | [] => [(key, value)]
  | (other, old) :: rest =>
    if other = key then (key, value) :: rest else (other, old) :: putEntry key value rest

/-- Why a value that is no table has no entry with a name. -/
def refuseEntry (d : Datum) (name : String) : Error :=
  let inText (s : List Text.CodePoint) : KindFault :=
    if Text.occursIn (Text.codePoints name) s then .textIndex else .noAssignment d.kind
  .kind <| match d with
    | .list _ => .listIndex
    | .text s => inText (Text.codePoints s)
    | .illFormed s => inText s
    | _ => .notIterable d.kind

end Datum

namespace Toml

open Text

/-- A text of several lines that is still open: the key that it belongs to, what has been read, and
whether its last line goes on in the next one. -/
structure OpenText where
  key : String
  text : List Char
  continued : Bool

/-! ### Keys -/

/-- The pieces of a line between its quotation marks. Behind the first double mark, the pieces are
those between double marks. -/
def quotePieces (line : List Char) : List (List Char) :=
  match splitOn ['"'] line with
  | [] => []
  | [piece] => splitOn ['\''] piece
  | piece :: pieces =>
    if '\'' ∈ piece then
      let (singles, rest) := absorb (splitOn ['\''] piece) pieces
      match rest with
      | [] => singles
      | piece :: pieces => singles ++ splitOn ['\''] piece ++ pieces
    else piece :: pieces
where
  /-- While a single mark is open, double marks belong to its text. -/
  absorb (singles : List (List Char)) : List (List Char) → List (List Char) × List (List Char)
    | [] => (singles, [])
    | piece :: pieces =>
      if singles.length % 2 = 1 then (singles, piece :: pieces)
      else
        let last := singles.getLast?.getD [] ++ '"' :: piece
        absorb (singles.dropLast ++ splitOn ['\''] last) pieces

/-- How often a separator occurs in front of the first piece outside quotes that holds it. The
pieces are outside and inside quotes in turn. -/
def quotedOccurrences (separator : List Char) : (quoted : Bool) → List (List Char) → Nat
  | _, [] => 0
  | quoted, piece :: pieces =>
    let found := occurrences separator piece
    if !quoted ∧ 0 < found then 0 else found + quotedOccurrences separator (!quoted) pieces

/-- The parts of a key with dots and quotes. The pieces are outside and inside quotes in turn. -/
def quotedParts : (quoted : Bool) → List (List Char) → List (List Char)
  | _, [] => []
  | true, piece :: pieces => piece :: quotedParts false pieces
  | false, piece :: pieces => (splitOn ['.'] piece).map trim ++ quotedParts true pieces

/-- The tables that a key leads through, and the name of its entry. -/
def readKey (unescape : List Char → Read (List Char)) (key : List Char) :
    Read (List String × String) := do
  if '.' ∈ key then
    let parts := if key.any isQuote then quotedParts false (quotePieces key) else splitOn ['.'] key
    let parts := (parts.reverse.dropWhile (·.isEmpty)).reverse
    match parts.getLast? with
    | none => throw .endOfList
    | some last => return (parts.dropLast.map String.ofList, String.ofList (trim last))
  else
    match key with
    | [] => throw .endOfText
    | first :: _ =>
      if isQuote first ∧ key.getLast? = some first then
        return ([], String.ofList (← unescape (inner key)))
      else return ([], String.ofList key)

/-! ### Values -/

/-- Whether a value without blanks in front is recognised at its place. -/
def isRecognised (value : List Char) : Read Bool := do
  let word := trim value
  if word = "true".toList ∨ word = "false".toList ∨ (Decimal.read? value).isSome then return true
  return (← readDate? value).isSome || (timeParts? value).isSome

/-- The `n`-th equals sign of a line ends the key. When what follows it has no blank, quote or
bracket in front and is no number, moment or truth value, a later sign is tried; `bound` is the
number of signs that are left. -/
def separate (line : List Char) (strict : Bool) (n : Nat) (value : List Char) :
    (bound : Nat) → Read (Nat × List Char × Bool)
  | 0 => .error .malformed
  | bound + 1 => do
    match value with
    | [] => return (n, value, strict)
    | first :: _ =>
      if first ∈ [' ', '\t', '\'', '"', '[', '\x7b'] then return (n, value, strict)
      if ← isRecognised value then return (n, value, strict)
      let next := (splitAtNth ['='] (n + 1) line).2
      if next = value then throw .malformed
      separate line (strict && isStrict next) (n + 1) next bound

/-- A value that starts with a digit is read without its underscores. -/
def withoutUnderscores (value : List Char) : List Char :=
  if (value.head?.map Char.isDigit).getD false then value.filter (· ≠ '_') else value

/-- The key and the value of a line, and whether the value obeys the rules for numerals. -/
def splitLine (line : List Char) : Read (List Char × List Char × Bool) := do
  let n := quotedOccurrences ['='] false (quotePieces line) + 1
  let value := (splitAtNth ['='] n line).2
  let (n, value, strict) ←
    separate line (isStrict value) n (withoutUnderscores value) (line.length + 2)
  return (trim (splitAtNth ['='] n line).1, trim value, strict)

/-! ### Texts of several lines -/

/-- Whether the first item of an array is a text. -/
def startsWithText (array : List Char) : Bool :=
  match trim (inner array) with
  | [] => false
  | first :: _ => isQuote first

/-- The last item among pieces of an array. The pieces are given from the last one; a piece without
a mark in front belongs to the item before. -/
def lastItem (piece : List Char) : List (List Char) → Read (List Char)
  | [] => .ok piece
  | before :: pieces =>
    match piece with
    | [] => .error .endOfText
    | first :: _ =>
      if isQuote first then .ok piece else lastItem (before ++ ',' :: piece) pieces

/-- Whether a text opens with three marks that are not closed on the line. -/
def opensText (text : List Char) : Read Bool :=
  match text with
  | [] => .error .endOfText
  | mark :: rest =>
    if !isQuote mark then .ok false
    else match rest with
      | [] => .error .endOfText
      | second :: rest =>
        if second ≠ mark then .ok false
        else match rest with
          | [] => .error .endOfText
          | third :: _ =>
            .ok (third = mark ∧
              ¬ (5 < text.length ∧ (text.reverse.take 3).all (· = mark)))

/-- Whether a value goes on in the next line. -/
def isOpen (value : List Char) : Read Bool := do
  if value.length < 3 then return false
  if value.head? = some '[' ∧ value.getLast? ≠ some ']' ∧ startsWithText value then
    match (splitOn [','] (trim (value.drop 1))).reverse with
    | [] => return false
    | piece :: pieces => opensText (← lastItem piece pieces)
  else opensText value

/-- Goes on with a text of several lines; a backslash at the end joins the next line to it. -/
def OpenText.extend (key : String) (text : List Char) : OpenText :=
  if endsEscaped text then ⟨key, text.dropLast, true⟩ else ⟨key, text ++ ['\n'], false⟩

/-! ### Lines -/

/-- Works on the table that some keys lead to. -/
def withinTables {α : Type} (work : Datum → Read (Datum × α)) :
    List String → Datum → Read (Datum × α)
  | [], d => work d
  | key :: keys, d => do
    if key = "" then return ← withinTables work keys d
    match d with
    | .table inline entries =>
      let child := (Datum.field? key entries).getD Datum.emptyTable
      let (child, a) ← withinTables work keys child
      return (.table inline (Datum.putEntry key child entries), a)
    | _ => throw (.refused (d.refuseEntry key))

/-- The entries of a table that has no entry with a name yet. -/
def freshEntries (key : String) : Datum → Read (Bool × List (String × Datum))
  | .table inline entries =>
    if (Datum.field? key entries).isSome then .error .malformed else .ok (inline, entries)
  | _ => .error .malformed

/-- Puts an entry into a table, unless its value goes on in the next line. -/
def assignEntry (readValue : (strict : Bool) → List Char → Read Datum) (key : String)
    (value : List Char) (strict : Bool) (d : Datum) : Read (Datum × Option OpenText) := do
  if ← isOpen value then
    let _ ← freshEntries key d
    if key = "" then throw (.refused (.unread "value"))
    return (d, some (.extend key value))
  else
    let item ← readValue strict value
    let (inline, entries) ← freshEntries key d
    return (.table inline (entries ++ [(key, item)]), none)

/-- Carries out an assignment in a table. -/
def assign (unescape : List Char → Read (List Char))
    (readValue : (strict : Bool) → List Char → Read Datum) (d : Datum) (line : List Char) :
    Read (Datum × Option OpenText) := do
  let (key, value, strict) ← splitLine line
  let (tables, name) ← readKey unescape key
  withinTables (assignEntry readValue name value strict) tables d

end Toml

end ThresholdKeygen
