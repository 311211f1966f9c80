import ThresholdKeygen.Toml.Assignment
import ThresholdKeygen.Toml.Quotation

/-!
# Values in documents

Truth values, quoted texts, arrays, inline tables, times, dates and numbers. The items of an array
are of one kind. Arrays and inline tables are cut into pieces first; the pieces are read in turn.
-/

namespace ThresholdKeygen.Toml

open Text

/-! ### The items of an array -/

/-- Whether a text begins and ends with the same mark, and the last one is not escaped. -/
def isBounded (text : List Char) : Bool :=
  match text with
  | [] => true
  | first :: rest =>
    text.getLast? = some first && !endsEscaped rest.dropLast

/-- Whether a text begins with three equal characters and ends with less. -/
def isHalfTriple (text : List Char) : Bool :=
  match text, text.reverse with
  | a :: b :: c :: _, _ :: y :: z :: _ => a = b && b = c && y ≠ a && z ≠ a
  | _, _ => false

/-- Whether a piece holds a whole text, as far as its ends tell. -/
def isWhole (piece : List Char) : Bool :=
  isBounded (trim piece) && !isHalfTriple (trim piece)

/-- Puts together the pieces of texts that hold commas. The last piece is looked at only when it has
been put together (`joined`). -/
def joinTexts (joined : Bool) (piece : List Char) : List (List Char) → Read (List (List Char))
  | [] => if joined && !isWhole piece then .error .endOfList else .ok [piece]
  | next :: pieces =>
    if isWhole piece then return piece :: (← joinTexts false next pieces)
    else joinTexts true (piece ++ ',' :: next) pieces

mutual
/-- The inline tables of an array, from within one. The characters of it so far are given from the
last one, then how many braces are open, whether a text is open, and whether an odd number of
backslashes stands directly before. -/
def tablesFrom (item : List Char) (depth : Nat) (inText escaped : Bool) :
    List Char → List (List Char)
  | [] => []
  | c :: rest =>
    let inText := if isQuote c then !inText || escaped else inText
    let depth := if !inText ∧ c = '\x7b' then depth + 1 else depth
    let escaped := c = '\\' && !escaped
    if inText ∨ c ≠ '\x7d' then tablesFrom (c :: item) depth inText escaped rest
    else if 1 < depth then tablesFrom (c :: item) (depth - 1) inText escaped rest
    else (c :: item).reverse :: tablesAfter true depth rest

/-- The inline tables of an array, from behind one; the next character is left out when `skip`. -/
def tablesAfter (skip : Bool) (depth : Nat) : List Char → List (List Char)
  | [] => []
  | c :: rest =>
    if !skip ∧ c = '\x7b' then tablesFrom [c] depth false false rest
    else tablesAfter false depth rest
end

/-- The inline tables of an array. -/
def tableItems : List Char → List (List Char)
  | [] => []
  | c :: rest => tablesFrom [c] (if c = '\x7b' then 1 else 0) false false rest

/-- The items of an array of arrays: the pieces between commas outside of brackets. The characters
of the current item are given from the last one. -/
def arrayItems (item : List Char) (depth : Int) : List Char → List (List Char)
  | [] => [item.reverse]
  | c :: rest =>
    if c = '[' then arrayItems (c :: item) (depth + 1) rest
    else if c = ']' then arrayItems (c :: item) (depth - 1) rest
    else if c = ',' ∧ depth = 0 then item.reverse :: arrayItems [] depth rest
    else arrayItems (c :: item) depth rest

/-- The items of an array. -/
def items (array : List Char) : Read (List (List Char)) :=
  let content := inner array
  let front := trim (content.takeWhile (· ≠ '['))
  if '[' ∈ content ∧ front.isEmpty then .ok (arrayItems [] 0 content)
  else if (trim content).head? = some '\x7b' then .ok (tableItems content)
  else
    match startsWithText array, splitOn [','] content with
    | true, piece :: pieces => joinTexts false piece pieces
    | _, pieces => .ok pieces

/-- The sort of a value; the items of an array are of one sort. -/
def sortOf : Datum → String
  | .moment "time" _ => "time"
  | .moment _ _ => "date"
  | d => d.kind

/-- Reads items one after another; each has to be of the sort of the first one. -/
def readItems (readValue : List Char → Read Datum) (sort : Option String) :
    List (List Char) → Read (List Datum)
  | [] => .ok []
  | item :: rest => do
    let item := trim item
    if item.isEmpty then readItems readValue sort rest
    else
      let d ← readValue item
      if (sort.getD (sortOf d)) ≠ sortOf d then throw .malformed
      return d :: (← readItems readValue (sortOf d) rest)

/-! ### Inline tables -/

/-- Whether the value of a piece of an inline table is complete. -/
def isComplete (piece : List Char) : Read Bool := do
  if '=' ∉ piece then throw .malformed
  let value := trim (splitAtNth ['='] 1 piece).2
  match value, value.getLast? with
  | first :: _, some last =>
    return first = last ∧ isQuote first ∨ first = '-' ∨ first.isDigit ∨
      value = "true".toList ∨ value = "false".toList ∨
      first = '[' ∧ last = ']' ∨ first = '\x7b' ∧ last = '\x7d'
  | _, _ => throw .endOfText

/-- The assignments of an inline table; a piece that is not complete goes on behind the comma. -/
def assignments (piece : List Char) : List (List Char) → Read (List (List Char))
  | [] => do
    if ← isComplete piece then return [piece] else throw .malformed
  | next :: pieces => do
    if ← isComplete piece then return piece :: (← assignments next pieces)
    else assignments (piece ++ ',' :: next) pieces

/-- Carries out assignments one after another, up to one whose value stays open. -/
def assignAll (readValue : (strict : Bool) → List Char → Read Datum) (d : Datum) :
    List (List Char) → Read Datum
  | [] => .ok d
  | line :: lines => do
    let (d, opened) ← assign unescapeKey readValue d line
    if opened.isSome then return d else assignAll readValue d lines

/-- Puts the entries of an inline table into a table. -/
def fillTable (readValue : (strict : Bool) → List Char → Read Datum) (d : Datum)
    (text : List Char) : Read Datum := do
  match splitOn [','] (inner text) with
  | [] => return d
  | piece :: pieces =>
    if pieces.isEmpty ∧ (trim piece).isEmpty then return d
    assignAll readValue d (← assignments piece pieces)

/-! ### Values -/

/-- Reads a value in which arrays and inline tables are nested to some depth at most. -/
def readNested : (depth : Nat) → (strict : Bool) → List Char → Read Datum
  | _, _, [] => .error .malformed
  | 0, _, _ => .error .malformed
  | depth + 1, strict, first :: rest => do
    let text := first :: rest
    if text = "true".toList then return .bool true
    if text = "false".toList then return .bool false
    if isQuote first then return ← readQuoted first text
    if first = '[' then
      return .list (← readItems (readNested depth true) none (← items (trim text)))
    if first = '\x7b' then fillTable (readNested depth) (.table true []) text
    else
      match timeParts? text with
      | some parts => timeOf parts
      | none =>
        match ← readDate? text with
        | some date => return date
        | none => readNumber strict text

/-- Reads a value. -/
def readValue (strict : Bool) (text : List Char) : Read Datum :=
  readNested (text.length + 1) strict text

end ThresholdKeygen.Toml
