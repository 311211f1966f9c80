import ThresholdKeygen.Text.Alphanumeric
import ThresholdKeygen.Text.Blank
import ThresholdKeygen.Text.Pieces
import ThresholdKeygen.Toml.Fault

/-!
# The layout of a document

The first pass over a document. It checks the shape of keys and quotes, blanks out comments, and
joins the lines of an array, so that afterwards each line holds one header or one assignment, or a
part of a text of several lines.
-/

namespace ThresholdKeygen.Toml

open Text

/-- Where a line stands with respect to its key. -/
inductive KeyPart where
  | outside
  | within
  | after
deriving DecidableEq

/-- The table header that is open. -/
inductive Heading where
  | none
  | table
  | tableArray
deriving DecidableEq

/-- The state of the pass. The characters in front of the current one may have been changed. -/
structure Layout where
  text : Array Char
  /-- How many array brackets are open. -/
  depth : Int
  /-- The mark of the text that is open. -/
  quote : Option Char
  /-- Whether a text of several lines is open. -/
  multiline : Bool
  heading : Heading
  /-- Whether only blanks have been seen on the line. -/
  lineStart : Bool
  key : KeyPart
  /-- Whether the key has several parts. -/
  dotted : Bool
  /-- Whether a comment ends the document. -/
  ended : Bool

namespace Layout

/-- The pass before the first character. -/
def start (text : List Char) : Layout where
  text := text.toArray
  depth := 0
  quote := none
  multiline := false
  heading := .none
  lineStart := true
  key := .outside
  dotted := false
  ended := false

/-- The place of an index; places in front of the text count from its end. -/
def place? (s : Layout) (i : Int) : Option Nat :=
  let i := if i < 0 then i + s.text.size else i
  if 0 ≤ i ∧ i < s.text.size then some i.toNat else none

/-- The character at an index. -/
def char? (s : Layout) (i : Int) : Option Char := do s.text[← s.place? i]?

/-- Changes the character at an index. -/
def put (s : Layout) (i : Int) (c : Char) : Layout :=
  match s.place? i with
  | some place => { s with text := s.text.setIfInBounds place c }
  | none => s

/-- How many equal characters stand directly before an index, up to a bound. -/
def runBefore (s : Layout) (c : Char) (i : Int) : (bound : Nat) → Nat
  | 0 => 0
  | bound + 1 => if s.char? (i - 1) = some c then s.runBefore c (i - 1) bound + 1 else 0

/-- A key of several parts goes on when neither a blank nor a dot follows. -/
def resumeKey (s : Layout) (i : Int) : Read Layout :=
  match s.char? (i + 1) with
  | none => .error .endOfList
  | some next => .ok (if !isBlank next && next ≠ '.' then { s with key := .within } else s)

/-- Whether a character may stand in a key without quotes. -/
def isKeyChar (c : Char) : Bool := isAlphanumeric c || c = '_' || c = '-'

/-- Takes a character as part of a key; nothing when it is not. -/
def takeKeyChar (s : Layout) (i : Nat) (c : Char) : Read (Option Layout) := do
  if let some quote := s.quote then
    if c = quote ∧ s.runBefore '\\' i i % 2 = 0 then
      return some { s with key := .after, quote := none }
    return some s
  match s.key with
  | .outside => return none
  | .within =>
    if isBlank c then return some { s with key := .after }
    if c = '.' then return some { s with dotted := true }
    if isKeyChar c then return some s
    if s.dotted ∧ s.char? (i - 1 : Int) = some '.' ∧ isQuote c then
      return some { s with quote := some c }
    return none
  | .after =>
    if isBlank c then return some (← if s.dotted then s.resumeKey i else pure s)
    if c = '.' then return some (← { s with dotted := true }.resumeKey i)
    return none

/-- Opens or closes a text. Three marks in a row open or close a text of several lines. -/
def toggleQuote (s : Layout) (mark : Char) (triple : Bool) : Layout :=
  let multiline := if triple then !s.multiline else s.multiline
  let opened := if triple then multiline else s.quote.isNone
  { s with multiline, quote := if opened then some mark else none }

/-- Takes account of a quotation mark; a double one may be escaped. -/
def takeQuote (s : Layout) (i : Nat) (c : Char) : Layout :=
  if c = '\'' ∧ s.quote ≠ some '"' then s.toggleQuote c (s.runBefore c i 2 = 2)
  else if c = '"' ∧ s.quote ≠ some '\'' then
    let marks := s.runBefore c i 2
    let escaped := marks ≠ 1 ∧ s.runBefore '\\' (i - marks) (2 * s.text.size) % 2 = 1
    if escaped then s else s.toggleQuote c (marks = 2)
  else s

/-- Blanks out the rest of a line; `bound` is the number of characters that are left. -/
def blankLine (s : Layout) (i : Nat) : (bound : Nat) → Layout
  | 0 => { s with ended := true }
  | bound + 1 => if s.char? i = some '\n' then s else (s.put i ' ').blankLine (i + 1) bound

/-- Takes account of a comment. -/
def takeComment (s : Layout) (i : Nat) (c : Char) : Layout :=
  if c = '#' ∧ s.quote = none ∧ s.heading = .none then s.blankLine i (s.text.size - i) else s

/-- Takes account of a bracket outside texts: of a header at the start of a line, else of an
array. -/
def takeBracket (s : Layout) (i : Nat) (c : Char) : Layout :=
  if s.quote.isSome then s
  else if c = '[' ∧ s.heading = .none then
    if !s.lineStart then { s with depth := s.depth + 1 }
    else { s with heading := if s.char? (i + 1) = some '[' then .tableArray else .table }
  else if c = ']' then
    match s.heading with
    | .table => { s with heading := .none }
    | .tableArray => if s.char? (i - 1 : Int) = some ']' then { s with heading := .none } else s
    | .none => { s with depth := s.depth - 1 }
  else s

/-- A line break directly behind the opening marks of a text belongs to the marks. -/
def takeOpeningBreak (s : Layout) (i : Nat) : Layout :=
  match s.char? (i - 1 : Int) with
  | none => s
  | some mark =>
    if isQuote mark ∧ s.char? (i - 2 : Int) = some mark then
      let s := s.put i mark
      if s.char? (i - 3 : Int) = some mark then s.put (i - 3 : Int) ' ' else s
    else s

/-- Takes account of a line break: within an array it is a blank. -/
def takeBreak (s : Layout) (i : Nat) : Read Layout :=
  if s.quote.isSome || s.multiline then
    if s.multiline then .ok (s.takeOpeningBreak i) else .error .malformed
  else .ok (if s.depth ≠ 0 then s.put i ' ' else { s with lineStart := true })

/-- Takes account of the first character of a line that is no blank; outside headers it begins a
key. -/
def takeFirst (s : Layout) (i : Nat) : Read Layout :=
  match s.char? i with
  | none | some ' ' | some '\t' => .ok s
  | some c =>
    let s := { s with lineStart := false }
    if s.heading ≠ .none then .ok s
    else if c = '=' then .error .malformed
    else .ok { s with key := .within }

/-- One character outside a key. -/
def takeChar (s : Layout) (i : Nat) (c : Char) : Read Layout :=
  let s := (s.takeQuote i c).takeComment i c
  if s.ended then .ok s
  else
    let s := s.takeBracket i c
    if c = '\n' then s.takeBreak i
    else if s.lineStart then s.takeFirst i
    else .ok s

/-- One step of the pass. -/
def step (s : Layout) (i : Nat) : Read Layout := do
  match s.char? i with
  | none => return s
  | some c =>
    if s.ended then return s
    if s.key = .outside then return ← s.takeChar i c
    if c = '\n' then throw .malformed
    match ← s.takeKeyChar i c with
    | some s => return s
    | none =>
      if c ≠ '=' then throw .malformed
      { s with key := .outside, dotted := false }.takeChar i c

end Layout

/-- The lines of a document after the first pass. -/
def lines (text : List Char) : Read (List (List Char)) := do
  let s ← (List.range text.length).foldlM Layout.step (.start text)
  if s.key ≠ .outside ∨ s.quote.isSome then throw .malformed
  return splitOn ['\n'] s.text.toList

end ThresholdKeygen.Toml
