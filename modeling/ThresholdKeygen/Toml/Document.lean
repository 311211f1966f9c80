import ThresholdKeygen.Toml.Layout
import ThresholdKeygen.Toml.Value

/-!
# Documents

A document is a table. Its lines put entries into the table that the last header has opened, the
document itself when there is none yet. A header names a table, or the next table of an array, by
the keys that lead to it.
-/

namespace ThresholdKeygen.Toml

open Text

/-- A step from a value to a part of it. -/
inductive Step where
  | entry (key : String)
  | last

/-! ### Last items -/

/-- Works on the last code point of a text `d`, which does not change. -/
def onLastPoint {α : Type} (work : Datum → Read (Datum × List Step × α)) (d : Datum)
    (text : List CodePoint) : Read (Datum × List Step × α) :=
  match text.getLast? with
  | none => .error .endOfText
  | some c => do
    let (_, steps, a) ← work (.ofPoints [c])
    return (d, .last :: steps, a)

/-- Works on the last item of a list or a text, and finds the steps behind it. -/
def onLast {α : Type} (work : Datum → Read (Datum × List Step × α)) :
    Datum → Read (Datum × List Step × α)
  | .list items =>
    match items.getLast? with
    | none => .error .endOfList
    | some item => do
      let (item, steps, a) ← work item
      return (.list (items.dropLast ++ [item]), .last :: steps, a)
  | .text s => onLastPoint work (.text s) (codePoints s)
  | .illFormed s => onLastPoint work (.illFormed s) s
  | d => .error (.refused (.kind (.notSubscriptable d.kind)))

/-- Works on the last table of an array of tables, and on all else itself. -/
def onCurrent {α : Type} (work : Datum → Read (Datum × List Step × α)) (d : Datum) :
    Read (Datum × List Step × α) :=
  match d with
  | .table .. => work d
  | _ => onLast work d

/-! ### Headers -/

/-- The kinds of header: of a table, and of the next table of an array. -/
inductive HeaderKind where
  | table
  | tableArray
deriving DecidableEq

/-- What a header makes when its last key leads nowhere yet. -/
def HeaderKind.fresh : HeaderKind → Datum
  | .table => Datum.emptyTable
  | .tableArray => .list [Datum.emptyTable]

/-- The value at the last key of a header, when there is one. A table may be opened once; the tables
that longer headers have made on the way, whose keys are given, may be opened later. Why a table is
not opened twice is told with all of the table `level` that holds it. -/
def reopen (kind : HeaderKind) (made : List String) (key : String) (level d : Datum) :
    Read (Datum × List String) :=
  if key ∈ made then
    if kind = .table then .ok (d, made.erase key) else .error .malformed
  else
    match kind, d with
    | .table, _ => .error (if level.hasText then .malformed else .refused (.value .tooManyDigits))
    | .tableArray, .list items => .ok (.list (items ++ [Datum.emptyTable]), made)
    | .tableArray, d => .error (.refused (.noAttribute d.kind "append"))

/-- Opens what a header names. The answer is the value with all that is missing made, the steps to
what has been opened, and the keys of the tables that have been made on the way. -/
def openHeader (kind : HeaderKind) :
    List String → (made : List String) → Datum → Read (Datum × List Step × List String)
  | [], made, d => .ok (d, [], made)
  | key :: keys, made, d => do
    if key = "" then throw .malformed
    let fresh := if keys.isEmpty then kind.fresh else Datum.emptyTable
    let proceed (made : List String) (inline : Bool) (entries : List (String × Datum))
        (child : Datum) : Read (Datum × List Step × List String) := do
      let onward := openHeader kind keys made
      let (child, steps, made) ←
        if kind = .tableArray then onCurrent onward child else onward child
      return (.table inline (Datum.putEntry key child entries), .entry key :: steps, made)
    match d with
    | .table inline entries =>
      match Datum.field? key entries with
      | none =>
        proceed (if keys.isEmpty then made else made ++ [key]) inline entries fresh
      | some child =>
        let (child, made) ←
          if keys.isEmpty then reopen kind made key d child else pure (child, made)
        proceed made inline entries child
    | _ =>
      onLast (fun item => match item with
        | .table inline entries =>
          proceed made inline entries ((Datum.field? key entries).getD fresh)
        | _ => .error (.refused (item.refuseEntry key))) d

/-- Whether a text may be a key without quotes. -/
def isPlainKey (key : List Char) : Bool :=
  !key.isEmpty && key.all fun c => c.isAlphanum || c = '_' || c = '-'

/-- Whether a quoted key of a header is closed. -/
def isClosedKey (key : List Char) : Bool := key.length ≠ 1 && key.head? = key.getLast?

/-- The keys of a header from its pieces between dots. Quoted keys may hold dots; they are put
together from several pieces. The first of these loses the blanks at its ends, and what has been put
together (`joined`) keeps those in front of a dot. -/
def headerKeys (joined : Bool) (piece : List Char) : List (List Char) → Read (List String)
  | [] => do return [← headerKey (trim piece)]
  | next :: pieces => do
    let key := trim piece
    if (key.head?.map isQuote).getD false ∧ !isClosedKey key then
      headerKeys true ((if joined then piece else key) ++ '.' :: next) pieces
    else return (← headerKey key) :: (← headerKeys false next pieces)
where
  /-- One key. -/
  headerKey (key : List Char) : Read String :=
    if (key.head?.map isQuote).getD false then
      if isClosedKey key then .ok (String.ofList (inner key)) else .error .malformed
    else if isPlainKey key then .ok (String.ofList key)
    else .error .malformed

/-- The kind of a header, its closing brackets, and the line behind its opening ones. -/
def openingOf : List Char → Read (HeaderKind × List Char × List Char)
  | ['['] => .error .malformed
  | '[' :: '[' :: rest => .ok (.tableArray, [']', ']'], rest)
  | line => .ok (.table, [']'], line.drop 1)

/-- Reads a header. -/
def readHeader (line : List Char) : Read (HeaderKind × List String) := do
  let (kind, closing, line) ← openingOf line
  let n := quotedOccurrences closing false (quotePieces line) + 1
  let (names, rest) := splitAtNth closing n line
  if occurrences closing line < n ∨ !(trim rest).isEmpty then throw .malformed
  match splitOn ['.'] names with
  | [] => throw .malformed
  | piece :: pieces => return (kind, ← headerKeys false piece pieces)

/-! ### Lines -/

/-- The reading of a document. -/
structure Reading where
  root : Datum
  /-- The steps to the table that the lines belong to. -/
  place : List Step
  /-- The keys of tables that headers have made on the way. -/
  made : List String
  opened : Option OpenText

/-- Works on a part of a value. -/
def onPart {α : Type} (work : Datum → Read (Datum × α)) : List Step → Datum → Read (Datum × α)
  | [], d => work d
  | .entry key :: steps, .table inline entries => do
    let (part, a) ← onPart work steps ((Datum.field? key entries).getD Datum.emptyTable)
    return (.table inline (Datum.putEntry key part entries), a)
  | .last :: steps, d => do
    let (d, _, a) ← onLast (fun item => do
      let (item, a) ← onPart work steps item
      return (item, [], a)) d
    return (d, a)
  | .entry key :: _, d => .error (.refused (d.refuseEntry key))

namespace Reading

/-- The reading before the first line. -/
def start : Reading := ⟨Datum.emptyTable, [], [], none⟩

/-- Works on the table that the lines belong to. -/
def onTable (r : Reading) (work : Datum → Read (Datum × Option OpenText)) : Read Reading := do
  let (root, opened) ← onPart work r.place r.root
  return { r with root, opened }

/-- Whether a line ends a text of several lines or an array that has been put together so far. -/
def closes (text line : List Char) : Read Bool :=
  match text with
  | [] => .error .endOfText
  | '[' :: _ => if line.isEmpty then .error .endOfText else .ok (line.getLast? = some ']')
  | mark :: _ => .ok (2 < line.length && (line.reverse.take 3).all (· = mark))

/-- Reads a line that belongs to an open text. -/
def continueText (r : Reading) (opened : OpenText) (line : List Char) : Read Reading := do
  let line := if opened.continued || '\n' ∉ opened.text then trim line else line
  if line.isEmpty && opened.continued then return r
  let text := opened.text ++ line
  if ← closes text line then
    let value ← readValue true text
    r.onTable fun d =>
      match d with
      | .table inline entries =>
        .ok (.table inline (Datum.putEntry opened.key value entries), none)
      | d => .error (.refused (d.refuseEntry opened.key))
  else return { r with opened := some (.extend opened.key text) }

/-- Reads a line that stands for itself. -/
def readLine (r : Reading) (line : List Char) : Read Reading := do
  match trim line with
  | [] => return r
  | '[' :: rest =>
    let (kind, keys) ← readHeader ('[' :: rest)
    let (root, place, made) ← openHeader kind keys r.made r.root
    return { r with root, place, made }
  | '\x7b' :: rest =>
    if rest.getLast? ≠ some '\x7d' then throw .malformed
    r.onTable fun d => return (← fillTable readValue d ('\x7b' :: rest), none)
  | line =>
    if '=' ∈ line then r.onTable fun d => assign unescapeKey readValue d line else return r

/-- Reads the next line. -/
def next (r : Reading) (line : List Char) : Read Reading :=
  match r.opened with
  | some opened => r.continueText opened line
  | none => r.readLine line

end Reading

/-- The entries of a document. -/
def readDocument (text : List Char) : Read (List (String × Datum)) := do
  let r ← (← lines text).foldlM Reading.next .start
  match r.root with
  | .table _ entries => return entries
  | _ => return []

end ThresholdKeygen.Toml
