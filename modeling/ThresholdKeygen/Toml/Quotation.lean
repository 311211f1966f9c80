import ThresholdKeygen.Config.Datum
import ThresholdKeygen.Text.Pieces
import ThresholdKeygen.Toml.Fault
import ThresholdKeygen.Toml.Number

/-!
# Quoted texts in documents

Texts between single or double marks, or between three of them. Between double marks a backslash
starts an escape: a letter for a control character, or the hexadecimal digits of a code point, which
may be a surrogate.
-/

namespace ThresholdKeygen.Toml

open Text

/-- The character that a letter stands for behind a backslash. -/
def escaped? : Char → Option Char
  | '0' => some '\x00'
  | 'b' => some '\x08'
  | 'f' => some '\x0c'
  | 'n' => some '\n'
  | 'r' => some '\r'
  | 't' => some '\t'
  | '"' => some '"'
  | _ => none

/-- Replaces the escapes of one letter; those of code points stay as they are. -/
def unescape : List CodePoint → Read (List CodePoint)
  | [] => .ok []
  | [c] => .ok [c]
  | .char '\\' :: .surrogate _ :: _ => .error .malformed
  | .char '\\' :: .char c :: rest =>
    match escaped? c with
    | some control => return .char control :: (← unescape rest)
    | none =>
      if c = '\\' then return .char '\\' :: (← unescape rest)
      else if c = 'u' ∨ c = 'U' then return .char '\\' :: .char c :: (← unescape rest)
      else throw .malformed
  | c :: rest => return c :: (← unescape rest)

/-- Replaces the escapes of one letter in a key. -/
def unescapeKey (key : List Char) : Read (List Char) := do
  return (← unescape (key.map .char)).filterMap (·.char?)

/-! ### Code points -/

/-- The code point with given digits. -/
def ofDigits (digits : List Char) : Read CodePoint := do
  let digits := digits.map Char.toLower
  if digits.any fun c => 16 ≤ digitOf c then throw .malformed
  match digits with
  | [] | ['d'] => throw .endOfText
  | 'd' :: second :: _ => if 8 ≤ digitOf second then throw .malformed
  | _ => pure ()
  let n := digits.foldl (fun n c => n * 16 + digitOf c) 0
  if Nat.pow 2 31 ≤ n then throw (.refused (.overflow .noCodePoint))
  .ofOption (CodePoint.ofNat? n)

/-- The text of the pieces behind code-point escapes with `width` digits. When `skipped`, the first
escape stands behind a backslash and is none. -/
def expandPieces (mark : Char) (width : Nat) :
    (skipped : Bool) → List (List Char) → Read (List CodePoint)
  | _, [] => .ok []
  | true, piece :: pieces => do
    let rest ← expandPieces mark width (endsEscaped piece) pieces
    return ('\\' :: mark :: piece).map .char ++ rest
  | false, piece :: pieces => do
    let c ← ofDigits (piece.take width)
    return c :: (piece.drop width).map .char ++ (← expandPieces mark width false pieces)

/-- Replaces the code-point escapes that start with a mark. -/
def expand (mark : Char) (width : Nat) (text : List Char) : Read (List CodePoint) :=
  match splitOn ['\\', mark] text with
  | [] => .ok []
  | piece :: pieces =>
    return piece.map .char ++ (← expandPieces mark width (endsEscaped piece) pieces)

/-! ### Marks -/

/-- Whether the backslashes of a text stand in front of letters that they may stand in front of. The
pieces between backslashes are given; `doubled` tells of a backslash behind another one. -/
def escapesKnown : (doubled : Bool) → List (List Char) → Bool
  | _, [] => true
  | doubled, [] :: pieces => escapesKnown (!doubled) pieces
  | doubled, (c :: _) :: pieces =>
    ((escaped? c).isSome || c = 'u' || c = 'U' || doubled) && escapesKnown false pieces

/-- Whether nothing follows the closing mark of a text. The pieces between its marks are given. -/
def closedOnce (triple : Bool) : (closed : Bool) → (marks : Nat) → List (List Char) → Bool
  | _, _, [] => true
  | closed, marks, piece :: pieces =>
    if piece.isEmpty then closedOnce triple (closed || !triple) (marks + 1) pieces
    else if endsEscaped piece then closedOnce triple closed marks pieces
    else !closed &&
      if triple ∧ marks ≤ 1 then closedOnce triple false 0 pieces
      else closedOnce triple true marks pieces

/-- Whether a quoted text ends where it should. -/
def isClosed (mark : Char) (text : List Char) : Bool :=
  match splitOn [mark] (text.drop 1) with
  | [] :: [] :: pieces => closedOnce true false 0 pieces
  | pieces => closedOnce false false 0 pieces

/-- Replaces all escapes of a quoted text. Four digits never name a surrogate. -/
def readEscapes (text : List Char) : Read (List CodePoint) := do
  if !escapesKnown false ((splitOn ['\\'] text).drop 1) then throw .malformed
  let text ← Read.ofOption (characters? (← expand 'u' 4 text))
  unescape (← expand 'U' 8 text)

/-- Takes the marks away from a text, one or three at each end. -/
def removeMarks (mark : CodePoint) (text : List CodePoint) : List CodePoint :=
  match text with
  | [_, second] => if second = mark then [] else inner text
  | _ :: second :: third :: _ =>
    if second = mark ∧ third = mark then inner (inner (inner text)) else inner text
  | _ => inner text

/-- Reads a text between marks. -/
def readQuoted (mark : Char) (text : List Char) : Read Datum := do
  if !isClosed mark text then throw .malformed
  let text ← if mark = '"' then readEscapes text else pure (text.map .char)
  return .ofPoints (removeMarks (.char mark) text)

end ThresholdKeygen.Toml
