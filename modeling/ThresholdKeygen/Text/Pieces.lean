/-!
# Pieces of text

Texts cut at separators and put together again.
-/

namespace ThresholdKeygen.Text

/-- Puts a character in front of the first piece. -/
def extendFirst (c : Char) : List (List Char) → List (List Char)
  | [] => [[c]]
  | piece :: pieces => (c :: piece) :: pieces

/-- The pieces of a text whose first characters, as many as given, belong to a separator. -/
def splitAfter (separator : List Char) : Nat → List Char → List (List Char)
  | _, [] => [[]]
  | skipped + 1, _ :: rest => splitAfter separator skipped rest
  | 0, c :: rest =>
    if separator.isPrefixOf (c :: rest) then [] :: splitAfter separator (separator.length - 1) rest
    else extendFirst c (splitAfter separator 0 rest)

/-- The pieces between the occurrences of a separator, found from left to right. -/
def splitOn (separator : List Char) (text : List Char) : List (List Char) :=
  splitAfter separator 0 text

/-- Pieces with a separator between them. -/
def join (separator : List Char) (pieces : List (List Char)) : List Char :=
  separator.intercalate pieces

/-- The text before and after the occurrence of a separator with a number, counted from one, or
around the last one when there are fewer. -/
def splitAtNth (separator : List Char) (n : Nat) (text : List Char) : List Char × List Char :=
  let pieces := splitOn separator text
  let n := min n (pieces.length - 1)
  (join separator (pieces.take n), join separator (pieces.drop n))

/-- How often a separator occurs. -/
def occurrences (separator text : List Char) : Nat := (splitOn separator text).length - 1

/-- A list without its first and its last element. -/
def inner {α : Type} (text : List α) : List α := (text.drop 1).dropLast

/-- Whether a text ends in an odd number of backslashes. -/
def endsEscaped (text : List Char) : Bool :=
  (text.reverse.takeWhile (· = '\\')).length % 2 = 1

/-- Whether a character is a quotation mark. -/
def isQuote (c : Char) : Bool := c = '"' || c = '\''

end ThresholdKeygen.Text
