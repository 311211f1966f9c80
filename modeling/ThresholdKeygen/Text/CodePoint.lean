/-!
# Code points

Characters and surrogates. A surrogate is a code point that is no character: escapes may name it,
but no encoding has room for it. A text that holds surrogates can be kept and shown, and no more.
-/

namespace ThresholdKeygen.Text

/-- A character, or a surrogate, given by its place behind the first one, `d800`. -/
inductive CodePoint where
  | char (c : Char)
  | surrogate (place : Fin 2048)
deriving DecidableEq

namespace CodePoint

/-- The code point with a number. -/
def ofNat? (n : Nat) : Option CodePoint :=
  if h : n.isValidChar then some (char (Char.ofNatAux n h))
  else if h : n < 0xE000 then some (surrogate ⟨n - 0xD800, by omega⟩)
  else none

/-- The number of a code point. -/
def toNat : CodePoint → Nat
  | char c => c.toNat
  | surrogate place => 0xD800 + place

/-- The character that a code point is. -/
def char? : CodePoint → Option Char
  | char c => some c
  | surrogate _ => none

end CodePoint

/-- The code points of a text. -/
def codePoints (text : String) : List CodePoint := text.toList.map .char

/-- The characters of a text without surrogates. -/
def characters? : List CodePoint → Option (List Char)
  | [] => some []
  | .char c :: rest => (characters? rest).map (c :: ·)
  | .surrogate _ :: _ => none

/-- Where the first surrogate of a text stands, and how many stand there in a row. -/
def surrogateRun (text : List CodePoint) : Nat × Nat :=
  let front := text.takeWhile (·.char?.isSome)
  (front.length, ((text.drop front.length).takeWhile (·.char?.isNone)).length)

/-- Whether a text occurs in another one. -/
def occursIn (part : List CodePoint) : List CodePoint → Bool
  | [] => part.isEmpty
  | c :: rest => part.isPrefixOf (c :: rest) || occursIn part rest

end ThresholdKeygen.Text
