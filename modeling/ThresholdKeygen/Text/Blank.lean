import ThresholdKeygen.Text.Ranges

/-!
# White space

The characters that separate words: the separators of Unicode and the controls that move the
position or separate records.
-/

namespace ThresholdKeygen.Text

/-- The code points of white space. -/
def blankRanges : List (Nat × Nat) :=
  [(9, 13), (28, 32), (133, 133), (160, 160), (5760, 5760), (8192, 8202), (8232, 8233),
   (8239, 8239), (8287, 8287), (12288, 12288)]

/-- Whether a character is white space. -/
def isBlank (c : Char) : Bool :=
  inRanges blankRanges c

/-- A text without white space at its ends. -/
def trim (text : List Char) : List Char :=
  ((text.dropWhile isBlank).reverse.dropWhile isBlank).reverse

end ThresholdKeygen.Text
