/-!
# Character ranges

Classes of characters are given by ascending lists of ranges of code points, both ends included.
-/

namespace ThresholdKeygen.Text

/-- Whether a character lies in one of some ranges. -/
def inRanges (ranges : List (Nat × Nat)) (c : Char) : Bool :=
  ranges.any fun (first, last) => first ≤ c.toNat && c.toNat ≤ last

end ThresholdKeygen.Text
