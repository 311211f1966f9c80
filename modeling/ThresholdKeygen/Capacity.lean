import ThresholdKeygen.Error

/-!
# Capacity

How many slots a table may be asked to have. Numbers that are no size are told apart from sizes that
no memory holds.
-/

namespace ThresholdKeygen

/-- The numbers below this one are sizes and places, negative ones included down to its negative. -/
def wordBound : Int := Int.pow 2 63

/-- The most slots that fit into memory. -/
def maxSlots : Int := Int.pow 2 40

/-- Refuses a table with too many slots. -/
def checkSlots (slots : Int) : Except Error Unit :=
  if wordBound ≤ slots then .error (.overflow .noSize)
  else if maxSlots < slots then .error .outOfMemory
  else .ok ()

/-- Whether a number is a place, counted from the front or from the end of some sequence. -/
def isPlace (n : Int) : Bool := -wordBound ≤ n && n < wordBound

end ThresholdKeygen
