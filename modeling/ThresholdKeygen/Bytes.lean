/-!
# Byte strings

Byte strings as lists, with fixed-width big-endian numbers and lower-case hexadecimal text.
-/

namespace ThresholdKeygen

/-- A byte string. -/
abbrev Bytes := List UInt8

namespace Bytes

/-- The last `width` base-256 digits of `n`, most significant first. -/
def ofNat : (width : Nat) → (n : Nat) → Bytes
  | 0, _ => []
  | width + 1, n => UInt8.ofNat (n / Nat.pow 256 width) :: ofNat width n

/-- The number whose base-256 digits are `bytes`, most significant first. -/
def toNat (bytes : Bytes) : Nat :=
  bytes.foldl (fun acc b => acc * 256 + b.toNat) 0

/-- `ofNat` has the width it is asked for. -/
@[simp] theorem length_ofNat (width n : Nat) : (ofNat width n).length = width := by
  induction width with
  | zero => rfl
  | succ width ih => simp [ofNat, ih]

/-- The hexadecimal digit of a number below 16. -/
def hexDigit (n : Nat) : Char :=
  if n < 10 then Char.ofNat (48 + n) else Char.ofNat (87 + n)

/-- Two lower-case hexadecimal digits per byte. -/
def toHex (bytes : Bytes) : String :=
  String.ofList (bytes.flatMap fun b => [hexDigit (b.toNat / 16), hexDigit (b.toNat % 16)])

/-- The UTF-8 encoding of a text. -/
def ofText (text : String) : Bytes :=
  text.toUTF8.toList

end Bytes

/-- The lower-case hexadecimal digits of `n`, without leading zeros. -/
def hexText (n : Nat) : String :=
  String.ofList (Nat.toDigits 16 n)

end ThresholdKeygen
