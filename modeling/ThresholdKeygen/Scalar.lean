import ThresholdKeygen.Bytes
import ThresholdKeygen.Error

/-!
# Scalars

Arithmetic modulo the group order `q`. Integers enter through `Scalar.ofInt`, which reduces them;
encodings enter through `Scalar.ofBytes?`, which refuses what is not below `q`.
-/

namespace ThresholdKeygen

/-- The prime order `q` of the secp256k1 group. -/
def groupOrder : Nat :=
  0xFFFFFFFFFFFFFFFFFFFFFFFFFFFFFFFEBAAEDCE6AF48A03BBFD25E8CD0364141

theorem groupOrder_pos : 0 < groupOrder := by decide

/-- `b ^ e` modulo `m`, with one squaring per binary digit of `e`. -/
def powMod (m b e : Nat) : Nat :=
  go (e.log2 + 1) (b % m) e (1 % m)
where
  /-- Multiplies `acc` by `b` to the last `digits` binary digits of `e`. -/
  go : (digits b e acc : Nat) → Nat
  | 0, _, _, acc => acc
  | digits + 1, b, e, acc =>
    go digits (b * b % m) (e / 2) (if e % 2 = 1 then acc * b % m else acc)

/-- A residue modulo the group order, by its least non-negative representative. -/
structure Scalar where
  val : Nat
  val_lt : val < groupOrder
deriving DecidableEq

namespace Scalar

/-- The residue of a natural number. -/
def ofNat (n : Nat) : Scalar :=
  ⟨n % groupOrder, Nat.mod_lt _ groupOrder_pos⟩

/-- The residue of an integer. -/
def ofInt (z : Int) : Scalar :=
  ofNat (z % groupOrder).toNat

instance : Zero Scalar := ⟨ofNat 0⟩
instance : One Scalar := ⟨ofNat 1⟩
instance : NatCast Scalar := ⟨ofNat⟩
instance : IntCast Scalar := ⟨ofInt⟩
instance : Inhabited Scalar := ⟨0⟩
instance : Add Scalar := ⟨fun a b => ofNat (a.val + b.val)⟩
instance : Mul Scalar := ⟨fun a b => ofNat (a.val * b.val)⟩
instance : Neg Scalar := ⟨fun a => ofNat (groupOrder - a.val)⟩
instance : Sub Scalar := ⟨fun a b => ofNat (a.val + (groupOrder - b.val))⟩
instance : Pow Scalar Nat := ⟨fun a e => ofNat (powMod groupOrder a.val e)⟩

@[ext] theorem ext {a b : Scalar} (h : a.val = b.val) : a = b := by
  cases a; cases b; congr

theorem val_add (a b : Scalar) : (a + b).val = (a.val + b.val) % groupOrder := rfl

/-- The inverse of a nonzero scalar, its power to `q - 2`. -/
def inv (a : Scalar) : Except Error Scalar :=
  if a = 0 then .error (.zeroDivision .noInverse) else .ok (a ^ (groupOrder - 2))

/-- The quotient, refused when `b` is zero. -/
def div (a b : Scalar) : Except Error Scalar :=
  return a * (← b.inv)

/-- A power with an integer exponent; a negative one takes the inverse first. -/
def zpow (a : Scalar) (e : Int) : Except Error Scalar :=
  if e < 0 then return (← a.inv) ^ (-e).toNat else .ok (a ^ e.toNat)

/-- The sum of a list of scalars. -/
def sum (scalars : List Scalar) : Scalar :=
  scalars.foldl (· + ·) 0

/-! ### Encoding -/

/-- The number of bytes in the encoding of a scalar. -/
def width : Nat := 32

/-- The 32-byte big-endian encoding. -/
def toBytes (a : Scalar) : Bytes :=
  Bytes.ofNat width a.val

@[simp] theorem length_toBytes (a : Scalar) : a.toBytes.length = width :=
  Bytes.length_ofNat _ _

/-- Reads a 32-byte encoding; a number that is not below the group order is refused. -/
def ofBytes? (bytes : Bytes) : Except Error Scalar :=
  if bytes.length ≠ width then .error (.value (.scalarLength bytes.length))
  else if h : bytes.toNat < groupOrder then .ok ⟨bytes.toNat, h⟩
  else .error (.value .scalarTooBig)

/-- Any big-endian byte string, reduced modulo the group order. -/
def ofBytesReduced (bytes : Bytes) : Scalar :=
  ofNat (Bytes.toNat bytes)

/-- A short name for messages: the hexadecimal digits, cut to eight when there are over twelve. -/
def describe (a : Scalar) : String :=
  let digits := hexText a.val
  let shown := if digits.length > 12 then String.ofList (digits.toList.take 8) ++ "…" else digits
  "Scalar(0x" ++ shown ++ ")"

end Scalar

end ThresholdKeygen
