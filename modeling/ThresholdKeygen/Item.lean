import ThresholdKeygen.Point

/-!
# Hash inputs

The items that protocol hashes take and their encoding. Numbers, scalars and points have a fixed
width; byte strings and lists carry their length in front, so that the encodings of a sequence of
items of known shapes can be told apart in their concatenation.
-/

namespace ThresholdKeygen

variable {K : Type} [Suite K]

/-- A value that a hash may cover; `other` is a value of a kind that no hash covers. -/
inductive Item (K : Type) where
  | bytes (content : Bytes)
  | int (n : Int)
  | scalar (s : Scalar)
  | point (p : Point K)
  | list (items : List (Item K))
  | other (kind : String)

namespace Item

/-- A length in four bytes. -/
def encodeLength (length : Nat) : Except Error Bytes :=
  if length < Nat.pow 2 32 then .ok (Bytes.ofNat 4 length) else .error (.overflow .tooBig)

/-- An integer in 32 bytes. -/
def encodeInt (n : Int) : Except Error Bytes :=
  if n < 0 then .error (.overflow .negative)
  else if n < Int.pow 2 256 then .ok (Bytes.ofNat Scalar.width n.toNat)
  else .error (.overflow .tooBig)

mutual
/-- The encoding of an item. -/
def encode : Item K → Except Error Bytes
  | .bytes content => return (← encodeLength content.length) ++ content
  | .int n => encodeInt n
  | .scalar s => return s.toBytes
  | .point p => return p.toBytes
  | .list items => do
    let parts ← encodeAll items
    return (← encodeLength items.length) ++ parts
  | .other kind => .error (.kind (.unencodable kind))

/-- The encodings of some items, one after the other. -/
def encodeAll : List (Item K) → Except Error Bytes
  | [] => return []
  | item :: rest => do
    let first ← encode item
    return first ++ (← encodeAll rest)
end

end Item

end ThresholdKeygen
