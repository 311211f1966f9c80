import ThresholdKeygen.Suite

/-!
# Points

Group elements: the identity, which no backend represents, or a key. The identity is encoded as 33
zero bytes, a byte string that is the encoding of no key.
-/

namespace ThresholdKeygen

variable {K : Type} [Suite K]

/-- A group element. -/
inductive Point (K : Type) where
  | identity
  | key (k : K)

namespace Point

instance : Inhabited (Point K) := ⟨identity⟩

/-- The number of bytes in the encoding of a point. -/
def width : Nat := 33

/-- The encoding of the identity. -/
def identityBytes : Bytes := List.replicate width 0

/-- The 33-byte encoding. -/
def toBytes : Point K → Bytes
  | identity => identityBytes
  | key k => Suite.encode k

/-- Reads a 33-byte encoding. -/
def ofBytes? (bytes : Bytes) : Except Error (Point K) :=
  if bytes.length ≠ width then .error (.value (.pointLength bytes.length))
  else if bytes = identityBytes then .ok identity
  else match Suite.decode? bytes with
    | some k => .ok (key k)
    | none => .error (.value .notAPoint)

/-- Two points are the same when their encodings are. -/
instance : BEq (Point K) := ⟨fun p q => p.toBytes == q.toBytes⟩

/-- Whether a point is the identity. -/
def isIdentity : Point K → Bool
  | identity => true
  | key _ => false

/-- The multiple of the generator by a scalar. -/
def ofScalar (s : Scalar) : Point K :=
  if s = 0 then identity else key (Suite.ofScalar s)

/-- The generator of the group. -/
def generator : Point K := ofScalar 1

/-- The multiple of a point by a scalar. -/
def scale (s : Scalar) : Point K → Point K
  | identity => identity
  | key k => if s = 0 then identity else key (Suite.scale s k)

instance : HSMul Scalar (Point K) (Point K) := ⟨scale⟩

/-- The encoding with the other sign of the second coordinate: `02` and `03` trade places. -/
def flipSign : Bytes → Bytes
  | [] => []
  | b :: rest => (b ^^^ 1) :: rest

/-- The negative of a point, found by its encoding. -/
def neg : Point K → Point K
  | identity => identity
  | key k =>
    match Suite.decode? (flipSign (Suite.encode k)) with
    | some k' => key k'
    | none => identity

/-- The keys among some points. -/
def keys (points : List (Point K)) : List K :=
  points.filterMap fun
    | identity => none
    | key k => some k

/-- Adds a key to a point, telling apart the cases that a backend cannot compute. -/
def addKey (acc : Point K) (k : K) : Point K :=
  match acc with
  | identity => key k
  | key a =>
    if acc == neg (key k) then identity
    else match Suite.combine? [a, k] with
      | some s => key s
      | none => identity

/-- The sum of some points: in one call of the backend if that succeeds, else one by one. -/
def sum (points : List (Point K)) : Point K :=
  match keys points with
  | [] => identity
  | [k] => key k
  | k :: rest =>
    match Suite.combine? (k :: rest) with
    | some s => key s
    | none => rest.foldl addKey (key k)

instance : Neg (Point K) := ⟨neg⟩
instance : Add (Point K) := ⟨fun p q => sum [p, q]⟩
instance : Sub (Point K) := ⟨fun p q => sum [p, -q]⟩

/-- The sum of the points, each scaled by the scalar at its place. -/
def lincomb (scalars : List Scalar) (points : List (Point K)) : Except Error (Point K) :=
  if scalars.length ≠ points.length then
    .error (.value (.termCount scalars.length points.length))
  else .ok (sum (List.zipWith scale scalars points))

/-- A short name for messages: the first eight bytes of the encoding. -/
def describe : Point K → String
  | identity => "Point(∞)"
  | p => "Point(" ++ Bytes.toHex (p.toBytes.take 8) ++ "…)"

end Point

end ThresholdKeygen
