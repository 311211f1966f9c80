import ThresholdKeygen.CommitmentTable
import ThresholdKeygen.PowerMap
import ThresholdKeygen.Transcript

/-!
# Public maps

The joint commitment is the sum of all dealers' commitments; its evaluations are the public shares
of all indices. Both depend on public data only. They travel as snapshots: the points behind their
number, followed by a digest that covers the kind of the map and these bytes.
-/

namespace ThresholdKeygen

variable {K : Type} [Suite K]

/-! ### Snapshots -/

namespace Snapshot

/-- The number of bytes of the digest. -/
def digestWidth : Nat := 32

/-- The bytes by which a digest covers the kind of a map. -/
def kindBytes (kind : MapKind) : Bytes := Bytes.ofText kind.letter

/-- The snapshot of some points. It is the digest that refuses points which are too many for a
length in four bytes. -/
def pack (kind : MapKind) (points : List (Point K)) : Except Error Bytes :=
  return packPoints points ++
    (← Transcript.snapshotDigest K (kindBytes kind) (packPoints points))

/-- Reads a snapshot: length, digest, number of points and points are checked in this order. -/
def unpack (kind : MapKind) (bytes : Bytes) : Except Error (List (Point K)) := do
  if bytes.length < 4 + digestWidth then throw (.snapshot (.truncated kind))
  let body := bytes.take (bytes.length - digestWidth)
  let digest := bytes.drop (bytes.length - digestWidth)
  if digest ≠ (← Transcript.snapshotDigest K (kindBytes kind) body) then
    throw (.snapshot (.digestMismatch kind))
  let count := Bytes.toNat (body.take 4)
  if body.length ≠ 4 + count * Point.width then
    throw (.snapshot (.lengthMismatch kind count (body.length - 4)))
  match unpackPoints count (body.drop 4) with
  | .ok points => return points
  | .error refusal => throw (.snapshot (.badPoint kind refusal.message))

/-- A short name of a snapshot: the first eight bytes of its digest. -/
def fingerprint (snapshot : Bytes) : String :=
  Bytes.toHex ((snapshot.drop (snapshot.length - digestWidth)).take 8)

end Snapshot

/-! ### The joint commitment -/

/-- The commitment to the sum of all dealers' polynomials. -/
structure JointCommitment (K : Type) where
  points : List (Point K)

namespace JointCommitment

instance : BEq (JointCommitment K) := ⟨fun q r => q.points == r.points⟩

/-- Sums the commitments of a complete table, coefficient by coefficient. -/
def derive (table : CommitmentTable K) : Except Error (JointCommitment K) :=
  if table.missing.isEmpty then
    .ok ⟨(List.range table.threshold.toNat).map fun k =>
      Point.sum (table.items.filterMap fun (_, c) => c.points[k]?)⟩
  else .error (.state (.incompleteTable table.missing))

/-- The number of coefficients. -/
def threshold (q : JointCommitment K) : Nat := q.points.length

/-- The image of the joint constant term. -/
def groupKey (q : JointCommitment K) : Except Error (Point K) := pointAt q.points 0

/-- The public share of the index with the given powers. -/
def evaluate (q : JointCommitment K) (row : List Scalar) : Except Error (Point K) :=
  if row.length ≠ q.points.length then .error (.value (.rowLength row.length q.points.length))
  else Point.lincomb row q.points

def toBytes (q : JointCommitment K) : Except Error Bytes := Snapshot.pack .joint q.points

/-- Reads a snapshot, which has to hold a point. -/
def ofBytes? (bytes : Bytes) : Except Error (JointCommitment K) := do
  let points ← Snapshot.unpack .joint bytes
  if points.isEmpty then throw (.snapshot .empty)
  return ⟨points⟩

def fingerprint (q : JointCommitment K) : Except Error String :=
  q.toBytes.map Snapshot.fingerprint

end JointCommitment

/-! ### The public shares -/

/-- The public shares of the indices `1, …, shares.length`. -/
structure ShareMap (K : Type) where
  shares : List (Point K)

namespace ShareMap

instance : BEq (ShareMap K) := ⟨fun v w => v.shares == w.shares⟩

/-- Evaluates the joint commitment at every index of a power map. -/
def derive (q : JointCommitment K) (powerMap : PowerMap) : Except Error (ShareMap K) := do
  if powerMap.threshold ≠ q.threshold then throw (.value .thresholdsDiffer)
  return ⟨← powerMap.rows.mapM q.evaluate⟩

/-- The number of indices. -/
def size (w : ShareMap K) : Nat := w.shares.length

/-- The public share of an index. -/
def share (w : ShareMap K) (index : Int) : Except Error (Point K) :=
  if index < 1 then .error (.noEntry index)
  else match w.shares[(index - 1).toNat]? with
    | some p => .ok p
    | none => .error (.noEntry index)

def toBytes (w : ShareMap K) : Except Error Bytes := Snapshot.pack .shares w.shares

def ofBytes? (bytes : Bytes) : Except Error (ShareMap K) := do
  return ⟨← Snapshot.unpack .shares bytes⟩

def fingerprint (w : ShareMap K) : Except Error String := w.toBytes.map Snapshot.fingerprint

end ShareMap

end ThresholdKeygen
