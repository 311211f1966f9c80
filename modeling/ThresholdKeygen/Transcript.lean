import ThresholdKeygen.Item

/-!
# Protocol hashes

Every hash of the protocol is tagged: it covers the digest of its tag twice and then the encoding of
its items, so that hashes for different purposes are independent.
-/

namespace ThresholdKeygen.Transcript

variable {K : Type} [Suite K]

def proofTag : Bytes := Bytes.ofText "FROSTDKG/v1/secret_proof"

def contextTag : Bytes := Bytes.ofText "FROSTDKG/v1/context"

def snapshotTag : Bytes := Bytes.ofText "FROSTDKG/v1/map_snapshot"

variable (K) in
/-- The bytes that a tagged hash of `content` covers. -/
def taggedBytes (tag content : Bytes) : Bytes :=
  let tagDigest := (Suite.hash (K := K) tag).bytes
  tagDigest ++ tagDigest ++ content

variable (K) in
/-- The tagged hash of a byte string. -/
def taggedDigest (tag content : Bytes) : Digest :=
  Suite.hash (K := K) (taggedBytes K tag content)

/-- The tagged hash of some items. -/
def tagged (tag : Bytes) (items : List (Item K)) : Except Error Digest :=
  return taggedDigest K tag (← Item.encodeAll items)

/-- The challenge of a proof of knowledge. -/
def challenge (context : Item K) (position : Int) (announcement publicKey : Point K) :
    Except Error Scalar :=
  return Scalar.ofBytesReduced
    (← tagged proofTag [context, .int position, .point announcement, .point publicKey]).bytes

/-- Binds the label of a run to its parameters. -/
def runContext (label : Item K) (count dealers threshold : Int) : Except Error Bytes :=
  return (← tagged contextTag [label, .int count, .int dealers, .int threshold]).bytes

variable (K) in
/-- The digest that ends the snapshot of a map. -/
def snapshotDigest (kind body : Bytes) : Except Error Bytes :=
  return (← tagged (K := K) snapshotTag [.bytes kind, .bytes body]).bytes

end ThresholdKeygen.Transcript
