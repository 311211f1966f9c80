import ThresholdKeygen.Scalar
import ThresholdKeygen.Sha256

/-!
# Cipher suites

What the protocol needs of its group and of its hash function. A backend works with keys, the group
elements other than the identity; adding keys can therefore fail. `Point` closes this gap.
-/

namespace ThresholdKeygen

/-- A group of order `groupOrder`, given by its elements other than the identity, and a hash. -/
class Suite (K : Type) where
  /-- The multiple of the generator by a nonzero scalar. -/
  ofScalar : Scalar → K
  /-- The multiple of a key by a nonzero scalar. -/
  scale : Scalar → K → K
  /-- The sum of two or more keys; it may fail when a partial sum is the identity. -/
  combine? : List K → Option K
  /-- The compressed encoding of a key, 33 bytes that start with `02` or `03`. -/
  encode : K → Bytes
  /-- The key with a given compressed encoding. -/
  decode? : Bytes → Option K
  /-- The hash function under all protocol hashes. -/
  hash : Bytes → Digest

end ThresholdKeygen
