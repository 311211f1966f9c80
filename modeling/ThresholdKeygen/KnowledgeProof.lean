import ThresholdKeygen.RandomSource
import ThresholdKeygen.Transcript

/-!
# Proofs of knowledge

A dealer proves that it knows the constant term of its polynomial by a Schnorr proof. The challenge
covers the dealer's position and the context of the run, so that a proof counts only there.
-/

namespace ThresholdKeygen

variable {K : Type} [Suite K] {σ : Type} [RandomSource σ]

/-- The announcement `k·G` and the response `k + c·a` to the challenge `c`. -/
structure KnowledgeProof (K : Type) where
  announcement : Point K
  response : Scalar

namespace KnowledgeProof

/-- The proof with a given nonce. -/
def withNonce (nonce secret : Scalar) (publicKey : Point K) (position : Int) (context : Item K) :
    Except Error (KnowledgeProof K) := do
  let announcement := Point.ofScalar nonce
  let c ← Transcript.challenge context position announcement publicKey
  return ⟨announcement, nonce + c * secret⟩

/-- A proof with a fresh nonce. -/
def prove (secret : Scalar) (publicKey : Point K) (position : Int) (context : Item K) :
    ExceptT Error (StateM σ) (KnowledgeProof K) := do
  let nonce ← (drawScalar position : StateM σ Scalar)
  withNonce nonce secret publicKey position context

/-- The challenge that a proof answers. -/
def challenge (proof : KnowledgeProof K) (publicKey : Point K) (position : Int)
    (context : Item K) : Except Error Scalar :=
  Transcript.challenge context position proof.announcement publicKey

/-- Whether `z·G = R + c·C`; neither the announcement nor the key may be the identity. -/
def verify (proof : KnowledgeProof K) (publicKey : Point K) (position : Int) (context : Item K) :
    Except Error Bool := do
  if publicKey.isIdentity || proof.announcement.isIdentity then return false
  let c ← proof.challenge publicKey position context
  return Point.ofScalar proof.response == proof.announcement + c • publicKey

/-- The announcement, then the response. -/
def toBytes (proof : KnowledgeProof K) : Bytes :=
  proof.announcement.toBytes ++ proof.response.toBytes

/-- Reads the encoding of a proof. -/
def ofBytes? (bytes : Bytes) : Except Error (KnowledgeProof K) := do
  if bytes.length ≠ Point.width + Scalar.width then throw (.value (.proofLength bytes.length))
  return ⟨← Point.ofBytes? (bytes.take Point.width), ← Scalar.ofBytes? (bytes.drop Point.width)⟩

end KnowledgeProof

end ThresholdKeygen
