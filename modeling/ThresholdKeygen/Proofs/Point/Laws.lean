import ThresholdKeygen.Point
import ThresholdKeygen.Proofs.Scalar.Field

/-!
# The laws of a suite

What the theory assumes of a backend. Its encoding is injective, of fixed width and distinguishable
from that of the identity. Its keys are the nonzero multiples of a generator of order `groupOrder`,
and multiples and sums of keys are computed on the factors; adding keys may fail only when a partial
sum is the identity, and fails when the whole sum is.
-/

namespace ThresholdKeygen

/-- An encoding of keys by 33 bytes with a sign in front, of which decoding is the inverse. -/
class LawfulEncoding (K : Type) [Suite K] : Prop where
  length_encode (k : K) : (Suite.encode k).length = Point.width
  sign_encode (k : K) : (Suite.encode k).head? = some 2 ∨ (Suite.encode k).head? = some 3
  decode?_eq_some_iff {bytes : Bytes} {k : K} :
    Suite.decode? bytes = some k ↔ bytes = Suite.encode k

/-- A cyclic group of order `groupOrder`, written with a generator. -/
class LawfulSuite (K : Type) [Suite K] : Prop extends LawfulEncoding K where
  /-- Every key is a multiple of the generator. -/
  exists_ofScalar (k : K) : ∃ s : Scalar, s ≠ 0 ∧ Suite.ofScalar s = k
  /-- No smaller multiple of the generator than its `groupOrder`-fold is the identity. -/
  ofScalar_injOn {s t : Scalar} (hs : s ≠ 0) (ht : t ≠ 0)
    (h : (Suite.ofScalar s : K) = Suite.ofScalar t) : s = t
  scale_ofScalar {s t : Scalar} (hs : s ≠ 0) (ht : t ≠ 0) :
    Suite.scale s (Suite.ofScalar t : K) = Suite.ofScalar (s * t)
  /-- What a backend adds up is the sum, which is then not the identity. -/
  combine?_eq_some {factors : List Scalar} {k : K} (hlen : 2 ≤ factors.length)
    (hne : ∀ s ∈ factors, s ≠ 0) (h : Suite.combine? (factors.map Suite.ofScalar) = some k) :
    factors.sum ≠ 0 ∧ k = Suite.ofScalar factors.sum
  /-- A backend gives up only when a partial sum is the identity. -/
  combine?_eq_none {factors : List Scalar} (hlen : 2 ≤ factors.length)
    (hne : ∀ s ∈ factors, s ≠ 0)
    (h : Suite.combine? (factors.map (Suite.ofScalar : Scalar → K)) = none) :
    ∃ part, part <+: factors ∧ part ≠ [] ∧ part.sum = 0
  /-- The other sign belongs to the negative. -/
  decode?_flipSign {s : Scalar} (hs : s ≠ 0) :
    Suite.decode? (Point.flipSign (Suite.encode (Suite.ofScalar s : K))) =
      some (Suite.ofScalar (-s) : K)

variable {K : Type} [Suite K]

/-! ### Encodings -/

namespace Point

variable [LawfulEncoding K]

theorem encode_injective : Function.Injective (Suite.encode : K → Bytes) := by
  intro k l h
  have hk : Suite.decode? (Suite.encode k) = some k := LawfulEncoding.decode?_eq_some_iff.2 rfl
  have hl : Suite.decode? (Suite.encode k) = some l := LawfulEncoding.decode?_eq_some_iff.2 h
  exact Option.some.inj (hk.symm.trans hl)

theorem encode_ne_identityBytes (k : K) : Suite.encode k ≠ identityBytes := by
  intro h
  have hsign := LawfulEncoding.sign_encode k
  rw [h] at hsign
  revert hsign
  decide

@[simp] theorem length_toBytes (p : Point K) : p.toBytes.length = width := by
  cases p with
  | identity => rfl
  | key k => exact LawfulEncoding.length_encode k

theorem toBytes_injective : Function.Injective (toBytes : Point K → Bytes) := by
  intro p q h
  cases p with
  | identity =>
    cases q with
    | identity => rfl
    | key l => exact absurd h.symm (encode_ne_identityBytes l)
  | key k =>
    cases q with
    | identity => exact absurd h (encode_ne_identityBytes k)
    | key l => rw [encode_injective h]

instance : LawfulBEq (Point K) where
  rfl := by
    intro p
    exact beq_self_eq_true p.toBytes
  eq_of_beq := by
    intro p q h
    exact toBytes_injective (eq_of_beq h)

/-- Reading undoes writing. -/
@[simp] theorem ofBytes?_toBytes (p : Point K) : ofBytes? p.toBytes = .ok p := by
  rw [ofBytes?, if_neg (by simp)]
  cases p with
  | identity => rfl
  | key k =>
    have hk : Suite.decode? (Suite.encode k) = some k := LawfulEncoding.decode?_eq_some_iff.2 rfl
    simp only [toBytes, if_neg (encode_ne_identityBytes k), hk]

end Point

end ThresholdKeygen
