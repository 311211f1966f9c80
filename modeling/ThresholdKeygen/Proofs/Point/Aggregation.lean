import ThresholdKeygen.Proofs.Secp256k1.Group

/-!
# Sums of points

Sums of points with any backend that computes in an abelian group. Main statement:
`aggregation_exact`, they never fail and are the sums in the group, whatever cancels on the way, so
that their order does not matter; linear combinations are sums of multiples, and refused only when
scalars or points are missing.
-/

namespace ThresholdKeygen

namespace Point

/-- What points are to the group in which a backend computes. -/
structure AggregatesIn {K : Type} [Suite K] {A : Type*} [AddCommGroup A]
    (backend : GroupBackend K A) : Prop where
  /-- Adding up points never fails and gives their sum. -/
  sum_eq (points : List (Point K)) : sum? points = some (sum points) ∧
    backend.value (sum points) = (points.map backend.value).sum
  add_eq (p q : Point K) : sum? [p, q] = some (p + q) ∧
    backend.value (p + q) = backend.value p + backend.value q
  neg_eq (p : Point K) : neg? p = some (-p) ∧ backend.value (-p) = -backend.value p
  sub_eq (p q : Point K) : sum? [p, -q] = some (p - q) ∧
    backend.value (p - q) = backend.value p - backend.value q
  /-- The negative of a key is the key with the other sign. -/
  toBytes_neg (k : K) : (-key k : Point K).toBytes = flipSign (key k : Point K).toBytes
  add_neg (p : Point K) : p + -p = identity
  sum_perm {points points' : List (Point K)} (h : points.Perm points') : sum points = sum points'
  /-- A linear combination is the sum of the scaled points. -/
  lincomb_eq (scalars : List Scalar) (points : List (Point K))
    (h : scalars.length = points.length) : ∃ p, lincomb scalars points = .ok p ∧
      sum? (List.zipWith (· • ·) scalars points) = some p ∧
        backend.value p = (List.zipWith (fun s q => backend.value (s • q)) scalars points).sum
  lincomb_refuses_iff (scalars : List Scalar) (points : List (Point K)) :
    (∃ fault, lincomb scalars points = .error (.value fault)) ↔ scalars.length ≠ points.length

/-- Points add up as in the group in which the backend computes. -/
theorem aggregation_exact {K : Type} [Suite K] [LawfulEncoding K] {A : Type*} [AddCommGroup A]
    (backend : GroupBackend K A) : AggregatesIn backend where
  sum_eq points := ⟨backend.sum?_eq points, backend.value_sum points⟩
  add_eq p q := ⟨backend.sum?_eq [p, q], backend.value_add p q⟩
  neg_eq p := ⟨backend.neg?_eq p, backend.value_neg p⟩
  sub_eq p q := ⟨backend.sum?_eq [p, -q], backend.value_sub p q⟩
  toBytes_neg k := by
    obtain ⟨k', hk', -⟩ := backend.decode?_flipSign k
    rw [neg_of_neg? (show neg? (key k) = some (key k') by rw [neg?, hk']; rfl)]
    exact (LawfulEncoding.decode?_eq_some_iff.1 hk').symm
  add_neg p := by
    apply backend.value_injective
    rw [backend.value_add, backend.value_neg, add_neg_cancel, backend.value_identity]
  sum_perm h := by
    apply backend.value_injective
    rw [backend.value_sum, backend.value_sum, (h.map backend.value).sum_eq]
  lincomb_eq scalars points h := by
    refine ⟨_, if_neg (not_not.2 h), backend.sum?_eq _, ?_⟩
    rw [backend.value_sum, List.map_zipWith]
    rfl
  lincomb_refuses_iff scalars points := by
    rw [lincomb]
    split <;> simp [*]

open Secp256k1 in
/-- The points of the curve, with a doubling, a pair that cancels and the identity among five of
them. -/
theorem exists_aggregation_exact : AggregatesIn curveBackend ∧
    sum? [key base, key base, identity, -key base, key base] = some (key base + key base) ∧
    (key base : Point Affine) + -key base = identity := by
  have h : AggregatesIn curveBackend := aggregation_exact curveBackend
  obtain ⟨hsum, hvalue⟩ := h.sum_eq [key base, key base, identity, -key base, key base]
  refine ⟨h, hsum.trans (congrArg some (curveBackend.value_injective ?_)), h.add_neg _⟩
  rw [hvalue, (h.add_eq _ _).2]
  simp [(h.neg_eq _).2]

end Point

end ThresholdKeygen
