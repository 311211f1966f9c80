import ThresholdKeygen.Proofs.Point.Group

/-!
# Discrete logarithms

In a lawful suite a point is the multiple of the generator by exactly one scalar, and the backend
computes in the group of these scalars. Main statements: operations on points are operations on
their logarithms; in particular `log_sum`, the sum of any points is the sum of these, whatever
cancels on the way.
-/

namespace ThresholdKeygen.Point

variable {K : Type} [Suite K]

@[simp] theorem ofScalar_zero : (ofScalar 0 : Point K) = identity := if_pos rfl

theorem ofScalar_of_ne_zero {s : Scalar} (hs : s ≠ 0) :
    (ofScalar s : Point K) = key (Suite.ofScalar s) := if_neg hs

variable [LawfulSuite K]

/-- The scalar of which a point is the multiple. -/
noncomputable def log : Point K → Scalar
  | identity => 0
  | key k => Classical.choose (LawfulSuite.exists_ofScalar k)

theorem log_key_ne_zero (k : K) : (key k).log ≠ 0 :=
  (Classical.choose_spec (LawfulSuite.exists_ofScalar k)).1

@[simp] theorem ofScalar_log_key (k : K) : Suite.ofScalar (key k).log = k :=
  (Classical.choose_spec (LawfulSuite.exists_ofScalar k)).2

@[simp] theorem log_identity : (identity : Point K).log = 0 := rfl

/-- Every point is the multiple of the generator by its logarithm. -/
@[simp] theorem ofScalar_log (p : Point K) : ofScalar p.log = p := by
  cases p with
  | identity => simp
  | key k => rw [ofScalar_of_ne_zero (log_key_ne_zero k), ofScalar_log_key]

@[simp] theorem log_ofScalar (s : Scalar) : (ofScalar s : Point K).log = s := by
  by_cases hs : s = 0
  · simp [hs]
  · rw [ofScalar_of_ne_zero hs]
    exact LawfulSuite.ofScalar_injOn (K := K) (log_key_ne_zero _) hs (ofScalar_log_key _)

theorem log_injective : Function.Injective (log : Point K → Scalar) := by
  intro p q h
  rw [← ofScalar_log p, h, ofScalar_log]

theorem eq_iff_log_eq {p q : Point K} : p = q ↔ p.log = q.log := log_injective.eq_iff.symm

theorem isIdentity_iff {p : Point K} : p.isIdentity = true ↔ p.log = 0 := by
  cases p with
  | identity => simp [isIdentity]
  | key k => simp [isIdentity, log_key_ne_zero]

/-! ### Operations -/

@[simp] theorem log_smul (s : Scalar) (p : Point K) : (s • p).log = s * p.log := by
  change (scale s p).log = _
  cases p with
  | identity => simp [scale]
  | key k =>
    by_cases hs : s = 0
    · simp [scale, hs]
    · have hk := log_key_ne_zero k
      have hscale : Suite.scale s k = Suite.ofScalar (s * (key k).log) := by
        rw [← LawfulSuite.scale_ofScalar hs hk, ofScalar_log_key]
      rw [scale, if_neg hs, hscale, ← ofScalar_of_ne_zero (mul_ne_zero hs hk), log_ofScalar]

/-- A list of keys in the form in which the laws of sums speak of them. -/
theorem map_ofScalar_log (ks : List K) :
    (ks.map fun k => (key k).log).map Suite.ofScalar = ks := by
  simp [Function.comp_def]

theorem forall_log_ne_zero (ks : List K) : ∀ s ∈ ks.map fun k => (key k).log, s ≠ 0 := by
  simp [log_key_ne_zero]

variable (K) in
/-- The backend of a lawful suite computes in the group of scalars. -/
noncomputable def logBackend : GroupBackend K Scalar where
  element k := (key k).log
  element_ne_zero := log_key_ne_zero
  element_injective k l h := key.inj (log_injective h)
  combine?_eq_some := by
    intro ks k hlen h
    rw [← map_ofScalar_log ks] at h
    obtain ⟨hne, rfl⟩ :=
      LawfulSuite.combine?_eq_some (by simpa using hlen) (forall_log_ne_zero ks) h
    rw [← ofScalar_of_ne_zero hne, log_ofScalar]
  combine?_eq_none := by
    intro ks hlen h
    rw [← map_ofScalar_log ks] at h
    obtain ⟨part, hpart, hne, hsum⟩ :=
      LawfulSuite.combine?_eq_none (by simpa using hlen) (forall_log_ne_zero ks) h
    obtain ⟨part, hsub, rfl⟩ := List.sublist_map_iff.1 hpart.sublist
    exact ⟨part, hsub, by simpa using hne, hsum⟩
  decode?_flipSign := by
    intro k
    have hk := log_key_ne_zero k
    have hflip := LawfulSuite.decode?_flipSign (K := K) hk
    rw [ofScalar_log_key] at hflip
    refine ⟨_, hflip, ?_⟩
    rw [← ofScalar_of_ne_zero (neg_ne_zero.2 hk), log_ofScalar]

@[simp] theorem value_logBackend (p : Point K) : (logBackend K).value p = p.log := by
  cases p <;> rfl

theorem map_value_logBackend (points : List (Point K)) :
    points.map (logBackend K).value = points.map log :=
  List.map_congr_left fun p _ => value_logBackend p

@[simp] theorem log_neg (p : Point K) : (-p).log = -p.log := by
  simpa using (logBackend K).value_neg p

@[simp] theorem log_sum (points : List (Point K)) : (sum points).log = (points.map log).sum := by
  rw [← value_logBackend, GroupBackend.value_sum, map_value_logBackend]

/-- A sum of multiples of the generator. -/
theorem sum_map_ofScalar {ι : Type} (l : List ι) (f : ι → Scalar) :
    sum (l.map fun i => (ofScalar (f i) : Point K)) = ofScalar (l.map f).sum := by
  apply log_injective
  rw [log_sum, log_ofScalar, List.map_map]
  exact congrArg List.sum (List.map_congr_left fun i _ => log_ofScalar (f i))

@[simp] theorem log_add (p q : Point K) : (p + q).log = p.log + q.log := by
  simpa using (logBackend K).value_add p q

theorem lincomb_eq {scalars : List Scalar} {points : List (Point K)}
    (h : scalars.length = points.length) :
    lincomb scalars points =
      .ok (ofScalar (List.zipWith (· * ·) scalars (points.map log)).sum) := by
  rw [lincomb, if_neg (not_not.2 h)]
  congr 1
  apply log_injective
  rw [log_sum, log_ofScalar, List.map_zipWith, List.zipWith_map_right]
  congr 2
  funext s p
  exact log_smul s p

end ThresholdKeygen.Point
