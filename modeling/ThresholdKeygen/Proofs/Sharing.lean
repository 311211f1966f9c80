import ThresholdKeygen.Proofs.Coefficients
import ThresholdKeygen.Proofs.Interpolation
import ThresholdKeygen.Proofs.Mapping
import ThresholdKeygen.Proofs.Refusal
import ThresholdKeygen.BatchCheck
import ThresholdKeygen.PublicMap

/-!
# Joint sharings

The polynomials of all dealers, and their sum. A complete commitment table is the public image of
exactly one sharing, also when nobody knows its polynomials; what is derived from the table is the
image of the values of the sum.
-/

namespace ThresholdKeygen

open Polynomial

/-- The polynomials of the dealers `1, …, dealers`, each with `threshold` coefficients. -/
structure Sharing where
  dealers : Int
  threshold : Nat
  dealt : Int → Coefficients
  length_dealt : ∀ i, 1 ≤ i → i ≤ dealers → (dealt i).length = threshold

namespace Sharing

variable (s : Sharing)

/-- The value of the joint polynomial at an index: what all dealers together deal to it. -/
def value (index : Int) : Scalar :=
  ((upTo s.dealers).map fun i => (s.dealt i).evaluate index).sum

/-- The coefficients of the joint polynomial. -/
def joint : Coefficients :=
  (List.range s.threshold).map fun k => ((upTo s.dealers).map fun i => (s.dealt i).getD k 0).sum

@[simp] theorem length_joint : s.joint.length = s.threshold := by simp [joint]

theorem evaluate_joint (index : Int) : s.joint.evaluate index = s.value index := by
  rw [joint, Coefficients.evaluate_map_sum, value]
  refine congrArg List.sum (List.map_congr_left fun i hi => ?_)
  obtain ⟨h₁, h₂⟩ := mem_upTo.1 hi
  rw [← s.length_dealt i h₁ h₂, Coefficients.map_range_getD]

/-- Shares at enough different indices determine the joint polynomial everywhere. -/
theorem interpolate_value {points : List (Int × Scalar)} {n : Int} (hn : n < groupOrder)
    (hne : points ≠ []) (hlen : s.threshold ≤ points.length)
    (hnodup : (points.map Prod.fst).Nodup)
    (hpoint : ∀ point ∈ points, 1 ≤ point.1 ∧ point.1 ≤ n ∧ point.2 = s.value point.1)
    (place : Int) : interpolate points place = .ok (s.value place) := by
  have hdistinct : (points.map fun point => (point.1 : Scalar)).Nodup := by
    have hrange : ∀ x ∈ points.map Prod.fst, 1 ≤ x ∧ x ≤ n := by
      intro x hx
      obtain ⟨point, hmem, rfl⟩ := List.mem_map.1 hx
      exact ⟨(hpoint point hmem).1, (hpoint point hmem).2.1⟩
    have hcast := Scalar.nodup_map_intCast hn hnodup hrange
    rwa [List.map_map] at hcast
  have hdegree : s.joint.toPolynomial.degree < points.length := by
    apply s.joint.degree_toPolynomial_lt.trans_le
    rw [length_joint]
    exact_mod_cast hlen
  rw [← evaluate_joint, ← Coefficients.eval_toPolynomial]
  refine interpolate_eq_eval hne hdistinct hdegree (fun point hmem => ?_) place
  rw [Coefficients.eval_toPolynomial, evaluate_joint]
  exact (hpoint point hmem).2.2

/-! ### Inboxes -/

/-- That an inbox holds what every dealer deals to an index, and nothing else. -/
def DealtTo (index : Int) (inbox : Inbox) : Prop :=
  ∀ i, inbox.get? i = if i ∈ upTo s.dealers then some ((s.dealt i).evaluate index) else none

variable {s} in
theorem DealtTo.mem_keys_iff {index i : Int} {inbox : Inbox} (h : s.DealtTo index inbox) :
    i ∈ inbox.keys ↔ i ∈ upTo s.dealers := by
  rw [Mapping.mem_keys_iff, h i]
  split <;> simp [*]

variable {s} in
/-- The shares of all dealers add up to the value of the joint polynomial. -/
theorem DealtTo.sum_values {index : Int} {inbox : Inbox} (h : s.DealtTo index inbox) :
    Scalar.sum inbox.values = s.value index := by
  rw [Scalar.sum_eq, (Mapping.values_perm (nodup_upTo _) h).sum_eq]
  rfl

/-! ### Commitment tables -/

variable {K : Type} [Suite K]

/-- The image of the joint polynomial. -/
def jointCommitment : JointCommitment K := ⟨s.joint.commit⟩

/-- The images of the values of the joint polynomial at `1, …, n`. -/
def shareMap (n : Int) : ShareMap K := ⟨(upTo n).map fun x => Point.ofScalar (s.value x)⟩

/-- A table that holds the commitments to all polynomials of a sharing. -/
structure CommittedIn (table : CommitmentTable K) : Prop where
  dealers_eq : table.dealers = s.dealers
  threshold_eq : table.threshold = s.threshold
  get?_eq : ∀ i, 1 ≤ i → i ≤ s.dealers → table.slots.get? i = some (.ofCoefficients (s.dealt i))

/-- A table that holds no other commitments than those to polynomials of a sharing. -/
structure Collects (table : CommitmentTable K) : Prop where
  dealers_eq : table.dealers = s.dealers
  threshold_eq : table.threshold = s.threshold
  get?_eq : ∀ i c, table.slots.get? i = some c → c = .ofCoefficients (s.dealt i)

variable {s} in
theorem Collects.committedIn {table : CommitmentTable K} (h : s.Collects table)
    (hcomplete : ∀ i, 1 ≤ i → i ≤ s.dealers → (table.slots.get? i).isSome) :
    s.CommittedIn table := by
  refine ⟨h.dealers_eq, h.threshold_eq, fun i h₁ h₂ => ?_⟩
  obtain ⟨c, hc⟩ := Option.isSome_iff_exists.1 (hcomplete i h₁ h₂)
  rw [hc, h.get?_eq i c hc]

/-- A complete table of commitments of the right length belongs to some sharing. -/
theorem exists_committedIn [LawfulSuite K] {table : CommitmentTable K} {threshold : Nat}
    (hthreshold : table.threshold = threshold) (hcomplete : table.missing = [])
    (hlength : ∀ i c, table.slots.get? i = some c → c.points.length = threshold) :
    ∃ s : Sharing, s.CommittedIn table := by
  have hslot : ∀ i, 1 ≤ i → i ≤ table.dealers → ∃ c, table.slots.get? i = some c := by
    intro i h₁ h₂
    rw [CommitmentTable.missing, List.filter_eq_nil_iff] at hcomplete
    simpa [Option.ne_none_iff_exists'] using hcomplete i (mem_upTo.2 ⟨h₁, h₂⟩)
  refine ⟨⟨table.dealers, threshold, fun i => ((table.slots.get? i).map Commitment.logs).getD [],
    ?_⟩, ⟨rfl, hthreshold, ?_⟩⟩
  · intro i h₁ h₂
    obtain ⟨c, hc⟩ := hslot i h₁ h₂
    simpa [hc] using hlength i c hc
  · intro i h₁ h₂
    obtain ⟨c, hc⟩ := hslot i h₁ h₂
    simp [hc]

namespace CommittedIn

variable {s} {table : CommitmentTable K} (h : s.CommittedIn table)

include h

theorem missing_eq : table.missing = [] := by
  rw [CommitmentTable.missing, List.filter_eq_nil_iff]
  intro i hi
  rw [h.dealers_eq] at hi
  obtain ⟨h₁, h₂⟩ := mem_upTo.1 hi
  simp [h.get?_eq i h₁ h₂]

theorem items_eq : table.items =
    (upTo s.dealers).map fun i => (i, .ofCoefficients (s.dealt i)) := by
  rw [CommitmentTable.items, h.dealers_eq, ← List.filterMap_eq_map]
  apply List.filterMap_congr
  intro i hi
  obtain ⟨h₁, h₂⟩ := mem_upTo.1 hi
  simp [h.get?_eq i h₁ h₂]

theorem commitmentOf_eq {i : Int} (h₁ : 1 ≤ i) (h₂ : i ≤ s.dealers) :
    table.commitmentOf i = .ok (.ofCoefficients (s.dealt i)) := by
  rw [CommitmentTable.commitmentOf, CommitmentTable.get, CommitmentTable.checkSender,
    h.dealers_eq, if_pos ⟨h₁, h₂⟩, h.get?_eq i h₁ h₂]
  rfl

variable [LawfulSuite K]

theorem sum_column {k : Nat} (hk : k < s.threshold) :
    Point.sum (table.items.filterMap fun (_, c) => c.points[k]?) =
      Point.ofScalar ((upTo s.dealers).map fun i => (s.dealt i).getD k 0).sum := by
  have hcolumn : table.items.filterMap (fun (_, c) => c.points[k]?) =
      (upTo s.dealers).map fun i => (Point.ofScalar ((s.dealt i).getD k 0) : Point K) := by
    rw [h.items_eq, List.filterMap_map, ← List.filterMap_eq_map]
    apply List.filterMap_congr
    intro i hi
    obtain ⟨h₁, h₂⟩ := mem_upTo.1 hi
    have hlength : k < (s.dealt i).length := by rwa [s.length_dealt i h₁ h₂]
    simp [Commitment.ofCoefficients, Coefficients.commit, hlength]
  rw [hcolumn, Point.sum_map_ofScalar]

/-- The joint commitment is the commitment to the joint polynomial. -/
theorem derive_joint : JointCommitment.derive table = .ok s.jointCommitment := by
  rw [JointCommitment.derive, h.missing_eq, h.threshold_eq]
  simp only [List.isEmpty_nil, if_true, Int.toNat_natCast]
  refine congrArg (fun points => Except.ok (JointCommitment.mk points)) ?_
  rw [joint, Coefficients.commit, List.map_map]
  exact List.map_congr_left fun k hk => h.sum_column (List.mem_range.1 hk)

omit [LawfulSuite K] in
theorem constants_eq (hthreshold : 1 ≤ s.threshold) :
    (table.items.mapM fun (_, c) => c.constant) =
      .ok ((upTo s.dealers).map fun i => Point.ofScalar ((s.dealt i).headD 0)) := by
  have hconstant : ∀ item ∈ table.items,
      item.2.constant = .ok (item.2.points.headD .identity) := by
    intro item hitem
    rw [h.items_eq, List.mem_map] at hitem
    obtain ⟨i, hi, rfl⟩ := hitem
    obtain ⟨h₁, h₂⟩ := mem_upTo.1 hi
    have hlength : 0 < (s.dealt i).length := by rwa [s.length_dealt i h₁ h₂]
    rw [Commitment.constant_ofCoefficients hlength]
    exact congrArg Except.ok (Coefficients.headD_commit (s.dealt i)).symm
  rw [mapM_eq_ok hconstant, h.items_eq, List.map_map]
  exact congrArg Except.ok (List.map_congr_left fun i _ => Coefficients.headD_commit (s.dealt i))

end CommittedIn

/-- At zero only the constant terms are left. -/
theorem value_zero : s.value 0 = ((upTo s.dealers).map fun i => (s.dealt i).headD 0).sum := by
  rw [value]
  refine congrArg List.sum (List.map_congr_left fun i _ => ?_)
  rw [Int.cast_zero, Coefficients.evaluate_zero]

end Sharing

end ThresholdKeygen
