import ThresholdKeygen.Proofs.CommitmentTable
import ThresholdKeygen.Proofs.Point.Residues
import ThresholdKeygen.Proofs.PublicMap

/-!
# Evaluations of a joint commitment

The public share of an index is computed in several ways: ahead for all indices, from a row of
powers, by Horner's rule, and by each dealer's commitment on its own. They add the same multiples
of the same points in different orders. Main statement: `evaluations_agree`, they give the same
points for every complete table, and enough of these points give the group key back.
-/

namespace ThresholdKeygen

variable {K : Type} [Suite K]

/-! ### Sharings -/

namespace Sharing

variable (s : Sharing)

theorem headD_joint : s.joint.headD 0 = s.value 0 := by
  rw [← Coefficients.evaluate_zero, ← evaluate_joint, Int.cast_zero]

theorem groupKey_jointCommitment (hthreshold : 1 ≤ s.threshold) :
    (s.jointCommitment : JointCommitment K).groupKey = .ok (.ofScalar (s.value 0)) := by
  have hlength : 0 < s.joint.length := by rwa [length_joint]
  rw [← headD_joint]
  exact Commitment.constant_ofCoefficients hlength

variable [LawfulSuite K]

/-- Horner's rule evaluates the joint commitment to the image of the joint value. -/
theorem evaluateCommitment_joint (x : Int) :
    evaluateCommitment (s.jointCommitment : JointCommitment K).points (x : Scalar) =
      .ofScalar (s.value x) := by
  rw [jointCommitment, evaluateCommitment_commit, evaluate_joint]

/-- Public shares of enough indices, weighed by Lagrange coefficients, are the image of the joint
value at the place of these coefficients. -/
theorem lincomb_shareMap {n : Int} (hn : n < groupOrder) (hthreshold : 1 ≤ s.threshold)
    {indices : List Int} (hnodup : indices.Nodup) (hlength : s.threshold ≤ indices.length)
    (hrange : ∀ x ∈ indices, 1 ≤ x ∧ x ≤ n) (place : Int) :
    (do
      let coefficients ← lagrangeCoefficients indices place
      Point.lincomb (coefficients.map Prod.snd)
        (← indices.mapM (s.shareMap n : ShareMap K).share)) = .ok (.ofScalar (s.value place)) := by
  have hfst : (indices.map fun x => (x, s.value x)).map Prod.fst = indices := by
    simp [Function.comp_def]
  have hcoefficients := lagrangeCoefficients_eq (Scalar.nodup_map_intCast hn hnodup hrange) place
  have hshares : indices.mapM (s.shareMap n : ShareMap K).share =
      .ok (indices.map fun x => .ofScalar (s.value x)) :=
    mapM_eq_ok fun x hx => s.share_shareMap (hrange x hx).1 (hrange x hx).2
  have hinterpolate : interpolate (indices.map fun x => (x, s.value x)) place =
      .ok (s.value place) := by
    refine s.interpolate_value hn ?_ (by simpa using hlength) (by rwa [hfst]) ?_ place
    · rw [Ne, List.map_eq_nil_iff]
      rintro rfl
      rw [List.length_nil] at hlength
      omega
    · intro point hpoint
      obtain ⟨x, hx, rfl⟩ := List.mem_map.1 hpoint
      exact ⟨(hrange x hx).1, (hrange x hx).2, rfl⟩
  have hsum := sum_of_interpolate_eq_ok (by rw [hfst]; exact hcoefficients) hinterpolate
  rw [hcoefficients, ok_bind, hshares, ok_bind, Point.lincomb_eq (by simp), ← hsum]
  simp [Function.comp_def]

namespace CommittedIn

variable {s} {table : CommitmentTable K} (h : s.CommittedIn table)

include h

omit [LawfulSuite K] in
/-- What is asked of the commitment of every dealer. -/
theorem mapM_commitmentOf {β : Type} {f : Commitment K → Except Error β} {g : Int → β}
    (hf : ∀ i ∈ upTo s.dealers, f (.ofCoefficients (s.dealt i)) = .ok (g i)) :
    ((upTo table.dealers).mapM fun i => do f (← table.commitmentOf i)) =
      .ok ((upTo s.dealers).map g) := by
  rw [h.dealers_eq]
  refine mapM_eq_ok fun i hi => ?_
  obtain ⟨h₁, h₂⟩ := mem_upTo.1 hi
  rw [h.commitmentOf_eq h₁ h₂, ok_bind, hf i hi]

/-- The commitments of all dealers, evaluated one by one. -/
theorem sum_evaluations (x : Int) :
    (do return Point.sum (← (upTo table.dealers).mapM fun i => do
      return (← table.commitmentOf i).evaluate x)) = .ok (.ofScalar (s.value x)) := by
  have hevaluate := h.mapM_commitmentOf (f := fun c => .ok (c.evaluate x))
    fun i _ => congrArg Except.ok (evaluateCommitment_commit (s.dealt i) x)
  simp only [pure_eq_ok, hevaluate, ok_bind, Point.sum_map_ofScalar, value]

/-- The constants of all dealers. -/
theorem sum_constants (hthreshold : 1 ≤ s.threshold) :
    (do return Point.sum (← (upTo table.dealers).mapM fun i => do
      (← table.commitmentOf i).constant)) = .ok (.ofScalar (s.value 0)) := by
  have hconstant := h.mapM_commitmentOf (f := Commitment.constant) fun i hi => by
    obtain ⟨h₁, h₂⟩ := mem_upTo.1 hi
    have hlength : 0 < (s.dealt i).length := by rwa [s.length_dealt i h₁ h₂]
    exact Commitment.constant_ofCoefficients hlength
  simp only [pure_eq_ok, hconstant, ok_bind, Point.sum_map_ofScalar, value_zero]

end CommittedIn

end Sharing

/-! ### Tables -/

/-- That a joint commitment, the powers of the indices `1, …, n` and the public shares made from
both agree with the commitments in a table, whichever way a share is computed. -/
structure EvaluationsAgree (table : CommitmentTable K) (n : Int) (joint : JointCommitment K)
    (powerMap : PowerMap) (shareMap : ShareMap K) : Prop where
  share_eq : ∀ x, 1 ≤ x → x ≤ n →
    shareMap.share x = .ok (evaluateCommitment joint.points (Scalar.ofInt x))
  row_eq : ∀ x, 1 ≤ x → x ≤ n →
    (do joint.evaluate (← powerMap.row x)) =
      .ok (evaluateCommitment joint.points (Scalar.ofInt x))
  sum_eq : ∀ x,
    (do return Point.sum (← (upTo table.dealers).mapM fun i => do
      return (← table.commitmentOf i).evaluate x)) =
      .ok (evaluateCommitment joint.points (Scalar.ofInt x))
  groupKey_eq : ∃ key, joint.groupKey = .ok key ∧
    (do return Point.sum (← (upTo table.dealers).mapM fun i => do
      (← table.commitmentOf i).constant)) = .ok key
  recovers : n < groupOrder → ∀ indices : List Int, indices.Nodup →
    table.threshold ≤ indices.length → (∀ x ∈ indices, 1 ≤ x ∧ x ≤ n) →
      (do
        let coefficients ← lagrangeCoefficients indices 0
        Point.lincomb (coefficients.map Prod.snd) (← indices.mapM shareMap.share)) = joint.groupKey

/-- All ways to a public share lead to the same point, for any commitments in a complete table. -/
theorem evaluations_agree [LawfulSuite K] {table : CommitmentTable K} (hbuilt : table.Built)
    (hcomplete : table.isComplete = true) (hthreshold : 1 ≤ table.threshold) (n : Int) :
    ∃ joint powerMap shareMap, JointCommitment.derive table = .ok joint ∧
      PowerMap.derive n table.threshold = .ok powerMap ∧
      ShareMap.derive joint powerMap = .ok shareMap ∧
      EvaluationsAgree table n joint powerMap shareMap := by
  obtain ⟨t, ht⟩ := Int.eq_ofNat_of_zero_le (show 0 ≤ table.threshold by omega)
  have hlength : ∀ i c, table.slots.get? i = some c → c.points.length = t := by
    intro i c hc
    have := (hbuilt.slot hc).2.2
    omega
  obtain ⟨s, hs⟩ := Sharing.exists_committedIn ht (List.isEmpty_iff.1 hcomplete) hlength
  have hs_threshold : 1 ≤ s.threshold := by
    have := hs.threshold_eq
    omega
  have hpowers := PowerMap.derive_eq n s.threshold
  rw [hs.threshold_eq]
  refine ⟨_, _, _, hs.derive_joint, hpowers, s.derive_shareMap hpowers, ?_⟩
  constructor
  · intro x h₁ h₂
    rw [s.share_shareMap h₁ h₂]
    exact congrArg Except.ok (s.evaluateCommitment_joint x).symm
  · intro x h₁ h₂
    rw [PowerMap.row_eq hpowers h₁ h₂, ok_bind, s.evaluate_jointCommitment]
    exact congrArg Except.ok (s.evaluateCommitment_joint x).symm
  · intro x
    rw [hs.sum_evaluations]
    exact congrArg Except.ok (s.evaluateCommitment_joint x).symm
  · exact ⟨_, s.groupKey_jointCommitment hs_threshold, hs.sum_constants hs_threshold⟩
  · intro hn indices hnodup hlength hrange
    rw [s.groupKey_jointCommitment hs_threshold]
    rw [hs.threshold_eq] at hlength
    exact s.lincomb_shareMap hn hs_threshold hnodup (by exact_mod_cast hlength) hrange 0

/-- Two dealers whose constants cancel, so that the group key is the identity. -/
theorem exists_evaluations_agree : ∃ table : CommitmentTable ResidueKey,
    table.Built ∧ table.isComplete = true ∧ 1 ≤ table.threshold ∧
      ∃ joint powerMap shareMap, EvaluationsAgree table 3 joint powerMap shareMap ∧
        (do
          let coefficients ← lagrangeCoefficients [3, 1] 0
          Point.lincomb (coefficients.map Prod.snd) (← [3, 1].mapM shareMap.share)) =
            joint.groupKey := by
  let first : Commitment ResidueKey := .ofCoefficients [5, 2]
  let second : Commitment ResidueKey := .ofCoefficients [-5, 7]
  have hbuilt : CommitmentTable.Built (⟨2, 2, (Mapping.empty.put 1 first).put 2 second⟩ :
      CommitmentTable ResidueKey) :=
    .register 2 second (.register 1 first (.new 2 2 rfl) rfl) rfl
  obtain ⟨joint, powerMap, shareMap, -, -, -, h⟩ := evaluations_agree hbuilt rfl (by decide) 3
  exact ⟨_, hbuilt, rfl, by decide, joint, powerMap, shareMap, h,
    h.recovers (by decide) [3, 1] (by decide) (by decide) (by decide)⟩

end ThresholdKeygen
