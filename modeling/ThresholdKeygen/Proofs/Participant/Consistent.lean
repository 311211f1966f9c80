import ThresholdKeygen.Proofs.Participant.ShareCheck

/-!
# Consistent participants

A participant is consistent with a sharing when it holds the commitments of all dealers and all that
it has computed is what the joint polynomial gives. Each operation on a consistent participant that
has come far enough succeeds and leaves a consistent participant behind.
-/

namespace ThresholdKeygen

variable {K : Type} [Suite K] {σ : Type} [RandomSource σ]

namespace Participant

/-- That all that a participant knows agrees with a sharing, whose commitments it holds. -/
structure Consistent (s : Sharing) (p : Participant K) : Prop where
  committed : s.CommittedIn p.commitments
  gaps_eq : p.gaps.keys = []
  failure_eq : p.failure = none
  powerMap_eq : ∀ m, p.powerMap = some m → PowerMap.derive p.n s.threshold = .ok m
  signingShare_eq : ∀ share, p.signingShare = some share → share = s.value p.position
  joint_eq : ∀ q, p.joint = some q → q = s.jointCommitment
  shareMap_eq : ∀ w, p.shareMap = some w → w = s.shareMap p.n
  publicShares_eq : ∀ i point, p.publicShares.get? i = some point →
    1 ≤ i ∧ i ≤ p.n ∧ point = Point.ofScalar (s.value i)
  groupKey_eq : ∀ point, p.groupKey = some point → point = Point.ofScalar (s.value 0)

/-- The participant with given public maps. -/
def withMaps (p : Participant K) (joint : Option (JointCommitment K))
    (shareMap : Option (ShareMap K)) : Participant K := { p with joint, shareMap }

/-- The participant with the public shares of a sharing at some indices. -/
def withPublicShares (p : Participant K) (s : Sharing) (indices : List Int) : Participant K :=
  { p with publicShares := p.publicShares.putAll (s.publicShares indices) }

theorem get?_withPublicShares (p : Participant K) (s : Sharing) (indices : List Int) (x : Int) :
    (p.withPublicShares s indices).publicShares.get? x =
      if x ∈ indices then some (Point.ofScalar (s.value x)) else p.publicShares.get? x :=
  Mapping.get?_putAll p.publicShares indices (fun x => Point.ofScalar (s.value x)) x

section Conditions

omit [Suite K]

variable {p : Participant K}

theorem requireStage_eq (hfailure : p.failure = none) {stage : Stage} (hstage : stage ≤ p.stage) :
    p.requireStage stage = .ok () := by
  rw [requireStage, hfailure]
  exact if_neg (Nat.not_lt.2 hstage)

theorem checkIndex_eq {index : Int} (h₁ : 1 ≤ index) (h₂ : index ≤ p.n) :
    p.checkIndex index = .ok () := if_pos ⟨h₁, h₂⟩

theorem requirePowerMap_eq {m : PowerMap} (hm : p.powerMap = some m) :
    p.requirePowerMap = .ok m := by
  rw [requirePowerMap, hm]

end Conditions

namespace Consistent

variable {s : Sharing} {p : Participant K} (h : p.Consistent s)

include h

theorem gapsOf_eq (i : Int) : p.gapsOf i = [] := by
  have hnone : p.gaps.get? i = none := by
    rw [← Option.not_isSome_iff_eq_none, ← Mapping.mem_keys_iff, h.gaps_eq]
    simp
  rw [gapsOf, hnone]
  rfl

theorem consistent_advance (stage : Stage) : (p.advance stage).Consistent s := { h with }

/-! ### Shares -/

/-- Afterwards there is a power map. -/
theorem derivePowerMap_eq : ∃ m, p.derivePowerMap = (.ok m, { p with powerMap := some m }) ∧
    PowerMap.derive p.n s.threshold = .ok m := by
  cases hm : p.powerMap with
  | some m =>
    refine ⟨m, ?_, h.powerMap_eq m hm⟩
    rw [derivePowerMap, hm]
    cases p
    cases hm
    rfl
  | none =>
    have hthreshold : p.threshold = s.threshold := h.committed.threshold_eq
    refine ⟨_, ?_, PowerMap.derive_eq p.n s.threshold⟩
    rw [derivePowerMap, hm, hthreshold, PowerMap.derive_eq]
    rfl

theorem consistent_powerMap {m : PowerMap} (hm : PowerMap.derive p.n s.threshold = .ok m) :
    { p with powerMap := some m }.Consistent s :=
  { h with powerMap_eq := by rintro _ ⟨⟩; exact hm }

/-- The shares that all dealers deal to an index pass. -/
theorem allAccepted [LawfulSuite K] {inbox : Inbox} {index : Int} (hinbox : s.DealtTo index inbox) :
    p.AllAccepted (.ofInbox inbox) index := by
  have hdealers : p.dealers = s.dealers := h.committed.dealers_eq
  constructor
  · intro i
    rw [Mapping.mem_keys_iff, Delivery.ofInbox, Mapping.get?_map, hinbox i, hdealers, ← mem_upTo]
    split <;> simp [*]
  · intro i hi
    rw [Mapping.mem_keys_iff, Delivery.ofInbox, Mapping.get?_map, hinbox i] at hi
    split at hi
    · rename_i hdealer
      obtain ⟨h₁, h₂⟩ := mem_upTo.1 hdealer
      refine ⟨(s.dealt i).evaluate index, ?_, ?_, _, h.committed.get?_eq i h₁ h₂, ?_⟩
      · rw [Delivery.ofInbox, Mapping.get?_map, hinbox i, if_pos hdealer]
        rfl
      · exact h.gapsOf_eq i
      · rw [Commitment.verifyShare_iff, Commitment.logs_ofCoefficients]
    · simp at hi

theorem succeeds_checkShares [LawfulSuite K] {m : PowerMap} (hm : p.powerMap = some m)
    {inbox : Inbox} {index : Int} (hinbox : s.DealtTo index inbox) (h₁ : 1 ≤ index)
    (h₂ : index ≤ p.n) :
    Succeeds (p.checkShares (.ofInbox inbox) index : ExceptT Error (StateM σ) Unit)
      fun _ => True := by
  have hcheck := always_checkShares (σ := σ) h.committed (fun _ => h.gaps_eq) hm
    (h.powerMap_eq m hm) h₁ h₂ (.ofInbox inbox)
  exact hcheck.mono fun outcome houtcome =>
    ⟨(), houtcome.of_accepted (h.allAccepted hinbox), trivial⟩

/-- A participant verifies its inbox. -/
theorem always_verifyShares [LawfulSuite K] {m : PowerMap} (hm : p.powerMap = some m)
    (hstage : .sharesDistributed ≤ p.stage)
    (hinbox : s.DealtTo p.position p.sharesIn) (h₁ : 1 ≤ p.position) (h₂ : p.position ≤ p.n) :
    Always (p.verifyShares none none : StateM σ _) fun answer =>
      answer = (.ok (), p.advance .sharesVerified) := by
  have hcomplete : p.requireCommitments = .ok () := by
    rw [requireCommitments, h.committed.missing_eq]
    rfl
  have hcheck := h.succeeds_checkShares (σ := σ) hm hinbox h₁ h₂
  rw [verifyShares]
  simp only [Option.getD_none, checkDealtShares, requirePowerMap_eq hm, hcomplete,
    requireStage_eq h.failure_eq hstage]
  refine .bind (Always.mono hcheck ?_)
  rintro _ ⟨_, rfl, -⟩
  exact .pure rfl

/-- With the shares of all dealers, the sum is the value of the joint polynomial. -/
theorem computeSigningShare_eq (hstage : .sharesVerified ≤ p.stage)
    (hinbox : s.DealtTo p.position p.sharesIn) :
    p.computeSigningShare = (.ok (s.value p.position),
      { p with signingShare := some (s.value p.position) }.advance .signingShareComputed) := by
  have hmissing : ((upTo p.dealers).filter fun i => (p.sharesIn.get? i).isNone) = [] := by
    apply List.filter_eq_nil_iff.2
    intro i hi
    rw [hinbox i, if_pos (by rwa [dealers, h.committed.dealers_eq] at hi)]
    simp
  rw [computeSigningShare, requireStage_eq h.failure_eq hstage, ok_bind]
  simp only [hmissing, hinbox.sum_values]
  rfl

theorem consistent_signingShare :
    { p with signingShare := some (s.value p.position) }.Consistent s :=
  { h with signingShare_eq := by rintro _ ⟨⟩; rfl }

/-! ### Public shares -/

variable [LawfulSuite K]

/-- Public shares of the joint polynomial contradict none that a consistent participant has. -/
theorem storePublicShares_eq (indices : List Int) : p.storePublicShares (s.publicShares indices) =
    .ok (p.withPublicShares s indices) := by
  have hconflicts : p.conflicts (s.publicShares indices) = [] := by
    rw [conflicts, List.map_eq_nil_iff, List.filter_eq_nil_iff]
    intro entry hentry
    obtain ⟨x, _, rfl⟩ := List.mem_map.1 hentry
    dsimp only
    cases hstored : p.publicShares.get? x with
    | none => simp
    | some stored => simp [(h.publicShares_eq x stored hstored).2.2]
  rw [storePublicShares, hconflicts]
  rfl

omit [LawfulSuite K] in
theorem consistent_publicShares {indices : List Int} (hindices : ∀ x ∈ indices, 1 ≤ x ∧ x ≤ p.n) :
    (p.withPublicShares s indices).Consistent s := by
  refine { h with publicShares_eq := fun i point hpoint => ?_ }
  rw [get?_withPublicShares] at hpoint
  split at hpoint
  · obtain ⟨h₁, h₂⟩ := hindices i ‹_›
    exact ⟨h₁, h₂, (Option.some.inj hpoint).symm⟩
  · exact h.publicShares_eq i point hpoint

/-- The image of a signing share is published without conflict. -/
theorem publishOwnShare_eq (hstage : .signingShareComputed ≤ p.stage)
    {signingShare : Option Scalar} {index : Option Int} {x : Int} (hx : index.getD p.position = x)
    (h₁ : 1 ≤ x) (h₂ : x ≤ p.n) (hshare : signingShare.or p.signingShare = some (s.value x)) :
    p.publishOwnShare signingShare index =
      (.ok (Point.ofScalar (s.value x)), p.withPublicShares s [x]) := by
  have hstore : p.storePublicShares [(x, Point.ofScalar (s.value x))] = _ :=
    h.storePublicShares_eq [x]
  rw [publishOwnShare, requireStage_eq h.failure_eq hstage, ok_bind, hx]
  simp only [checkIndex_eq h₁ h₂, hshare, hstore, ok_bind]
  rfl

/-- A public map gives the public shares of the joint polynomial. -/
theorem externalShare_eq {m : PowerMap} (hm : p.powerMap = some m)
    (hmaps : p.shareMap.isSome ∨ p.joint.isSome) {x : Int} (h₁ : 1 ≤ x) (h₂ : x ≤ p.n) :
    p.externalShare x = .ok (Point.ofScalar (s.value x)) := by
  rw [externalShare]
  cases hshares : p.shareMap with
  | some w =>
    rw [h.shareMap_eq w hshares]
    exact s.share_shareMap h₁ h₂
  | none =>
    cases hjoint : p.joint with
    | some q =>
      rw [h.joint_eq q hjoint]
      simp only
      rw [requirePowerMap_eq hm, ok_bind, PowerMap.row_eq (h.powerMap_eq m hm) h₁ h₂, ok_bind]
      exact s.evaluate_jointCommitment x
    | none => simp [hshares, hjoint] at hmaps

/-- The public shares of all indices but some, from a public map, contradict none that are
stored. -/
theorem publishShares_eq (hstage : .signingShareComputed ≤ p.stage) {m : PowerMap}
    (hm : p.powerMap = some m) (hmaps : p.shareMap.isSome ∨ p.joint.isSome) {excluded : List Int}
    {indices : List Int} (hindices : (upTo p.n).filter (· ∉ excluded) = indices) :
    p.publishShares excluded = (.ok (s.publicShares indices),
      (p.withPublicShares s indices).advance .publicSharesComputed) := by
  have hcomputed : (indices.mapM fun x => do
      return (x, ← p.externalShare x) : Except Error (List (Int × Point K))) =
      .ok (s.publicShares indices) := by
    apply mapM_eq_ok
    intro x hx
    rw [← hindices] at hx
    obtain ⟨h₁, h₂⟩ := mem_upTo.1 (List.mem_filter.1 hx).1
    rw [h.externalShare_eq hm hmaps h₁ h₂]
    rfl
  have hsome : (p.shareMap.isNone && p.joint.isNone) = false := by
    rcases hmaps with hmap | hmap <;> simp [← Option.not_isSome, hmap]
  rw [publishShares, requireStage_eq h.failure_eq hstage, ok_bind, hsome]
  simp only [hindices, hcomputed, h.storePublicShares_eq, ok_bind, Bool.false_eq_true, if_false]
  rfl

/-! ### Public maps -/

theorem sumCommitments_eq : p.sumCommitments = .ok s.jointCommitment := by
  rw [sumCommitments, h.committed.derive_joint, ok_bind, h.gaps_eq]
  rfl

theorem deriveJoint_eq (hstage : .commitmentsExchanged ≤ p.stage) {bytes : Bytes}
    (hbytes : (s.jointCommitment : JointCommitment K).toBytes = .ok bytes) :
    p.deriveJoint = (.ok s.jointCommitment, { p with joint := some s.jointCommitment }) := by
  rw [deriveJoint, requireStage_eq h.failure_eq hstage, ok_bind, h.sumCommitments_eq]
  simp only [logged, attempt, ok_bind, pure_eq_ok, JointCommitment.fingerprint, hbytes, map_ok]

omit [LawfulSuite K] in
theorem consistent_joint : { p with joint := some s.jointCommitment }.Consistent s :=
  { h with joint_eq := by rintro _ ⟨⟩; rfl }

theorem deriveShareMap_eq (hstage : .commitmentsExchanged ≤ p.stage) {m : PowerMap}
    (hm : p.powerMap = some m) (hjoint : p.joint.isSome) {bytes : Bytes}
    (hbytes : (s.shareMap p.n : ShareMap K).toBytes = .ok bytes) :
    p.deriveShareMap = (.ok (s.shareMap p.n), { p with shareMap := some (s.shareMap p.n) }) := by
  obtain ⟨q, hq⟩ := Option.isSome_iff_exists.1 hjoint
  have hderive := s.derive_shareMap (K := K) (h.powerMap_eq m hm)
  rw [deriveShareMap, requireStage_eq h.failure_eq hstage, ok_bind, hq, h.joint_eq q hq]
  simp only [requirePowerMap_eq hm, hderive, logged, attempt, ok_bind, pure_eq_ok,
    ShareMap.fingerprint, hbytes, map_ok]

omit [LawfulSuite K] in
theorem consistent_shareMap : { p with shareMap := some (s.shareMap p.n) }.Consistent s :=
  { h with shareMap_eq := by rintro _ ⟨⟩; rfl }

/-- The joint commitment is imported from a snapshot, with or without a derivation of its own. -/
theorem importJoint_eq (hstage : .commitmentsExchanged ≤ p.stage) (hthreshold : 1 ≤ s.threshold)
    {bytes : Bytes} (hbytes : (s.jointCommitment : JointCommitment K).toBytes = .ok bytes)
    (recompute : Bool) : p.importJoint bytes recompute =
      (.ok s.jointCommitment, { p with joint := some s.jointCommitment }) := by
  have hlength : (s.jointCommitment : JointCommitment K).points.length = s.threshold :=
    s.threshold_jointCommitment
  have hread := JointCommitment.ofBytes?_toBytes hbytes (List.ne_nil_of_length_pos (by omega))
  have hsize : ((s.jointCommitment : JointCommitment K).threshold : Int) = p.threshold := by
    rw [Sharing.threshold_jointCommitment]
    exact h.committed.threshold_eq.symm
  rw [importJoint, requireStage_eq h.failure_eq hstage, ok_bind, hread, ok_bind]
  simp only [hsize, h.sumCommitments_eq, ok_bind, bne_self_eq_false, ne_eq, not_true, if_false,
    Bool.false_eq_true, ite_self]
  rfl

/-- The public shares are imported from a snapshot, with or without a derivation of its own. -/
theorem importShareMap_eq (hstage : .commitmentsExchanged ≤ p.stage) (hn : 0 ≤ p.n)
    {bytes : Bytes} (hbytes : (s.shareMap p.n : ShareMap K).toBytes = .ok bytes) {m : PowerMap}
    (hm : p.powerMap = some m) (recompute : Bool) : p.importShareMap bytes recompute =
      (.ok (s.shareMap p.n), { p with shareMap := some (s.shareMap p.n) }) := by
  have hread := ShareMap.ofBytes?_toBytes hbytes
  have hsize : ((s.shareMap p.n : ShareMap K).size : Int) = p.n := by
    simp [ShareMap.size, Sharing.shareMap, hn]
  have hderive := s.derive_shareMap (K := K) (h.powerMap_eq m hm)
  rw [importShareMap, requireStage_eq h.failure_eq hstage, ok_bind, hread, ok_bind]
  cases hjoint : p.joint with
  | some q =>
    simp only [hsize, h.joint_eq q hjoint, requirePowerMap_eq hm, hderive, pure_eq_ok, ok_bind,
      bne_self_eq_false, ne_eq, not_true, if_false, Bool.false_eq_true, ite_self]
    rfl
  | none =>
    simp only [hsize, h.sumCommitments_eq, requirePowerMap_eq hm, hderive, ok_bind,
      bne_self_eq_false, ne_eq, not_true, if_false, Bool.false_eq_true, ite_self]
    rfl

/-! ### The group key -/

theorem sumConstants_eq (hthreshold : 1 ≤ s.threshold) :
    p.sumConstants = .ok (Point.ofScalar (s.value 0)) := by
  have hvalues : p.gaps.values = [] := by
    have hentries : p.gaps.entries = [] := List.map_eq_nil_iff.1 h.gaps_eq
    rw [Mapping.values, hentries, List.map_nil]
  have hsum : Point.sum ((upTo s.dealers).map fun i =>
      (Point.ofScalar ((s.dealt i).headD 0) : Point K)) = Point.ofScalar (s.value 0) := by
    rw [Point.sum_map_ofScalar, s.value_zero]
  rw [sumConstants, h.committed.constants_eq hthreshold, ok_bind, hvalues]
  exact congrArg Except.ok hsum

/-- The group key is the image of the joint constant term. -/
theorem deriveGroupKey_eq (hstage : .publicSharesComputed ≤ p.stage)
    (hthreshold : 1 ≤ s.threshold) :
    p.deriveGroupKey = (.ok (Point.ofScalar (s.value 0)),
      { p with groupKey := some (Point.ofScalar (s.value 0)) }.advance .groupKeyDerived) := by
  have hcomplete : p.requireCommitments = .ok () := by
    rw [requireCommitments, h.committed.missing_eq]
    rfl
  rw [deriveGroupKey, requireStage_eq h.failure_eq hstage, ok_bind, hcomplete, ok_bind]
  cases hkey : p.groupKey with
  | some key =>
    rw [h.groupKey_eq key hkey]
    rfl
  | none =>
    simp only [h.sumConstants_eq hthreshold, ok_bind]
    rfl

end Consistent

end Participant

end ThresholdKeygen
