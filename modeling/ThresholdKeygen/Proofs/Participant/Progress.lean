import ThresholdKeygen.Proofs.Participant.Consistent
import ThresholdKeygen.Proofs.Participant.Persistence

/-!
# What stages say

The stage of a participant says what it has, as long as nobody sets the stage by hand. Main
statement: `Unforced.truthful`. What carries the induction is `Grounded`: beside the stage itself,
that the inbox holds shares of dealers only, and that no commitment lacks points once shares have
been verified.
-/

namespace ThresholdKeygen

variable {K : Type} [Suite K] {σ : Type} [RandomSource σ]

namespace Stage

/-- Moving to the next stage, or to one already reached, reaches no other. -/
theorem le_later_iff {s t u : Stage} (h : t.rank ≤ s.rank + 1) :
    u ≤ s.later t ↔ u ≤ s ∨ u = t := by
  cases s <;> cases t <;> cases u <;> revert h <;> decide

/-- That what there is to show for a stage is not there before. -/
def Marked : Stage → Prop
  | sharesVerified | publicSharesComputed => False
  | _ => True

end Stage

namespace Participant

/-! ### Unforced participants -/

/-- That an operation does not set the stage by hand. -/
def Operation.Unforced : Operation K → Prop
  | .advance _ => False
  | _ => True

/-- One operation that does not set the stage by hand, whatever it draws and whether it refuses or
not. -/
inductive UnforcedStep : Participant K → Participant K → Prop where
  | perform {σ : Type} [RandomSource σ] (source : σ) (operation : Operation K)
      (hunforced : operation.Unforced) (p : Participant K) :
      UnforcedStep p ((operation.perform p).run source).1

theorem UnforcedStep.step {p p' : Participant K} (h : UnforcedStep p p') : Step p p' := by
  obtain ⟨source, operation, -⟩ := h
  exact .perform source operation p

/-- The participants to which operations lead of which none sets the stage by hand. -/
inductive Unforced : Participant K → Prop where
  | created {σ : Type} [RandomSource σ] (source : σ) (n threshold position : Int)
      (dealers : Option Int) (context : Item K) (p : Participant K)
      (h : ((create n threshold position dealers context).run.run source).1 = .ok p) : Unforced p
  | performed {p p' : Participant K} (h : Unforced p) (hstep : UnforcedStep p p') : Unforced p'

/-! ### What the stage of a participant says -/

/-- That a participant has what its stage says, and what it has is right. -/
structure Truthful (p : Participant K) : Prop where
  exchanged_iff : .commitmentsExchanged ≤ p.stage ↔ p.commitments.isComplete = true
  commitment_eq : p.commitment = .ok (.ofCoefficients p.polynomial)
  gapsOf_eq : p.gapsOf p.position = []
  distributed_iff : .sharesDistributed ≤ p.stage ↔
    ∀ x, 1 ≤ x → x ≤ p.n → (p.sharesOut.get? x).isSome
  shareFor_eq : .sharesDistributed ≤ p.stage → ∀ x, 1 ≤ x → x ≤ p.n → ∃ share,
    p.shareFor x = .ok share ∧ share = p.polynomial.evaluate (Scalar.ofInt x) ∧
      (Commitment.ofCoefficients p.polynomial : Commitment K).verifyShare share x = true
  signed_iff : .signingShareComputed ≤ p.stage ↔ p.signingShare.isSome
  signingShare_eq : ∀ share, p.signingShare = some share → ∃ received : Int → Scalar,
    (∀ i, 1 ≤ i → i ≤ p.dealers → p.sharesIn.get? i = some (received i)) ∧
      share = ((upTo p.dealers).map received).sum
  keyed_iff : p.groupKey.isSome ↔ p.stage = .groupKeyDerived
  groupKey_eq : ∀ key, p.groupKey = some key → ∃ joint, p.sumCommitments = .ok joint ∧
    joint.groupKey = .ok key

/-- What a participant has to show for a stage. -/
def Shows (p : Participant K) : Stage → Prop
  | .created => True
  | .commitmentsExchanged => p.commitments.isComplete = true
  | .sharesDistributed => ∀ x, 1 ≤ x → x ≤ p.n → (p.sharesOut.get? x).isSome
  | .sharesVerified => p.gaps.keys = []
  | .signingShareComputed => p.signingShare.isSome
  | .publicSharesComputed => True
  | .groupKeyDerived => p.groupKey.isSome

/-- What every operation keeps that does not set the stage by hand. -/
structure Grounded (p : Participant K) : Prop extends Settled p where
  one_le_position : 1 ≤ p.position
  position_le : p.position ≤ p.dealers
  shows : ∀ stage : Stage, stage ≤ p.stage → p.Shows stage
  reached : ∀ stage : Stage, stage.Marked → p.Shows stage → stage ≤ p.stage
  own_eq : p.commitments.slots.get? p.position = some (.ofCoefficients p.polynomial)
  gapsOf_eq : p.gapsOf p.position = []
  sender_mem : ∀ i share, p.sharesIn.get? i = some share → 1 ≤ i ∧ i ≤ p.dealers
  filled : ∀ share, p.signingShare = some share →
    ∀ i, 1 ≤ i → i ≤ p.dealers → (p.sharesIn.get? i).isSome
  groupKey_eq : ∀ key, p.groupKey = some key → p.sumConstants = .ok key

/-! ### Creation -/

theorem Fresh.grounded {p : Participant K} (h : p.Fresh)
    (hposition : 1 ≤ p.position ∧ p.position ≤ p.dealers) : p.Grounded := by
  have hsettled := h.settled
  obtain ⟨hone, hle, -, -⟩ := h
  rename_i n dealers position threshold context polynomial
  refine {
    toSettled := hsettled
    one_le_position := hposition.1
    position_le := hposition.2
    shows := fun stage hstage => ?_
    reached := fun stage hmarked hshows => ?_
    own_eq := by simp [newcomer]
    gapsOf_eq := rfl
    sender_mem := by rintro i share ⟨⟩
    filled := by rintro share ⟨⟩
    groupKey_eq := by rintro key ⟨⟩ }
  · have hearly := Stage.le_trans hstage (stage_newcomer_le _ _ _ _ _ _)
    cases stage with
    | created => exact trivial
    | commitmentsExchanged =>
      rw [newcomer] at hstage
      dsimp only at hstage
      split at hstage
      · assumption
      · exact absurd hstage (by decide)
    | _ => exact absurd hearly (by decide)
  · cases stage with
    | created => exact Nat.zero_le _
    | commitmentsExchanged =>
      rw [newcomer]
      dsimp only
      split
      · exact Nat.le_refl _
      · exact absurd hshows ‹_›
    | sharesDistributed => cases hshows 1 le_rfl (show 1 ≤ n by omega)
    | sharesVerified | publicSharesComputed => exact hmarked.elim
    | signingShareComputed | groupKeyDerived => cases hshows

/-! ### Steps -/

section Parts

omit [Suite K]

/-- Only shares of dealers are stored. -/
theorem sender_storeShares (p : Participant K) (entries : List (Int × Option Scalar)) {i : Int}
    {share : Scalar} (h : (p.storeShares entries).2.sharesIn.get? i = some share) :
    1 ≤ i ∧ i ≤ p.dealers ∨ p.sharesIn.get? i = some share := by
  induction entries generalizing p with
  | nil => exact .inr h
  | cons entry entries ih =>
    obtain ⟨sender, choice⟩ := entry
    rw [storeShares] at h
    split at h
    · rename_i hsender
      obtain hdealer | hstored := ih { p with sharesIn := p.sharesIn.assign sender choice } h
      · exact .inl hdealer
      · rw [Mapping.get?_assign] at hstored
        split at hstored
        · subst_vars
          exact .inl hsender
        · exact .inr hstored
    · exact .inr h

theorem isSome_get?_dealt (p : Participant K) (x : Int) (h₁ : 1 ≤ x) (h₂ : x ≤ p.n) :
    ((p.sharesOut.putAll p.dealtShares).get? x).isSome := by
  rw [get?_dealt, if_pos (mem_upTo.2 ⟨h₁, h₂⟩)]
  rfl

theorem le_caughtUp_iff (p : Participant K) (stage : Stage) : stage ≤ p.caughtUp.stage ↔
    stage ≤ p.stage ∨ stage = .commitmentsExchanged ∧ p.commitments.isComplete = true := by
  rw [caughtUp]
  split
  · rw [advance, Stage.le_later_iff (Nat.le_add_left 1 _), and_iff_left ‹_›]
  · simp [*]

end Parts

omit [Suite K] in
theorem delivers_requireWhole (p : Participant K) (shares : Nat) :
    Delivers (p.requireWhole shares : ExceptT Error (StateM σ) Unit) fun _ =>
      p.gaps.keys = [] := by
  rw [requireWhole]
  split
  · exact .bind (.any fun _ _ => .error)
  · rename_i hwhole
    exact .pure (by simpa using hwhole)

theorem delivers_checkShares (p : Participant K) (delivery : Delivery) (index : Int) :
    Delivers (p.checkShares delivery index : ExceptT Error (StateM σ) Unit) fun _ =>
      p.gaps.keys = [] := by
  rw [checkShares]
  refine .bind (.any fun _ => .bind (.any fun _ => .bind (.any fun _ => ?_)))
  dsimp only
  split
  · exact .refused
  refine .bind (.any fun _ => .bind (.any fun _ => .bind ?_))
  exact Always.mono (p.delivers_requireWhole _) fun _ hwhole _ hpassed =>
    .any fun _ => hwhole _ hpassed

/-- A participant verifies shares only after it has dealt its own, before it fails, and against
commitments that lack no points. -/
theorem of_checkOutcome_eq_ok {source : σ} {p : Participant K} {delivery : Option Delivery}
    {index : Option Int} (h : checkOutcome source p delivery index = .ok ()) :
    p.requireStage .sharesDistributed = .ok () ∧ p.gaps.keys = [] := by
  have hchecked : Delivers (p.checkDealtShares (delivery.getD (.ofInbox p.sharesIn))
      (index.getD p.position) : ExceptT Error (StateM σ) Unit) fun _ =>
        p.requireStage .sharesDistributed = .ok () ∧ p.gaps.keys = [] := by
    refine .bind (.any fun _ => .bind (.any fun _ => .bind (.steady fun _ hstage => ?_)))
    exact Always.mono (p.delivers_checkShares _ _) fun _ hwhole _ hpassed =>
      ⟨hstage, hwhole _ hpassed⟩
  exact hchecked source () h

/-- The participant with other commitments. -/
def withTable (p : Participant K) (slots : Mapping Int (Commitment K))
    (gaps : Mapping Int (List Nat)) : Participant K :=
  { p with commitments := { p.commitments with slots }, gaps }

namespace Grounded

variable {p p' : Participant K} {source : σ} {operation : Operation K}

theorem caughtUp_eq (h : p.Grounded) : p.caughtUp = p := by
  rw [caughtUp]
  split
  · rename_i hcomplete
    rw [advance, Stage.later_eq_left (h.reached .commitmentsExchanged trivial hcomplete)]
  · rfl

/-- Other commitments and gaps than the own ones change nothing but the stage, as long as
commitments are missing. -/
theorem caughtUp_withTable (h : p.Grounded) (hearly : ¬ .commitmentsExchanged ≤ p.stage)
    {slots : Mapping Int (Commitment K)} {gaps : Mapping Int (List Nat)}
    (hslots : slots.get? p.position = p.commitments.slots.get? p.position)
    (hgaps : gaps.get? p.position = p.gaps.get? p.position)
    (hsettled : (p.withTable slots gaps).caughtUp.Settled) :
    (p.withTable slots gaps).caughtUp.Grounded := by
  obtain ⟨stage, heq, -⟩ := exists_caughtUp (p.withTable slots gaps)
  have hiff := le_caughtUp_iff (p.withTable slots gaps)
  rw [heq] at hiff hsettled ⊢
  refine { h with
    toSettled := hsettled
    shows := fun u hu => ?_
    reached := fun u hmarked hu => (hiff u).2 ?_
    own_eq := hslots.trans h.own_eq
    gapsOf_eq := by
      rw [← h.gapsOf_eq, gapsOf, gapsOf, ← hgaps]
      rfl
    groupKey_eq := fun key hkey => ?_ }
  · obtain hu | ⟨rfl, hcomplete⟩ := (hiff u).1 hu
    · have hshows := h.shows u hu
      cases u with
      | created => exact hshows
      | _ => exact absurd (Stage.le_trans (by decide) hu) hearly
    · exact hcomplete
  · cases u with
    | commitmentsExchanged => exact .inr ⟨rfl, hu⟩
    | sharesVerified | publicSharesComputed => exact hmarked.elim
    | created | sharesDistributed | signingShareComputed | groupKeyDerived =>
      exact .inl (h.reached _ hmarked hu)
  · have hlate := h.reached .groupKeyDerived trivial (Option.isSome_of_eq_some hkey)
    exact absurd (Stage.le_trans (by decide) hlate) hearly

/-- Moving to the next stage with what there is to show for it. -/
theorem advance (h : p.Grounded) (q : Participant K) (stage : Stage) {guard : Stage}
    (hguard : guard ≤ p.stage) (hnext : stage.rank = guard.rank + 1)
    (hstage : q.stage = p.stage.later stage)
    (hsame : ∀ u, u ≠ stage → (q.Shows u ↔ p.Shows u)) (hshows : q.Shows stage) :
    (∀ u : Stage, u ≤ q.stage → q.Shows u) ∧
      ∀ u : Stage, u.Marked → q.Shows u → u ≤ q.stage := by
  have hrank : stage.rank ≤ p.stage.rank + 1 := hnext ▸ Nat.succ_le_succ hguard
  rw [hstage]
  refine ⟨fun u hu => ?_, fun u hmarked hu => ?_⟩ <;> by_cases hne : u = stage
  · exact hne ▸ hshows
  · exact (hsame u hne).2 (h.shows u (((Stage.le_later_iff hrank).1 hu).resolve_right hne))
  · exact hne ▸ Stage.le_later_right _ _
  · exact Stage.le_trans (h.reached u hmarked ((hsame u hne).1 hu)) (Stage.le_later_left _ _)

/-- Every rule that does not set the stage by hand keeps a participant grounded. -/
theorem change (h : p.Grounded) (hchange : Change source operation p p')
    (hunforced : operation.Unforced) : p'.Grounded := by
  have hsettled := h.toSettled.change hchange
  cases hchange with
  | repeated => exact h.caughtUp_eq.symm ▸ h
  | @registered _ sender publication gaps hsender _ hnone hgaps =>
    have hne : p.position ≠ sender := by
      rintro rfl
      rw [h.own_eq] at hnone
      cases hnone
    refine h.caughtUp_withTable (fun hstage => ?_) ?_ ?_ hsettled
    · have hcomplete := List.isEmpty_iff.1 (h.shows _ hstage)
      rw [CommitmentTable.missing, List.filter_eq_nil_iff] at hcomplete
      exact hcomplete sender (mem_upTo.2 hsender) (by rw [hnone]; rfl)
    · rw [Mapping.get?_put, if_neg hne]
    · obtain ⟨-, rfl⟩ | ⟨-, rfl⟩ := hgaps
      · rfl
      · rw [Mapping.get?_put, if_neg hne]
  | dealt hrequire =>
    obtain ⟨hshows, hreached⟩ := h.advance
      ({ p with sharesOut := p.sharesOut.putAll p.dealtShares }.advance .sharesDistributed)
      .sharesDistributed (of_requireStage_eq_ok hrequire).2 rfl rfl
      (fun u hu => by cases u <;> first | rfl | exact absurd rfl hu) (by exact p.isSome_get?_dealt)
    exact { h with toSettled := hsettled, shows := hshows, reached := hreached }
  | @received _ delivery inbox hopen hstored =>
    refine { h with
      toSettled := hsettled
      sender_mem := fun i share hshare => ?_
      filled := fun share hsigned => ?_ }
    · have hshare' : (p.storeShares delivery.entries).2.sharesIn.get? i = some share := by
        rw [hstored]
        exact hshare
      exact (p.sender_storeShares _ hshare').elim id (h.sender_mem i share)
    · exact absurd (h.signingShare_eq share hsigned).1 hopen
  | verified hchecked =>
    obtain ⟨hrequire, hwhole⟩ := of_checkOutcome_eq_ok hchecked
    obtain ⟨hshows, hreached⟩ := h.advance (p.advance .sharesVerified) .sharesVerified
      (of_requireStage_eq_ok hrequire).2 rfl rfl (fun u _ => by cases u <;> rfl) hwhole
    exact { h with toSettled := hsettled, shows := hshows, reached := hreached }
  | signed hrequire hall =>
    obtain ⟨hshows, hreached⟩ := h.advance
      ({ p with signingShare := some (Scalar.sum p.sharesIn.values) }.advance .signingShareComputed)
      .signingShareComputed (of_requireStage_eq_ok hrequire).2 rfl rfl
      (fun u hu => by cases u <;> first | rfl | exact absurd rfl hu) (by exact rfl)
    exact { h with
      toSettled := hsettled, shows := hshows, reached := hreached, filled := fun _ _ => hall }
  | @published _ _ shares hrequire =>
    obtain ⟨hshows, hreached⟩ := h.advance
      ({ p with publicShares := p.publicShares.putAll shares }.advance .publicSharesComputed)
      .publicSharesComputed (of_requireStage_eq_ok hrequire).2 rfl rfl
      (fun u _ => by cases u <;> rfl) trivial
    exact { h with toSettled := hsettled, shows := hshows, reached := hreached }
  | @keyed _ key hrequire hkey =>
    obtain ⟨hshows, hreached⟩ := h.advance
      ({ p with groupKey := some key }.advance .groupKeyDerived) .groupKeyDerived
      (of_requireStage_eq_ok hrequire).2 rfl rfl
      (fun u hu => by cases u <;> first | rfl | exact absurd rfl hu) (by exact rfl)
    refine { h with
      toSettled := hsettled, shows := hshows, reached := hreached, groupKey_eq := ?_ }
    rintro _ ⟨⟩
    exact hkey.elim (h.groupKey_eq key) And.right
  | advanced => exact hunforced.elim
  | unchanged => exact h
  | failed | preparedPowers | derivedJoint | derivedShareMap | importedJoint | importedShareMap
  | publishedOwn | aborted =>
    exact { h with
      toSettled := hsettled
      shows := fun u hu => by have hshows := h.shows u hu; cases u <;> exact hshows
      reached := fun u hmarked hu => h.reached u hmarked (by cases u <;> exact hu) }

/-- Constants that add up to a key are those of the joint commitment. -/
theorem exists_sumCommitments [LawfulSuite K] (h : p.Grounded)
    (hstage : .sharesVerified ≤ p.stage) {key : Point K} (hkey : p.sumConstants = .ok key) :
    ∃ joint, p.sumCommitments = .ok joint ∧ joint.groupKey = .ok key := by
  have hcomplete := List.isEmpty_iff.1
    (h.shows .commitmentsExchanged (Stage.le_trans (by decide) hstage))
  obtain ⟨s, hs⟩ := h.toSound.exists_committedIn hcomplete
  have hthreshold : 1 ≤ s.threshold := by
    have hone := h.one_le_threshold
    rw [threshold, hs.threshold_eq] at hone
    omega
  -- Commitments and gaps are all that the two sums depend on.
  have hbare : Consistent s { p with
      failure := none, powerMap := none, signingShare := none, joint := none, shareMap := none,
      publicShares := .empty, groupKey := none } :=
    { committed := hs
      gaps_eq := h.shows .sharesVerified hstage
      failure_eq := rfl
      powerMap_eq := by rintro m ⟨⟩
      signingShare_eq := by rintro share ⟨⟩
      joint_eq := by rintro q ⟨⟩
      shareMap_eq := by rintro w ⟨⟩
      publicShares_eq := by rintro i point ⟨⟩
      groupKey_eq := by rintro point ⟨⟩ }
  obtain rfl := Except.ok.inj (hkey.symm.trans (hbare.sumConstants_eq hthreshold))
  refine ⟨s.jointCommitment, hbare.sumCommitments_eq, ?_⟩
  have hconstant : (Commitment.ofCoefficients s.joint : Commitment K).constant =
      .ok (.ofScalar (s.joint.headD 0)) :=
    Commitment.constant_ofCoefficients (by rwa [s.length_joint])
  rwa [← Coefficients.evaluate_zero, ← Int.cast_zero, s.evaluate_joint] at hconstant

end Grounded

/-- What a grounded participant says of itself is true. -/
theorem truthful_of_grounded [LawfulSuite K] {p : Participant K} (h : p.Grounded) :
    p.Truthful where
  exchanged_iff := ⟨h.shows _, h.reached .commitmentsExchanged trivial⟩
  commitment_eq := by
    rw [commitment, CommitmentTable.commitmentOf, CommitmentTable.get, CommitmentTable.checkSender,
      if_pos ⟨h.one_le_position, h.position_le⟩, ok_bind, h.own_eq]
    rfl
  gapsOf_eq := h.gapsOf_eq
  distributed_iff := ⟨h.shows _, h.reached .sharesDistributed trivial⟩
  shareFor_eq := by
    intro hstage x h₁ h₂
    obtain ⟨share, hshare⟩ := Option.isSome_iff_exists.1 (h.shows _ hstage x h₁ h₂)
    refine ⟨share, ?_, h.shareOut_eq x share hshare, ?_⟩
    · rw [shareFor, checkIndex_eq h₁ h₂, ok_bind, hshare]
      rfl
    · rw [Commitment.verifyShare_iff, Commitment.logs_ofCoefficients, h.shareOut_eq x share hshare]
      rfl
  signed_iff := ⟨h.shows _, h.reached .signingShareComputed trivial⟩
  signingShare_eq := by
    intro share hshare
    have hinbox : ∀ i, p.sharesIn.get? i =
        if i ∈ upTo p.dealers then some ((p.sharesIn.get? i).getD 0) else none := by
      intro i
      split
      · obtain ⟨h₁, h₂⟩ := mem_upTo.1 ‹_›
        obtain ⟨received, hreceived⟩ :=
          Option.isSome_iff_exists.1 (h.filled share hshare i h₁ h₂)
        rw [hreceived]
        rfl
      · rename_i hi
        refine Option.eq_none_iff_forall_ne_some.2 fun received hreceived => hi ?_
        exact mem_upTo.2 (h.sender_mem i received hreceived)
    refine ⟨fun i => (p.sharesIn.get? i).getD 0, fun i h₁ h₂ => ?_, ?_⟩
    · exact (hinbox i).trans (if_pos (mem_upTo.2 ⟨h₁, h₂⟩))
    · rw [(h.signingShare_eq share hshare).2, Scalar.sum_eq,
        (Mapping.values_perm (nodup_upTo _) hinbox).sum_eq]
  keyed_iff := by
    refine ⟨fun hkey => Stage.le_antisymm (Stage.le_groupKeyDerived _) ?_, fun hstage => ?_⟩
    · exact h.reached .groupKeyDerived trivial hkey
    · exact h.shows .groupKeyDerived (hstage ▸ Nat.le_refl _)
  groupKey_eq := by
    intro key hkey
    have hstage := h.reached .groupKeyDerived trivial (Option.isSome_of_eq_some hkey)
    exact h.exists_sumCommitments (Stage.le_trans (by decide) hstage) (h.groupKey_eq key hkey)

/-! ### Runs -/

namespace Unforced

theorem grounded {p : Participant K} (h : p.Unforced) : p.Grounded := by
  induction h with
  | created source n threshold position dealers context p h =>
    exact (fresh_create n threshold position dealers context source p h).grounded
      (position_create n threshold position dealers context source p h)
  | performed _ hstep ih =>
    obtain ⟨source, operation, hunforced⟩ := hstep
    exact ih.change (change_perform source _ operation) hunforced

/-- The stage of a participant says what it has, whatever operations it has gone through of which
none sets the stage by hand. -/
theorem truthful [LawfulSuite K] {p : Participant K} (h : p.Unforced) : p.Truthful :=
  truthful_of_grounded h.grounded

/-- The only participant of a run, when it has derived the group key. -/
theorem exists_truthful : ∃ p : Participant ResidueKey, p.Unforced ∧
    p.stage = .groupKeyDerived ∧ p.Truthful := by
  have hcreated : lone.Unforced :=
    .created (Tape.new [[1]] [] "") 1 1 1 none (.bytes []) lone rfl
  have hstep := fun (p : Participant ResidueKey) operation hunforced =>
    UnforcedStep.perform (Tape.new [] [] "") operation hunforced p
  have hdealt := hcreated.performed (hstep _ .dealShares trivial)
  have hpowers := hdealt.performed (hstep _ .derivePowerMap trivial)
  have hfilled := hpowers.performed (hstep _ (.receiveShares (.ofInbox (.ofList [(1, 1)]))) trivial)
  have hverified := hfilled.performed (hstep _ (.verifyShares none none) trivial)
  have hsigned := hverified.performed (hstep _ .computeSigningShare trivial)
  have hjoint := hsigned.performed (hstep _ .deriveJoint trivial)
  have hpublished := hjoint.performed (hstep _ (.publishShares []) trivial)
  have hkeyed := hpublished.performed (hstep _ .deriveGroupKey trivial)
  exact ⟨_, hkeyed, by decide +kernel, truthful hkeyed⟩

end Unforced

end Participant

end ThresholdKeygen
