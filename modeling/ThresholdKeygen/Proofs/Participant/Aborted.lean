import ThresholdKeygen.Proofs.Participant.Progress

/-!
# Aborted participants

A participant with a recorded failure does no more work. Main statement: `Frozen.run`, whatever
operations follow of which none sets the stage by hand, its shares, its public maps and its keys are
what they were, and its stage is too, except that the last commitment may still be noticed.
-/

namespace ThresholdKeygen.Participant

variable {K : Type} [Suite K] {σ : Type} [RandomSource σ]

/-! ### Frozen participants -/

/-- That a later state of a participant has the failure, the shares, the public maps and the keys of
an earlier one, and its stage, unless a table that was incomplete has been completed. -/
structure Frozen (p p' : Participant K) : Prop where
  failure_eq : p'.failure = p.failure
  sharesOut_eq : p'.sharesOut = p.sharesOut
  signingShare_eq : p'.signingShare = p.signingShare
  publicShares_eq : p'.publicShares = p.publicShares
  joint_eq : p'.joint = p.joint
  shareMap_eq : p'.shareMap = p.shareMap
  groupKey_eq : p'.groupKey = p.groupKey
  isComplete : p.commitments.isComplete = true → p'.commitments.isComplete = true
  stage_eq : p'.stage = p.stage ∨ (p.stage = .created ∧ p'.stage = .commitmentsExchanged ∧
    p.commitments.isComplete = false ∧ p'.commitments.isComplete = true)

namespace Frozen

variable {p q r : Participant K}

omit [Suite K] in
theorem refl (p : Participant K) : p.Frozen p where
  failure_eq := rfl
  sharesOut_eq := rfl
  signingShare_eq := rfl
  publicShares_eq := rfl
  joint_eq := rfl
  shareMap_eq := rfl
  groupKey_eq := rfl
  isComplete h := h
  stage_eq := .inl rfl

omit [Suite K] in
theorem trans (h : p.Frozen q) (h' : q.Frozen r) : p.Frozen r where
  failure_eq := h'.failure_eq.trans h.failure_eq
  sharesOut_eq := h'.sharesOut_eq.trans h.sharesOut_eq
  signingShare_eq := h'.signingShare_eq.trans h.signingShare_eq
  publicShares_eq := h'.publicShares_eq.trans h.publicShares_eq
  joint_eq := h'.joint_eq.trans h.joint_eq
  shareMap_eq := h'.shareMap_eq.trans h.shareMap_eq
  groupKey_eq := h'.groupKey_eq.trans h.groupKey_eq
  isComplete hp := h'.isComplete (h.isComplete hp)
  stage_eq := by
    obtain hpq | ⟨hp, hq, hbefore, hcomplete⟩ := h.stage_eq
    · obtain hqr | ⟨hq, hr, hbefore, hcomplete⟩ := h'.stage_eq
      · exact .inl (hqr.trans hpq)
      · refine .inr ⟨hpq.symm.trans hq, hr, ?_, hcomplete⟩
        rw [← Bool.not_eq_true] at hbefore ⊢
        exact mt h.isComplete hbefore
    · obtain hqr | ⟨hearly, -⟩ := h'.stage_eq
      · exact .inr ⟨hp, hqr.trans hq, hbefore, h'.isComplete hcomplete⟩
      · rw [hq] at hearly
        cases hearly

end Frozen

/-! ### Complete tables -/

/-- That a participant has noticed when its table is complete. -/
def Noticed (p : Participant K) : Prop :=
  p.commitments.isComplete = true → .commitmentsExchanged ≤ p.stage

section Noticed

variable {p p' : Participant K} {source : σ} {operation : Operation K}

omit [Suite K] in
theorem noticed_caughtUp (p : Participant K) : p.caughtUp.Noticed := by
  intro hcomplete
  obtain ⟨stage, heq, -⟩ := exists_caughtUp p
  refine (le_caughtUp_iff p _).2 (.inr ⟨rfl, ?_⟩)
  rw [heq] at hcomplete
  exact hcomplete

/-- Every rule keeps a participant noticed. -/
theorem Noticed.change (h : p.Noticed) (hsettled : p.Settled)
    (hchange : Change source operation p p') : p'.Noticed := by
  have hle := (hsettled.persists hchange).stage_le
  cases hchange with
  | repeated | registered => exact noticed_caughtUp _
  | unchanged | failed | dealt | received | preparedPowers | verified | signed | derivedJoint
  | derivedShareMap | importedJoint | importedShareMap | publishedOwn | published | keyed
  | advanced | aborted =>
    intro hcomplete
    exact Stage.le_trans (h hcomplete) hle

theorem Noticed.run (h : p.Noticed) (hsettled : p.Settled)
    (hrun : Relation.ReflTransGen Step p p') : p'.Noticed := by
  induction hrun with
  | refl => exact h
  | tail hbefore hstep ih =>
    obtain ⟨source, operation⟩ := hstep
    exact ih.change (hsettled.run hbefore).1 (change_perform source _ operation)

theorem Fresh.noticed (h : p.Fresh) : p.Noticed := by
  obtain ⟨-, -, -, -⟩ := h
  intro hcomplete
  rw [newcomer] at hcomplete ⊢
  dsimp only at hcomplete ⊢
  rw [if_pos hcomplete]
  exact Nat.le_refl _

theorem Reachable.noticed (h : p.Reachable) : p.Noticed := by
  induction h with
  | created source n threshold position dealers context p h =>
    exact (fresh_create n threshold position dealers context source p h).noticed
  | performed source operation h ih =>
    exact ih.change h.settled (change_perform source _ operation)

end Noticed

/-! ### Steps of aborted participants -/

section Aborted

variable {p p' : Participant K} {source : σ} {operation : Operation K}

omit [Suite K] in
theorem requireStage_ne_ok (hfailed : p.aborted = true) (stage : Stage) :
    p.requireStage stage ≠ .ok () := by
  intro hrequire
  rw [aborted, (of_requireStage_eq_ok hrequire).1] at hfailed
  cases hfailed

omit [Suite K] in
theorem abort_eq (hfailed : p.aborted = true) (failure : Error) : p.abort failure = p := by
  obtain ⟨first, hfirst⟩ := Option.isSome_iff_exists.1 hfailed
  rw [abort, hfirst]
  cases p
  cases hfirst
  rfl

omit [Suite K] in
theorem isComplete_withTable {slots : Mapping Int (Commitment K)} (gaps : Mapping Int (List Nat))
    (hslots : ∀ i, (p.commitments.slots.get? i).isSome → (slots.get? i).isSome)
    (hcomplete : p.commitments.isComplete = true) :
    (p.withTable slots gaps).commitments.isComplete = true := by
  rw [CommitmentTable.isComplete, CommitmentTable.missing, List.isEmpty_iff,
    List.filter_eq_nil_iff] at hcomplete ⊢
  intro i hi
  have hsome := hcomplete i hi
  rw [Option.isNone_iff_eq_none, ← Option.not_isSome_iff_eq_none, not_not] at hsome ⊢
  exact hslots i hsome

omit [Suite K] in
/-- Another commitment moves the stage only when it is the last one, and comes in time. -/
theorem frozen_caughtUp (hnoticed : p.Noticed) {slots : Mapping Int (Commitment K)}
    {gaps : Mapping Int (List Nat)}
    (hslots : ∀ i, (p.commitments.slots.get? i).isSome → (slots.get? i).isSome) :
    p.Frozen (p.withTable slots gaps).caughtUp := by
  have hkept := isComplete_withTable gaps hslots
  rw [caughtUp]
  split
  · rename_i hcomplete
    refine { Frozen.refl p with isComplete := hkept, stage_eq := ?_ }
    change p.stage.later .commitmentsExchanged = p.stage ∨ _
    by_cases hstage : Stage.commitmentsExchanged ≤ p.stage
    · exact .inl (Stage.later_eq_left hstage)
    · have hcreated : p.stage = .created := by
        cases hstage' : p.stage with
        | created => rfl
        | _ => exact absurd (by rw [hstage']; decide) hstage
      refine .inr ⟨hcreated, ?_, ?_, hcomplete⟩
      · change p.stage.later .commitmentsExchanged = _
        rw [hcreated]
        rfl
      · exact Bool.eq_false_iff.2 fun hbefore => hstage (hnoticed hbefore)
  · exact { Frozen.refl p with isComplete := hkept, stage_eq := .inl rfl }

/-- No rule changes what a participant with a recorded failure has, unless it sets the stage by
hand. -/
theorem Frozen.change (hnoticed : p.Noticed) (hfailed : p.aborted = true)
    (hchange : Change source operation p p') (hunforced : operation.Unforced) : p.Frozen p' := by
  cases hchange with
  | unchanged | received | preparedPowers => exact { Frozen.refl p with }
  | failed | aborted =>
    rw [abort_eq hfailed]
    exact .refl p
  | repeated => exact frozen_caughtUp hnoticed fun _ h => h
  | registered =>
    refine frozen_caughtUp hnoticed fun i hi => ?_
    rw [Mapping.get?_put]
    split
    · rfl
    · exact hi
  | verified hchecked =>
    exact absurd (of_checkOutcome_eq_ok hchecked).1 (requireStage_ne_ok hfailed _)
  | dealt hrequire | signed hrequire | derivedJoint hrequire | derivedShareMap hrequire
  | importedJoint hrequire | importedShareMap hrequire | publishedOwn hrequire | published hrequire
  | keyed hrequire => exact absurd hrequire (requireStage_ne_ok hfailed _)
  | advanced => exact hunforced.elim

/-- Along every run of which no operation sets the stage by hand, a participant with a recorded
failure keeps what it has. -/
theorem Frozen.run (hsettled : p.Settled) (hnoticed : p.Noticed) (hfailed : p.aborted = true)
    (hrun : Relation.ReflTransGen UnforcedStep p p') : p.Frozen p' := by
  induction hrun with
  | refl => exact .refl p
  | @tail q _ hbefore hstep ih =>
    obtain ⟨source, operation, hunforced⟩ := hstep
    have hsteps := Relation.ReflTransGen.mono (fun _ _ h => UnforcedStep.step h) _ _ hbefore
    have hstill : q.aborted = true := by
      rw [aborted, ih.failure_eq]
      exact hfailed
    exact ih.trans (.change (hnoticed.run hsettled hsteps) hstill
      (change_perform source q operation) hunforced)

end Aborted

end ThresholdKeygen.Participant
