import ThresholdKeygen.Proofs.Participant.Reachable

/-!
# Signing shares and checked inboxes

Runs with a record of the checks that pass. Main statement: `Traced.mem_passed`, a participant
signs with an inbox that has passed a check for its position, as long as it is given nothing else to
verify instead. Without this condition it may sign with an inbox that nobody has checked
(`exists_signed_unchecked`).
-/

namespace ThresholdKeygen.Participant

variable {K : Type} [Suite K] {σ : Type} [RandomSource σ]

/-- The check that passes in an operation, if there is one: what is checked, and for which index. -/
def Operation.passed (source : σ) (p : Participant K) : Operation K → List (Delivery × Int)
  | .verifyShares delivery index =>
    match checkOutcome source p delivery index with
    | .ok () => [(delivery.getD (.ofInbox p.sharesIn), index.getD p.position)]
    | .error _ => []
  | _ => []

/-- The participants to which allowed operations and checks lead, with a record of the checks that
have passed. -/
inductive Traced (Allowed : Participant K → Operation K → Prop) :
    List (Delivery × Int) → Participant K → Prop where
  | created {σ : Type} [RandomSource σ] (source : σ) (n threshold position : Int)
      (dealers : Option Int) (context : Item K) (p : Participant K)
      (h : ((create n threshold position dealers context).run.run source).1 = .ok p) :
      Traced Allowed [] p
  | performed {σ : Type} [RandomSource σ] (source : σ) (operation : Operation K)
      {passed : List (Delivery × Int)} {p : Participant K} (h : Traced Allowed passed p)
      (hallowed : Allowed p operation) :
      Traced Allowed (operation.passed source p ++ passed) ((operation.perform p).run source).1
  | checked {σ : Type} [RandomSource σ] (source : σ) (delivery : Delivery) (index : Int)
      {passed : List (Delivery × Int)} {p : Participant K} (h : Traced Allowed passed p)
      (hpassed : ((p.checkShares delivery index).run.run source).1 = .ok ()) :
      Traced Allowed ((delivery, index) :: passed) p

/-- That an operation is one of the protocol, and does not set the stage or fail by hand. -/
def OfProtocol (_ : Participant K) : Operation K → Prop
  | .advance _ | .abort _ => False
  | _ => True

/-- That an operation does not set the stage by hand and, if it is a verification and nothing has
been verified yet, verifies the inbox for the own position. -/
def VerifiesInbox (p : Participant K) : Operation K → Prop
  | .advance _ => False
  | .verifyShares delivery index =>
    .sharesVerified ≤ p.stage ∨
      delivery.getD (.ofInbox p.sharesIn) = .ofInbox p.sharesIn ∧ index.getD p.position = p.position
  | _ => True

theorem checkShares_of_checkOutcome {source : σ} {p : Participant K} {delivery : Option Delivery}
    {index : Option Int} (h : checkOutcome source p delivery index = .ok ()) :
    ((p.checkShares (delivery.getD (.ofInbox p.sharesIn)) (index.getD p.position)).run.run
      source).1 = .ok () := by
  rw [checkOutcome, checkDealtShares] at h
  cases hpowers : p.requirePowerMap with
  | error refusal => rw [hpowers] at h; cases h
  | ok m =>
    cases hcommitments : p.requireCommitments with
    | error refusal => rw [hpowers, hcommitments] at h; cases h
    | ok _ =>
      cases hstage : p.requireStage .sharesDistributed with
      | error refusal => rw [hpowers, hcommitments, hstage] at h; cases h
      | ok _ =>
        rw [hpowers, hcommitments, hstage] at h
        exact h

/-- What is recorded of an operation has passed its check. -/
theorem Operation.checkShares_of_mem_passed {source : σ} {p : Participant K}
    {operation : Operation K} {delivery : Delivery} {index : Int}
    (h : (delivery, index) ∈ operation.passed source p) :
    ((p.checkShares delivery index).run.run source).1 = .ok () := by
  cases operation with
  | verifyShares given place =>
    rw [passed] at h
    split at h
    · rename_i hchecked
      obtain ⟨rfl, rfl⟩ := Prod.mk.inj (List.mem_singleton.1 h)
      exact checkShares_of_checkOutcome hchecked
    · cases h
  | _ => cases h

omit [Suite K] in
theorem of_computeSigningShare_eq_ok {p : Participant K} {share : Scalar}
    (h : p.computeSigningShare.1 = .ok share) :
    .sharesVerified ≤ p.stage ∧ share = Scalar.sum p.sharesIn.values := by
  obtain ⟨p', hrun⟩ := exists_of_attempt_eq_ok h
  obtain ⟨_, hstage, hrest⟩ := bind_eq_ok_iff.1 hrun
  dsimp only at hrest
  split at hrest
  · cases hrest
  · exact ⟨(of_requireStage_eq_ok hstage).2, (Prod.mk.inj (Except.ok.inj hrest)).1.symm⟩

/-- Once a participant has come as far as a verification, its inbox has passed one. -/
theorem Traced.inbox_mem {passed : List (Delivery × Int)} {p : Participant K}
    (h : Traced VerifiesInbox passed p)
    (hstage : .sharesVerified ≤ p.stage) : (Delivery.ofInbox p.sharesIn, p.position) ∈ passed := by
  induction h with
  | created source n threshold position dealers context p h =>
    obtain ⟨_, _, _, _⟩ := fresh_create n threshold position dealers context source p h
    exact absurd (Stage.le_trans hstage (stage_newcomer_le _ _ _ _ _ _)) (by decide)
  | @performed _ _ source operation passed p _ hallowed ih =>
    have hchange := change_perform source p operation
    obtain ⟨hinbox, hposition⟩ := hchange.sharesIn_eq hstage
    rw [hinbox, hposition, List.mem_append]
    -- Either the record has been there before, or this operation is the verification that adds it.
    rcases hchange.verifies hstage with hbefore | ⟨stage, rfl⟩ | ⟨delivery, index, rfl, hchecked⟩
    · exact .inr (ih hbefore)
    · exact hallowed.elim
    · rcases hallowed with hbefore | ⟨hdelivery, hindex⟩
      · exact .inr (ih hbefore)
      · refine .inl ?_
        rw [Operation.passed, hchecked, hdelivery, hindex]
        exact .head _
  | checked source delivery index _ _ ih => exact .tail _ (ih hstage)

/-- A participant that verifies nothing but its inbox for its position signs with a checked
inbox. -/
theorem Traced.mem_passed {passed : List (Delivery × Int)} {p : Participant K}
    (h : Traced VerifiesInbox passed p)
    {share : Scalar} (hshare : p.computeSigningShare.1 = .ok share) :
    (Delivery.ofInbox p.sharesIn, p.position) ∈ passed ∧ share = Scalar.sum p.sharesIn.values := by
  obtain ⟨hstage, hsum⟩ := of_computeSigningShare_eq_ok hshare
  exact ⟨h.inbox_mem hstage, hsum⟩

theorem traced_lone {Allowed : Participant ResidueKey → Operation ResidueKey → Prop} :
    Traced Allowed [] lone :=
  .created (Tape.new [[1]] [] "") 1 1 1 none (.bytes []) lone rfl

/-- The only participant of a run signs with the share that it has dealt to itself and verified. -/
theorem exists_mem_passed : ∃ passed, ∃ p : Participant ResidueKey,
    Traced VerifiesInbox passed p ∧
      p.computeSigningShare.1 = .ok 1 ∧ (Delivery.ofInbox p.sharesIn, p.position) ∈ passed := by
  have hdealt : Traced VerifiesInbox _ _ :=
    traced_lone.performed (Tape.new [] [] "") .dealShares trivial
  have hpowers := hdealt.performed (Tape.new [] [] "") .derivePowerMap trivial
  have hfilled := hpowers.performed (Tape.new [] [] "")
    (.receiveShares (.ofInbox (.ofList [(1, 1)]))) trivial
  have hverified := hfilled.performed (Tape.new [] [] "") (.verifyShares none none)
    (.inr ⟨rfl, rfl⟩)
  refine ⟨_, _, hverified, ?_, (@Traced.mem_passed _ _ _ _ hverified 1 ?_).1⟩ <;>
    exact eq_ok_of_toOption (by decide +kernel)

/-- The same participant signs with a share that nobody has checked after it has verified another
one. -/
theorem exists_signed_unchecked : ∃ passed, ∃ p : Participant ResidueKey,
    Traced OfProtocol passed p ∧
      p.computeSigningShare.1 = .ok 2 ∧ (Delivery.ofInbox p.sharesIn, p.position) ∉ passed := by
  have hdealt : Traced OfProtocol _ _ :=
    traced_lone.performed (Tape.new [] [] "") .dealShares trivial
  have hpowers := hdealt.performed (Tape.new [] [] "") .derivePowerMap trivial
  have hfilled := hpowers.performed (Tape.new [] [] "")
    (.receiveShares (.ofInbox (.ofList [(1, 2)]))) trivial
  have hverified := hfilled.performed (Tape.new [] [] "")
    (.verifyShares (some (.ofInbox (.ofList [(1, 1)]))) (some 1)) trivial
  refine ⟨_, _, hverified, ?_, fun hmem => ?_⟩
  · exact eq_ok_of_toOption (by decide +kernel)
  · have hchecked := List.mem_map_of_mem (f := fun check => check.1.get? 1) hmem
    revert hchecked
    decide +kernel

end ThresholdKeygen.Participant
