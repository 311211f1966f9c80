import ThresholdKeygen.Proofs.Participant.Aborted
import ThresholdKeygen.Proofs.WeightedParty.Persistence

/-!
# Aborted parties

A weighted party whose participant has a recorded failure does no more work either: its participant
keeps what it has, and so does every slot that the party owns. Main statement: `frozen_of_run`, for
participants and parties alike.
-/

namespace ThresholdKeygen

variable {K : Type} [Suite K] {σ : Type} [RandomSource σ]

namespace WeightedParty

/-- That an operation does not set the stage of the participant by hand. -/
def Operation.Unforced : Operation K → Prop
  | .onCore operation => operation.Unforced
  | _ => True

/-- One operation that does not set the stage of the participant by hand, whatever it draws and
whether it refuses or not. -/
inductive UnforcedStep : WeightedParty K → WeightedParty K → Prop where
  | perform {σ : Type} [RandomSource σ] (source : σ) (operation : Operation K)
      (hunforced : operation.Unforced) (w : WeightedParty K) :
      UnforcedStep w ((operation.perform w).run source).1

theorem UnforcedStep.step {w w' : WeightedParty K} (h : UnforcedStep w w') : Step w w' := by
  obtain ⟨source, operation, -⟩ := h
  exact .perform source operation w

/-! ### Frozen parties -/

/-- That a later state of a party has the inbox, the stage and the signing share of every slot that
it owned in an earlier one, and that its participant is frozen. -/
structure Frozen (w w' : WeightedParty K) : Prop where
  core : w.core.Frozen w'.core
  key_mem : ∀ key ∈ w.keys, key ∈ w'.keys
  inboxOf_eq : ∀ key ∈ w.keys, w'.inboxOf key = w.inboxOf key
  slotStage_eq : ∀ key ∈ w.keys, w'.slotStage key = w.slotStage key
  signingShareOf_eq : ∀ key ∈ w.keys, w'.signingShareOf key = w.signingShareOf key

namespace Frozen

variable {w v u : WeightedParty K}

omit [Suite K] in
theorem refl (w : WeightedParty K) : w.Frozen w where
  core := .refl w.core
  key_mem _ hkey := hkey
  inboxOf_eq _ _ := rfl
  slotStage_eq _ _ := rfl
  signingShareOf_eq _ _ := rfl

omit [Suite K] in
theorem trans (h : w.Frozen v) (h' : v.Frozen u) : w.Frozen u where
  core := h.core.trans h'.core
  key_mem key hkey := h'.key_mem key (h.key_mem key hkey)
  inboxOf_eq key hkey := (h'.inboxOf_eq key (h.key_mem key hkey)).trans (h.inboxOf_eq key hkey)
  slotStage_eq key hkey :=
    (h'.slotStage_eq key (h.key_mem key hkey)).trans (h.slotStage_eq key hkey)
  signingShareOf_eq key hkey :=
    (h'.signingShareOf_eq key (h.key_mem key hkey)).trans (h.signingShareOf_eq key hkey)

omit [Suite K] in
/-- More keys change nothing about the slots of those that the party owned before. -/
theorem assigned {owned : KeySet} {slotStages : Mapping Int Stage}
    (hkept : ∀ key ∈ w.keys, key ∈ owned)
    (hstages : ∀ key, stageAt slotStages key = stageAt w.slotStages key) :
    w.Frozen { w with keys := owned, slotStages } where
  core := .refl w.core
  key_mem := hkept
  inboxOf_eq key hkey := by
    rw [inboxOf, inboxOf, requireOwned_eq hkey, requireOwned_eq (hkept key hkey)]
    rfl
  slotStage_eq key hkey := by
    rw [slotStage, slotStage, requireOwned_eq hkey, requireOwned_eq (hkept key hkey)]
    refine bind_congr fun _ => ?_
    change (w.slotOf key >>= fun slot => pure (stageAt slotStages slot)) =
      w.slotOf key >>= fun slot => pure (stageAt w.slotStages slot)
    simp only [hstages]
  signingShareOf_eq key hkey := by
    rw [signingShareOf, signingShareOf, requireOwned_eq hkey, requireOwned_eq (hkept key hkey)]
    rfl

omit [Suite K] in
/-- The slots are where they were whatever the participant goes through. -/
theorem onCore {core : Participant K} (hcore : w.core.Frozen core) (hn : core.n = w.core.n) :
    w.Frozen { w with core } := by
  have hslot : ∀ key, slotOf { w with core } key = w.slotOf key := by
    intro key
    rw [slotOf, slotOf, hn]
  have howned : ∀ key ∈ w.keys, requireOwned { w with core } key = w.requireOwned key := by
    intro key hkey
    rw [requireOwned_eq hkey]
    exact requireOwned_eq hkey
  exact {
    core := hcore
    key_mem := fun _ hkey => hkey
    inboxOf_eq := fun key hkey => by rw [inboxOf, inboxOf, hslot, howned key hkey]
    slotStage_eq := fun key hkey => by rw [slotStage, slotStage, hslot, howned key hkey]
    signingShareOf_eq := fun key hkey => by
      rw [signingShareOf, signingShareOf, hslot, howned key hkey] }

end Frozen

/-! ### Steps of aborted parties -/

section Aborted

variable {w w' : WeightedParty K}

/-- No operation changes what a party has whose participant has failed, unless it sets the stage of
the participant by hand. -/
theorem frozen_perform (source : σ) (operation : Operation K) (hunforced : operation.Unforced)
    (hnoticed : w.core.Noticed) (hfailed : w.core.aborted = true) :
    w.Frozen ((operation.perform w).run source).1 := by
  have hrefused : ∀ stage, ∃ refusal, w.core.requireStage stage = .error refusal := by
    intro stage
    cases hrequire : w.core.requireStage stage with
    | error refusal => exact ⟨refusal, rfl⟩
    | ok _ => exact absurd hrequire (Participant.requireStage_ne_ok hfailed stage)
  have hcore : ∀ operation : Participant.Operation K, operation.Unforced → ∀ core,
      Participant.Change source operation w.core core → w.Frozen { w with core } :=
    fun operation hunforced core hchange =>
      .onCore (.change hnoticed hfailed hchange hunforced) hchange.n_eq
  cases operation with
  | assignKeys keys =>
    obtain ⟨owned, slotStages, hassign, hkept, -, hstages⟩ := w.exists_assignKeys keys
    change w.Frozen (w.assignKeys keys).2
    rw [hassign]
    exact .assigned hkept hstages
  | storeShares key delivery =>
    obtain ⟨refusal, hrequire⟩ := hrefused .created
    change w.Frozen (w.storeShares key delivery).2
    rw [storeShares, hrequire]
    cases w.requireOwned key <;> exact .refl w
  | verifyShares =>
    obtain ⟨refusal, hrequire⟩ := hrefused .sharesDistributed
    change w.Frozen (w.verifyShares.run source).1.2
    rw [verifyShares, hrequire]
    exact .refl w
  | computeSigningShares =>
    obtain ⟨refusal, hrequire⟩ := hrefused .sharesVerified
    change w.Frozen w.computeSigningShares.2
    rw [computeSigningShares, hrequire]
    exact .refl w
  | publishOwnShares =>
    obtain ⟨refusal, hrequire⟩ := hrefused .signingShareComputed
    change w.Frozen w.publishOwnShares.2
    rw [publishOwnShares, hrequire]
    exact .refl w
  | publishShares =>
    exact hcore (.publishShares _) trivial _ (Participant.change_publishShares source w.core _)
  | deriveGroupKey =>
    obtain ⟨refusal, hrequire⟩ := hrefused .publicSharesComputed
    change w.Frozen w.deriveGroupKey.2
    rw [deriveGroupKey, Participant.deriveGroupKey, hrequire]
    exact .refl w
  | onCore operation =>
    exact hcore operation hunforced _ (Participant.change_perform source w.core operation)

/-- Every rule keeps the participant of a party noticed. -/
theorem noticed_change {source : σ} {operation : Operation K} (hsettled : w.Settled)
    (h : w.core.Noticed) (hchange : Change source operation w w') : w'.core.Noticed := by
  have hcore : ∀ (operation : Participant.Operation K) (core : Participant K),
      Participant.Change source operation w.core core → core.Noticed :=
    fun _ _ hchange => h.change hsettled.core hchange
  cases hchange with
  | unchanged | assigned | stored => exact h
  | checked _ _ hchecked =>
    obtain rfl | ⟨failure, rfl⟩ | ⟨rfl, -⟩ := hchecked
    · exact h
    · exact hcore _ _ (.aborted w.core failure)
    · exact hcore _ _ (.advanced w.core _)
  | signed => exact hcore _ _ (.advanced w.core _)
  | publishedOwn _ hpublished => exact h.run hsettled.core hpublished
  | published hchange | keyed hchange | onCore hchange => exact hcore _ _ hchange

theorem noticed_run (hsettled : w.Settled) (h : w.core.Noticed)
    (hrun : Relation.ReflTransGen Step w w') : w'.core.Noticed := by
  induction hrun with
  | refl => exact h
  | tail hbefore hstep ih =>
    have hsettled := (hsettled.run hbefore).1
    obtain ⟨source, operation⟩ := hstep
    exact noticed_change hsettled ih (change_perform source hsettled.slots operation)

theorem Reachable.noticed (h : w.Reachable) : w.core.Noticed := by
  induction h with
  | created hcore h =>
    rw [create] at h
    split at h
    · cases h
    · obtain rfl := Except.ok.inj h
      exact hcore.noticed
  | performed source operation h ih =>
    exact noticed_change h.settled ih (change_perform source h.settled.slots operation)

/-- Along every run of which no operation sets the stage of the participant by hand, a party whose
participant has failed keeps what it has. -/
theorem Frozen.run (hsettled : w.Settled) (hnoticed : w.core.Noticed)
    (hfailed : w.core.aborted = true) (hrun : Relation.ReflTransGen UnforcedStep w w') :
    w.Frozen w' := by
  induction hrun with
  | refl => exact .refl w
  | @tail v _ hbefore hstep ih =>
    obtain ⟨source, operation, hunforced⟩ := hstep
    have hsteps := Relation.ReflTransGen.mono (fun _ _ h => UnforcedStep.step h) _ _ hbefore
    have hstill : v.core.aborted = true := by
      rw [Participant.aborted, ih.core.failure_eq]
      exact hfailed
    exact ih.trans (frozen_perform source operation hunforced
      (noticed_run hsettled hnoticed hsteps) hstill)

end Aborted

end WeightedParty

/-- Once a participant has failed, be it alone or as the participant of a party, no operation
produces anything more, unless the stage is set by hand. -/
theorem frozen_of_run :
    (∀ p p' : Participant K, p.Reachable → p.aborted = true →
      Relation.ReflTransGen Participant.UnforcedStep p p' → p.Frozen p') ∧
    ∀ w w' : WeightedParty K, w.Reachable → w.core.aborted = true →
      Relation.ReflTransGen WeightedParty.UnforcedStep w w' → w.Frozen w' :=
  ⟨fun _ _ hp hfailed hrun => .run hp.settled hp.noticed hfailed hrun,
    fun _ _ hw hfailed hrun => .run hw.settled hw.noticed hfailed hrun⟩

/-- A participant fails when it verifies an inbox that is still empty, and is told to deal again; a
party fails by hand when a slot has shares, and is given others for it. -/
theorem exists_frozen_of_run :
    ∃ (p p' : Participant ResidueKey) (w w' : WeightedParty ResidueKey),
      p.Reachable ∧ p.aborted = true ∧ .sharesDistributed ≤ p.stage ∧
      Relation.ReflTransGen Participant.UnforcedStep p p' ∧
      w.Reachable ∧ w.core.aborted = true ∧ 1 ∈ w.keys ∧ (w.inboxOf 1).toOption.isSome ∧
      Relation.ReflTransGen WeightedParty.UnforcedStep w w' ∧ p.Frozen p' ∧ w.Frozen w' := by
  have hdealt : Participant.Reachable (K := ResidueKey) _ :=
    .performed (Tape.new [] [] "") .dealShares Participant.reachable_lone
  have hpowers := hdealt.performed (Tape.new [] [] "") .derivePowerMap
  have hp := hpowers.performed (Tape.new [] [] "") (.verifyShares none none)
  have hrun := fun p : Participant ResidueKey => Relation.ReflTransGen.single
    (Participant.UnforcedStep.perform (Tape.new [] [] "") .dealShares trivial p)
  have hcreated := @WeightedParty.Reachable.created ResidueKey _ 1 _ _
    Participant.reachable_lone rfl
  have hassigned := hcreated.performed (Tape.new [] [] "") (.assignKeys [1])
  have hstored := hassigned.performed (Tape.new [] [] "") (.storeShares 1 (.ofInbox .empty))
  have hw := hstored.performed (Tape.new [] [] "") (.onCore (.abort (.state .inboxClosed)))
  have hfill := fun w : WeightedParty ResidueKey => Relation.ReflTransGen.single
    (WeightedParty.UnforcedStep.perform (Tape.new [] [] "")
      (.storeShares 1 (.ofInbox (.ofList [(1, 1)]))) trivial w)
  have hfrozen := frozen_of_run.1 _ _ hp (by decide +kernel) (hrun _)
  have hfrozen' := frozen_of_run.2 _ _ hw (by decide +kernel) (hfill _)
  exact ⟨_, _, _, _, hp, by decide +kernel, by decide +kernel, hrun _, hw, by decide +kernel,
    by decide +kernel, by decide +kernel, hfill _, hfrozen, hfrozen'⟩

end ThresholdKeygen
