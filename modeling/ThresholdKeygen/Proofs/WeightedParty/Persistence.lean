import ThresholdKeygen.Proofs.WeightedParty.Change

/-!
# What weighted parties keep

A weighted party never takes back what it has recorded for a slot, and its participant keeps what
participants keep. Main statement: `persists_of_run`, for participants and parties alike.
-/

namespace ThresholdKeygen

variable {K : Type} [Suite K] {σ : Type} [RandomSource σ]

namespace WeightedParty

/-- The parties to which operations lead, whatever is drawn on the way. -/
inductive Reachable : WeightedParty K → Prop where
  | created {parties : Int} {core : Participant K} {w : WeightedParty K} (hcore : core.Reachable)
      (h : create parties core = .ok w) : Reachable w
  | performed {σ : Type} [RandomSource σ] (source : σ) (operation : Operation K)
      {w : WeightedParty K} (h : Reachable w) : Reachable ((operation.perform w).run source).1

/-- One operation, whatever it draws and whether it refuses or not. -/
inductive Step : WeightedParty K → WeightedParty K → Prop where
  | perform {σ : Type} [RandomSource σ] (source : σ) (operation : Operation K)
      (w : WeightedParty K) : Step w ((operation.perform w).run source).1

/-- That a later state of a party keeps what is recorded in an earlier one. -/
structure Persists (w w' : WeightedParty K) : Prop where
  core : w.core.Persists w'.core
  key_mem : ∀ key ∈ w.keys, key ∈ w'.keys
  stage_le : ∀ key, stageAt w.slotStages key ≤ stageAt w'.slotStages key
  signingShare_eq : ∀ key share, w.signingShares.get? key = some share →
    w'.signingShares.get? key = some share
  inbox_eq : ∀ key, .sharesVerified ≤ stageAt w.slotStages key →
    w'.inboxes.get? key = w.inboxes.get? key

namespace Persists

theorem refl (w : WeightedParty K) : w.Persists w where
  core := .refl w.core
  key_mem _ h := h
  stage_le _ := Nat.le_refl _
  signingShare_eq _ _ h := h
  inbox_eq _ _ := rfl

theorem trans {w v u : WeightedParty K} (h : w.Persists v) (h' : v.Persists u) : w.Persists u where
  core := h.core.trans h'.core
  key_mem key hkey := h'.key_mem key (h.key_mem key hkey)
  stage_le key := Stage.le_trans (h.stage_le key) (h'.stage_le key)
  signingShare_eq key share hw := h'.signingShare_eq key share (h.signingShare_eq key share hw)
  inbox_eq key hw :=
    (h'.inbox_eq key (Stage.le_trans hw (h.stage_le key))).trans (h.inbox_eq key hw)

end Persists

/-- A party whose keys are slots, whose participant is settled, and whose signing shares are those
that it would compute again, since the inboxes of their slots are closed. -/
structure Settled (w : WeightedParty K) : Prop where
  core : w.core.Settled
  slots : ∀ key ∈ w.keys, key ∈ upTo w.core.n
  signingShare_eq : ∀ key share, w.signingShares.get? key = some share →
    .sharesVerified ≤ stageAt w.slotStages key ∧
      ∃ delivery, w.inboxes.get? key = some delivery ∧ delivery.sum = .ok share

namespace Settled

variable {w w' : WeightedParty K} {source : σ} {operation : Operation K}

/-- What checking slots does to the participant of a party. -/
theorem core_checked (h : w.core.Settled) {core : Participant K} {P : Prop}
    (hcore : core = w.core ∨ (∃ failure, core = w.core.abort failure) ∨
      core = w.core.advance .sharesVerified ∧ P) :
    core.Settled ∧ w.core.Persists core ∧ core.n = w.core.n := by
  obtain rfl | ⟨failure, rfl⟩ | ⟨rfl, _⟩ := hcore
  · exact ⟨h, .refl _, rfl⟩
  · exact ⟨{ h with toSound := { h.toSound with } }, .abort _ failure, rfl⟩
  · exact ⟨h.advance _, .advance _ _, rfl⟩

/-- No rule takes back what a settled party has recorded. -/
theorem persists (h : w.Settled) (hchange : Change source operation w w') : w.Persists w' := by
  cases hchange with
  | unchanged => exact .refl w
  | assigned hkept _ hstages =>
    exact { Persists.refl w with
      key_mem := hkept
      stage_le := fun key => Nat.le_of_eq (congrArg Stage.rank (hstages key).symm) }
  | stored hopen hraise =>
    refine { Persists.refl w with stage_le := hraise.le, inbox_eq := fun key hkey => ?_ }
    rw [Mapping.get?_put, if_neg]
    rintro rfl
    exact hopen hkey
  | checked _ hraise hcore =>
    exact { Persists.refl w with
      core := (core_checked h.core hcore).2.1
      stage_le := hraise.le }
  | signed _ hshares hraise =>
    refine { Persists.refl w with
      core := .advance _ _
      stage_le := hraise.le
      signingShare_eq := fun key share hshare => ?_ }
    obtain hsame | ⟨again, hmem, hagain⟩ := w.signingShares.get?_putAll_eq_or_mem _ key
    · exact hsame.trans hshare
    · -- The inbox of a slot that is signed is closed, so that its sum is what it was.
      obtain ⟨_, delivery, hdelivery, hsum⟩ := hshares key again hmem
      obtain ⟨_, delivery', hdelivery', hsum'⟩ := h.signingShare_eq key share hshare
      obtain rfl := Option.some.inj (hdelivery.symm.trans hdelivery')
      obtain rfl := Except.ok.inj (hsum.symm.trans hsum')
      exact hagain
  | publishedOwn _ hcore _ hraise =>
    exact { Persists.refl w with core := (h.core.run hcore).2, stage_le := hraise.le }
  | published hcore => exact { Persists.refl w with core := h.core.persists hcore }
  | keyed hcore _ hraise =>
    exact { Persists.refl w with core := h.core.persists hcore, stage_le := hraise.le }
  | onCore hcore => exact { Persists.refl w with core := h.core.persists hcore }

omit [Suite K] in
theorem raise (h : w.Settled) {core : Participant K} (hcore : core.Settled)
    (hn : core.n = w.core.n) {slotStages : Mapping Int Stage}
    (hle : ∀ key, stageAt w.slotStages key ≤ stageAt slotStages key) :
    Settled { w with core, slotStages } where
  core := hcore
  slots key hkey := by
    rw [hn]
    exact h.slots key hkey
  signingShare_eq key share hshare := by
    obtain ⟨hstage, hsum⟩ := h.signingShare_eq key share hshare
    exact ⟨Stage.le_trans hstage (hle key), hsum⟩

/-- Every rule keeps a party settled. -/
theorem change (h : w.Settled) (hchange : Change source operation w w') : w'.Settled := by
  cases hchange with
  | unchanged => exact h
  | assigned _ hslots hstages =>
    refine ⟨h.core, fun key hkey => ?_, fun key share hshare => ?_⟩
    · rcases hslots key hkey with hold | hslot
      · exact h.slots key hold
      · exact hslot
    · rw [hstages]
      exact h.signingShare_eq key share hshare
  | @stored _ opened delivery _ hopen hraise =>
    refine ⟨h.core, h.slots, fun key share hshare => ?_⟩
    obtain ⟨hstage, hsum⟩ := h.signingShare_eq key share hshare
    have hne : key ≠ opened := by
      rintro rfl
      exact hopen hstage
    rw [Mapping.get?_put, if_neg hne]
    exact ⟨Stage.le_trans hstage (hraise.le key), hsum⟩
  | checked _ hraise hcore =>
    obtain ⟨hsettled, _, hn⟩ := core_checked h.core hcore
    exact h.raise hsettled hn hraise.le
  | signed _ hshares hraise =>
    refine ⟨h.core.advance _, h.slots, fun key share hshare => ?_⟩
    obtain hsame | ⟨again, hmem, hagain⟩ := w.signingShares.get?_putAll_eq_or_mem _ key
    · obtain ⟨hstage, hsum⟩ := h.signingShare_eq key share (hsame.symm.trans hshare)
      exact ⟨Stage.le_trans hstage (hraise.le key), hsum⟩
    · obtain rfl := Option.some.inj (hagain.symm.trans hshare)
      have hreached := hraise.reached (List.mem_map.2 ⟨_, hmem, rfl⟩)
      exact ⟨Stage.le_trans (by decide) hreached, (hshares key again hmem).2⟩
  | publishedOwn _ hcore _ hraise =>
    exact h.raise (h.core.run hcore).1 (Participant.parameters_eq_of_run hcore).1 hraise.le
  | keyed hcore _ hraise => exact h.raise (h.core.change hcore) hcore.n_eq hraise.le
  | published hcore | onCore hcore =>
    exact h.raise (h.core.change hcore) hcore.n_eq fun _ => Nat.le_refl _

/-- Along every run a settled party stays settled and keeps what is recorded. -/
theorem run (h : w.Settled) (hrun : Relation.ReflTransGen Step w w') :
    w'.Settled ∧ w.Persists w' := by
  induction hrun with
  | refl => exact ⟨h, .refl w⟩
  | tail _ hstep ih =>
    obtain ⟨hsettled, hpersists⟩ := ih
    obtain ⟨source, operation⟩ := hstep
    have hchange := change_perform source hsettled.slots operation
    exact ⟨hsettled.change hchange, hpersists.trans (hsettled.persists hchange)⟩

/-- No rule changes the position of a party. -/
theorem position_eq_of_run (h : w.Settled) (hrun : Relation.ReflTransGen Step w w') :
    w'.position = w.position := by
  induction hrun with
  | refl => rfl
  | tail hrun hstep ih =>
    obtain ⟨source, operation⟩ := hstep
    refine Eq.trans ?_ ih
    have hchange := change_perform source (h.run hrun).1.slots operation
    generalize ((operation.perform _).run source).1 = left at hchange ⊢
    cases hchange with
    | unchanged | assigned | stored | signed => rfl
    | checked _ _ hcore =>
      obtain rfl | ⟨failure, rfl⟩ | ⟨rfl, _⟩ := hcore <;> rfl
    | publishedOwn _ hcore => exact (Participant.parameters_eq_of_run hcore).2
    | published hcore | keyed hcore | onCore hcore => exact hcore.parameters_eq.2

end Settled

omit [Suite K] in
theorem settled_create {parties : Int} {core : Participant K} (hcore : core.Settled) :
    Yields (create parties core) Settled := by
  rw [create]
  split
  · exact .error
  · exact .pure ⟨hcore, fun _ hkey => absurd hkey List.not_mem_nil, by rintro key share ⟨⟩⟩

theorem Reachable.settled {w : WeightedParty K} (h : w.Reachable) : w.Settled := by
  induction h with
  | created hcore h => exact settled_create hcore.settled _ h
  | performed source operation _ ih => exact ih.change (change_perform source ih.slots operation)

end WeightedParty

/-- Whatever operations are performed on a participant or on a weighted party, and whatever comes of
them, what is recorded stays recorded. -/
theorem persists_of_run :
    (∀ p p' : Participant K, p.Reachable → Relation.ReflTransGen Participant.Step p p' →
      p.Persists p') ∧
    ∀ w w' : WeightedParty K, w.Reachable → Relation.ReflTransGen WeightedParty.Step w w' →
      w.Persists w' :=
  ⟨fun _ _ hp hrun => (hp.settled.run hrun).2, fun _ _ hw hrun => (hw.settled.run hrun).2⟩

namespace Participant

/-- The first of three participants, which fails when it is to publish the image of another signing
share than its own. -/
def trioFailed : Participant ResidueKey :=
  ((((trio.dealShares.2.receiveShares (.ofInbox (trioShares 1))).2.advance
    .sharesVerified).computeSigningShare.2.publishOwnShare none none).2.publishOwnShare (some 1)
      none).2

theorem reachable_trioFailed : trioFailed.Reachable :=
  .performed (Tape.new [] [] "") (.publishOwnShare (some 1) none)
    (.performed (Tape.new [] [] "") (.publishOwnShare none none)
      (.performed (Tape.new [] [] "") .computeSigningShare
        (.performed (Tape.new [] [] "") (.advance .sharesVerified)
          (.performed (Tape.new [] [] "") (.receiveShares (.ofInbox (trioShares 1)))
            (.performed (Tape.new [] [] "") .dealShares reachable_trio)))))

end Participant

namespace WeightedParty

/-- The first of three parties, which has the shares for two keys and counts them as verified. -/
def trioFilled : WeightedParty ResidueKey :=
  ((((⟨3, Participant.trio.dealShares.2.advance .sharesVerified, .empty, .empty, .empty, .empty⟩ :
    WeightedParty ResidueKey).assignKeys [1, 2]).2.storeShares 1
      (.ofInbox (Participant.trioShares 1))).2.storeShares 2
        (.ofInbox (Participant.trioShares 2))).2

theorem reachable_trioFilled : trioFilled.Reachable := by
  have hcore : (Participant.trio.dealShares.2.advance .sharesVerified).Reachable :=
    .performed (Tape.new [] [] "") (.advance .sharesVerified)
      (.performed (Tape.new [] [] "") .dealShares Participant.reachable_trio)
  exact .performed (Tape.new [] [] "") (.storeShares 2 (.ofInbox (Participant.trioShares 2)))
    (.performed (Tape.new [] [] "") (.storeShares 1 (.ofInbox (Participant.trioShares 1)))
      (.performed (Tape.new [] [] "") (.assignKeys [1, 2])
        (.created hcore (show create 3 _ = .ok _ from rfl))))

/-- The same party once it has computed the signing shares of both keys. -/
def trioSigned : WeightedParty ResidueKey :=
  { trioFilled with
    core := trioFilled.core.advance .signingShareComputed
    signingShares := .ofList [(1, .ofInt 21), (2, .ofInt 36)]
    slotStages := .ofList [(1, .signingShareComputed), (2, .signingShareComputed)] }

theorem reachable_trioSigned : trioSigned.Reachable := by
  have hsorted : trioFilled.keys.sorted = [1, 2] := List.mergeSort_of_pairwise (by decide)
  have hsigned : trioFilled.computeSigningShares = (.ok [(1, 21), (2, 36)], trioSigned) := by
    rw [computeSigningShares, hsorted]
    rfl
  have hreachable : trioFilled.computeSigningShares.2.Reachable :=
    .performed (Tape.new [] [] "") .computeSigningShares reachable_trioFilled
  rwa [hsigned] at hreachable

end WeightedParty

/-- A participant and a party that have failed keep their shares, whatever they are told to do. -/
theorem exists_persists_of_run :
    ∃ (p p' : Participant ResidueKey) (w w' : WeightedParty ResidueKey),
      p.Reachable ∧ p.aborted = true ∧ p.sharesOut.get? 3 = some 13 ∧ p.signingShare = some 21 ∧
      (p.publicShares.get? 1).isSome ∧ Relation.ReflTransGen Participant.Step p p' ∧
      p'.stage = .groupKeyDerived ∧ p.Persists p' ∧
      w.Reachable ∧ w.core.aborted = true ∧ w.signingShares.get? 2 = some 36 ∧
      w.slotStages.get? 2 = some .signingShareComputed ∧
      Relation.ReflTransGen WeightedParty.Step w w' ∧ 3 ∈ w'.keys ∧ w.Persists w' := by
  have hp := Participant.reachable_trioFailed
  have hrun : Relation.ReflTransGen Participant.Step Participant.trioFailed _ :=
    .tail (.tail (.single (.perform (Tape.new [] [] "") (.receiveShares (.ofInbox .empty)) _))
      (.perform (Tape.new [] [] "") .computeSigningShare _))
        (.perform (Tape.new [] [] "") (.advance .groupKeyDerived) _)
  have hw := WeightedParty.reachable_trioSigned.performed (Tape.new [] [] "")
    (.onCore (.abort (.state .inboxClosed)))
  have hfill := fun w : WeightedParty ResidueKey => Relation.ReflTransGen.tail (.tail (.single
    (.perform (Tape.new [] [] "") (.assignKeys [3]) w))
      (.perform (Tape.new [] [] "") (.storeShares 2 (.ofInbox .empty)) _))
        (WeightedParty.Step.perform (Tape.new [] [] "") .computeSigningShares _)
  exact ⟨_, _, _, _, hp, rfl, rfl, rfl, rfl, hrun, rfl, persists_of_run.1 _ _ hp hrun, hw, rfl, rfl,
    rfl, hfill _, by decide, persists_of_run.2 _ _ hw (hfill _)⟩

end ThresholdKeygen
