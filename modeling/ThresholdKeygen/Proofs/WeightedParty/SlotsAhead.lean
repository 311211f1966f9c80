import ThresholdKeygen.Proofs.Participant.Progress
import ThresholdKeygen.Proofs.WeightedParty.VerifiedSlots

/-!
# Slots ahead of the participant

The participant of a party moves on when all slots of the party have. Main statement:
`slots_keep_ahead`, what a participant has reached, all slots have reached, as long as keys come
before the verification and the own public shares before those of others. Without these conditions
the participant can be ahead of a slot (`exists_slot_behind`).
-/

namespace ThresholdKeygen

variable {K : Type} [Suite K] {σ : Type} [RandomSource σ]

/-! ### The participant alone -/

namespace Participant

/-- That an operation does not bring a participant to a verification or beyond it. -/
def Operation.Early : Operation K → Prop
  | .advance _ | .verifyShares _ _ | .computeSigningShare | .publishShares _ | .deriveGroupKey =>
    False
  | _ => True

variable {source : σ} {operation : Operation K} {p p' : Participant K} {stage : Stage}

/-- What a participant has reached after such an operation, from a verification on, it had reached
before. -/
theorem Change.stage_le_of_early (h : Change source operation p p') (hearly : operation.Early)
    (hverified : .sharesVerified ≤ stage) (hreached : stage ≤ p'.stage) : stage ≤ p.stage := by
  have hlate : ∀ early, early < Stage.sharesVerified → ¬ stage ≤ early := fun early hlt hle =>
    absurd (Stage.le_trans hverified hle) (Nat.not_le.2 hlt)
  have hcaughtUp : ∀ q : Participant K, stage ≤ q.caughtUp.stage → stage ≤ q.stage := by
    intro q hq
    rw [caughtUp] at hq
    split at hq
    · exact Stage.le_of_le_later hq (hlate _ (by decide))
    · exact hq
  cases h with
  | repeated => exact hcaughtUp _ hreached
  | registered =>
    have hbefore := hcaughtUp _ hreached
    exact hbefore
  | dealt => exact Stage.le_of_le_later hreached (hlate _ (by decide))
  | unchanged | failed | received | preparedPowers | derivedJoint | derivedShareMap
  | importedJoint | importedShareMap | publishedOwn | aborted => exact hreached
  | verified | signed | published | keyed | advanced => exact hearly.elim

theorem stage_publishOwnShare (p : Participant K) (signingShare : Option Scalar)
    (index : Option Int) : (p.publishOwnShare signingShare index).2.stage = p.stage := by
  refine verifyAttempt_cases (Q := fun q => q.stage = p.stage) rfl (fun _ _ => rfl)
    (.bind fun _ _ => .bind fun _ _ => ?_)
  dsimp only
  split
  · refine .bind fun q hq => .pure ?_
    obtain ⟨-, rfl⟩ := p.yields_storePublicShares _ q hq
    rfl
  · exact .error

end Participant

namespace WeightedParty

/-! ### Operations on all slots -/

section Operations

variable {w : WeightedParty K}

theorem stage_publishSlots (w : WeightedParty K) (keys : List Int) :
    (w.publishSlots keys).2.core.stage = w.core.stage := by
  induction keys generalizing w with
  | nil => rfl
  | cons key rest ih =>
    rw [publishSlots]
    split
    · rfl
    split
    · rfl
    rename_i share _
    have hstage := w.core.stage_publishOwnShare (some share) (some key)
    rw [onCore]
    split
    · rename_i hpublish
      obtain ⟨-, rfl⟩ := Prod.mk.inj hpublish
      exact hstage
    · rename_i hpublish
      obtain ⟨-, rfl⟩ := Prod.mk.inj hpublish
      exact (ih _).trans hstage

/-- Who publishes the own public shares stays at its stage. -/
theorem stage_publishOwnShares (w : WeightedParty K) :
    w.publishOwnShares.2.core.stage = w.core.stage := by
  have hstage := w.stage_publishSlots w.keys.sorted
  rw [publishOwnShares]
  split
  · rfl
  split
  · rename_i hpublish
    rwa [hpublish] at hstage
  · rename_i hpublish
    rw [hpublish] at hstage
    exact (congrArg Participant.stage (core_advanceSlots _ _ _)).trans hstage

variable (hslots : ∀ key ∈ w.keys, key ∈ upTo w.core.n)

include hslots

omit [Suite K] in
/-- Who computes signing shares computes those of all slots. -/
theorem raises_computeSigningShares : w.computeSigningShares.2 = w ∨
    ∃ signingShares slotStages, w.computeSigningShares.2 =
        { w with signingShares, slotStages, core := w.core.advance .signingShareComputed } ∧
      Raises .signingShareComputed w.keys.sorted w.slotStages slotStages := by
  refine attempt_cases (Q := fun left => left = w ∨ ∃ signingShares slotStages, left =
      { w with signingShares, slotStages, core := w.core.advance .signingShareComputed } ∧
        Raises .signingShareComputed w.keys.sorted w.slotStages slotStages)
    (.inl rfl) (.bind fun _ _ => .bind fun shares hshares => ?_)
  have hkeys : shares.map Prod.fst = w.keys.sorted := by
    refine map_eq_of_mapM_eq_ok (fun key entry hentry => ?_) hshares
    obtain ⟨delivery, -, hrest⟩ := bind_eq_ok_iff.1 hentry
    obtain ⟨sum, -, heq⟩ := bind_eq_ok_iff.1 hrest
    rw [← Except.ok.inj heq]
  refine .bind fun slots _ => .bind fun left hleft => .pure (.inr ?_)
  obtain ⟨slotStages, hfold, hraise⟩ := @foldlM_advanceSlot_eq K
    { w with signingShares := w.signingShares.putAll slots } hslots .signingShareComputed
    w.keys.sorted fun key hkey => KeySet.mem_sorted.1 hkey
  rw [hkeys, hfold] at hleft
  obtain rfl := Except.ok.inj hleft
  exact ⟨_, slotStages, rfl, hraise⟩

/-- Who derives the group key is done with all slots, or nothing has changed. -/
theorem exists_deriveGroupKey : w.deriveGroupKey.2 = w ∨
    ∃ core slotStages, w.deriveGroupKey.2 = { w with core, slotStages } ∧ core.n = w.core.n ∧
      ∀ key ∈ w.keys, stageAt slotStages key = .groupKeyDerived := by
  have hn := (Participant.change_deriveGroupKey (Tape.new [] [] "") w.core).n_eq
  obtain ⟨answer, core, hderive⟩ : ∃ answer core, w.core.deriveGroupKey = (answer, core) :=
    ⟨_, _, rfl⟩
  rw [hderive] at hn
  cases answer with
  | error refusal =>
    obtain rfl := eq_of_attempt_eq_error hderive
    rw [deriveGroupKey, hderive]
    exact .inl rfl
  | ok key =>
    obtain ⟨slotStages, hleft, hdone⟩ := deriveGroupKey_eq hderive
      fun key hkey => hn ▸ hslots key hkey
    rw [hleft]
    exact .inr ⟨core, slotStages, rfl, hn, hdone⟩

end Operations

/-! ### Slots ahead -/

/-- That an operation gives no key to a party whose participant has come as far as a verification,
and brings the participant alone neither there nor beyond it. -/
def Guided (w : WeightedParty K) : Operation K → Prop
  | .assignKeys _ => ¬ .sharesVerified ≤ w.core.stage
  | .onCore operation => operation.Early
  | _ => True

/-- That moreover the public shares of other parties come after those of all slots. -/
def OwnFirst (w : WeightedParty K) (operation : Operation K) : Prop :=
  Guided w operation ∧ (operation = .publishShares →
    ∀ key ∈ w.keys, .publicSharesComputed ≤ stageAt w.slotStages key)

/-- A party whose keys are slots that have reached what its participant has reached, of some
stages. -/
structure Ahead (Due : Stage → Prop) (w : WeightedParty K) : Prop where
  slots : ∀ key ∈ w.keys, key ∈ upTo w.core.n
  reached : ∀ stage, Due stage → stage ≤ w.core.stage →
    ∀ key ∈ w.keys, stage ≤ stageAt w.slotStages key

namespace Ahead

variable {Due : Stage → Prop} {w w' : WeightedParty K} {operation : Operation K}

omit [Suite K] in
/-- Slots stay ahead when no slot goes back, and what the participant reaches is reached by all. -/
theorem move (h : Ahead Due w) (hkeys : w'.keys = w.keys) (hn : w'.core.n = w.core.n)
    (hle : ∀ key, stageAt w.slotStages key ≤ stageAt w'.slotStages key)
    (hnew : ∀ stage, Due stage → stage ≤ w'.core.stage → stage ≤ w.core.stage ∨
      ∀ key ∈ w.keys, stage ≤ stageAt w'.slotStages key) : Ahead Due w' where
  slots := by
    rw [hkeys, hn]
    exact h.slots
  reached stage hdue hstage := by
    rw [hkeys]
    obtain hbefore | hall := hnew stage hdue hstage
    · exact fun key hkey => Stage.le_trans (h.reached stage hdue hbefore key hkey) (hle key)
    · exact hall

omit [Suite K] in
/-- Slots stay ahead when the participant moves to a stage that all slots have reached. -/
theorem advance (h : Ahead Due w) (hkeys : w'.keys = w.keys) {target : Stage}
    (hcore : w'.core = w.core.advance target)
    (hle : ∀ key, stageAt w.slotStages key ≤ stageAt w'.slotStages key)
    (hall : ∀ key ∈ w.keys, target ≤ stageAt w'.slotStages key) : Ahead Due w' := by
  refine h.move hkeys (by rw [hcore]; rfl) hle fun stage _ hstage => ?_
  rw [hcore] at hstage
  by_cases htarget : stage ≤ target
  · exact .inr fun key hkey => Stage.le_trans htarget (hall key hkey)
  · exact .inl (Stage.le_of_le_later hstage htarget)

/-- Every guided operation keeps slots ahead, if the public shares of other parties come after those
of all slots, or nothing is said about this stage. -/
theorem perform (source : σ) (h : Ahead Due w) (hguided : Guided w operation)
    (hlate : ∀ stage, Due stage → .sharesVerified ≤ stage)
    (hown : operation = .publishShares → Due .publicSharesComputed →
      ∀ key ∈ w.keys, .publicSharesComputed ≤ stageAt w.slotStages key) :
    Ahead Due ((operation.perform w).run source).1 := by
  have hslots := h.slots
  cases operation with
  | assignKeys keys =>
    change Ahead Due (w.assignKeys keys).2
    obtain ⟨owned, slotStages, hassign, -, howned, -⟩ := w.exists_assignKeys keys
    rw [hassign]
    refine ⟨fun key hkey => ?_, fun stage hdue hstage => ?_⟩
    · exact (howned key hkey).elim (hslots key) id
    · exact absurd (Stage.le_trans (hlate stage hdue) hstage) hguided
  | storeShares key delivery =>
    change Ahead Due (w.storeShares key delivery).2
    have hchange := change_storeShares source hslots key delivery
    generalize (w.storeShares key delivery).2 = left at hchange ⊢
    cases hchange with
    | unchanged => exact h
    | stored _ hraise => exact h.move rfl rfl hraise.le fun _ _ => .inl
  | verifyShares =>
    change Ahead Due ((w.verifyShares : StateM σ _).run source).1.2
    have hchange := change_verifyShares source hslots
    generalize ((w.verifyShares : StateM σ _).run source).1.2 = left at hchange ⊢
    cases hchange with
    | unchanged => exact h
    | checked _ hraise hcore =>
      obtain rfl | ⟨failure, rfl⟩ | ⟨rfl, hall⟩ := hcore
      · exact h.move rfl rfl hraise.le fun _ _ => .inl
      · exact h.move rfl rfl hraise.le fun _ _ => .inl
      · exact h.advance rfl rfl hraise.le fun key hkey => hraise.reached (hall key hkey)
  | computeSigningShares =>
    change Ahead Due w.computeSigningShares.2
    obtain hsame | ⟨signingShares, slotStages, hleft, hraise⟩ :=
      raises_computeSigningShares hslots
    · rwa [hsame]
    rw [hleft]
    exact h.advance rfl rfl hraise.le fun key hkey =>
      hraise.reached (KeySet.mem_sorted.2 hkey)
  | publishOwnShares =>
    change Ahead Due w.publishOwnShares.2
    have hchange := change_publishOwnShares source hslots
    have hsame := w.stage_publishOwnShares
    generalize w.publishOwnShares.2 = left at hchange hsame ⊢
    cases hchange with
    | unchanged => exact h
    | publishedOwn _ hrun _ hraise =>
      exact h.move rfl (Participant.parameters_eq_of_run hrun).1 hraise.le
        fun stage _ hstage => .inl (hsame ▸ hstage)
  | publishShares =>
    change Ahead Due { w with core := (w.core.publishShares w.keys.members).2 }
    have hchange := Participant.change_publishShares source w.core w.keys.members
    refine h.move rfl hchange.n_eq (fun _ => Nat.le_refl _) fun stage hdue hstage => ?_
    generalize (w.core.publishShares w.keys.members).2 = core at hchange hstage
    cases hchange with
    | unchanged | failed => exact .inl hstage
    | published hsigned =>
      have hnext : Stage.publicSharesComputed.rank ≤ w.core.stage.rank + 1 :=
        Nat.succ_le_succ (Participant.of_requireStage_eq_ok hsigned).2
      obtain hbefore | rfl := (Stage.le_later_iff hnext).1 hstage
      · exact .inl hbefore
      · exact .inr (hown rfl hdue)
  | deriveGroupKey =>
    change Ahead Due w.deriveGroupKey.2
    obtain hsame | ⟨core, slotStages, hleft, hn, hdone⟩ := exists_deriveGroupKey hslots
    · rwa [hsame]
    rw [hleft]
    refine ⟨fun key hkey => hn ▸ hslots key hkey, fun stage _ _ key hkey => ?_⟩
    rw [hdone key hkey]
    exact Stage.le_groupKeyDerived stage
  | onCore early =>
    change Ahead Due { w with core := ((early.perform w.core).run source).1 }
    have hchange := Participant.change_perform source w.core early
    refine h.move rfl hchange.n_eq (fun _ => Nat.le_refl _) fun stage hdue hstage => .inl ?_
    exact hchange.stage_le_of_early hguided (hlate stage hdue) hstage

end Ahead

omit [Suite K] in
theorem ahead_create (Due : Stage → Prop) (parties : Int) (core : Participant K) :
    Yields (create parties core) (Ahead Due) := by
  rw [create]
  split
  · exact .error
  · exact .pure ⟨fun _ hkey => absurd hkey List.not_mem_nil,
      fun _ _ _ _ hkey => absurd hkey List.not_mem_nil⟩

theorem Traced.mono {Allowed Allowed' : WeightedParty K → Operation K → Prop}
    (himp : ∀ w operation, Allowed w operation → Allowed' w operation)
    {passed : List (Delivery × Int)} {w : WeightedParty K} (h : Traced Allowed passed w) :
    Traced Allowed' passed w := by
  induction h with
  | created hcore h => exact .created hcore h
  | performed source operation _ hallowed ih =>
    exact ih.performed source operation (himp _ _ hallowed)

/-- Slots are ahead along every guided run, if the public shares of other parties come after those
of all slots, or nothing is said about this stage. -/
theorem Traced.ahead {Allowed : WeightedParty K → Operation K → Prop} {Due : Stage → Prop}
    (hguided : ∀ w operation, Allowed w operation → Guided w operation)
    (hlate : ∀ stage, Due stage → .sharesVerified ≤ stage)
    (hown : Due .publicSharesComputed → ∀ w, Allowed w .publishShares →
      ∀ key ∈ w.keys, .publicSharesComputed ≤ stageAt w.slotStages key)
    {passed : List (Delivery × Int)} {w : WeightedParty K} (h : Traced Allowed passed w) :
    Ahead Due w := by
  induction h with
  | created hcore h => exact ahead_create Due _ _ _ h
  | @performed _ _ source operation _ w _ hallowed ih =>
    refine ih.perform source (hguided w operation hallowed) hlate ?_
    rintro rfl hdue
    exact hown hdue w hallowed

/-- That all slots have reached a stage, if the participant has. -/
def Leads (w : WeightedParty K) (stage : Stage) : Prop :=
  stage ≤ w.core.stage → ∀ key ∈ w.keys, ∃ reached, w.slotStage key = .ok reached ∧ stage ≤ reached

omit [Suite K] in
theorem Ahead.leads {Due : Stage → Prop} {w : WeightedParty K} (h : Ahead Due w) {stage : Stage}
    (hdue : Due stage) : w.Leads stage := fun hstage key hkey =>
  ⟨_, slotStage_eq h.slots hkey, h.reached stage hdue hstage key hkey⟩

/-- All slots have verified, signed and finished when the participant has, and published when the
participant has if those of others come after their own public shares. -/
theorem slots_keep_ahead :
    (∀ (passed : List (Delivery × Int)) (w : WeightedParty K), Traced Guided passed w →
      ∀ stage ∈ [Stage.sharesVerified, .signingShareComputed, .groupKeyDerived],
        w.Leads stage) ∧
    ∀ (passed : List (Delivery × Int)) (w : WeightedParty K), Traced OwnFirst passed w →
      ∀ stage, .sharesVerified ≤ stage → w.Leads stage := by
  constructor
  · intro passed w htraced stage hdue
    have hahead : Ahead (· ∈ [Stage.sharesVerified, .signingShareComputed, .groupKeyDerived]) w :=
      htraced.ahead (fun _ _ h => h) (by decide) fun hdue => absurd hdue (by decide)
    exact hahead.leads hdue
  · intro passed w htraced stage hdue
    have hahead : Ahead (.sharesVerified ≤ ·) w :=
      htraced.ahead (fun _ _ h => h.1) (fun _ h => h) fun _ _ h => h.2 rfl
    exact hahead.leads hdue

/-- The only party of a run goes through the whole run with one slot. -/
theorem exists_slots_keep_ahead : ∃ passed, ∃ w : WeightedParty ResidueKey,
    Traced Guided passed w ∧ Traced OwnFirst passed w ∧ w.core.stage = .groupKeyDerived ∧
      1 ∈ w.keys ∧
      (∀ stage ∈ [Stage.sharesVerified, .signingShareComputed, .groupKeyDerived],
        w.Leads stage) ∧
      ∀ stage, .sharesVerified ≤ stage → w.Leads stage := by
  have hassigned : Traced OwnFirst _ _ :=
    traced_lone.performed (Tape.new [] [] "") (.assignKeys [1])
      ⟨show ¬ Stage.sharesVerified ≤ lone.core.stage by decide, by rintro ⟨⟩⟩
  have hfilled := hassigned.performed (Tape.new [] [] "")
    (.storeShares 1 (.ofInbox (.ofList [(1, 1)]))) ⟨trivial, by rintro ⟨⟩⟩
  have hdealt := hfilled.performed (Tape.new [] [] "") (.onCore .dealShares)
    ⟨trivial, by rintro ⟨⟩⟩
  have hpowers := hdealt.performed (Tape.new [] [] "") (.onCore .derivePowerMap)
    ⟨trivial, by rintro ⟨⟩⟩
  have hverified := hpowers.performed (Tape.new [] [] "") .verifyShares ⟨trivial, by rintro ⟨⟩⟩
  have hsigned := hverified.performed (Tape.new [] [] "") .computeSigningShares
    ⟨trivial, by rintro ⟨⟩⟩
  have hjoint := hsigned.performed (Tape.new [] [] "") (.onCore .deriveJoint)
    ⟨trivial, by rintro ⟨⟩⟩
  have hown := hjoint.performed (Tape.new [] [] "") .publishOwnShares ⟨trivial, by rintro ⟨⟩⟩
  have hpublished := hown.performed (Tape.new [] [] "") .publishShares
    ⟨trivial, fun _ => by decide +kernel⟩
  have hdone := hpublished.performed (Tape.new [] [] "") .deriveGroupKey ⟨trivial, by rintro ⟨⟩⟩
  have hguided := hdone.mono fun _ _ h => h.1
  exact ⟨_, _, hguided, hdone, by decide +kernel, by decide +kernel,
    slots_keep_ahead.1 _ _ hguided, slots_keep_ahead.2 _ _ hdone⟩

/-- That an operation gives no key to a party that has stored shares, and is one on the party, or
one by which its participant exchanges commitments, deals or derives maps. -/
def Orderly (w : WeightedParty K) : Operation K → Prop
  | .assignKeys _ => w.inboxes.keys = []
  | .onCore (.receivePublication _ _) | .onCore .dealShares | .onCore .derivePowerMap
  | .onCore .deriveJoint | .onCore .deriveShareMap | .onCore (.importJoint _ _)
  | .onCore (.importShareMap _ _) => True
  | .onCore _ => False
  | _ => True

/-- A party that publishes the shares of others first is behind with its own slot, and so is one
that is given a slot after it has verified all of none. -/
theorem exists_slot_behind :
    (∃ passed, ∃ w : WeightedParty ResidueKey, Traced Orderly passed w ∧
      w.core.stage = .publicSharesComputed ∧ w.slotStage 1 = .ok .signingShareComputed) ∧
    ∃ passed, ∃ w : WeightedParty ResidueKey, Traced Orderly passed w ∧
      w.core.stage = .sharesVerified ∧ w.slotStage 1 = .ok .created := by
  constructor
  · have hassigned : Traced Orderly _ _ :=
      traced_lone.performed (Tape.new [] [] "") (.assignKeys [1]) rfl
    have hfilled := hassigned.performed (Tape.new [] [] "")
      (.storeShares 1 (.ofInbox (.ofList [(1, 1)]))) trivial
    have hdealt := hfilled.performed (Tape.new [] [] "") (.onCore .dealShares) trivial
    have hpowers := hdealt.performed (Tape.new [] [] "") (.onCore .derivePowerMap) trivial
    have hverified := hpowers.performed (Tape.new [] [] "") .verifyShares trivial
    have hsigned := hverified.performed (Tape.new [] [] "") .computeSigningShares trivial
    have hjoint := hsigned.performed (Tape.new [] [] "") (.onCore .deriveJoint) trivial
    have hpublished := hjoint.performed (Tape.new [] [] "") .publishShares trivial
    exact ⟨_, _, hpublished, by decide +kernel, eq_ok_of_toOption (by decide +kernel)⟩
  · have hdealt : Traced Orderly _ _ :=
      traced_lone.performed (Tape.new [] [] "") (.onCore .dealShares) trivial
    have hverified := hdealt.performed (Tape.new [] [] "") .verifyShares trivial
    have hassigned := hverified.performed (Tape.new [] [] "") (.assignKeys [1])
      (show _ = [] by decide +kernel)
    exact ⟨_, _, hassigned, by decide +kernel, eq_ok_of_toOption (by decide +kernel)⟩

end WeightedParty

end ThresholdKeygen
