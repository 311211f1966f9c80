import ThresholdKeygen.Proofs.WeightedParty.Persistence

/-!
# Signing shares and checked slots

Runs of weighted parties with a record of the checks that pass. Main statement:
`Traced.exists_passed`, the signing share of a slot is the sum of a delivery that has passed a check
for this slot, as long as no key comes after the verification and nothing but the verification of
all slots moves the participant so far. Without this condition a slot may be signed whose shares
nobody has checked (`exists_slot_signed_unchecked`).
-/

namespace ThresholdKeygen.WeightedParty

variable {K : Type} [Suite K] {σ : Type} [RandomSource σ]

/-- The checks that pass in an operation: what is checked, and for which slot. -/
def Operation.passed (source : σ) (w : WeightedParty K) : Operation K → List (Delivery × Int)
  | .verifyShares => w.passedSlots source
  | _ => []

/-- The parties to which allowed operations lead, with a record of the checks that have passed. -/
inductive Traced (Allowed : WeightedParty K → Operation K → Prop) :
    List (Delivery × Int) → WeightedParty K → Prop where
  | created {parties : Int} {core : Participant K} {w : WeightedParty K} (hcore : core.Reachable)
      (h : create parties core = .ok w) : Traced Allowed [] w
  | performed {σ : Type} [RandomSource σ] (source : σ) (operation : Operation K)
      {passed : List (Delivery × Int)} {w : WeightedParty K} (h : Traced Allowed passed w)
      (hallowed : Allowed w operation) :
      Traced Allowed (operation.passed source w ++ passed) ((operation.perform w).run source).1

/-- That an operation is one on the party, or one by which its participant exchanges commitments and
shares or derives the power map. -/
def OfProtocol (_ : WeightedParty K) : Operation K → Prop
  | .onCore (.receivePublication _ _) | .onCore .dealShares | .onCore (.receiveShares _)
  | .onCore .derivePowerMap => True
  | .onCore _ => False
  | _ => True

/-- That an operation gives no key to a party whose participant has come as far as a verification,
and brings the participant there in no other way than by verifying all slots. -/
def KeysFirst (w : WeightedParty K) : Operation K → Prop
  | .assignKeys _ => ¬ .sharesVerified ≤ w.core.stage
  | .onCore (.advance _) => False
  | .onCore (.verifyShares _ _) => .sharesVerified ≤ w.core.stage
  | _ => True

/-- A party whose keys are slots, for whose verified slots and signing shares there are records. -/
structure Backed (passed : List (Delivery × Int)) (w : WeightedParty K) : Prop where
  slots : ∀ key ∈ w.keys, key ∈ upTo w.core.n
  exists_inbox : ∀ key, .sharesVerified ≤ stageAt w.slotStages key →
    ∃ delivery, w.inboxes.get? key = some delivery ∧ (delivery, key) ∈ passed
  all_verified : .sharesVerified ≤ w.core.stage →
    ∀ key ∈ w.keys, .sharesVerified ≤ stageAt w.slotStages key
  exists_sum : ∀ key share, w.signingShares.get? key = some share →
    ∃ delivery, (delivery, key) ∈ passed ∧ delivery.sum = .ok share

namespace Backed

variable {passed : List (Delivery × Int)} {w w' : WeightedParty K} {source : σ}
  {operation : Operation K}

omit [Suite K] in
theorem append (h : Backed passed w) (more : List (Delivery × Int)) :
    Backed (more ++ passed) w where
  slots := h.slots
  exists_inbox key hstage := by
    obtain ⟨delivery, hinbox, hmem⟩ := h.exists_inbox key hstage
    exact ⟨delivery, hinbox, List.mem_append_right _ hmem⟩
  all_verified := h.all_verified
  exists_sum key share hshare := by
    obtain ⟨delivery, hmem, hsum⟩ := h.exists_sum key share hshare
    exact ⟨delivery, List.mem_append_right _ hmem, hsum⟩

omit [Suite K] in
/-- Slots that are owned may move forward once the participant has been verified. -/
theorem raise (h : Backed passed w) {core : Participant K} (hn : core.n = w.core.n)
    (hcore : .sharesVerified ≤ core.stage → .sharesVerified ≤ w.core.stage)
    {stage : Stage} {keys : List Int} {slotStages : Mapping Int Stage}
    (hraise : Raises stage keys w.slotStages slotStages)
    (hkeys : ∀ key ∈ keys, key ∈ w.keys ∧ .sharesVerified ≤ w.core.stage) :
    Backed passed { w with core, slotStages } where
  slots key hkey := by
    rw [hn]
    exact h.slots key hkey
  exists_inbox key hstage := by
    by_cases hkey : key ∈ keys
    · obtain ⟨howned, hverified⟩ := hkeys key hkey
      exact h.exists_inbox key (h.all_verified hverified key howned)
    · rw [hraise.eq_of_notMem hkey] at hstage
      exact h.exists_inbox key hstage
  all_verified hstage key hkey :=
    Stage.le_trans (h.all_verified (hcore hstage) key hkey) (hraise.le key)
  exists_sum := h.exists_sum

/-- Every rule keeps the records of a party complete. -/
theorem change (h : Backed passed w) (hallowed : KeysFirst w operation)
    (hchange : Change source operation w w') : Backed (operation.passed source w ++ passed) w' := by
  cases hchange with
  | unchanged => exact h.append _
  | assigned _ hslots hstages =>
    refine ⟨fun key hkey => ?_, fun key hstage => ?_, fun hstage => absurd hstage hallowed,
      h.exists_sum⟩
    · rcases hslots key hkey with hold | hslot
      · exact h.slots key hold
      · exact hslot
    · rw [hstages] at hstage
      exact h.exists_inbox key hstage
  | @stored _ filled delivery _ hopen hraise =>
    refine ⟨h.slots, fun key hstage => ?_, fun hstage key hkey =>
      Stage.le_trans (h.all_verified hstage key hkey) (hraise.le key), h.exists_sum⟩
    have hbefore : .sharesVerified ≤ stageAt w.slotStages key := by
      by_cases hkey : key ∈ [filled]
      · rw [hraise, if_pos hkey] at hstage
        exact Stage.le_of_le_later hstage (by decide)
      · rwa [hraise.eq_of_notMem hkey] at hstage
    have hne : key ≠ filled := by
      rintro rfl
      exact hopen hbefore
    rw [Mapping.get?_put, if_neg hne]
    exact h.exists_inbox key hbefore
  | checked hpassed hraise hcore =>
    refine ⟨fun key hkey => ?_, fun key hstage => ?_, fun hstage key hkey => ?_,
      (h.append _).exists_sum⟩
    · obtain rfl | ⟨failure, rfl⟩ | ⟨rfl, _⟩ := hcore <;> exact h.slots key hkey
    · by_cases hkey : key ∈ (w.passedSlots source).map Prod.snd
      · obtain ⟨⟨delivery, _⟩, hmem, rfl⟩ := List.mem_map.1 hkey
        exact ⟨delivery, (hpassed delivery _ hmem).1, List.mem_append_left _ hmem⟩
      · rw [hraise.eq_of_notMem hkey] at hstage
        exact (h.append _).exists_inbox key hstage
    · obtain rfl | ⟨failure, rfl⟩ | ⟨rfl, hall⟩ := hcore
      · exact Stage.le_trans (h.all_verified hstage key hkey) (hraise.le key)
      · exact Stage.le_trans (h.all_verified hstage key hkey) (hraise.le key)
      · exact hraise.reached (hall key hkey)
  | @signed _ shares slotStages hstage hshares hraise =>
    have hverified := (Participant.of_requireStage_eq_ok hstage).2
    have hn : (w.core.advance .signingShareComputed).n = w.core.n := rfl
    have hraised := h.raise hn (fun _ => hverified) hraise fun key hkey => by
      obtain ⟨entry, hentry, rfl⟩ := List.mem_map.1 hkey
      exact ⟨(hshares entry.1 entry.2 hentry).1, hverified⟩
    refine { hraised with exists_sum := fun key share hshare => ?_ }
    obtain hsame | ⟨again, hmem, hagain⟩ := w.signingShares.get?_putAll_eq_or_mem shares key
    · exact h.exists_sum key share (hsame.symm.trans hshare)
    · -- The participant has been verified, hence the slot, and its inbox is the one that passed.
      obtain rfl := Option.some.inj (hagain.symm.trans hshare)
      obtain ⟨hkey, delivery, hinbox, hsum⟩ := hshares key again hmem
      obtain ⟨_, hinbox', hmem'⟩ := h.exists_inbox key (h.all_verified hverified key hkey)
      obtain rfl := Option.some.inj (hinbox.symm.trans hinbox')
      exact ⟨delivery, hmem', hsum⟩
  | publishedOwn hstage hcore hkeys hraise =>
    have hverified : .sharesVerified ≤ w.core.stage :=
      Stage.le_trans (by decide) (Participant.of_requireStage_eq_ok hstage).2
    exact h.raise (Participant.parameters_eq_of_run hcore).1 (fun _ => hverified) hraise
      fun key hkey => ⟨hkeys key hkey, hverified⟩
  | published hcore =>
    refine h.raise hcore.n_eq (fun hstage => ?_) (.nil .created _) (by simp)
    obtain hverified | ⟨_, ⟨⟩⟩ | ⟨_, _, ⟨⟩, _⟩ := hcore.verifies hstage
    exact hverified
  | keyed hcore hkeys hraise =>
    refine h.raise hcore.n_eq (fun hstage => ?_) hraise fun key hkey => ?_
    · obtain hverified | ⟨_, ⟨⟩⟩ | ⟨_, _, ⟨⟩, _⟩ := hcore.verifies hstage
      exact hverified
    · obtain ⟨howned, hstage⟩ := hkeys key hkey
      exact ⟨howned, Stage.le_trans (by decide) hstage⟩
  | onCore hcore =>
    refine h.raise hcore.n_eq (fun hstage => ?_) (.nil .created _) (by simp)
    obtain hverified | ⟨_, rfl⟩ | ⟨_, _, rfl, _⟩ := hcore.verifies hstage
    · exact hverified
    · exact hallowed.elim
    · exact hallowed

end Backed

omit [Suite K] in
theorem backed_create (parties : Int) (core : Participant K) :
    Yields (create parties core) (Backed []) := by
  rw [create]
  split
  · exact .error
  · refine .pure ⟨fun _ hkey => absurd hkey List.not_mem_nil, fun key hstage => ?_,
      fun _ _ hkey => absurd hkey List.not_mem_nil, by rintro key share ⟨⟩⟩
    exact absurd (show Stage.sharesVerified ≤ Stage.created from hstage) (by decide)

theorem Traced.backed {passed : List (Delivery × Int)} {w : WeightedParty K}
    (h : Traced KeysFirst passed w) : Backed passed w := by
  induction h with
  | created hcore h => exact backed_create _ _ _ h
  | performed source operation _ hallowed ih =>
    exact ih.change hallowed (change_perform source ih.slots operation)

/-- The signing share of a slot is the sum of a delivery that has passed a check for this slot, when
keys come before the verification of all slots. -/
theorem Traced.exists_passed {passed : List (Delivery × Int)} {w : WeightedParty K}
    (h : Traced KeysFirst passed w) {key : Int} {share : Scalar}
    (hshare : w.signingShareOf key = .ok (some share)) :
    ∃ delivery, (delivery, key) ∈ passed ∧ delivery.sum = .ok share := by
  have hbacked := h.backed
  obtain ⟨_, howned, -⟩ := bind_eq_ok_iff.1 hshare
  rw [signingShareOf_eq hbacked.slots (of_requireOwned_eq_ok howned)] at hshare
  exact hbacked.exists_sum key share (Except.ok.inj hshare)

/-- The only party of a run with two slots. -/
def lone : WeightedParty ResidueKey :=
  ⟨1, .newcomer 2 1 1 1 (.bytes []) [1], .empty, .empty, .empty, .empty⟩

theorem traced_lone {Allowed : WeightedParty ResidueKey → Operation ResidueKey → Prop} :
    Traced Allowed [] lone :=
  .created (.created (Tape.new [[1]] [] "") 2 1 1 (some 1) (.bytes []) lone.core rfl)
    (show create 1 lone.core = .ok lone from rfl)

/-- The only party of a run verifies and signs one of its slots. -/
theorem exists_slot_passed : ∃ passed, ∃ w : WeightedParty ResidueKey,
    Traced KeysFirst passed w ∧ w.signingShareOf 1 = .ok (some 1) ∧
      ∃ delivery, (delivery, 1) ∈ passed ∧ delivery.sum = .ok 1 := by
  have hassigned : Traced KeysFirst _ _ :=
    traced_lone.performed (Tape.new [] [] "") (.assignKeys [1])
      (show ¬ Stage.sharesVerified ≤ lone.core.stage by decide)
  have hfilled := hassigned.performed (Tape.new [] [] "")
    (.storeShares 1 (.ofInbox (.ofList [(1, 1)]))) trivial
  have hdealt := hfilled.performed (Tape.new [] [] "") (.onCore .dealShares) trivial
  have hpowers := hdealt.performed (Tape.new [] [] "") (.onCore .derivePowerMap) trivial
  have hverified := hpowers.performed (Tape.new [] [] "") .verifyShares trivial
  have hsigned := hverified.performed (Tape.new [] [] "") .computeSigningShares trivial
  refine ⟨_, _, hsigned, ?_, @Traced.exists_passed _ _ _ _ hsigned 1 1 ?_⟩ <;>
    exact eq_ok_of_toOption (by decide +kernel)

/-- The party is given its other slot, and a share for it, after it has verified the first one. -/
theorem exists_spoiled : ∃ passed, ∃ w : WeightedParty ResidueKey, Traced OfProtocol passed w ∧
    2 ∉ passed.map Prod.snd ∧ w.core.failure.isNone ∧ .sharesVerified ≤ w.core.stage ∧
      w.core.n = 2 ∧ w.keys.members = [1, 2] ∧
      ∀ key ∈ [1, 2], (w.inboxes.get? key).bind (fun delivery => delivery.sum.toOption) =
        some (Scalar.ofInt key) := by
  have hassigned : Traced OfProtocol _ _ :=
    traced_lone.performed (Tape.new [] [] "") (.assignKeys [1]) trivial
  have hfilled := hassigned.performed (Tape.new [] [] "")
    (.storeShares 1 (.ofInbox (.ofList [(1, 1)]))) trivial
  have hdealt := hfilled.performed (Tape.new [] [] "") (.onCore .dealShares) trivial
  have hpowers := hdealt.performed (Tape.new [] [] "") (.onCore .derivePowerMap) trivial
  have hverified := hpowers.performed (Tape.new [] [] "") .verifyShares trivial
  have hlate := hverified.performed (Tape.new [] [] "") (.assignKeys [2]) trivial
  have hspoiled := hlate.performed (Tape.new [] [] "")
    (.storeShares 2 (.ofInbox (.ofList [(1, 2)]))) trivial
  exact ⟨_, _, hspoiled, by decide +kernel⟩

/-- After that it signs the slot with the share, which nobody has checked. -/
theorem exists_slot_signed_unchecked : ∃ passed, ∃ w : WeightedParty ResidueKey,
    Traced OfProtocol passed w ∧ w.signingShareOf 2 = .ok (some 2) ∧
      ∀ delivery, (delivery, 2) ∉ passed := by
  obtain ⟨passed, w, htraced, hpassed, hfailure, hstage, hn, hkeys, hinboxes⟩ := exists_spoiled
  have howned : ∀ key, key ∈ w.keys ↔ key ∈ [1, 2] := fun key => by rw [← hkeys]; rfl
  have hslots : ∀ key ∈ w.keys, key ∈ upTo w.core.n := by
    rw [hn]
    exact fun key hkey => (howned key).1 hkey
  obtain ⟨_, signingShares, slotStages, hsign, hvalues⟩ := computeSigningShares_eq hslots
    (Option.isNone_iff_eq_none.1 hfailure) hstage fun key hkey => by
      obtain ⟨delivery, hinbox, hsum⟩ :=
        Option.bind_eq_some_iff.1 (hinboxes key ((howned key).1 hkey))
      exact ⟨delivery, hinbox, eq_ok_of_toOption hsum⟩
  have hsigned := htraced.performed (Tape.new [] [] "") .computeSigningShares trivial
  refine ⟨_, _, hsigned, ?_, fun delivery hmem => hpassed (List.mem_map.2 ⟨_, hmem, rfl⟩)⟩
  have htwo : 2 ∈ w.keys := (howned 2).2 (by decide)
  change w.computeSigningShares.2.signingShareOf 2 = _
  rw [hsign]
  have hanswer := @signingShareOf_eq _ { w with
    signingShares, slotStages, core := w.core.advance .signingShareComputed } hslots 2 htwo
  exact hanswer.trans (congrArg _ (hvalues 2 htwo))

end ThresholdKeygen.WeightedParty
