import ThresholdKeygen.Proofs.Participant.Keys
import ThresholdKeygen.WeightedParty

/-!
# Slots of weighted parties

What the operations of a weighted party do to its slots when its participant is honest. Beside the
participant each of them changes few fields, which its statement names.
-/

namespace ThresholdKeygen.WeightedParty

variable {K : Type} [Suite K] {σ : Type}

/-- The stage of a slot. -/
def stageAt (slotStages : Mapping Int Stage) (key : Int) : Stage :=
  (slotStages.get? key).getD .created

/-- That some slots have moved forward to a stage, and all others are where they were. -/
def Raises (stage : Stage) (keys : List Int) (slotStages slotStages' : Mapping Int Stage) : Prop :=
  ∀ key, stageAt slotStages' key =
    if key ∈ keys then (stageAt slotStages key).later stage else stageAt slotStages key

namespace Raises

variable {stage : Stage} {key : Int} {keys : List Int} {slots slots' slots'' : Mapping Int Stage}

theorem nil (stage : Stage) (slots : Mapping Int Stage) : Raises stage [] slots slots :=
  fun _ => (if_neg List.not_mem_nil).symm

theorem le (h : Raises stage keys slots slots') (key : Int) :
    stageAt slots key ≤ stageAt slots' key := by
  rw [h]
  split
  · exact Stage.le_later_left _ _
  · exact Nat.le_refl _

theorem reached (h : Raises stage keys slots slots') (hkey : key ∈ keys) :
    stage ≤ stageAt slots' key := by
  rw [h, if_pos hkey]
  exact Stage.le_later_right _ _

theorem eq_of_notMem (h : Raises stage keys slots slots') (hkey : key ∉ keys) :
    stageAt slots' key = stageAt slots key := by
  rw [h, if_neg hkey]

theorem cons (h : Raises stage [key] slots slots') (h' : Raises stage keys slots' slots'') :
    Raises stage (key :: keys) slots slots'' := by
  intro j
  by_cases hj : j = key
  · subst hj
    have hreached := h.reached (List.mem_singleton.2 rfl)
    have hstage : stageAt slots' j = (stageAt slots j).later stage := by
      rw [h, if_pos (List.mem_singleton.2 rfl)]
    rw [if_pos (.head _), h', Stage.later_eq_left hreached, ite_self, hstage]
  · have hsame := h.eq_of_notMem (mt List.mem_singleton.1 hj)
    rw [h', hsame]
    simp [hj]

end Raises

/-- That a slot has the shares which all dealers deal to it. -/
def Filled (s : Sharing) (inboxes : Mapping Int Delivery) (key : Int) : Prop :=
  ∃ inbox, inboxes.get? key = some (.ofInbox inbox) ∧ s.DealtTo key inbox

theorem Filled.exists_sum {s : Sharing} {inboxes : Mapping Int Delivery} {key : Int}
    (h : Filled s inboxes key) :
    ∃ delivery, inboxes.get? key = some delivery ∧ delivery.sum = .ok (s.value key) := by
  obtain ⟨inbox, hinbox, hdealt⟩ := h
  refine ⟨_, hinbox, ?_⟩
  rw [Delivery.sum, Delivery.toInbox?_ofInbox]
  exact congrArg Except.ok hdealt.sum_values

section Slots

omit [Suite K]

/-- Moving a slot forward changes nothing but the stages of slots. -/
theorem of_advanceSlot_eq_ok {w w' : WeightedParty K} {stage : Stage} {key : Int}
    (h : w.advanceSlot stage key = .ok w') : ∃ slotStages, w' = { w with slotStages } := by
  obtain ⟨current, -, hrest⟩ := bind_eq_ok_iff.1 h
  split at hrest
  · obtain ⟨_, -, hput⟩ := bind_eq_ok_iff.1 hrest
    exact ⟨_, (Except.ok.inj hput).symm⟩
  · exact ⟨_, (Except.ok.inj hrest).symm⟩

theorem core_advanceSlot {w w' : WeightedParty K} {stage : Stage} {key : Int}
    (h : w.advanceSlot stage key = .ok w') : w'.core = w.core := by
  obtain ⟨slotStages, rfl⟩ := of_advanceSlot_eq_ok h
  rfl

theorem core_advanceSlots (w : WeightedParty K) (stage : Stage) (keys : List Int) :
    (w.advanceSlots stage keys).2.core = w.core := by
  induction keys generalizing w with
  | nil => rfl
  | cons key rest ih =>
    rw [advanceSlots]
    cases hadvance : w.advanceSlot stage key with
    | error refusal => rfl
    | ok w' => exact (ih w').trans (core_advanceSlot hadvance)

variable {w : WeightedParty K} (hslots : ∀ key ∈ w.keys, key ∈ upTo w.core.n)

theorem requireOwned_eq {key : Int} (hkey : key ∈ w.keys) : w.requireOwned key = .ok () :=
  if_pos hkey

include hslots

theorem slotOf_eq {key : Int} (hkey : key ∈ w.keys) : w.slotOf key = .ok key := by
  obtain ⟨h₁, h₂⟩ := mem_upTo.1 (hslots key hkey)
  exact if_pos ⟨by omega, h₂⟩

theorem slotStage_eq {key : Int} (hkey : key ∈ w.keys) :
    w.slotStage key = .ok (stageAt w.slotStages key) := by
  rw [slotStage, requireOwned_eq hkey, ok_bind, slotOf_eq hslots hkey]
  rfl

theorem advanceSlot_eq (stage : Stage) {key : Int} (hkey : key ∈ w.keys) :
    ∃ slotStages, w.advanceSlot stage key = .ok { w with slotStages } ∧
      Raises stage [key] w.slotStages slotStages := by
  rw [advanceSlot, slotStage_eq hslots hkey, ok_bind, slotOf_eq hslots hkey]
  by_cases hstage : stageAt w.slotStages key < stage
  · refine ⟨w.slotStages.put key stage, if_pos hstage, fun j => ?_⟩
    rw [stageAt, Mapping.get?_put]
    simp only [List.mem_singleton]
    split
    · subst_vars
      rw [Stage.later, if_pos hstage]
      rfl
    · rfl
  · refine ⟨w.slotStages, if_neg hstage, fun j => ?_⟩
    simp only [List.mem_singleton]
    split
    · subst_vars
      rw [Stage.later, if_neg hstage]
    · rfl

theorem advanceSlots_eq (stage : Stage) {keys : List Int} (hkeys : ∀ key ∈ keys, key ∈ w.keys) :
    ∃ slotStages, w.advanceSlots stage keys = (.ok (), { w with slotStages }) ∧
      Raises stage keys w.slotStages slotStages := by
  induction keys generalizing w with
  | nil => exact ⟨w.slotStages, rfl, .nil _ _⟩
  | cons key rest ih =>
    obtain ⟨hkey, hrest⟩ := List.forall_mem_cons.1 hkeys
    obtain ⟨middle, hadvance, hraise⟩ := advanceSlot_eq hslots stage hkey
    obtain ⟨slotStages, hadvances, hraises⟩ := @ih { w with slotStages := middle } hslots hrest
    refine ⟨slotStages, ?_, hraise.cons hraises⟩
    rw [advanceSlots, hadvance]
    exact hadvances

theorem foldlM_advanceSlot_eq (stage : Stage) {keys : List Int}
    (hkeys : ∀ key ∈ keys, key ∈ w.keys) :
    ∃ slotStages, keys.foldlM (fun w key => w.advanceSlot stage key) w =
      .ok { w with slotStages } ∧ Raises stage keys w.slotStages slotStages := by
  induction keys generalizing w with
  | nil => exact ⟨w.slotStages, rfl, .nil _ _⟩
  | cons key rest ih =>
    obtain ⟨hkey, hrest⟩ := List.forall_mem_cons.1 hkeys
    obtain ⟨middle, hadvance, hraise⟩ := advanceSlot_eq hslots stage hkey
    obtain ⟨slotStages, hfold, hraises⟩ := @ih { w with slotStages := middle } hslots hrest
    exact ⟨slotStages, by rw [List.foldlM_cons, hadvance, ok_bind, hfold], hraise.cons hraises⟩

theorem inboxOf_eq {key : Int} (hkey : key ∈ w.keys) {delivery : Delivery}
    (hdelivery : w.inboxes.get? key = some delivery) : w.inboxOf key = .ok delivery := by
  rw [inboxOf, requireOwned_eq hkey, ok_bind, slotOf_eq hslots hkey, ok_bind, hdelivery]
  rfl

theorem signingShareOf_eq {key : Int} (hkey : key ∈ w.keys) :
    w.signingShareOf key = .ok (w.signingShares.get? key) := by
  rw [signingShareOf, requireOwned_eq hkey, ok_bind, slotOf_eq hslots hkey]
  rfl

end Slots

/-- A slot that is owned for the first time is where a slot starts. -/
theorem stageAt_assign (slotStages : Mapping Int Stage) (key j : Int) :
    stageAt (if (slotStages.get? key).isSome then slotStages else slotStages.put key .created) j =
      stageAt slotStages j := by
  split
  · rfl
  · rename_i hnone
    rw [stageAt, Mapping.get?_put]
    split
    · subst_vars
      rw [stageAt, Option.not_isSome_iff_eq_none.1 hnone]
      rfl
    · rfl

omit [Suite K] in
/-- A party is given keys, all of which are slots. -/
theorem assignKeys_eq (w : WeightedParty K) {keys : List Int}
    (hslots : ∀ key ∈ keys, key ∈ upTo w.core.n) :
    ∃ owned slotStages, w.assignKeys keys = (.ok (), { w with keys := owned, slotStages }) ∧
      (∀ key, key ∈ owned ↔ key ∈ w.keys ∨ key ∈ keys) ∧
      ∀ key, stageAt slotStages key = stageAt w.slotStages key := by
  induction keys generalizing w with
  | nil => exact ⟨w.keys, w.slotStages, rfl, by simp, fun _ => rfl⟩
  | cons key rest ih =>
    obtain ⟨hkey, hrest⟩ := List.forall_mem_cons.1 hslots
    rw [assignKeys, if_pos (mem_upTo.1 hkey)]
    obtain ⟨owned, slotStages, hassign, howned, hstages⟩ := ih { w with
      keys := w.keys.insert key
      slotStages := if (w.slotStages.get? key).isSome then w.slotStages
        else w.slotStages.put key .created } hrest
    refine ⟨owned, slotStages, hassign, fun j => ?_, fun j => ?_⟩
    · rw [howned, KeySet.mem_insert, List.mem_cons, or_assoc]
    · rw [hstages]
      exact stageAt_assign w.slotStages key j

/-! ### Shares -/

section Shares

variable {s : Sharing} {w : WeightedParty K} (hslots : ∀ key ∈ w.keys, key ∈ upTo w.core.n)

include hslots

omit [Suite K] in
/-- A slot that has not been verified receives shares of parties. -/
theorem storeShares_eq {key : Int} (hkey : key ∈ w.keys) (hfailure : w.core.failure = none)
    (hstage : stageAt w.slotStages key ≤ .sharesDistributed) {inbox : Inbox}
    (hinbox : ∀ i ∈ inbox.keys, 1 ≤ i ∧ i ≤ w.parties) :
    ∃ slotStages, w.storeShares key (.ofInbox inbox) = (.ok (),
      { w with inboxes := w.inboxes.put key (.ofInbox inbox), slotStages }) ∧
      ((∀ j, stageAt w.slotStages j ≤ .sharesDistributed) →
        ∀ j, stageAt slotStages j ≤ .sharesDistributed) := by
  have hopen : ¬ Stage.sharesVerified ≤ stageAt w.slotStages key := by
    intro hverified
    exact absurd (Stage.le_trans hverified hstage) (by decide)
  have hsenders : (Delivery.ofInbox inbox).keys.find? (fun i => ¬ (1 ≤ i ∧ i ≤ w.parties)) =
      none := by
    rw [List.find?_eq_none]
    intro i hi
    rw [Delivery.ofInbox, Mapping.keys_map] at hi
    simpa using hinbox i hi
  obtain ⟨slotStages, hadvance, hstages⟩ := advanceSlot_eq (w := { w with
    inboxes := w.inboxes.put key (.ofInbox inbox) }) hslots .sharesDistributed hkey
  refine ⟨slotStages, ?_, fun hall j => ?_⟩
  · rw [storeShares, requireOwned_eq hkey, ok_bind,
      Participant.requireStage_eq hfailure (Nat.zero_le _), ok_bind, slotStage_eq hslots hkey]
    simp only [ok_bind, if_neg hopen, hsenders, slotOf_eq hslots hkey, pure_eq_ok]
    rw [hadvance]
    rfl
  · rw [hstages]
    split
    · exact Stage.later_le (hall j) (Nat.le_refl _)
    · exact hall j

/-- A party verifies slots that have the shares of all parties. -/
theorem always_checkSlots [RandomSource σ] [LawfulSuite K] (hcore : w.core.Consistent s)
    {m : PowerMap} (hm : w.core.powerMap = some m)
    {keys : List Int} (hkeys : ∀ key ∈ keys, key ∈ w.keys)
    (hfilled : ∀ key ∈ keys, Filled s w.inboxes key) :
    Always (w.checkSlots keys : StateM σ _) fun answer =>
      ∃ slotStages, answer = (.ok [], { w with slotStages }) := by
  induction keys generalizing w with
  | nil => exact .pure ⟨w.slotStages, rfl⟩
  | cons key rest ih =>
    obtain ⟨hkey, hrest⟩ := List.forall_mem_cons.1 hkeys
    obtain ⟨⟨inbox, hinbox, hdealt⟩, hfilled⟩ := List.forall_mem_cons.1 hfilled
    obtain ⟨h₁, h₂⟩ := mem_upTo.1 (hslots key hkey)
    obtain ⟨middle, hadvance, -⟩ := advanceSlot_eq hslots .sharesVerified hkey
    have hcheck := hcore.succeeds_checkShares (σ := σ) hm hdealt h₁ h₂
    rw [checkSlots, inboxOf_eq hslots hkey hinbox]
    refine .bind (Always.mono hcheck ?_)
    rintro _ ⟨_, rfl, -⟩
    simp only [hadvance]
    exact @ih { w with slotStages := middle } hslots hcore hm hrest hfilled

theorem always_verifyShares [RandomSource σ] [LawfulSuite K] (hcore : w.core.Consistent s)
    {m : PowerMap} (hm : w.core.powerMap = some m)
    (hstage : .sharesDistributed ≤ w.core.stage)
    (hfilled : ∀ key ∈ w.keys, Filled s w.inboxes key) :
    Always (w.verifyShares : StateM σ _) fun answer => ∃ slotStages, answer = (.ok (),
      { w with slotStages, core := w.core.advance .sharesVerified }) := by
  have hcheck : Always (w.checkSlots w.keys.sorted : StateM σ _) _ :=
    always_checkSlots hslots hcore hm (fun key hkey => KeySet.mem_sorted.1 hkey)
      fun key hkey => hfilled key (KeySet.mem_sorted.1 hkey)
  rw [verifyShares, Participant.requireStage_eq hcore.failure_eq hstage]
  refine .bind (hcheck.mono ?_)
  rintro _ ⟨slotStages, rfl⟩
  exact .pure ⟨slotStages, rfl⟩

omit [Suite K] in
/-- A party computes the signing shares of its slots. -/
theorem computeSigningShares_eq (hfailure : w.core.failure = none)
    (hstage : .sharesVerified ≤ w.core.stage)
    {value : Int → Scalar} (hsums : ∀ key ∈ w.keys, ∃ delivery,
      w.inboxes.get? key = some delivery ∧ delivery.sum = .ok (value key)) :
    ∃ shares signingShares slotStages, w.computeSigningShares = (.ok shares,
      { w with signingShares, slotStages, core := w.core.advance .signingShareComputed }) ∧
      ∀ key ∈ w.keys, signingShares.get? key = some (value key) := by
  have hshares : (w.keys.sorted.mapM fun key => do return (key, ← (← w.inboxOf key).sum) :
      Except Error (List (Int × Scalar))) =
      .ok (w.keys.sorted.map fun key => (key, value key)) := by
    apply mapM_eq_ok
    intro key hkey
    rw [KeySet.mem_sorted] at hkey
    obtain ⟨delivery, hinbox, hsum⟩ := hsums key hkey
    rw [inboxOf_eq hslots hkey hinbox, ok_bind, hsum]
    rfl
  have hplaced : ((w.keys.sorted.map fun key => (key, value key)).mapM fun entry => do
      return (← w.slotOf entry.1, entry.2) : Except Error (List (Int × Scalar))) =
      .ok (w.keys.sorted.map fun key => (key, value key)) := by
    rw [List.mapM_map]
    apply mapM_eq_ok
    intro key hkey
    simp only [Function.comp_apply, slotOf_eq hslots (KeySet.mem_sorted.1 hkey), ok_bind]
    rfl
  have hkeys : (w.keys.sorted.map fun key => (key, value key)).map Prod.fst = w.keys.sorted := by
    simp [Function.comp_def]
  have hsigned : ∀ signingShares, ∃ slotStages, w.keys.sorted.foldlM
      (fun w key => w.advanceSlot .signingShareComputed key) { w with signingShares } =
        .ok { w with signingShares, slotStages } ∧
      Raises .signingShareComputed w.keys.sorted w.slotStages slotStages := fun signingShares =>
    @foldlM_advanceSlot_eq K { w with signingShares } hslots _ _
      fun key hkey => KeySet.mem_sorted.1 hkey
  obtain ⟨slotStages, hfold, -⟩ := hsigned
    (w.signingShares.putAll (w.keys.sorted.map fun key => (key, value key)))
  refine ⟨w.keys.sorted.map fun key => (key, value key),
    w.signingShares.putAll (w.keys.sorted.map fun key => (key, value key)), slotStages, ?_,
    fun key hkey => ?_⟩
  · rw [computeSigningShares, Participant.requireStage_eq hfailure hstage, ok_bind]
    simp only [hshares, hplaced, ok_bind, hkeys, hfold]
    rfl
  · rw [Mapping.get?_putAll, if_pos (KeySet.mem_sorted.2 hkey)]

end Shares

/-! ### The run of a verification -/

section Run

variable [RandomSource σ] {w w' : WeightedParty K} {key : Int} {rest : List Int}
  {delivery : Delivery} {source drawn : σ}

/-- A slot that passes moves forward before the next ones are checked. -/
theorem run_checkSlots_pass (hinbox : w.inboxOf key = .ok delivery)
    (hcheck : (w.core.checkShares delivery key).run.run source = (.ok (), drawn))
    (hadvance : w.advanceSlot .sharesVerified key = .ok w') :
    (w.checkSlots (key :: rest)).run source = (w'.checkSlots rest).run drawn := by
  rw [checkSlots, hinbox]
  dsimp only
  rw [StateT.run_bind, hcheck, hadvance]
  rfl

/-- A slot that fails is named before those behind it that fail. -/
theorem run_checkSlots_blame {refusal : Error} (hinbox : w.inboxOf key = .ok delivery)
    (hcheck : (w.core.checkShares delivery key).run.run source = (.error refusal, drawn))
    (hrefusal : refusal.isShareCheck = true) :
    (w.checkSlots (key :: rest)).run source =
      ((((w.checkSlots rest).run drawn).1.1.map ((key, refusal.offenders) :: ·),
        ((w.checkSlots rest).run drawn).1.2), ((w.checkSlots rest).run drawn).2) := by
  rw [checkSlots, hinbox]
  dsimp only
  rw [StateT.run_bind, hcheck]
  exact congrArg (fun m : StateM σ _ => m.run drawn) (if_pos hrefusal)

/-- A check that is refused otherwise is the last one. -/
theorem run_checkSlots_stop {refusal : Error} (hinbox : w.inboxOf key = .ok delivery)
    (hcheck : (w.core.checkShares delivery key).run.run source = (.error refusal, drawn))
    (hrefusal : ¬ refusal.isShareCheck = true) :
    (w.checkSlots (key :: rest)).run source = ((.error refusal, w), drawn) := by
  rw [checkSlots, hinbox]
  dsimp only
  rw [StateT.run_bind, hcheck]
  exact congrArg (fun m : StateM σ _ => m.run drawn) (if_neg hrefusal)

variable (hrequire : w.core.requireStage .sharesDistributed = .ok ())

include hrequire

theorem run_verifyShares_judged {failed : List (Int × List Int)}
    (hchecks : (w.checkSlots w.keys.sorted).run source = ((.ok failed, w'), drawn)) :
    w.verifyShares.run source = (w'.settleSlots failed, drawn) := by
  rw [verifyShares, hrequire]
  dsimp only
  rw [StateT.run_bind, hchecks]
  rfl

theorem run_verifyShares_stopped {refusal : Error}
    (hchecks : (w.checkSlots w.keys.sorted).run source = ((.error refusal, w'), drawn)) :
    w.verifyShares.run source = ((.error refusal, w'), drawn) := by
  rw [verifyShares, hrequire]
  dsimp only
  rw [StateT.run_bind, hchecks]
  rfl

end Run

/-! ### Public shares -/

section Keys

variable {s : Sharing} {w : WeightedParty K} (hslots : ∀ key ∈ w.keys, key ∈ upTo w.core.n)

include hslots

/-- A party publishes the images of the signing shares of slots. -/
theorem publishSlots_eq [LawfulSuite K] (hcore : w.core.Consistent s)
    (hstage : .signingShareComputed ≤ w.core.stage) {keys : List Int}
    (hkeys : ∀ key ∈ keys, key ∈ w.keys)
    (hsigned : ∀ key ∈ keys, w.signingShares.get? key = some (s.value key)) :
    w.publishSlots keys =
      (.ok (s.publicShares keys), { w with core := w.core.withPublicShares s keys }) := by
  induction keys generalizing w with
  | nil => rfl
  | cons key rest ih =>
    obtain ⟨hkey, hrest⟩ := List.forall_mem_cons.1 hkeys
    obtain ⟨hshare, hshares⟩ := List.forall_mem_cons.1 hsigned
    obtain ⟨h₁, h₂⟩ := mem_upTo.1 (hslots key hkey)
    have hpublish : w.core.publishOwnShare (some (s.value key)) (some key) =
        (.ok (Point.ofScalar (s.value key)), w.core.withPublicShares s [key]) :=
      hcore.publishOwnShare_eq hstage rfl h₁ h₂ rfl
    have hnext : (w.core.withPublicShares s [key]).Consistent s := by
      apply hcore.consistent_publicShares
      intro i hi
      rw [List.mem_singleton.1 hi]
      exact ⟨h₁, h₂⟩
    have hpublished := @ih { w with core := w.core.withPublicShares s [key] } hslots hnext hstage
      hrest hshares
    rw [publishSlots, slotOf_eq hslots hkey]
    simp only [hshare, hpublish, onCore, hpublished]
    rfl

/-- A party publishes the images of the signing shares of all its slots. -/
theorem publishOwnShares_eq [LawfulSuite K] (hcore : w.core.Consistent s)
    (hstage : .signingShareComputed ≤ w.core.stage)
    (hsigned : ∀ key ∈ w.keys, w.signingShares.get? key = some (s.value key)) :
    ∃ slotStages, w.publishOwnShares = (.ok (s.publicShares w.keys.sorted),
      { w with core := w.core.withPublicShares s w.keys.sorted, slotStages }) := by
  have hpublish := publishSlots_eq hslots hcore hstage
    (fun key hkey => KeySet.mem_sorted.1 hkey)
    fun key hkey => hsigned key (KeySet.mem_sorted.1 hkey)
  obtain ⟨slotStages, hadvance, -⟩ := @advanceSlots_eq K
    { w with core := w.core.withPublicShares s w.keys.sorted } hslots .publicSharesComputed _
    fun key hkey => KeySet.mem_sorted.1 hkey
  refine ⟨slotStages, ?_⟩
  rw [publishOwnShares, Participant.requireStage_eq hcore.failure_eq hstage]
  simp only [hpublish, hadvance]
  rfl

omit hslots in
/-- The group key is that of the participant, and all slots of the party are done. -/
theorem deriveGroupKey_eq {key : Point K} {p : Participant K}
    (hderive : w.core.deriveGroupKey = (.ok key, p)) (hslots : ∀ key ∈ w.keys, key ∈ upTo p.n) :
    ∃ slotStages, w.deriveGroupKey = (.ok key, { w with core := p, slotStages }) ∧
      ∀ key ∈ w.keys, stageAt slotStages key = .groupKeyDerived := by
  obtain ⟨slotStages, hadvance, hraise⟩ := @advanceSlots_eq K { w with core := p } hslots
    .groupKeyDerived _ fun key hkey => KeySet.mem_scan.1 hkey
  refine ⟨slotStages, ?_, fun key hkey => ?_⟩
  · rw [deriveGroupKey, hderive]
    simp only [onCore, hadvance]
    rfl
  · exact Stage.le_antisymm (Stage.le_groupKeyDerived _) (hraise.reached (KeySet.mem_scan.2 hkey))

end Keys

end ThresholdKeygen.WeightedParty
