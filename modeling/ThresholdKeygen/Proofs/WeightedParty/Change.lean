import ThresholdKeygen.Proofs.Participant.Persistence
import ThresholdKeygen.Proofs.WeightedParty

/-!
# Operations on weighted parties

The operations on weighted parties as data, among them all those on the participant of a party, and
the rules by which they change a party. Main statement: `change_perform`, every operation changes a
party whose keys are slots by one of the rules.
-/

namespace ThresholdKeygen

variable {K : Type} [Suite K] {σ : Type} [RandomSource σ]

namespace WeightedParty

/-- An operation on a weighted party, with what it is given. -/
inductive Operation (K : Type) where
  | assignKeys (keys : List Int)
  | storeShares (key : Int) (delivery : Delivery)
  | verifyShares
  | computeSigningShares
  | publishOwnShares
  | publishShares
  | deriveGroupKey
  | onCore (operation : Participant.Operation K)

/-- The party that an operation leaves behind, whether it refuses or not. -/
def Operation.perform (w : WeightedParty K) : Operation K → StateM σ (WeightedParty K)
  | assignKeys keys => return (w.assignKeys keys).2
  | storeShares key delivery => return (w.storeShares key delivery).2
  | verifyShares => return (← w.verifyShares).2
  | computeSigningShares => return w.computeSigningShares.2
  | publishOwnShares => return w.publishOwnShares.2
  | publishShares => return w.publishShares.2
  | deriveGroupKey => return w.deriveGroupKey.2
  | onCore operation => return { w with core := ← operation.perform w.core }

/-! ### Records of checks -/

/-- The checks of slots, with a record of the deliveries that pass, each with its slot. -/
def auditSlots (w : WeightedParty K) : List Int →
    StateM σ (List (Delivery × Int) × Answer (WeightedParty K) (List (Int × List Int)))
  | [] => return ([], .ok [], w)
  | key :: rest => do
    match w.inboxOf key with
    | .error refusal => return ([], .error refusal, w)
    | .ok delivery =>
      match ← (w.core.checkShares delivery key).run with
      | .ok () =>
        match w.advanceSlot .sharesVerified key with
        | .ok w =>
          let (passed, answer) ← auditSlots w rest
          return ((delivery, key) :: passed, answer)
        | .error refusal => return ([(delivery, key)], .error refusal, w)
      | .error refusal =>
        if refusal.isShareCheck then
          let (passed, failed, w) ← auditSlots w rest
          return (passed, failed.map ((key, refusal.offenders) :: ·), w)
        else return ([], .error refusal, w)

/-- The record takes nothing away from the checks and adds nothing to them. -/
theorem snd_auditSlots (w : WeightedParty K) (keys : List Int) :
    (do return (← w.auditSlots keys).2 : StateM σ _) = w.checkSlots keys := by
  induction keys generalizing w with
  | nil => rfl
  | cons key rest ih =>
    rw [auditSlots, checkSlots]
    cases w.inboxOf key with
    | error refusal => rfl
    | ok delivery =>
      dsimp only
      rw [bind_assoc]
      refine bind_congr fun checked => ?_
      cases checked with
      | ok _ =>
        dsimp only
        cases w.advanceSlot .sharesVerified key with
        | error refusal => rfl
        | ok w' =>
          dsimp only
          rw [← ih w', bind_assoc]
          rfl
      | error refusal =>
        dsimp only
        split
        · rw [← ih w, bind_assoc, bind_assoc]
          rfl
        · rfl

/-- The deliveries that pass in a verification, each with its slot, for the randomness that the
verification draws. -/
def passedSlots (source : σ) (w : WeightedParty K) : List (Delivery × Int) :=
  match w.core.requireStage .sharesDistributed with
  | .error _ => []
  | .ok () => ((w.auditSlots w.keys.sorted).run source).1.1

/-! ### The rules -/

/-- What an operation does to a party, with the conditions under which it does so. -/
inductive Change (source : σ) : Operation K → WeightedParty K → WeightedParty K → Prop where
  | unchanged (operation : Operation K) (w : WeightedParty K) : Change source operation w w
  | assigned {w : WeightedParty K} {keys : List Int} {owned : KeySet}
      {slotStages : Mapping Int Stage} (hkept : ∀ key ∈ w.keys, key ∈ owned)
      (hslots : ∀ key ∈ owned, key ∈ w.keys ∨ key ∈ upTo w.core.n)
      (hstages : ∀ key, stageAt slotStages key = stageAt w.slotStages key) :
      Change source (.assignKeys keys) w { w with keys := owned, slotStages }
  | stored {w : WeightedParty K} {key : Int} {delivery : Delivery}
      {slotStages : Mapping Int Stage} (hopen : ¬ .sharesVerified ≤ stageAt w.slotStages key)
      (hraise : Raises .sharesDistributed [key] w.slotStages slotStages) :
      Change source (.storeShares key delivery) w
        { w with inboxes := w.inboxes.put key delivery, slotStages }
  | checked {w : WeightedParty K} {slotStages : Mapping Int Stage} {core : Participant K}
      (hpassed : ∀ delivery key, (delivery, key) ∈ w.passedSlots source →
        w.inboxes.get? key = some delivery ∧
          ∃ drawn : σ, ((w.core.checkShares delivery key).run.run drawn).1 = .ok ())
      (hraise : Raises .sharesVerified ((w.passedSlots source).map Prod.snd) w.slotStages
        slotStages)
      (hcore : core = w.core ∨ (∃ failure, core = w.core.abort failure) ∨
        core = w.core.advance .sharesVerified ∧
          ∀ key ∈ w.keys, key ∈ (w.passedSlots source).map Prod.snd) :
      Change source .verifyShares w { w with core, slotStages }
  | signed {w : WeightedParty K} {shares : List (Int × Scalar)} {slotStages : Mapping Int Stage}
      (hstage : w.core.requireStage .sharesVerified = .ok ())
      (hshares : ∀ key share, (key, share) ∈ shares → key ∈ w.keys ∧
        ∃ delivery, w.inboxes.get? key = some delivery ∧ delivery.sum = .ok share)
      (hraise : Raises .signingShareComputed (shares.map Prod.fst) w.slotStages slotStages) :
      Change source .computeSigningShares w
        { w with
          signingShares := w.signingShares.putAll shares
          slotStages
          core := w.core.advance .signingShareComputed }
  | publishedOwn {w : WeightedParty K} {core : Participant K} {keys : List Int}
      {slotStages : Mapping Int Stage}
      (hstage : w.core.requireStage .signingShareComputed = .ok ())
      (hcore : Relation.ReflTransGen Participant.Step w.core core)
      (hkeys : ∀ key ∈ keys, key ∈ w.keys)
      (hraise : Raises .publicSharesComputed keys w.slotStages slotStages) :
      Change source .publishOwnShares w { w with core, slotStages }
  | published {w : WeightedParty K} {core : Participant K}
      (hcore : Participant.Change source (.publishShares w.keys.members) w.core core) :
      Change source .publishShares w { w with core }
  | keyed {w : WeightedParty K} {core : Participant K} {keys : List Int}
      {slotStages : Mapping Int Stage}
      (hcore : Participant.Change source .deriveGroupKey w.core core)
      (hkeys : ∀ key ∈ keys, key ∈ w.keys ∧ .publicSharesComputed ≤ w.core.stage)
      (hraise : Raises .groupKeyDerived keys w.slotStages slotStages) :
      Change source .deriveGroupKey w { w with core, slotStages }
  | onCore {w : WeightedParty K} {operation : Participant.Operation K} {core : Participant K}
      (hcore : Participant.Change source operation w.core core) :
      Change source (.onCore operation) w { w with core }

/-! ### Inversion -/

section Inversion

omit [Suite K]

theorem of_requireOwned_eq_ok {w : WeightedParty K} {key : Int}
    (h : w.requireOwned key = .ok ()) : key ∈ w.keys := by
  rw [requireOwned] at h
  split at h
  · assumption
  · cases h

theorem of_inboxOf_eq_ok {w : WeightedParty K} (hslots : ∀ key ∈ w.keys, key ∈ upTo w.core.n)
    {key : Int} {delivery : Delivery} (h : w.inboxOf key = .ok delivery) :
    key ∈ w.keys ∧ w.inboxes.get? key = some delivery := by
  rw [inboxOf] at h
  obtain ⟨_, howned, hrest⟩ := bind_eq_ok_iff.1 h
  have hkey := of_requireOwned_eq_ok howned
  rw [slotOf_eq hslots hkey, ok_bind] at hrest
  refine ⟨hkey, ?_⟩
  split at hrest
  · rename_i stored hstored
    rw [hstored, Except.ok.inj hrest]
  · cases hrest

/-- How a party answers a delivery for a slot: it stores shares of parties for a slot of its own
that is not verified, and refuses everything else. -/
inductive Stores (w : WeightedParty K) (key : Int) (delivery : Delivery) :
    Answer (WeightedParty K) Unit → Prop where
  | refused (refusal : Error) : Stores w key delivery (.error refusal, w)
  | stored {slotStages : Mapping Int Stage} (hkey : key ∈ w.keys)
      (hopen : ¬ .sharesVerified ≤ stageAt w.slotStages key)
      (hsenders : ∀ sender ∈ delivery.keys, 1 ≤ sender ∧ sender ≤ w.parties)
      (hraise : Raises .sharesDistributed [key] w.slotStages slotStages) :
    Stores w key delivery (.ok (), { w with inboxes := w.inboxes.put key delivery, slotStages })

theorem stores_storeShares {w : WeightedParty K} (hslots : ∀ key ∈ w.keys, key ∈ upTo w.core.n)
    (key : Int) (delivery : Delivery) : w.Stores key delivery (w.storeShares key delivery) := by
  rw [storeShares]
  cases howned : w.requireOwned key with
  | error refusal => exact .refused refusal
  | ok =>
    have hkey := of_requireOwned_eq_ok howned
    cases w.core.requireStage .created with
    | error refusal => exact .refused refusal
    | ok =>
      rw [slotStage_eq hslots hkey]
      simp only [ok_bind]
      by_cases hopen : Stage.sharesVerified ≤ stageAt w.slotStages key
      · rw [if_pos hopen]
        exact .refused _
      rw [if_neg hopen]
      cases hfind : delivery.keys.find? fun i => ¬ (1 ≤ i ∧ i ≤ w.parties) with
      | some stranger => exact .refused _
      | none =>
        obtain ⟨slotStages, hadvance, hraise⟩ := advanceSlot_eq (w := { w with
          inboxes := w.inboxes.put key delivery }) hslots .sharesDistributed hkey
        simp only [slotOf_eq hslots hkey, ok_bind]
        rw [hadvance]
        refine .stored hkey hopen (fun sender hsender => ?_) hraise
        simpa using List.find?_eq_none.1 hfind sender hsender

/-- The keys that a party owns after it has been given some, whether all of them are slots or
not. -/
theorem exists_assignKeys (w : WeightedParty K) (keys : List Int) :
    ∃ owned slotStages, (w.assignKeys keys).2 = { w with keys := owned, slotStages } ∧
      (∀ key ∈ w.keys, key ∈ owned) ∧ (∀ key ∈ owned, key ∈ w.keys ∨ key ∈ upTo w.core.n) ∧
      ∀ key, stageAt slotStages key = stageAt w.slotStages key := by
  induction keys generalizing w with
  | nil => exact ⟨w.keys, w.slotStages, rfl, fun _ h => h, fun _ h => .inl h, fun _ => rfl⟩
  | cons key rest ih =>
    rw [assignKeys]
    split
    · rename_i hkey
      obtain ⟨owned, slotStages, hassign, hkept, hslots, hstages⟩ := ih { w with
        keys := w.keys.insert key
        slotStages := if (w.slotStages.get? key).isSome then w.slotStages
          else w.slotStages.put key .created }
      refine ⟨owned, slotStages, hassign, fun j hj => hkept j (KeySet.mem_insert.2 (.inl hj)),
        fun j hj => ?_, fun j => (hstages j).trans (stageAt_assign w.slotStages key j)⟩
      rcases hslots j hj with hold | hslot
      · rcases KeySet.mem_insert.1 hold with hold | rfl
        · exact .inl hold
        · exact .inr (mem_upTo.2 hkey)
      · exact .inr hslot
    · exact ⟨w.keys, w.slotStages, rfl, fun _ h => h, fun _ h => .inl h, fun _ => rfl⟩

end Inversion

/-- What the record of checks says about the slots that they leave behind. -/
theorem always_auditSlots {w : WeightedParty K} (hslots : ∀ key ∈ w.keys, key ∈ upTo w.core.n)
    (keys : List Int) :
    Always (w.auditSlots keys : StateM σ _) fun audit =>
      (∀ delivery key, (delivery, key) ∈ audit.1 → w.inboxes.get? key = some delivery ∧
        ∃ drawn : σ, ((w.core.checkShares delivery key).run.run drawn).1 = .ok ()) ∧
      (∃ slotStages, audit.2.2 = { w with slotStages } ∧
        Raises .sharesVerified (audit.1.map Prod.snd) w.slotStages slotStages) ∧
      (audit.2.1 = .ok [] → ∀ key ∈ keys, key ∈ audit.1.map Prod.snd) := by
  induction keys generalizing w with
  | nil => exact .pure ⟨by simp, ⟨w.slotStages, rfl, .nil _ _⟩, by simp⟩
  | cons key rest ih =>
    rw [auditSlots]
    cases hinbox : w.inboxOf key with
    | error refusal => exact .pure ⟨by simp, ⟨w.slotStages, rfl, .nil _ _⟩, by simp⟩
    | ok delivery =>
      obtain ⟨hkey, hdelivery⟩ := of_inboxOf_eq_ok hslots hinbox
      obtain ⟨middle, hadvance, hraise⟩ := advanceSlot_eq hslots .sharesVerified hkey
      simp only [hadvance]
      refine .bind fun source => ?_
      cases hcheck : ((w.core.checkShares delivery key).run.run source).1 with
      | ok _ =>
        refine .bind ((@ih { w with slotStages := middle } hslots).mono ?_)
        rintro ⟨passed, result, _⟩ ⟨hpassed, ⟨slotStages, rfl, hraises⟩, hall⟩
        refine .pure ⟨fun d k hmem => ?_, ⟨slotStages, rfl, hraise.cons hraises⟩,
          fun hresult => List.forall_mem_cons.2 ⟨.head _, fun k hk => .tail _ (hall hresult k hk)⟩⟩
        rcases List.mem_cons.1 hmem with heq | hmem
        · obtain ⟨rfl, rfl⟩ := Prod.mk.inj heq
          exact ⟨hdelivery, source, hcheck⟩
        · exact hpassed d k hmem
      | error refusal =>
        dsimp only
        split
        · refine .bind ((ih hslots).mono ?_)
          rintro ⟨passed, result, _⟩ ⟨hpassed, hraises, _⟩
          refine .pure ⟨hpassed, hraises, fun hresult => ?_⟩
          cases result <;> cases hresult
        · exact .pure ⟨by simp, ⟨w.slotStages, rfl, .nil _ _⟩, by rintro ⟨⟩⟩

section Operations

variable (source : σ) {w : WeightedParty K} (hslots : ∀ key ∈ w.keys, key ∈ upTo w.core.n)

theorem change_assignKeys (keys : List Int) :
    Change source (.assignKeys keys) w (w.assignKeys keys).2 := by
  obtain ⟨owned, slotStages, hassign, hkept, howned, hstages⟩ := w.exists_assignKeys keys
  rw [hassign]
  exact .assigned hkept howned hstages

include hslots

theorem change_storeShares (key : Int) (delivery : Delivery) :
    Change source (.storeShares key delivery) w (w.storeShares key delivery).2 := by
  have hstores := stores_storeShares hslots key delivery
  generalize w.storeShares key delivery = answer at hstores ⊢
  cases hstores with
  | refused refusal => exact .unchanged _ w
  | stored _ hopen _ hraise => exact .stored hopen hraise

theorem change_verifyShares :
    Change source .verifyShares w ((w.verifyShares : StateM σ _).run source).1.2 := by
  cases hstage : w.core.requireStage .sharesDistributed with
  | error refusal =>
    rw [verifyShares, hstage]
    exact .unchanged _ w
  | ok _ =>
    have hpassedSlots : w.passedSlots source = ((w.auditSlots w.keys.sorted).run source).1.1 := by
      rw [passedSlots, hstage]
    obtain ⟨hpassed, ⟨slotStages, hleft, hraise⟩, hall⟩ :=
      always_auditSlots (σ := σ) hslots w.keys.sorted source
    rw [← hpassedSlots] at hpassed hraise hall
    -- The checks draw the same with a record as without.
    have hrun : ∀ settle : Answer (WeightedParty K) (List (Int × List Int)) →
        StateM σ (Answer (WeightedParty K) Unit),
        ((w.checkSlots w.keys.sorted >>= settle).run source).1 =
          (settle ((w.auditSlots w.keys.sorted).run source).1.2 |>.run
            ((w.auditSlots w.keys.sorted).run source).2).1 := by
      intro settle
      rw [← snd_auditSlots]
      rfl
    rw [verifyShares, hstage]
    dsimp only
    rw [hrun]
    generalize ((w.auditSlots w.keys.sorted).run source).1.2 = outcome at hleft hall
    obtain ⟨result, left⟩ := outcome
    obtain rfl : left = { w with slotStages } := hleft
    cases result with
    | error refusal => exact .checked hpassed hraise (.inl rfl)
    | ok failed =>
      change Change source _ w (settleSlots _ failed).2
      rw [settleSlots]
      split
      · rename_i hempty
        rw [List.isEmpty_iff] at hempty
        refine .checked hpassed hraise (.inr (.inr ⟨rfl, fun key hkey => ?_⟩))
        exact hall (congrArg _ hempty) key (KeySet.mem_sorted.2 hkey)
      · exact .checked hpassed hraise (.inr (.inl ⟨_, rfl⟩))

theorem change_computeSigningShares :
    Change source .computeSigningShares w w.computeSigningShares.2 := by
  refine attempt_cases (.unchanged _ w) (.bind fun _ hstage => .bind fun shares hshares => ?_)
  have hsigned : ∀ key share, (key, share) ∈ shares → key ∈ w.keys ∧
      ∃ delivery, w.inboxes.get? key = some delivery ∧ delivery.sum = .ok share := by
    intro key share hmem
    obtain ⟨k, -, hentry⟩ := exists_of_mem_mapM hshares hmem
    obtain ⟨delivery, hinbox, hrest⟩ := bind_eq_ok_iff.1 hentry
    obtain ⟨sum, hsum, heq⟩ := bind_eq_ok_iff.1 hrest
    obtain ⟨rfl, rfl⟩ := Prod.mk.inj (Except.ok.inj heq)
    obtain ⟨hkey, hdelivery⟩ := of_inboxOf_eq_ok hslots hinbox
    exact ⟨hkey, delivery, hdelivery, hsum⟩
  have hplaced : (shares.mapM fun entry => do return (← w.slotOf entry.1, entry.2) :
      Except Error (List (Int × Scalar))) = .ok shares := by
    refine (mapM_eq_ok (g := id) fun entry hentry => ?_).trans (by rw [List.map_id])
    rw [slotOf_eq hslots (hsigned entry.1 entry.2 hentry).1]
    rfl
  obtain ⟨slotStages, hfold, hraise⟩ := @foldlM_advanceSlot_eq K
    { w with signingShares := w.signingShares.putAll shares } hslots .signingShareComputed
    (shares.map Prod.fst) fun key hkey => by
      obtain ⟨entry, hentry, rfl⟩ := List.mem_map.1 hkey
      exact (hsigned entry.1 entry.2 hentry).1
  simp only [hplaced, ok_bind, hfold]
  exact .pure (.signed hstage hsigned hraise)

omit hslots in
/-- What publishing slots does to a party: it moves the participant. -/
theorem exists_publishSlots (source : σ) (w : WeightedParty K) (keys : List Int) :
    ∃ core, (w.publishSlots keys).2 = { w with core } ∧
      Relation.ReflTransGen Participant.Step w.core core := by
  induction keys generalizing w with
  | nil => exact ⟨w.core, rfl, .refl⟩
  | cons key rest ih =>
    rw [publishSlots]
    split
    · exact ⟨w.core, rfl, .refl⟩
    split
    · exact ⟨w.core, rfl, .refl⟩
    rename_i share _
    have hstep : Participant.Step w.core (w.core.publishOwnShare (some share) (some key)).2 :=
      .perform source (.publishOwnShare (some share) (some key)) w.core
    rw [onCore]
    split
    · rename_i hpublish
      obtain ⟨-, rfl⟩ := Prod.mk.inj hpublish
      exact ⟨_, rfl, .single hstep⟩
    · rename_i hpublish
      obtain ⟨-, rfl⟩ := Prod.mk.inj hpublish
      obtain ⟨core, hrest, hcore⟩ := ih { w with
        core := (w.core.publishOwnShare (some share) (some key)).2 }
      exact ⟨core, hrest, .head hstep hcore⟩

theorem change_publishOwnShares :
    Change source .publishOwnShares w w.publishOwnShares.2 := by
  obtain ⟨core, hpublish, hcore⟩ := exists_publishSlots source w w.keys.sorted
  rw [publishOwnShares]
  split
  · exact .unchanged _ w
  rename_i hstage
  split
  · rename_i heq
    rw [heq] at hpublish
    dsimp only at hpublish ⊢
    rw [hpublish]
    exact .publishedOwn hstage hcore (by simp) (.nil _ _)
  · rename_i heq
    rw [heq] at hpublish
    dsimp only at hpublish ⊢
    subst hpublish
    obtain ⟨slotStages, hadvance, hraise⟩ := @advanceSlots_eq K { w with core }
      (fun key hkey => (Participant.parameters_eq_of_run hcore).1 ▸ hslots key hkey)
      .publicSharesComputed w.keys.sorted fun key hkey => KeySet.mem_sorted.1 hkey
    rw [hadvance]
    exact .publishedOwn hstage hcore (fun key hkey => KeySet.mem_sorted.1 hkey) hraise

theorem change_deriveGroupKey : Change source .deriveGroupKey w w.deriveGroupKey.2 := by
  have hcore := Participant.change_deriveGroupKey source w.core
  rw [deriveGroupKey, onCore]
  split
  · rename_i hderive
    obtain ⟨-, rfl⟩ := Prod.mk.inj hderive
    exact .keyed hcore (by simp) (.nil _ _)
  · rename_i hderive
    obtain ⟨hkey, rfl⟩ := Prod.mk.inj hderive
    have hstage : .publicSharesComputed ≤ w.core.stage := by
      obtain ⟨_, hrun⟩ := exists_of_attempt_eq_ok hkey
      obtain ⟨_, hrequire, -⟩ := bind_eq_ok_iff.1 hrun
      exact (Participant.of_requireStage_eq_ok hrequire).2
    obtain ⟨slotStages, hadvance, hraise⟩ := @advanceSlots_eq K
      { w with core := w.core.deriveGroupKey.2 }
      (fun key hkey => hcore.n_eq ▸ hslots key hkey) .groupKeyDerived w.keys.scan
      fun key hkey => KeySet.mem_scan.1 hkey
    rw [hadvance]
    exact .keyed hcore (fun key hkey => ⟨KeySet.mem_scan.1 hkey, hstage⟩) hraise

/-- Every operation changes a party whose keys are slots by one of the rules. -/
theorem change_perform (operation : Operation K) :
    Change source operation w ((operation.perform w).run source).1 := by
  cases operation with
  | assignKeys keys => exact change_assignKeys source keys
  | storeShares key delivery => exact change_storeShares source hslots key delivery
  | verifyShares => exact change_verifyShares source hslots
  | computeSigningShares => exact change_computeSigningShares source hslots
  | publishOwnShares => exact change_publishOwnShares source hslots
  | publishShares => exact .published (Participant.change_publishShares source w.core _)
  | deriveGroupKey => exact change_deriveGroupKey source hslots
  | onCore operation => exact .onCore (Participant.change_perform source w.core operation)

end Operations

end WeightedParty

end ThresholdKeygen
