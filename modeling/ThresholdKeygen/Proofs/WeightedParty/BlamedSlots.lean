import ThresholdKeygen.Proofs.Ordinary
import ThresholdKeygen.Proofs.Participant.ShareCheck
import ThresholdKeygen.Proofs.WeightedParty.VerifiedSlots

/-!
# Blame for the shares of slots

The verification of all slots of a party in terms of what the check of each slot ends with. Main
statement: `verifyShares_blames`, when the check of every slot passes or blames somebody, the party
aborts and names all who are blamed, or goes on when nobody is. A slot without shares ends the
verification before that, and whom the checks have blamed so far is forgotten
(`exists_failure_dropped`).
-/

namespace ThresholdKeygen

variable {K : Type} [Suite K] {σ : Type} [RandomSource σ]

/-! ### Judgements -/

/-- That a check of shares judges them: it passes, or it refuses because of the shares. -/
def Judges (outcome : Except Error Unit) : Prop :=
  Refuses outcome fun refusal => refusal.isShareCheck = true

instance : DecidablePred Judges
  | .ok _ => .isTrue .ok
  | .error refusal => decidable_of_iff (refusal.isShareCheck = true)
    ⟨fun h => .error h, fun h => h refusal rfl⟩

/-- Positions among dealers and share indices have texts. -/
theorem isWritable_of_mem_upTo {count i : Int} (hcount : count < maxSlots) (h : i ∈ upTo count) :
    isWritable i = true := by
  obtain ⟨h₁, h₂⟩ := mem_upTo.1 h
  have hslots : maxSlots.toNat < Nat.pow 10 maxDigits := by decide +kernel
  rw [isWritable, decide_eq_true_iff]
  omega

namespace Participant

section Judgement

variable {p : Participant K} {s : Sharing} (h : s.CommittedIn p.commitments)
  {powerMap : PowerMap} (hpowers : p.powerMap = some powerMap) {index : Int} (h₁ : 1 ≤ index)
  (h₂ : index ≤ p.n)

include h hpowers h₁ h₂

/-- A delivery that is not from all dealers and from nobody else is refused for its senders. -/
theorem checkShares_of_mismatch {delivery : Delivery}
    (hmismatch : p.senderMismatch delivery.keys ≠ []) :
    (p.checkShares delivery index : ExceptT Error (StateM σ) Unit) =
      throw (Error.failedCheck .share (.shareSet index)
        (p.senderMismatch delivery.keys)).written := by
  have hindex : p.checkIndex index = .ok () := if_pos ⟨h₁, h₂⟩
  have hmap : p.requirePowerMap = .ok powerMap := by rw [requirePowerMap, hpowers]
  have hcomplete : p.requireCommitments = .ok () := by
    rw [requireCommitments, h.missing_eq]
    rfl
  rw [checkShares, hindex, hmap, hcomplete]
  change (if _ then _ else _ : ExceptT Error (StateM σ) Unit) = _
  rw [if_pos (by simpa using hmismatch)]
  rfl

/-- The check of shares from dealers, none of which is missing its points, judges them. -/
theorem always_judges [LawfulSuite K] (hgaps : p.gaps.keys = [])
    (hderive : PowerMap.derive p.n s.threshold = .ok powerMap) (hdealers : p.dealers < maxSlots)
    {inbox : Inbox} (hinbox : ∀ i ∈ inbox.keys, 1 ≤ i ∧ i ≤ p.dealers) :
    Always (p.checkShares (.ofInbox inbox) index : ExceptT Error (StateM σ) Unit).run Judges := by
  by_cases hmismatch : p.senderMismatch (Delivery.ofInbox inbox).keys = []
  · have hsenders := senderMismatch_eq_nil_iff.1 hmismatch
    rw [Delivery.ofInbox, Mapping.keys_map] at hsenders
    refine Always.mono (always_checkShares_whole h hgaps hpowers hderive hsenders h₁ h₂) ?_
    rintro _ (rfl | ⟨blamed, rfl⟩)
    · exact .ok
    · exact .error rfl
  · rw [checkShares_of_mismatch h hpowers h₁ h₂ hmismatch]
    have hwritten : (Error.failedCheck .share (.shareSet index)
        (p.senderMismatch (Delivery.ofInbox inbox).keys)).hasText = true := by
      rw [Error.hasText, List.all_eq_true]
      intro i hi
      have hi := mem_ascending.1 hi
      refine isWritable_of_mem_upTo hdealers ?_
      rw [senderMismatch, List.mem_append, List.mem_filter, List.mem_filter] at hi
      rcases hi with ⟨hdealer, -⟩ | ⟨hsender, -⟩
      · exact hdealer
      · rw [Delivery.ofInbox, Mapping.keys_map] at hsender
        exact mem_upTo.2 (hinbox i hsender)
    rw [Error.written, if_pos hwritten]
    exact fun _ => .error rfl

end Judgement

end Participant

/-- Keys that are already in ascending order stay in it. -/
theorem KeySet.sorted_eq {s : KeySet} {keys : List Int} (hmembers : s.members = keys)
    (hsorted : keys.Pairwise (· ≤ ·)) : s.sorted = keys := by
  rw [sorted, hmembers]
  exact List.mergeSort_of_pairwise (by simpa using hsorted)

namespace WeightedParty

/-! ### Senders of stored shares -/

/-- That the shares stored for slots are from dealers, of whom there are no more than slots. -/
structure Stocked (w : WeightedParty K) : Prop where
  parties_eq : w.parties = w.core.dealers
  dealers_le : w.core.dealers ≤ w.core.n
  senders : ∀ key delivery, w.inboxes.get? key = some delivery →
    ∀ i ∈ delivery.keys, 1 ≤ i ∧ i ≤ w.parties

namespace Stocked

variable {w : WeightedParty K}

omit [Suite K] in
theorem onCore (h : w.Stocked) {core : Participant K} (hdealers : core.dealers = w.core.dealers)
    (hn : core.n = w.core.n) (slotStages : Mapping Int Stage) :
    Stocked { w with core, slotStages } where
  parties_eq := h.parties_eq.trans hdealers.symm
  dealers_le := by
    rw [hdealers, hn]
    exact h.dealers_le
  senders := h.senders

omit [Suite K] in
/-- Shares of others are not stored. -/
theorem storeShares (h : w.Stocked) (hslots : ∀ key ∈ w.keys, key ∈ upTo w.core.n) (key : Int)
    (delivery : Delivery) : (w.storeShares key delivery).2.Stocked := by
  have hstores := stores_storeShares hslots key delivery
  generalize w.storeShares key delivery = answer at hstores ⊢
  cases hstores with
  | refused refusal => exact h
  | stored _ _ hsenders _ =>
    refine ⟨h.parties_eq, h.dealers_le, fun j stored hstored => ?_⟩
    rw [Mapping.get?_put] at hstored
    split at hstored
    · obtain rfl := Option.some.inj hstored
      exact hsenders
    · exact h.senders j stored hstored

/-- Every operation keeps the shares that are stored from dealers. -/
theorem perform (h : w.Stocked) (hslots : ∀ key ∈ w.keys, key ∈ upTo w.core.n) (source : σ)
    (operation : Operation K) : ((operation.perform w).run source).1.Stocked := by
  by_cases hstore : ∃ key delivery, operation = .storeShares key delivery
  · obtain ⟨key, delivery, rfl⟩ := hstore
    exact h.storeShares hslots key delivery
  · have hchange := change_perform source hslots operation
    generalize ((operation.perform w).run source).1 = left at hchange ⊢
    cases hchange with
    | unchanged | assigned => exact { h with }
    | stored => exact absurd ⟨_, _, rfl⟩ hstore
    | @checked _ slotStages core _ _ hcore =>
      have hkept : core.dealers = w.core.dealers ∧ core.n = w.core.n := by
        obtain rfl | ⟨failure, rfl⟩ | ⟨rfl, -⟩ := hcore <;> exact ⟨rfl, rfl⟩
      exact h.onCore hkept.1 hkept.2 _
    | signed => exact { h with }
    | publishedOwn _ hcore =>
      exact h.onCore (Participant.dealers_eq_of_run hcore)
        (Participant.parameters_eq_of_run hcore).1 _
    | published hcore | keyed hcore | onCore hcore => exact h.onCore hcore.dealers_eq hcore.n_eq _

end Stocked

theorem Reachable.stocked {w : WeightedParty K} (h : w.Reachable) : w.Stocked := by
  induction h with
  | created hcore h =>
    rw [create] at h
    split at h
    · cases h
    · rename_i hparties
      obtain rfl := Except.ok.inj h
      exact ⟨(not_not.1 hparties).symm, hcore.dealers_le, by rintro key delivery ⟨⟩⟩
  | performed source operation h ih => exact ih.perform h.settled.slots source operation

/-! ### The check of each slot -/

/-- The check of a slot, refused when the slot is empty. -/
def checkSlot (w : WeightedParty K) (key : Int) : StateM σ (Except Error Unit) :=
  match w.inboxOf key with
  | .error refusal => return .error refusal
  | .ok delivery => (w.core.checkShares delivery key).run

/-- The checks of some slots, each behind its slot; all of them are made. -/
def checkEach (w : WeightedParty K) (keys : List Int) : StateM σ (List (Int × Except Error Unit)) :=
  keys.mapM fun key => do return (key, ← w.checkSlot key)

/-- The slots whose checks pass. -/
def passing (checks : List (Int × Except Error Unit)) : List Int :=
  checks.filterMap fun (key, outcome) => outcome.toOption.map fun _ => key

/-- The slots whose checks do not pass, each with those whom its check blames. -/
def failing (checks : List (Int × Except Error Unit)) : List (Int × List Int) :=
  checks.filterMap fun (key, outcome) =>
    match outcome with
    | .ok _ => none
    | .error refusal => some (key, refusal.offenders)

theorem mem_passing {checks : List (Int × Except Error Unit)} {key : Int} :
    key ∈ passing checks ↔ (key, .ok ()) ∈ checks := by
  simp only [passing, List.mem_filterMap, Prod.exists, Option.map_eq_some_iff]
  constructor
  · rintro ⟨_, outcome, hmem, _, houtcome, rfl⟩
    rwa [eq_ok_of_toOption houtcome] at hmem
  · exact fun hmem => ⟨key, _, hmem, (), rfl, rfl⟩

theorem mem_failing {checks : List (Int × Except Error Unit)} {key : Int} {blamed : List Int} :
    (key, blamed) ∈ failing checks ↔
      ∃ refusal, (key, .error refusal) ∈ checks ∧ refusal.offenders = blamed := by
  simp only [failing, List.mem_filterMap, Prod.exists]
  constructor
  · rintro ⟨_, outcome, hmem, houtcome⟩
    cases outcome with
    | ok => cases houtcome
    | error refusal =>
      obtain ⟨rfl, rfl⟩ := Prod.mk.inj (Option.some.inj houtcome)
      exact ⟨refusal, hmem, rfl⟩
  · rintro ⟨refusal, hmem, rfl⟩
    exact ⟨key, _, hmem, rfl⟩

/-- How checks of slots one after the other end, and what they make of the stages of slots: all of
the checks judge the shares, or a check is refused otherwise and the ones behind it are not made. -/
inductive Checked (slotStages : Mapping Int Stage) (checks : List (Int × Except Error Unit)) :
    Except Error (List (Int × List Int)) → Mapping Int Stage → Prop where
  | judged {slotStages' : Mapping Int Stage} (hall : ∀ check ∈ checks, Judges check.2)
      (hraise : Raises .sharesVerified (passing checks) slotStages slotStages') :
      Checked slotStages checks (.ok (failing checks)) slotStages'
  | stopped {slotStages' : Mapping Int Stage} {before after : List (Int × Except Error Unit)}
      {key : Int} {refusal : Error} (hchecks : checks = before ++ (key, .error refusal) :: after)
      (hbefore : ∀ check ∈ before, Judges check.2) (hrefusal : ¬ refusal.isShareCheck = true)
      (hraise : Raises .sharesVerified (passing before) slotStages slotStages') :
      Checked slotStages checks (.error refusal) slotStages'

namespace Checked

variable {slotStages slotStages' slotStages'' : Mapping Int Stage} {key : Int}
  {checks : List (Int × Except Error Unit)} {answer : Except Error (List (Int × List Int))}

/-- A check that passes comes before others. -/
theorem pass (hraise : Raises .sharesVerified [key] slotStages slotStages')
    (h : Checked slotStages' checks answer slotStages'') :
    Checked slotStages ((key, .ok ()) :: checks) answer slotStages'' := by
  cases h with
  | judged hall hraises => exact .judged (List.forall_mem_cons.2 ⟨.ok, hall⟩) (hraise.cons hraises)
  | @stopped _ before after stop refusal hchecks hbefore hrefusal hraises =>
    exact @stopped _ _ _ ((key, .ok ()) :: before) after _ _ (congrArg _ hchecks)
      (List.forall_mem_cons.2 ⟨.ok, hbefore⟩) hrefusal (hraise.cons hraises)

/-- A check that blames somebody comes before others. -/
theorem blame {refusal : Error} (hrefusal : refusal.isShareCheck = true)
    (h : Checked slotStages checks answer slotStages') :
    Checked slotStages ((key, .error refusal) :: checks)
      (answer.map ((key, refusal.offenders) :: ·)) slotStages' := by
  cases h with
  | judged hall hraise => exact .judged (List.forall_mem_cons.2 ⟨.error hrefusal, hall⟩) hraise
  | @stopped _ before after stop refusal' hchecks hbefore hstop hraise =>
    exact @stopped _ _ _ ((key, .error refusal) :: before) after _ _ (congrArg _ hchecks)
      (List.forall_mem_cons.2 ⟨.error hrefusal, hbefore⟩) hstop hraise

end Checked

/-- The checks of the slots behind one draw where the check of this one has stopped. -/
theorem run_checkEach_cons {w : WeightedParty K} {key : Int} {rest : List Int} {source drawn : σ}
    {outcome : Except Error Unit} (hcheck : (w.checkSlot key).run source = (outcome, drawn)) :
    ((w.checkEach (key :: rest)).run source).1 =
      (key, outcome) :: ((w.checkEach rest).run drawn).1 := by
  rw [checkEach, List.mapM_cons]
  change (key, ((w.checkSlot key).run source).1) ::
    ((w.checkEach rest).run ((w.checkSlot key).run source).2).1 = _
  rw [hcheck]

/-- Checking slots one after the other ends as the checks of all of them say. -/
theorem checked_checkSlots {w : WeightedParty K} (hslots : ∀ key ∈ w.keys, key ∈ upTo w.core.n)
    (keys : List Int) (source : σ) :
    ∃ slotStages, ((w.checkSlots keys).run source).1.2 = { w with slotStages } ∧
      Checked w.slotStages ((w.checkEach keys).run source).1 ((w.checkSlots keys).run source).1.1
        slotStages := by
  induction keys generalizing w source with
  | nil => exact ⟨w.slotStages, rfl, .judged (by rintro _ ⟨⟩) (.nil _ _)⟩
  | cons key rest ih =>
    have hstop : ∀ refusal after, ¬ refusal.isShareCheck = true →
        Checked w.slotStages ((key, .error refusal) :: after) (.error refusal) w.slotStages :=
      fun refusal after hrefusal =>
        @Checked.stopped _ _ _ [] after _ _ rfl (by rintro _ ⟨⟩) hrefusal (.nil _ _)
    cases hinbox : w.inboxOf key with
    | error refusal =>
      have hcheck : (w.checkSlot key).run source = (.error refusal, source) := by
        rw [checkSlot, hinbox]
        rfl
      have hordinary := Error.isVerification_eq_false (w.ordinary_inboxOf key refusal hinbox)
      rw [run_checkEach_cons hcheck, checkSlots, hinbox]
      refine ⟨w.slotStages, rfl, hstop refusal _ fun hblame => ?_⟩
      rw [Error.isVerification_of_isShareCheck hblame] at hordinary
      cases hordinary
    | ok delivery =>
      obtain ⟨hkey, -⟩ := of_inboxOf_eq_ok hslots hinbox
      generalize hcheck : (w.core.checkShares delivery key).run.run source = checked
      obtain ⟨outcome, drawn⟩ := checked
      have hslot : (w.checkSlot key).run source = (outcome, drawn) := by
        rw [checkSlot, hinbox]
        exact hcheck
      rw [run_checkEach_cons hslot]
      cases outcome with
      | ok _ =>
        obtain ⟨middle, hadvance, hraise⟩ := advanceSlot_eq hslots .sharesVerified hkey
        obtain ⟨slotStages, hleft, hchecked⟩ := @ih { w with slotStages := middle } hslots drawn
        rw [run_checkSlots_pass hinbox hcheck hadvance]
        exact ⟨slotStages, hleft, hchecked.pass hraise⟩
      | error refusal =>
        by_cases hrefusal : refusal.isShareCheck = true
        · obtain ⟨slotStages, hleft, hchecked⟩ := ih hslots drawn
          rw [run_checkSlots_blame hinbox hcheck hrefusal]
          exact ⟨slotStages, hleft, hchecked.blame hrefusal⟩
        · rw [run_checkSlots_stop hinbox hcheck hrefusal]
          exact ⟨w.slotStages, rfl, hstop refusal _ hrefusal⟩

/-- A property of the check of every slot. -/
theorem always_checkEach {w : WeightedParty K} {P : Int → Except Error Unit → Prop}
    {keys : List Int} (h : ∀ key ∈ keys, Always (w.checkSlot key : StateM σ _) (P key)) :
    Always (w.checkEach keys : StateM σ _) fun checks =>
      checks.map Prod.fst = keys ∧ ∀ check ∈ checks, P check.1 check.2 := by
  induction keys with
  | nil => exact .pure ⟨rfl, by rintro _ ⟨⟩⟩
  | cons key rest ih =>
    obtain ⟨hkey, hrest⟩ := List.forall_mem_cons.1 h
    rw [checkEach, List.mapM_cons, bind_assoc]
    refine .bind (hkey.mono fun outcome houtcome => ?_)
    rw [pure_bind]
    refine .bind (Always.mono (ih hrest) ?_)
    rintro checks ⟨hkeys, hchecks⟩
    exact .pure ⟨by rw [List.map_cons, hkeys], List.forall_mem_cons.2 ⟨houtcome, hchecks⟩⟩

/-! ### The verification of all slots -/

/-- That the slots whose checks have passed, and no others, are verified if they were not before. -/
def VerifiesPassing (w w' : WeightedParty K) (checks : List (Int × Except Error Unit)) : Prop :=
  ∀ key ∈ w.keys, ¬ .sharesVerified ≤ stageAt w.slotStages key →
    (.sharesVerified ≤ stageAt w'.slotStages key ↔ (key, .ok ()) ∈ checks)

/-- What the verification of all slots answers and leaves behind, depending on what the checks of
the slots end with. -/
structure Settles (w : WeightedParty K) (checks : List (Int × Except Error Unit))
    (answer : Except Error Unit) (w' : WeightedParty K) : Prop where
  /-- When the shares of all slots are judged and some check fails, the party aborts and names all
  whom the checks blame. -/
  of_blamed : (∀ check ∈ checks, Judges check.2) → (∃ check ∈ checks, check.2 ≠ .ok ()) →
    ∃ failure, answer = .error failure ∧ failure.isShareCheck = true ∧
      (∀ i, i ∈ failure.offenders ↔
        ∃ key refusal, (key, .error refusal) ∈ checks ∧ i ∈ refusal.offenders) ∧
      w'.core = { w.core with failure := some failure } ∧ w.VerifiesPassing w' checks
  /-- When all checks pass, the party goes on. -/
  of_passed : (∀ check ∈ checks, check.2 = .ok ()) →
    answer = .ok () ∧ .sharesVerified ≤ w'.core.stage ∧ w'.core.failure = none ∧
      w.VerifiesPassing w' checks
  /-- The first check that does not judge the shares is all that the party answers, and the slots
  behind it are left as they were. -/
  of_stopped : (¬ ∀ check ∈ checks, Judges check.2) → ∃ before key refusal after,
    checks = before ++ (key, .error refusal) :: after ∧ (∀ check ∈ before, Judges check.2) ∧
      ¬ refusal.isShareCheck = true ∧ answer = .error refusal ∧ w'.core = w.core ∧
      w.VerifiesPassing w' before

/-- What the verification of all slots does, and what the checks of the slots can end with. -/
structure Verification (w : WeightedParty K) (checks : List (Int × Except Error Unit))
    (answer : Except Error Unit) (w' : WeightedParty K) : Prop
    extends Settles w checks answer w' where
  /-- There is one check for every slot that is owned. -/
  keys_eq : checks.map Prod.fst = w.keys.sorted
  /-- Stored shares are judged, when no commitment lacks points. -/
  judges : (∀ i, 1 ≤ i → i ≤ w.core.dealers → w.core.gapsOf i = []) → ∀ check ∈ checks,
    ∀ inbox, w.inboxes.get? check.1 = some (.ofInbox inbox) → Judges check.2
  /-- A slot without shares is refused. -/
  of_empty : ∀ check ∈ checks, w.inboxes.get? check.1 = none →
    check.2 = .error (.state (.slotEmpty check.1))

omit [Suite K] in
theorem Raises.verifiesPassing {w : WeightedParty K} {core : Participant K}
    {slotStages : Mapping Int Stage} {checks : List (Int × Except Error Unit)}
    (h : Raises .sharesVerified (passing checks) w.slotStages slotStages) :
    w.VerifiesPassing { w with core, slotStages } checks := by
  intro key _ hbefore
  rw [← mem_passing]
  refine ⟨fun hafter => by_contra fun hkey => hbefore ?_, h.reached⟩
  rwa [← h.eq_of_notMem hkey]

section Settling

variable {w : WeightedParty K} {checks : List (Int × Except Error Unit)}
  {slotStages : Mapping Int Stage}

omit [Suite K]

theorem failing_eq_nil_iff : failing checks = [] ↔ ∀ check ∈ checks, check.2 = .ok () := by
  rw [List.eq_nil_iff_forall_not_mem]
  constructor
  · rintro hnone ⟨key, outcome⟩ hmem
    cases outcome with
    | ok _ => rfl
    | error refusal => exact absurd (mem_failing.2 ⟨refusal, hmem, rfl⟩) (hnone _)
  · rintro hall ⟨key, blamed⟩ hmem
    obtain ⟨refusal, hcheck, -⟩ := mem_failing.1 hmem
    cases hall _ hcheck

/-- When all shares are judged, it depends on whether a check fails. -/
theorem settles_judged (hfailure : w.core.failure = none)
    (hall : ∀ check ∈ checks, Judges check.2)
    (hraise : Raises .sharesVerified (passing checks) w.slotStages slotStages) :
    w.Settles checks (settleSlots { w with slotStages } (failing checks)).1
      (settleSlots { w with slotStages } (failing checks)).2 := by
  rw [settleSlots]
  by_cases hfailed : failing checks = []
  · rw [hfailed]
    have hpassed := failing_eq_nil_iff.1 hfailed
    refine ⟨fun _ hfails => ?_, fun _ => ?_, fun hnot => absurd hall hnot⟩
    · obtain ⟨check, hcheck, hne⟩ := hfails
      exact absurd (hpassed check hcheck) hne
    · exact ⟨rfl, Stage.le_later_right _ _, hfailure, hraise.verifiesPassing⟩
  · rw [if_neg (by simpa using hfailed)]
    refine ⟨fun _ _ => ⟨_, rfl, rfl, fun i => ?_, ?_, hraise.verifiesPassing⟩,
      fun hpassed => absurd (failing_eq_nil_iff.2 hpassed) hfailed, fun hnot => absurd hall hnot⟩
    · change i ∈ ascending ((failing checks).flatMap Prod.snd) ↔ _
      rw [mem_ascending, List.mem_flatMap]
      constructor
      · rintro ⟨⟨key, blamed⟩, hmem, hi⟩
        obtain ⟨refusal, hcheck, rfl⟩ := mem_failing.1 hmem
        exact ⟨key, refusal, hcheck, hi⟩
      · rintro ⟨key, refusal, hcheck, hi⟩
        exact ⟨_, mem_failing.2 ⟨refusal, hcheck, rfl⟩, hi⟩
    · change w.core.abort _ = _
      rw [Participant.abort, hfailure]
      rfl

/-- A check that does not judge the shares ends the verification. -/
theorem settles_stopped {before after : List (Int × Except Error Unit)} {key : Int}
    {refusal : Error} (hbefore : ∀ check ∈ before, Judges check.2)
    (hrefusal : ¬ refusal.isShareCheck = true)
    (hraise : Raises .sharesVerified (passing before) w.slotStages slotStages) :
    w.Settles (before ++ (key, .error refusal) :: after) (.error refusal)
      { w with slotStages } := by
  have hmem : (key, .error refusal) ∈ before ++ (key, .error refusal) :: after := by simp
  have hstop : ¬ Judges (.error refusal) := fun hjudges => hrefusal (hjudges refusal rfl)
  refine ⟨fun hall _ => absurd (hall _ hmem) hstop, fun hpassed => ?_, fun _ => ?_⟩
  · cases hpassed _ hmem
  · exact ⟨before, key, refusal, after, rfl, hbefore, hrefusal, rfl, rfl, hraise.verifiesPassing⟩

end Settling

/-- The check of an owned slot judges the shares that are stored there, and refuses when there are
none. -/
theorem always_checkSlot [LawfulSuite K] {w : WeightedParty K} (hw : w.Reachable)
    {powerMap : PowerMap} (hpowers : w.core.powerMap = some powerMap)
    (hcomplete : w.core.commitments.missing = []) {key : Int} (hkey : key ∈ w.keys) :
    Always (w.checkSlot key : StateM σ _) fun outcome =>
      ((∀ i, 1 ≤ i → i ≤ w.core.dealers → w.core.gapsOf i = []) →
        ∀ inbox, w.inboxes.get? key = some (.ofInbox inbox) → Judges outcome) ∧
      (w.inboxes.get? key = none → outcome = .error (.state (.slotEmpty key))) := by
  have hsound := hw.settled.core.toSound
  have hslots := hw.settled.slots
  have hstocked := hw.stocked
  obtain ⟨h₁, h₂⟩ := mem_upTo.1 (hslots key hkey)
  obtain ⟨s, hs⟩ := hsound.exists_committedIn hcomplete
  have hderive : PowerMap.derive w.core.n s.threshold = .ok powerMap := by
    have hthreshold : w.core.threshold = s.threshold := hs.threshold_eq
    exact hthreshold ▸ hsound.powerMap_eq powerMap hpowers
  cases hstored : w.inboxes.get? key with
  | none =>
    have hempty : w.inboxOf key = .error (.state (.slotEmpty key)) := by
      rw [inboxOf, requireOwned_eq hkey, ok_bind, slotOf_eq hslots hkey, ok_bind, hstored]
      rfl
    rw [checkSlot, hempty]
    exact fun _ => ⟨by rintro _ _ ⟨⟩, fun _ => rfl⟩
  | some delivery =>
    rw [checkSlot, inboxOf_eq hslots hkey hstored]
    by_cases hwhole : (∀ i, 1 ≤ i → i ≤ w.core.dealers → w.core.gapsOf i = []) ∧
        ∃ inbox, delivery = .ofInbox inbox
    · obtain ⟨hgaps, inbox, rfl⟩ := hwhole
      have hsenders : ∀ i ∈ inbox.keys, 1 ≤ i ∧ i ≤ w.core.dealers := by
        intro i hi
        rw [← hstocked.parties_eq]
        refine hstocked.senders key _ hstored i ?_
        rwa [Delivery.ofInbox, Mapping.keys_map]
      have hdealers : w.core.dealers < maxSlots := lt_of_le_of_lt hstocked.dealers_le hsound.n_lt
      refine Always.mono (Participant.always_judges hs hpowers h₁ h₂
        (hsound.gaps_keys_eq_nil hgaps) hderive hdealers hsenders) fun outcome houtcome => ?_
      exact ⟨fun _ _ _ => houtcome, by rintro ⟨⟩⟩
    · refine fun source => ⟨fun hgaps inbox hinbox => ?_, by rintro ⟨⟩⟩
      exact absurd ⟨hgaps, inbox, Option.some.inj hinbox⟩ hwhole

/-- The verification of all slots names all whom the checks of the slots blame, unless a check is
refused otherwise. -/
theorem verifyShares_blames [LawfulSuite K] {w : WeightedParty K} (hw : w.Reachable)
    (hstage : w.core.requireStage .sharesDistributed = .ok ()) (hpowers : w.core.powerMap.isSome)
    (hcomplete : w.core.commitments.missing = []) (source : σ) :
    w.Verification ((w.checkEach w.keys.sorted).run source).1 (w.verifyShares.run source).1.1
      (w.verifyShares.run source).1.2 := by
  obtain ⟨powerMap, hmap⟩ := Option.isSome_iff_exists.1 hpowers
  have hslots := hw.settled.slots
  obtain ⟨hfailure, -⟩ := Participant.of_requireStage_eq_ok hstage
  obtain ⟨hkeys, hchecks⟩ := always_checkEach (fun key hkey =>
    always_checkSlot (σ := σ) hw hmap hcomplete (KeySet.mem_sorted.1 hkey)) source
  obtain ⟨slotStages, hleft, hchecked⟩ := checked_checkSlots hslots w.keys.sorted source
  generalize hrun : (w.checkSlots w.keys.sorted).run source = outcome at hleft hchecked
  obtain ⟨⟨result, left⟩, drawn⟩ := outcome
  obtain rfl : left = { w with slotStages } := hleft
  generalize ((w.checkEach w.keys.sorted).run source).1 = checks at hkeys hchecks hchecked
  refine { keys_eq := hkeys
           judges := fun hgaps check hcheck => (hchecks check hcheck).1 hgaps
           of_empty := fun check hcheck => (hchecks check hcheck).2
           toSettles := ?_ }
  cases hchecked with
  | judged hall hraise =>
    rw [run_verifyShares_judged hstage hrun]
    exact settles_judged hfailure hall hraise
  | stopped hstopped hbefore hrefusal hraise =>
    rw [run_verifyShares_stopped hstage hrun, hstopped]
    exact settles_stopped hbefore hrefusal hraise

/-! ### A party with two slots -/

/-- The only party of a run with both of its slots, when it has dealt and waits for shares. -/
def poised : WeightedParty ResidueKey :=
  let w := (lone.assignKeys [1, 2]).2
  { w with core := w.core.dealShares.2.derivePowerMap.2 }

theorem reachable_poised : poised.Reachable := by
  have hcreated : lone.Reachable :=
    .created (.created (Tape.new [[1]] [] "") 2 1 1 (some 1) (.bytes []) lone.core rfl)
      (show create 1 lone.core = .ok lone from rfl)
  have hassigned := hcreated.performed (Tape.new [] [] "") (.assignKeys [1, 2])
  have hdealt := hassigned.performed (Tape.new [] [] "") (.onCore .dealShares)
  exact hdealt.performed (Tape.new [] [] "") (.onCore .derivePowerMap)

/-- The party has no share for its first slot and the right one for its second slot. -/
theorem exists_verifyShares_blames : ∃ w : WeightedParty ResidueKey, w.Reachable ∧
    w.core.requireStage .sharesDistributed = .ok () ∧ w.core.powerMap.isSome ∧
    w.core.commitments.missing = [] ∧ ∃ checks,
      ((w.checkEach w.keys.sorted).run (Tape.new [] [] "")).1 = checks ∧
      (∀ check ∈ checks, Judges check.2) ∧ passing checks = [2] ∧ failing checks = [(1, [1])] ∧
      w.Verification checks (w.verifyShares.run (Tape.new [] [] "")).1.1
        (w.verifyShares.run (Tape.new [] [] "")).1.2 := by
  have hfirst := reachable_poised.performed (Tape.new [] [] "") (.storeShares 1 (.ofInbox .empty))
  have hsecond := hfirst.performed (Tape.new [] [] "")
    (.storeShares 2 (.ofInbox (.ofList [(1, 1)])))
  obtain ⟨w, hw, hstage, hpowers, hcomplete, hmembers, hjudged, hpassing, hfailing⟩ :
      ∃ w : WeightedParty ResidueKey, w.Reachable ∧
        (w.core.requireStage .sharesDistributed).toOption = some () ∧ w.core.powerMap.isSome ∧
        w.core.commitments.missing = [] ∧ w.keys.members = [1, 2] ∧
        (∀ check ∈ ((w.checkEach [1, 2]).run (Tape.new [] [] "")).1, Judges check.2) ∧
        passing ((w.checkEach [1, 2]).run (Tape.new [] [] "")).1 = [2] ∧
        failing ((w.checkEach [1, 2]).run (Tape.new [] [] "")).1 = [(1, [1])] :=
    ⟨_, hsecond, by decide +kernel⟩
  have hrequire := eq_ok_of_toOption hstage
  have hsorted : w.keys.sorted = [1, 2] := KeySet.sorted_eq hmembers (by decide)
  refine ⟨w, hw, hrequire, hpowers, hcomplete, _, rfl, ?_, ?_, ?_,
    verifyShares_blames hw hrequire hpowers hcomplete _⟩ <;> rwa [hsorted]

/-- The party has no share for its first slot, for which the check blames the only dealer, and has
stored nothing for its second slot; it only says so of the latter, and does not abort. -/
theorem exists_failure_dropped : ∃ w : WeightedParty ResidueKey, w.Reachable ∧
    w.core.requireStage .sharesDistributed = .ok () ∧ w.core.powerMap.isSome ∧
    w.core.commitments.missing = [] ∧ (w.inboxOf 1).toOption.isSome ∧
    (∃ refusal, (1, .error refusal) ∈
      ((w.checkEach w.keys.sorted).run (Tape.new [] [] "")).1 ∧ refusal.isShareCheck = true ∧
        refusal.offenders = [1]) ∧
    (w.verifyShares.run (Tape.new [] [] "")).1.2.core.failure = none := by
  have hstored := reachable_poised.performed (Tape.new [] [] "") (.storeShares 1 (.ofInbox .empty))
  obtain ⟨w, hw, hstage, hpowers, hcomplete, hmembers, hinbox, hjudged, hblamed, hanswer,
      hfailure⟩ : ∃ w : WeightedParty ResidueKey, w.Reachable ∧
        (w.core.requireStage .sharesDistributed).toOption = some () ∧ w.core.powerMap.isSome ∧
        w.core.commitments.missing = [] ∧ w.keys.members = [1, 2] ∧
        (w.inboxOf 1).toOption.isSome ∧
        (∀ check ∈ ((w.checkEach [1, 2]).run (Tape.new [] [] "")).1, check.1 = 1 →
          Judges check.2) ∧
        (1, [1]) ∈ failing ((w.checkEach [1, 2]).run (Tape.new [] [] "")).1 ∧
        ((w.checkSlots [1, 2]).run (Tape.new [] [] "")).1.1.toOption = none ∧
        ((w.checkSlots [1, 2]).run (Tape.new [] [] "")).1.2.core.failure.isNone :=
    ⟨_, hstored, by decide +kernel⟩
  have hrequire := eq_ok_of_toOption hstage
  have hsorted : w.keys.sorted = [1, 2] := KeySet.sorted_eq hmembers (by decide)
  obtain ⟨refusal, hcheck, hoffenders⟩ := mem_failing.1 hblamed
  refine ⟨w, hw, hrequire, hpowers, hcomplete, hinbox, ⟨refusal, ?_, ?_, hoffenders⟩, ?_⟩
  · rwa [hsorted]
  · exact hjudged _ hcheck rfl refusal rfl
  · rw [← hsorted] at hanswer hfailure
    generalize hrun : (w.checkSlots w.keys.sorted).run (Tape.new [] [] "") = outcome at *
    obtain ⟨⟨result, left⟩, drawn⟩ := outcome
    cases result with
    | ok failed => cases hanswer
    | error refusal =>
      rw [run_verifyShares_stopped hrequire hrun]
      exact Option.isNone_iff_eq_none.1 hfailure

end WeightedParty

end ThresholdKeygen
