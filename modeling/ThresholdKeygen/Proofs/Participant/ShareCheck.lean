import Mathlib.Data.Int.ConditionallyCompleteOrder
import Mathlib.Data.Int.Interval
import Mathlib.Order.SymmDiff
import ThresholdKeygen.Proofs.BatchCheck
import ThresholdKeygen.Proofs.Participant.Reachable
import ThresholdKeygen.Proofs.Point.Residues
import ThresholdKeygen.Proofs.PublicMap

/-!
# Blame for shares

The check of the shares dealt to an index. Main statement: `checkShares_verdict`, correct shares
from all dealers pass, and a check that fails blames somebody, but no dealer whose share is correct.
-/

namespace ThresholdKeygen

variable {K : Type} [Suite K] {σ : Type} [RandomSource σ]

/-! ### Inboxes and deliveries -/

namespace Delivery

theorem get?_ofInbox {inbox : Inbox} {sender : Int} {share : Scalar}
    (h : (sender, share) ∈ inbox.bySender) :
    (ofInbox inbox).get? sender = some (some share) := by
  rw [ofInbox, Mapping.get?_map, Inbox.mem_bySender.1 h]
  rfl

theorem mem_keys_ofInbox {inbox : Inbox} {share : Int × Scalar} (h : share ∈ inbox.bySender) :
    share.1 ∈ (ofInbox inbox).keys :=
  Mapping.mem_keys_iff.2 (by rw [get?_ofInbox h]; rfl)

theorem exists_gap {delivery : Delivery} (h : delivery.toInbox? = none) :
    ∃ i, delivery.get? i = some none := by
  rw [toInbox?, ite_eq_right_iff] at h
  have hgap : ¬ delivery.values.all Option.isSome := fun hall => by simpa using h hall
  simp only [Mapping.values, List.all_eq_true, List.mem_map, not_forall, exists_prop] at hgap
  obtain ⟨_, ⟨⟨i, share⟩, hmem, rfl⟩, hnone⟩ := hgap
  obtain rfl : share = none := Option.not_isSome_iff_eq_none.1 hnone
  exact ⟨i, Mapping.get?_eq_some_iff.2 hmem⟩

/-- Weighing makes an inbox of a delivery without gaps, and refuses others. -/
theorem always_weighed (who : Int) (delivery : Delivery) :
    Always (delivery.weighed who : ExceptT Error (StateM σ) Inbox).run fun outcome =>
      (∃ inbox, delivery = ofInbox inbox ∧ outcome = .ok inbox) ∨
        ((∃ i, delivery.get? i = some none) ∧ outcome = .error (missing "*")) := by
  rw [weighed]
  split
  · rename_i inbox hinbox
    exact .pure (.inl ⟨inbox, eq_ofInbox hinbox, rfl⟩)
  · rename_i hnone
    exact fun _ => .inr ⟨exists_gap hnone, rfl⟩

end Delivery

namespace Participant

/-! ### Verdicts -/

/-- That a share passes for an index with the commitment of its sender, which lacks no points. -/
def Accepts (p : Participant K) (index sender : Int) (share : Scalar) : Prop :=
  p.gapsOf sender = [] ∧
    ∃ c, p.commitments.slots.get? sender = some c ∧ c.verifyShare share index = true

/-- That a delivery has a share from every dealer and from nobody else, all of which pass. -/
structure AllAccepted (p : Participant K) (delivery : Delivery) (index : Int) : Prop where
  senders : ∀ i, i ∈ delivery.keys ↔ 1 ≤ i ∧ i ≤ p.dealers
  accepts : ∀ i ∈ delivery.keys, ∃ share, delivery.get? i = some (some share) ∧
    p.Accepts index i share

/-- Whom a failed check may blame: the positions that are senders or dealers but not both, if there
are any, and else only senders of shares that do not pass; in either case somebody. -/
structure FairlyBlamed (p : Participant K) (delivery : Delivery) (index : Int)
    (blamed : List Int) : Prop where
  ne_nil : blamed ≠ []
  of_senders : delivery.keys.toFinset ≠ Finset.Icc 1 p.dealers →
    blamed.toFinset = symmDiff delivery.keys.toFinset (Finset.Icc 1 p.dealers)
  of_shares : delivery.keys.toFinset = Finset.Icc 1 p.dealers → ∀ i ∈ blamed,
    ∃ share, delivery.get? i = some (some share) ∧ ¬ p.Accepts index i share

/-- What a check of shares may end with. -/
structure Verdict (p : Participant K) (delivery : Delivery) (index : Int)
    (outcome : Except Error Unit) : Prop where
  of_accepted : p.AllAccepted delivery index → outcome = .ok ()
  of_refused : ∀ refusal, outcome = .error refusal → refusal.isShareCheck = true →
    p.FairlyBlamed delivery index refusal.offenders

/-! ### Senders -/

section Senders

omit [Suite K]

variable {p : Participant K} {senders : List Int}

theorem toFinset_eq_iff :
    senders.toFinset = Finset.Icc 1 p.dealers ↔ ∀ i, i ∈ senders ↔ 1 ≤ i ∧ i ≤ p.dealers := by
  simp [Finset.ext_iff]

/-- The senders are the dealers exactly when no position is missing on either side. -/
theorem senderMismatch_eq_nil_iff :
    p.senderMismatch senders = [] ↔ ∀ i, i ∈ senders ↔ 1 ≤ i ∧ i ≤ p.dealers := by
  simp only [senderMismatch, List.append_eq_nil_iff, List.filter_eq_nil_iff, mem_upTo,
    decide_eq_true_eq, not_not]
  exact ⟨fun hsame i => ⟨hsame.2 i, hsame.1 i⟩, fun hsame => ⟨fun i => (hsame i).2,
    fun i => (hsame i).1⟩⟩

theorem toFinset_senderMismatch : (p.senderMismatch senders).toFinset =
    symmDiff senders.toFinset (Finset.Icc 1 p.dealers) := by
  ext i
  simp only [senderMismatch, List.mem_toFinset, List.mem_append, List.mem_filter, mem_upTo,
    decide_eq_true_eq, Finset.mem_symmDiff, Finset.mem_Icc]
  exact or_comm

theorem offenders_of_isShareCheck {finding : Finding} {blamed : List Int}
    (h : (Error.failedCheck .share finding blamed).written.isShareCheck = true) :
    (Error.failedCheck .share finding blamed).written.offenders = ascending blamed := by
  rw [Error.written] at h ⊢
  split at h
  · rw [if_pos ‹_›]
    rfl
  · simp [Error.isShareCheck] at h

theorem always_requireWhole (p : Participant K) (shares : Nat) :
    Always (p.requireWhole shares : ExceptT Error (StateM σ) Unit).run fun outcome =>
      outcome = .ok () ∨
        (p.gaps.keys ≠ [] ∧ outcome = .error (.noAttribute "NoneType" "_smul")) := by
  rw [requireWhole]
  split
  · rename_i hgaps
    exact fun _ => .inr ⟨by simpa using hgaps, rfl⟩
  · exact .pure (.inl rfl)

end Senders

/-! ### Batches -/

section Batches

variable [LawfulSuite K] {p : Participant K} {s : Sharing}

theorem correct_of_accepts (h : s.CommittedIn p.commitments) {index sender : Int}
    (h₁ : 1 ≤ sender) (h₂ : sender ≤ p.dealers) {share : Scalar}
    (haccepts : p.Accepts index sender share) : BatchCheck.Correct s index (sender, share) := by
  obtain ⟨_, c, hc, hpasses⟩ := haccepts
  rw [h.get?_eq sender h₁ (h.dealers_eq ▸ h₂)] at hc
  obtain rfl := Option.some.inj hc
  rwa [Commitment.verifyShare_iff, Commitment.logs_ofCoefficients] at hpasses

theorem singleMismatches_eq {inbox : Inbox}
    (hinbox : BatchCheck.Backed s p.commitments inbox.bySender) (index : Int) :
    ∃ blamed, p.singleMismatches inbox index = .ok blamed ∧ ∀ i,
      i ∈ blamed ↔ ∃ share ∈ inbox.bySender, share.1 = i ∧ ¬ BatchCheck.Correct s index share := by
  have hchecked : ∀ share ∈ inbox.bySender, (do
      return (share.1, (← p.commitments.commitmentOf share.1).verifyShare share.2 index) :
        Except Error (Int × Bool)) =
      .ok (share.1, (Commitment.ofCoefficients (s.dealt share.1) : Commitment K).verifyShare
        share.2 index) := by
    intro share hshare
    rw [(hinbox share hshare).2]
    rfl
  have hrun := mapM_eq_ok hchecked
  refine ⟨_, by rw [singleMismatches, hrun, ok_bind, pure_eq_ok], fun i => ?_⟩
  simp only [List.mem_map, List.mem_filter, Prod.exists]
  constructor
  · rintro ⟨_, agrees, ⟨⟨sender, share, hmem, heq⟩, hfails⟩, rfl⟩
    obtain ⟨rfl, rfl⟩ := Prod.mk.inj heq
    refine ⟨sender, share, hmem, rfl, fun hcorrect => ?_⟩
    rw [Bool.not_eq_true', ← Bool.not_eq_true, Commitment.verifyShare_iff,
      Commitment.logs_ofCoefficients] at hfails
    exact hfails hcorrect
  · rintro ⟨sender, share, hmem, rfl, hincorrect⟩
    refine ⟨sender, _, ⟨⟨sender, share, hmem, rfl⟩, ?_⟩, rfl⟩
    rw [Bool.not_eq_true', ← Bool.not_eq_true, Commitment.verifyShare_iff,
      Commitment.logs_ofCoefficients]
    exact hincorrect

/-- That some senders are blamed for shares, all of them for a share that is not correct. -/
def BlamesIncorrect (s : Sharing) (index : Int) (shares : List (Int × Scalar)) (blamed : List Int) :
    Prop := blamed ≠ [] ∧
  ∀ i ∈ blamed, ∃ share ∈ shares, share.1 = i ∧ ¬ BatchCheck.Correct s index share

/-- When halving finds nobody, the check of single shares does. -/
theorem succeeds_culprits {inbox : Inbox}
    (hinbox : BatchCheck.Backed s p.commitments inbox.bySender) {index : Int}
    (hincorrect : ∃ share ∈ inbox.bySender, ¬ BatchCheck.Correct s index share) :
    Succeeds (p.culprits inbox (powersFrom index 1 s.threshold) index :
      ExceptT Error (StateM σ) (List Int)) (BlamesIncorrect s index inbox.bySender) := by
  refine .bind ((BatchCheck.succeeds_bisect hinbox p.position index).mono ?_)
  intro isolated hisolated
  split
  · obtain ⟨blamed, hsingle, hblamed⟩ := singleMismatches_eq hinbox index
    refine .steady hsingle ⟨?_, fun i hi => (hblamed i).1 hi⟩
    obtain ⟨share, hshare, hfails⟩ := hincorrect
    exact List.ne_nil_of_mem ((hblamed share.1).2 ⟨share, hshare, rfl, hfails⟩)
  · rename_i hne
    exact .pure ⟨by simpa using hne, hisolated⟩

/-- The batch check of shares from dealers. -/
theorem always_batch {inbox : Inbox} (hinbox : BatchCheck.Backed s p.commitments inbox.bySender)
    (index : Int) :
    Always (do
      if ← BatchCheck.verify p.position inbox p.commitments (powersFrom index 1 s.threshold) then
        return
      throw (.failedCheck .share (.shareBatch index)
        (← p.culprits inbox (powersFrom index 1 s.threshold) index)) :
          ExceptT Error (StateM σ) Unit).run fun outcome =>
      ((∀ share ∈ inbox.bySender, BatchCheck.Correct s index share) → outcome = .ok ()) ∧
        ∀ refusal, outcome = .error refusal →
          ∃ blamed, BlamesIncorrect s index inbox.bySender blamed ∧
            refusal = .failedCheck .share (.shareBatch index) blamed := by
  refine .bindExcept (Always.mono (BatchCheck.succeeds_holds hinbox p.position index) ?_)
  rintro _ ⟨verdict, rfl, hverdict⟩
  cases verdict with
  | true => exact .pure ⟨fun _ => rfl, by rintro _ ⟨⟩⟩
  | false =>
    have hincorrect : ∃ share ∈ inbox.bySender, ¬ BatchCheck.Correct s index share := by
      by_contra hnone
      have hall : ∀ share ∈ inbox.bySender, BatchCheck.Correct s index share :=
        fun share hshare => by_contra fun hfails => hnone ⟨share, hshare, hfails⟩
      exact absurd (hverdict hall) (by simp)
    refine .bindExcept (Always.mono (succeeds_culprits hinbox hincorrect) ?_)
    rintro _ ⟨blamed, rfl, hblamed⟩
    refine .pure ⟨fun hall => ?_, ?_⟩
    · obtain ⟨share, hshare, hfails⟩ := hincorrect
      exact absurd (hall share hshare) hfails
    · rintro _ ⟨⟩
      exact ⟨blamed, hblamed, rfl⟩

/-- The verdict of a batch check, in terms of what passes with the registered commitments. -/
theorem verdict_of_batch (h : s.CommittedIn p.commitments) {inbox : Inbox} {index : Int}
    {outcome : Except Error Unit}
    (hsenders : ∀ i, i ∈ (Delivery.ofInbox inbox).keys ↔ 1 ≤ i ∧ i ≤ p.dealers)
    (hpass : (∀ share ∈ inbox.bySender, BatchCheck.Correct s index share) → outcome = .ok ())
    (hfail : ∀ refusal, outcome = .error refusal → ∃ blamed,
      BlamesIncorrect s index inbox.bySender blamed ∧
        refusal = .failedCheck .share (.shareBatch index) blamed) :
    p.Verdict (.ofInbox inbox) index outcome := by
  have hcorrect : ∀ i share, (i, share) ∈ inbox.bySender → p.Accepts index i share →
      BatchCheck.Correct s index (i, share) := by
    intro i share hshare haccepts
    obtain ⟨h₁, h₂⟩ := (hsenders i).1 (Delivery.mem_keys_ofInbox hshare)
    exact correct_of_accepts h h₁ h₂ haccepts
  constructor
  · intro haccepted
    refine hpass fun ⟨i, share⟩ hshare => hcorrect i share hshare ?_
    obtain ⟨share', hshare', haccepts⟩ :=
      haccepted.accepts i (Delivery.mem_keys_ofInbox hshare)
    rw [Delivery.get?_ofInbox hshare] at hshare'
    cases hshare'
    exact haccepts
  · intro refusal hrefusal _
    obtain ⟨blamed, ⟨hne, hblamed⟩, rfl⟩ := hfail refusal hrefusal
    change p.FairlyBlamed _ index (ascending blamed)
    refine ⟨?_, fun hdiffer => absurd (toFinset_eq_iff.2 hsenders) hdiffer, fun _ i hi => ?_⟩
    · obtain ⟨i, hi⟩ := List.exists_mem_of_ne_nil _ hne
      exact List.ne_nil_of_mem (mem_ascending.2 hi)
    · obtain ⟨⟨_, share⟩, hshare, rfl, hfails⟩ := hblamed i (mem_ascending.1 hi)
      exact ⟨share, Delivery.get?_ofInbox hshare, mt (hcorrect _ share hshare) hfails⟩

end Batches

/-! ### The check -/

/-- The positions that are senders or dealers but not both are blamed. -/
theorem verdict_of_mismatch {p : Participant K} {delivery : Delivery} {index : Int}
    {finding : Finding} (hmismatch : p.senderMismatch delivery.keys ≠ []) :
    p.Verdict delivery index (.error
      (Error.failedCheck .share finding (p.senderMismatch delivery.keys)).written) := by
  have hdiffer := mt senderMismatch_eq_nil_iff.2 hmismatch
  refine ⟨fun haccepted => absurd haccepted.senders hdiffer, ?_⟩
  rintro _ ⟨⟩ hcheck
  rw [offenders_of_isShareCheck hcheck]
  refine ⟨?_, fun _ => ?_, fun hsame => absurd (toFinset_eq_iff.1 hsame) hdiffer⟩
  · obtain ⟨i, hi⟩ := List.exists_mem_of_ne_nil _ hmismatch
    exact List.ne_nil_of_mem (mem_ascending.2 hi)
  · rw [← toFinset_senderMismatch]
    ext i
    simp

/-- What is missing in place of a share passes with no commitment. -/
theorem verdict_of_gap {p : Participant K} {delivery : Delivery} {index i : Int}
    (hgap : delivery.get? i = some none) :
    p.Verdict delivery index (.error (Delivery.missing "*")) := by
  constructor
  · intro haccepted
    obtain ⟨share, hshare, _⟩ := haccepted.accepts i (Mapping.mem_keys_iff.2 (by rw [hgap]; rfl))
    rw [hgap] at hshare
    cases hshare
  · rintro _ ⟨⟩ hcheck
    simp [Delivery.missing, Error.isShareCheck] at hcheck

section Check

variable [LawfulSuite K] {p : Participant K} {s : Sharing} (h : s.CommittedIn p.commitments)
  (hgaps : (∀ i, 1 ≤ i → i ≤ p.dealers → p.gapsOf i = []) → p.gaps.keys = [])
  {powerMap : PowerMap} (hpowers : p.powerMap = some powerMap)
  (hderive : PowerMap.derive p.n s.threshold = .ok powerMap)

include h hgaps hpowers hderive

theorem always_checkShares {index : Int} (h₁ : 1 ≤ index) (h₂ : index ≤ p.n) (delivery : Delivery) :
    Always (p.checkShares delivery index : ExceptT Error (StateM σ) Unit).run
      (p.Verdict delivery index) := by
  have hindex : p.checkIndex index = .ok () := if_pos ⟨h₁, h₂⟩
  have hmap : p.requirePowerMap = .ok powerMap := by rw [requirePowerMap, hpowers]
  have hcomplete : p.requireCommitments = .ok () := by
    rw [requireCommitments, h.missing_eq]
    rfl
  have hrow := PowerMap.row_eq hderive h₁ h₂
  rw [checkShares, hindex, hmap, hcomplete]
  change Always (if _ then _ else _ : ExceptT Error (StateM σ) Unit).run _
  split
  · rename_i hmismatch
    exact fun _ => verdict_of_mismatch (by simpa using hmismatch)
  · rename_i hmatch
    have hsenders : ∀ i, i ∈ delivery.keys ↔ 1 ≤ i ∧ i ≤ p.dealers :=
      senderMismatch_eq_nil_iff.1 (by simpa using hmatch)
    rw [hrow]
    change Always (delivery.weighed p.position >>= _ : ExceptT Error (StateM σ) Unit).run _
    refine .bindExcept ((delivery.always_weighed p.position).mono ?_)
    rintro _ (⟨inbox, rfl, rfl⟩ | ⟨⟨i, hgap⟩, rfl⟩)
    · refine .bindExcept ((p.always_requireWhole _).mono ?_)
      rintro _ (rfl | ⟨hsome, rfl⟩)
      · have hinbox : BatchCheck.Backed s p.commitments inbox.bySender := by
          refine BatchCheck.backed_of_committedIn h fun share hshare => ?_
          rw [← h.dealers_eq]
          exact (hsenders share.1).1 (Delivery.mem_keys_ofInbox hshare)
        exact (always_batch hinbox index).mono fun outcome houtcome =>
          verdict_of_batch h hsenders houtcome.1 houtcome.2
      · refine ⟨fun haccepted => absurd (hgaps fun i h₁ h₂ => ?_) hsome, ?_⟩
        · obtain ⟨_, _, hwhole, _⟩ := haccepted.accepts i ((hsenders i).2 ⟨h₁, h₂⟩)
          exact hwhole
        · rintro _ ⟨⟩ hcheck
          simp [Error.isShareCheck] at hcheck
    · exact verdict_of_gap hgap

end Check

/-! ### The check of an inbox -/

/-- The part of a check that draws: the batch, and the search for those whom a failure is due to. -/
def checkBatch (p : Participant K) (inbox : Inbox) (row : List Scalar) (index : Int) :
    ExceptT Error (StateM σ) Unit := do
  if ← BatchCheck.verify p.position inbox p.commitments row then return
  throw (.failedCheck .share (.shareBatch index) (← p.culprits inbox row index))

/-- The order in which shares have come does not matter. -/
theorem checkBatch_congr (p : Participant K) {inbox inbox' : Inbox}
    (h : ∀ i, inbox.get? i = inbox'.get? i) (row : List Scalar) (index : Int) :
    (p.checkBatch inbox row index : ExceptT Error (StateM σ) Unit) =
      p.checkBatch inbox' row index := by
  simp only [checkBatch, BatchCheck.verify, culprits, BatchCheck.findInvalid, singleMismatches,
    Inbox.bySender_congr h]

section Whole

variable {p : Participant K} {s : Sharing} (h : s.CommittedIn p.commitments)
  (hgaps : p.gaps.keys = []) {powerMap : PowerMap} (hpowers : p.powerMap = some powerMap)
  (hderive : PowerMap.derive p.n s.threshold = .ok powerMap) {inbox : Inbox}
  (hsenders : ∀ i, i ∈ inbox.keys ↔ 1 ≤ i ∧ i ≤ p.dealers) {index : Int} (h₁ : 1 ≤ index)
  (h₂ : index ≤ p.n)

include h hgaps hpowers hderive hsenders h₁ h₂

/-- With a share from every dealer and commitments without gaps the batch alone decides. -/
theorem checkShares_eq_checkBatch :
    (p.checkShares (.ofInbox inbox) index : ExceptT Error (StateM σ) Unit) =
      p.checkBatch inbox (powersFrom index 1 s.threshold) index := by
  have hindex : p.checkIndex index = .ok () := if_pos ⟨h₁, h₂⟩
  have hmap : p.requirePowerMap = .ok powerMap := by rw [requirePowerMap, hpowers]
  have hcomplete : p.requireCommitments = .ok () := by
    rw [requireCommitments, h.missing_eq]
    rfl
  have hmatch : p.senderMismatch (Delivery.ofInbox inbox).keys = [] := by
    rw [senderMismatch_eq_nil_iff, Delivery.ofInbox, Mapping.keys_map]
    exact hsenders
  have hweighed : (Delivery.ofInbox inbox).weighed p.position =
      (pure inbox : ExceptT Error (StateM σ) Inbox) := by
    rw [Delivery.weighed, Delivery.toInbox?_ofInbox]
  have hwhole : p.requireWhole inbox.keys.length = (pure () : ExceptT Error (StateM σ) Unit) := by
    rw [requireWhole, hgaps]
    rfl
  rw [checkShares, hindex, hmap, hcomplete, hmatch]
  change (liftM (powerMap.row index) >>= fun row =>
    (Delivery.ofInbox inbox).weighed p.position >>= fun inbox =>
      p.requireWhole inbox.keys.length >>= fun _ => p.checkBatch inbox row index) = _
  rw [PowerMap.row_eq hderive h₁ h₂, hweighed]
  change (p.requireWhole inbox.keys.length >>= fun _ => p.checkBatch inbox _ index) = _
  rw [hwhole, pure_bind]

/-- Such a check passes, or it blames somebody for the batch. -/
theorem always_checkShares_whole [LawfulSuite K] :
    Always (p.checkShares (.ofInbox inbox) index : ExceptT Error (StateM σ) Unit).run fun outcome =>
      outcome = .ok () ∨
        ∃ blamed, outcome = .error (.failedCheck .share (.shareBatch index) blamed) := by
  have hinbox : BatchCheck.Backed s p.commitments inbox.bySender := by
    refine BatchCheck.backed_of_committedIn h fun share hshare => ?_
    rw [← h.dealers_eq]
    exact (hsenders share.1).1 (Mapping.mem_keys_iff.2 (by rw [Inbox.mem_bySender.1 hshare]; rfl))
  rw [checkShares_eq_checkBatch h hgaps hpowers hderive hsenders h₁ h₂]
  refine Always.mono (always_batch hinbox index) fun outcome houtcome => ?_
  cases outcome with
  | ok => exact .inl rfl
  | error refusal =>
    obtain ⟨blamed, -, rfl⟩ := houtcome.2 refusal rfl
    exact .inr ⟨blamed, rfl⟩

end Whole

/-- A rejected batch blames somebody, and no dealer whose share passes. -/
theorem checkShares_verdict [LawfulSuite K] {p : Participant K} (hp : p.Reachable)
    (hpowers : p.powerMap.isSome) (hcomplete : p.commitments.missing = []) {index : Int}
    (h₁ : 1 ≤ index) (h₂ : index ≤ p.n) (delivery : Delivery) (source : σ) :
    p.Verdict delivery index ((p.checkShares delivery index).run.run source).1 := by
  obtain ⟨s, hs⟩ := hp.sound.exists_committedIn hcomplete
  obtain ⟨powerMap, hmap⟩ := Option.isSome_iff_exists.1 hpowers
  have hthreshold : p.threshold = s.threshold := hs.threshold_eq
  exact always_checkShares hs hp.sound.gaps_keys_eq_nil hmap
    (hthreshold ▸ hp.sound.powerMap_eq powerMap hmap) h₁ h₂ delivery source

/-- The first of three participants, which has prepared the powers of the indices. -/
def trioReady : Participant ResidueKey := trio.derivePowerMap.2

/-- What the three deal to the second index, with errors in two of the shares. -/
def trioInbox (first third : Scalar) : Inbox :=
  .ofList [(1, .ofInt 9 + first), (2, .ofInt 12), (3, .ofInt 15 + third)]

theorem bySender_trioInbox (first third : Scalar) :
    (trioInbox first third).bySender =
      [(1, .ofInt 9 + first), (2, .ofInt 12), (3, .ofInt 15 + third)] :=
  List.mergeSort_of_pairwise (by
    simp [trioInbox, Mapping.ofList, Mapping.putEntry, Mapping.empty, Mapping.put])

theorem checkShares_trioInbox (first third : Scalar) :
    (trioReady.checkShares (.ofInbox (trioInbox first third)) 2 :
      ExceptT Error (StateM σ) Unit) =
        trioReady.checkBatch (trioInbox first third) (powersFrom 2 1 2) 2 := by
  have hsenders : ∀ i, i ∈ (trioInbox first third).keys ↔ 1 ≤ i ∧ i ≤ trioReady.dealers := by
    intro i
    change i ∈ [1, 2, 3] ↔ 1 ≤ i ∧ i ≤ 3
    simp only [List.mem_cons, List.not_mem_nil, or_false]
    omega
  exact checkShares_eq_checkBatch (p := trioReady) committedIn_trioTable rfl rfl rfl hsenders
    (by decide) (by decide)

/-- A wrong share of the first dealer is found by halving. Wrong shares of the first and the third
cancel when the halving begins, and are found one by one. -/
theorem exists_checkShares_verdict : trioReady.Reachable ∧ trioReady.powerMap.isSome ∧
    trioReady.commitments.missing = [] ∧ 2 ≤ trioReady.n ∧
    ((trioReady.checkShares (.ofInbox (trioInbox 1 0)) 2).run.run
      (Tape.new [] [1, 2, 3, 1, 2, 3, 1, 1] "")).1 =
        .error (.failedCheck .share (.shareBatch 2) [1]) ∧
    trioReady.FairlyBlamed (.ofInbox (trioInbox 1 0)) 2 [1] ∧
    ((trioReady.checkShares (.ofInbox (trioInbox 1 (-1))) 2).run.run
      (Tape.new [] [1, 2, 3, 1, 1, 1] "")).1 =
        .error (.failedCheck .share (.shareBatch 2) [1, 3]) ∧
    trioReady.FairlyBlamed (.ofInbox (trioInbox 1 (-1))) 2 [1, 3] := by
  have hreachable : trioReady.Reachable := reachable_trio.derivePowerMap
  have hmissing : trioReady.commitments.missing = [] := committedIn_trioTable.missing_eq
  have hhalved : ((trioReady.checkShares (.ofInbox (trioInbox 1 0)) 2).run.run
      (Tape.new [] [1, 2, 3, 1, 2, 3, 1, 1] "")).1 =
        .error (.failedCheck .share (.shareBatch 2) [1]) := by
    rw [checkShares_trioInbox, checkBatch, BatchCheck.verify, culprits, BatchCheck.findInvalid,
      bySender_trioInbox, BatchCheck.bisect]
    dsimp only
    rw [BatchCheck.bisect.eq_def _ _ _ (List.take _ _),
      BatchCheck.bisect.eq_def _ _ _ (List.drop _ _)]
    rfl
  have hsingle : ((trioReady.checkShares (.ofInbox (trioInbox 1 (-1))) 2).run.run
      (Tape.new [] [1, 2, 3, 1, 1, 1] "")).1 =
        .error (.failedCheck .share (.shareBatch 2) [1, 3]) := by
    rw [checkShares_trioInbox, checkBatch, BatchCheck.verify, culprits, BatchCheck.findInvalid,
      singleMismatches, bySender_trioInbox, BatchCheck.bisect]
    rfl
  exact ⟨hreachable, rfl, hmissing, by decide, hhalved,
    (checkShares_verdict hreachable rfl hmissing (by decide) (by decide) _ _).of_refused _ hhalved
      rfl, hsingle,
    (checkShares_verdict hreachable rfl hmissing (by decide) (by decide) _ _).of_refused _ hsingle
      rfl⟩

end Participant

end ThresholdKeygen
