import ThresholdKeygen.Proofs.KnowledgeProof
import ThresholdKeygen.Proofs.Participant.Consistent

/-!
# Dealing of honest participants

How a participant that deals its part of a sharing comes to hold the commitments of all dealers, and
what it proves and deals then. A participant is first enrolled, with some of the commitments, and
ready once it has all of them.
-/

namespace ThresholdKeygen

variable {K : Type} [Suite K] {σ : Type} [RandomSource σ]

theorem checkSlots_eq {slots : Int} (h : slots ≤ maxSlots) : checkSlots slots = .ok () := by
  have hmax : maxSlots < wordBound := by decide
  rw [checkSlots, if_neg (by omega), if_neg (by omega)]

namespace Sharing

/-- That no dealer has a coefficient that is zero. -/
def Nonzero (s : Sharing) : Prop := ∀ i, 1 ≤ i → i ≤ s.dealers → ∀ c ∈ s.dealt i, c ≠ 0

/-- Registering the commitment of a dealer, be it for the first time or again. -/
theorem Collects.register [LawfulSuite K] {s : Sharing} {table : CommitmentTable K}
    (h : s.Collects table) {i : Int} (h₁ : 1 ≤ i) (h₂ : i ≤ s.dealers) :
    ∃ fresh table', table.register i (.ofCoefficients (s.dealt i)) = .ok (fresh, table') ∧
      s.Collects table' ∧
      ∀ j, (table'.slots.get? j).isSome ↔ j = i ∨ (table.slots.get? j).isSome := by
  have hsender : table.checkSender i = .ok () := if_pos ⟨h₁, h.dealers_eq ▸ h₂⟩
  have hlength : ¬ ((Commitment.ofCoefficients (s.dealt i) : Commitment K).points.length : Int) ≠
      table.threshold := by
    simp [Commitment.ofCoefficients, Coefficients.commit, s.length_dealt i h₁ h₂, h.threshold_eq]
  rw [CommitmentTable.register, hsender, ok_bind, if_neg hlength]
  cases hcurrent : table.slots.get? i with
  | some current =>
    refine ⟨false, table, ?_, h, fun j => ?_⟩
    · simp [h.get?_eq i current hcurrent]
    · refine (or_iff_right_of_imp ?_).symm
      rintro rfl
      rw [hcurrent]
      rfl
  | none =>
    refine ⟨true, _, rfl, ⟨h.dealers_eq, h.threshold_eq, fun j c hc => ?_⟩, fun j => ?_⟩
    · rw [Mapping.get?_put] at hc
      split at hc
      · rw [← Option.some.inj hc, ‹j = i›]
      · exact h.get?_eq j c hc
    · rw [Mapping.get?_put]
      split <;> simp [*]

end Sharing

/-- The first commitment of a table. -/
theorem CommitmentTable.register_empty {dealers position : Int} {threshold : Nat}
    {polynomial : Coefficients} (hx₁ : 1 ≤ position) (hx₂ : position ≤ dealers)
    (hlength : polynomial.length = threshold) :
    (register ⟨dealers, threshold, .empty⟩ position (.ofCoefficients polynomial) :
      Except Error (Bool × CommitmentTable K)) = .ok (true, ⟨dealers, threshold,
        Mapping.empty.put position (.ofCoefficients polynomial)⟩) := by
  have hpoints : ((Commitment.ofCoefficients polynomial : Commitment K).points.length : Int) =
      threshold := by
    simp [Commitment.ofCoefficients, Coefficients.commit, hlength]
  rw [register, checkSender, if_pos ⟨hx₁, hx₂⟩, ok_bind, if_neg (not_not.2 hpoints)]
  rfl

theorem Coefficients.succeeds_sample (who : Int) {count : Nat} (hcount : 1 ≤ count) :
    Succeeds (sample who (count - 1) none : ExceptT Error (StateM σ) Coefficients) fun coeffs =>
      coeffs.length = count ∧ ∀ c ∈ coeffs, c ≠ 0 := by
  have hdegree : ((count : Int) - 1).toNat + 1 = count := by omega
  rw [sample, if_neg (by omega), hdegree]
  exact .lift (always_drawScalars who count)

namespace Participant

/-! ### Enrolment -/

/-- That a participant is a newcomer with some polynomial whose coefficients are not zero. -/
def New (n dealers : Int) (threshold : Nat) (context : Item K) (x : Int) (p : Participant K) :
    Prop :=
  ∃ polynomial : Coefficients, polynomial.length = threshold ∧ (∀ c ∈ polynomial, c ≠ 0) ∧
    p = newcomer n dealers threshold x context polynomial

section New

variable {n dealers x : Int} {threshold : Nat} {context : Item K} {p : Participant K}
  (h : p.New n dealers threshold context x)

include h

theorem New.n_eq : p.n = n := by
  obtain ⟨polynomial, -, -, rfl⟩ := h
  rfl

theorem New.position_eq : p.position = x := by
  obtain ⟨polynomial, -, -, rfl⟩ := h
  rfl

end New

theorem succeeds_create {n dealers position : Int} {threshold : Nat} (ht₁ : 1 ≤ threshold)
    (ht₂ : threshold ≤ n) (hd : dealers ≤ n) (hx₁ : 1 ≤ position) (hx₂ : position ≤ dealers)
    (hslots : n < maxSlots) {choice : Option Int} (hchoice : choice.getD n = dealers)
    (context : Item K) :
    Succeeds (create n threshold position choice context : ExceptT Error (StateM σ) _)
      (New n dealers threshold context position) := by
  have hempty : (CommitmentTable.new dealers threshold : Except Error (CommitmentTable K)) =
      .ok ⟨dealers, threshold, .empty⟩ := by
    rw [CommitmentTable.new, if_neg (by omega), checkSlots_eq (by omega)]
    rfl
  rw [create, hchoice, if_neg (by omega), if_neg (by omega), if_neg (by omega), if_neg (by omega)]
  simp only [hempty, checkSlots_eq (show n + 1 ≤ maxSlots by omega)]
  refine .bind ((Coefficients.succeeds_sample position ht₁).mono ?_)
  rintro polynomial ⟨hlength, hne⟩
  have hregister := CommitmentTable.register_empty (K := K) hx₁ hx₂ hlength
  refine .bind (.steady rfl (.bind (.steady hregister (.bind (.steady rfl (.pure ?_))))))
  exact ⟨polynomial, hlength, hne, rfl⟩

/-- A participant that has computed nothing yet and holds its own commitment, perhaps some of the
others, and none that is not of a sharing. -/
structure Enrolled (s : Sharing) (n x : Int) (p : Participant K) : Prop where
  n_eq : p.n = n
  position_eq : p.position = x
  polynomial_eq : p.polynomial = s.dealt x
  collects : s.Collects p.commitments
  own : (p.commitments.slots.get? x).isSome
  gaps_eq : p.gaps = .empty
  sharesIn_eq : p.sharesIn = .empty
  signingShare_eq : p.signingShare = none
  publicShares_eq : p.publicShares = .empty
  powerMap_eq : p.powerMap = none
  joint_eq : p.joint = none
  shareMap_eq : p.shareMap = none
  groupKey_eq : p.groupKey = none
  stage_le : p.stage ≤ .commitmentsExchanged
  le_stage : p.commitments.isComplete → .commitmentsExchanged ≤ p.stage
  failure_eq : p.failure = none

theorem enrolled_newcomer {s : Sharing} {n x : Int} (context : Item K) :
    (newcomer n s.dealers s.threshold x context (s.dealt x)).Enrolled s n x := by
  have hslot : ∀ i,
      (newcomer n s.dealers s.threshold x context (s.dealt x)).commitments.slots.get? i =
        if i = x then some (.ofCoefficients (s.dealt x)) else none :=
    fun i => Mapping.get?_put .empty x i _
  constructor <;> try rfl
  · refine ⟨rfl, rfl, fun i c hc => ?_⟩
    rw [hslot] at hc
    split at hc
    · rw [← Option.some.inj hc, ‹i = x›]
    · cases hc
  · rw [hslot, if_pos rfl]
    rfl
  · exact stage_newcomer_le _ _ _ _ _ _
  · intro hcomplete
    exact Nat.le_of_eq (congrArg Stage.rank (if_pos hcomplete).symm)

namespace Enrolled

variable {s : Sharing} {n x : Int} {p : Participant K} (h : p.Enrolled s n x)

include h

theorem commitment_eq (hx₁ : 1 ≤ x) (hx₂ : x ≤ s.dealers) :
    p.commitment = .ok (.ofCoefficients (s.dealt x)) := by
  have hsender : p.commitments.checkSender x = .ok () :=
    if_pos ⟨hx₁, by rwa [h.collects.dealers_eq]⟩
  obtain ⟨c, hc⟩ := Option.isSome_iff_exists.1 h.own
  rw [commitment, h.position_eq, CommitmentTable.commitmentOf, CommitmentTable.get, hsender,
    ok_bind, hc, h.collects.get?_eq x c hc]
  rfl

/-- An enrolled participant receives the commitment of a dealer. -/
theorem receiveCommitment_eq [LawfulSuite K] {i : Int} (h₁ : 1 ≤ i) (h₂ : i ≤ s.dealers) :
    ∃ p', p.receiveCommitment i (.ofCoefficients (s.dealt i)) = (.ok (), p') ∧ p'.Enrolled s n x ∧
      ∀ j, (p'.commitments.slots.get? j).isSome ↔
        j = i ∨ (p.commitments.slots.get? j).isSome := by
  obtain ⟨fresh, table, hregister, hcollects, hslots⟩ := h.collects.register h₁ h₂
  have hgaps : { p with commitments := table }.noteGaps i fresh [] =
      .ok { p with commitments := table } := by
    rw [noteGaps, gapsOf, h.gaps_eq]
    exact if_pos rfl
  refine ⟨if table.isComplete then { p with commitments := table }.advance .commitmentsExchanged
    else { p with commitments := table }, ?_, ?_, ?_⟩
  · rw [receiveCommitment, receivePublication, Publication.filled_ofCommitment, hregister, ok_bind]
    simp only [Publication.gaps_ofCommitment, hgaps, ok_bind]
    rfl
  · split
    · exact { h with
        collects := hcollects
        own := (hslots x).2 (.inr h.own)
        stage_le := Stage.later_le h.stage_le (Nat.le_refl _)
        le_stage := fun _ => Stage.le_later_right _ _ }
    · exact { h with
        collects := hcollects
        own := (hslots x).2 (.inr h.own)
        le_stage := fun hcomplete => absurd hcomplete ‹_› }
  · intro j
    rw [← hslots j]
    split <;> rfl

/-- Having the commitments of all dealers, the participant is consistent. -/
theorem consistent (hcomplete : ∀ i, 1 ≤ i → i ≤ s.dealers →
    (p.commitments.slots.get? i).isSome) : p.Consistent s where
  committed := h.collects.committedIn hcomplete
  gaps_eq := by rw [h.gaps_eq]; rfl
  failure_eq := h.failure_eq
  powerMap_eq := by rw [h.powerMap_eq]; rintro _ ⟨⟩
  signingShare_eq := by rw [h.signingShare_eq]; rintro _ ⟨⟩
  joint_eq := by rw [h.joint_eq]; rintro _ ⟨⟩
  shareMap_eq := by rw [h.shareMap_eq]; rintro _ ⟨⟩
  publicShares_eq := by rw [h.publicShares_eq]; rintro _ _ ⟨⟩
  groupKey_eq := by rw [h.groupKey_eq]; rintro _ ⟨⟩

end Enrolled

/-! ### Honesty -/

/-- A consistent participant that sits at a position and has the polynomial that a sharing gives to
it. -/
structure Honest (s : Sharing) (n x : Int) (p : Participant K) : Prop where
  n_eq : p.n = n
  position_eq : p.position = x
  polynomial_eq : p.polynomial = s.dealt x
  consistent : p.Consistent s

/-- An honest participant that has all commitments and has not dealt yet. -/
structure Ready (s : Sharing) (n x : Int) (p : Participant K) : Prop extends Honest s n x p where
  stage_eq : p.stage = .commitmentsExchanged
  sharesIn_eq : p.sharesIn = .empty

theorem Enrolled.ready {s : Sharing} {n x : Int} {p : Participant K} (h : p.Enrolled s n x)
    (hcomplete : ∀ i, 1 ≤ i → i ≤ s.dealers → (p.commitments.slots.get? i).isSome) :
    p.Ready s n x where
  n_eq := h.n_eq
  position_eq := h.position_eq
  polynomial_eq := h.polynomial_eq
  consistent := h.consistent hcomplete
  stage_eq := by
    have hmissing : p.commitments.isComplete = true := by
      rw [CommitmentTable.isComplete, (h.consistent hcomplete).committed.missing_eq]
      rfl
    exact Stage.le_antisymm h.stage_le (h.le_stage hmissing)
  sharesIn_eq := h.sharesIn_eq

namespace Honest

variable {s : Sharing} {n x : Int} {p : Participant K} (h : p.Honest s n x)

include h

/-! ### Proofs of knowledge -/

theorem runContext_eq (label : Item K) {context : Bytes}
    (hcontext : Transcript.runContext label n s.dealers s.threshold = .ok context) :
    p.runContext (some label) = .ok (.bytes context) := by
  have hdealers : p.dealers = s.dealers := h.consistent.committed.dealers_eq
  have hthreshold : p.threshold = s.threshold := h.consistent.committed.threshold_eq
  rw [runContext, Option.getD_some, h.n_eq, hdealers, hthreshold, hcontext]
  rfl

theorem commitment_eq (hx₁ : 1 ≤ x) (hx₂ : x ≤ s.dealers) :
    p.commitment = .ok (.ofCoefficients (s.dealt x)) := by
  rw [commitment, h.position_eq]
  exact h.consistent.committed.commitmentOf_eq hx₁ hx₂

/-- An honest participant proves that it knows its constant term. -/
theorem succeeds_prove [LawfulSuite K] (hx₁ : 1 ≤ x) (hx₂ : x ≤ s.dealers)
    (hthreshold : 1 ≤ s.threshold) (hnonzero : s.Nonzero) (label : Item K) {context : Bytes}
    (hcontext : Transcript.runContext label n s.dealers s.threshold = .ok context)
    (hencodable : (.bytes context : Item K).Encodable)
    (hposition : (.int x : Item K).Encodable) :
    Succeeds (p.prove (some label) : ExceptT Error (StateM σ) (KnowledgeProof K)) fun proof =>
      proof.verify (.ofScalar ((s.dealt x).headD 0)) x (.bytes context) = .ok true := by
  have hlength : 0 < (s.dealt x).length := by rwa [s.length_dealt x hx₁ hx₂]
  have hsecret : (s.dealt x).headD 0 ≠ 0 := by
    obtain ⟨c, coeffs, hdealt⟩ := List.exists_cons_of_length_pos hlength
    have hne := hnonzero x hx₁ hx₂
    rw [hdealt] at hne ⊢
    exact hne c (.head _)
  rw [prove]
  refine .bind (.steady (h.commitment_eq hx₁ hx₂) (.bind (.steady
    (Commitment.constant_ofCoefficients hlength) (.bind (.steady
      (h.runContext_eq label hcontext) ?_)))))
  rw [h.polynomial_eq, h.position_eq]
  exact KnowledgeProof.succeeds_prove hsecret hencodable hposition

theorem constantOf_eq {i : Int} (h₁ : 1 ≤ i) (h₂ : i ≤ s.dealers) (hthreshold : 1 ≤ s.threshold) :
    p.constantOf i (.ofCoefficients (s.dealt i)) =
      .ok (some (.ofScalar ((s.dealt i).headD 0))) := by
  have hlength : 0 < (s.dealt i).length := by rwa [s.length_dealt i h₁ h₂]
  rw [constantOf, if_neg (by rw [h.consistent.gapsOf_eq]; exact List.not_mem_nil),
    Commitment.constant_ofCoefficients hlength]
  rfl

/-- An honest participant accepts the proof of a dealer. -/
theorem verifyPublished_eq [LawfulSuite K] {i : Int} (h₁ : 1 ≤ i) (h₂ : i ≤ s.dealers)
    (hthreshold : 1 ≤ s.threshold) (label : Item K) {context : Bytes}
    (hcontext : Transcript.runContext label n s.dealers s.threshold = .ok context)
    {proof : KnowledgeProof K}
    (hproof : proof.verify (.ofScalar ((s.dealt i).headD 0)) i (.bytes context) = .ok true) :
    p.verifyPublished (some label) (some proof.announcement) proof.response i
      (some (.ofScalar ((s.dealt i).headD 0))) = .ok true := by
  have hsender : p.commitments.checkSender i = .ok () :=
    if_pos ⟨h₁, by rwa [h.consistent.committed.dealers_eq]⟩
  have hagrees : p.agreesWith i (some (.ofScalar ((s.dealt i).headD 0))) = .ok true := by
    rw [agreesWith, CommitmentTable.get, hsender, ok_bind, h.consistent.committed.get?_eq i h₁ h₂]
    simp only [pure_eq_ok, ok_bind, h.constantOf_eq h₁ h₂ hthreshold, beq_self_eq_true]
  simp only [verifyPublished, verifyProof, hagrees, ok_bind, Bool.not_true, Bool.false_eq_true,
    if_false, h.runContext_eq label hcontext, hproof]

end Honest

/-! ### Shares -/

/-- An honest participant that has dealt and has not received anything yet. -/
structure Dealt (s : Sharing) (n x : Int) (p : Participant K) : Prop extends Honest s n x p where
  stage_eq : p.stage = .sharesDistributed
  sharesIn_eq : p.sharesIn = .empty
  sharesOut_eq : ∀ y ∈ upTo n, p.sharesOut.get? y = some ((s.dealt x).evaluate y)

/-- An honest participant deals the values of its polynomial. -/
theorem Ready.dealShares_eq {s : Sharing} {n x : Int} {p : Participant K} (h : p.Ready s n x) :
    ∃ p', p.dealShares = (.ok (), p') ∧ p'.Dealt s n x := by
  have hstage : .commitmentsExchanged ≤ p.stage := by rw [h.stage_eq]; exact Nat.le_refl _
  have hdeal : p.dealShares = (.ok (), { p with
      sharesOut := p.sharesOut.putAll
        ((upTo n).map fun y => (y, (s.dealt x).evaluate (Scalar.ofInt y))) }.advance
        .sharesDistributed) := by
    rw [dealShares, requireStage_eq h.consistent.failure_eq hstage, ok_bind, h.n_eq,
      h.polynomial_eq]
    rfl
  refine ⟨_, hdeal, { h with consistent := { h.consistent with }
                             stage_eq := ?_
                             sharesOut_eq := fun y hy => ?_ }⟩
  · rw [advance, h.stage_eq]
    rfl
  · exact (Mapping.get?_putAll p.sharesOut (upTo n)
      (fun y => (s.dealt x).evaluate (Scalar.ofInt y)) y).trans (if_pos hy)

theorem Dealt.shareFor_eq {s : Sharing} {n x : Int} {p : Participant K} (h : p.Dealt s n x)
    {y : Int} (hy : y ∈ upTo n) : p.shareFor y = .ok ((s.dealt x).evaluate y) := by
  obtain ⟨h₁, h₂⟩ := mem_upTo.1 hy
  rw [shareFor, checkIndex_eq h₁ (h.n_eq ▸ h₂), ok_bind, h.sharesOut_eq y hy]
  rfl

omit [Suite K] in
theorem storeShares_eq (p : Participant K) {shares : List (Int × Scalar)}
    (hsenders : ∀ share ∈ shares, 1 ≤ share.1 ∧ share.1 ≤ p.dealers) :
    p.storeShares (shares.map fun (i, share) => (i, some share)) =
      (.ok (), { p with sharesIn := p.sharesIn.putAll shares }) := by
  induction shares generalizing p with
  | nil => rfl
  | cons share shares ih =>
    obtain ⟨hshare, hshares⟩ := List.forall_mem_cons.1 hsenders
    rw [List.map_cons, storeShares, if_pos hshare]
    exact ih { p with sharesIn := p.sharesIn.put share.1 share.2 } hshares

/-- A participant that has received nothing so far receives the shares of all dealers. -/
theorem Consistent.receiveShares_eq {s : Sharing} {p : Participant K} (h : p.Consistent s)
    (hstage : ¬ .sharesVerified ≤ p.stage) (hempty : p.sharesIn = .empty) {index : Int}
    {inbox : Inbox} (hinbox : s.DealtTo index inbox) : ∃ sharesIn,
    p.receiveShares (.ofInbox inbox) = (.ok (), { p with sharesIn }) ∧
      s.DealtTo index sharesIn := by
  refine ⟨p.sharesIn.putAll inbox.entries, ?_, fun i => ?_⟩
  · rw [receiveShares, if_neg hstage]
    apply p.storeShares_eq
    intro share hshare
    have hdealt := hinbox share.1
    rw [Mapping.get?_eq_some_iff.2 hshare] at hdealt
    split at hdealt
    · rw [dealers, h.committed.dealers_eq]
      exact mem_upTo.1 ‹_›
    · cases hdealt
  · rw [hempty, Mapping.get?_putAll_entries, Mapping.get?_empty, Option.or_none]
    exact hinbox i

end Participant

end ThresholdKeygen
