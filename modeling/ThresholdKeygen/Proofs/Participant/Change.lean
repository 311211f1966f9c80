import ThresholdKeygen.Participant.PublicShares
import ThresholdKeygen.Proofs.CommitmentTable
import ThresholdKeygen.Proofs.Draws

/-!
# Operations on participants

The operations on participants as data, and the rules by which they change a participant. Main
statement: `change_perform`, every operation changes a participant by one of the rules, or not at
all.
-/

namespace ThresholdKeygen

theorem attempt_cases {S α : Type} {s : S} {result : Except Error (α × S)} {Q : S → Prop}
    (hs : Q s) (h : Yields result fun answer => Q answer.2) : Q (attempt s result).2 := by
  cases result with
  | error refusal => exact hs
  | ok answer => exact h answer rfl

theorem exists_of_attempt_eq_ok {S α : Type} {s : S} {result : Except Error (α × S)} {a : α}
    (h : (attempt s result).1 = .ok a) : ∃ s', result = .ok (a, s') := by
  cases result with
  | error refusal => cases h
  | ok answer =>
    obtain rfl := Except.ok.inj h
    exact ⟨answer.2, rfl⟩

theorem eq_of_attempt_eq_ok {S α : Type} {s s' : S} {result : Except Error (α × S)} {a : α}
    (h : attempt s result = (.ok a, s')) : result = .ok (a, s') := by
  cases result with
  | error refusal => cases (Prod.mk.inj h).1
  | ok answer =>
    obtain ⟨hresult, rfl⟩ := Prod.mk.inj h
    obtain rfl := Except.ok.inj hresult
    rfl

theorem eq_of_attempt_eq_error {S α : Type} {s s' : S} {result : Except Error (α × S)}
    {refusal : Error} (h : attempt s result = (.error refusal, s')) : s' = s := by
  cases result with
  | error _ => exact (Prod.mk.inj h).2.symm
  | ok answer => cases (Prod.mk.inj h).1

variable {K : Type} [Suite K] {σ : Type} [RandomSource σ]

namespace Participant

/-- An operation that may change a participant, with what it is given. The last two are those by
which the state of a party moves its participant. -/
inductive Operation (K : Type) where
  | receivePublication (sender : Int) (publication : Publication K)
  | dealShares
  | receiveShares (delivery : Delivery)
  | derivePowerMap
  | verifyShares (delivery : Option Delivery) (index : Option Int)
  | computeSigningShare
  | deriveJoint
  | deriveShareMap
  | importJoint (snapshot : Bytes) (recompute : Bool)
  | importShareMap (snapshot : Bytes) (recompute : Bool)
  | publishOwnShare (signingShare : Option Scalar) (index : Option Int)
  | publishShares (excluded : List Int)
  | deriveGroupKey
  | advance (stage : Stage)
  | abort (failure : Error)

namespace Operation

/-- The participant that an operation leaves behind, whether it refuses or not. -/
def perform (p : Participant K) : Operation K → StateM σ (Participant K)
  | receivePublication sender publication => return (p.receivePublication sender publication).2
  | dealShares => return p.dealShares.2
  | receiveShares delivery => return (p.receiveShares delivery).2
  | derivePowerMap => return p.derivePowerMap.2
  | verifyShares delivery index => return (← p.verifyShares delivery index).2
  | computeSigningShare => return p.computeSigningShare.2
  | deriveJoint => return p.deriveJoint.2
  | deriveShareMap => return p.deriveShareMap.2
  | importJoint snapshot recompute => return (p.importJoint snapshot recompute).2
  | importShareMap snapshot recompute => return (p.importShareMap snapshot recompute).2
  | publishOwnShare signingShare index => return (p.publishOwnShare signingShare index).2
  | publishShares excluded => return (p.publishShares excluded).2
  | deriveGroupKey => return p.deriveGroupKey.2
  | advance stage => return p.advance stage
  | abort failure => return p.abort failure

end Operation

/-! ### The rules -/

/-- The shares that a participant deals. -/
def dealtShares (p : Participant K) : List (Int × Scalar) :=
  (upTo p.n).map fun x => (x, p.polynomial.evaluate (Scalar.ofInt x))

/-- The participant with the stage that its commitments allow. -/
def caughtUp (p : Participant K) : Participant K :=
  if p.commitments.isComplete then p.advance .commitmentsExchanged else p

/-- The outcome of a verification, for what it is given and the randomness that it draws. -/
def checkOutcome (source : σ) (p : Participant K) (delivery : Option Delivery)
    (index : Option Int) : Except Error Unit :=
  ((p.checkDealtShares (delivery.getD (.ofInbox p.sharesIn)) (index.getD p.position)).run.run
    source).1

/-- What an operation does to a participant, with the conditions under which it does so. -/
inductive Change (source : σ) : Operation K → Participant K → Participant K → Prop where
  | unchanged (operation : Operation K) (p : Participant K) : Change source operation p p
  | failed (operation : Operation K) (p : Participant K) {refusal : Error}
      (h : refusal.isVerification = true) : Change source operation p (p.abort refusal)
  | repeated {p : Participant K} {sender : Int} {publication : Publication K}
      (h : (p.commitments.slots.get? sender).isSome) :
      Change source (.receivePublication sender publication) p p.caughtUp
  | registered {p : Participant K} {sender : Int} {publication : Publication K}
      {gaps : Mapping Int (List Nat)} (hsender : 1 ≤ sender ∧ sender ≤ p.dealers)
      (hlength : (publication.filled.points.length : Int) = p.threshold)
      (hnone : p.commitments.slots.get? sender = none)
      (hgaps : p.gapsOf sender = publication.gaps ∧ gaps = p.gaps ∨
        p.gapsOf sender ≠ publication.gaps ∧ gaps = p.gaps.put sender publication.gaps) :
      Change source (.receivePublication sender publication) p
        { p with
          commitments := { p.commitments with
            slots := p.commitments.slots.put sender publication.filled }
          gaps }.caughtUp
  | dealt {p : Participant K} (hstage : p.requireStage .commitmentsExchanged = .ok ()) :
      Change source .dealShares p
        ({ p with sharesOut := p.sharesOut.putAll p.dealtShares }.advance .sharesDistributed)
  | received {p : Participant K} {delivery : Delivery} {inbox : Inbox}
      (hstage : ¬ Stage.sharesVerified ≤ p.stage)
      (h : (p.storeShares delivery.entries).2 = { p with sharesIn := inbox }) :
      Change source (.receiveShares delivery) p { p with sharesIn := inbox }
  | preparedPowers {p : Participant K} {m : PowerMap} (hnone : p.powerMap = none)
      (h : PowerMap.derive p.n p.threshold = .ok m) :
      Change source .derivePowerMap p { p with powerMap := some m }
  | verified {p : Participant K} {delivery : Option Delivery} {index : Option Int}
      (h : checkOutcome source p delivery index = .ok ()) :
      Change source (.verifyShares delivery index) p (p.advance .sharesVerified)
  | signed {p : Participant K} (hstage : p.requireStage .sharesVerified = .ok ())
      (hall : ∀ i, 1 ≤ i → i ≤ p.dealers → (p.sharesIn.get? i).isSome) :
      Change source .computeSigningShare p
        ({ p with signingShare := some (Scalar.sum p.sharesIn.values) }.advance
          .signingShareComputed)
  | derivedJoint {p : Participant K} {q : JointCommitment K}
      (hstage : p.requireStage .commitmentsExchanged = .ok ()) (h : p.sumCommitments = .ok q) :
      Change source .deriveJoint p { p with joint := some q }
  | derivedShareMap {p : Participant K} {q : JointCommitment K} {m : PowerMap} {w : ShareMap K}
      (hstage : p.requireStage .commitmentsExchanged = .ok ()) (hjoint : p.joint = some q)
      (hpowers : p.powerMap = some m) (h : ShareMap.derive q m = .ok w) :
      Change source .deriveShareMap p { p with shareMap := some w }
  | importedJoint {p : Participant K} {snapshot : Bytes} {recompute : Bool} {q : JointCommitment K}
      (hstage : p.requireStage .commitmentsExchanged = .ok ())
      (h : JointCommitment.ofBytes? snapshot = .ok q)
      (hthreshold : (q.threshold : Int) = p.threshold)
      (hown : recompute = true → ∃ own, p.sumCommitments = .ok own ∧ (own != q) = false) :
      Change source (.importJoint snapshot recompute) p { p with joint := some q }
  | importedShareMap {p : Participant K} {snapshot : Bytes} {recompute : Bool} {w : ShareMap K}
      (hstage : p.requireStage .commitmentsExchanged = .ok ())
      (h : ShareMap.ofBytes? snapshot = .ok w) (hsize : (w.size : Int) = p.n)
      (hown : recompute = true → ∃ q m own,
        (p.joint = some q ∨ p.joint = none ∧ p.sumCommitments = .ok q) ∧ p.powerMap = some m ∧
          ShareMap.derive q m = .ok own ∧ (own != w) = false) :
      Change source (.importShareMap snapshot recompute) p { p with shareMap := some w }
  | publishedOwn {p : Participant K} {signingShare : Option Scalar} {index : Option Int}
      {share : Scalar} (hstage : p.requireStage .signingShareComputed = .ok ())
      (hindex : p.checkIndex (index.getD p.position) = .ok ())
      (hshare : signingShare.or p.signingShare = some share)
      (hagree : p.conflicts [(index.getD p.position, .ofScalar share)] = []) :
      Change source (.publishOwnShare signingShare index) p
        { p with
          publicShares := p.publicShares.putAll [(index.getD p.position, .ofScalar share)] }
  | published {p : Participant K} {excluded : List Int} {shares : List (Int × Point K)}
      (hstage : p.requireStage .signingShareComputed = .ok ())
      (hshares : (((upTo p.n).filter (· ∉ excluded)).mapM fun x => do
        return (x, ← p.externalShare x) : Except Error _) = .ok shares)
      (hagree : p.conflicts shares = []) :
      Change source (.publishShares excluded) p
        ({ p with publicShares := p.publicShares.putAll shares }.advance .publicSharesComputed)
  | keyed {p : Participant K} {key : Point K}
      (hstage : p.requireStage .publicSharesComputed = .ok ())
      (hkey : p.groupKey = some key ∨ p.groupKey = none ∧ p.sumConstants = .ok key) :
      Change source .deriveGroupKey p
        ({ p with groupKey := some key }.advance .groupKeyDerived)
  | advanced (p : Participant K) (stage : Stage) :
      Change source (.advance stage) p (p.advance stage)
  | aborted (p : Participant K) (failure : Error) :
      Change source (.abort failure) p (p.abort failure)

/-! ### Inversion -/

section Inversion

omit [Suite K]

theorem verifyAttempt_cases {α : Type} {p : Participant K}
    {result : Except Error (α × Participant K)} {Q : Participant K → Prop} (hp : Q p)
    (habort : ∀ refusal : Error, refusal.isVerification = true → Q (p.abort refusal))
    (h : Yields result fun answer => Q answer.2) : Q (p.verifyAttempt result).2 := by
  cases result with
  | error refusal =>
    rw [verifyAttempt]
    split
    · exact habort refusal ‹_›
    · exact hp
  | ok answer => exact h answer rfl

/-- A verification that succeeds leaves behind what it yields. -/
theorem of_verifyAttempt_eq_ok {α : Type} {p : Participant K}
    {result : Except Error (α × Participant K)} (f : α → Participant K) (Q : α → Prop)
    (hyields : Yields result fun answer => answer.2 = f answer.1 ∧ Q answer.1) {a : α}
    (h : (p.verifyAttempt result).1 = .ok a) : p.verifyAttempt result = (.ok a, f a) ∧ Q a := by
  cases result with
  | error refusal => cases h
  | ok answer =>
    obtain rfl := Except.ok.inj h
    obtain ⟨heq, hQ⟩ := hyields answer rfl
    exact ⟨congrArg (Except.ok answer.1, ·) heq, hQ⟩

theorem verifyAttempt_cases_of_ok {α : Type} {p : Participant K}
    {result : Except Error (α × Participant K)} (answer : Answer (Participant K) α)
    (hanswer : p.verifyAttempt result = answer) {Q : Participant K → Prop} (hp : Q p)
    (habort : ∀ refusal : Error, refusal.isVerification = true → Q (p.abort refusal))
    (h : ∀ a, answer.1 = .ok a → Q answer.2) : Q answer.2 := by
  subst hanswer
  exact verifyAttempt_cases hp habort fun found hfound => by
    subst hfound
    exact h found.1 rfl

theorem exists_storeShares (p : Participant K) (entries : List (Int × Option Scalar)) :
    ∃ inbox, (p.storeShares entries).2 = { p with sharesIn := inbox } := by
  induction entries generalizing p with
  | nil => exact ⟨p.sharesIn, rfl⟩
  | cons entry entries ih =>
    obtain ⟨sender, share⟩ := entry
    rw [storeShares]
    split
    · exact ih { p with sharesIn := p.sharesIn.assign sender share }
    · exact ⟨p.sharesIn, rfl⟩

theorem of_requireStage_eq_ok {p : Participant K} {stage : Stage}
    (h : p.requireStage stage = .ok ()) : p.failure = none ∧ stage ≤ p.stage := by
  rw [requireStage] at h
  split at h
  · cases h
  · split at h
    · cases h
    · exact ⟨‹_›, Nat.not_lt.1 ‹_›⟩

theorem requirePowerMap_eq_ok {p : Participant K} {m : PowerMap} (h : p.requirePowerMap = .ok m) :
    p.powerMap = some m := by
  rw [requirePowerMap] at h
  split at h
  · rw [← Except.ok.inj h]
    assumption
  · cases h

end Inversion

theorem yields_storePublicShares (p : Participant K) (shares : List (Int × Point K)) :
    Yields (p.storePublicShares shares) fun p' =>
      p.conflicts shares = [] ∧ p' = { p with publicShares := p.publicShares.putAll shares } := by
  rw [storePublicShares]
  split
  · rename_i hagree
    exact .pure ⟨List.isEmpty_iff.1 hagree, rfl⟩
  · exact .error

/-! ### Frames -/

section Frames

variable {source : σ} {operation : Operation K} {p p' : Participant K}

omit [Suite K] in
theorem exists_caughtUp (p : Participant K) : ∃ stage, p.caughtUp = { p with stage } ∧
    (Stage.sharesVerified ≤ stage → .sharesVerified ≤ p.stage) := by
  rw [caughtUp]
  split
  · exact ⟨_, rfl, fun h => Stage.le_of_le_later h (by decide)⟩
  · exact ⟨p.stage, rfl, id⟩

/-- No rule changes the number of share indices or the position among them. -/
theorem Change.parameters_eq (h : Change source operation p p') :
    p'.n = p.n ∧ p'.position = p.position := by
  cases h with
  | repeated | registered =>
    obtain ⟨stage, heq, -⟩ := exists_caughtUp _
    rw [heq]
    exact ⟨rfl, rfl⟩
  | unchanged | failed | dealt | received | preparedPowers | verified | signed | derivedJoint
  | derivedShareMap | importedJoint | importedShareMap | publishedOwn | published | keyed
  | advanced | aborted => exact ⟨rfl, rfl⟩

theorem Change.n_eq (h : Change source operation p p') : p'.n = p.n := h.parameters_eq.1

/-- No rule changes the number of dealers. -/
theorem Change.dealers_eq (h : Change source operation p p') : p'.dealers = p.dealers := by
  cases h with
  | repeated | registered =>
    obtain ⟨stage, heq, -⟩ := exists_caughtUp _
    rw [heq]
    rfl
  | unchanged | failed | dealt | received | preparedPowers | verified | signed | derivedJoint
  | derivedShareMap | importedJoint | importedShareMap | publishedOwn | published | keyed
  | advanced | aborted => rfl

/-- No rule fills the inbox of a participant that has come as far as a verification. -/
theorem Change.sharesIn_eq (h : Change source operation p p')
    (hstage : .sharesVerified ≤ p'.stage) :
    p'.sharesIn = p.sharesIn ∧ p'.position = p.position := by
  cases h with
  | repeated | registered =>
    obtain ⟨stage, heq, -⟩ := exists_caughtUp _
    rw [heq]
    exact ⟨rfl, rfl⟩
  | received hopen => exact absurd hstage hopen
  | unchanged | failed | dealt | preparedPowers | verified | signed | derivedJoint
  | derivedShareMap | importedJoint | importedShareMap | publishedOwn | published | keyed
  | advanced | aborted => exact ⟨rfl, rfl⟩

/-- A participant comes as far as a verification by passing one, unless it is told where it is. -/
theorem Change.verifies (h : Change source operation p p') (hstage : .sharesVerified ≤ p'.stage) :
    .sharesVerified ≤ p.stage ∨ (∃ stage, operation = .advance stage) ∨
      ∃ delivery index, operation = .verifyShares delivery index ∧
        checkOutcome source p delivery index = .ok () := by
  cases h with
  | repeated | registered =>
    obtain ⟨stage, heq, hle⟩ := exists_caughtUp _
    rw [heq] at hstage
    exact .inl (hle hstage)
  | dealt => exact .inl (Stage.le_of_le_later hstage (by decide))
  | verified hchecked => exact .inr (.inr ⟨_, _, rfl, hchecked⟩)
  | signed hrequire => exact .inl (of_requireStage_eq_ok hrequire).2
  | published hrequire | keyed hrequire =>
    exact .inl (Stage.le_trans (by decide) (of_requireStage_eq_ok hrequire).2)
  | advanced => exact .inr (.inl ⟨_, rfl⟩)
  | unchanged | failed | received | preparedPowers | derivedJoint | derivedShareMap
  | importedJoint | importedShareMap | publishedOwn | aborted => exact .inl hstage

end Frames

variable (source : σ) (p : Participant K)

theorem change_receivePublication (sender : Int) (publication : Publication K) :
    Change source (.receivePublication sender publication) p
      (p.receivePublication sender publication).2 := by
  refine attempt_cases (.unchanged _ p) (.bind fun registered hregistered => ?_)
  obtain ⟨fresh, commitments⟩ := registered
  obtain ⟨h₁, h₂, hlength, hcases⟩ := p.commitments.yields_register sender _ _ hregistered
  refine .bind fun noted hnoted => .pure ?_
  dsimp only at hcases ⊢
  rw [noteGaps] at hnoted
  obtain ⟨rfl, hsome, rfl⟩ | ⟨rfl, hnone, rfl⟩ := hcases
  · split at hnoted
    · obtain rfl := Except.ok.inj hnoted
      exact .repeated hsome
    · cases hnoted
  · split at hnoted
    · obtain rfl := Except.ok.inj hnoted
      exact .registered ⟨h₁, h₂⟩ hlength hnone (.inl ⟨‹_›, rfl⟩)
    · obtain rfl := Except.ok.inj hnoted
      exact .registered ⟨h₁, h₂⟩ hlength hnone (.inr ⟨‹_›, rfl⟩)

theorem change_dealShares : Change source .dealShares p p.dealShares.2 :=
  attempt_cases (.unchanged _ p) (.bind fun _ hstage => .pure (.dealt hstage))

theorem change_receiveShares (delivery : Delivery) :
    Change source (.receiveShares delivery) p (p.receiveShares delivery).2 := by
  rw [receiveShares]
  split
  · exact .unchanged _ p
  · obtain ⟨inbox, hinbox⟩ := p.exists_storeShares delivery.entries
    rw [hinbox]
    exact .received ‹_› hinbox

theorem change_derivePowerMap : Change source .derivePowerMap p p.derivePowerMap.2 := by
  apply attempt_cases (.unchanged _ p)
  split
  · exact .pure (.unchanged _ p)
  · exact .bind fun m hm => .pure (.preparedPowers ‹_› hm)

theorem change_verifyShares (delivery : Option Delivery) (index : Option Int) :
    Change source (.verifyShares delivery index) p
      ((p.verifyShares delivery index).run source).1.2 := by
  refine verifyAttempt_cases (.unchanged _ p) (fun refusal h => .failed _ p h)
    (.map fun _ hchecked => ?_)
  exact .verified hchecked

theorem change_computeSigningShare :
    Change source .computeSigningShare p p.computeSigningShare.2 := by
  refine attempt_cases (.unchanged _ p) (.bind fun _ hstage => ?_)
  dsimp only
  split
  · exact .error
  · rename_i hmissing
    refine .pure (.signed hstage fun i h₁ h₂ => ?_)
    rw [Bool.not_eq_true', Bool.not_eq_false, List.isEmpty_iff, List.filter_eq_nil_iff] at hmissing
    simpa [Option.isSome_iff_ne_none] using hmissing i (mem_upTo.2 ⟨h₁, h₂⟩)

theorem change_deriveJoint : Change source .deriveJoint p p.deriveJoint.2 :=
  attempt_cases (.unchanged _ p)
    (.bind fun _ hstage => .bind fun _ hq => .pure (.derivedJoint hstage hq))

theorem change_deriveShareMap : Change source .deriveShareMap p p.deriveShareMap.2 := by
  refine attempt_cases (.unchanged _ p) (.bind fun _ hstage => ?_)
  split
  · exact .bind fun m hm => .bind fun w hw =>
      .pure (.derivedShareMap hstage ‹_› (requirePowerMap_eq_ok hm) hw)
  · exact .error

/-- What an import of a joint commitment has found, and what it leaves behind. -/
theorem of_importJoint_eq_ok {p : Participant K} {snapshot : Bytes} {recompute : Bool}
    {q : JointCommitment K} (h : (p.importJoint snapshot recompute).1 = .ok q) :
    p.importJoint snapshot recompute = (.ok q, { p with joint := some q }) ∧
      p.requireStage .commitmentsExchanged = .ok () ∧ JointCommitment.ofBytes? snapshot = .ok q ∧
      (q.threshold : Int) = p.threshold ∧
      (recompute = true → ∃ own, p.sumCommitments = .ok own ∧ (own != q) = false) := by
  refine of_verifyAttempt_eq_ok (fun q => { p with joint := some q })
    (fun q => p.requireStage .commitmentsExchanged = .ok () ∧
      JointCommitment.ofBytes? snapshot = .ok q ∧ (q.threshold : Int) = p.threshold ∧
      (recompute = true → ∃ own, p.sumCommitments = .ok own ∧ (own != q) = false))
    (.bind fun _ hstage => .bind fun q hq => ?_) h
  dsimp only
  split
  · exact .error
  · rename_i hthreshold
    split
    · refine .bind fun own hown => ?_
      split
      · exact .error
      · rename_i hsame
        exact .pure ⟨rfl, hstage, hq, not_not.1 hthreshold,
          fun _ => ⟨own, hown, Bool.eq_false_iff.2 hsame⟩⟩
    · exact .pure ⟨rfl, hstage, hq, not_not.1 hthreshold, fun h => absurd h ‹_›⟩

theorem change_importJoint (snapshot : Bytes) (recompute : Bool) :
    Change source (.importJoint snapshot recompute) p (p.importJoint snapshot recompute).2 := by
  refine verifyAttempt_cases_of_ok (p.importJoint snapshot recompute) rfl (.unchanged _ p)
    (fun refusal h => .failed _ p h) fun q hanswer => ?_
  obtain ⟨heq, hstage, hq, hthreshold, hown⟩ := of_importJoint_eq_ok hanswer
  rw [heq]
  exact .importedJoint hstage hq hthreshold hown

/-- What an import of public shares has found, and what it leaves behind. The shares are compared
with those of the joint commitment that is stored; one is summed up only where none is. -/
theorem of_importShareMap_eq_ok {p : Participant K} {snapshot : Bytes} {recompute : Bool}
    {w : ShareMap K} (h : (p.importShareMap snapshot recompute).1 = .ok w) :
    p.importShareMap snapshot recompute = (.ok w, { p with shareMap := some w }) ∧
      p.requireStage .commitmentsExchanged = .ok () ∧ ShareMap.ofBytes? snapshot = .ok w ∧
      (w.size : Int) = p.n ∧
      (recompute = true → ∃ q m own,
        (p.joint = some q ∨ p.joint = none ∧ p.sumCommitments = .ok q) ∧ p.powerMap = some m ∧
          ShareMap.derive q m = .ok own ∧ (own != w) = false) := by
  refine of_verifyAttempt_eq_ok (fun w => { p with shareMap := some w })
    (fun w => p.requireStage .commitmentsExchanged = .ok () ∧ ShareMap.ofBytes? snapshot = .ok w ∧
      (w.size : Int) = p.n ∧ (recompute = true → ∃ q m own,
        (p.joint = some q ∨ p.joint = none ∧ p.sumCommitments = .ok q) ∧ p.powerMap = some m ∧
          ShareMap.derive q m = .ok own ∧ (own != w) = false))
    (.bind fun _ hstage => .bind fun w hw => ?_) h
  dsimp only
  split
  · exact .error
  · rename_i hsize
    split
    · have hcompared : ∀ q, (p.joint = some q ∨ p.joint = none ∧ p.sumCommitments = .ok q) →
          Yields (do
            let derived ← ShareMap.derive q (← p.requirePowerMap)
            if derived != w then
              throw (.failedCheck .mapMismatch (.importedShares p.position)
                (differingIndices derived w))
            return (w, { p with shareMap := some w }))
            fun answer => answer.2 = { p with shareMap := some answer.1 } ∧
              p.requireStage .commitmentsExchanged = .ok () ∧
              ShareMap.ofBytes? snapshot = .ok answer.1 ∧ (answer.1.size : Int) = p.n ∧
              (recompute = true → ∃ q m own,
                (p.joint = some q ∨ p.joint = none ∧ p.sumCommitments = .ok q) ∧
                  p.powerMap = some m ∧ ShareMap.derive q m = .ok own ∧
                  (own != answer.1) = false) := by
        refine fun q hq => .bind fun m hm => .bind fun own hown => ?_
        split
        · exact .error
        · rename_i hsame
          exact .pure ⟨rfl, hstage, hw, not_not.1 hsize, fun _ => ⟨q, m, own, hq,
            requirePowerMap_eq_ok hm, hown, Bool.eq_false_iff.2 hsame⟩⟩
      split
      · exact hcompared _ (.inl ‹_›)
      · exact .bind fun q hq => hcompared q (.inr ⟨‹_›, hq⟩)
    · exact .pure ⟨rfl, hstage, hw, not_not.1 hsize, fun h => absurd h ‹_›⟩

theorem change_importShareMap (snapshot : Bytes) (recompute : Bool) :
    Change source (.importShareMap snapshot recompute) p
      (p.importShareMap snapshot recompute).2 := by
  refine verifyAttempt_cases_of_ok (p.importShareMap snapshot recompute) rfl (.unchanged _ p)
    (fun refusal h => .failed _ p h) fun w hanswer => ?_
  obtain ⟨heq, hstage, hw, hsize, hown⟩ := of_importShareMap_eq_ok hanswer
  rw [heq]
  exact .importedShareMap hstage hw hsize hown

theorem change_publishOwnShare (signingShare : Option Scalar) (index : Option Int) :
    Change source (.publishOwnShare signingShare index) p
      (p.publishOwnShare signingShare index).2 := by
  refine verifyAttempt_cases (.unchanged _ p) (fun refusal h => .failed _ p h)
    (.bind fun _ hstage => .bind fun _ hindex => ?_)
  split
  · refine .bind fun p' hp' => .pure ?_
    obtain ⟨hagree, rfl⟩ := p.yields_storePublicShares _ p' hp'
    exact .publishedOwn hstage hindex ‹_› hagree
  · exact .error

theorem change_publishShares (excluded : List Int) :
    Change source (.publishShares excluded) p (p.publishShares excluded).2 := by
  refine verifyAttempt_cases (.unchanged _ p) (fun refusal h => .failed _ p h)
    (.bind fun _ hstage => ?_)
  dsimp only
  split
  · exact .error
  · refine .bind fun shares hshares => .bind fun p' hp' => .pure ?_
    obtain ⟨hagree, rfl⟩ := p.yields_storePublicShares _ p' hp'
    exact .published hstage hshares hagree

theorem change_deriveGroupKey : Change source .deriveGroupKey p p.deriveGroupKey.2 := by
  refine attempt_cases (.unchanged _ p) (.bind fun _ hstage => .bind fun _ _ => ?_)
  dsimp only
  split
  · exact .bind fun key hkey => .pure (.keyed hstage (.inl (Except.ok.inj hkey ▸ ‹_›)))
  · exact .bind fun key hkey => .pure (.keyed hstage (.inr ⟨‹_›, hkey⟩))

/-- Every operation changes a participant by one of the rules. -/
theorem change_perform (operation : Operation K) :
    Change source operation p ((operation.perform p).run source).1 := by
  cases operation with
  | receivePublication sender publication => exact change_receivePublication source p _ _
  | dealShares => exact change_dealShares source p
  | receiveShares delivery => exact change_receiveShares source p delivery
  | derivePowerMap => exact change_derivePowerMap source p
  | verifyShares delivery index => exact change_verifyShares source p delivery index
  | computeSigningShare => exact change_computeSigningShare source p
  | deriveJoint => exact change_deriveJoint source p
  | deriveShareMap => exact change_deriveShareMap source p
  | importJoint snapshot recompute => exact change_importJoint source p snapshot recompute
  | importShareMap snapshot recompute => exact change_importShareMap source p snapshot recompute
  | publishOwnShare signingShare index => exact change_publishOwnShare source p signingShare index
  | publishShares excluded => exact change_publishShares source p excluded
  | deriveGroupKey => exact change_deriveGroupKey source p
  | advance stage => exact .advanced p stage
  | abort failure => exact .aborted p failure

end Participant

end ThresholdKeygen
