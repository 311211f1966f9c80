import ThresholdKeygen.Ceremony.Weighted
import ThresholdKeygen.Proofs.Participant.Change

/-!
# Ordinary refusals

Most refusals only say that something cannot be done, as for want of data. They are no failed
verifications, which participants remember, and no ends of rounds either. The operations are gone
through one by one; the refusals of those that are missing here can be failed verifications.
-/

namespace ThresholdKeygen

variable {K : Type} [Suite K] {σ : Type} [RandomSource σ]

namespace Error

/-- Whether a refusal is the end of a round. -/
def isRound : Error → Bool
  | .roundAborted .. => true
  | _ => false

/-- Whether a refusal is neither a failed verification nor the end of a round. -/
def isOrdinary (refusal : Error) : Bool := !refusal.isVerification && !refusal.isRound

theorem isRound_eq_false {refusal : Error} (h : refusal.isOrdinary = true) :
    refusal.isRound = false := by
  rw [isOrdinary, Bool.and_eq_true, Bool.not_eq_true', Bool.not_eq_true'] at h
  exact h.2

theorem isVerification_eq_false {refusal : Error} (h : refusal.isOrdinary = true) :
    refusal.isVerification = false := by
  rw [isOrdinary, Bool.and_eq_true, Bool.not_eq_true', Bool.not_eq_true'] at h
  exact h.1

theorem isVerification_of_isShareCheck {refusal : Error} (h : refusal.isShareCheck = true) :
    refusal.isVerification = true := by
  unfold isShareCheck at h
  split at h
  · rfl
  · cases h

theorem isOrdinary_written {refusal : Error} (h : refusal.isOrdinary = true) :
    refusal.written.isOrdinary = true := by
  unfold written
  split
  · exact h
  · rfl

theorem isOrdinary_parameters (fault : ConfigurationFault) :
    (parameters fault).isOrdinary = true := isOrdinary_written rfl

end Error

/-- That a computation refuses with ordinary refusals only. -/
abbrev Ordinary {α : Type} (x : Except Error α) : Prop :=
  Refuses x fun refusal => refusal.isOrdinary = true

/-! ### Commitments -/

omit [Suite K] in
theorem ordinary_pointAt (points : List (Point K)) (place : Int) :
    Ordinary (pointAt points place) := by
  rw [pointAt]
  split
  · exact .ok
  · exact .error rfl

namespace CommitmentTable

variable (table : CommitmentTable K) (sender : Int)

omit [Suite K] in
theorem ordinary_checkSender : Ordinary (table.checkSender sender) := by
  rw [checkSender]
  split
  · exact .ok
  · exact .error (Error.isOrdinary_parameters _)

omit [Suite K] in
theorem ordinary_get : Ordinary (table.get sender) :=
  .bind (table.ordinary_checkSender sender) fun _ => .ok

omit [Suite K] in
theorem ordinary_commitmentOf : Ordinary (table.commitmentOf sender) := by
  refine .bind (table.ordinary_get sender) fun commitment => ?_
  cases commitment with
  | none => exact .error rfl
  | some _ => exact .ok

/-- A second commitment can be a conflict, which is a failed verification. -/
theorem refuses_register (commitment : Commitment K) :
    Refuses (table.register sender commitment) fun refusal => refusal.isRound = false := by
  refine .bind ((table.ordinary_checkSender sender).mono fun _ => Error.isRound_eq_false)
    fun _ => ?_
  dsimp only
  split
  · exact .error (Error.isRound_eq_false (Error.isOrdinary_parameters _))
  · split
    · split
      · exact .ok
      · exact .error rfl
    · exact .ok

end CommitmentTable

/-! ### Hashes -/

namespace Item

theorem ordinary_encodeLength (length : Nat) : Ordinary (encodeLength length) := by
  rw [encodeLength]
  split
  · exact .ok
  · exact .error rfl

theorem ordinary_encodeInt (n : Int) : Ordinary (encodeInt n) := by
  rw [encodeInt]
  split
  · exact .error rfl
  · split
    · exact .ok
    · exact .error rfl

mutual

theorem ordinary_encode : ∀ item : Item K, Ordinary item.encode
  | .bytes content => by
    rw [encode]
    exact .bind (ordinary_encodeLength _) fun _ => .ok
  | .int n => by
    rw [encode]
    exact ordinary_encodeInt n
  | .scalar s => by
    rw [encode]
    exact .ok
  | .point p => by
    rw [encode]
    exact .ok
  | .list items => by
    rw [encode]
    exact .bind (ordinary_encodeAll items) fun _ => .bind (ordinary_encodeLength _) fun _ => .ok
  | .other kind => by
    rw [encode]
    exact .error rfl

theorem ordinary_encodeAll : ∀ items : List (Item K), Ordinary (encodeAll items)
  | [] => by
    rw [encodeAll]
    exact .ok
  | item :: rest => by
    rw [encodeAll]
    exact .bind (ordinary_encode item) fun _ => .bind (ordinary_encodeAll rest) fun _ => .ok

end

end Item

namespace Transcript

theorem ordinary_tagged (tag : Bytes) (items : List (Item K)) : Ordinary (tagged tag items) :=
  .bind (Item.ordinary_encodeAll items) fun _ => .ok

theorem ordinary_challenge (context : Item K) (position : Int) (announcement publicKey : Point K) :
    Ordinary (challenge context position announcement publicKey) :=
  .bind (ordinary_tagged _ _) fun _ => .ok

theorem ordinary_runContext (label : Item K) (count dealers threshold : Int) :
    Ordinary (runContext label count dealers threshold) :=
  .bind (ordinary_tagged _ _) fun _ => .ok

theorem ordinary_snapshotDigest (kind body : Bytes) : Ordinary (snapshotDigest K kind body) :=
  .bind (ordinary_tagged _ _) fun _ => .ok

end Transcript

/-! ### Public maps -/

theorem ordinary_lincomb (scalars : List Scalar) (points : List (Point K)) :
    Ordinary (Point.lincomb scalars points) := by
  rw [Point.lincomb]
  split
  · exact .error rfl
  · exact .ok

namespace PowerMap

theorem ordinary_derive (n threshold : Int) : Ordinary (derive n threshold) := by
  refine .bind (.mapM (fun x => ?_) _) fun _ => .ok
  rw [powers]
  split
  · exact .error rfl
  · exact .ok

theorem ordinary_row (m : PowerMap) (x : Int) : Ordinary (m.row x) := by
  rw [row]
  split
  · exact .error (Error.isOrdinary_parameters _)
  · split
    · exact .ok
    · exact .error (Error.isOrdinary_parameters _)

end PowerMap

theorem JointCommitment.ordinary_derive (table : CommitmentTable K) : Ordinary (derive table) := by
  rw [derive]
  split
  · exact .ok
  · exact .error rfl

theorem ShareMap.ordinary_derive (q : JointCommitment K) (powerMap : PowerMap) :
    Ordinary (derive q powerMap) := by
  rw [derive]
  split
  · exact .error rfl
  · refine .bind (.mapM (fun row => ?_) _) fun _ => .ok
    rw [JointCommitment.evaluate]
    split
    · exact .error rfl
    · exact ordinary_lincomb _ _

namespace Snapshot

theorem ordinary_pack (kind : MapKind) (points : List (Point K)) : Ordinary (pack kind points) :=
  .bind (Transcript.ordinary_snapshotDigest _ _) fun _ => .ok

theorem ordinary_unpack (kind : MapKind) (bytes : Bytes) :
    Ordinary (unpack kind bytes : Except Error (List (Point K))) := by
  rw [unpack]
  split
  · exact .error rfl
  refine .bind (Transcript.ordinary_snapshotDigest _ _) fun digest => ?_
  dsimp only
  split
  · exact .error rfl
  split
  · exact .error rfl
  split
  · exact .ok
  · exact .error rfl

end Snapshot

theorem JointCommitment.ordinary_ofBytes? (bytes : Bytes) :
    Ordinary (ofBytes? bytes : Except Error (JointCommitment K)) := by
  refine .bind (Snapshot.ordinary_unpack _ _) fun points => ?_
  dsimp only
  split
  · exact .error rfl
  · exact .ok

theorem ShareMap.ordinary_ofBytes? (bytes : Bytes) :
    Ordinary (ofBytes? bytes : Except Error (ShareMap K)) :=
  .bind (Snapshot.ordinary_unpack _ _) fun _ => .ok

theorem JointCommitment.ordinary_fingerprint (q : JointCommitment K) : Ordinary q.fingerprint :=
  .map (Snapshot.ordinary_pack _ _) _

theorem ShareMap.ordinary_fingerprint (w : ShareMap K) : Ordinary w.fingerprint :=
  .map (Snapshot.ordinary_pack _ _) _

/-! ### Participants -/

theorem refuses_attempt {S α : Type} {s : S} {result : Except Error (α × S)} {P : Error → Prop}
    (h : Refuses result P) : Refuses (attempt s result).1 P := by
  cases result with
  | error refusal => exact .error (h refusal rfl)
  | ok answer => exact .ok

namespace Participant

section Conditions

omit [Suite K]

variable (p : Participant K)

theorem ordinary_requireStage (stage : Stage) : Ordinary (p.requireStage stage) := by
  rw [requireStage]
  split
  · exact .error rfl
  · split
    · exact .error rfl
    · exact .ok

theorem ordinary_checkIndex (index : Int) : Ordinary (p.checkIndex index) := by
  rw [checkIndex]
  split
  · exact .ok
  · exact .error (Error.isOrdinary_parameters _)

theorem ordinary_requirePowerMap : Ordinary p.requirePowerMap := by
  rw [requirePowerMap]
  split
  · exact .ok
  · exact .error rfl

theorem ordinary_requireCommitments : Ordinary p.requireCommitments := by
  rw [requireCommitments]
  split
  · exact .ok
  · exact .error rfl

theorem ordinary_commitment : Ordinary p.commitment := p.commitments.ordinary_commitmentOf _

end Conditions

section Operations

variable (p : Participant K)

theorem ordinary_runContext (label : Option (Item K)) : Ordinary (p.runContext label) :=
  .bind (Transcript.ordinary_runContext _ _ _ _) fun _ => .ok

/-- A second commitment of a dealer can be a conflict. -/
theorem refuses_receivePublication (sender : Int) (publication : Publication K) :
    Refuses (p.receivePublication sender publication).1 fun refusal => refusal.isRound = false := by
  refine refuses_attempt (.bind (p.commitments.refuses_register sender _) fun registered => ?_)
  refine .bind ?_ fun _ => .ok
  rw [noteGaps]
  split
  · exact .ok
  · split
    · exact .ok
    · exact .error rfl

theorem declines_prove (label : Option (Item K)) :
    Declines (p.prove label : ExceptT Error (StateM σ) _) fun refusal =>
      refusal.isOrdinary = true := by
  refine .bind (.steady p.ordinary_commitment) fun c => ?_
  refine .bind (.steady (ordinary_pointAt _ _)) fun constant => ?_
  refine .bind (.steady (p.ordinary_runContext label)) fun context => ?_
  refine .bind (.lift _) fun nonce => .steady ?_
  exact .bind (Transcript.ordinary_challenge _ _ _ _) fun _ => .ok

omit [Suite K] in
theorem ordinary_dealShares : Ordinary p.dealShares.1 :=
  refuses_attempt (.bind (p.ordinary_requireStage _) fun _ => .ok)

omit [Suite K] in
theorem ordinary_shareFor (index : Int) : Ordinary (p.shareFor index) := by
  refine .bind (p.ordinary_checkIndex index) fun _ => ?_
  split
  · exact .ok
  · exact .error rfl

omit [Suite K] in
theorem ordinary_storeShares (entries : List (Int × Option Scalar)) :
    Ordinary (p.storeShares entries).1 := by
  induction entries generalizing p with
  | nil => exact .ok
  | cons entry rest ih =>
    obtain ⟨sender, share⟩ := entry
    rw [storeShares]
    split
    · exact ih _
    · exact .error (Error.isOrdinary_parameters _)

omit [Suite K] in
theorem ordinary_receiveShares (delivery : Delivery) : Ordinary (p.receiveShares delivery).1 := by
  rw [receiveShares]
  split
  · exact .error rfl
  · exact p.ordinary_storeShares _

omit [Suite K] in
theorem ordinary_derivePowerMap : Ordinary p.derivePowerMap.1 := by
  refine refuses_attempt ?_
  split
  · exact .ok
  · exact .bind (PowerMap.ordinary_derive _ _) fun _ => .ok

omit [Suite K] in
theorem ordinary_computeSigningShare : Ordinary p.computeSigningShare.1 := by
  refine refuses_attempt (.bind (p.ordinary_requireStage _) fun _ => ?_)
  dsimp only
  split
  · exact .error rfl
  · exact .ok

theorem ordinary_sumCommitments : Ordinary p.sumCommitments := by
  refine .bind (JointCommitment.ordinary_derive _) fun _ => ?_
  split
  · exact .error rfl
  · exact .ok

omit [Suite K] in
theorem ordinary_logged {M : Type} {fingerprint : M → Except Error String}
    {answer : Answer (Participant K) M} (hanswer : Ordinary answer.1)
    (hfingerprint : ∀ map, Ordinary (fingerprint map)) :
    Ordinary (logged fingerprint answer).1 :=
  .bind hanswer fun map => .bind (hfingerprint map) fun _ => .ok

theorem ordinary_deriveJoint : Ordinary p.deriveJoint.1 :=
  ordinary_logged (refuses_attempt (.bind (p.ordinary_requireStage _) fun _ =>
    .bind p.ordinary_sumCommitments fun _ => .ok)) JointCommitment.ordinary_fingerprint

theorem ordinary_deriveShareMap : Ordinary p.deriveShareMap.1 := by
  refine ordinary_logged (refuses_attempt (.bind (p.ordinary_requireStage _) fun _ => ?_))
    ShareMap.ordinary_fingerprint
  split
  · exact .bind p.ordinary_requirePowerMap fun _ =>
      .bind (ShareMap.ordinary_derive _ _) fun _ => .ok
  · exact .error rfl

theorem ordinary_jointSnapshot : Ordinary p.jointSnapshot := by
  rw [jointSnapshot]
  split
  · exact Snapshot.ordinary_pack _ _
  · exact .error rfl

theorem ordinary_shareMapSnapshot : Ordinary p.shareMapSnapshot := by
  rw [shareMapSnapshot]
  split
  · exact Snapshot.ordinary_pack _ _
  · exact .error rfl

theorem ordinary_externalShare (index : Int) : Ordinary (p.externalShare index) := by
  rw [externalShare]
  split
  · rw [ShareMap.share]
    split
    · exact .error rfl
    · split
      · exact .ok
      · exact .error rfl
  · refine .bind p.ordinary_requirePowerMap fun powerMap => ?_
    refine .bind (powerMap.ordinary_row index) fun row => ?_
    rw [JointCommitment.evaluate]
    split
    · exact .error rfl
    · exact ordinary_lincomb _ _
  · exact .error rfl

theorem ordinary_sumConstants : Ordinary p.sumConstants := by
  refine .bind (.mapM (fun entry => ordinary_pointAt _ _) _) fun _ => ?_
  split
  · exact .error rfl
  · exact .ok

theorem ordinary_deriveGroupKey : Ordinary p.deriveGroupKey.1 := by
  refine refuses_attempt (.bind (p.ordinary_requireStage _) fun _ =>
    .bind p.ordinary_requireCommitments fun _ => ?_)
  split
  · exact .ok
  · exact .bind p.ordinary_sumConstants fun _ => .ok

end Operations

end Participant

/-! ### Checks of shares -/

namespace BatchCheck

variable (who : Int) (table : CommitmentTable K) (row : List Scalar)

theorem ordinary_equation (weights : List Scalar) (shares : List (Int × Scalar)) :
    Ordinary (equation weights shares table row) := by
  refine .bind (.mapM (fun power => ?_) _) fun _ => .ok
  refine .bind (.mapM (fun sender => ?_) _) fun _ => .bind (ordinary_lincomb _ _) fun _ => .ok
  exact .bind (table.ordinary_commitmentOf sender) fun _ => ordinary_pointAt _ _

theorem declines_holds (shares : List (Int × Scalar)) :
    Declines (holds who shares table row : ExceptT Error (StateM σ) Bool)
      fun refusal => refusal.isOrdinary = true := by
  rw [holds]
  split
  · exact .pure
  · exact .bind (.lift _) fun weights => .steady (ordinary_equation table row weights shares)

theorem declines_bisect (shares : List (Int × Scalar)) :
    Declines (bisect who table row shares : ExceptT Error (StateM σ) (List Int))
      fun refusal => refusal.isOrdinary = true := by
  induction shares using bisect.induct with
  | case1 shares ihleft ihright =>
    rw [bisect]
    refine .bind (declines_holds who table row shares) fun passed => ?_
    split
    · exact .pure
    · split
      · exact .pure
      · exact .bind (ihleft ‹_›) fun _ => .bind (ihright ‹_›) fun _ => .pure

end BatchCheck

namespace Participant

variable (p : Participant K)

theorem ordinary_singleMismatches (inbox : Inbox) (index : Int) :
    Ordinary (p.singleMismatches inbox index) := by
  refine .bind (.mapM (fun entry => ?_) _) fun _ => .ok
  exact .bind (p.commitments.ordinary_commitmentOf _) fun _ => .ok

theorem declines_culprits (inbox : Inbox) (row : List Scalar) (index : Int) :
    Declines (p.culprits inbox row index : ExceptT Error (StateM σ) (List Int))
      fun refusal => refusal.isOrdinary = true := by
  refine .bind (BatchCheck.declines_bisect _ _ _ _) fun isolated => ?_
  split
  · exact .steady (p.ordinary_singleMismatches inbox index)
  · exact .pure

theorem declines_weighed (who : Int) (delivery : Delivery) :
    Declines (delivery.weighed who : ExceptT Error (StateM σ) Inbox)
      fun refusal => refusal.isOrdinary = true := by
  rw [Delivery.weighed]
  split
  · exact .pure
  · exact .bind (.lift _) fun _ => .throw rfl

omit [Suite K] in
theorem declines_requireWhole (shares : Nat) :
    Declines (p.requireWhole shares : ExceptT Error (StateM σ) Unit)
      fun refusal => refusal.isOrdinary = true := by
  rw [requireWhole]
  split
  · exact .bind (.lift _) fun _ => .throw rfl
  · exact .pure

/-- What a check of shares refuses with is a failed check of shares, or an ordinary refusal. -/
theorem declines_checkShares (delivery : Delivery) (index : Int) :
    Declines (p.checkShares delivery index : ExceptT Error (StateM σ) Unit)
      fun refusal => refusal.isShareCheck = true ∨ refusal.isOrdinary = true := by
  have hordinary : ∀ refusal : Error, refusal.isOrdinary = true →
      refusal.isShareCheck = true ∨ refusal.isOrdinary = true := fun _ => .inr
  refine .bind (.steady ((p.ordinary_checkIndex index).mono hordinary)) fun _ => ?_
  refine .bind (.steady (p.ordinary_requirePowerMap.mono hordinary)) fun powerMap => ?_
  refine .bind (.steady (p.ordinary_requireCommitments.mono hordinary)) fun _ => ?_
  dsimp only
  split
  · refine .refused ?_
    rw [Error.written]
    split
    · exact .inl rfl
    · exact .inr rfl
  · refine .bind (.steady ((powerMap.ordinary_row index).mono hordinary)) fun row => ?_
    refine .bind ((declines_weighed _ delivery).mono hordinary) fun inbox => ?_
    refine .bind ((p.declines_requireWhole _).mono hordinary) fun _ => ?_
    refine .bind ((BatchCheck.declines_holds _ _ _ _).mono hordinary) fun passed => ?_
    split
    · exact .pure
    · exact .bind ((p.declines_culprits inbox row index).mono hordinary) fun _ => .throw (.inl rfl)

end Participant

/-! ### Weighted parties -/

theorem ordinary_sum (delivery : Delivery) : Ordinary delivery.sum := by
  rw [Delivery.sum]
  split
  · exact .ok
  · exact .error rfl

namespace WeightedParty

omit [Suite K]

variable (w : WeightedParty K)

theorem ordinary_requireOwned (key : Int) : Ordinary (w.requireOwned key) := by
  rw [requireOwned]
  split
  · exact .ok
  · exact .error (Error.isOrdinary_parameters _)

theorem ordinary_slotOf (key : Int) : Ordinary (w.slotOf key) := by
  rw [slotOf]
  split
  · exact .ok
  · split
    · exact .ok
    · exact .error rfl

theorem ordinary_slotStage (key : Int) : Ordinary (w.slotStage key) :=
  .bind (w.ordinary_requireOwned key) fun _ => .bind (w.ordinary_slotOf key) fun _ => .ok

theorem ordinary_advanceSlot (stage : Stage) (key : Int) : Ordinary (w.advanceSlot stage key) := by
  refine .bind (w.ordinary_slotStage key) fun current => ?_
  split
  · exact .bind (w.ordinary_slotOf key) fun _ => .ok
  · exact .ok

theorem ordinary_advanceSlots (stage : Stage) (keys : List Int) :
    Ordinary (w.advanceSlots stage keys).1 := by
  induction keys generalizing w with
  | nil => exact .ok
  | cons key rest ih =>
    rw [advanceSlots]
    split
    · exact ih _
    · rename_i hrefusal
      exact .error (w.ordinary_advanceSlot stage key _ hrefusal)

theorem ordinary_inboxOf (key : Int) : Ordinary (w.inboxOf key) := by
  refine .bind (w.ordinary_requireOwned key) fun _ => .bind (w.ordinary_slotOf key) fun _ => ?_
  split
  · exact .ok
  · exact .error rfl

theorem ordinary_storeShares (key : Int) (delivery : Delivery) :
    Ordinary (w.storeShares key delivery).1 := by
  refine refuses_attempt (.bind (w.ordinary_requireOwned key) fun _ => ?_)
  refine .bind (w.core.ordinary_requireStage _) fun _ => ?_
  refine .bind (w.ordinary_slotStage key) fun stage => ?_
  dsimp only
  split
  · exact .error rfl
  · split
    · exact .error (Error.isOrdinary_parameters _)
    · exact .bind (w.ordinary_slotOf key) fun _ =>
        .bind (ordinary_advanceSlot _ _ key) fun _ => .ok

theorem ordinary_computeSigningShares : Ordinary w.computeSigningShares.1 := by
  refine refuses_attempt (.bind (w.core.ordinary_requireStage _) fun _ => ?_)
  refine .bind (.mapM (fun key => ?_) _) fun shares => ?_
  · exact .bind (w.ordinary_inboxOf key) fun delivery => .bind (ordinary_sum delivery) fun _ => .ok
  · refine .bind (.mapM (fun entry => ?_) _) fun slots => ?_
    · exact .bind (w.ordinary_slotOf _) fun _ => .ok
    · exact .bind (.foldlM (fun w key => ordinary_advanceSlot w _ key) _ _) fun _ => .ok

end WeightedParty

theorem WeightedParty.ordinary_deriveGroupKey (w : WeightedParty K) :
    Ordinary w.deriveGroupKey.1 := by
  rw [deriveGroupKey, onCore]
  cases hderive : w.core.deriveGroupKey.1 with
  | error refusal => exact .error (w.core.ordinary_deriveGroupKey refusal hderive)
  | ok key => exact (ordinary_advanceSlots _ _ _).map _

omit [Suite K] in
theorem Weighted.ordinary_inboxFor (key : Int) (dealers : List (WeightedParty K)) :
    Ordinary (inboxFor key dealers) := by
  refine .bind (.mapM (fun dealer => ?_) _) fun _ => .ok
  exact .bind (dealer.core.ordinary_shareFor key) fun _ => .ok

end ThresholdKeygen
