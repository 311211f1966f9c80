import ThresholdKeygen.Proofs.Participant.InPlace
import ThresholdKeygen.Proofs.Participant.Reachable
import ThresholdKeygen.Proofs.PublicMap

/-!
# Refusals are atomic

An operation that refuses leaves the participant as it was, except that some operations record a
failed verification. This is read off the programs that write in place: whatever can refuse comes
before whatever writes (`atomic_program`). The derivations of the public maps are the exception.
They store the map before they name it for the log, and a map with too many points has no name. Main
statement: `intact_of_refused`.
-/

namespace ThresholdKeygen

variable {K : Type} [Suite K] {σ : Type}

namespace Participant

/-- Whether an operation records the failed verifications that it refuses with. -/
def Operation.records : Operation K → Bool
  | verifyShares .. | importJoint .. | importShareMap .. | publishOwnShare .. | publishShares .. =>
    true
  | _ => false

/-- Whether an operation writes nothing before the last of its checks. -/
def Operation.checksFirst : Operation K → Bool
  | receiveShares .. | deriveJoint | deriveShareMap => false
  | _ => true

/-- What a refusal leaves behind of a participant: one without a failure that records the refusal,
where failed verifications are recorded, and else the participant as it was. -/
def Intact (records : Bool) (p : Participant K) (refusal : Error) (p' : Participant K) : Prop :=
  if records && refusal.isVerification then
    p.failure = none ∧ p' = { p with failure := some refusal }
  else p' = p

namespace Program

variable {α β : Type} {p : Participant K} {records : Bool}

/-- That a program leaves an intact participant behind whenever it refuses. -/
def Atomic (records : Bool) (m : Program σ K α) (p : Participant K) : Prop :=
  m.Ends p fun answer p' => Refuses answer fun refusal => Intact records p refusal p'

/-- That a program does not refuse. -/
def Writes (m : Program σ K α) : Prop := ∀ p, m.Reaches p fun _ _ => True

/-! ### Writing -/

namespace Writes

omit [Suite K]

theorem modify (f : Participant K → Participant K) : Writes (modify f : Program σ K PUnit) :=
  fun _ => .modify trivial

theorem set (p : Participant K) : Writes (set p : Program σ K PUnit) := fun _ => .set trivial

theorem pure (a : α) : Writes (pure a : Program σ K α) := fun _ => .pure trivial

theorem bind {m : Program σ K α} {f : α → Program σ K β} (hm : Writes m) (hf : ∀ a, Writes (f a)) :
    Writes (m >>= f) := fun p => .bind ((hm p).mono fun a p' _ => hf a p')

theorem forM {ι : Type} {f : ι → Program σ K PUnit} (hf : ∀ i, Writes (f i)) (l : List ι) :
    Writes (l.forM f) := by
  induction l with
  | nil => exact pure _
  | cons i l ih => exact bind (hf i) fun _ => ih

end Writes

/-! ### Refusing -/

namespace Atomic

omit [Suite K]

theorem get {f : Participant K → Program σ K β} (h : Atomic records (f p) p) :
    Atomic records (get >>= f) p := .bind (.get h)

/-- A refusal before anything is written. -/
theorem refuse {refusal : Error} (h : records = true → refusal.isOrdinary = true) :
    Atomic records (throw refusal : Program σ K α) p := by
  refine .throw (.error ?_)
  rw [Intact, if_neg]
  rw [Bool.and_eq_true]
  rintro ⟨hrecords, hverification⟩
  rw [Error.isVerification_eq_false (h hrecords)] at hverification
  cases hverification

/-- What stands behind a refusal is not run. -/
theorem refused {refusal : Error} {f : α → Program σ K β}
    (h : records = true → refusal.isOrdinary = true) : Atomic records (throw refusal >>= f) p :=
  refuse h

/-- A condition, which comes before anything is written. -/
theorem check {x : Except Error α} {f : α → Program σ K β} (hx : records = true → Ordinary x)
    (h : ∀ a, x = .ok a → Atomic records (f a) p) : Atomic records (liftM x >>= f) p := by
  cases x with
  | ok a => exact h a rfl
  | error refusal => exact refuse fun hrecords => hx hrecords refusal rfl

/-- A check that draws, with its outcome. -/
theorem draw {m : StateM σ α} {f : α → Program σ K β}
    (h : Always m fun a => Atomic records (f a) p) : Atomic records (liftM m >>= f) p :=
  .bind (.lift h)

/-- A failed verification that is recorded. -/
theorem fail {refusal : Error} (hnone : p.failure = none) (h : refusal.isVerification = true) :
    Atomic true (Program.fail refusal : Program σ K α) p := by
  refine .bind (.modify (.throw (.error ?_)))
  rw [Intact, Bool.true_and, if_pos h, abort, hnone]
  exact ⟨rfl, rfl⟩

/-- What stands behind a failed verification is not run either. -/
theorem failed {refusal : Error} {f : α → Program σ K β} (hnone : p.failure = none)
    (h : refusal.isVerification = true) : Atomic true (Program.fail refusal >>= f) p :=
  fail hnone h

/-- What only writes may follow anything. -/
theorem before {m : Program σ K α} {f : α → Program σ K β} (hm : Atomic records m p)
    (hf : ∀ a, Writes (f a)) : Atomic records (m >>= f) p := by
  refine .bind (Run.Ends.mono hm fun answer p' hanswer => ?_)
  cases answer with
  | error refusal => exact .error (hanswer refusal rfl)
  | ok a =>
    intro source
    obtain ⟨b, hb, -⟩ := hf a p' source
    rw [hb]
    exact .ok

/-- What only writes does not refuse. -/
theorem writes {m : Program σ K α} (h : Writes m) : Atomic records m p := by
  intro source
  obtain ⟨a, ha, -⟩ := h p source
  rw [ha]
  exact .ok

end Atomic

/-! ### The programs -/

/-- Whatever is asked of refusals that are recorded holds where none is. -/
theorem unrecorded {goal : Prop} (h : false = true) : goal := absurd h Bool.false_ne_true

theorem atomic_receivePublication (sender : Int) (publication : Publication K) :
    Atomic false (receivePublication sender publication : Program σ K Unit) p := by
  refine .get (.check unrecorded fun registered _ => .check unrecorded fun noted _ => .writes ?_)
  refine .bind (.set _) fun _ => ?_
  split
  · exact .modify _
  · exact .pure _

section Steady

omit [Suite K]

theorem atomic_dealShares : Atomic false (dealShares : Program σ K Unit) p :=
  .get (.check unrecorded fun _ _ => .writes (.bind (.forM (fun _ => .modify _) _)
    fun _ => .modify _))

theorem atomic_derivePowerMap : Atomic false (derivePowerMap : Program σ K PowerMap) p := by
  refine .get ?_
  split
  · exact .writes (.pure _)
  · exact .check unrecorded fun powerMap _ => .writes (.bind (.set _) fun _ => .pure _)

theorem atomic_computeSigningShare :
    Atomic false (computeSigningShare : Program σ K Scalar) p := by
  refine .get (.check unrecorded fun _ _ => ?_)
  dsimp only
  split
  · exact .refused unrecorded
  · exact .writes (.bind (.set _) fun _ => .bind (.modify _) fun _ => .pure _)

theorem atomic_conclude {checked : Except Error Unit} (hnone : p.failure = none)
    (h : Refuses checked fun refusal =>
      refusal.isShareCheck = true ∨ refusal.isOrdinary = true) :
    Atomic true (conclude checked : Program σ K Unit) p := by
  cases checked with
  | ok _ => exact .writes (.modify _)
  | error refusal =>
    rw [conclude]
    split
    · exact .fail hnone (Error.isVerification_of_isShareCheck ‹_›)
    · exact .refuse fun _ => (h refusal rfl).resolve_left ‹_›

end Steady

theorem atomic_deriveGroupKey : Atomic false (deriveGroupKey : Program σ K (Point K)) p := by
  refine .get (.check unrecorded fun _ _ => .check unrecorded fun _ _ => ?_)
  split
  · exact .writes (.bind (.modify _) fun _ => .pure _)
  · exact .check unrecorded fun key _ =>
      .writes (.bind (.set _) fun _ => .bind (.modify _) fun _ => .pure _)

theorem atomic_verifyShares [RandomSource σ] (delivery : Option Delivery) (index : Option Int) :
    Atomic true (verifyShares delivery index : Program σ K Unit) p := by
  refine .get (.check (fun _ => p.ordinary_requirePowerMap) fun _ _ => ?_)
  refine .check (fun _ => p.ordinary_requireCommitments) fun _ _ => ?_
  refine .check (fun _ => p.ordinary_requireStage _) fun _ hstage => .draw ?_
  exact Always.mono (p.declines_checkShares _ _) fun checked hchecked =>
    atomic_conclude (of_requireStage_eq_ok hstage).1 hchecked

theorem atomic_importJoint (snapshot : Bytes) (recompute : Bool) :
    Atomic true (importJoint snapshot recompute : Program σ K (JointCommitment K)) p := by
  refine .get (.check (fun _ => p.ordinary_requireStage _) fun _ hstage => ?_)
  refine .check (fun _ => JointCommitment.ordinary_ofBytes? _) fun joint _ => ?_
  have himport : Writes (do set { p with joint := some joint }; return joint :
      Program σ K (JointCommitment K)) := .bind (.set _) fun _ => .pure _
  dsimp only
  split
  · exact .refused fun _ => rfl
  split
  · refine .check (fun _ => p.ordinary_sumCommitments) fun own _ => ?_
    split
    · exact .failed (of_requireStage_eq_ok hstage).1 rfl
    · exact .writes himport
  · exact .writes himport

theorem atomic_importShareMap (snapshot : Bytes) (recompute : Bool) :
    Atomic true (importShareMap snapshot recompute : Program σ K (ShareMap K)) p := by
  refine .get (.check (fun _ => p.ordinary_requireStage _) fun _ hstage => ?_)
  refine .check (fun _ => ShareMap.ordinary_ofBytes? _) fun shareMap _ => ?_
  have himport : Writes (do set { p with shareMap := some shareMap }; return shareMap :
      Program σ K (ShareMap K)) := .bind (.set _) fun _ => .pure _
  dsimp only
  split
  · exact .refused fun _ => rfl
  split
  · have hcompare : ∀ joint : JointCommitment K, Atomic true (do
        let derived ← ShareMap.derive joint (← p.requirePowerMap)
        if derived != shareMap then
          Program.fail (.failedCheck .mapMismatch (.importedShares p.position)
            (differingIndices derived shareMap))
        set { p with shareMap := some shareMap }
        return shareMap : Program σ K (ShareMap K)) p := by
      intro joint
      refine .check (fun _ => p.ordinary_requirePowerMap) fun powerMap _ => ?_
      refine .check (fun _ => ShareMap.ordinary_derive _ _) fun derived _ => ?_
      split
      · exact .failed (of_requireStage_eq_ok hstage).1 rfl
      · exact .writes himport
    split
    · exact hcompare _
    · exact .check (fun _ => p.ordinary_sumCommitments) fun joint _ => hcompare joint
  · exact .writes himport

theorem atomic_storePublicShares (shares : List (Int × Point K)) (hnone : p.failure = none) :
    Atomic true (storePublicShares shares : Program σ K Unit) p := by
  refine .get ?_
  dsimp only
  split
  · exact .failed hnone rfl
  · exact .writes (.forM (fun _ => .modify _) _)

theorem atomic_publishOwnShare (signingShare : Option Scalar) (index : Option Int) :
    Atomic true (publishOwnShare signingShare index : Program σ K (Point K)) p := by
  refine .get (.check (fun _ => p.ordinary_requireStage _) fun _ hstage => ?_)
  refine .check (fun _ => p.ordinary_checkIndex _) fun _ _ => ?_
  split
  · exact .before (atomic_storePublicShares _ (of_requireStage_eq_ok hstage).1) fun _ => .pure _
  · exact .refuse fun _ => rfl

theorem atomic_publishShares (excluded : List Int) :
    Atomic true (publishShares excluded : Program σ K (List (Int × Point K))) p := by
  refine .get (.check (fun _ => p.ordinary_requireStage _) fun _ hstage => ?_)
  dsimp only
  split
  · exact .refused fun _ => rfl
  refine .check (fun _ => ?_) fun computed _ => ?_
  · exact .mapM (fun x => .bind (p.ordinary_externalShare x) fun _ => .ok) _
  · exact .before (atomic_storePublicShares _ (of_requireStage_eq_ok hstage).1) fun _ =>
      .bind (.modify _) fun _ => .pure _

end Program

/-- The program of every operation that writes last is atomic. -/
theorem atomic_program [RandomSource σ] (p : Participant K) (operation : Operation K)
    (h : operation.checksFirst = true) :
    Program.Atomic operation.records (operation.program : Program σ K Unit) p := by
  cases operation with
  | receivePublication sender publication =>
    exact Program.atomic_receivePublication sender publication
  | dealShares => exact Program.atomic_dealShares
  | receiveShares | deriveJoint | deriveShareMap => cases h
  | derivePowerMap => exact .before Program.atomic_derivePowerMap fun _ => .pure _
  | verifyShares delivery index => exact Program.atomic_verifyShares delivery index
  | computeSigningShare => exact .before Program.atomic_computeSigningShare fun _ => .pure _
  | importJoint snapshot recompute =>
    exact .before (Program.atomic_importJoint snapshot recompute) fun _ => .pure _
  | importShareMap snapshot recompute =>
    exact .before (Program.atomic_importShareMap snapshot recompute) fun _ => .pure _
  | publishOwnShare signingShare index =>
    exact .before (Program.atomic_publishOwnShare signingShare index) fun _ => .pure _
  | publishShares excluded => exact .before (Program.atomic_publishShares excluded) fun _ => .pure _
  | deriveGroupKey => exact .before Program.atomic_deriveGroupKey fun _ => .pure _
  | advance stage => exact .writes (.modify _)
  | abort failure => exact .writes (.modify _)

/-! ### Public maps without a name -/

/-- That a public map is derived and stored, but has too many points for a snapshot, so that the
operation is refused for want of a name. -/
inductive Unnamed (p : Participant K) : Operation K → Error → Participant K → Prop where
  | joint {q : JointCommitment K} (hstage : p.requireStage .commitmentsExchanged = .ok ())
      (h : p.sumCommitments = .ok q) (hmany : 2 ^ 32 ≤ 4 + Point.width * q.points.length) :
      Unnamed p .deriveJoint (.overflow .tooBig) { p with joint := some q }
  | shareMap {q : JointCommitment K} {m : PowerMap} {w : ShareMap K}
      (hstage : p.requireStage .commitmentsExchanged = .ok ()) (hjoint : p.joint = some q)
      (hpowers : p.powerMap = some m) (h : ShareMap.derive q m = .ok w)
      (hmany : 2 ^ 32 ≤ 4 + Point.width * w.shares.length) :
      Unnamed p .deriveShareMap (.overflow .tooBig) { p with shareMap := some w }

omit [Suite K] in
theorem eq_error_of_forget {α : Type} {answer : Answer (Participant K) α} {refusal : Error}
    {p' : Participant K} (h : Ceremony.forget answer = (.error refusal, p')) :
    answer = (.error refusal, p') := by
  obtain ⟨_ | _, _⟩ := answer
  · obtain ⟨herror, rfl⟩ := Prod.mk.inj h
    rw [Except.error.inj herror]
  · cases (Prod.mk.inj h).1

omit [Suite K] in
theorem logged_eq_error_iff {M : Type} {fingerprint : M → Except Error String}
    {answer : Answer (Participant K) M} {refusal : Error} {p' : Participant K} :
    logged fingerprint answer = (.error refusal, p') ↔ answer = (.error refusal, p') ∨
      ∃ map, answer = (.ok map, p') ∧ fingerprint map = .error refusal := by
  obtain ⟨result, p⟩ := answer
  cases result with
  | error => simp [logged]
  | ok map => cases hname : fingerprint map <;> simp [logged, hname, and_comm]

section Derivations

variable [LawfulEncoding K] {p p' : Participant K} {refusal : Error}

theorem unnamed_of_deriveJoint (h : p.deriveJoint = (.error refusal, p')) :
    p' = p ∨ Unnamed p .deriveJoint refusal p' := by
  obtain h | ⟨q, h, hname⟩ := logged_eq_error_iff.1 h
  · exact .inl (eq_of_attempt_eq_error h)
  · obtain ⟨_, hstage, h⟩ := bind_eq_ok_iff.1 (eq_of_attempt_eq_ok h)
    obtain ⟨_, hsum, h⟩ := bind_eq_ok_iff.1 h
    obtain ⟨rfl, rfl⟩ := Prod.mk.inj (Except.ok.inj h)
    obtain ⟨rfl, hmany⟩ := Snapshot.map_fingerprint_eq_error_iff.1 hname
    exact .inr (.joint hstage hsum hmany)

theorem unnamed_of_deriveShareMap (h : p.deriveShareMap = (.error refusal, p')) :
    p' = p ∨ Unnamed p .deriveShareMap refusal p' := by
  obtain h | ⟨w, h, hname⟩ := logged_eq_error_iff.1 h
  · exact .inl (eq_of_attempt_eq_error h)
  · obtain ⟨_, hstage, h⟩ := bind_eq_ok_iff.1 (eq_of_attempt_eq_ok h)
    split at h
    · obtain ⟨m, hm, h⟩ := bind_eq_ok_iff.1 h
      obtain ⟨_, hderive, h⟩ := bind_eq_ok_iff.1 h
      obtain ⟨rfl, rfl⟩ := Prod.mk.inj (Except.ok.inj h)
      obtain ⟨rfl, hmany⟩ := Snapshot.map_fingerprint_eq_error_iff.1 hname
      exact .inr (.shareMap hstage ‹_› (requirePowerMap_eq_ok hm) hderive hmany)
    · cases h

/-- A map without a name is stored, and yet the answer is a refusal. -/
theorem Unnamed.answer_eq [RandomSource σ] {operation : Operation K}
    (h : Unnamed p operation refusal p') (source : σ) :
    ((operation.answer p).run source).1 = (.error refusal, p') := by
  cases h with
  | @joint q hstage hsum hmany =>
    have hname : q.fingerprint = .error (.overflow .tooBig) :=
      Snapshot.map_fingerprint_eq_error_iff.2 ⟨rfl, hmany⟩
    change Ceremony.forget p.deriveJoint = _
    rw [deriveJoint, hstage, ok_bind, hsum, ok_bind]
    simp only [attempt, logged, pure_eq_ok, ok_bind, hname, error_bind]
    rfl
  | @shareMap q m w hstage hjoint hpowers hderive hmany =>
    have hname : w.fingerprint = .error (.overflow .tooBig) :=
      Snapshot.map_fingerprint_eq_error_iff.2 ⟨rfl, hmany⟩
    change Ceremony.forget p.deriveShareMap = _
    rw [deriveShareMap, hstage, ok_bind, hjoint]
    simp only [requirePowerMap, hpowers, hderive, attempt, logged, pure_eq_ok, ok_bind, hname,
      error_bind]
    rfl

theorem Unnamed.deriveShareMap_eq (h : Unnamed p .deriveShareMap refusal p') :
    p.deriveShareMap = (.error refusal, p') :=
  eq_error_of_forget (h.answer_eq (Tape.new [] [] ""))

omit [LawfulEncoding K] in
theorem length_of_sumCommitments {q : JointCommitment K} (h : p.sumCommitments = .ok q) :
    q.points.length = p.threshold.toNat := by
  obtain ⟨joint, hderive, h⟩ := bind_eq_ok_iff.1 h
  split at h
  · cases h
  · obtain rfl := Except.ok.inj h
    exact JointCommitment.length_of_derive hderive

omit [LawfulEncoding K] in
/-- No map of a reachable participant has more points than there are share indices. -/
theorem Reachable.not_unnamed {operation : Operation K} (h : p.Reachable)
    (hn : 4 + Point.width * p.n < 2 ^ 32) : ¬ Unnamed p operation refusal p' := by
  have hle := h.sound.threshold_le
  have hone := h.sound.one_le_threshold
  rw [Point.width] at hn
  intro hunnamed
  cases hunnamed with
  | joint _ hsum hmany =>
    rw [Point.width, length_of_sumCommitments hsum] at hmany
    omega
  | @shareMap q m w _ _ hpowers hderive hmany =>
    obtain ⟨t, ht⟩ := Int.eq_ofNat_of_zero_le (show 0 ≤ p.threshold by omega)
    have hrows := PowerMap.rows_eq (ht ▸ h.sound.powerMap_eq m hpowers)
    rw [Point.width, ShareMap.length_of_derive hderive, hrows, List.length_map,
      length_upTo] at hmany
    omega

/-- What is left behind by a refusal of anything but a collection of shares. -/
theorem intact_or_unnamed [RandomSource σ] {operation : Operation K} {source : σ}
    (hcollects : ∀ delivery, operation ≠ .receiveShares delivery)
    (hrefused : ((operation.answer p).run source).1 = (.error refusal, p')) :
    Intact operation.records p refusal p' ∨ Unnamed p operation refusal p' := by
  by_cases hfirst : operation.checksFirst = true
  · rw [← run_program] at hrefused
    have hends := atomic_program p operation hfirst source
    rw [hrefused] at hends
    exact .inl (hends refusal rfl)
  · cases operation with
    | receiveShares delivery => exact absurd rfl (hcollects delivery)
    | deriveJoint => exact unnamed_of_deriveJoint (eq_error_of_forget hrefused)
    | deriveShareMap => exact unnamed_of_deriveShareMap (eq_error_of_forget hrefused)
    | _ => exact absurd rfl hfirst

end Derivations

/-! ### Conflicting public shares -/

/-- That another public share than a given one is stored for an index. -/
def Differs (p : Participant K) (x : Int) (point : Point K) : Prop :=
  ∃ stored, p.publicShares.get? x = some stored ∧ (stored != point) = true

theorem mem_conflicts {p : Participant K} {indices : List Int} {point : Int → Point K} {x : Int} :
    x ∈ p.conflicts (indices.map fun x => (x, point x)) ↔ x ∈ indices ∧ p.Differs x (point x) := by
  rw [conflicts, List.mem_map]
  constructor
  · rintro ⟨entry, hentry, rfl⟩
    obtain ⟨hmem, hconflict⟩ := List.mem_filter.1 hentry
    obtain ⟨y, hy, rfl⟩ := List.mem_map.1 hmem
    refine ⟨hy, ?_⟩
    dsimp only at hconflict ⊢
    split at hconflict
    · exact ⟨_, ‹_›, hconflict⟩
    · cases hconflict
  · rintro ⟨hx, stored, hstored, hconflict⟩
    have hmem : (x, point x) ∈ indices.map fun x => (x, point x) := List.mem_map.2 ⟨x, hx, rfl⟩
    refine ⟨(x, point x), List.mem_filter.2 ⟨hmem, ?_⟩, rfl⟩
    simp only [hstored, hconflict]

/-- A batch of public shares of which one is in conflict is refused as a whole. -/
theorem publishShares_of_conflict {p : Participant K} {excluded : List Int} {point : Int → Point K}
    (hstage : p.requireStage .signingShareComputed = .ok ())
    (hpoint : ∀ x, 1 ≤ x → x ≤ p.n → x ∉ excluded → p.externalShare x = .ok (point x))
    {x : Int} (hx : x ∈ (upTo p.n).filter (· ∉ excluded)) (hconflict : p.Differs x (point x)) :
    p.publishShares excluded = p.verifyAttempt (.error (.failedCheck .publicShareMismatch
      (.storedShares p.position)
      (p.conflicts (((upTo p.n).filter (· ∉ excluded)).map fun x => (x, point x))))) := by
  have hcomputed : (((upTo p.n).filter (· ∉ excluded)).mapM fun x => do
      return (x, ← p.externalShare x) : Except Error _) =
        .ok (((upTo p.n).filter (· ∉ excluded)).map fun x => (x, point x)) := by
    refine mapM_eq_ok fun y hy => ?_
    obtain ⟨hrange, hkept⟩ := List.mem_filter.1 hy
    obtain ⟨h₁, h₂⟩ := mem_upTo.1 hrange
    rw [hpoint y h₁ h₂ (of_decide_eq_true hkept)]
    rfl
  have hmap : (p.shareMap.isNone && p.joint.isNone) = false := by
    obtain ⟨hrange, hkept⟩ := List.mem_filter.1 hx
    obtain ⟨h₁, h₂⟩ := mem_upTo.1 hrange
    have hexternal := hpoint x h₁ h₂ (of_decide_eq_true hkept)
    rw [externalShare] at hexternal
    split at hexternal
    · simp [*]
    · simp [*]
    · cases hexternal
  have hrefused : (p.conflicts (((upTo p.n).filter (· ∉ excluded)).map
      fun x => (x, point x))).isEmpty = false := by
    rw [List.isEmpty_eq_false_iff]
    exact List.ne_nil_of_mem (mem_conflicts.2 ⟨hx, hconflict⟩)
  rw [publishShares, hstage]
  simp only [ok_bind, hmap, hcomputed, storePublicShares, hrefused]
  rfl

/-- Operations are programs that write in place. One that refuses leaves an intact participant
behind, unless it collects shares or derives a public map that has no name, which stays. A
participant with few enough share indices has no such map. And a batch of public shares of which one
is in conflict stores none of them, and blames exactly the indices in conflict. -/
theorem intact_of_refused [LawfulEncoding K] [RandomSource σ] (p : Participant K) :
    (∀ operation : Operation K,
      (operation.program : Program σ K Unit).run.run p = operation.answer p) ∧
    (∀ (operation : Operation K) (source : σ) (refusal : Error) (p' : Participant K),
      (∀ delivery, operation ≠ .receiveShares delivery) →
      ((operation.answer p).run source).1 = (.error refusal, p') →
      Intact operation.records p refusal p' ∨ Unnamed p operation refusal p') ∧
    (∀ (operation : Operation K) (source : σ) (refusal : Error) (p' : Participant K),
      Unnamed p operation refusal p' →
      ((operation.answer p).run source).1 = (.error refusal, p')) ∧
    (p.Reachable → 4 + Point.width * p.n < 2 ^ 32 →
      ∀ (operation : Operation K) (refusal : Error) (p' : Participant K),
        ¬ Unnamed p operation refusal p') ∧
    ∀ (excluded : List Int) (point : Int → Point K),
      p.requireStage .signingShareComputed = .ok () →
      (∀ x, 1 ≤ x → x ≤ p.n → x ∉ excluded → p.externalShare x = .ok (point x)) →
      (∃ x, (1 ≤ x ∧ x ≤ p.n ∧ x ∉ excluded) ∧ p.Differs x (point x)) →
      ∃ refusal, p.publishShares excluded = (.error refusal, { p with failure := some refusal }) ∧
        ∀ x, x ∈ refusal.offenders ↔
          (1 ≤ x ∧ x ≤ p.n ∧ x ∉ excluded) ∧ p.Differs x (point x) := by
  have hmem : ∀ (excluded : List Int) (x : Int), x ∈ (upTo p.n).filter (· ∉ excluded) ↔
      1 ≤ x ∧ x ≤ p.n ∧ x ∉ excluded := by simp [and_assoc]
  refine ⟨run_program p, fun operation source refusal p' => intact_or_unnamed,
    fun operation source refusal p' h => h.answer_eq source,
    fun hreachable hn operation refusal p' => hreachable.not_unnamed hn,
    fun excluded point hstage hpoint hconflict => ?_⟩
  obtain ⟨x, hx, hdiffers⟩ := hconflict
  refine ⟨.failedCheck .publicShareMismatch (.storedShares p.position) (p.conflicts
    (((upTo p.n).filter (· ∉ excluded)).map fun x => (x, point x))), ?_, fun y => ?_⟩
  · rw [publishShares_of_conflict hstage hpoint ((hmem _ _).2 hx) hdiffers, verifyAttempt, abort,
      (of_requireStage_eq_ok hstage).1]
    rfl
  · rw [Error.failedCheck, Error.offenders, mem_ascending, mem_conflicts, hmem]

/-- The only participant of a run, which has published a public share that its joint commitment
contradicts. -/
def disputed : Participant ResidueKey :=
  ((lone.advance .signingShareComputed).derivePowerMap.2.deriveJoint.2.publishOwnShare (some 5)
    none).2

theorem reachable_disputed : disputed.Reachable :=
  .performed (Tape.new [] [] "") (.publishOwnShare (some 5) none)
    (.performed (Tape.new [] [] "") .deriveJoint
      (.performed (Tape.new [] [] "") .derivePowerMap
        (.performed (Tape.new [] [] "") (.advance .signingShareComputed) reachable_lone)))

theorem exists_intact_of_refused : disputed.Reachable ∧ ∃ refusal,
    disputed.publishShares [] = (.error refusal, { disputed with failure := some refusal }) ∧
      (∀ x, x ∈ refusal.offenders ↔ x = 1) ∧
      Intact true disputed refusal { disputed with failure := some refusal } := by
  obtain ⟨-, hintact, -, hnamed, hconflicts⟩ := intact_of_refused (σ := Tape) disputed
  have hone : ∀ x : Int, 1 ≤ x → x ≤ disputed.n → x = 1 := fun x h₁ h₂ =>
    Int.le_antisymm (show x ≤ 1 from h₂) h₁
  have hdiffers : disputed.Differs 1 (.ofScalar 1) := ⟨.ofScalar 5, rfl, rfl⟩
  obtain ⟨refusal, hrefused, hoffenders⟩ := hconflicts [] (fun _ => .ofScalar 1) rfl
    (fun x h₁ h₂ _ => by rw [hone x h₁ h₂]; rfl) ⟨1, ⟨le_refl 1, le_refl 1, nofun⟩, hdiffers⟩
  have hanswer : ((Operation.answer disputed (.publishShares [])).run (Tape.new [] [] "")).1 =
      (.error refusal, { disputed with failure := some refusal }) := by
    change Ceremony.forget (disputed.publishShares []) = _
    rw [hrefused]
    rfl
  refine ⟨reachable_disputed, refusal, hrefused,
    fun x => (hoffenders x).trans ⟨fun h => hone x h.1.1 h.1.2.1, ?_⟩,
    (hintact (.publishShares []) (Tape.new [] [] "") refusal _ nofun hanswer).resolve_right
      (hnamed reachable_disputed (by decide) _ _ _)⟩
  rintro rfl
  exact ⟨⟨le_refl 1, le_refl 1, nofun⟩, hdiffers⟩

/-- The only dealer of a run with more share indices than a snapshot has room for. -/
def crowded : Participant ResidueKey := newcomer 130150524 1 1 1 (.bytes []) [1]

theorem reachable_crowded : crowded.Reachable :=
  .created (Tape.new [[1]] [] "") 130150524 1 1 (some 1) (.bytes []) crowded rfl

/-- What its dealer deals. -/
def soleSharing : Sharing := ⟨1, 1, fun _ => [1], fun _ _ _ => rfl⟩

theorem committedIn_crowded : soleSharing.CommittedIn crowded.commitments where
  dealers_eq := rfl
  threshold_eq := rfl
  get?_eq i h₁ h₂ := by
    obtain rfl := Int.le_antisymm (show i ≤ 1 from h₂) h₁
    rfl

/-- A map of public shares is stored although its derivation is refused. -/
theorem exists_unnamed : ∃ p p' : Participant ResidueKey, p.Reachable ∧
    p.deriveShareMap = (.error (.overflow .tooBig), p') ∧ p.shareMap = none ∧
      p'.shareMap.isSome ∧ ¬ Intact false p (.overflow .tooBig) p' := by
  obtain ⟨m, hm⟩ : ∃ m, PowerMap.derive crowded.n soleSharing.threshold = .ok m :=
    ⟨_, PowerMap.derive_eq _ _⟩
  have hsum : ({ crowded with powerMap := some m } : Participant ResidueKey).sumCommitments =
      .ok soleSharing.jointCommitment := by
    rw [sumCommitments, committedIn_crowded.derive_joint]
    rfl
  have hpowers : crowded.derivePowerMap.2 = { crowded with powerMap := some m } := by
    change (attempt crowded (PowerMap.derive crowded.n soleSharing.threshold >>= _)).2 = _
    rw [hm]
    rfl
  have hjoint : ({ crowded with powerMap := some m } : Participant ResidueKey).deriveJoint.2 =
      { crowded with powerMap := some m, joint := some soleSharing.jointCommitment } := by
    rw [deriveJoint, hsum]
    rfl
  have hreachable := reachable_crowded.derivePowerMap.deriveJoint
  rw [hpowers, hjoint] at hreachable
  have hunnamed := Unnamed.shareMap (p := { crowded with
    powerMap := some m, joint := some soleSharing.jointCommitment }) rfl rfl rfl
    (soleSharing.derive_shareMap hm) (by
      rw [Sharing.length_shares_shareMap]
      decide)
  refine ⟨_, _, hreachable, hunnamed.deriveShareMap_eq, rfl, rfl, fun h => ?_⟩
  have hsame := congrArg shareMap h
  cases hsame

end Participant

end ThresholdKeygen
