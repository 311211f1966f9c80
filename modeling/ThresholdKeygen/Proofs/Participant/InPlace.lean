import ThresholdKeygen.Proofs.Ordinary

/-!
# Operations in place

An operation computes the participant that it leaves behind from the one that it is given. Here are
the operations once more, as programs that write into a participant step by step, in the order of
the protocol, and stop where they refuse. Main statement: `run_program`, operations and programs
answer alike and leave the same participant behind.
-/

namespace ThresholdKeygen

variable {K : Type} [Suite K] {σ : Type}

/-! ### Steps -/

namespace Run

variable {S α β : Type} {s s' : S}

theorem run_get (f : S → Run σ S β) : (get >>= f : Run σ S β).run.run s = (f s).run.run s := rfl

/-- A condition of an operation that leaves the state alone when it refuses. -/
theorem run_check {x : Except Error α} {f : α → Run σ S β} {g : α → Except Error (β × S)}
    (h : ∀ a, x = .ok a → (f a).run.run s = pure (attempt s (g a))) :
    (liftM x >>= f : Run σ S β).run.run s = pure (attempt s (x >>= g)) := by
  cases x with
  | error refusal => rfl
  | ok a => exact h a rfl

/-- A step that succeeds, and what follows it. -/
theorem run_bind_of_eq {m : Run σ S α} {f : α → Run σ S β} {a : α}
    (h : m.run.run s = pure (.ok a, s')) : (m >>= f).run.run s = (f a).run.run s' := by
  rw [ExceptT.run_bind, StateT.run_bind, h]
  rfl

/-- A step that refuses, and what follows it. -/
theorem run_bind_of_refused {m : Run σ S α} {f : α → Run σ S β} {refusal : Error}
    (h : m.run.run s = pure (.error refusal, s')) :
    (m >>= f).run.run s = pure (.error refusal, s') := by
  rw [ExceptT.run_bind, StateT.run_bind, h]
  rfl

end Run

namespace Participant

/-- The participant with its share for an index. -/
def dealShare (p : Participant K) (x : Int) : Participant K :=
  { p with sharesOut := p.sharesOut.put x (p.polynomial.evaluate (Scalar.ofInt x)) }

/-- The participant with the public share of an index. -/
def putPublicShare (p : Participant K) (share : Int × Point K) : Participant K :=
  { p with publicShares := p.publicShares.put share.1 share.2 }

/-- A program that works on a participant in place. -/
abbrev Program (σ K α : Type) := Run σ (Participant K) α

namespace Program

/-- Records a failed verification and refuses with it. -/
def fail {α : Type} (refusal : Error) : Program σ K α := do
  modify fun p => p.abort refusal
  throw refusal

def receivePublication (sender : Int) (publication : Publication K) : Program σ K Unit := do
  let p ← get
  let (fresh, commitments) ← p.commitments.register sender publication.filled
  let p ← { p with commitments }.noteGaps sender fresh publication.gaps
  set p
  if commitments.isComplete then modify fun p => p.advance .commitmentsExchanged

def dealShares : Program σ K Unit := do
  let p ← get
  p.requireStage .commitmentsExchanged
  (upTo p.n).forM fun x => modify fun p => p.dealShare x
  modify fun p => p.advance .sharesDistributed

/-- Stores what a sender has delivered. -/
def storeShare (sender : Int) (share : Option Scalar) : Program σ K Unit := do
  let p ← get
  if 1 ≤ sender ∧ sender ≤ p.dealers then
    set { p with sharesIn := p.sharesIn.assign sender share }
  else throw (.parameters (.senderOutside sender p.dealers))

def receiveShares (delivery : Delivery) : Program σ K Unit := do
  let p ← get
  if Stage.sharesVerified ≤ p.stage then throw (.state .inboxClosed)
  delivery.entries.forM fun (sender, share) => storeShare sender share

def derivePowerMap : Program σ K PowerMap := do
  let p ← get
  match p.powerMap with
  | some powerMap => return powerMap
  | none =>
    let powerMap ← PowerMap.derive p.n p.threshold
    set { p with powerMap := some powerMap }
    return powerMap

/-- What follows a check of shares: the participant moves on, or a failed check is recorded. -/
def conclude : Except Error Unit → Program σ K Unit
  | .ok () => modify fun p => p.advance .sharesVerified
  | .error refusal => if refusal.isShareCheck then fail refusal else throw refusal

def verifyShares [RandomSource σ] (delivery : Option Delivery) (index : Option Int) :
    Program σ K Unit := do
  let p ← get
  let _ ← p.requirePowerMap
  p.requireCommitments
  p.requireStage .sharesDistributed
  let checked ← ((p.checkShares (delivery.getD (.ofInbox p.sharesIn))
    (index.getD p.position)).run : StateM σ _)
  conclude checked

def computeSigningShare : Program σ K Scalar := do
  let p ← get
  p.requireStage .sharesVerified
  let missing := (upTo p.dealers).filter fun i => (p.sharesIn.get? i).isNone
  if !missing.isEmpty then throw (.state (.missingShares missing))
  let share := Scalar.sum p.sharesIn.values
  set { p with signingShare := some share }
  modify fun p => p.advance .signingShareComputed
  return share

def deriveJoint : Program σ K (JointCommitment K) := do
  let p ← get
  p.requireStage .commitmentsExchanged
  let joint ← p.sumCommitments
  set { p with joint := some joint }
  let _ ← joint.fingerprint
  return joint

def deriveShareMap : Program σ K (ShareMap K) := do
  let p ← get
  p.requireStage .commitmentsExchanged
  let some joint := p.joint | throw (.state .noJointCommitment)
  let shareMap ← ShareMap.derive joint (← p.requirePowerMap)
  set { p with shareMap := some shareMap }
  let _ ← shareMap.fingerprint
  return shareMap

def importJoint (snapshot : Bytes) (recompute : Bool) : Program σ K (JointCommitment K) := do
  let p ← get
  p.requireStage .commitmentsExchanged
  let joint ← JointCommitment.ofBytes? snapshot
  if (joint.threshold : Int) ≠ p.threshold then
    throw (.snapshot (.thresholdMismatch joint.threshold p.threshold))
  if recompute then
    if (← p.sumCommitments) != joint then
      fail (.failedCheck .mapMismatch (.importedJoint p.position) [])
  set { p with joint := some joint }
  return joint

def importShareMap (snapshot : Bytes) (recompute : Bool) : Program σ K (ShareMap K) := do
  let p ← get
  p.requireStage .commitmentsExchanged
  let shareMap ← ShareMap.ofBytes? snapshot
  if (shareMap.size : Int) ≠ p.n then throw (.snapshot (.sizeMismatch shareMap.size p.n))
  if recompute then
    let joint ← match p.joint with
      | some joint => pure joint
      | none => p.sumCommitments
    let derived ← ShareMap.derive joint (← p.requirePowerMap)
    if derived != shareMap then
      fail (.failedCheck .mapMismatch (.importedShares p.position)
        (differingIndices derived shareMap))
  set { p with shareMap := some shareMap }
  return shareMap

/-- Stores public shares one after the other, once none of them disagrees with a stored one. -/
def storePublicShares (shares : List (Int × Point K)) : Program σ K Unit := do
  let p ← get
  let conflicting := p.conflicts shares
  if !conflicting.isEmpty then
    fail (.failedCheck .publicShareMismatch (.storedShares p.position) conflicting)
  shares.forM fun share => modify fun p => p.putPublicShare share

def publishOwnShare (signingShare : Option Scalar) (index : Option Int) :
    Program σ K (Point K) := do
  let p ← get
  p.requireStage .signingShareComputed
  let index := index.getD p.position
  p.checkIndex index
  let some share := signingShare.or p.signingShare | throw (.state .noSigningShare)
  let point := Point.ofScalar share
  storePublicShares [(index, point)]
  return point

def publishShares (excluded : List Int) : Program σ K (List (Int × Point K)) := do
  let p ← get
  p.requireStage .signingShareComputed
  if p.shareMap.isNone && p.joint.isNone then throw (.state .noPublicMap)
  let indices := (upTo p.n).filter (· ∉ excluded)
  let computed ← (indices.mapM fun x => do return (x, ← p.externalShare x) : Except Error _)
  storePublicShares computed
  modify fun p => p.advance .publicSharesComputed
  return computed

def deriveGroupKey : Program σ K (Point K) := do
  let p ← get
  p.requireStage .publicSharesComputed
  p.requireCommitments
  match p.groupKey with
  | some key =>
    modify fun p => p.advance .groupKeyDerived
    return key
  | none =>
    let key ← p.sumConstants
    set { p with groupKey := some key }
    modify fun p => p.advance .groupKeyDerived
    return key

end Program

namespace Operation

variable [RandomSource σ]

/-- The answer of an operation, without its result, and the participant that it leaves behind. -/
def answer (p : Participant K) : Operation K → StateM σ (Answer (Participant K) Unit)
  | receivePublication sender publication => return p.receivePublication sender publication
  | dealShares => return p.dealShares
  | receiveShares delivery => return p.receiveShares delivery
  | derivePowerMap => return Ceremony.forget p.derivePowerMap
  | verifyShares delivery index => p.verifyShares delivery index
  | computeSigningShare => return Ceremony.forget p.computeSigningShare
  | deriveJoint => return Ceremony.forget p.deriveJoint
  | deriveShareMap => return Ceremony.forget p.deriveShareMap
  | importJoint snapshot recompute => return Ceremony.forget (p.importJoint snapshot recompute)
  | importShareMap snapshot recompute =>
    return Ceremony.forget (p.importShareMap snapshot recompute)
  | publishOwnShare signingShare index =>
    return Ceremony.forget (p.publishOwnShare signingShare index)
  | publishShares excluded => return Ceremony.forget (p.publishShares excluded)
  | deriveGroupKey => return Ceremony.forget p.deriveGroupKey
  | advance stage => return (.ok (), p.advance stage)
  | abort failure => return (.ok (), p.abort failure)

/-- The program of an operation. -/
def program : Operation K → Program σ K Unit
  | receivePublication sender publication => Program.receivePublication sender publication
  | dealShares => Program.dealShares
  | receiveShares delivery => Program.receiveShares delivery
  | derivePowerMap => do let _ ← Program.derivePowerMap
  | verifyShares delivery index => Program.verifyShares delivery index
  | computeSigningShare => do let _ ← Program.computeSigningShare
  | deriveJoint => do let _ ← Program.deriveJoint
  | deriveShareMap => do let _ ← Program.deriveShareMap
  | importJoint snapshot recompute => do let _ ← Program.importJoint snapshot recompute
  | importShareMap snapshot recompute => do let _ ← Program.importShareMap snapshot recompute
  | publishOwnShare signingShare index => do let _ ← Program.publishOwnShare signingShare index
  | publishShares excluded => do let _ ← Program.publishShares excluded
  | deriveGroupKey => do let _ ← Program.deriveGroupKey
  | advance stage => modify fun p => p.advance stage
  | abort failure => modify fun p => p.abort failure

/-- An operation performed is its answer without the verdict. -/
theorem perform_eq (p : Participant K) (operation : Operation K) (source : σ) :
    (operation.perform p).run source =
      (((operation.answer p).run source).1.2, ((operation.answer p).run source).2) := by
  cases operation <;> rfl

end Operation

namespace Program

open Run

variable {α β : Type} {p : Participant K}

/-! ### Conditions and loops -/

section Steps

omit [Suite K]

/-- A condition of an operation that records failed verifications, when it is none itself. -/
theorem run_inspect {x : Except Error α} (hx : Ordinary x) {f : α → Program σ K β}
    {g : α → Except Error (β × Participant K)}
    (h : ∀ a, x = .ok a → (f a).run.run p = pure (p.verifyAttempt (g a))) :
    (liftM x >>= f : Program σ K β).run.run p = pure (p.verifyAttempt (x >>= g)) := by
  cases x with
  | error refusal =>
    have hrefusal := Error.isVerification_eq_false (hx refusal rfl)
    rw [error_bind, verifyAttempt]
    simp only [hrefusal]
    rfl
  | ok a => exact h a rfl

/-- A condition of a derivation whose map is named in the log. -/
theorem run_check_logged {fingerprint : β → Except Error String} {x : Except Error α}
    {f : α → Program σ K β} {g : α → Except Error (β × Participant K)}
    (h : ∀ a, x = .ok a → (f a).run.run p = pure (logged fingerprint (attempt p (g a)))) :
    (liftM x >>= f : Program σ K β).run.run p =
      pure (logged fingerprint (attempt p (x >>= g))) := by
  cases x with
  | error refusal => rfl
  | ok a => exact h a rfl

/-- A map is stored before it is named. -/
theorem run_set_logged (fingerprint : β → Except Error String) (map : β) (p' : Participant K) :
    (do set p'; let _ ← fingerprint map; return map : Program σ K β).run.run p =
      pure (logged fingerprint (.ok map, p')) := by
  rw [logged, ok_bind]
  cases fingerprint map <;> rfl

/-- A loop that only writes. -/
theorem run_forM_modify {ι : Type} (write : Participant K → ι → Participant K) (l : List ι) :
    (l.forM fun i => modify fun p => write p i : Program σ K PUnit).run.run p =
      pure (.ok ⟨⟩, l.foldl write p) := by
  induction l generalizing p with
  | nil => rfl
  | cons i l ih => exact ih

theorem foldl_dealShare (l : List Int) : l.foldl dealShare p = { p with
    sharesOut := p.sharesOut.putAll
      (l.map fun x => (x, p.polynomial.evaluate (Scalar.ofInt x))) } := by
  induction l generalizing p with
  | nil => rfl
  | cons x l ih => exact ih

theorem foldl_putPublicShare (shares : List (Int × Point K)) :
    shares.foldl putPublicShare p = { p with publicShares := p.publicShares.putAll shares } := by
  induction shares generalizing p with
  | nil => rfl
  | cons share shares ih => exact ih

/-- A program whose result does not matter. -/
theorem run_discard {m : Program σ K α} {answer : Answer (Participant K) α}
    (h : m.run.run p = pure answer) :
    (do let _ ← m : Program σ K Unit).run.run p = pure (Ceremony.forget answer) := by
  obtain ⟨result, p'⟩ := answer
  cases result with
  | error refusal => exact run_bind_of_refused h
  | ok a => exact run_bind_of_eq h

/-- A condition of the check of shares. -/
theorem run_condition {x : Except Error α} (hx : Ordinary x) {f : α → Program σ K Unit}
    {g : α → ExceptT Error (StateM σ) Unit}
    (h : ∀ a, x = .ok a → (f a).run.run p = (g a).run >>= fun checked =>
      pure (p.verifyAttempt (checked.map fun _ => ((), p.advance .sharesVerified)))) :
    (liftM x >>= f : Program σ K Unit).run.run p = (liftM x >>= g).run >>= fun checked =>
      pure (p.verifyAttempt (checked.map fun _ => ((), p.advance .sharesVerified))) := by
  cases x with
  | error refusal =>
    have hrefusal := Error.isVerification_eq_false (hx refusal rfl)
    change _ = (pure (p.verifyAttempt (.error refusal)) : StateM σ _)
    rw [verifyAttempt]
    simp only [hrefusal]
    rfl
  | ok a => exact h a rfl

end Steps

/-! ### Programs and operations -/

theorem run_receivePublication (sender : Int) (publication : Publication K) :
    (receivePublication sender publication : Program σ K Unit).run.run p =
      pure (p.receivePublication sender publication) := by
  rw [receivePublication, run_get]
  refine run_check fun registered _ => run_check fun noted _ => ?_
  rw [run_bind_of_eq rfl]
  split <;> rfl

section

omit [Suite K]

theorem run_dealShares : (dealShares : Program σ K Unit).run.run p = pure p.dealShares := by
  rw [dealShares, run_get]
  refine run_check fun _ _ => ?_
  rw [run_bind_of_eq (run_forM_modify dealShare _), foldl_dealShare]
  rfl

theorem run_storeShares (entries : List (Int × Option Scalar)) :
    (entries.forM fun (sender, share) => storeShare sender share :
      Program σ K PUnit).run.run p = pure (p.storeShares entries) := by
  induction entries generalizing p with
  | nil => rfl
  | cons entry entries ih =>
    obtain ⟨sender, share⟩ := entry
    rw [storeShares]
    split
    · rename_i hsender
      have hstored : (storeShare sender share : Program σ K Unit).run.run p =
          pure (.ok (), { p with sharesIn := p.sharesIn.assign sender share }) := by
        rw [storeShare, run_get, if_pos hsender]
        rfl
      exact (run_bind_of_eq hstored).trans ih
    · rename_i hsender
      have hrefused : (storeShare sender share : Program σ K Unit).run.run p =
          pure (.error (.parameters (.senderOutside sender p.dealers)), p) := by
        rw [storeShare, run_get, if_neg hsender]
        rfl
      exact run_bind_of_refused hrefused

theorem run_receiveShares (delivery : Delivery) :
    (receiveShares delivery : Program σ K Unit).run.run p = pure (p.receiveShares delivery) := by
  rw [receiveShares, run_get, Participant.receiveShares]
  split
  · rfl
  · exact run_storeShares _

theorem run_derivePowerMap :
    (derivePowerMap : Program σ K PowerMap).run.run p = pure p.derivePowerMap := by
  rw [derivePowerMap, run_get, Participant.derivePowerMap]
  cases p.powerMap with
  | some powerMap => rfl
  | none => exact run_check fun powerMap _ => rfl

theorem run_computeSigningShare :
    (computeSigningShare : Program σ K Scalar).run.run p = pure p.computeSigningShare := by
  rw [computeSigningShare, run_get]
  refine run_check fun _ _ => ?_
  dsimp only
  split <;> rfl

end

theorem run_deriveJoint :
    (deriveJoint : Program σ K (JointCommitment K)).run.run p = pure p.deriveJoint := by
  rw [deriveJoint, run_get]
  exact run_check_logged fun _ _ => run_check_logged fun joint _ => run_set_logged _ _ _

theorem run_deriveShareMap :
    (deriveShareMap : Program σ K (ShareMap K)).run.run p = pure p.deriveShareMap := by
  rw [deriveShareMap, run_get]
  refine run_check_logged fun _ _ => ?_
  cases p.joint with
  | none => rfl
  | some joint =>
    exact run_check_logged fun powerMap _ => run_check_logged fun shareMap _ =>
      run_set_logged _ _ _

theorem run_deriveGroupKey :
    (deriveGroupKey : Program σ K (Point K)).run.run p = pure p.deriveGroupKey := by
  rw [deriveGroupKey, run_get]
  refine run_check fun _ _ => run_check fun _ _ => ?_
  cases hkey : p.groupKey with
  | some key =>
    have hself : { p with groupKey := some key } = p := by rw [← hkey]
    calc
      _ = (pure (.ok key, p.advance .groupKeyDerived) :
          StateM σ (Answer (Participant K) (Point K))) := rfl
      _ = pure (.ok key, advance { p with groupKey := some key } .groupKeyDerived) := by rw [hself]
  | none => exact run_check fun key _ => rfl

/-! ### Programs and operations that verify -/

omit [Suite K] in
theorem run_conclude {checked : Except Error Unit}
    (h : Refuses checked fun refusal =>
      refusal.isShareCheck = true ∨ refusal.isOrdinary = true) :
    (conclude checked : Program σ K Unit).run.run p =
      pure (p.verifyAttempt (checked.map fun _ => ((), p.advance .sharesVerified))) := by
  cases checked with
  | ok _ => rfl
  | error refusal =>
    rw [conclude, map_error, verifyAttempt]
    cases hcheck : refusal.isShareCheck with
    | true =>
      simp only [Error.isVerification_of_isShareCheck hcheck]
      rfl
    | false =>
      have hordinary := (h refusal rfl).resolve_left (by simp [hcheck])
      simp only [Error.isVerification_eq_false hordinary]
      rfl

theorem run_verifyShares [RandomSource σ] (delivery : Option Delivery) (index : Option Int) :
    (verifyShares delivery index : Program σ K Unit).run.run p = p.verifyShares delivery index := by
  rw [verifyShares, run_get]
  refine run_condition p.ordinary_requirePowerMap fun _ _ => ?_
  refine run_condition p.ordinary_requireCommitments fun _ _ => ?_
  refine run_condition (p.ordinary_requireStage _) fun _ _ => ?_
  funext source
  exact congrFun (run_conclude (p.declines_checkShares _ _ source)) _

theorem run_importJoint (snapshot : Bytes) (recompute : Bool) :
    (importJoint snapshot recompute : Program σ K (JointCommitment K)).run.run p =
      pure (p.importJoint snapshot recompute) := by
  rw [importJoint, run_get]
  refine run_inspect (p.ordinary_requireStage _) fun _ _ => ?_
  refine run_inspect (JointCommitment.ordinary_ofBytes? _) fun joint _ => ?_
  dsimp only
  split
  · rfl
  cases recompute with
  | false => rfl
  | true =>
    refine run_inspect p.ordinary_sumCommitments fun own _ => ?_
    split <;> rfl

theorem run_importShareMap (snapshot : Bytes) (recompute : Bool) :
    (importShareMap snapshot recompute : Program σ K (ShareMap K)).run.run p =
      pure (p.importShareMap snapshot recompute) := by
  rw [importShareMap, run_get]
  refine run_inspect (p.ordinary_requireStage _) fun _ _ => ?_
  refine run_inspect (ShareMap.ordinary_ofBytes? _) fun shareMap _ => ?_
  dsimp only
  split
  · rfl
  cases recompute with
  | false => rfl
  | true =>
    cases p.joint with
    | some joint =>
      refine run_inspect p.ordinary_requirePowerMap fun powerMap _ => ?_
      refine run_inspect (ShareMap.ordinary_derive _ _) fun derived _ => ?_
      split <;> rfl
    | none =>
      refine run_inspect p.ordinary_sumCommitments fun joint _ => ?_
      refine run_inspect p.ordinary_requirePowerMap fun powerMap _ => ?_
      refine run_inspect (ShareMap.ordinary_derive _ _) fun derived _ => ?_
      split <;> rfl

/-- Public shares that are stored, and what follows. -/
theorem run_storePublicShares {shares : List (Int × Point K)} {f : Program σ K β}
    {g : Participant K → Except Error (β × Participant K)}
    (h : ∀ stored, p.storePublicShares shares = .ok stored →
      f.run.run stored = pure (p.verifyAttempt (g stored))) :
    (storePublicShares shares >>= fun _ => f : Program σ K β).run.run p =
      pure (p.verifyAttempt (p.storePublicShares shares >>= g)) := by
  by_cases hagree : (p.conflicts shares).isEmpty = true
  · have hstored : p.storePublicShares shares =
        .ok { p with publicShares := p.publicShares.putAll shares } := if_pos hagree
    have hrun : (storePublicShares shares : Program σ K Unit).run.run p =
        pure (.ok (), { p with publicShares := p.publicShares.putAll shares }) := by
      rw [storePublicShares, run_get, ← foldl_putPublicShare]
      simp only [hagree]
      exact run_forM_modify putPublicShare shares
    rw [run_bind_of_eq hrun, h _ hstored, hstored]
    rfl
  · have hrefused : p.storePublicShares shares =
        .error (.failedCheck .publicShareMismatch (.storedShares p.position)
          (p.conflicts shares)) := if_neg hagree
    rw [hrefused]
    refine run_bind_of_refused ?_
    rw [storePublicShares, run_get]
    simp only [hagree]
    rfl

theorem run_publishOwnShare (signingShare : Option Scalar) (index : Option Int) :
    (publishOwnShare signingShare index : Program σ K (Point K)).run.run p =
      pure (p.publishOwnShare signingShare index) := by
  rw [publishOwnShare, run_get]
  refine run_inspect (p.ordinary_requireStage _) fun _ _ => ?_
  refine run_inspect (p.ordinary_checkIndex _) fun _ _ => ?_
  cases signingShare.or p.signingShare with
  | none => rfl
  | some share => exact run_storePublicShares fun stored _ => rfl

theorem run_publishShares (excluded : List Int) :
    (publishShares excluded : Program σ K (List (Int × Point K))).run.run p =
      pure (p.publishShares excluded) := by
  rw [publishShares, run_get]
  refine run_inspect (p.ordinary_requireStage _) fun _ _ => ?_
  cases p.shareMap.isNone && p.joint.isNone with
  | true => rfl
  | false =>
    refine run_inspect ?_ fun computed _ => run_storePublicShares fun stored _ => rfl
    exact .mapM (fun x => .bind (p.ordinary_externalShare x) fun _ => .ok) _

end Program

/-- Operations and their programs answer alike, and leave the same participant behind. -/
theorem run_program [RandomSource σ] (p : Participant K) (operation : Operation K) :
    (operation.program : Program σ K Unit).run.run p = operation.answer p := by
  cases operation with
  | receivePublication sender publication => exact Program.run_receivePublication sender publication
  | dealShares => exact Program.run_dealShares
  | receiveShares delivery => exact Program.run_receiveShares delivery
  | derivePowerMap => exact Program.run_discard Program.run_derivePowerMap
  | verifyShares delivery index => exact Program.run_verifyShares delivery index
  | computeSigningShare => exact Program.run_discard Program.run_computeSigningShare
  | deriveJoint => exact Program.run_discard Program.run_deriveJoint
  | deriveShareMap => exact Program.run_discard Program.run_deriveShareMap
  | importJoint snapshot recompute =>
    exact Program.run_discard (Program.run_importJoint snapshot recompute)
  | importShareMap snapshot recompute =>
    exact Program.run_discard (Program.run_importShareMap snapshot recompute)
  | publishOwnShare signingShare index =>
    exact Program.run_discard (Program.run_publishOwnShare signingShare index)
  | publishShares excluded => exact Program.run_discard (Program.run_publishShares excluded)
  | deriveGroupKey => exact Program.run_discard Program.run_deriveGroupKey
  | advance stage => rfl
  | abort failure => rfl

end Participant

end ThresholdKeygen
