import ThresholdKeygen.Delivery
import ThresholdKeygen.PublicMap
import ThresholdKeygen.Publication
import ThresholdKeygen.Stage

/-!
# Participants

The state of one participant. It deals shares of a secret polynomial of its own, collects the
commitments and shares of all dealers, and ends with a signing share for its position, the public
shares of all indices and the group key.

An operation on a participant answers with a result or a refusal, and leaves a participant behind in
either case. Most operations change nothing when they refuse (`attempt`); those that verify record
the failure (`verifyAttempt`), and a participant with a recorded failure does no more work.
-/

namespace ThresholdKeygen

variable {K : Type} [Suite K] {σ : Type} [RandomSource σ]

/-- The state of a participant among `commitments.dealers` dealers and `n` share indices. For each
dealer whose commitment has come with missing points, `gaps` has their places; `commitments` has the
identity there. -/
structure Participant (K : Type) where
  n : Int
  position : Int
  context : Item K
  polynomial : Coefficients
  commitments : CommitmentTable K
  gaps : Mapping Int (List Nat)
  sharesOut : Mapping Int Scalar
  sharesIn : Inbox
  signingShare : Option Scalar
  publicShares : Mapping Int (Point K)
  powerMap : Option PowerMap
  joint : Option (JointCommitment K)
  shareMap : Option (ShareMap K)
  groupKey : Option (Point K)
  stage : Stage
  failure : Option Error

/-- The answer of an operation, and the state that it leaves behind. -/
abbrev Answer (S α : Type) := Except Error α × S

/-- An operation that leaves the state as it was when it refuses. -/
def attempt {S α : Type} (s : S) (result : Except Error (α × S)) : Answer S α :=
  match result with
  | .ok (a, s') => (.ok a, s')
  | .error refusal => (.error refusal, s)

namespace Participant

/-- The number of dealers. -/
def dealers (p : Participant K) : Int := p.commitments.dealers

/-- The number of shares that determine the key. -/
def threshold (p : Participant K) : Int := p.commitments.threshold

/-- Moves forward to a stage, never back. -/
def advance (p : Participant K) (stage : Stage) : Participant K :=
  { p with stage := p.stage.later stage }

/-- Records a failure, unless there is one already. -/
def abort (p : Participant K) (failure : Error) : Participant K :=
  { p with failure := p.failure.or (some failure) }

/-- Whether a failure is recorded. -/
def aborted (p : Participant K) : Bool := p.failure.isSome

/-- An operation that records a failed verification and else leaves a refusing state as it was. -/
def verifyAttempt {α : Type} (p : Participant K) (result : Except Error (α × Participant K)) :
    Answer (Participant K) α :=
  match result with
  | .ok (a, p') => (.ok a, p')
  | .error refusal => (.error refusal, if refusal.isVerification then p.abort refusal else p)

/-- A new participant, which has dealt nothing yet. -/
def create (n threshold position : Int) (dealers : Option Int) (context : Item K) :
    ExceptT Error (StateM σ) (Participant K) := do
  let dealers := dealers.getD n
  if n < 1 then throw (.configuration .noShareIndex)
  if ¬ (1 ≤ threshold ∧ threshold ≤ n) then
    throw (.parameters (.thresholdOutside threshold n))
  if ¬ (1 ≤ dealers ∧ dealers ≤ n) then throw (.parameters (.dealersOutside dealers n))
  if ¬ (1 ≤ position ∧ position ≤ dealers) then
    throw (.parameters (.positionOutside position dealers))
  let polynomial ← Coefficients.sample position (threshold - 1) none
  let empty ← CommitmentTable.new dealers threshold
  let (_, commitments) ← empty.register position (.ofCoefficients polynomial)
  checkSlots (n + 1)
  return {
    n, position, context, polynomial, commitments
    gaps := .empty
    sharesOut := .empty
    sharesIn := .empty
    signingShare := none
    publicShares := .empty
    powerMap := none
    joint := none
    shareMap := none
    groupKey := none
    stage := if commitments.isComplete then .commitmentsExchanged else .created
    failure := none }

/-! ### Conditions of operations -/

/-- Refuses when a failure is recorded or a stage has not been reached. -/
def requireStage (p : Participant K) (stage : Stage) : Except Error Unit :=
  match p.failure with
  | some failure => .error (.state (.aborted p.position failure.message))
  | none =>
    if p.stage < stage then .error (.state (.tooEarly p.position p.stage.name stage.name))
    else .ok ()

/-- Refuses what is no share index. -/
def checkIndex (p : Participant K) (index : Int) : Except Error Unit :=
  if 1 ≤ index ∧ index ≤ p.n then .ok ()
  else .error (.parameters (.shareIndexOutside index p.n))

/-- The power map, refused when it has not been derived. -/
def requirePowerMap (p : Participant K) : Except Error PowerMap :=
  match p.powerMap with
  | some powerMap => .ok powerMap
  | none => .error (.state .noPowerMap)

/-- Refuses when a commitment has not arrived. -/
def requireCommitments (p : Participant K) : Except Error Unit :=
  if p.commitments.missing.isEmpty then .ok ()
  else .error (.state (.missingCommitments p.commitments.missing))

/-- The places of the points that the commitment of a dealer lacks. -/
def gapsOf (p : Participant K) (dealer : Int) : List Nat := (p.gaps.get? dealer).getD []

/-- The constant in the registered commitment of a dealer, none when it is missing there. -/
def constantOf (p : Participant K) (dealer : Int) (commitment : Commitment K) :
    Except Error (Option (Point K)) :=
  if 0 ∈ p.gapsOf dealer then .ok none else commitment.constant.map some

/-- The participant's own commitment. -/
def commitment (p : Participant K) : Except Error (Commitment K) :=
  p.commitments.commitmentOf p.position

/-- A short name for messages. -/
def describe (p : Participant K) : String :=
  s!"Participant(position={p.position}, n={p.n}, t={p.threshold}, dealers={p.dealers}, " ++
    s!"stage={p.stage.name})"

end Participant

end ThresholdKeygen
