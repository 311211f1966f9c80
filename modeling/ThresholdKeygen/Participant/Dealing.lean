import ThresholdKeygen.KnowledgeProof
import ThresholdKeygen.Participant.Basic

/-!
# Dealing

The operations that exchange data with the other dealers: commitments, proofs of knowledge, and the
shares that a participant hands out and receives.
-/

namespace ThresholdKeygen.Participant

variable {K : Type} [Suite K] {σ : Type} [RandomSource σ]

/-! ### Commitments and proofs -/

/-- Notes the gaps of a commitment; when it has come before, it has to have the same ones. -/
def noteGaps (p : Participant K) (sender : Int) (fresh : Bool) (gaps : List Nat) :
    Except Error (Participant K) :=
  if p.gapsOf sender = gaps then .ok p
  else if fresh then .ok { p with gaps := p.gaps.put sender gaps }
  else .error (.failedCheck .commitmentConflict (.secondCommitment sender) [sender])

/-- Stores what a dealer has published of its commitment. -/
def receivePublication (p : Participant K) (sender : Int) (publication : Publication K) :
    Answer (Participant K) Unit :=
  attempt p do
    let (fresh, commitments) ← p.commitments.register sender publication.filled
    let p ← { p with commitments }.noteGaps sender fresh publication.gaps
    return ((), if commitments.isComplete then p.advance .commitmentsExchanged else p)

/-- Stores the commitment of a dealer. -/
def receiveCommitment (p : Participant K) (sender : Int) (commitment : Commitment K) :
    Answer (Participant K) Unit :=
  p.receivePublication sender (.ofCommitment commitment)

/-- The context that proofs cover: a given label, or the participant's own, and the parameters. -/
def runContext (p : Participant K) (label : Option (Item K)) : Except Error (Item K) :=
  return .bytes (← Transcript.runContext (label.getD p.context) p.n p.dealers p.threshold)

/-- Proves knowledge of the constant term of the own polynomial. -/
def prove (p : Participant K) (label : Option (Item K)) :
    ExceptT Error (StateM σ) (KnowledgeProof K) := do
  let constant ← (← p.commitment).constant
  let context ← p.runContext label
  KnowledgeProof.prove (p.polynomial.headD 0) constant p.position context

/-- Whether no other constant than a given one is registered for a dealer. -/
def agreesWith (p : Participant K) (peer : Int) (constant : Option (Point K)) :
    Except Error Bool := do
  match ← p.commitments.get peer with
  | none => return true
  | some registered => return (← p.constantOf peer registered) == constant

/-- Checks the proof of a dealer for the constant term of its commitment; it also fails when another
constant is registered for the dealer. -/
def verifyProof (p : Participant K) (label : Option (Item K)) (proof : KnowledgeProof K)
    (peer : Int) (constant : Point K) : Except Error Bool := do
  if !(← p.agreesWith peer (some constant)) then return false
  proof.verify constant peer (← p.runContext label)

/-- The same check when the announcement of the proof or the constant may not have been published.
What is missing is noticed when it is needed. -/
def verifyPublished (p : Participant K) (label : Option (Item K)) (announcement : Option (Point K))
    (response : Scalar) (peer : Int) (constant : Option (Point K)) : Except Error Bool := do
  match announcement, constant with
  | some announcement, some constant =>
    p.verifyProof label ⟨announcement, response⟩ peer constant
  | _, _ =>
    if !(← p.agreesWith peer constant) then return false
    let _ ← p.runContext label
    if constant.any Point.isIdentity then return false
    throw (.noAttribute "NoneType" "is_inf")

/-! ### Shares -/

/-- Evaluates the own polynomial at every share index. -/
def dealShares (p : Participant K) : Answer (Participant K) Unit :=
  attempt p do
    p.requireStage .commitmentsExchanged
    let shares := (upTo p.n).map fun x => (x, p.polynomial.evaluate (Scalar.ofInt x))
    let p := { p with sharesOut := p.sharesOut.putAll shares }
    return ((), p.advance .sharesDistributed)

/-- The share that the participant deals to an index. -/
def shareFor (p : Participant K) (index : Int) : Except Error Scalar := do
  p.checkIndex index
  match p.sharesOut.get? index with
  | some share => return share
  | none => throw (.state .noSharesDealt)

/-- Stores shares one after the other, up to the first sender that is no dealer. -/
def storeShares (p : Participant K) : List (Int × Option Scalar) → Answer (Participant K) Unit
  | [] => (.ok (), p)
  | (sender, share) :: rest =>
    if 1 ≤ sender ∧ sender ≤ p.dealers then
      storeShares { p with sharesIn := p.sharesIn.assign sender share } rest
    else (.error (.parameters (.senderOutside sender p.dealers)), p)

/-- Stores the shares dealt to the own position; a gap empties the place of its sender. -/
def receiveShares (p : Participant K) (delivery : Delivery) : Answer (Participant K) Unit :=
  if Stage.sharesVerified ≤ p.stage then (.error (.state .inboxClosed), p)
  else p.storeShares delivery.entries

end ThresholdKeygen.Participant
