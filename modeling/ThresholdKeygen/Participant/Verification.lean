import ThresholdKeygen.Participant.Dealing

/-!
# Verification of shares

The batched check of the shares dealt to an index, and the signing share that a verified inbox adds
up to.
-/

namespace ThresholdKeygen.Participant

variable {K : Type} [Suite K] {σ : Type} [RandomSource σ]

/-- Derives the power map once. -/
def derivePowerMap (p : Participant K) : Answer (Participant K) PowerMap :=
  attempt p do
    match p.powerMap with
    | some powerMap => return (powerMap, p)
    | none =>
      let powerMap ← PowerMap.derive p.n p.threshold
      return (powerMap, { p with powerMap := some powerMap })

/-- The positions that are senders but no dealers, or dealers but no senders. -/
def senderMismatch (p : Participant K) (senders : List Int) : List Int :=
  let dealers := upTo p.dealers
  dealers.filter (· ∉ senders) ++ senders.filter (· ∉ dealers)

/-- The senders of an inbox whose share for an index, taken alone, disagrees with the commitment. -/
def singleMismatches (p : Participant K) (inbox : Inbox) (index : Int) :
    Except Error (List Int) := do
  let checked ← inbox.bySender.mapM fun (sender, share) => do
    return (sender, (← p.commitments.commitmentOf sender).verifyShare share index)
  return (checked.filter fun (_, agrees) => !agrees).map Prod.fst

/-- The senders to blame for a batch that fails: those that halving finds, or, when new weights let
every part pass, those whose share fails alone. -/
def culprits (p : Participant K) (inbox : Inbox) (row : List Scalar) (index : Int) :
    ExceptT Error (StateM σ) (List Int) := do
  let isolated ← BatchCheck.findInvalid p.position inbox p.commitments row
  if isolated.isEmpty then p.singleMismatches inbox index else return isolated

/-- Refuses a batch check when a commitment has gaps, which is noticed when the points are
weighed. -/
def requireWhole (p : Participant K) (shares : Nat) : ExceptT Error (StateM σ) Unit := do
  if !p.gaps.keys.isEmpty then
    let _ ← (BatchCheck.freshWeights p.position shares : StateM σ _)
    throw (.noAttribute "NoneType" "_smul")

/-- Checks a delivery as the shares dealt to an index; a failed check names every dealer that is no
sender, or whose share disagrees with its commitment. -/
def checkShares (p : Participant K) (delivery : Delivery) (index : Int) :
    ExceptT Error (StateM σ) Unit := do
  p.checkIndex index
  let powerMap ← p.requirePowerMap
  p.requireCommitments
  let mismatch := p.senderMismatch delivery.keys
  if !mismatch.isEmpty then
    throw (Error.failedCheck .share (.shareSet index) mismatch).written
  let row ← powerMap.row index
  let inbox ← delivery.weighed p.position
  p.requireWhole inbox.keys.length
  if ← BatchCheck.verify p.position inbox p.commitments row then return
  throw (.failedCheck .share (.shareBatch index) (← p.culprits inbox row index))

/-- The conditions of a verification and the check itself. -/
def checkDealtShares (p : Participant K) (delivery : Delivery) (index : Int) :
    ExceptT Error (StateM σ) Unit := do
  let _ ← p.requirePowerMap
  p.requireCommitments
  p.requireStage .sharesDistributed
  p.checkShares delivery index

/-- Verifies a delivery, by default the own inbox, as the shares dealt to an index, by default the
own position. -/
def verifyShares (p : Participant K) (delivery : Option Delivery) (index : Option Int) :
    StateM σ (Answer (Participant K) Unit) := do
  let delivery := delivery.getD (.ofInbox p.sharesIn)
  let checked ← (p.checkDealtShares delivery (index.getD p.position)).run
  return p.verifyAttempt (checked.map fun _ => ((), p.advance .sharesVerified))

/-- The sum of the shares of all dealers. -/
def computeSigningShare (p : Participant K) : Answer (Participant K) Scalar :=
  attempt p do
    p.requireStage .sharesVerified
    let missing := (upTo p.dealers).filter fun i => (p.sharesIn.get? i).isNone
    if !missing.isEmpty then throw (.state (.missingShares missing))
    let share := Scalar.sum p.sharesIn.values
    return (share, { p with signingShare := some share }.advance .signingShareComputed)

end ThresholdKeygen.Participant
