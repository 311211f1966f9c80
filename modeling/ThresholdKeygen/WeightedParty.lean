import ThresholdKeygen.KeyPartition
import ThresholdKeygen.Participant.PublicShares

/-!
# Weighted parties

A party that deals once and owns several key slots. Each slot has an inbox, a signing share and a
stage of its own; the arithmetic is that of the participant which the party wraps, and this
participant moves on when all slots of the party have.
-/

namespace ThresholdKeygen

variable {K : Type} [Suite K] {σ : Type} [RandomSource σ]

/-- A participant among `parties` dealers, and the state of the key slots that it owns. -/
structure WeightedParty (K : Type) where
  parties : Int
  core : Participant K
  keys : KeySet
  inboxes : Mapping Int Delivery
  signingShares : Mapping Int Scalar
  slotStages : Mapping Int Stage

namespace WeightedParty

/-- A party without keys around a participant. -/
def create (parties : Int) (core : Participant K) : Except Error (WeightedParty K) :=
  if core.dealers ≠ parties then .error (.parameters (.dealerCount core.dealers parties))
  else .ok ⟨parties, core, .empty, .empty, .empty, .empty⟩

/-- The position of the party among the dealers. -/
def position (w : WeightedParty K) : Int := w.core.position

/-- A short name for messages. -/
def describe (w : WeightedParty K) : String :=
  s!"WstsParticipant(position={w.position}, keys={w.keys.size})"

/-! ### Slots -/

/-- The place of a key among the slots `0, …, n`; negative keys count from the end. -/
def slotOf (w : WeightedParty K) (key : Int) : Except Error Int :=
  if 0 ≤ key ∧ key ≤ w.core.n then .ok key
  else if -(w.core.n + 1) ≤ key ∧ key < 0 then .ok (w.core.n + 1 + key)
  else .error (.outOfRange (if isPlace key then .list else .boundless))

/-- Adds keys to those that the party owns, up to the first that is out of range. -/
def assignKeys (w : WeightedParty K) : List Int → Answer (WeightedParty K) Unit
  | [] => (.ok (), w)
  | key :: rest =>
    if 1 ≤ key ∧ key ≤ w.core.n then
      assignKeys { w with
        keys := w.keys.insert key
        slotStages :=
          if (w.slotStages.get? key).isSome then w.slotStages
          else w.slotStages.put key .created } rest
    else (.error (.parameters (.keyOutside key w.core.n)), w)

/-- Refuses a key that the party does not own. -/
def requireOwned (w : WeightedParty K) (key : Int) : Except Error Unit :=
  if key ∈ w.keys then .ok () else .error (.parameters (.keyNotOwned w.position key))

/-- The stage of an owned slot. -/
def slotStage (w : WeightedParty K) (key : Int) : Except Error Stage := do
  w.requireOwned key
  return (w.slotStages.get? (← w.slotOf key)).getD .created

/-- Moves an owned slot forward to a stage, never back. -/
def advanceSlot (w : WeightedParty K) (stage : Stage) (key : Int) :
    Except Error (WeightedParty K) := do
  let current ← w.slotStage key
  if current < stage then
    return { w with slotStages := w.slotStages.put (← w.slotOf key) stage }
  else return w

/-- Moves slots forward one after the other, up to the first refusal. -/
def advanceSlots (w : WeightedParty K) (stage : Stage) : List Int → Answer (WeightedParty K) Unit
  | [] => (.ok (), w)
  | key :: rest =>
    match w.advanceSlot stage key with
    | .ok w => advanceSlots w stage rest
    | .error refusal => (.error refusal, w)

/-- The participant of the party after an operation on it. -/
def onCore {α : Type} (w : WeightedParty K) (answer : Answer (Participant K) α) :
    Answer (WeightedParty K) α :=
  (answer.1, { w with core := answer.2 })

/-! ### Shares -/

/-- Stores the shares that all parties dealt to an owned slot. -/
def storeShares (w : WeightedParty K) (key : Int) (delivery : Delivery) :
    Answer (WeightedParty K) Unit :=
  attempt w do
    w.requireOwned key
    w.core.requireStage .created
    if Stage.sharesVerified ≤ (← w.slotStage key) then throw (.state (.slotVerified key))
    if let some stranger := delivery.keys.find? fun i => ¬ (1 ≤ i ∧ i ≤ w.parties) then
      throw (.parameters (.senderOutside stranger w.parties))
    let w := { w with inboxes := w.inboxes.put (← w.slotOf key) delivery }
    return ((), ← w.advanceSlot .sharesDistributed key)

/-- The shares stored for an owned slot. -/
def inboxOf (w : WeightedParty K) (key : Int) : Except Error Delivery := do
  w.requireOwned key
  match w.inboxes.get? (← w.slotOf key) with
  | some delivery => return delivery
  | none => throw (.state (.slotEmpty key))

/-- Checks slots one after the other and moves those forward that pass; the answer is the slots that
fail, each with those whom it blames. -/
def checkSlots (w : WeightedParty K) :
    List Int → StateM σ (Answer (WeightedParty K) (List (Int × List Int)))
  | [] => return (.ok [], w)
  | key :: rest => do
    match w.inboxOf key with
    | .error refusal => return (.error refusal, w)
    | .ok delivery =>
      match ← (w.core.checkShares delivery key).run with
      | .ok () =>
        match w.advanceSlot .sharesVerified key with
        | .ok w => checkSlots w rest
        | .error refusal => return (.error refusal, w)
      | .error refusal =>
        if refusal.isShareCheck then
          let (failed, w) ← checkSlots w rest
          return (failed.map ((key, refusal.offenders) :: ·), w)
        else return (.error refusal, w)

/-- The end of a verification: the party moves on when no slot failed, and aborts otherwise. -/
def settleSlots (w : WeightedParty K) (failed : List (Int × List Int)) :
    Answer (WeightedParty K) Unit :=
  if failed.isEmpty then (.ok (), { w with core := w.core.advance .sharesVerified })
  else
    let failure := Error.failedCheck .share (.slotShares w.position (failed.map Prod.fst))
      (failed.flatMap Prod.snd)
    (.error failure, { w with core := w.core.abort failure })

/-- Verifies the inboxes of all owned slots, so that all offenders are named. -/
def verifyShares (w : WeightedParty K) : StateM σ (Answer (WeightedParty K) Unit) := do
  match w.core.requireStage .sharesDistributed with
  | .error refusal => return (.error refusal, w)
  | .ok () =>
    match ← w.checkSlots w.keys.sorted with
    | (.error refusal, w) => return (.error refusal, w)
    | (.ok failed, w) => return w.settleSlots failed

/-- The sum of the shares of every owned slot. -/
def computeSigningShares (w : WeightedParty K) : Answer (WeightedParty K) (List (Int × Scalar)) :=
  attempt w do
    w.core.requireStage .sharesVerified
    let shares ← w.keys.sorted.mapM fun key => do
      return (key, ← (← w.inboxOf key).sum)
    let slots ← shares.mapM fun (key, share) => do return (← w.slotOf key, share)
    let w := { w with signingShares := w.signingShares.putAll slots }
    let w ← (shares.map Prod.fst).foldlM (fun w key => w.advanceSlot .signingShareComputed key) w
    return (shares, { w with core := w.core.advance .signingShareComputed })

/-- The signing share of an owned slot, if it has been computed. -/
def signingShareOf (w : WeightedParty K) (key : Int) : Except Error (Option Scalar) := do
  w.requireOwned key
  return w.signingShares.get? (← w.slotOf key)

/-! ### Public shares -/

/-- Publishes slots one after the other, up to the first refusal. -/
def publishSlots (w : WeightedParty K) :
    List Int → Answer (WeightedParty K) (List (Int × Point K))
  | [] => (.ok [], w)
  | key :: rest =>
    match w.slotOf key with
    | .error refusal => (.error refusal, w)
    | .ok slot =>
      match w.signingShares.get? slot with
      | none => (.error (.state (.slotNotSigned key)), w)
      | some share =>
        match w.onCore (w.core.publishOwnShare (some share) (some key)) with
        | (.error refusal, w) => (.error refusal, w)
        | (.ok point, w) =>
          let (published, w) := publishSlots w rest
          (published.map ((key, point) :: ·), w)

/-- The public shares of all owned slots, from their signing shares. -/
def publishOwnShares (w : WeightedParty K) : Answer (WeightedParty K) (List (Int × Point K)) :=
  match w.core.requireStage .signingShareComputed with
  | .error refusal => (.error refusal, w)
  | .ok () =>
    match w.publishSlots w.keys.sorted with
    | (.error refusal, w) => (.error refusal, w)
    | (.ok published, w) =>
      let (advanced, w) := w.advanceSlots .publicSharesComputed w.keys.sorted
      (advanced.map fun _ => published, w)

/-- The public shares of all slots of other parties, from the public maps. -/
def publishShares (w : WeightedParty K) : Answer (WeightedParty K) (List (Int × Point K)) :=
  w.onCore (w.core.publishShares w.keys.members)

/-- Derives the group key and moves all owned slots forward. -/
def deriveGroupKey (w : WeightedParty K) : Answer (WeightedParty K) (Point K) :=
  match w.onCore w.core.deriveGroupKey with
  | (.error refusal, w) => (.error refusal, w)
  | (.ok key, w) =>
    let (advanced, w) := w.advanceSlots .groupKeyDerived w.keys.scan
    (advanced.map fun _ => key, w)

end WeightedParty

/-- Refuses unless every key slot has exactly one owner among some parties. -/
def validateParties (parties : List (WeightedParty K)) (keys : Int) : Except Error Unit :=
  KeyPartition.validate (parties.map fun w => (w.position, w.keys)) keys

end ThresholdKeygen
