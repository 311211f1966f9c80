import ThresholdKeygen.Ceremony.Round

/-!
# Plain ceremonies

Ceremonies in which every participant has one share index, its position.
-/

namespace ThresholdKeygen.Plain

variable {K : Type} [Suite K] {σ : Type} [RandomSource σ]

open Ceremony

/-- A computation on a plain ceremony. -/
abbrev Action (σ K : Type) := Run σ (Ceremony (Participant K))

/-- Creates the participants; a configuration with key slots is refused. -/
def start (config : Config) : ExceptT Error (StateM σ) (Ceremony (Participant K)) := do
  if config.weighted then throw (.configuration .weighted)
  let create (position : Int) :=
    Participant.create config.participants config.threshold position none config.label.toItem
  let members ← createFrom create config.participants.toNat 1
  let inboxes := .ofList ((upTo config.participants).map (·, .empty))
  return { config, members, inboxes, rounds := [] }

/-! ### Shares -/

/-- Puts the share that one member deals to another into the inbox of the other. -/
def collectShare (sender receiver : Participant K) : Action σ K Unit := do
  let share ← sender.shareFor receiver.position
  modify fun c =>
    let inbox := (c.inboxes.get? receiver.position).getD .empty
    { c with inboxes := c.inboxes.put receiver.position (inbox.put sender.position share) }

/-- Delivers its inbox to the member at a place. -/
def deliverInbox (place : Nat) : Action σ K Unit := do
  let c ← get
  let _ ← onMember place fun p : Participant K =>
    p.receiveShares (.ofInbox ((c.inboxes.get? p.position).getD .empty))

/-- Every member deals shares, which are collected and delivered. -/
def distributeShares : Action σ K Unit := do
  round "calculate-secret-shares" (steadyTask Participant.dealShares)
  let members := (← get).members
  members.forM fun sender => members.forM fun receiver => collectShare sender receiver
  (List.range members.length).forM deliverInbox

/-- Every member verifies its inbox. -/
def verifyShares : Action σ K Unit := do
  round "derive-power-map" (steadyTask fun p => forget p.derivePowerMap)
  round "verify-batch-public-secret-shares" fun p => p.verifyShares none none

/-! ### Keys -/

/-- A member computes its signing share and publishes its image. -/
def computeOwnShare (p : Participant K) : Answer (Participant K) Unit :=
  andThen p.computeSigningShare fun p => forget (p.publishOwnShare none none)

/-- Every member computes its signing share and the public shares of all. -/
def derivePublicShares : Action σ K Unit := do
  round "calculate-internal-public-signing-shares" (steadyTask computeOwnShare)
  propagateMaps
  round "calculate-batch-public-signing-shares"
    (steadyTask fun p => forget (p.publishShares [p.position]))

/-- Refuses when a member has another group key than the first one, or another public share than
some member has for it. -/
def crossCheck (members : List (Participant K)) (p : Participant K) : Except Error Unit := do
  if p.groupKey != (members.head?.bind (·.groupKey)) then
    throw (.failedCheck .publicShareMismatch (.groupKey "participant" p.position) [p.position])
  let own ← p.publicShareOf p.position
  members.forM fun other => do
    if (← other.publicShareOf p.position) != own then
      throw (.failedCheck .publicShareMismatch (.participantShare p.position other.position)
        [p.position])

/-- Every member derives the group key; the members then compare what they have derived. -/
def deriveGroupKey : Action σ K (Result K) := do
  round "calculate-group-public-key" (steadyTask fun p => forget p.deriveGroupKey)
  round "cross-check" (inspection (crossCheck (← get).members))
  return (← get).result

/-- All rounds in order. -/
def run : Action σ K (Result K) := do
  exchangeCommitments
  verifyProofs
  distributeShares
  verifyShares
  derivePublicShares
  deriveGroupKey

/-- The rounds of a plain ceremony. -/
def rounds : Rounds σ (Participant K) K :=
  ⟨"FrostDKG", distributeShares, verifyShares, derivePublicShares, deriveGroupKey, run⟩

end ThresholdKeygen.Plain
