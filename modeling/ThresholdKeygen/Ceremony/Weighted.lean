import ThresholdKeygen.Ceremony.Round

/-!
# Weighted ceremonies

Ceremonies in which the participants share a larger number of key slots.
-/

namespace ThresholdKeygen.Weighted

variable {K : Type} [Suite K] {σ : Type} [RandomSource σ]

open Ceremony

/-- A computation on a weighted ceremony. -/
abbrev Action (σ K : Type) := Run σ (Ceremony (WeightedParty K))

/-- Creates the party at a position. -/
def createParty (config : Config) (position : Int) :
    ExceptT Error (StateM σ) (WeightedParty K) := do
  let core ← Participant.create config.shareIndices config.threshold position
    (some config.participants) config.label.toItem
  WeightedParty.create config.participants core

/-- Gives a party the keys of its range. -/
def assignRange (ranges : Mapping Int (Int × Int)) (party : WeightedParty K) :
    Except Error (WeightedParty K) :=
  match ranges.get? party.position with
  | none => .error (.noEntry party.position)
  | some range =>
    match party.assignKeys (KeyPartition.keysOfRange range) with
    | (.ok (), party) => .ok party
    | (.error refusal, _) => .error refusal

/-- Creates the parties and divides the key slots among them; a configuration without key slots is
refused. -/
def start (config : Config) : ExceptT Error (StateM σ) (Ceremony (WeightedParty K)) := do
  if !config.weighted then throw (.configuration .notWeighted)
  let parties ← createFrom (createParty config) config.participants.toNat 1
  let counts ← KeyPartition.counts config.participants config.shareIndices
  let members ← (parties.mapM (assignRange (KeyPartition.ranges counts)) : Except Error _)
  validateParties members config.shareIndices
  return { config, members, inboxes := .empty, rounds := [] }

/-- The party that owns a key. -/
def ownerOf (c : Ceremony (WeightedParty K)) (key : Int) : Except Error (WeightedParty K) :=
  match c.members.find? fun party => key ∈ party.keys with
  | some party => .ok party
  | none => .error (.noEntry key)

/-! ### Shares -/

/-- The shares that all parties deal to a key. -/
def inboxFor (key : Int) (dealers : List (WeightedParty K)) : Except Error Inbox :=
  return .ofList (← dealers.mapM fun dealer => do
    return (dealer.position, ← dealer.core.shareFor key))

/-- Delivers the shares of all parties for one key of the party at a place. -/
def deliverSlot (place : Nat) (key : Int) : Action σ K Unit := do
  let inbox ← inboxFor key (← get).members
  let _ ← onMember place fun party : WeightedParty K => party.storeShares key (.ofInbox inbox)

/-- Every party deals shares, which are delivered to the owners of the keys. -/
def distributeShares : Action σ K Unit := do
  round "calculate-secret-shares"
    (steadyTask fun party : WeightedParty K => onCore party Participant.dealShares)
  (← get).members.zipIdx.forM fun (party, place) => party.keys.sorted.forM (deliverSlot place)

/-- Every party verifies the inboxes of its keys. -/
def verifyShares : Action σ K Unit := do
  round "derive-power-map"
    (steadyTask fun party : WeightedParty K => onCore party fun p => forget p.derivePowerMap)
  round "verify-batch-public-secret-shares" fun party => party.verifyShares

/-! ### Keys -/

/-- A party computes the signing shares of its keys and publishes their images. -/
def computeOwnShares (party : WeightedParty K) : Answer (WeightedParty K) Unit :=
  andThen party.computeSigningShares fun party => forget party.publishOwnShares

/-- Every party computes the signing shares of its keys and the public shares of all. -/
def derivePublicShares : Action σ K Unit := do
  round "calculate-internal-public-signing-shares" (steadyTask computeOwnShares)
  propagateMaps
  round "calculate-batch-public-signing-shares"
    (steadyTask fun party => forget party.publishShares)

/-- Refuses when a party has another group key than the first one, or another public share of one of
its keys than some party has. -/
def crossCheck (members : List (WeightedParty K)) (party : WeightedParty K) :
    Except Error Unit := do
  if party.core.groupKey != (members.head?.bind (·.core.groupKey)) then
    throw (.failedCheck .publicShareMismatch (.groupKey "party" party.position) [party.position])
  party.keys.scan.forM fun key => do
    let own ← party.core.publicShareOf key
    members.forM fun other => do
      if (← other.core.publicShareOf key) != own then
        throw (.failedCheck .publicShareMismatch (.keyShare key other.position) [key])

/-- Every party derives the group key; the parties then compare what they have derived. -/
def deriveGroupKey : Action σ K (Result K) := do
  round "calculate-group-public-key" (steadyTask fun party => forget party.deriveGroupKey)
  round "cross-check" (inspection (crossCheck (← get).members))
  return (← get).result

/-- All rounds in order. -/
def run : Action σ K (Result K) := do
  exchangeCommitments
  verifyProofs
  distributeShares
  verifyShares
  derivePublicShares
  deriveGroupKey

/-- The rounds of a weighted ceremony. -/
def rounds : Rounds σ (WeightedParty K) K :=
  ⟨"WstsDKG", distributeShares, verifyShares, derivePublicShares, deriveGroupKey, run⟩

end ThresholdKeygen.Weighted
