import ThresholdKeygen.Config.Basic
import ThresholdKeygen.WeightedParty

/-!
# Rounds

A ceremony moves its members through the protocol in rounds. In a round every member works on its
own task; the tasks run in some order, the schedule, and all of them run even when some fail. The
failures are collected by position. What crosses members happens between rounds.
-/

namespace ThresholdKeygen

variable {K : Type} [Suite K] {σ : Type} [RandomSource σ]

/-- A member of a ceremony: a participant, or something that wraps one. -/
class Member (M : Type) (K : outParam Type) where
  core : M → Participant K
  withCore : M → Participant K → M

instance : Member (Participant K) K := ⟨id, fun _ p => p⟩
instance : Member (WeightedParty K) K := ⟨WeightedParty.core, fun w p => { w with core := p }⟩

/-- The state of a ceremony. In a plain one, `inboxes` holds the shares that were dealt to each
position. -/
structure Ceremony (M : Type) where
  config : Config
  members : List M
  inboxes : Mapping Int Inbox
  rounds : List String

/-- A computation on a state of type `S` that may draw randomness and may refuse; the state that it
has reached stays when it refuses. -/
abbrev Run (σ S : Type) := ExceptT Error (StateT S (StateM σ))

/-- A computation that leaves the state alone. -/
def Run.besides {S α : Type} (computation : ExceptT Error (StateM σ) α) : Run σ S α := fun s => do
  let answer ← computation.run
  return (answer, s)

/-- The work of one member in a round. -/
abbrev Task (σ M : Type) := M → StateM σ (Answer M Unit)

namespace Ceremony

variable {M : Type} [Member M K]

/-- Runs the task of every member in a schedule, a list of places of members. The answer is the
outcome at each place, and the members afterwards. -/
def runTasks (task : Task σ M) :
    (schedule : List Nat) → List M → StateM σ (List (Nat × Except Error Unit) × List M)
  | [], members => return ([], members)
  | place :: schedule, members =>
    match members[place]? with
    | none => runTasks task schedule members
    | some member => do
      let (outcome, member) ← task member
      let (outcomes, members) ← runTasks task schedule (members.set place member)
      return ((place, outcome) :: outcomes, members)

/-- The position of a member. -/
def positionOf (member : M) : Int := (Member.core member).position

/-- The refusals among some outcomes, each with the position of the member at its place. -/
def refusals (members : List M) (outcomes : List (Nat × Except Error Unit)) :
    List (Int × Error) :=
  members.zipIdx.filterMap fun (member, place) =>
    match Mapping.findEntry place outcomes with
    | some (.error refusal) => some (positionOf member, refusal)
    | _ => none

/-- How a round ends: with the first refusal that is not one of the protocol, or with all refusals,
or without any. -/
def settle (round : String) (refusals : List (Int × Error)) : Except Error Unit :=
  match refusals.find? fun (_, refusal) => !refusal.isProtocol with
  | some (_, refusal) => .error refusal
  | none => if refusals.isEmpty then .ok () else .error (.abortRound round refusals)

/-- Notes that a round has been run. -/
def record (c : Ceremony M) (round : String) : Ceremony M :=
  if round ∈ c.rounds then c else { c with rounds := c.rounds ++ [round] }

/-- Runs a round for the members at some places. -/
def roundAmong (round : String) (schedule : List Nat) (task : Task σ M) :
    Run σ (Ceremony M) Unit := do
  let c ← get
  let (outcomes, members) ← (runTasks task schedule c.members : StateM σ _)
  let found := refusals members outcomes
  let c := { c with members }
  set (if found.all fun (_, refusal) => refusal.isProtocol then c.record round else c)
  settle round found

/-- Runs a round for all members, by position. -/
def round (name : String) (task : Task σ M) : Run σ (Ceremony M) Unit := do
  roundAmong name (List.range (← get).members.length) task

/-- A task that draws no randomness. -/
def steadyTask (work : M → Answer M Unit) : Task σ M := fun member => return work member

/-- A task that changes nothing. -/
def inspection (check : M → Except Error Unit) : Task σ M :=
  fun member => return (check member, member)

/-- The answer of an operation without its result. -/
def forget {S α : Type} (answer : Answer S α) : Answer S Unit :=
  (answer.1.map fun _ => (), answer.2)

/-- A second operation behind a first one that does not refuse. -/
def andThen {S α : Type} (first : Answer S α) (second : S → Answer S Unit) : Answer S Unit :=
  match first with
  | (.ok _, s) => second s
  | (.error refusal, s) => (.error refusal, s)

/-- An operation on the participant of a member. -/
def onCore {α : Type} (member : M) (operation : Participant K → Answer (Participant K) α) :
    Answer M α :=
  let (result, core) := operation (Member.core member)
  (result, Member.withCore member core)

/-- An operation on the member at a place. -/
def onMember {α : Type} (place : Nat) (operation : M → Answer M α) :
    Run σ (Ceremony M) (Option α) := do
  let c ← get
  match c.members[place]? with
  | none => return none
  | some member =>
    let (result, member) := operation member
    set { c with members := c.members.set place member }
    return some (← result)

/-- Creates members at the positions from `next` on, up to the first that cannot be created. -/
def createFrom (create : Int → ExceptT Error (StateM σ) M) :
    (count : Nat) → (next : Int) → ExceptT Error (StateM σ) (List M)
  | 0, _ => return []
  | count + 1, next => do
    let member ← create next
    return member :: (← createFrom create count (next + 1))

/-! ### Commitments and proofs -/

/-- Delivers the commitment of one member to another. -/
def deliverCommitment (sender receiver : Nat) : Run σ (Ceremony M) Unit := do
  match (← get).members[sender]? with
  | none => return
  | some member =>
    let core := Member.core member
    let commitment ← core.commitment
    let _ ← onMember receiver fun member =>
      onCore member fun p => p.receiveCommitment core.position commitment

/-- Delivers the commitment of every member to every other one. -/
def exchangeCommitments : Run σ (Ceremony M) Unit := do
  let places := List.range (← get).members.length
  places.forM fun sender => places.forM fun receiver =>
    if sender = receiver then return else deliverCommitment sender receiver

/-- A proof of knowledge from every member, with its position. -/
def collectProofs (label : Option (Item K)) (members : List M) :
    ExceptT Error (StateM σ) (List (Int × KnowledgeProof K)) :=
  members.mapM fun member => do
    let core := Member.core member
    return (core.position, ← core.prove label)

/-- The positions whose proof a participant rejects. -/
def rejectedProofs (label : Option (Item K)) (proofs : List (Int × KnowledgeProof K))
    (p : Participant K) : Except Error (List Int) := do
  let checked ← proofs.mapM fun (peer, proof) => do
    let constant ← p.constantOf peer (← p.commitments.commitmentOf peer)
    return (peer, ← p.verifyPublished label (some proof.announcement) proof.response peer constant)
  return (checked.filter fun (_, accepted) => !accepted).map Prod.fst

/-- Refuses when a participant rejects a proof. -/
def checkProofs (label : Option (Item K)) (proofs : List (Int × KnowledgeProof K))
    (p : Participant K) : Except Error Unit := do
  let rejected ← rejectedProofs label proofs p
  if !rejected.isEmpty then throw (.failedCheck .proof (.rejectedProofs p.position) rejected)

/-- Every member proves knowledge of its constant term and checks the proofs of all. -/
def verifyProofs : Run σ (Ceremony M) Unit := do
  let c ← get
  let label := c.config.label.toItem?
  let proofs ← Run.besides (collectProofs label c.members)
  round "verify-secret-proofs" (inspection fun member =>
    checkProofs label proofs (Member.core member))

/-! ### Public maps -/

/-- Imports both snapshots. -/
def importMaps (joint shareMap : Bytes) (recompute : Bool) (p : Participant K) :
    Answer (Participant K) Unit :=
  andThen (p.importJoint joint recompute) fun p => forget (p.importShareMap shareMap recompute)

/-- The first member derives the public maps, and the others import them. -/
def propagateMaps : Run σ (Ceremony M) Unit := do
  let _ ← onMember 0 fun member => onCore member Participant.deriveJoint
  let _ ← onMember 0 fun member => onCore member Participant.deriveShareMap
  match (← get).members with
  | [] => return
  | first :: others =>
    let joint ← (Member.core first).jointSnapshot
    let shareMap ← (Member.core first).shareMapSnapshot
    modify fun c => c.record "derive-external-q-w-map"
    let recompute := (← get).config.mapMode = .recompute
    roundAmong "parse-q-w-map" (List.range' 1 others.length)
      (steadyTask fun member => onCore member (importMaps joint shareMap recompute))

/-! ### Results -/

/-- What a successful run hands over. -/
structure Result (K : Type) where
  groupKey : Option (Point K)
  publicShares : List (Int × Point K)
  positions : List Int
  rounds : List String

/-- The rounds in which kinds of ceremonies differ, and a run of all rounds. -/
structure Rounds (σ M K : Type) where
  kind : String
  distributeShares : Run σ (Ceremony M) Unit
  verifyShares : Run σ (Ceremony M) Unit
  derivePublicShares : Run σ (Ceremony M) Unit
  deriveGroupKey : Run σ (Ceremony M) (Result K)
  run : Run σ (Ceremony M) (Result K)

/-- The round with a name. The last one, and a whole run, have a result. -/
def Rounds.named (rounds : Rounds σ M K) (name : String) :
    Run σ (Ceremony M) (Option (Result K)) := do
  let quiet (round : Run σ (Ceremony M) Unit) : Run σ (Ceremony M) (Option (Result K)) := do
    round
    return none
  match name with
  | "exchange_commitments" => quiet exchangeCommitments
  | "verify_proofs" => quiet verifyProofs
  | "distribute_shares" => quiet rounds.distributeShares
  | "verify_shares" => quiet rounds.verifyShares
  | "derive_public_shares" => quiet rounds.derivePublicShares
  | "derive_group_key" => return some (← rounds.deriveGroupKey)
  | "run" => return some (← rounds.run)
  | _ => throw (.noAttribute rounds.kind name)

/-- The result of a ceremony, as its first member knows it. -/
def result (c : Ceremony M) : Result K where
  groupKey := (c.members.head?.map Member.core).bind (·.groupKey)
  publicShares := ((c.members.head?.map Member.core).map (·.knownPublicShares)).getD []
  positions := c.members.map positionOf
  rounds := c.rounds

end Ceremony

end ThresholdKeygen
