import ThresholdKeygen.Capacity
import ThresholdKeygen.Commitment
import ThresholdKeygen.Mapping

/-!
# Commitment tables

The commitments that a participant has received, at most one per dealer. A second delivery of the
same commitment changes nothing; a different one is a conflict.
-/

namespace ThresholdKeygen

variable {K : Type} [Suite K]

/-- The commitments of the dealers `1, …, dealers`, each of `threshold` points. -/
structure CommitmentTable (K : Type) where
  dealers : Int
  threshold : Int
  slots : Mapping Int (Commitment K)

namespace CommitmentTable

/-- The table without commitments. -/
def new (dealers threshold : Int) : Except Error (CommitmentTable K) := do
  if dealers < 1 then throw (.configuration .noDealer)
  checkSlots (dealers + 1)
  return ⟨dealers, threshold, .empty⟩

/-- Refuses a sender that is no dealer. -/
def checkSender (table : CommitmentTable K) (sender : Int) : Except Error Unit :=
  if 1 ≤ sender ∧ sender ≤ table.dealers then .ok ()
  else .error (.parameters (.senderOutside sender table.dealers))

/-- Stores a commitment; the answer is whether the slot was empty before. -/
def register (table : CommitmentTable K) (sender : Int) (commitment : Commitment K) :
    Except Error (Bool × CommitmentTable K) := do
  table.checkSender sender
  if (commitment.points.length : Int) ≠ table.threshold then
    throw (.parameters (.commitmentLength sender commitment.points.length table.threshold))
  match table.slots.get? sender with
  | some current =>
    if current == commitment then return (false, table)
    else throw (.failedCheck .commitmentConflict (.secondCommitment sender) [sender])
  | none => return (true, { table with slots := table.slots.put sender commitment })

/-- The commitment of a dealer, if it has arrived. -/
def get (table : CommitmentTable K) (sender : Int) : Except Error (Option (Commitment K)) := do
  table.checkSender sender
  return table.slots.get? sender

/-- The commitment of a dealer, refused when it has not arrived. -/
def commitmentOf (table : CommitmentTable K) (sender : Int) : Except Error (Commitment K) := do
  match ← table.get sender with
  | some commitment => return commitment
  | none => throw (.noEntry sender)

/-- Whether the commitment of a sender has arrived. -/
def contains (table : CommitmentTable K) (sender : Int) : Bool :=
  1 ≤ sender ∧ sender ≤ table.dealers ∧ (table.slots.get? sender).isSome

/-- The dealers whose commitment has arrived, ascending. -/
def senders (table : CommitmentTable K) : List Int :=
  (upTo table.dealers).filter fun i => (table.slots.get? i).isSome

/-- The dealers whose commitment has not arrived, ascending. -/
def missing (table : CommitmentTable K) : List Int :=
  (upTo table.dealers).filter fun i => (table.slots.get? i).isNone

/-- The number of commitments that have arrived. -/
def size (table : CommitmentTable K) : Nat := table.slots.entries.length

/-- Whether every commitment has arrived. -/
def isComplete (table : CommitmentTable K) : Bool := table.missing.isEmpty

/-- The commitments that have arrived, by ascending sender. -/
def items (table : CommitmentTable K) : List (Int × Commitment K) :=
  (upTo table.dealers).filterMap fun i => (table.slots.get? i).map (i, ·)

end CommitmentTable

end ThresholdKeygen
