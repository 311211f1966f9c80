import ThresholdKeygen.Error
import ThresholdKeygen.KeySet
import ThresholdKeygen.Mapping

/-!
# Key partitions

How the key slots of a weighted run are divided among its parties: evenly, in consecutive ranges,
with the remainder going to the lowest positions.
-/

namespace ThresholdKeygen.KeyPartition

/-- The number of key slots of each party. -/
def counts (parties keys : Int) : Except Error (Mapping Int Int) := do
  if parties < 1 then throw (.configuration .noParty)
  if keys < parties then throw (.parameters (.tooFewKeys keys parties))
  return .ofList ((upTo parties).map fun position =>
    (position, keys / parties + if position ≤ keys % parties then 1 else 0))

/-- Consecutive ranges of given lengths from `start` on, each with its first key and the key behind
its last one. -/
def consecutive (start : Int) : List (Int × Int) → List (Int × Int × Int)
  | [] => []
  | (position, count) :: rest =>
    (position, start, start + count) :: consecutive (start + count) rest

/-- The range of each party, by ascending position, from the first key on. -/
def ranges (counts : Mapping Int Int) : Mapping Int (Int × Int) :=
  .ofList (consecutive 1 (counts.entries.mergeSort fun a b => a.1 ≤ b.1))

/-- The keys of a range. -/
def keysOfRange (range : Int × Int) : List Int :=
  (upTo (range.2 - range.1)).map fun i => range.1 + i - 1

/-- Gives keys to a party, refused at the first key that has an owner. -/
def claim (owners : Mapping Int Int) (position : Int) : List Int → Except Error (Mapping Int Int)
  | [] => .ok owners
  | key :: rest =>
    match owners.get? key with
    | some first => .error (.parameters (.keyOwnedTwice key first position))
    | none => claim (owners.put key position) position rest

/-- The owner of every key that a party has, refused when two parties have the same key. -/
def owners (parties : List (Int × KeySet)) : Except Error (Mapping Int Int) :=
  parties.foldlM (fun owners (position, keys) => claim owners position keys.scan) .empty

/-- Refuses unless every key `1, …, keys` has exactly one owner. -/
def validate (parties : List (Int × KeySet)) (keys : Int) : Except Error Unit := do
  let owners ← owners parties
  let uncovered := (upTo keys).filter fun key => (owners.get? key).isNone
  if !uncovered.isEmpty then throw (.configuration (.keysWithoutOwner uncovered))

end ThresholdKeygen.KeyPartition
