import ThresholdKeygen.Config.Basic
import ThresholdKeygen.Config.Quantity

/-!
# Parameters

The parameters of a run as they are given by name, without being read as integers. They obey the
rules of configurations, and numbers of all kinds are compared as they are.
-/

namespace ThresholdKeygen

/-- The parameters of a run, whose numbers may be values of any kind. -/
structure Parameters where
  participants : Datum
  threshold : Datum
  keys : Option Datum
  label : RunLabel
  mapMode : MapMode
  maxWorkers : Option Datum

namespace Parameters

/-- The names of the parameters that have to be given. -/
def requiredNames : List String := ["participants", "threshold"]

/-- The names of all parameters. -/
def names : List String := requiredNames ++ ["keys", "context", "map_mode", "max_workers"]

/-- Refuses an unknown parameter, and then missing ones. -/
def checkNames (given : List String) : Except Error Unit := do
  if let some name := given.find? (· ∉ names) then throw (.kind (.unknownParameter name))
  let missing := requiredNames.filter (· ∉ given)
  if !missing.isEmpty then throw (.kind (.missingParameters missing))

/-- A parameter that is given and not null. -/
def optional (name : String) (given : List (String × Datum)) : Option Datum :=
  match Datum.field? name given with
  | some .null => none
  | value => value

/-- The number of share indices. -/
def shareIndices (p : Parameters) : Datum := p.keys.getD p.participants

/-- Whether the participants share key slots. -/
def weighted (p : Parameters) : Bool := p.keys.isSome

/-- A refusal that shows two numbers. -/
def refuse (words : String → String → String) (a b : Datum) : Error :=
  if a.hasText && b.hasText then .configuration (.reported (words a.shown b.shown))
  else .value .tooManyDigits

/-- Refuses parameters that are out of range, or that cannot be compared. -/
def validate (p : Parameters) : Except Error Unit := do
  if ← p.participants.isLess (.int 1) then throw (.configuration .noParticipant)
  if let some keys := p.keys then
    if ← keys.isLess p.participants then throw (refuse fewerKeysText keys p.participants)
  let positive ← (Datum.int 1).isAtMost p.threshold
  let inRange ← if positive then p.threshold.isAtMost p.shareIndices else pure false
  if !inRange then throw (refuse thresholdText p.threshold p.shareIndices)
  if let some workers := p.maxWorkers then
    if ← workers.isLess (.int 1) then throw (.configuration .noWorker)

/-- Takes parameters by name. The label and the mode may be given as such instead. -/
def ofArguments (given : List (String × Datum)) (label : Option RunLabel)
    (mapMode : Option MapMode) : Except Error Parameters := do
  checkNames (given.map Prod.fst)
  let label ← match label with
    | some label => pure label
    | none => RunLabel.ofField (Datum.field? "context" given)
  let mapMode ← match mapMode with
    | some mode => pure mode
    | none => Config.modeOf (Datum.field? "map_mode" given)
  let p := {
    participants := (Datum.field? "participants" given).getD .null
    threshold := (Datum.field? "threshold" given).getD .null
    keys := optional "keys" given
    label, mapMode
    maxWorkers := optional "max_workers" given }
  p.validate
  return p

end Parameters

end ThresholdKeygen
