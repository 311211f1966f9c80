import ThresholdKeygen.Config.Datum

/-!
# Run configuration

The parameters of a run. `Config.ofFields` takes them from named fields whose values may be of any
kind, reads the numbers among them as integers and checks them (`Config.validate`).
-/

namespace ThresholdKeygen

/-- How public maps reach the members that did not derive them. -/
inductive MapMode where
  /-- One member derives the maps and the others import them. -/
  | broadcast
  /-- The others also derive the maps and compare. -/
  | recompute
deriving DecidableEq

namespace MapMode

/-- The text of a mode in configurations. -/
def name : MapMode → String
  | broadcast => "broadcast"
  | recompute => "recompute"

/-- The mode that a value names. -/
def ofDatum (value : Datum) : Except Error MapMode :=
  match value with
  | .text "broadcast" => .ok broadcast
  | .text "recompute" => .ok recompute
  | other =>
    if other.hasText then .error (.configuration (.unknownMapMode other.shown))
    else .error (.value .tooManyDigits)

/-- The mode with a name in capital letters. -/
def ofCapitals : String → Except Error MapMode
  | "BROADCAST" => .ok broadcast
  | "RECOMPUTE" => .ok recompute
  | name => .error (.noName name)

end MapMode

/-- The label of a run, which its proofs cover: a byte string, or a value that is kept as it is. -/
inductive RunLabel where
  | bytes (label : Bytes)
  | datum (value : Datum)

namespace RunLabel

/-- Why a text with surrogates has no encoding. -/
def refuseSurrogates (s : List Text.CodePoint) : Error :=
  let (place, count) := Text.surrogateRun s
  let first := (s[place]?.map (Text.escape '"')).getD []
  .value (.surrogates (String.ofList first) place count)

/-- A text labels a run by its UTF-8 encoding. -/
def ofDatum : Datum → Except Error RunLabel
  | .text s => .ok (.bytes (Bytes.ofText s))
  | .illFormed s => .error (refuseSurrogates s)
  | other => .ok (.datum other)

/-- The label that a field gives, empty when the field is missing. -/
def ofField : Option Datum → Except Error RunLabel
  | some value => ofDatum value
  | none => .ok (.bytes [])

/-- The label that participants are given, none for a null value. -/
def toItem? {K : Type} : RunLabel → Option (Item K)
  | .bytes label => some (.bytes label)
  | .datum .null => none
  | .datum value => some value.toItem

/-- The label as the input of a hash. -/
def toItem {K : Type} (label : RunLabel) : Item K :=
  label.toItem?.getD (.other Datum.null.kind)

end RunLabel

/-- The parameters of a run. With `keys`, the participants share that many key slots; without, each
participant has one. -/
structure Config where
  participants : Int
  threshold : Int
  keys : Option Int
  label : RunLabel
  mapMode : MapMode
  maxWorkers : Option Int

namespace Config

/-- The number of share indices. -/
def shareIndices (config : Config) : Int := config.keys.getD config.participants

/-- Whether the participants share key slots. -/
def weighted (config : Config) : Bool := config.keys.isSome

/-- Refuses parameters that are out of range. -/
def validate (config : Config) : Except Error Unit := do
  if config.participants < 1 then throw (.configuration .noParticipant)
  if let some keys := config.keys then
    if keys < config.participants then
      throw (.parameters (.fewerKeysThanParticipants keys config.participants))
  if ¬ (1 ≤ config.threshold ∧ config.threshold ≤ config.shareIndices) then
    throw (.parameters (.thresholdOutside config.threshold config.shareIndices))
  if let some workers := config.maxWorkers then
    if workers < 1 then throw (.configuration .noWorker)

/-- The integer of a field that has to be there. -/
def requiredInt (name : String) (fields : List (String × Datum)) : Except Error Int :=
  match Datum.field? name fields with
  | some value => value.toInt
  | none => .error (.configuration (.missingField name))

/-- The integer of a field that may be missing or null. -/
def optionalInt (name : String) (fields : List (String × Datum)) : Except Error (Option Int) :=
  match Datum.field? name fields with
  | none | some .null => .ok none
  | some value => value.toInt.map some

/-- The mode that a field names, by default `broadcast`. -/
def modeOf (field : Option Datum) : Except Error MapMode :=
  MapMode.ofDatum (field.getD (.text MapMode.broadcast.name))

/-- Makes a configuration from named fields: the numbers are read in a fixed order, then the label
and the mode, and at last the numbers are checked. -/
def readFields (fields : List (String × Datum)) : Except Error Config := do
  let participants ← requiredInt "participants" fields
  let threshold ← requiredInt "threshold" fields
  let keys ← optionalInt "keys" fields
  let maxWorkers ← optionalInt "max_workers" fields
  let label ← RunLabel.ofField (Datum.field? "context" fields)
  let mapMode ← modeOf (Datum.field? "map_mode" fields)
  let config := { participants, threshold, keys, label, mapMode, maxWorkers }
  config.validate
  return config

/-- A value that a field cannot have makes the configuration invalid. -/
def invalidate : Error → Error
  | .value fault => .configuration (.invalidValue fault.message)
  | .kind fault => .configuration (.invalidValue fault.message)
  | refusal => refusal

/-- Makes a configuration from named fields. -/
def ofFields (fields : List (String × Datum)) : Except Error Config :=
  (readFields fields).mapError invalidate

/-- Makes a configuration from a value, which has to be a table. -/
def ofDatum : Datum → Except Error Config
  | .table _ fields => ofFields fields
  | other => .error (invalidate other.refuseFields)

end Config

end ThresholdKeygen
