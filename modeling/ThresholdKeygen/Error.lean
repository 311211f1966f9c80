import ThresholdKeygen.Ascending
import ThresholdKeygen.Text.Quoted

/-!
# Refusals

Why an operation refuses. Every cause is a constructor; `Error.message` is the only place where
causes become text. A cause `reported` carries the words of whoever observed the failure. A number
with too many digits has no text; a refusal that would have to show it gives way to another one
(`Error.written`).
-/

namespace ThresholdKeygen

/-- A text that names no number, or a number without a whole part. -/
inductive NumeralFault where
  | malformed (shown : String)
  | notANumber
  | tooLong (digits : Nat)

/-- Parameters outside their range. -/
inductive ConfigurationFault where
  | reported (text : String)
  | noShareIndex
  | thresholdOutside (threshold count : Int)
  | dealersOutside (dealers count : Int)
  | positionOutside (position dealers : Int)
  | noDealer
  | senderOutside (sender dealers : Int)
  | commitmentLength (sender : Int) (length : Nat) (threshold : Int)
  | rowOutside (index size : Int)
  | shareIndexOutside (index count : Int)
  | noParty
  | tooFewKeys (keys parties : Int)
  | keyOwnedTwice (key first second : Int)
  | keysWithoutOwner (keys : List Int)
  | dealerCount (dealers parties : Int)
  | keyOutside (key count : Int)
  | keyNotOwned (party key : Int)
  | weighted
  | notWeighted
  | noParticipant
  | fewerKeysThanParticipants (keys participants : Int)
  | noWorker
  | unknownMapMode (shown : String)
  | missingField (name : String)
  | invalidValue (reason : String)
  | fileNotFound (path : String)
  | fileUnreadable (path : String)
  | noTable (path : String)

/-- An operation that is called before its data exists, or after a recorded failure. -/
inductive StateFault where
  | reported (text : String)
  | tooEarly (position : Int) (stage needed : String)
  | aborted (position : Int) (failure : String)
  | noPowerMap
  | missingCommitments (dealers : List Int)
  | incompleteTable (dealers : List Int)
  | noSharesDealt
  | inboxClosed
  | missingShares (dealers : List Int)
  | noSigningShare
  | noJointCommitment
  | noJointSnapshot
  | noShareMapSnapshot
  | noPublicMap
  | slotVerified (key : Int)
  | slotEmpty (key : Int)
  | slotNotSigned (key : Int)

/-- The two kinds of public map that travel as snapshots. -/
inductive MapKind where
  | joint
  | shares
deriving DecidableEq

/-- The letter of a map kind, which its digest covers. -/
def MapKind.letter : MapKind → String
  | .joint => "Q"
  | .shares => "W"

/-- A snapshot that is not the image of any map. -/
inductive SnapshotFault where
  | reported (text : String)
  | truncated (kind : MapKind)
  | digestMismatch (kind : MapKind)
  | lengthMismatch (kind : MapKind) (count body : Nat)
  | badPoint (kind : MapKind) (why : String)
  | empty
  | thresholdMismatch (points : Nat) (threshold : Int)
  | sizeMismatch (size : Nat) (expected : Int)

/-- The published data that a failed verification contradicts. -/
inductive CheckKind where
  | general
  | proof
  | share
  | commitmentConflict
  | mapMismatch
  | publicShareMismatch
deriving DecidableEq

/-- What a failed verification observed. -/
inductive Finding where
  | reported (text : String)
  | rejectedProofs (position : Int)
  | shareSet (index : Int)
  | shareBatch (index : Int)
  | slotShares (party : Int) (keys : List Int)
  | secondCommitment (sender : Int)
  | importedJoint (position : Int)
  | importedShares (position : Int)
  | storedShares (position : Int)
  | groupKey (member : String) (position : Int)
  | participantShare (position other : Int)
  | keyShare (key other : Int)

/-- A value that is outside the domain of an operation. -/
inductive ValueFault where
  | numeral (fault : NumeralFault)
  | tooManyDigits
  | surrogates (first : String) (place count : Nat)
  | scalarLength (length : Nat)
  | scalarTooBig
  | pointLength (length : Nat)
  | notAPoint
  | termCount (scalars points : Nat)
  | negativeCount
  | targetMissing (target : Int)
  | repeatedIndices
  | noPoints
  | negativeDegree
  | proofLength (length : Nat)
  | truncatedCommitment
  | commitmentBytes (count length : Nat)
  | rowLength (row points : Nat)
  | thresholdsDiffer
  | weightTooWide

/-- An operand of a kind that an operation does not take; kinds are given by name. -/
inductive KindFault where
  | operands (operation left right : String)
  | comparison (operation left right : String)
  | unhashable (kind : String)
  | unencodable (kind : String)
  | notSubscriptable (kind : String)
  | notIterable (kind : String)
  | noAssignment (kind : String)
  | textIndex
  | listIndex
  | concatenation (left right : String)
  | repetition (kind : String)
  | notAnInteger (kind : String)
  | missingParameters (names : List String)
  | unknownParameter (name : String)

/-- A division by zero. -/
inductive DivisionFault where
  | noInverse
  | byZero
  | zeroPower

/-- A place outside a sequence, or outside all sequences. -/
inductive PlaceFault where
  | tuple
  | list
  | text
  | boundless

/-- A number that does not fit. -/
inductive OverflowFault where
  | negative
  | tooBig
  | infinite
  | noCodePoint
  | noFloat
  | noSize

/-- Why an operation refuses. -/
inductive Error where
  | reported (text : String)
  | configuration (fault : ConfigurationFault)
  | state (fault : StateFault)
  | snapshot (fault : SnapshotFault)
  | verification (kind : CheckKind) (finding : Finding) (offenders : List Int)
  | roundAborted (round : String) (failures : List (Int × Error))
  | value (fault : ValueFault)
  | zeroDivision (fault : DivisionFault)
  | kind (fault : KindFault)
  | outOfRange (fault : PlaceFault)
  | outOfMemory
  | noEntry (key : Int)
  | noName (name : String)
  | overflow (fault : OverflowFault)
  | noAttribute (kind name : String)
  | unread (name : String)
deriving Inhabited

/-! ### Texts -/

def NumeralFault.message : NumeralFault → String
  | .malformed shown => s!"invalid literal for int() with base 10: {shown}"
  | .notANumber => "cannot convert float NaN to integer"
  | .tooLong digits =>
    s!"Exceeds the limit (4300 digits) for integer string conversion: value has {digits} " ++
      "digits; use sys.set_int_max_str_digits() to increase the limit"

/-- That a threshold is out of range. -/
def thresholdText (threshold count : String) : String :=
  s!"threshold {threshold} outside 1..{count}"

/-- That there are fewer keys than participants. -/
def fewerKeysText (keys participants : String) : String :=
  s!"keys ({keys}) must be ≥ participants ({participants})"

def ConfigurationFault.message : ConfigurationFault → String
  | .reported text => text
  | .noShareIndex => "need at least one share index"
  | .thresholdOutside threshold count => thresholdText (toString threshold) (toString count)
  | .dealersOutside dealers count => s!"dealers {dealers} outside 1..{count}"
  | .positionOutside position dealers => s!"position {position} outside 1..{dealers}"
  | .noDealer => "need at least one dealer"
  | .senderOutside sender dealers => s!"sender {sender} outside 1..{dealers}"
  | .commitmentLength sender length threshold =>
    s!"sender {sender} committed to {length} coefficients, expected {threshold}"
  | .rowOutside index size => s!"index {index} outside 1..{size}"
  | .shareIndexOutside index count => s!"share index {index} outside 1..{count}"
  | .noParty => "need at least one party"
  | .tooFewKeys keys parties => s!"{keys} key slots cannot cover {parties} parties"
  | .keyOwnedTwice key first second => s!"key {key} owned by both {first} and {second}"
  | .keysWithoutOwner keys => "keys without an owner: " ++ listText keys
  | .dealerCount dealers parties =>
    s!"participant deals among {dealers} parties, expected {parties}"
  | .keyOutside key count => s!"key {key} outside 1..{count}"
  | .keyNotOwned party key => s!"party {party} does not own key {key}"
  | .weighted => "weighted configuration; use WstsDKG"
  | .notWeighted => "configuration has no key slots; use FrostDKG"
  | .noParticipant => "participants must be ≥ 1"
  | .fewerKeysThanParticipants keys participants =>
    fewerKeysText (toString keys) (toString participants)
  | .noWorker => "max_workers must be ≥ 1"
  | .unknownMapMode shown => s!"unknown map mode: {shown}"
  | .missingField name => s!"Missing required config field: '{name}'"
  | .invalidValue reason => s!"Invalid config value: {reason}"
  | .fileNotFound path => s!"Configuration file not found: {path}"
  | .fileUnreadable path => s!"Failed to parse {path}"
  | .noTable path => s!"{path} has no [dkg] table"

def StateFault.message : StateFault → String
  | .reported text => text
  | .tooEarly position stage needed =>
    s!"participant {position} is at {stage}, operation needs {needed}"
  | .aborted position failure =>
    s!"participant {position} aborted after a failed verification: {failure}"
  | .noPowerMap => "power map not derived; call derive_power_map()"
  | .missingCommitments dealers => "commitments missing from dealers " ++ listText dealers
  | .incompleteTable dealers =>
    "Q map needs every dealer's commitment, missing " ++ listText dealers
  | .noSharesDealt => "secret shares not calculated yet"
  | .inboxClosed => "shares already verified; inbox is closed"
  | .missingShares dealers => "no secret share received from " ++ listText dealers
  | .noSigningShare => "signing share not calculated yet"
  | .noJointCommitment => "Q map not derived; call derive_external_q_map()"
  | .noJointSnapshot => "no Q map to copy"
  | .noShareMapSnapshot => "no W map to copy"
  | .noPublicMap => "neither a W map nor a Q map is available"
  | .slotVerified key => s!"key {key}: shares already verified"
  | .slotEmpty key => s!"no shares stored for key {key}"
  | .slotNotSigned key => s!"signing share of key {key} not calculated"

def SnapshotFault.message : SnapshotFault → String
  | .reported text => text
  | .truncated kind => s!"{kind.letter} map snapshot truncated"
  | .digestMismatch kind => s!"{kind.letter} map snapshot digest mismatch"
  | .lengthMismatch kind count body =>
    s!"{kind.letter} map declares {count} points, body holds {body} bytes"
  | .badPoint kind why => s!"bad point in {kind.letter} map: {why}"
  | .empty => "Q map is empty"
  | .thresholdMismatch points threshold => s!"Q map has {points} points, threshold is {threshold}"
  | .sizeMismatch size expected => s!"W map covers {size} indices, expected {expected}"

def Finding.message : Finding → String
  | .reported text => text
  | .rejectedProofs position => s!"participant {position} rejected proofs"
  | .shareSet index => s!"index {index}: share set does not match the dealer set"
  | .shareBatch index => s!"index {index}: batch share verification failed"
  | .slotShares party keys =>
    s!"party {party}: share verification failed for keys " ++ listText keys
  | .secondCommitment sender => s!"sender {sender} already registered a different commitment"
  | .importedJoint position =>
    s!"participant {position}: imported Q map differs from the local derivation"
  | .importedShares position =>
    s!"participant {position}: imported W map differs from the local derivation"
  | .storedShares position =>
    s!"participant {position}: public signing shares disagree with stored values"
  | .groupKey member position => s!"{member} {position} derived a different group key"
  | .participantShare position other =>
    s!"public signing share of {position} differs at participant {other}"
  | .keyShare key other => s!"public signing share of key {key} differs at party {other}"

def ValueFault.message : ValueFault → String
  | .numeral fault => fault.message
  | .tooManyDigits =>
    "Exceeds the limit (4300 digits) for integer string conversion; " ++
      "use sys.set_int_max_str_digits() to increase the limit"
  | .surrogates first place count =>
    "'utf-8' codec can't encode character" ++
      (if count ≤ 1 then s!" '{first}' in position {place}"
       else s!"s in position {place}-{place + count - 1}") ++
      ": surrogates not allowed"
  | .scalarLength length => s!"scalar encoding is {length} bytes, want 32"
  | .scalarTooBig => "scalar encoding not below the group order"
  | .pointLength length => s!"point encoding is {length} bytes, want 33"
  | .notAPoint => "The public key could not be parsed or is invalid."
  | .termCount scalars points => s!"{scalars} scalars for {points} points"
  | .negativeCount => "count must be ≥ 0"
  | .targetMissing target => s!"target {target} not in indices"
  | .repeatedIndices => "indices must be distinct"
  | .noPoints => "need at least one point"
  | .negativeDegree => "degree must be ≥ 0"
  | .proofLength length => s!"expected 65 bytes, got {length}"
  | .truncatedCommitment => "truncated commitment"
  | .commitmentBytes count length =>
    s!"commitment of {count} points needs {4 + count * 33} bytes, got {length}"
  | .rowLength row points => s!"power row has {row} entries, Q map {points}"
  | .thresholdsDiffer => "power map and Q map disagree on the threshold"
  | .weightTooWide => "negative shift count"

def KindFault.message : KindFault → String
  | .operands operation left right =>
    s!"unsupported operand type(s) for {operation}: '{left}' and '{right}'"
  | .comparison operation left right =>
    s!"'{operation}' not supported between instances of '{left}' and '{right}'"
  | .unhashable kind => s!"unhashable type: '{kind}'"
  | .unencodable kind => s!"cannot hash {kind}"
  | .notSubscriptable kind => s!"'{kind}' object is not subscriptable"
  | .notIterable kind => s!"argument of type '{kind}' is not iterable"
  | .noAssignment kind => s!"'{kind}' object does not support item assignment"
  | .textIndex => "string indices must be integers, not 'str'"
  | .listIndex => "list indices must be integers or slices, not str"
  | .concatenation "bytes" right => s!"can't concat {right} to bytes"
  | .concatenation left right => s!"can only concatenate {left} (not \"{right}\") to {left}"
  | .repetition kind => s!"can't multiply sequence by non-int of type '{kind}'"
  | .notAnInteger kind =>
    s!"int() argument must be a string, a bytes-like object or a real number, not '{kind}'"
  | .missingParameters names =>
    let word := if names.length = 1 then "argument" else "arguments"
    s!"DKGConfig.__init__() missing {names.length} required positional {word}: " ++
      " and ".intercalate (names.map Text.quoted)
  | .unknownParameter name =>
    s!"DKGConfig.__init__() got an unexpected keyword argument '{name}'"

def DivisionFault.message : DivisionFault → String
  | .noInverse => "zero has no inverse modulo the group order"
  | .byZero => "division by zero"
  | .zeroPower => "0.0 cannot be raised to a negative power"

def PlaceFault.message : PlaceFault → String
  | .tuple => "tuple index out of range"
  | .list => "list index out of range"
  | .text => "string index out of range"
  | .boundless => "cannot fit 'int' into an index-sized integer"

def OverflowFault.message : OverflowFault → String
  | .negative => "can't convert negative int to unsigned"
  | .tooBig => "int too big to convert"
  | .infinite => "cannot convert float infinity to integer"
  | .noCodePoint => "Python int too large to convert to C int"
  | .noFloat => "int too large to convert to float"
  | .noSize => "cannot fit 'int' into an index-sized integer"

/-- A finding, followed by those it blames. -/
def blame (text : String) (offenders : List Int) : String :=
  if offenders.isEmpty then text else text ++ " (offenders: " ++ listText offenders ++ ")"

mutual
/-- The text of a refusal. -/
def Error.message : Error → String
  | .reported text => text
  | .configuration fault => fault.message
  | .state fault => fault.message
  | .snapshot fault => fault.message
  | .verification _ finding offenders => blame finding.message offenders
  | .roundAborted round failures =>
    s!"round '{round}' aborted: " ++ ", ".intercalate (failureTexts failures)
  | .value fault => fault.message
  | .zeroDivision fault => fault.message
  | .kind fault => fault.message
  | .outOfRange fault => fault.message
  | .outOfMemory => ""
  | .noEntry key => toString key
  | .noName name => Text.quoted name
  | .overflow fault => fault.message
  | .noAttribute kind name => s!"'{kind}' object has no attribute '{name}'"
  | .unread name =>
    s!"cannot access local variable '{name}' where it is not associated with a value"

/-- The failures of a round, each behind its position. -/
def failureTexts : List (Int × Error) → List String
  | [] => []
  | (position, error) :: rest => s!"{position}: {error.message}" :: failureTexts rest
end

/-! ### Numbers in texts -/

/-- The most digits that the text of a number may have. -/
def maxDigits : Nat := 4300

/-- Whether a number has a text. -/
def isWritable (n : Int) : Bool := n.natAbs < Nat.pow 10 maxDigits

/-- The numbers of any size that a message shows. -/
def ConfigurationFault.numbers : ConfigurationFault → List Int
  | .thresholdOutside m n | .dealersOutside m n | .positionOutside m n | .senderOutside m n
  | .rowOutside m n | .shareIndexOutside m n | .tooFewKeys m n | .dealerCount m n
  | .keyOutside m n | .keyNotOwned m n | .fewerKeysThanParticipants m n => [m, n]
  | .commitmentLength sender _ threshold => [sender, threshold]
  | .keyOwnedTwice key first second => [key, first, second]
  | .keysWithoutOwner keys => keys
  | _ => []

namespace Error

/-- The numbers of any size that the text of a refusal shows. -/
def numbers : Error → List Int
  | .configuration fault => fault.numbers
  | .verification _ _ offenders => offenders
  | .roundAborted _ failures => failures.map Prod.fst
  | .value (.targetMissing target) => [target]
  | _ => []

/-- Whether a refusal has a text. -/
def hasText (refusal : Error) : Bool := refusal.numbers.all isWritable

/-- A refusal that has a text: the given one, or that a number has too many digits for it. -/
def written (refusal : Error) : Error :=
  if refusal.hasText then refusal else .value .tooManyDigits

/-- Parameters outside their range. -/
def parameters (fault : ConfigurationFault) : Error := written (.configuration fault)

theorem parameters_eq (fault : ConfigurationFault) : parameters fault =
    if fault.numbers.all isWritable then .configuration fault else .value .tooManyDigits := rfl

/-- A failed verification, blaming each offender once and in ascending order. -/
def failedCheck (kind : CheckKind) (finding : Finding) (offenders : List Int) : Error :=
  .verification kind finding (ascending offenders)

/-- Whether a refusal is a failed verification. -/
def isVerification : Error → Bool
  | .verification .. => true
  | _ => false

/-- Whether a refusal is a failed check of secret shares. -/
def isShareCheck : Error → Bool
  | .verification .share .. => true
  | _ => false

/-- Whether a refusal belongs to the protocol, as opposed to a value it cannot work with. -/
def isProtocol : Error → Bool
  | .reported _ | .configuration _ | .state _ | .snapshot _ | .verification .. | .roundAborted .. =>
    true
  | _ => false

mutual
/-- Those whom a refusal blames; an aborted round blames all that its failures blame. -/
def offenders : Error → List Int
  | .verification _ _ found => found
  | .roundAborted _ failures => ascending (offendersOfAll failures)
  | _ => []

/-- All whom the failures of a round blame. -/
def offendersOfAll : List (Int × Error) → List Int
  | [] => []
  | (_, error) :: rest => error.offenders ++ offendersOfAll rest
end

/-- Puts a failure at its place by position; a later failure of the same position replaces it. -/
def insertFailure (position : Int) (error : Error) : List (Int × Error) → List (Int × Error)
  | [] => [(position, error)]
  | (other, first) :: rest =>
    if position < other then (position, error) :: (other, first) :: rest
    else if position = other then (position, error) :: rest
    else (other, first) :: insertFailure position error rest

/-- The failures of a round, by ascending position. -/
def byPosition (failures : List (Int × Error)) : List (Int × Error) :=
  failures.foldl (fun sorted (position, error) => insertFailure position error sorted) []

/-- A round that failed at some positions. -/
def abortRound (round : String) (failures : List (Int × Error)) : Error :=
  .roundAborted round (byPosition failures)

end Error

end ThresholdKeygen
