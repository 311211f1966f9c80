import ThresholdKeygen.Participant.Verification

/-!
# Public shares

The public maps, which a participant derives or imports, the public signing shares of all indices,
and the group key.
-/

namespace ThresholdKeygen.Participant

variable {K : Type} [Suite K]

/-! ### Public maps -/

/-- The sum of all commitments, refused when one of them has gaps. -/
def sumCommitments (p : Participant K) : Except Error (JointCommitment K) := do
  let joint ← JointCommitment.derive p.commitments
  if !p.gaps.keys.isEmpty then throw (.noAttribute "NoneType" "_inf")
  return joint

/-- The answer to a derivation when the map has been named for the log. By then the map is stored,
and it stays where the name is refused. -/
def logged {M : Type} (fingerprint : M → Except Error String) (answer : Answer (Participant K) M) :
    Answer (Participant K) M :=
  (do let map ← answer.1; let _ ← fingerprint map; return map, answer.2)

/-- Derives the joint commitment. -/
def deriveJoint (p : Participant K) : Answer (Participant K) (JointCommitment K) :=
  logged JointCommitment.fingerprint <| attempt p do
    p.requireStage .commitmentsExchanged
    let joint ← p.sumCommitments
    return (joint, { p with joint := some joint })

/-- Derives the public shares of all indices from the joint commitment. -/
def deriveShareMap (p : Participant K) : Answer (Participant K) (ShareMap K) :=
  logged ShareMap.fingerprint <| attempt p do
    p.requireStage .commitmentsExchanged
    let some joint := p.joint | throw (.state .noJointCommitment)
    let shareMap ← ShareMap.derive joint (← p.requirePowerMap)
    return (shareMap, { p with shareMap := some shareMap })

/-- The snapshot of the joint commitment. -/
def jointSnapshot (p : Participant K) : Except Error Bytes :=
  match p.joint with
  | some joint => joint.toBytes
  | none => .error (.state .noJointSnapshot)

/-- The snapshot of the map of public shares. -/
def shareMapSnapshot (p : Participant K) : Except Error Bytes :=
  match p.shareMap with
  | some shareMap => shareMap.toBytes
  | none => .error (.state .noShareMapSnapshot)

/-- Imports a joint commitment; with `recompute`, it has to agree with the own derivation. -/
def importJoint (p : Participant K) (snapshot : Bytes) (recompute : Bool) :
    Answer (Participant K) (JointCommitment K) :=
  p.verifyAttempt do
    p.requireStage .commitmentsExchanged
    let joint ← JointCommitment.ofBytes? snapshot
    if (joint.threshold : Int) ≠ p.threshold then
      throw (.snapshot (.thresholdMismatch joint.threshold p.threshold))
    if recompute then
      if (← p.sumCommitments) != joint then
        throw (.failedCheck .mapMismatch (.importedJoint p.position) [])
    return (joint, { p with joint := some joint })

/-- The indices at which two maps of public shares differ. -/
def differingIndices (left right : ShareMap K) : List Int :=
  ((left.shares.zip right.shares).zipIdx.filter fun ((a, b), _) => a != b).map
    fun (_, i) => (i : Int) + 1

/-- Imports the public shares; with `recompute`, they have to agree with the own derivation. -/
def importShareMap (p : Participant K) (snapshot : Bytes) (recompute : Bool) :
    Answer (Participant K) (ShareMap K) :=
  p.verifyAttempt do
    p.requireStage .commitmentsExchanged
    let shareMap ← ShareMap.ofBytes? snapshot
    if (shareMap.size : Int) ≠ p.n then throw (.snapshot (.sizeMismatch shareMap.size p.n))
    if recompute then
      let joint ← match p.joint with
        | some joint => pure joint
        | none => p.sumCommitments
      let derived ← ShareMap.derive joint (← p.requirePowerMap)
      if derived != shareMap then
        throw (.failedCheck .mapMismatch (.importedShares p.position)
          (differingIndices derived shareMap))
    return (shareMap, { p with shareMap := some shareMap })

/-! ### Public signing shares -/

/-- The indices at which given public shares disagree with stored ones. -/
def conflicts (p : Participant K) (shares : List (Int × Point K)) : List Int :=
  (shares.filter fun (x, point) =>
    match p.publicShares.get? x with
    | some stored => stored != point
    | none => false).map Prod.fst

/-- Stores all given public shares, or none when one disagrees with a stored one. -/
def storePublicShares (p : Participant K) (shares : List (Int × Point K)) :
    Except Error (Participant K) :=
  let conflicting := p.conflicts shares
  if conflicting.isEmpty then .ok { p with publicShares := p.publicShares.putAll shares }
  else .error (.failedCheck .publicShareMismatch (.storedShares p.position) conflicting)

/-- The public share of an index whose signing share is known, by default the own one. -/
def publishOwnShare (p : Participant K) (signingShare : Option Scalar) (index : Option Int) :
    Answer (Participant K) (Point K) :=
  p.verifyAttempt do
    p.requireStage .signingShareComputed
    let index := index.getD p.position
    p.checkIndex index
    let some share := signingShare.or p.signingShare | throw (.state .noSigningShare)
    let point := Point.ofScalar share
    return (point, ← p.storePublicShares [(index, point)])

/-- The public share of an index according to the public maps. -/
def externalShare (p : Participant K) (index : Int) : Except Error (Point K) :=
  match p.shareMap, p.joint with
  | some shareMap, _ => shareMap.share index
  | none, some joint => do joint.evaluate (← (← p.requirePowerMap).row index)
  | none, none => .error (.state .noPublicMap)

/-- The public shares of all indices except some, from the public maps. -/
def publishShares (p : Participant K) (excluded : List Int) :
    Answer (Participant K) (List (Int × Point K)) :=
  p.verifyAttempt do
    p.requireStage .signingShareComputed
    if p.shareMap.isNone && p.joint.isNone then throw (.state .noPublicMap)
    let indices := (upTo p.n).filter (· ∉ excluded)
    let computed ← indices.mapM fun x => do return (x, ← p.externalShare x)
    let p ← p.storePublicShares computed
    return (computed, p.advance .publicSharesComputed)

/-- The stored public share of an index. -/
def publicShareOf (p : Participant K) (index : Int) : Except Error (Option (Point K)) := do
  p.checkIndex index
  return p.publicShares.get? index

/-- The stored public shares, by ascending index. -/
def knownPublicShares (p : Participant K) : List (Int × Point K) :=
  (upTo p.n).filterMap fun x => (p.publicShares.get? x).map (x, ·)

/-! ### The group key -/

/-- The sum of the constants of all commitments, refused when one is missing. -/
def sumConstants (p : Participant K) : Except Error (Point K) := do
  let constants ← p.commitments.items.mapM fun (_, c) => c.constant
  if p.gaps.values.any (0 ∈ ·) then throw (.noAttribute "NoneType" "_inf")
  return Point.sum constants

/-- Derives the group key once. -/
def deriveGroupKey (p : Participant K) : Answer (Participant K) (Point K) :=
  attempt p do
    p.requireStage .publicSharesComputed
    p.requireCommitments
    let key ← match p.groupKey with
      | some key => pure key
      | none => p.sumConstants
    return (key, { p with groupKey := some key }.advance .groupKeyDerived)

end ThresholdKeygen.Participant
