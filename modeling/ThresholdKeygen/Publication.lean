import ThresholdKeygen.Commitment

/-!
# Publications

What a dealer has published of its commitment: some of the points may be missing. It is kept as a
commitment that has the identity in place of each missing point, beside the places of these gaps.
Main statements: the publication of a whole commitment fills up to that commitment, and has no gaps.
-/

namespace ThresholdKeygen

variable {K : Type}

/-- The points of a commitment, some of which may be missing. -/
abbrev Publication (K : Type) := List (Option (Point K))

namespace Publication

/-- The publication of a whole commitment. -/
def ofCommitment (commitment : Commitment K) : Publication K := commitment.points.map some

/-- The commitment with the identity in place of each missing point. -/
def filled (publication : Publication K) : Commitment K :=
  ⟨publication.map fun point => point.getD .identity⟩

/-- The places of the missing points, counted from `start` on. -/
def gapsFrom (start : Nat) : Publication K → List Nat
  | [] => []
  | none :: rest => start :: gapsFrom (start + 1) rest
  | some _ :: rest => gapsFrom (start + 1) rest

/-- The places of the missing points. -/
def gaps (publication : Publication K) : List Nat := publication.gapsFrom 0

@[simp] theorem filled_ofCommitment (commitment : Commitment K) :
    (ofCommitment commitment).filled = commitment := by
  simp [filled, ofCommitment, Function.comp_def]

theorem gapsFrom_map_some (points : List (Point K)) (start : Nat) :
    gapsFrom start (points.map some) = [] := by
  induction points generalizing start with
  | nil => rfl
  | cons _ _ ih => exact ih (start + 1)

@[simp] theorem gaps_ofCommitment (commitment : Commitment K) :
    (ofCommitment commitment).gaps = [] :=
  gapsFrom_map_some commitment.points 0

end Publication

end ThresholdKeygen
