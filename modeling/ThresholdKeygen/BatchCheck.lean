import ThresholdKeygen.CommitmentTable
import ThresholdKeygen.PowerMap

/-!
# Batched share checks

All shares for one index are checked in one equation: with random weights `rᵢ`, the shares `sᵢ` and
the powers `xᵏ` of the index,

  `(∑ᵢ rᵢ sᵢ)·G = ∑ₖ xᵏ·(∑ᵢ rᵢ·Cᵢₖ)`.

When the equation fails, the senders are halved until each failing part holds one sender.
-/

namespace ThresholdKeygen

variable {K : Type} [Suite K] {σ : Type} [RandomSource σ]

/-- Shares by sender. -/
abbrev Inbox := Mapping Int Scalar

/-- The entries of an inbox, by ascending sender. -/
def Inbox.bySender (inbox : Inbox) : List (Int × Scalar) :=
  inbox.entries.mergeSort fun a b => a.1 ≤ b.1

namespace BatchCheck

/-- The length of a weight in bits. -/
def weightBits : Nat := 128

/-- The commitments of some senders to their coefficient of degree `k`. -/
def column (table : CommitmentTable K) (senders : List Int) (k : Nat) :
    Except Error (List (Point K)) :=
  senders.mapM fun sender => do pointAt (← table.commitmentOf sender).points k

/-- The weighted equation for some shares, given the powers of their index. -/
def equation (weights : List Scalar) (shares : List (Int × Scalar)) (table : CommitmentTable K)
    (row : List Scalar) : Except Error Bool := do
  let left := Point.ofScalar (K := K)
    (Scalar.sum (List.zipWith (fun w share => w * share.2) weights shares))
  let terms ← row.zipIdx.mapM fun (power, k) => do
    let combined ← Point.lincomb weights (← column table (shares.map Prod.fst) k)
    return if k = 0 then combined else power • combined
  return left == Point.sum terms

/-- A fresh weight for each share; a single share needs none. -/
def freshWeights (who : Int) (count : Nat) : StateM σ (List Scalar) :=
  if count = 1 then return [1] else drawWeights who weightBits count

/-- The equation with fresh weights. -/
def holds (who : Int) (shares : List (Int × Scalar)) (table : CommitmentTable K)
    (row : List Scalar) : ExceptT Error (StateM σ) Bool := do
  if shares.isEmpty then return true
  let weights ← (freshWeights who shares.length : StateM σ _)
  equation weights shares table row

/-- Whether all shares of an inbox agree with the commitments of their senders. -/
def verify (who : Int) (inbox : Inbox) (table : CommitmentTable K) (row : List Scalar) :
    ExceptT Error (StateM σ) Bool :=
  holds who inbox.bySender table row

/-- The senders of the shares that fail when taken alone, found by halving failing parts. -/
def bisect (who : Int) (table : CommitmentTable K) (row : List Scalar)
    (shares : List (Int × Scalar)) : ExceptT Error (StateM σ) (List Int) := do
  if ← holds who shares table row then return []
  if _ : shares.length ≤ 1 then return shares.map Prod.fst
  else
    let half := shares.length / 2
    let left ← bisect who table row (shares.take half)
    let right ← bisect who table row (shares.drop half)
    return left ++ right
termination_by shares.length
decreasing_by
  · simp only [List.length_take]; omega
  · simp only [List.length_drop]; omega

/-- The senders whose share disagrees with their commitment, as far as the batch equation shows. -/
def findInvalid (who : Int) (inbox : Inbox) (table : CommitmentTable K) (row : List Scalar) :
    ExceptT Error (StateM σ) (List Int) :=
  bisect who table row inbox.bySender

end BatchCheck

end ThresholdKeygen
