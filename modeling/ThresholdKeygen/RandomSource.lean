import ThresholdKeygen.Scalar
import ThresholdKeygen.Sha256

/-!
# Randomness

A source of randomness hands out nonzero scalars, for polynomials and nonces, and short weights, for
batch tests; every draw names the position it is made for. A `Tape` is a source that replays given
draws and continues with hashes of a seed. It refuses unusable raw draws and draws again.
-/

namespace ThresholdKeygen

/-- A state from which random values are drawn. -/
class RandomSource (σ : Type) where
  /-- A nonzero scalar for a position. -/
  nextScalar : (who : Int) → σ → {s : Scalar // s ≠ 0} × σ
  /-- A weight of at most the given number of bits for a position. -/
  nextWeight : (who : Int) → (bits : Nat) → σ → Scalar × σ

variable {σ : Type} [RandomSource σ]

/-- Draws a nonzero scalar. -/
def drawScalar (who : Int) : StateM σ Scalar := fun source =>
  let (s, rest) := RandomSource.nextScalar who source
  (s.val, rest)

/-- Draws a number of nonzero scalars. -/
def drawScalars (who : Int) : (count : Nat) → StateM σ (List Scalar)
  | 0 => return []
  | count + 1 => do
    let s ← drawScalar who
    return s :: (← drawScalars who count)

/-- Draws a weight. -/
def drawWeight (who : Int) (bits : Nat) : StateM σ Scalar :=
  RandomSource.nextWeight who bits

/-- Draws a number of weights. -/
def drawWeights (who : Int) (bits : Nat) : (count : Nat) → StateM σ (List Scalar)
  | 0 => return []
  | count + 1 => do
    let w ← drawWeight who bits
    return w :: (← drawWeights who bits count)

/-! ### Tapes -/

/-- Raw draws that are given first, and a seed for the draws after them. -/
structure Tape where
  entropy : List Bytes
  weights : List Int
  seed : String
  entropyDrawn : Nat
  weightsDrawn : Nat

namespace Tape

/-- A tape from which nothing has been drawn. -/
def new (entropy : List Bytes) (weights : List Int) (seed : String) : Tape :=
  ⟨entropy, weights, seed, 0, 0⟩

/-- The number that the seed gives for a draw. -/
def seeded (tape : Tape) (purpose : String) (draw : Nat) : Nat :=
  let text := purpose ++ ":" ++ tape.seed ++ ":" ++ toString draw
  Bytes.toNat (Sha256.hash (Bytes.ofText text)).bytes

/-- The next raw number for a scalar. -/
def rawScalar (tape : Tape) : Nat × Tape :=
  match tape.entropy with
  | bytes :: rest => (Bytes.toNat bytes, { tape with entropy := rest })
  | [] =>
    (tape.seeded "rand" tape.entropyDrawn, { tape with entropyDrawn := tape.entropyDrawn + 1 })

/-- The next raw number for a weight. -/
def rawWeight (bits : Nat) (tape : Tape) : Int × Tape :=
  match tape.weights with
  | w :: rest => (w, { tape with weights := rest })
  | [] =>
    ((tape.seeded "weight" tape.weightsDrawn / Nat.pow 2 (256 - bits) : Nat),
      { tape with weightsDrawn := tape.weightsDrawn + 1 })

/-- Refuses a weight that is wider than a hash when it would have to come from one. -/
def checkWidth (tape : Tape) (bits : Nat) : Except Error Unit :=
  if bits ≤ 256 ∨ tape.weights.any (· ≠ 0) then .ok () else .error (.value .weightTooWide)

/-- How often unusable raw draws are refused in a row before the source counts as broken. -/
def patience : Nat := 4096

theorem one_nonzero : (1 : Scalar) ≠ 0 := by decide

/-- The first raw number that lies strictly between zero and the group order. -/
def nextScalar : (tries : Nat) → Tape → {s : Scalar // s ≠ 0} × Tape
  | 0, tape => (⟨1, one_nonzero⟩, tape)
  | tries + 1, tape =>
    let (n, rest) := tape.rawScalar
    if h : n < groupOrder then
      if h₀ : (⟨n, h⟩ : Scalar) ≠ 0 then (⟨⟨n, h⟩, h₀⟩, rest) else nextScalar tries rest
    else nextScalar tries rest

/-- The residue of the first raw weight that is not zero. -/
def nextWeight (bits : Nat) : (tries : Nat) → Tape → Scalar × Tape
  | 0, tape => (1, tape)
  | tries + 1, tape =>
    let (w, rest) := tape.rawWeight bits
    if w = 0 then nextWeight bits tries rest else (Scalar.ofInt w, rest)

instance : RandomSource Tape where
  nextScalar _ tape := tape.nextScalar (tape.entropy.length + patience)
  nextWeight _ bits tape := tape.nextWeight bits (tape.weights.length + patience)

end Tape

end ThresholdKeygen
