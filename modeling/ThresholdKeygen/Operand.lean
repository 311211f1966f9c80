import ThresholdKeygen.Capacity
import ThresholdKeygen.Item

/-!
# Mixed operands

Arithmetic on operands whose kind is only known when they meet. Scalars take integers and scalars on
either side, except truth values; a product of a scalar or an integer with a point is a multiple of
the point. All other pairs are refused by the names of their kinds.
-/

namespace ThresholdKeygen

variable {K : Type} [Suite K]

/-- A value of any kind. -/
inductive Operand (K : Type) where
  | scalar (s : Scalar)
  | point (p : Point K)
  | int (n : Int)
  | bool (b : Bool)
  | bytes (content : Bytes)
  | text (content : String)
  | list (items : List (Operand K))
  | tuple (items : List (Operand K))
  | none
deriving Inhabited

/-- The operations on operands. -/
inductive Operation where
  | add
  | sub
  | mul
  | div
  | pow
deriving DecidableEq

/-- The operation that a symbol stands for. -/
def Operation.ofSymbol? : String → Option Operation
  | "+" => some add
  | "-" => some sub
  | "*" => some mul
  | "/" => some div
  | "**" => some pow
  | _ => none

/-- The name of an operation in messages. -/
def Operation.name : Operation → String
  | add => "+"
  | sub => "-"
  | mul => "*"
  | div => "/"
  | pow => "** or pow()"

namespace Operand

/-- The name of the kind of an operand. -/
def kind : Operand K → String
  | scalar _ => "Scalar"
  | point _ => "Point"
  | int _ => "int"
  | bool _ => "bool"
  | bytes _ => "bytes"
  | text _ => "str"
  | list _ => "list"
  | tuple _ => "tuple"
  | none => "NoneType"

/-- Whether an operand is a sequence. -/
def isSequence : Operand K → Bool
  | bytes _ | text _ | list _ | tuple _ => true
  | _ => false

/-- The residue of a scalar or an integer; truth values have none. -/
def residue? : Operand K → Option Scalar
  | scalar s => some s
  | int n => some (Scalar.ofInt n)
  | _ => Option.none

/-- The number that an integer or a truth value stands for. -/
def number? : Operand K → Option Int
  | int n => some n
  | bool b => some (if b then 1 else 0)
  | _ => Option.none

/-- Why a sequence is not repeated by an operand. -/
def refuseRepetition (count : Operand K) : Error :=
  if count.number?.all isPlace then .kind (.repetition count.kind) else .overflow .noSize

/-- The refusal of a pair of operands. -/
def refuse (operation : Operation) (a b : Operand K) : Error :=
  if operation = .add ∧ a.isSequence then .kind (.concatenation a.kind b.kind)
  else if operation = .mul ∧ a.isSequence then refuseRepetition b
  else if operation = .mul ∧ b.isSequence then refuseRepetition a
  else .kind (.operands operation.name a.kind b.kind)

/-- An operation on two numbers neither of which is a scalar, when it has an integer result. -/
def applyNumbers (operation : Operation) (a b : Int) : Except Error (Option Int) :=
  match operation with
  | .add => .ok (some (a + b))
  | .sub => .ok (some (a - b))
  | .mul => .ok (some (a * b))
  | .pow =>
    if 0 ≤ b then .ok (some (a.pow b.toNat))
    else if a = 0 then .error (.zeroDivision .zeroPower)
    else .ok Option.none
  | .div => if b = 0 then .error (.zeroDivision .byZero) else .ok Option.none

/-- An operation on two residues. -/
def applyResidues (operation : Operation) (a b : Scalar) : Except Error Scalar :=
  match operation with
  | .add => .ok (a + b)
  | .sub => .ok (a - b)
  | .mul => .ok (a * b)
  | .div => a.div b
  | .pow => .error (.kind (.comparison "<" "Scalar" "int"))

/-- An operation of which one operand is a scalar and the other one is no point. -/
def applyScalar (operation : Operation) (a b : Operand K) : Except Error (Operand K) :=
  match operation, a with
  | .pow, scalar s =>
    match b.number? with
    | some e => return scalar (← s.zpow e)
    | Option.none => .error (.kind (.comparison "<" b.kind "int"))
  | .pow, _ => .error (refuse operation a b)
  | .div, int _ => .error (refuse operation a b)
  | _, _ =>
    match a.residue?, b.residue? with
    | some r, some s => return scalar (← applyResidues operation r s)
    | _, _ => .error (refuse operation a b)

/-- An operation of which one operand is a point. -/
def applyPoint (operation : Operation) (a b : Operand K) : Except Error (Operand K) :=
  match operation, a, b with
  | .add, point p, point q => .ok (point (p + q))
  | .sub, point p, point q => .ok (point (p - q))
  | .pow, scalar _, point _ => .error (.kind (.comparison "<" b.kind "int"))
  | .mul, point p, other | .mul, other, point p =>
    match other.residue? with
    | some s => .ok (point (s • p))
    | Option.none => .error (refuse operation a b)
  | _, _, _ => .error (refuse operation a b)

/-- The result of an operation. -/
def apply (operation : Operation) (a b : Operand K) : Except Error (Operand K) :=
  match a, b with
  | point _, _ | _, point _ => applyPoint operation a b
  | scalar _, _ | _, scalar _ => applyScalar operation a b
  | _, _ =>
    match a.number?, b.number? with
    | some m, some n => do
      match ← applyNumbers operation m n with
      | some result => return int result
      | Option.none => throw (refuse operation a b)
    | _, _ => .error (refuse operation a b)

/-! ### Equality -/

mutual
/-- Whether two operands are equal: scalars and integers by residue, points by encoding, sequences
of one kind by their items. -/
def equal : Operand K → Operand K → Bool
  | scalar s, other | other, scalar s => other.residue? = some s
  | point p, point q => p == q
  | bytes x, bytes y => x = y
  | text x, text y => x = y
  | list xs, list ys | tuple xs, tuple ys => equalItems xs ys
  | none, none => true
  | a, b =>
    match a.number?, b.number? with
    | some m, some n => m = n
    | _, _ => false

def equalItems : List (Operand K) → List (Operand K) → Bool
  | [], [] => true
  | x :: xs, y :: ys => equal x y && equalItems xs ys
  | _, _ => false
end

/-- The value of two operands around a symbol: of an operation, or of `==`, or of `!=` for any other
symbol. -/
def evaluate (symbol : String) (a b : Operand K) : Except Error (Operand K) :=
  match Operation.ofSymbol? symbol with
  | some operation => apply operation a b
  | Option.none => .ok (bool (equal a b == (symbol == "==")))

/-! ### Sets -/

/-- What decides where a set looks for an element. -/
inductive Fingerprint where
  | number (residue : Int)
  | bytes (content : Bytes)
  | text (content : String)
  | tuple (items : List Fingerprint)
  | none

/-- The fingerprint of a number: its residue modulo `2⁶¹ - 1` with the sign kept; `-1` has that of
`-2`. -/
def numberFingerprint (n : Int) : Fingerprint :=
  let residue := Int.tmod n (Int.pow 2 61 - 1)
  .number (if residue = -1 then -2 else residue)

mutual
/-- The fingerprint of an operand; lists have none. -/
def fingerprint : Operand K → Except Error Fingerprint
  | scalar s => return numberFingerprint s.val
  | point p => return .bytes p.toBytes
  | int n => return numberFingerprint n
  | bool b => return .number (if b then 1 else 0)
  | bytes content => return .bytes content
  | text content => return .text content
  | list _ => .error (.kind (.unhashable "list"))
  | tuple items => return .tuple (← fingerprints items)
  | none => return .none

def fingerprints : List (Operand K) → Except Error (List Fingerprint)
  | [] => return []
  | item :: rest => do
    let first ← fingerprint item
    return first :: (← fingerprints rest)
end

mutual
def Fingerprint.same : Fingerprint → Fingerprint → Bool
  | .number m, .number n => m = n
  | .bytes x, .bytes y => x = y
  | .text x, .text y => x = y
  | .tuple xs, .tuple ys => sameFingerprints xs ys
  | .none, .none => true
  | _, _ => false

def sameFingerprints : List Fingerprint → List Fingerprint → Bool
  | [], [] => true
  | x :: xs, y :: ys => x.same y && sameFingerprints xs ys
  | _, _ => false
end

/-- The elements of a set with their fingerprints. -/
abbrev Elements (K : Type) := List (Fingerprint × Operand K)

/-- Adds an operand to a set; it is left out when an equal one with the same fingerprint is already
there. -/
def addTo (elements : Elements K) (operand : Operand K) : Except Error (Elements K) := do
  let mark ← operand.fingerprint
  if elements.any fun (other, element) => mark.same other && element.equal operand then
    return elements
  else return elements ++ [(mark, operand)]

/-- The set of some operands. -/
def distinct (operands : List (Operand K)) : Except Error (Elements K) :=
  operands.foldlM addTo []

mutual
/-- An operand as the input of a hash. -/
def toItem : Operand K → Item K
  | scalar s => .scalar s
  | point p => .point p
  | int n => .int n
  | bool b => .int (if b then 1 else 0)
  | bytes content => .bytes content
  | list items | tuple items => .list (toItems items)
  | other => .other other.kind

def toItems : List (Operand K) → List (Item K)
  | [] => []
  | item :: rest => toItem item :: toItems rest
end

end Operand

end ThresholdKeygen
