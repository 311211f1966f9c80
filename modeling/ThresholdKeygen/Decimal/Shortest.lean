/-!
# Shortest decimals

The decimal with the fewest digits that reads back as a given binary floating-point number, and of
those the one nearest to it. All arithmetic is exact: the number is `m·2^e`, and the reals that are
read as this number form an interval around it whose ends belong to it just when `m` is even.
-/

namespace ThresholdKeygen.Decimal

/-- The positive number `mantissa·2^exponent`; `narrow` says that the gap to the number below is
half the gap to the one above. -/
structure Dyadic where
  mantissa : Nat
  exponent : Int
  narrow : Bool

/-- What the bits of a floating-point number stand for. -/
inductive Shape where
  | nan
  | infinite (negative : Bool)
  | finite (negative : Bool) (size : Dyadic)

/-- Takes a floating-point number apart. -/
def shape (x : Float) : Shape :=
  let bits := x.toBits.toNat
  let negative := bits / Nat.pow 2 63 = 1
  let biased : Nat := bits / Nat.pow 2 52 % Nat.pow 2 11
  let fraction := bits % Nat.pow 2 52
  if biased = 2047 then if fraction = 0 then .infinite negative else .nan
  else if biased = 0 then .finite negative ⟨fraction, -1074, false⟩
  else .finite negative ⟨Nat.pow 2 52 + fraction, biased - 1075, fraction = 0 ∧ biased > 1⟩

namespace Dyadic

/-- The whole part. -/
def floor (v : Dyadic) : Nat :=
  v.mantissa * Nat.pow 2 v.exponent.toNat / Nat.pow 2 (-v.exponent).toNat

/-- Compares `quarters/4·2^exponent` with `digits·10^scale`. -/
def compareQuarters (quarters : Nat) (exponent : Int) (digits : Nat) (scale : Int) : Ordering :=
  compare (quarters * Nat.pow 2 exponent.toNat * Nat.pow 10 (-scale).toNat)
    (4 * digits * Nat.pow 2 (-exponent).toNat * Nat.pow 10 scale.toNat)

/-- Whether the decimal `digits·10^scale` reads back as the number. -/
def readsBack (v : Dyadic) (digits : Nat) (scale : Int) : Bool :=
  let low := 4 * v.mantissa - (if v.narrow then 1 else 2)
  let high := 4 * v.mantissa + 2
  let closed := v.mantissa % 2 = 0
  match compareQuarters low v.exponent digits scale,
    compareQuarters high v.exponent digits scale with
  | .lt, .gt => true
  | .eq, _ | _, .eq => closed
  | _, _ => false

/-- The number of digits before the decimal point, or less the number of zeros behind it. -/
def magnitude (v : Dyadic) : Int :=
  let estimate := (v.mantissa.log2 + v.exponent) * 30103 / 100000 + 1
  if compareQuarters (4 * v.mantissa) v.exponent 1 estimate = .lt then estimate else estimate + 1

/-- The multiple of `10^scale` next below the number. -/
def below (v : Dyadic) (scale : Int) : Nat :=
  v.mantissa * Nat.pow 2 v.exponent.toNat * Nat.pow 10 (-scale).toNat /
    (Nat.pow 2 (-v.exponent).toNat * Nat.pow 10 scale.toNat)

/-- A decimal on the grid `10^scale` that reads back as the number, the nearest if there are two. -/
def onGrid (v : Dyadic) (scale : Int) : Option Nat :=
  let low := v.below scale
  match v.readsBack low scale, v.readsBack (low + 1) scale with
  | true, false => some low
  | false, true => some (low + 1)
  | false, false => none
  | true, true =>
    match compareQuarters (8 * v.mantissa) v.exponent (2 * low + 1) scale with
    | .lt => some low
    | .gt => some (low + 1)
    | .eq => some (if low % 2 = 0 then low else low + 1)

/-- Moves zeros at the end of the digits into the scale. -/
def stripZeros : (fuel digits : Nat) → (scale : Int) → Nat × Int
  | 0, digits, scale => (digits, scale)
  | fuel + 1, digits, scale =>
    if digits % 10 = 0 then stripZeros fuel (digits / 10) (scale + 1) else (digits, scale)

/-- The shortest decimal, as digits and scale. -/
def shortest (v : Dyadic) : Nat × Int :=
  let top := v.magnitude
  let found := (List.range 17).findSome? fun n : Nat =>
    let scale := top - (n + 1)
    (v.onGrid scale).map (·, scale)
  let (digits, scale) := found.getD (v.below (top - 17), top - 17)
  stripZeros 20 digits scale

end Dyadic

/-! ### Notation -/

/-- Digits in plain notation when the point falls from four places before the first digit to sixteen
behind it, and else with an exponent of at least two digits. -/
def layout (digits : Nat) (scale : Int) : String :=
  let ds := (toString digits).toList
  let point := ds.length + scale
  let zeros (n : Int) := List.replicate n.toNat '0'
  String.ofList <|
    if -4 < point ∧ point ≤ 16 then
      if point ≤ 0 then '0' :: '.' :: zeros (-point) ++ ds
      else if scale ≥ 0 then ds ++ zeros scale ++ ['.', '0']
      else ds.take point.toNat ++ '.' :: ds.drop point.toNat
    else
      let mantissa := match ds with
        | d :: e :: rest => d :: '.' :: e :: rest
        | short => short
      let power := (toString (point - 1).natAbs).toList
      mantissa ++ 'e' :: (if point - 1 < 0 then '-' else '+') :: zeros (2 - power.length) ++ power

/-- The text of a floating-point number. -/
def text (x : Float) : String :=
  match shape x with
  | .nan => "nan"
  | .infinite negative => if negative then "-inf" else "inf"
  | .finite negative v =>
    let (digits, scale) := if v.mantissa = 0 then (0, 0) else v.shortest
    (if negative then "-" else "") ++ layout digits scale

end ThresholdKeygen.Decimal
