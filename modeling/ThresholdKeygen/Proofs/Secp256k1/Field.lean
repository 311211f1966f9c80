import Mathlib.Algebra.Field.ZMod
import Mathlib.FieldTheory.Finite.Basic
import Mathlib.Tactic.LinearCombination
import ThresholdKeygen.Proofs.Scalar.Prime
import ThresholdKeygen.Secp256k1.Curve

/-!
# The coordinate field

The field size is a prime, and operations on representatives agree with those of the field. Main
statement: `sqrt?_natCast_sq`, a root is found for every square.
-/

namespace ThresholdKeygen.Secp256k1

/-! ### The field size is prime -/

/-- The primes at the bottom of the certificates for the field size. -/
def fieldSizePrimes : List Nat :=
  [2, 3, 5, 7, 11, 29, 31, 1627, 2621, 2657, 4423, 5323, 7723, 13441, 24809, 41201, 96557, 7240687,
    13331831, 107590001]

/-- Primes that certify each other, up to the field size. -/
def fieldSizeChain : List PrimeCertificate :=
  [⟨173378833005251801, 6, [2, 2, 2, 5, 5, 2621, 24809, 13331831]⟩,
    ⟨22149492674086928081353, 5, [2, 2, 2, 3, 5323, 173378833005251801]⟩,
    ⟨132896956044521568488119, 6, [2, 3, 22149492674086928081353]⟩,
    ⟨255515944373312847190720520512484175977, 3,
      [2, 2, 2, 7, 7, 11, 1627, 2657, 4423, 41201, 96557, 7240687, 107590001]⟩,
    ⟨205115282021455665897114700593932402728804164701536103180137503955397371, 10,
      [2, 3, 5, 29, 29, 31, 7723, 132896956044521568488119,
        255515944373312847190720520512484175977]⟩,
    ⟨fieldSize, 3, [2, 3, 7, 13441,
      205115282021455665897114700593932402728804164701536103180137503955397371]⟩]

theorem fieldSize_prime : Nat.Prime fieldSize := by
  have hknown : ∀ r ∈ fieldSizePrimes, r.Prime := by norm_num [fieldSizePrimes]
  have hcertified : areCertified fieldSizePrimes fieldSizeChain = true := by decide +kernel
  exact prime_of_areCertified hknown hcertified fieldSize (by simp [fieldSizeChain])

instance : Fact fieldSize.Prime := ⟨fieldSize_prime⟩

/-- The field of coordinates. -/
abbrev Coordinate := ZMod fieldSize

/-! ### Representatives -/

theorem add_lt (a b : Nat) : add a b < fieldSize := Nat.mod_lt _ fieldSize_prime.pos

theorem sub_lt (a b : Nat) : sub a b < fieldSize := Nat.mod_lt _ fieldSize_prime.pos

theorem mul_lt (a b : Nat) : mul a b < fieldSize := Nat.mod_lt _ fieldSize_prime.pos

theorem powMod_lt (b e : Nat) : powMod fieldSize b e < fieldSize := by
  rw [powMod_eq fieldSize_prime.pos]
  exact Nat.mod_lt _ fieldSize_prime.pos

@[simp] theorem natCast_add (a b : Nat) : (add a b : Coordinate) = a + b := by
  rw [add, ZMod.natCast_mod, Nat.cast_add]

@[simp] theorem natCast_mul (a b : Nat) : (mul a b : Coordinate) = a * b := by
  rw [mul, ZMod.natCast_mod, Nat.cast_mul]

theorem natCast_sub (a : Nat) {b : Nat} (hb : b ≤ fieldSize) : (sub a b : Coordinate) = a - b := by
  rw [sub, ZMod.natCast_mod, Nat.cast_add, Nat.cast_sub hb, ZMod.natCast_self, zero_sub,
    sub_eq_add_neg]

@[simp] theorem natCast_powMod (b e : Nat) : (powMod fieldSize b e : Coordinate) = b ^ e := by
  rw [powMod_eq fieldSize_prime.pos, ZMod.natCast_mod, Nat.cast_pow]

@[simp] theorem natCast_inv (a : Nat) : (inv a : Coordinate) = (a : Coordinate)⁻¹ := by
  rw [inv, natCast_powMod]
  by_cases ha : (a : Coordinate) = 0
  · rw [ha, inv_zero, zero_pow (by decide)]
  · apply eq_inv_of_mul_eq_one_left
    rw [← pow_succ]
    exact ZMod.pow_card_sub_one_eq_one ha

/-- Representatives below the field size are determined by what they represent. -/
theorem natCast_inj {a b : Nat} (ha : a < fieldSize) (hb : b < fieldSize) :
    (a : Coordinate) = b ↔ a = b := by
  rw [ZMod.natCast_eq_natCast_iff', Nat.mod_eq_of_lt ha, Nat.mod_eq_of_lt hb]

theorem natCast_eq_zero {a : Nat} (ha : a < fieldSize) : (a : Coordinate) = 0 ↔ a = 0 := by
  rw [← Nat.cast_zero, natCast_inj ha fieldSize_prime.pos]

/-- The negative of a representative other than zero. -/
theorem eq_of_natCast_eq_neg {a b : Nat} (ha : a < fieldSize) (hb : b < fieldSize)
    (h : (a : Coordinate) = -b) : a = b ∧ b = 0 ∨ a = fieldSize - b ∧ b ≠ 0 := by
  have hsum : ((a + b : Nat) : Coordinate) = 0 := by rw [Nat.cast_add, h, neg_add_cancel]
  obtain ⟨c, hc⟩ := (ZMod.natCast_eq_zero_iff _ _).1 hsum
  have hlt : c < 2 := by
    refine Nat.lt_of_mul_lt_mul_left (a := fieldSize) ?_
    omega
  interval_cases c <;> omega

/-! ### Roots -/

/-- Every square has its root found, up to the sign. -/
theorem sqrt?_natCast_sq {a : Nat} {y : Coordinate} (h : y ^ 2 = a) :
    ∃ r, sqrt? a = some r ∧ r < fieldSize ∧ ((r : Coordinate) = y ∨ (r : Coordinate) = -y) := by
  have hexponent : 2 * ((fieldSize + 1) / 4) + 2 * ((fieldSize + 1) / 4) = fieldSize - 1 + 2 := by
    decide
  -- the power is a root since the field size is 3 modulo 4
  have hsquare : ((y ^ 2) ^ ((fieldSize + 1) / 4)) ^ 2 = y ^ 2 := by
    rw [sq, ← pow_mul, ← pow_add, hexponent, pow_add]
    by_cases hy : y = 0
    · rw [hy, zero_pow two_ne_zero, mul_zero]
    · rw [ZMod.pow_card_sub_one_eq_one hy, one_mul]
  have hroot : ((powMod fieldSize a ((fieldSize + 1) / 4) : Nat) : Coordinate) ^ 2 = y ^ 2 := by
    rw [natCast_powMod, ← h, hsquare]
  refine ⟨_, ?_, powMod_lt a ((fieldSize + 1) / 4), sq_eq_sq_iff_eq_or_eq_neg.1 hroot⟩
  rw [sqrt?, if_pos]
  rw [← Nat.mod_eq_of_lt (mul_lt _ _)]
  apply (ZMod.natCast_eq_natCast_iff' _ _ _).1
  rw [natCast_mul, ← sq, hroot, h]

/-- The negative of seven is no cube, so that the curve has no point with second coordinate
zero. -/
theorem cube_add_seven_ne_zero (x : Coordinate) : x ^ 3 + 7 ≠ 0 := by
  intro h
  have hcube : x ^ 3 = ((fieldSize - 7 : Nat) : Coordinate) := by
    rw [Nat.cast_sub (by decide), ZMod.natCast_self, zero_sub]
    exact eq_neg_of_add_eq_zero_left h
  have hx : x ≠ 0 := by
    rintro rfl
    rw [zero_pow three_ne_zero, eq_comm, natCast_eq_zero (by decide)] at hcube
    exact absurd hcube (by decide)
  -- a cube raised to a third of the number of units is one
  have hone :
      ((powMod fieldSize (fieldSize - 7) ((fieldSize - 1) / 3) : Nat) : Coordinate) = 1 := by
    have hexponent : 3 * ((fieldSize - 1) / 3) = fieldSize - 1 := by decide
    rw [natCast_powMod, ← hcube, ← pow_mul, hexponent, ZMod.pow_card_sub_one_eq_one hx]
  have hpower := (natCast_inj (powMod_lt _ _) fieldSize_prime.one_lt).1
    (hone.trans Nat.cast_one.symm)
  exact absurd hpower (by decide +kernel)

end ThresholdKeygen.Secp256k1
