import Mathlib.Algebra.Order.Ring.Nat
import Mathlib.Tactic.Positivity
import Mathlib.Tactic.Ring
import ThresholdKeygen.Bytes

/-!
# Fixed-width numbers

Writing a number in a fixed width and reading it again, in both directions.
-/

namespace ThresholdKeygen.Bytes

theorem foldl_toNat (bytes : Bytes) (acc : Nat) :
    bytes.foldl (fun acc b => acc * 256 + b.toNat) acc =
      acc * 256 ^ bytes.length + toNat bytes := by
  rw [toNat]
  induction bytes generalizing acc with
  | nil => simp
  | cons b bytes ih =>
    rw [List.foldl_cons, List.foldl_cons, ih, ih (0 * 256 + b.toNat), List.length_cons, pow_succ]
    ring

theorem toNat_cons (b : UInt8) (bytes : Bytes) :
    toNat (b :: bytes) = b.toNat * 256 ^ bytes.length + toNat bytes := by
  rw [toNat, List.foldl_cons, foldl_toNat]
  simp

theorem toNat_lt (bytes : Bytes) : toNat bytes < 256 ^ bytes.length := by
  induction bytes with
  | nil => decide
  | cons b bytes ih =>
    have hb : b.toNat + 1 ≤ 256 := b.toNat_lt
    calc toNat (b :: bytes) = b.toNat * 256 ^ bytes.length + toNat bytes := toNat_cons b bytes
      _ < (b.toNat + 1) * 256 ^ bytes.length := by rw [Nat.add_mul, Nat.one_mul]; omega
      _ ≤ 256 * 256 ^ bytes.length := Nat.mul_le_mul_right _ hb
      _ = 256 ^ (b :: bytes).length := by rw [List.length_cons, pow_succ, Nat.mul_comm]

theorem ofNat_succ (width n : Nat) :
    ofNat (width + 1) n = UInt8.ofNat (n / 256 ^ width) :: ofNat width n := rfl

/-- Reading undoes writing, as far as the width reaches. -/
theorem toNat_ofNat_mod (width n : Nat) : toNat (ofNat width n) = n % 256 ^ width := by
  induction width with
  | zero => simp [ofNat, toNat, Nat.mod_one]
  | succ width ih =>
    have hdigit : (UInt8.ofNat (n / 256 ^ width)).toNat = n / 256 ^ width % 256 :=
      UInt8.toNat_ofNat'
    rw [ofNat_succ, toNat_cons, ih, length_ofNat, hdigit, Nat.pow_succ, Nat.mod_mul, Nat.add_comm,
      Nat.mul_comm]

theorem toNat_ofNat {width n : Nat} (h : n < 256 ^ width) : toNat (ofNat width n) = n := by
  rw [toNat_ofNat_mod, Nat.mod_eq_of_lt h]

/-- Numbers that fit a width are told apart by their digits. -/
theorem ofNat_inj {width n m : Nat} (hn : n < 256 ^ width) (hm : m < 256 ^ width)
    (h : ofNat width n = ofNat width m) : n = m := by
  rw [← toNat_ofNat hn, h, toNat_ofNat hm]

/-- Only the last digits of a number are written. -/
theorem ofNat_add_mul (width n c : Nat) : ofNat width (n + c * 256 ^ width) = ofNat width n := by
  induction width generalizing c with
  | zero => rfl
  | succ width ih =>
    have hpow : c * 256 ^ (width + 1) = c * 256 * 256 ^ width := by ring
    rw [ofNat_succ, ofNat_succ, hpow, ih, Nat.add_mul_div_right _ _ (by positivity)]
    congr 1
    apply UInt8.toNat_inj.1
    simp

/-- Writing undoes reading. -/
theorem ofNat_toNat (bytes : Bytes) : ofNat bytes.length (toNat bytes) = bytes := by
  induction bytes with
  | nil => rfl
  | cons b bytes ih =>
    have hdiv : (b.toNat * 256 ^ bytes.length + toNat bytes) / 256 ^ bytes.length = b.toNat := by
      rw [Nat.add_comm, Nat.add_mul_div_right _ _ (by positivity),
        Nat.div_eq_of_lt (toNat_lt bytes), Nat.zero_add]
    rw [List.length_cons, ofNat_succ, toNat_cons, hdiv, Nat.add_comm, ofNat_add_mul, ih]
    simp

end ThresholdKeygen.Bytes
