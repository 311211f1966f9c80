import Mathlib.Algebra.Field.ZMod
import Mathlib.Algebra.BigOperators.Group.List.Basic
import Mathlib.FieldTheory.Finite.Basic
import Mathlib.Tactic.Ring
import ThresholdKeygen.Interpolation
import ThresholdKeygen.Proofs.Scalar.Prime

/-!
# Scalars form a field

The operations on representatives agree with those of the integers modulo the group order, so that
scalars are a field in which `Scalar.inv` is the inverse.
-/

namespace ThresholdKeygen

namespace Scalar

/-! ### Residues -/

/-- The residue class of a scalar. -/
def residue (a : Scalar) : ZMod groupOrder := (a.val : ZMod groupOrder)

theorem residue_injective : Function.Injective residue := by
  intro a b h
  rw [residue, residue, ZMod.natCast_eq_natCast_iff'] at h
  rw [Nat.mod_eq_of_lt a.val_lt, Nat.mod_eq_of_lt b.val_lt] at h
  exact ext h

@[simp] theorem residue_ofNat (n : Nat) : residue (ofNat n) = n := by
  simp [residue, ofNat]

@[simp] theorem residue_ofInt (z : Int) : residue (ofInt z) = z := by
  have hnonneg : 0 ≤ z % (groupOrder : Int) :=
    Int.emod_nonneg z (by exact_mod_cast groupOrder_pos.ne')
  rw [ofInt, residue_ofNat, ← Int.cast_natCast, Int.toNat_of_nonneg hnonneg,
    ZMod.intCast_mod]

@[simp] theorem residue_natCast (n : Nat) : residue (n : Scalar) = n := residue_ofNat n

@[simp] theorem residue_zero : residue 0 = 0 := by
  change residue (ofNat 0) = 0
  simp

@[simp] theorem residue_one : residue 1 = 1 := by
  change residue (ofNat 1) = 1
  simp

@[simp] theorem residue_add (a b : Scalar) : residue (a + b) = residue a + residue b := by
  change residue (ofNat (a.val + b.val)) = _
  rw [residue_ofNat, Nat.cast_add, residue, residue]

@[simp] theorem residue_mul (a b : Scalar) : residue (a * b) = residue a * residue b := by
  change residue (ofNat (a.val * b.val)) = _
  rw [residue_ofNat, Nat.cast_mul, residue, residue]

theorem natCast_groupOrder_sub (a : Scalar) :
    ((groupOrder - a.val : Nat) : ZMod groupOrder) = -residue a := by
  rw [Nat.cast_sub a.val_lt.le, CharP.cast_eq_zero, zero_sub, residue]

@[simp] theorem residue_neg (a : Scalar) : residue (-a) = -residue a := by
  change residue (ofNat (groupOrder - a.val)) = _
  rw [residue_ofNat, natCast_groupOrder_sub]

@[simp] theorem residue_sub (a b : Scalar) : residue (a - b) = residue a - residue b := by
  change residue (ofNat (a.val + (groupOrder - b.val))) = _
  rw [residue_ofNat, Nat.cast_add, natCast_groupOrder_sub, ← sub_eq_add_neg]
  rfl

@[simp] theorem residue_pow (a : Scalar) (e : Nat) : residue (a ^ e) = residue a ^ e := by
  change residue (ofNat (powMod groupOrder a.val e)) = _
  rw [powMod_eq groupOrder_pos, residue_ofNat, ZMod.natCast_mod, Nat.cast_pow, residue]

/-! ### The field -/

instance : CommRing Scalar where
  add_assoc a b c := residue_injective (by simp [add_assoc])
  zero_add a := residue_injective (by simp)
  add_zero a := residue_injective (by simp)
  add_comm a b := residue_injective (by simp [add_comm])
  neg_add_cancel a := residue_injective (by simp)
  sub_eq_add_neg a b := residue_injective (by simp [sub_eq_add_neg])
  mul_assoc a b c := residue_injective (by simp [mul_assoc])
  one_mul a := residue_injective (by simp)
  mul_one a := residue_injective (by simp)
  mul_comm a b := residue_injective (by simp [mul_comm])
  zero_mul a := residue_injective (by simp)
  mul_zero a := residue_injective (by simp)
  left_distrib a b c := residue_injective (by simp [mul_add])
  right_distrib a b c := residue_injective (by simp [add_mul])
  nsmul := nsmulRec
  zsmul := zsmulRec
  npow e a := a ^ e
  npow_zero a := residue_injective (by simp)
  npow_succ e a := residue_injective (by simp [pow_succ])
  natCast n := ofNat n
  natCast_zero := rfl
  natCast_succ n := residue_injective (by simp)
  intCast z := ofInt z
  intCast_ofNat n := residue_injective (by simp)
  intCast_negSucc n := residue_injective (by simp)

theorem pow_mul_self_eq_one {a : Scalar} (ha : a ≠ 0) : a * a ^ (groupOrder - 2) = 1 := by
  apply residue_injective
  have hne : residue a ≠ 0 := fun h => ha (residue_injective (h.trans residue_zero.symm))
  rw [residue_mul, residue_pow, ← pow_succ', residue_one]
  exact ZMod.pow_card_sub_one_eq_one hne

instance : Nontrivial Scalar := ⟨⟨0, 1, by decide⟩⟩

instance : Field Scalar where
  inv a := a ^ (groupOrder - 2)
  mul_inv_cancel a ha := pow_mul_self_eq_one ha
  inv_zero := residue_injective (by
    rw [residue_pow, residue_zero, zero_pow (by decide)])
  nnqsmul := _
  nnqsmul_def _ _ := rfl
  qsmul := _
  qsmul_def _ _ := rfl

theorem inv_eq {a : Scalar} (ha : a ≠ 0) : a.inv = .ok a⁻¹ := if_neg ha

theorem ofInt_eq_intCast (z : Int) : ofInt z = (z : Scalar) := rfl

theorem sum_eq (scalars : List Scalar) : Scalar.sum scalars = scalars.sum := by
  rw [Scalar.sum, List.sum_eq_foldl]

/-! ### Integers as scalars -/

theorem intCast_eq_intCast_iff {a b : Int} :
    (a : Scalar) = b ↔ (groupOrder : Int) ∣ a - b := by
  rw [← residue_injective.eq_iff, ← ofInt_eq_intCast, ← ofInt_eq_intCast, residue_ofInt,
    residue_ofInt, ← sub_eq_zero, ← Int.cast_sub, ZMod.intCast_zmod_eq_zero_iff_dvd]

/-- Share indices are different scalars, and none of them is zero. -/
theorem intCast_ne_of_lt {a b : Int} (ha : 0 ≤ a) (hab : a < b) (hb : b < groupOrder) :
    (a : Scalar) ≠ b := by
  rw [Ne, intCast_eq_intCast_iff]
  intro h
  have hdvd : (groupOrder : Int) ∣ b - a := by
    rw [← neg_sub]
    exact h.neg_right
  have := Int.le_of_dvd (by omega) hdvd
  omega

theorem intCast_injOn {a b : Int} (ha : 0 ≤ a) (ha' : a < groupOrder) (hb : 0 ≤ b)
    (hb' : b < groupOrder) (h : (a : Scalar) = b) : a = b := by
  rcases lt_trichotomy a b with hab | hab | hab
  · exact absurd h (intCast_ne_of_lt ha hab hb')
  · exact hab
  · exact absurd h.symm (intCast_ne_of_lt hb hab ha')

/-- Different share indices are different scalars. -/
theorem nodup_map_intCast {indices : List Int} {n : Int} (hn : n < groupOrder)
    (hnodup : indices.Nodup) (hrange : ∀ x ∈ indices, 1 ≤ x ∧ x ≤ n) :
    (indices.map fun x : Int => (x : Scalar)).Nodup := by
  refine hnodup.map_on fun x hx y hy h => ?_
  have hx' := hrange x hx
  have hy' := hrange y hy
  exact intCast_injOn (by omega) (by omega) (by omega) (by omega) h

end Scalar

end ThresholdKeygen
