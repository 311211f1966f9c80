import Mathlib.GroupTheory.OrderOfElement
import ThresholdKeygen.Proofs.Scalar.Field
import ThresholdKeygen.Proofs.Secp256k1.Group

/-!
# Multiples of the generator

Multiples are computed by doubling and adding, and the generator has the group order as its order.
Main statement: `lawfulSuite_of_generates`, if the curve has no other points, the suite meets all
laws of suites.
-/

namespace ThresholdKeygen.Secp256k1

open WeierstrassCurve.Affine

/-! ### Multiples -/

namespace Represents

variable {p : Jacobian} {P : curve.Point}

theorem eq_zero (hp : Represents p P) (hz : p.z = 0) : P = 0 := by
  cases hp with
  | infinity => rfl
  | affine _ hne => exact absurd hz (z_ne_zero hne)

theorem multiply (hp : Represents p P) (digits : Nat) {n : Nat} (hn : n < 2 ^ digits) :
    Represents (p.multiply digits n) (n • P) := by
  induction digits generalizing n with
  | zero =>
    obtain rfl : n = 0 := by simpa using hn
    rw [zero_nsmul]
    exact .infinity rfl
  | succ digits ih =>
    have hhalf : n / 2 < 2 ^ digits := by
      rw [pow_succ] at hn
      omega
    have hdouble := (ih hhalf).double
    rw [← two_nsmul, ← mul_nsmul'] at hdouble
    simp only [Jacobian.multiply]
    split
    · have hodd : 2 * (n / 2) + 1 = n := by omega
      have hsum := hdouble.sum hp
      rwa [← succ_nsmul, hodd] at hsum
    · have heven : 2 * (n / 2) = n := by omega
      rwa [heven] at hdouble

end Represents

theorem groupOrder_lt_pow : groupOrder < 2 ^ 256 := by decide

theorem Affine.point_scale {s : Scalar} {p : Affine} (hne : s.val • p.point ≠ 0) :
    (p.scale s).point = s.val • p.point := by
  have hmultiple := (Represents.ofAffine p).multiply 256 (s.val_lt.trans groupOrder_lt_pow)
  obtain ⟨-, hzero⟩ | ⟨a, ha, hpoint⟩ := hmultiple.toAffine?_cases
  · exact absurd hzero hne
  · rw [scale, ha, Option.getD_some, hpoint]

/-! ### The order of the generator -/

theorem addOrderOf_base : addOrderOf base.point = groupOrder := by
  refine addOrderOf_eq_prime ?_ (Point.some_ne_zero _)
  refine ((Represents.ofAffine base).multiply 256 groupOrder_lt_pow).eq_zero ?_
  decide +kernel

/-- The multiples of the generator, as points of the curve. -/
def multiple : Scalar →+ curve.Point where
  toFun s := s.val • base.point
  map_zero' := zero_nsmul _
  map_add' s t := by
    rw [Scalar.val_add, ← add_nsmul, ← addOrderOf_base, mod_addOrderOf_nsmul]

theorem multiple_eq (s : Scalar) : multiple s = s.val • base.point := rfl

theorem multiple_eq_zero_iff {s : Scalar} : multiple s = 0 ↔ s = 0 := by
  refine ⟨fun h => ?_, fun h => h ▸ map_zero multiple⟩
  rw [multiple_eq, ← addOrderOf_dvd_iff_nsmul_eq_zero, addOrderOf_base] at h
  exact Scalar.ext (Nat.eq_zero_of_dvd_of_lt h s.val_lt)

theorem multiple_injective : Function.Injective multiple :=
  (injective_iff_map_eq_zero multiple).2 fun _ => multiple_eq_zero_iff.1

theorem nsmul_multiple (s t : Scalar) : s.val • multiple t = multiple (s * t) := by
  have hval : (s.val : Scalar) = s := Scalar.ext (Nat.mod_eq_of_lt s.val_lt)
  rw [← map_nsmul, nsmul_eq_mul, hval]

theorem point_ofScalar {s : Scalar} (hs : s ≠ 0) :
    (Suite.ofScalar s : Affine).point = multiple s :=
  Affine.point_scale (mt multiple_eq_zero_iff.1 hs)

theorem ofScalar_eq_iff {s : Scalar} (hs : s ≠ 0) {p : Affine} :
    Suite.ofScalar s = p ↔ p.point = multiple s := by
  rw [← point_ofScalar hs, Affine.point_injective.eq_iff, eq_comm]

/-! ### The laws -/

theorem sum_map_ofScalar {factors : List Scalar} (hne : ∀ s ∈ factors, s ≠ 0) :
    ((factors.map (Suite.ofScalar : Scalar → Affine)).map Affine.point).sum =
      multiple factors.sum := by
  rw [map_list_sum, List.map_map]
  exact congrArg List.sum (List.map_congr_left fun s hs => point_ofScalar (hne s hs))

/-- If every point of the curve is a multiple of the generator, the suite meets all laws. -/
theorem lawfulSuite_of_generates (h : ∀ p : Affine, ∃ s, p.point = multiple s) :
    LawfulSuite Affine where
  exists_ofScalar p := by
    obtain ⟨s, hs⟩ := h p
    have hne : s ≠ 0 := by
      rintro rfl
      exact Point.some_ne_zero _ (hs.trans (map_zero multiple))
    exact ⟨s, hne, (ofScalar_eq_iff hne).2 hs⟩
  ofScalar_injOn hs ht heq := by
    rw [ofScalar_eq_iff hs, point_ofScalar ht] at heq
    exact (multiple_injective heq).symm
  scale_ofScalar := by
    intro s t hs ht
    have hscale : s.val • (Suite.ofScalar t : Affine).point = multiple (s * t) := by
      rw [point_ofScalar ht, nsmul_multiple]
    have hne := multiple_eq_zero_iff.not.2 (mul_ne_zero hs ht)
    refine ((ofScalar_eq_iff (mul_ne_zero hs ht)).2 ?_).symm
    exact (Affine.point_scale (hscale ▸ hne)).trans hscale
  combine?_eq_some := by
    intro factors k hlen hne heq
    obtain ⟨hnone, -⟩ | ⟨a, ha, hsum⟩ := Affine.combine?_cases (factors.map Suite.ofScalar)
    · cases heq.symm.trans hnone
    · obtain rfl := Option.some.inj (heq.symm.trans ha)
      rw [sum_map_ofScalar hne] at hsum
      have hzero : factors.sum ≠ 0 := by
        intro hzero
        rw [hzero, map_zero] at hsum
        exact Point.some_ne_zero _ hsum
      exact ⟨hzero, ((ofScalar_eq_iff hzero).2 hsum).symm⟩
  combine?_eq_none := by
    intro factors hlen hne heq
    refine ⟨factors, List.prefix_rfl, by rintro rfl; simp at hlen, ?_⟩
    obtain ⟨-, hsum⟩ | ⟨a, ha, -⟩ := Affine.combine?_cases (factors.map Suite.ofScalar)
    · rwa [sum_map_ofScalar hne, multiple_eq_zero_iff] at hsum
    · cases heq.symm.trans ha
  decode?_flipSign := by
    intro s hs
    have hneg : (Suite.ofScalar s : Affine).negative.point = multiple (-s) := by
      rw [Affine.point_negative, point_ofScalar hs, map_neg]
    rw [(ofScalar_eq_iff (neg_ne_zero.2 hs)).2 hneg]
    exact LawfulEncoding.decode?_eq_some_iff.2 (Affine.flipSign_encode _)

end ThresholdKeygen.Secp256k1
