import Mathlib.AlgebraicGeometry.EllipticCurve.Affine.Point
import Mathlib.Tactic.FieldSimp
import ThresholdKeygen.Proofs.Point.Group
import ThresholdKeygen.Proofs.Secp256k1.Encoding

/-!
# The group of the curve

Jacobian coordinates stand for points of an elliptic curve, on which the chord and tangent rules
compute the sum of the group. Main statement: `curveBackend`, the suite adds up its keys in this
group, and fails exactly when the sum is the point at infinity.
-/

namespace ThresholdKeygen.Secp256k1

open WeierstrassCurve.Affine

/-! ### The curve -/

/-- The curve `y² = x³ + 7`. -/
def curve : WeierstrassCurve.Affine Coordinate := ⟨0, 0, 0, 0, (7 : Nat)⟩

theorem equation_curve_iff {x y : Coordinate} : curve.Equation x y ↔ y ^ 2 = x ^ 3 + 7 := by
  rw [equation_iff]
  simp [curve]

theorem negY_curve (x y : Coordinate) : curve.negY x y = -y := by
  simp [negY, curve]

theorem coordinate_two_ne_zero : (2 : Coordinate) ≠ 0 := by
  rw [← Nat.cast_ofNat, Ne, natCast_eq_zero (by decide)]
  decide

theorem discriminant_ne_zero : curve.Δ ≠ 0 := by
  have hvalue : curve.Δ = -((21168 : Nat) : Coordinate) := by
    simp only [WeierstrassCurve.Δ, WeierstrassCurve.b₂, WeierstrassCurve.b₄, WeierstrassCurve.b₆,
      WeierstrassCurve.b₈, curve]
    norm_num
  rw [hvalue, neg_ne_zero, Ne, natCast_eq_zero (by decide)]
  decide

theorem nonsingular_curve {x y : Coordinate} (h : y ^ 2 = x ^ 3 + 7) : curve.Nonsingular x y :=
  (equation_iff_nonsingular_of_Δ_ne_zero discriminant_ne_zero).1 (equation_curve_iff.2 h)

/-- The point of the curve with the coordinates of a key. -/
def Affine.point (p : Affine) : curve.Point :=
  .some (p.x : Coordinate) p.y (nonsingular_curve p.natCast_equation)

theorem Affine.point_injective : Function.Injective Affine.point := by
  intro p q h
  obtain ⟨hx, hy⟩ := Point.some.inj h
  rw [natCast_inj p.x_lt q.x_lt] at hx
  rw [natCast_inj p.y_lt q.y_lt] at hy
  cases p
  cases q
  subst hx hy
  rfl

theorem Affine.point_negative (p : Affine) : p.negative.point = -p.point := by
  rw [point, point, Point.neg_some]
  simp only [negY_curve, natCast_y_negative]
  rfl

/-! ### Jacobian coordinates -/

/-- That Jacobian coordinates stand for a point. -/
inductive Represents : Jacobian → curve.Point → Prop where
  | infinity {p : Jacobian} (hz : p.z = 0) : Represents p 0
  | affine {p : Jacobian} {x y : Coordinate} (h : curve.Nonsingular x y)
      (hz : (p.z : Coordinate) ≠ 0) (hx : (p.x : Coordinate) = x * (p.z : Coordinate) ^ 2)
      (hy : (p.y : Coordinate) = y * (p.z : Coordinate) ^ 3) : Represents p (.some x y h)

namespace Represents

theorem z_ne_zero {p : Jacobian} (hz : (p.z : Coordinate) ≠ 0) : p.z ≠ 0 := by
  intro h
  rw [h, Nat.cast_zero] at hz
  exact hz rfl

theorem ofAffine (a : Affine) : Represents (.ofAffine a) a.point := by
  refine .affine _ ?_ ?_ ?_ <;> simp [Jacobian.ofAffine]

/-- The third point on a line, with its sign changed, by the slope of the line. -/
theorem of_slope {p : Jacobian} {x₁ x₂ y₁ slope r : Coordinate}
    (h : curve.Nonsingular (curve.addX x₁ x₂ slope) (curve.addY x₁ x₂ y₁ slope))
    (hz : (p.z : Coordinate) ≠ 0) (hr : r = slope * p.z)
    (hx : (p.x : Coordinate) = r ^ 2 - (x₁ + x₂) * (p.z : Coordinate) ^ 2)
    (hy : (p.y : Coordinate) =
      r * (x₁ * (p.z : Coordinate) ^ 2 - p.x) - y₁ * (p.z : Coordinate) ^ 3) :
    Represents p (.some _ _ h) := by
  have hx' : (p.x : Coordinate) = curve.addX x₁ x₂ slope * (p.z : Coordinate) ^ 2 := by
    rw [hx, hr, addX, curve]
    ring
  refine .affine h hz hx' ?_
  rw [hy, hx', hr, addY, negAddY, negY_curve]
  ring

/-- The tangent rule doubles a point. -/
theorem double {p : Jacobian} {P : curve.Point} (hp : Represents p P) :
    Represents p.double (P + P) := by
  cases hp with
  | infinity hz =>
    rw [add_zero]
    refine .infinity ?_
    simp [Jacobian.double, hz, mul]
  | @affine x y h hz hx hy =>
    have hne : y ≠ 0 := by
      rintro rfl
      have hcurve := equation_curve_iff.1 h.1
      rw [zero_pow two_ne_zero] at hcurve
      exact cube_add_seven_ne_zero x hcurve.symm
    have hdouble : 2 * y ≠ 0 := mul_ne_zero coordinate_two_ne_zero hne
    have hsign : y ≠ curve.negY x y := by
      rw [negY_curve]
      intro hneg
      exact hdouble (by linear_combination hneg)
    have hz' : (p.double.z : Coordinate) = 2 * y * (p.z : Coordinate) ^ 4 := by
      simp only [Jacobian.double, natCast_mul, Nat.cast_ofNat, hy]
      ring
    have hslope : curve.slope x x y y * (2 * y) = 3 * x ^ 2 := by
      have hden : y - curve.negY x y = 2 * y := by
        rw [negY_curve]
        ring
      rw [slope_of_Y_ne rfl hsign, hden, div_mul_cancel₀ _ hdouble, curve]
      ring
    rw [Point.add_self_of_Y_ne hsign]
    refine of_slope _ ?_ (r := 3 * (p.x : Coordinate) ^ 2) ?_ ?_ ?_
    · rw [hz']
      exact mul_ne_zero hdouble (pow_ne_zero 4 hz)
    · rw [hz', hx]
      linear_combination -(p.z : Coordinate) ^ 4 * hslope
    · rw [hz']
      simp only [Jacobian.double, natCast_sub _ (mul_lt _ _).le, natCast_sub _ (add_lt _ _).le,
        natCast_add, natCast_mul, Nat.cast_ofNat, hx, hy]
      ring
    · rw [hz']
      simp only [Jacobian.double, natCast_sub _ (mul_lt _ _).le, natCast_sub _ (add_lt _ _).le,
        natCast_sub _ (sub_lt _ _).le, natCast_add, natCast_mul, Nat.cast_ofNat, hx, hy]
      ring

/-- The chord rule adds up points with different first coordinates. Both points come with the
product of their third coordinates, so that they have the same denominators. -/
theorem chord {p : Jacobian} {x₁ y₁ x₂ y₂ z : Coordinate} {h₁ : curve.Nonsingular x₁ y₁}
    {h₂ : curve.Nonsingular x₂ y₂} (hne : x₁ ≠ x₂) (hz : z ≠ 0)
    (hpz : (p.z : Coordinate) = z * ((x₂ - x₁) * z ^ 2))
    (hpx : (p.x : Coordinate) = ((y₂ - y₁) * z ^ 3) ^ 2 - (x₁ + x₂) * (p.z : Coordinate) ^ 2)
    (hpy : (p.y : Coordinate) = (y₂ - y₁) * z ^ 3 * (x₁ * (p.z : Coordinate) ^ 2 - p.x) -
      y₁ * (p.z : Coordinate) ^ 3) :
    Represents p (.some x₁ y₁ h₁ + .some x₂ y₂ h₂) := by
  have hslope : curve.slope x₁ x₂ y₁ y₂ * (x₁ - x₂) = y₁ - y₂ := by
    rw [slope_of_X_ne hne, div_mul_cancel₀ _ (sub_ne_zero.2 hne)]
  rw [Point.add_of_X_ne hne]
  refine of_slope _ ?_ ?_ hpx hpy
  · rw [hpz]
    exact mul_ne_zero hz (mul_ne_zero (sub_ne_zero.2 hne.symm) (pow_ne_zero 2 hz))
  · rw [hpz]
    linear_combination z ^ 3 * hslope

/-- Adding up Jacobian coordinates adds up what they stand for. -/
theorem sum {p q : Jacobian} {P Q : curve.Point} (hp : Represents p P) (hq : Represents q Q) :
    Represents (p.sum q) (P + Q) := by
  cases hp with
  | infinity hz =>
    rw [Jacobian.sum, if_pos hz, zero_add]
    exact hq
  | @affine x₁ y₁ h₁ hz₁ hx₁ hy₁ =>
    cases hq with
    | infinity hz =>
      rw [Jacobian.sum, if_neg (z_ne_zero hz₁), if_pos hz, add_zero]
      exact .affine h₁ hz₁ hx₁ hy₁
    | @affine x₂ y₂ h₂ hz₂ hx₂ hy₂ =>
      have hz : (p.z : Coordinate) * q.z ≠ 0 := mul_ne_zero hz₁ hz₂
      simp only [Jacobian.sum, if_neg (z_ne_zero hz₁), if_neg (z_ne_zero hz₂)]
      -- the differences of the coordinates, over the same denominators
      have hh : (sub (mul q.x (mul p.z p.z)) (mul p.x (mul q.z q.z)) : Coordinate) =
          (x₂ - x₁) * ((p.z : Coordinate) * q.z) ^ 2 := by
        simp only [natCast_sub _ (mul_lt _ _).le, natCast_mul, hx₁, hx₂]
        ring
      have hr : (sub (mul q.y (mul p.z (mul p.z p.z))) (mul p.y (mul q.z (mul q.z q.z))) :
          Coordinate) = (y₂ - y₁) * ((p.z : Coordinate) * q.z) ^ 3 := by
        simp only [natCast_sub _ (mul_lt _ _).le, natCast_mul, hy₁, hy₂]
        ring
      have hh₀ : sub (mul q.x (mul p.z p.z)) (mul p.x (mul q.z q.z)) = 0 ↔ x₁ = x₂ := by
        rw [← natCast_eq_zero (sub_lt _ _), hh, mul_eq_zero, or_iff_left (pow_ne_zero 2 hz),
          sub_eq_zero, eq_comm]
      have hr₀ : sub (mul q.y (mul p.z (mul p.z p.z))) (mul p.y (mul q.z (mul q.z q.z))) = 0 ↔
          y₁ = y₂ := by
        rw [← natCast_eq_zero (sub_lt _ _), hr, mul_eq_zero, or_iff_left (pow_ne_zero 3 hz),
          sub_eq_zero, eq_comm]
      generalize sub (mul q.x (mul p.z p.z)) (mul p.x (mul q.z q.z)) = h at hh hh₀ ⊢
      generalize sub (mul q.y (mul p.z (mul p.z p.z))) (mul p.y (mul q.z (mul q.z q.z))) = r
        at hr hr₀ ⊢
      rw [if_congr hh₀ (if_congr hr₀ rfl rfl) rfl]
      split
      · rename_i hx
        subst hx
        split
        · rename_i hy
          subst hy
          exact double (.affine h₁ hz₁ hx₁ hy₁)
        · rename_i hy
          have hneg := (Y_eq_of_X_eq h₁.1 h₂.1 rfl).resolve_left hy
          rw [Point.add_of_Y_eq rfl hneg]
          exact .infinity rfl
      · rename_i hne
        refine chord hne hz ?_ ?_ ?_
        · simp only [natCast_mul, hh]
        · simp only [natCast_sub _ (add_lt _ _).le, natCast_add, natCast_mul, Nat.cast_ofNat, hh,
            hr, hx₁]
          ring
        · simp only [natCast_sub _ (mul_lt _ _).le, natCast_sub _ (sub_lt _ _).le, natCast_mul, hh,
            hr, hx₁, hy₁]
          ring

/-- Affine coordinates are found for every point but the one at infinity. -/
theorem toAffine?_cases {p : Jacobian} {P : curve.Point} (hp : Represents p P) :
    p.toAffine? = none ∧ P = 0 ∨ ∃ a, p.toAffine? = some a ∧ a.point = P := by
  cases hp with
  | infinity hz => exact .inl ⟨if_pos hz, rfl⟩
  | @affine x y h hz hx hy =>
    have hx' : (mul p.x (mul (inv p.z) (inv p.z)) : Coordinate) = x := by
      rw [natCast_mul, natCast_mul, natCast_inv, hx]
      field_simp
    have hy' : (mul p.y (mul (mul (inv p.z) (inv p.z)) (inv p.z)) : Coordinate) = y := by
      rw [natCast_mul, natCast_mul, natCast_mul, natCast_inv, hy]
      field_simp
    have hcurve := equation_curve_iff.1 h.1
    rw [← hx', ← hy'] at hcurve
    obtain ⟨a, ha, hax, hay⟩ := Affine.exists_ofCoordinates? (mul_lt _ _) (mul_lt _ _) hcurve
    refine .inr ⟨a, (if_neg (z_ne_zero hz)).trans ha, ?_⟩
    simp only [Affine.point, Point.some.injEq]
    exact ⟨by rw [hax, hx'], by rw [hay, hy']⟩

/-- Keys are added up one by one. -/
theorem foldl_sum {p : Jacobian} {P : curve.Point} (hp : Represents p P) (keys : List Affine) :
    Represents (keys.foldl (fun acc a => acc.sum (.ofAffine a)) p)
      (P + (keys.map Affine.point).sum) := by
  induction keys generalizing p P with
  | nil => simpa using hp
  | cons a keys ih =>
    rw [List.foldl_cons, List.map_cons, List.sum_cons, ← add_assoc]
    exact ih (hp.sum (ofAffine a))

end Represents

/-! ### The backend -/

theorem Affine.combine?_cases (keys : List Affine) :
    combine? keys = none ∧ (keys.map point).sum = 0 ∨
      ∃ a, combine? keys = some a ∧ a.point = (keys.map point).sum := by
  have hzero : Represents .infinity 0 := .infinity rfl
  have h := (hzero.foldl_sum keys).toAffine?_cases
  rwa [zero_add] at h

/-- The suite computes in the group of the curve. -/
def curveBackend : GroupBackend Affine curve.Point where
  element := Affine.point
  element_ne_zero p := Point.some_ne_zero _
  element_injective := Affine.point_injective
  combine?_eq_some := by
    intro keys k _ h
    obtain ⟨hnone, -⟩ | ⟨a, ha, hsum⟩ := Affine.combine?_cases keys
    · cases h.symm.trans hnone
    · obtain rfl := Option.some.inj (h.symm.trans ha)
      exact hsum
  combine?_eq_none := by
    intro keys hlen h
    obtain ⟨-, hsum⟩ | ⟨a, ha, -⟩ := Affine.combine?_cases keys
    · exact ⟨keys, .refl keys, by rintro rfl; simp at hlen, hsum⟩
    · cases h.symm.trans ha
  decode?_flipSign p := by
    refine ⟨p.negative, ?_, p.point_negative⟩
    exact LawfulEncoding.decode?_eq_some_iff.2 p.flipSign_encode

end ThresholdKeygen.Secp256k1
