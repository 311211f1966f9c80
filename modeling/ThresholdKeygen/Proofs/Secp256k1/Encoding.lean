import ThresholdKeygen.Proofs.Bytes
import ThresholdKeygen.Proofs.Point.Laws
import ThresholdKeygen.Proofs.Secp256k1.Field
import ThresholdKeygen.Secp256k1.Key

/-!
# Compressed points

Main statement: the instance of `LawfulEncoding`, a byte string is read as the point for which it is
written and as no other, since the roots of a square have different signs.
-/

namespace ThresholdKeygen.Secp256k1

theorem fieldSize_odd : fieldSize % 2 = 1 := by decide

theorem fieldSize_lt_pow : fieldSize < 256 ^ 32 := by decide

namespace Affine

theorem ofCoordinates?_eq_some_iff {x y : Nat} {p : Affine} :
    ofCoordinates? x y = some p ↔ p.x = x ∧ p.y = y := by
  obtain ⟨px, py, hx, hy, hequation⟩ := p
  rw [ofCoordinates?]
  constructor
  · intro h
    split at h
    · cases h
      exact ⟨rfl, rfl⟩
    · cases h
  · rintro ⟨rfl, rfl⟩
    rw [dif_pos ⟨hx, hy, hequation⟩]

theorem exists_ofCoordinates? {x y : Nat} (hx : x < fieldSize) (hy : y < fieldSize)
    (h : (y : Coordinate) ^ 2 = (x : Coordinate) ^ 3 + 7) :
    ∃ p, ofCoordinates? x y = some p ∧ p.x = x ∧ p.y = y := by
  have hequation : mul y y = add (mul x (mul x x)) 7 := by
    rw [← natCast_inj (mul_lt _ _) (add_lt _ _), natCast_add, natCast_mul, natCast_mul,
      natCast_mul, Nat.cast_ofNat]
    linear_combination h
  exact ⟨⟨x, y, hx, hy, hequation⟩, ofCoordinates?_eq_some_iff.2 ⟨rfl, rfl⟩, rfl, rfl⟩

/-- The equation of the curve in the coordinate field. -/
theorem natCast_equation (p : Affine) :
    (p.y : Coordinate) ^ 2 = (p.x : Coordinate) ^ 3 + 7 := by
  have h := congrArg (Nat.cast : Nat → Coordinate) p.equation
  simp only [natCast_mul, natCast_add, Nat.cast_ofNat] at h
  linear_combination h

theorem y_ne_zero (p : Affine) : p.y ≠ 0 := by
  intro h
  have hequation := p.natCast_equation
  rw [h, Nat.cast_zero, zero_pow two_ne_zero] at hequation
  exact cube_add_seven_ne_zero _ hequation.symm

/-- A first coordinate and a sign belong to one point at most. -/
theorem ofX?_eq_some_iff {x sign : Nat} (hsign : sign < 2) {p : Affine} :
    ofX? x sign = some p ↔ p.x = x ∧ p.y % 2 = sign := by
  have hodd := fieldSize_odd
  have hy := p.y_lt
  have hne := p.y_ne_zero
  constructor
  · intro h
    rw [ofX?] at h
    split at h
    · cases h
    · obtain ⟨r, hr, hp⟩ := Option.bind_eq_some_iff.1 h
      obtain ⟨hx, hroot⟩ := ofCoordinates?_eq_some_iff.1 hp
      refine ⟨hx, ?_⟩
      split at hroot <;> omega
  · rintro ⟨rfl, rfl⟩
    have hequation : (p.y : Coordinate) ^ 2 = (add (mul p.x (mul p.x p.x)) 7 : Nat) := by
      rw [p.natCast_equation, natCast_add, natCast_mul, natCast_mul, Nat.cast_ofNat]
      ring
    obtain ⟨r, hr, hlt, hroot⟩ := sqrt?_natCast_sq hequation
    rw [ofX?, if_neg (not_le.2 p.x_lt)]
    refine Option.bind_eq_some_iff.2 ⟨r, hr, ofCoordinates?_eq_some_iff.2 ⟨rfl, ?_⟩⟩
    obtain hroot | hroot := hroot
    · rw [(natCast_inj hlt hy).1 hroot, if_pos rfl]
    · obtain ⟨rfl, hzero⟩ | ⟨rfl, -⟩ := eq_of_natCast_eq_neg hlt hy hroot
      · exact absurd hzero hne
      · rw [if_neg (by omega)]
        omega

/-! ### Encodings -/

theorem encode_eq_iff {p : Affine} {sign : UInt8} {rest : Bytes} :
    encode p = sign :: rest ↔
      sign = UInt8.ofNat (2 + p.y % 2) ∧ rest.length = 32 ∧ Bytes.toNat rest = p.x := by
  rw [encode, List.cons.injEq, eq_comm]
  refine and_congr_right fun _ => ⟨?_, ?_⟩
  · rintro rfl
    exact ⟨Bytes.length_ofNat _ _, Bytes.toNat_ofNat (p.x_lt.trans fieldSize_lt_pow)⟩
  · rintro ⟨hlength, hx⟩
    rw [← hx, ← hlength, Bytes.ofNat_toNat]

/-- The two signs. -/
theorem sign_cases (p : Affine) : UInt8.ofNat (2 + p.y % 2) = 2 ∧ p.y % 2 = 0 ∨
    UInt8.ofNat (2 + p.y % 2) = 3 ∧ p.y % 2 = 1 := by
  obtain h | h := Nat.mod_two_eq_zero_or_one p.y
  · exact .inl ⟨by rw [h]; rfl, h⟩
  · exact .inr ⟨by rw [h]; rfl, h⟩

theorem decode?_cons_eq_some_iff {sign : UInt8} {rest : Bytes} {p : Affine} :
    decode? (sign :: rest) = some p ↔ encode p = sign :: rest := by
  rw [encode_eq_iff, decode?]
  constructor
  · intro h
    split at h
    · rename_i hform
      obtain ⟨hlength, rfl | rfl⟩ := hform
      · obtain ⟨hx, hy⟩ := (ofX?_eq_some_iff (by decide)).1 h
        exact ⟨by rw [hy]; rfl, hlength, hx.symm⟩
      · obtain ⟨hx, hy⟩ := (ofX?_eq_some_iff (by decide)).1 h
        exact ⟨by rw [hy]; rfl, hlength, hx.symm⟩
    · cases h
  · rintro ⟨rfl, hlength, hx⟩
    obtain ⟨hsign, hy⟩ | ⟨hsign, hy⟩ := p.sign_cases
    · rw [hsign, if_pos ⟨hlength, .inl rfl⟩]
      exact (ofX?_eq_some_iff (by decide)).2 ⟨hx.symm, hy⟩
    · rw [hsign, if_pos ⟨hlength, .inr rfl⟩]
      exact (ofX?_eq_some_iff (by decide)).2 ⟨hx.symm, hy⟩

instance : LawfulEncoding Affine where
  length_encode p := by
    change (encode p).length = _
    rw [encode, List.length_cons, Bytes.length_ofNat]
    rfl
  sign_encode p := by
    change (encode p).head? = _ ∨ (encode p).head? = _
    rw [encode, List.head?_cons]
    exact p.sign_cases.imp (fun h => congrArg some h.1) fun h => congrArg some h.1
  decode?_eq_some_iff := by
    intro bytes p
    cases bytes with
    | nil => exact ⟨nofun, nofun⟩
    | cons sign rest => exact decode?_cons_eq_some_iff.trans eq_comm

/-! ### Negatives -/

/-- The point with the other root as its second coordinate. -/
def negative (p : Affine) : Affine where
  x := p.x
  y := fieldSize - p.y
  x_lt := p.x_lt
  y_lt := Nat.sub_lt fieldSize_prime.pos (Nat.pos_of_ne_zero p.y_ne_zero)
  equation := by
    rw [← p.equation, ← natCast_inj (mul_lt _ _) (mul_lt _ _), natCast_mul, natCast_mul,
      Nat.cast_sub p.y_lt.le, ZMod.natCast_self, zero_sub, neg_mul_neg]

theorem natCast_y_negative (p : Affine) : (p.negative.y : Coordinate) = -p.y := by
  rw [negative, Nat.cast_sub p.y_lt.le, ZMod.natCast_self, zero_sub]

theorem flipSign_encode (p : Affine) : Point.flipSign (encode p) = encode p.negative := by
  have hodd := fieldSize_odd
  have hlt := p.y_lt
  have hparity : p.negative.y % 2 = 1 - p.y % 2 := by
    change (fieldSize - p.y) % 2 = _
    omega
  rw [encode, encode, Point.flipSign, hparity]
  obtain ⟨-, hy⟩ | ⟨-, hy⟩ := p.sign_cases
  · rw [hy]
    rfl
  · rw [hy]
    rfl

end Affine

end ThresholdKeygen.Secp256k1
