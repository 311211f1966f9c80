import ThresholdKeygen.Proofs.Bytes
import ThresholdKeygen.Proofs.Point.Laws

/-!
# The additive group of scalars as a suite

A backend whose keys are the nonzero scalars under addition, generated by one. An element and its
negative have the same magnitude and different signs. It meets all laws of suites, so that these are
consistent.
-/

namespace ThresholdKeygen

namespace Scalar

@[simp] theorem val_zero : (0 : Scalar).val = 0 := rfl

theorem val_ofNat {n : Nat} (h : n < groupOrder) : (ofNat n).val = n := Nat.mod_eq_of_lt h

theorem val_pos {a : Scalar} (ha : a ≠ 0) : 0 < a.val :=
  Nat.pos_of_ne_zero fun h => ha (ext h)

theorem val_neg {a : Scalar} (ha : a ≠ 0) : (-a).val = groupOrder - a.val := by
  have hpos := val_pos ha
  have hlt := a.val_lt
  change (groupOrder - a.val) % groupOrder = _
  exact Nat.mod_eq_of_lt (by omega)

theorem ofNat_ne_zero {n : Nat} (h₀ : 0 < n) (h : n < groupOrder) : ofNat n ≠ 0 := by
  intro hzero
  rw [← val_ofNat h, hzero, val_zero] at h₀
  exact absurd h₀ (Nat.lt_irrefl 0)

/-- The distance of a scalar from zero, in either direction. -/
def magnitude (a : Scalar) : Nat :=
  if a.val ≤ groupOrder / 2 then a.val else groupOrder - a.val

theorem magnitude_le (a : Scalar) : a.magnitude ≤ groupOrder / 2 := by
  unfold magnitude
  split <;> omega

end Scalar

/-- A nonzero scalar, as a multiple of the generator one. -/
structure ResidueKey where
  factor : Scalar
  ne_zero : factor ≠ 0
deriving DecidableEq

namespace ResidueKey

/-- The key of a scalar that is not zero. -/
def ofScalar? (s : Scalar) : Option ResidueKey :=
  if h : s ≠ 0 then some ⟨s, h⟩ else none

theorem ofScalar?_eq_some_iff {s : Scalar} {k : ResidueKey} :
    ofScalar? s = some k ↔ s = k.factor := by
  obtain ⟨t, ht⟩ := k
  unfold ofScalar?
  split
  · simp
  · rename_i hs
    obtain rfl := not_not.1 hs
    simpa using Ne.symm ht

/-- The sign, and the magnitude in 32 bytes. -/
def encode (k : ResidueKey) : Bytes :=
  (if k.factor.val ≤ groupOrder / 2 then 2 else 3) :: Bytes.ofNat 32 k.factor.magnitude

/-- Reads a sign and a magnitude of at most half the group order. -/
def decode? : Bytes → Option ResidueKey
  | [] => none
  | sign :: rest =>
    if rest.length = 32 ∧ Bytes.toNat rest ≤ groupOrder / 2 then
      if sign = 2 then ofScalar? (Scalar.ofNat (Bytes.toNat rest))
      else if sign = 3 then ofScalar? (-Scalar.ofNat (Bytes.toNat rest))
      else none
    else none

instance : Suite ResidueKey where
  ofScalar s := (ofScalar? s).getD ⟨1, one_ne_zero⟩
  scale s k := (ofScalar? (s * k.factor)).getD ⟨1, one_ne_zero⟩
  combine? keys := ofScalar? (Scalar.sum (keys.map factor))
  encode := encode
  decode? := decode?
  hash := Sha256.hash

/-! ### The laws -/

theorem half_lt : groupOrder / 2 < groupOrder := by decide

theorem half_lt_pow : groupOrder / 2 < 256 ^ 32 := by decide

theorem double_half : 2 * (groupOrder / 2) + 1 = groupOrder := by decide

theorem ofScalar_eq {s : Scalar} (hs : s ≠ 0) : Suite.ofScalar s = (⟨s, hs⟩ : ResidueKey) := by
  change (ofScalar? s).getD _ = _
  rw [ofScalar?, dif_pos hs, Option.getD_some]

theorem decode?_encode (k : ResidueKey) : decode? (encode k) = some k := by
  have hread : Bytes.toNat (Bytes.ofNat 32 k.factor.magnitude) = k.factor.magnitude :=
    Bytes.toNat_ofNat (Nat.lt_of_le_of_lt (Scalar.magnitude_le _) half_lt_pow)
  have hmagnitude := Scalar.magnitude_le k.factor
  have hpos := Scalar.val_pos k.ne_zero
  have hlt := k.factor.val_lt
  rw [encode, decode?, if_pos ⟨Bytes.length_ofNat _ _, by rwa [hread]⟩, hread]
  by_cases hle : k.factor.val ≤ groupOrder / 2
  · rw [if_pos hle, if_pos rfl, ofScalar?_eq_some_iff, Scalar.magnitude, if_pos hle]
    exact Scalar.ext (Scalar.val_ofNat k.factor.val_lt)
  · have hne : Scalar.ofNat (groupOrder - k.factor.val) ≠ 0 :=
      Scalar.ofNat_ne_zero (by omega) (by omega)
    rw [if_neg hle, if_neg (by decide), if_pos rfl, ofScalar?_eq_some_iff, Scalar.magnitude,
      if_neg hle]
    apply Scalar.ext
    rw [Scalar.val_neg hne, Scalar.val_ofNat (by omega)]
    omega

theorem encode_of_decode? {bytes : Bytes} {k : ResidueKey} (h : decode? bytes = some k) :
    bytes = encode k := by
  match bytes with
  | [] => simp [decode?] at h
  | sign :: rest =>
    rw [decode?] at h
    split at h
    · rename_i hrest
      obtain ⟨hlen, hle⟩ := hrest
      have hlt := Nat.lt_of_le_of_lt hle half_lt
      have hwrite : Bytes.ofNat 32 (Bytes.toNat rest) = rest := hlen ▸ Bytes.ofNat_toNat rest
      split at h
      · rename_i hsign
        have hval : k.factor.val = Bytes.toNat rest := by
          rw [← ofScalar?_eq_some_iff.1 h, Scalar.val_ofNat hlt]
        rw [encode, Scalar.magnitude, hval, if_pos hle, if_pos hle, hwrite, hsign]
      · split at h
        · rename_i hsign
          have hk := ofScalar?_eq_some_iff.1 h
          have hne : Scalar.ofNat (Bytes.toNat rest) ≠ 0 := by
            rw [← neg_ne_zero, hk]
            exact k.ne_zero
          have hpos := Scalar.val_pos hne
          have hval : k.factor.val = groupOrder - Bytes.toNat rest := by
            rw [← hk, Scalar.val_neg hne, Scalar.val_ofNat hlt]
          have hgt : ¬ groupOrder - Bytes.toNat rest ≤ groupOrder / 2 := by
            have := double_half
            omega
          rw [encode, Scalar.magnitude, hval, if_neg hgt, if_neg hgt,
            Nat.sub_sub_self hlt.le, hwrite, hsign]
        · simp at h
    · simp at h

/-- The negative has the other sign and the same magnitude. -/
theorem flipSign_encode {s : Scalar} (hs : s ≠ 0) :
    Point.flipSign (encode ⟨s, hs⟩) = encode ⟨-s, neg_ne_zero.2 hs⟩ := by
  have hpos := Scalar.val_pos hs
  have hlt := s.val_lt
  have hdouble := double_half
  by_cases hle : s.val ≤ groupOrder / 2
  · have hgt : ¬ groupOrder - s.val ≤ groupOrder / 2 := by omega
    simp only [encode, Scalar.magnitude, Scalar.val_neg hs, if_pos hle, if_neg hgt,
      Nat.sub_sub_self hlt.le]
    rfl
  · have hle' : groupOrder - s.val ≤ groupOrder / 2 := by omega
    simp only [encode, Scalar.magnitude, Scalar.val_neg hs, if_neg hle, if_pos hle']
    rfl

theorem factor_ofScalar {s : Scalar} (hs : s ≠ 0) :
    (Suite.ofScalar s : ResidueKey).factor = s := by
  rw [ofScalar_eq hs]

/-- What the sum of some multiples of the generator is computed from. -/
theorem combine?_ofScalar {factors : List Scalar} (hne : ∀ s ∈ factors, s ≠ 0) :
    Suite.combine? (factors.map (Suite.ofScalar : Scalar → ResidueKey)) =
      ofScalar? factors.sum := by
  change ofScalar? (Scalar.sum ((factors.map Suite.ofScalar).map factor)) = _
  rw [Scalar.sum_eq, List.map_map]
  congr 2
  refine (List.map_congr_left fun s hs => ?_).trans (List.map_id factors)
  exact factor_ofScalar (hne s hs)

instance : LawfulSuite ResidueKey where
  length_encode k := by
    change (encode k).length = _
    rw [encode, List.length_cons, Bytes.length_ofNat]
    rfl
  sign_encode k := by
    change (encode k).head? = _ ∨ (encode k).head? = _
    unfold encode
    split
    · exact .inl rfl
    · exact .inr rfl
  decode?_eq_some_iff := by
    intro bytes k
    constructor
    · exact encode_of_decode?
    · rintro rfl
      exact decode?_encode k
  exists_ofScalar k := ⟨k.factor, k.ne_zero, ofScalar_eq k.ne_zero⟩
  ofScalar_injOn := by
    intro s t hs ht h
    rw [← factor_ofScalar hs, h, factor_ofScalar ht]
  scale_ofScalar := by
    intro s t hs ht
    change (ofScalar? (s * (Suite.ofScalar t : ResidueKey).factor)).getD _ = _
    rw [factor_ofScalar ht]
    rfl
  combine?_eq_some := by
    intro factors k hlen hne h
    rw [combine?_ofScalar hne, ofScalar?_eq_some_iff] at h
    refine ⟨h ▸ k.ne_zero, ?_⟩
    rw [h, ofScalar_eq k.ne_zero]
  combine?_eq_none := by
    intro factors hlen hne h
    refine ⟨factors, List.prefix_rfl, by rintro rfl; simp at hlen, ?_⟩
    rw [combine?_ofScalar hne] at h
    by_contra hsum
    rw [ofScalar?, dif_pos hsum] at h
    exact absurd h (by simp)
  decode?_flipSign := by
    intro s hs
    rw [ofScalar_eq hs, ofScalar_eq (neg_ne_zero.2 hs)]
    change decode? (Point.flipSign (encode _)) = _
    rw [flipSign_encode hs, decode?_encode]

end ResidueKey

end ThresholdKeygen
