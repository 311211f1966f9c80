import Mathlib.Data.Set.Function
import ThresholdKeygen.Proofs.Interpolation.Verdicts
import ThresholdKeygen.Proofs.Participant.Dealing
import ThresholdKeygen.Proofs.Participant.Progress

/-!
# What shares tell of a secret

A polynomial with as many coefficients as the threshold hides its constant term from fewer share
holders than that. Main statement: `threshold_secrecy`, the shares at one index less than the
threshold are equally consistent with every secret, each with exactly one polynomial, and the shares
at as many indices as the threshold leave only one polynomial. This is about all polynomials with
that many coefficients. Those that are drawn have no coefficient zero, and it is not said that the
one polynomial for another secret could have been drawn too.
-/

namespace ThresholdKeygen

open Polynomial

variable {K : Type} [Suite K] {σ : Type} [RandomSource σ]

/-! ### Lists of coefficients -/

namespace Coefficients

theorem coeff_toPolynomial (coeffs : Coefficients) (k : Nat) :
    coeffs.toPolynomial.coeff k = coeffs.getD k 0 := by
  induction coeffs generalizing k with
  | nil => simp [toPolynomial]
  | cons c coeffs ih =>
    cases k with
    | zero => simp [toPolynomial]
    | succ k => simp [toPolynomial, ih]

/-- Among lists of one length, a polynomial has only one list of coefficients. -/
theorem eq_of_toPolynomial_eq {coeffs other : Coefficients} (hlength : coeffs.length = other.length)
    (h : coeffs.toPolynomial = other.toPolynomial) : coeffs = other := by
  rw [← map_range_getD coeffs, ← map_range_getD other, hlength]
  refine List.map_congr_left fun k _ => ?_
  rw [← coeff_toPolynomial, ← coeff_toPolynomial, h]

theorem exists_toPolynomial_eq {f : Scalar[X]} {count : Nat} (h : f.degree < count) :
    ∃ coeffs : Coefficients, coeffs.length = count ∧ coeffs.toPolynomial = f := by
  refine ⟨(List.range count).map f.coeff, by simp, Polynomial.ext fun k => ?_⟩
  rw [coeff_toPolynomial]
  by_cases hk : k < count
  · simp [hk]
  · have hcoeff : f.coeff k = 0 :=
      coeff_eq_zero_of_degree_lt (h.trans_le (by exact_mod_cast not_lt.1 hk))
    simp [hk, hcoeff]

/-! ### Shares -/

/-- The shares for some indices. -/
def sharesAt (coeffs : Coefficients) (indices : List Int) : List Scalar :=
  indices.map fun i => coeffs.evaluate (Scalar.ofInt i)

@[simp] theorem length_sharesAt (coeffs : Coefficients) (indices : List Int) :
    (coeffs.sharesAt indices).length = indices.length := by
  simp [sharesAt]

/-- The value at zero is the constant term. -/
theorem sharesAt_zero_cons (coeffs : Coefficients) (indices : List Int) :
    coeffs.sharesAt (0 :: indices) = coeffs.headD 0 :: coeffs.sharesAt indices := by
  rw [sharesAt, List.map_cons, Scalar.ofInt_eq_intCast, Int.cast_zero, evaluate_zero]
  rfl

/-- Polynomials with the same shares at as many incongruent indices as they have coefficients. -/
theorem eq_of_sharesAt_eq {indices : List Int} (h : Incongruent indices)
    {coeffs other : Coefficients} (hcoeffs : coeffs.length = indices.length)
    (hother : other.length = indices.length)
    (hshares : coeffs.sharesAt indices = other.sharesAt indices) : coeffs = other := by
  have hdistinct := incongruent_iff.1 h
  have hcard : indices.toFinset.card = indices.length := List.toFinset_card_of_nodup h.nodup
  refine eq_of_toPolynomial_eq (hcoeffs.trans hother.symm) ?_
  refine eq_of_degrees_lt_of_eval_index_eq indices.toFinset (injOn_of_distinct hdistinct) ?_ ?_
    fun i hi => ?_
  · rw [hcard, ← hcoeffs]
    exact coeffs.degree_toPolynomial_lt
  · rw [hcard, ← hother]
    exact other.degree_toPolynomial_lt
  · rw [eval_toPolynomial, eval_toPolynomial]
    exact List.map_inj_left.1 hshares i (List.mem_toFinset.1 hi)

/-- Shares at incongruent indices can be any scalars. -/
theorem exists_sharesAt_eq {indices : List Int} (hne : indices ≠ []) (h : Incongruent indices)
    {shares : List Scalar} (hlength : shares.length = indices.length) :
    ∃ coeffs : Coefficients, coeffs.length = indices.length ∧ coeffs.sharesAt indices = shares := by
  have hfst : (indices.zip shares).map Prod.fst = indices := List.map_fst_zip hlength.ge
  have hpoints : indices.zip shares ≠ [] := by
    rintro hnil
    rw [hnil] at hfst
    exact hne hfst.symm
  obtain ⟨f, hdegree, hvalue, -⟩ := exists_interpolant hpoints (hfst.symm ▸ h)
  rw [List.length_zip, hlength, min_self] at hdegree
  obtain ⟨coeffs, hcount, rfl⟩ := exists_toPolynomial_eq hdegree
  refine ⟨coeffs, hcount, ?_⟩
  calc coeffs.sharesAt indices
    _ = (indices.zip shares).map fun point => coeffs.toPolynomial.eval (point.1 : Scalar) := by
      rw [sharesAt]
      conv_lhs => rw [← hfst]
      simp only [List.map_map, eval_toPolynomial]
      rfl
    _ = (indices.zip shares).map Prod.snd := List.map_congr_left hvalue
    _ = shares := List.map_snd_zip hlength.le

end Coefficients

/-! ### Share holders -/

/-- That some indices are different ones of `1, …, n`. -/
structure ShareIndices (n : Int) (indices : List Int) : Prop where
  nodup : indices.Nodup
  range : ∀ x ∈ indices, 1 ≤ x ∧ x ≤ n

section Indices

variable {n : Int} {indices : List Int}

theorem ShareIndices.incongruent (h : ShareIndices n indices) (hn : n < groupOrder) :
    Incongruent indices :=
  incongruent_iff.2 (Scalar.nodup_map_intCast hn h.nodup h.range)

/-- Zero, where the secret is, is not congruent to any share index. -/
theorem ShareIndices.incongruent_zero_cons (h : ShareIndices n indices) (hn : n < groupOrder) :
    Incongruent (0 :: indices) := by
  refine List.pairwise_cons.2 ⟨fun x hx hmod => ?_, h.incongruent hn⟩
  have hrange := h.range x hx
  exact Scalar.intCast_ne_of_lt le_rfl (by omega) (by omega) (intCast_eq_iff_modEq.2 hmod)

end Indices

namespace Coefficients

/-- That a polynomial has a number of coefficients of which the first one is a given secret. -/
structure Hides (threshold : Nat) (secret : Scalar) (coeffs : Coefficients) : Prop where
  length_eq : coeffs.length = threshold
  head?_eq : coeffs.head? = some secret

/-- Sampling gives polynomials with one coefficient more than the degree, with the constant term
asked for. -/
theorem succeeds_sample_hides (who : Int) {threshold : Nat} (ht : 1 ≤ threshold)
    (constant : Option Scalar) :
    Succeeds (sample who (threshold - 1) constant : ExceptT Error (StateM σ) Coefficients)
      fun coeffs => coeffs.length = threshold ∧
        ∀ secret, constant = some secret → coeffs.Hides threshold secret := by
  cases constant with
  | none => exact (succeeds_sample who ht).mono fun coeffs h => ⟨h.1, nofun⟩
  | some c =>
    have hdegree : ((threshold : Int) - 1).toNat + 1 = threshold := by omega
    rw [sample, if_neg (by omega)]
    refine .bind (.mono (.lift (always_drawScalars who _)) fun scalars h => .pure ?_)
    have hlength : (c :: scalars).length = threshold := by rw [List.length_cons, h.1, hdegree]
    refine ⟨hlength, ?_⟩
    rintro _ ⟨rfl⟩
    exact ⟨hlength, rfl⟩

/-- A secret is a share for the index zero. -/
theorem hides_and_sharesAt_iff {secret : Scalar} {coeffs : Coefficients} {indices : List Int}
    {shares : List Scalar} :
    coeffs.Hides (indices.length + 1) secret ∧ coeffs.sharesAt indices = shares ↔
      coeffs.length = (0 :: indices).length ∧
        coeffs.sharesAt (0 :: indices) = secret :: shares := by
  rw [sharesAt_zero_cons, List.cons.injEq, List.length_cons, ← and_assoc]
  refine and_congr_left fun _ => ⟨?_, ?_⟩
  · rintro ⟨hlength, hhead⟩
    exact ⟨hlength, by rw [List.headD_eq_head?_getD, hhead, Option.getD_some]⟩
  · rintro ⟨hlength, rfl⟩
    obtain ⟨c, coeffs, rfl⟩ := List.exists_cons_of_length_eq_add_one hlength
    exact ⟨hlength, rfl⟩

end Coefficients

section Views

variable {threshold : Nat} {n : Int} {indices : List Int} (hn : n < groupOrder)
  (h : ShareIndices n indices) (hcount : indices.length + 1 = threshold)

include hn h hcount

/-- Whatever one share holder less than the threshold sees, any secret can be behind it, with one
polynomial. -/
theorem existsUnique_hides (secret : Scalar) {shares : List Scalar}
    (hlength : shares.length = indices.length) :
    ∃! coeffs : Coefficients, coeffs.Hides threshold secret ∧ coeffs.sharesAt indices = shares := by
  subst hcount
  have hapart := h.incongruent_zero_cons hn
  have hlengths : (secret :: shares).length = (0 :: indices).length := by simpa using hlength
  obtain ⟨coeffs, hcoeffs, hshares⟩ :=
    Coefficients.exists_sharesAt_eq (List.cons_ne_nil _ _) hapart hlengths
  refine ⟨coeffs, Coefficients.hides_and_sharesAt_iff.2 ⟨hcoeffs, hshares⟩, fun other hother => ?_⟩
  obtain ⟨hother, hothers⟩ := Coefficients.hides_and_sharesAt_iff.1 hother
  exact Coefficients.eq_of_sharesAt_eq hapart hother hcoeffs (hothers.trans hshares.symm)

theorem bijOn_sharesAt (secret : Scalar) :
    Set.BijOn (Coefficients.sharesAt · indices) {coeffs | coeffs.Hides threshold secret}
      {shares | shares.length = indices.length} := by
  refine ⟨fun coeffs _ => coeffs.length_sharesAt indices, fun coeffs hcoeffs other hother heq => ?_,
    fun shares hshares => ?_⟩
  · exact (existsUnique_hides hn h hcount secret (other.length_sharesAt indices)).unique
      ⟨hcoeffs, heq⟩ ⟨hother, rfl⟩
  · obtain ⟨coeffs, hcoeffs, -⟩ := existsUnique_hides hn h hcount secret hshares
    exact ⟨coeffs, hcoeffs⟩

/-- Whoever does not see all shares cannot tell polynomials with one secret from those with another
one: they come in pairs that look the same. -/
theorem exists_equiv_hides (secret secret' : Scalar) :
    ∃ exchange : {coeffs : Coefficients // coeffs.Hides threshold secret} ≃
        {coeffs : Coefficients // coeffs.Hides threshold secret'},
      ∀ coeffs, (exchange coeffs).val.sharesAt indices = coeffs.val.sharesAt indices := by
  have hviews := bijOn_sharesAt hn h hcount secret
  have hviews' := bijOn_sharesAt hn h hcount secret'
  refine ⟨(hviews.equiv _).trans (hviews'.equiv _).symm, fun coeffs => ?_⟩
  exact congrArg Subtype.val ((hviews'.equiv _).apply_symm_apply (hviews.equiv _ coeffs))

end Views

/-- As many shares as the threshold give the secret away. -/
theorem interpolate_sharesAt {n : Int} (hn : n < groupOrder) {indices : List Int}
    (h : ShareIndices n indices) (hne : indices ≠ []) {coeffs : Coefficients}
    (hlength : coeffs.length = indices.length) :
    interpolate (indices.zip (coeffs.sharesAt indices)) 0 = .ok (coeffs.headD 0) := by
  have hdegree : coeffs.toPolynomial.degree < indices.length :=
    hlength ▸ coeffs.degree_toPolynomial_lt
  have hvalue := interpolate_values (incongruent_iff.1 (h.incongruent hn)) hne hdegree 0
  simp only [Coefficients.eval_toPolynomial, Int.cast_zero, Coefficients.evaluate_zero] at hvalue
  rw [Coefficients.sharesAt, List.zip, List.zipWith_map_right, List.zipWith_self]
  exact hvalue

/-! ### Dealers -/

namespace Participant

variable {p : Participant K}

theorem Unforced.length_polynomial (h : p.Unforced) :
    (p.polynomial.length : Int) = p.threshold := by
  have hlength := h.grounded.length_points p.position _ h.grounded.own_eq
  simpa [Commitment.ofCoefficients, Coefficients.commit] using hlength

/-- What a participant hands out are values of its polynomial. -/
theorem Unforced.mapM_shareFor (h : p.Unforced) (hstage : .sharesDistributed ≤ p.stage)
    {indices : List Int} (hrange : ∀ x ∈ indices, 1 ≤ x ∧ x ≤ p.n) :
    indices.mapM p.shareFor = .ok (p.polynomial.sharesAt indices) := by
  refine mapM_eq_ok fun x hx => ?_
  obtain ⟨h₁, h₂⟩ := hrange x hx
  obtain ⟨share, hshare⟩ := Option.isSome_iff_exists.1
    (h.grounded.shows .sharesDistributed hstage x h₁ h₂)
  rw [shareFor, checkIndex, if_pos ⟨h₁, h₂⟩, ok_bind, hshare, h.grounded.shareOut_eq x share hshare]
  rfl

end Participant

/-! ### Secrecy -/

/-- What the shares for `1, …, n` tell of the secret of a polynomial that has as many coefficients
as the threshold. -/
structure ThresholdSecrecy (K : Type) [Suite K] (threshold : Nat) (n : Int) : Prop where
  /-- Such polynomials are what is drawn, for a given secret or a random one. -/
  sample_hides {σ : Type} [RandomSource σ] (who : Int) (constant : Option Scalar) :
    Succeeds (Coefficients.sample who (threshold - 1) constant : ExceptT Error (StateM σ) _)
      fun coeffs => coeffs.length = threshold ∧
        ∀ secret, constant = some secret → coeffs.Hides threshold secret
  /-- Their values are what is dealt. -/
  shareFor_eq (p : Participant K) (hp : p.Unforced) (hthreshold : p.threshold = threshold)
    (hn : p.n = n) (hstage : .sharesDistributed ≤ p.stage) :
    p.polynomial.length = threshold ∧ ∀ indices, ShareIndices n indices →
      indices.mapM p.shareFor = .ok (p.polynomial.sharesAt indices)
  /-- With one index less than the threshold, there is one polynomial for any other secret. -/
  alternative (indices : List Int) (h : ShareIndices n indices)
    (hcount : indices.length + 1 = threshold) (coeffs : Coefficients)
    (hlength : coeffs.length = threshold) (secret : Scalar) :
    ∃! other : Coefficients,
      other.Hides threshold secret ∧ other.sharesAt indices = coeffs.sharesAt indices
  /-- Every secret has the same views, each from one polynomial. -/
  views (indices : List Int) (h : ShareIndices n indices) (hcount : indices.length + 1 = threshold)
    (secret : Scalar) : Set.BijOn (Coefficients.sharesAt · indices)
      {coeffs | coeffs.Hides threshold secret} {shares | shares.length = indices.length}
  exchange (indices : List Int) (h : ShareIndices n indices)
    (hcount : indices.length + 1 = threshold) (secret secret' : Scalar) :
    ∃ exchange : {coeffs : Coefficients // coeffs.Hides threshold secret} ≃
        {coeffs : Coefficients // coeffs.Hides threshold secret'},
      ∀ coeffs, (exchange coeffs).val.sharesAt indices = coeffs.val.sharesAt indices
  /-- With as many indices as the threshold there is no other polynomial. -/
  determined (indices : List Int) (h : ShareIndices n indices) (hcount : indices.length = threshold)
    (coeffs other : Coefficients) (hlength : coeffs.length = threshold)
    (hlength' : other.length = threshold)
    (hshares : coeffs.sharesAt indices = other.sharesAt indices) : coeffs = other
  interpolate_eq (indices : List Int) (h : ShareIndices n indices)
    (hcount : indices.length = threshold) (secret : Scalar) (coeffs : Coefficients)
    (hhides : coeffs.Hides threshold secret) :
    interpolate (indices.zip (coeffs.sharesAt indices)) 0 = .ok secret

/-- Fewer share holders than the threshold have shares that fit every secret equally well, and as
many learn all of it. -/
theorem threshold_secrecy {threshold : Nat} {n : Int} (ht : 1 ≤ threshold) (hn : n < groupOrder) :
    ThresholdSecrecy K threshold n where
  sample_hides who := Coefficients.succeeds_sample_hides who ht
  shareFor_eq p hp hthreshold hn' hstage := by
    subst hn'
    refine ⟨?_, fun indices h => hp.mapM_shareFor hstage h.range⟩
    exact_mod_cast hp.length_polynomial.trans hthreshold
  alternative indices h hcount coeffs _ secret :=
    existsUnique_hides hn h hcount secret (coeffs.length_sharesAt indices)
  views indices h hcount secret := bijOn_sharesAt hn h hcount secret
  exchange indices h hcount secret secret' := exists_equiv_hides hn h hcount secret secret'
  determined indices h hcount coeffs other hlength hlength' hshares := by
    subst hcount
    exact Coefficients.eq_of_sharesAt_eq (h.incongruent hn) hlength hlength' hshares
  interpolate_eq indices h hcount secret coeffs hhides := by
    subst hcount
    have hne : indices ≠ [] := List.ne_nil_of_length_pos ht
    rw [interpolate_sharesAt hn h hne hhides.length_eq, List.headD_eq_head?_getD, hhides.head?_eq]
    rfl

/-- Two of three shares of a polynomial of degree two, and a secret that was not shared. -/
theorem exists_threshold_secrecy :
    (∃! other : Coefficients, other.Hides 3 7 ∧
      other.sharesAt [3, 1] = Coefficients.sharesAt [30, 3, 1] [3, 1]) ∧
    interpolate [(3, 48), (1, 34), (2, 40)] 0 = .ok 30 := by
  have h : ThresholdSecrecy ResidueKey 3 3 := threshold_secrecy (by decide) (by decide)
  refine ⟨h.alternative [3, 1] ⟨by decide, by decide⟩ rfl [30, 3, 1] rfl 7, ?_⟩
  exact h.interpolate_eq [3, 1, 2] ⟨by decide, by decide⟩ rfl 30 [30, 3, 1] ⟨rfl, rfl⟩

end ThresholdKeygen
