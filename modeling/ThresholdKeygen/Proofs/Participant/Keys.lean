import ThresholdKeygen.Proofs.Participant.Dealing

/-!
# Keys of honest participants

From signing shares to the group key. An honest participant has announced the public shares of some
indices; with a public map it publishes those of all others, and then derives the group key.
-/

namespace ThresholdKeygen.Participant

variable {K : Type} [Suite K] {s : Sharing} {n x : Int} {p : Participant K}

/-! ### Public maps -/

/-- What a participant needs to come by the public maps. -/
structure Equipped (s : Sharing) (n : Int) (p : Participant K) : Prop where
  n_eq : p.n = n
  consistent : p.Consistent s
  le_stage : .commitmentsExchanged ≤ p.stage
  powerMap : p.powerMap.isSome

/-- The participant with both public maps of a sharing. -/
def withPublicMaps (s : Sharing) (n : Int) (p : Participant K) : Participant K :=
  p.withMaps (some s.jointCommitment) (some (s.shareMap n))

theorem Equipped.deriveMaps_eq [LawfulSuite K] (h : p.Equipped s n) {joint shares : Bytes}
    (hjoint : (s.jointCommitment : JointCommitment K).toBytes = .ok joint)
    (hshares : (s.shareMap n : ShareMap K).toBytes = .ok shares) :
    ∃ p', p.deriveJoint = (.ok s.jointCommitment, p') ∧
      p'.deriveShareMap = (.ok (s.shareMap n), p.withPublicMaps s n) := by
  obtain ⟨rfl, hconsistent, hstage, hpowers⟩ := h
  obtain ⟨m, hm⟩ := Option.isSome_iff_exists.1 hpowers
  exact ⟨_, hconsistent.deriveJoint_eq hstage hjoint,
    hconsistent.consistent_joint.deriveShareMap_eq hstage hm rfl hshares⟩

/-! ### Public shares -/

/-- An honest participant that has signing shares and has announced the public shares of its own
indices. -/
structure Announced (s : Sharing) (n : Int) (own : Int → Int → Prop) (x : Int)
    (p : Participant K) : Prop extends Honest s n x p where
  le_stage : .signingShareComputed ≤ p.stage
  powerMap : p.powerMap.isSome
  announced : ∀ y, own x y → (p.publicShares.get? y).isSome

/-- An honest participant that has the public shares of all indices. -/
structure Published (s : Sharing) (n x : Int) (p : Participant K) : Prop
    extends Honest s n x p where
  le_stage : .publicSharesComputed ≤ p.stage
  published : ∀ y ∈ upTo n, (p.publicShares.get? y).isSome

section Announced

variable {own : Int → Int → Prop} (h : p.Announced s n own x)

include h

theorem Announced.equipped : p.Equipped s n where
  n_eq := h.n_eq
  consistent := h.consistent
  le_stage := Stage.le_trans (by decide) h.le_stage
  powerMap := h.powerMap

theorem Announced.announced_withPublicMaps : (p.withPublicMaps s n).Announced s n own x := by
  have hn := h.n_eq
  subst hn
  exact { h with consistent := h.consistent.consistent_joint.consistent_shareMap }

/-- Leaving out own indices only, the participant publishes all that it has not announced. -/
theorem Announced.publishShares_eq [LawfulSuite K] (hmap : p.shareMap.isSome) {excluded : List Int}
    (hexcluded : ∀ y ∈ excluded, own x y) :
    ∃ shares p', p.publishShares excluded = (.ok shares, p') ∧ p'.Published s n x ∧
      p'.signingShare = p.signingShare := by
  obtain ⟨m, hm⟩ := Option.isSome_iff_exists.1 h.powerMap
  have hn := h.n_eq
  subst hn
  have hindices : ∀ y, y ∈ (upTo p.n).filter (· ∉ excluded) ↔ y ∈ upTo p.n ∧ y ∉ excluded := by
    simp
  refine ⟨_, _, h.consistent.publishShares_eq h.le_stage hm (.inl hmap) rfl, { h with
    consistent := (h.consistent.consistent_publicShares ?_).consistent_advance _
    le_stage := Stage.le_later_right _ _
    published := fun y hy => ?_ }, rfl⟩
  · intro y hy
    exact mem_upTo.1 ((hindices y).1 hy).1
  · change ((p.withPublicShares s _).publicShares.get? y).isSome
    rw [get?_withPublicShares]
    by_cases hown : y ∈ excluded
    · rw [if_neg fun hmem => ((hindices y).1 hmem).2 hown]
      exact h.announced y (hexcluded y hown)
    · rw [if_pos ((hindices y).2 ⟨hy, hown⟩)]
      rfl

end Announced

/-! ### The group key -/

/-- What a participant knows of a sharing at the end of a run, beside signing shares. -/
structure Keyed (s : Sharing) (n x : Int) (p : Participant K) : Prop where
  n_eq : p.n = n
  position_eq : p.position = x
  polynomial_eq : p.polynomial = s.dealt x
  stage_eq : p.stage = .groupKeyDerived
  failure_eq : p.failure = none
  publicShares_eq : ∀ y, p.publicShares.get? y =
    if y ∈ upTo n then some (.ofScalar (s.value y)) else none
  groupKey_eq : p.groupKey = some (.ofScalar (s.value 0))

theorem Published.deriveGroupKey_eq [LawfulSuite K] (h : p.Published s n x)
    (hthreshold : 1 ≤ s.threshold) :
    ∃ key p', p.deriveGroupKey = (.ok key, p') ∧ p'.Keyed s n x ∧
      p'.signingShare = p.signingShare := by
  have hn := h.n_eq
  subst hn
  refine ⟨_, _, h.consistent.deriveGroupKey_eq h.le_stage hthreshold, ⟨rfl, h.position_eq,
    h.polynomial_eq, ?_, h.consistent.failure_eq, fun y => ?_, rfl⟩, rfl⟩
  · exact Stage.later_eq (Stage.le_groupKeyDerived _)
  · change p.publicShares.get? y = _
    cases hy : p.publicShares.get? y with
    | some point =>
      obtain ⟨h₁, h₂, rfl⟩ := h.consistent.publicShares_eq y point hy
      rw [if_pos (mem_upTo.2 ⟨h₁, h₂⟩)]
    | none =>
      refine (if_neg fun hmem => ?_).symm
      have hpublished := h.published y hmem
      rw [hy] at hpublished
      cases hpublished

theorem Keyed.publicShareOf_eq (h : p.Keyed s n x) {y : Int} (hy : y ∈ upTo n) :
    p.publicShareOf y = .ok (some (.ofScalar (s.value y))) := by
  obtain ⟨h₁, h₂⟩ := mem_upTo.1 hy
  rw [publicShareOf, checkIndex_eq h₁ (h.n_eq ▸ h₂), ok_bind, h.publicShares_eq, if_pos hy]
  rfl

theorem Keyed.knownPublicShares_eq (h : p.Keyed s n x) :
    p.knownPublicShares = s.publicShares (upTo n) := by
  rw [knownPublicShares, Sharing.publicShares, h.n_eq, ← List.filterMap_eq_map]
  apply List.filterMap_congr
  intro y hy
  rw [h.publicShares_eq, if_pos hy]
  rfl

end ThresholdKeygen.Participant
