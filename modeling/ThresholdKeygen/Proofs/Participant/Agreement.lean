import ThresholdKeygen.Proofs.Participant.Consistent
import ThresholdKeygen.Proofs.Participant.Reachable
import ThresholdKeygen.Proofs.Point.Residues

/-!
# Agreement on keys

Participants that have verified shares against one complete table, whoever made the commitments in
it. Main statement: `keysAgree`, their signing shares lie on one polynomial, whose public image all
of them compute, and whose constant term belongs to the group key of all of them.
-/

namespace ThresholdKeygen

variable {K : Type} [Suite K]

namespace Participant

/-- A participant at a position among all dealers of a table that has accepted a share from each of
them and has computed nothing from the shares yet. -/
structure Verified (table : CommitmentTable K) (x : Int) (p : Participant K) : Prop where
  n_eq : p.n = table.dealers
  position_eq : p.position = x
  one_le : 1 ≤ x
  le_dealers : x ≤ table.dealers
  commitments_eq : p.commitments = table
  gaps_eq : p.gaps.keys = []
  senders : ∀ i, (p.sharesIn.get? i).isSome ↔ 1 ≤ i ∧ i ≤ table.dealers
  accepted : ∀ i share c, p.sharesIn.get? i = some share → table.slots.get? i = some c →
    c.verifyShare share x = true
  powerMap_eq : ∃ m, p.powerMap = some m ∧ PowerMap.derive table.dealers table.threshold = .ok m
  stage_le : .sharesVerified ≤ p.stage
  failure_eq : p.failure = none
  signingShare_eq : p.signingShare = none
  publicShares_eq : p.publicShares = .empty
  joint_eq : p.joint = none
  shareMap_eq : p.shareMap = none
  groupKey_eq : p.groupKey = none

/-- The participant after it has computed its signing share and published its image. -/
def signed (p : Participant K) : Participant K :=
  (p.computeSigningShare.2.publishOwnShare none none).2

/-- That a participant computes a signing share and stores its image, which no public map
contradicts, whether it has the joint commitment, the public shares or both; and that it then
derives a group key. -/
structure Finishes (joint : JointCommitment K) (shareMap : ShareMap K) (share secret : Scalar)
    (p : Participant K) : Prop where
  signingShare : p.computeSigningShare.1 = .ok share
  ownShare : (p.computeSigningShare.2.publishOwnShare none none).1 = .ok (.ofScalar share)
  stored : p.signed.publicShares.get? p.position = some (.ofScalar share)
  publicShares : ∀ q w, q = none ∨ q = some joint → w = none ∨ w = some shareMap →
    q.isSome ∨ w.isSome → ∀ excluded, ∃ computed p',
      (p.signed.withMaps q w).publishShares excluded = (.ok computed, p') ∧
        p'.deriveGroupKey.1 = .ok (.ofScalar secret)

end Participant

/-- That participants agree on a key when they have verified shares against a table: they have the
signing shares of one secret, of which the group key is the image, and their public shares are those
that the table gives. -/
structure KeysAgree (table : CommitmentTable K) (joint : JointCommitment K) (shareMap : ShareMap K)
    (share : Int → Scalar) (secret : Scalar) : Prop where
  joint_eq : JointCommitment.derive table = .ok joint
  shareMap_eq : (do ShareMap.derive joint (← PowerMap.derive table.dealers table.threshold)) =
    .ok shareMap
  share_eq : ∀ x, 1 ≤ x → x ≤ table.dealers → shareMap.share x = .ok (.ofScalar (share x))
  finishes : ∀ x (p : Participant K), p.Verified table x →
    p.Finishes joint shareMap (share x) secret
  recovers : table.dealers < groupOrder → ∀ positions : List Int, positions.Nodup →
    positions.length = table.threshold → (∀ x ∈ positions, 1 ≤ x ∧ x ≤ table.dealers) →
      interpolate (positions.map fun x => (x, share x)) 0 = .ok secret

namespace Participant.Verified

variable [LawfulSuite K] {s : Sharing} {table : CommitmentTable K} {x : Int} {p : Participant K}
  (h : p.Verified table x) (hs : s.CommittedIn table)

include h hs

omit [LawfulSuite K] in
theorem consistent : p.Consistent s where
  committed := h.commitments_eq ▸ hs
  gaps_eq := h.gaps_eq
  failure_eq := h.failure_eq
  powerMap_eq := by
    obtain ⟨m, hm, hderive⟩ := h.powerMap_eq
    rw [hm, h.n_eq, ← hs.threshold_eq]
    rintro _ ⟨⟩
    exact hderive
  signingShare_eq := by rw [h.signingShare_eq]; rintro _ ⟨⟩
  joint_eq := by rw [h.joint_eq]; rintro _ ⟨⟩
  shareMap_eq := by rw [h.shareMap_eq]; rintro _ ⟨⟩
  publicShares_eq := by rw [h.publicShares_eq]; rintro _ _ ⟨⟩
  groupKey_eq := by rw [h.groupKey_eq]; rintro _ ⟨⟩

/-- The only shares that pass are those of the polynomials behind the commitments. -/
theorem dealtTo : s.DealtTo x p.sharesIn := by
  intro i
  split
  · rename_i hi
    obtain ⟨h₁, h₂⟩ := mem_upTo.1 hi
    obtain ⟨share, hshare⟩ := Option.isSome_iff_exists.1
      ((h.senders i).2 ⟨h₁, hs.dealers_eq ▸ h₂⟩)
    have haccepted := h.accepted i share _ hshare (hs.get?_eq i h₁ h₂)
    rw [Commitment.verifyShare_iff, Commitment.logs_ofCoefficients] at haccepted
    rw [hshare, haccepted]
  · rename_i hi
    rw [← Option.not_isSome_iff_eq_none, h.senders i, hs.dealers_eq, ← mem_upTo]
    exact hi

theorem computeSigningShare_eq : p.computeSigningShare = (.ok (s.value x),
    { p with signingShare := some (s.value x) }.advance .signingShareComputed) := by
  obtain rfl := h.position_eq
  exact (h.consistent hs).computeSigningShare_eq h.stage_le (h.dealtTo hs)

/-- The state after the own image is published. -/
theorem publishOwnShare_eq :
    p.computeSigningShare.2.publishOwnShare none none = (.ok (.ofScalar (s.value x)),
      ({ p with signingShare := some (s.value x) }.advance .signingShareComputed).withPublicShares
        s [x]) := by
  have hsigned : { p with signingShare := some (s.value x) }.Consistent s :=
    h.position_eq ▸ (h.consistent hs).consistent_signingShare
  rw [h.computeSigningShare_eq hs]
  exact (hsigned.consistent_advance _).publishOwnShare_eq (Stage.le_later_right _ _) h.position_eq
    h.one_le (h.n_eq ▸ h.le_dealers) rfl

theorem consistent_signed : p.signed.Consistent s := by
  have hsigned : { p with signingShare := some (s.value x) }.Consistent s :=
    h.position_eq ▸ (h.consistent hs).consistent_signingShare
  rw [signed, h.publishOwnShare_eq hs]
  refine (hsigned.consistent_advance _).consistent_publicShares fun i hi => ?_
  rw [List.mem_singleton.1 hi]
  exact ⟨h.one_le, h.n_eq ▸ h.le_dealers⟩

theorem consistent_withMaps {q : Option (JointCommitment K)} {w : Option (ShareMap K)}
    (hq : q = none ∨ q = some s.jointCommitment)
    (hw : w = none ∨ w = some (s.shareMap table.dealers)) :
    (p.signed.withMaps q w).Consistent s := by
  have hn : p.signed.n = table.dealers := by
    rw [signed, h.publishOwnShare_eq hs]
    exact h.n_eq
  refine { h.consistent_signed hs with joint_eq := fun joint hjoint => ?_
                                       shareMap_eq := fun shareMap hshareMap => ?_ }
  · change q = some joint at hjoint
    rcases hq with rfl | rfl
    · cases hjoint
    · exact (Option.some.inj hjoint).symm
  · change w = some shareMap at hshareMap
    rcases hw with rfl | rfl
    · cases hshareMap
    · change shareMap = s.shareMap p.signed.n
      rw [hn]
      exact (Option.some.inj hshareMap).symm

theorem finishes (hthreshold : 1 ≤ s.threshold) :
    p.Finishes s.jointCommitment (s.shareMap table.dealers) (s.value x) (s.value 0) where
  signingShare := by rw [h.computeSigningShare_eq hs]
  ownShare := by rw [h.publishOwnShare_eq hs]
  stored := by
    rw [signed, h.publishOwnShare_eq hs, h.position_eq]
    dsimp only
    rw [get?_withPublicShares, if_pos (List.mem_singleton_self x)]
  publicShares := by
    intro q w hq hw hmaps excluded
    obtain ⟨m, hm, _⟩ := h.powerMap_eq
    have hconsistent := h.consistent_withMaps hs hq hw
    have hsigned : p.signed = _ := congrArg Prod.snd (h.publishOwnShare_eq hs)
    have hstage : Stage.signingShareComputed ≤ (p.signed.withMaps q w).stage := by
      rw [hsigned]
      exact Stage.le_later_right _ _
    have hpowers : (p.signed.withMaps q w).powerMap = some m := by
      rw [hsigned]
      exact hm
    have hrange : ∀ i ∈ (upTo (p.signed.withMaps q w).n).filter (· ∉ excluded),
        1 ≤ i ∧ i ≤ (p.signed.withMaps q w).n :=
      fun i hi => mem_upTo.1 (List.mem_filter.1 hi).1
    have hpublished := (hconsistent.consistent_publicShares hrange).consistent_advance
      .publicSharesComputed
    refine ⟨_, _, hconsistent.publishShares_eq hstage hpowers hmaps.symm rfl, ?_⟩
    exact congrArg Prod.fst (hpublished.deriveGroupKey_eq (Stage.le_later_right _ _) hthreshold)

end Participant.Verified

/-- Participants agree on a key whoever made the commitments against which they have verified
shares. -/
theorem keysAgree [LawfulSuite K] {table : CommitmentTable K} {t : Nat} (ht : 1 ≤ t)
    (hthreshold : table.threshold = t) (hcomplete : table.missing = [])
    (hlength : ∀ i c, table.slots.get? i = some c → c.points.length = t) :
    ∃ joint shareMap share secret, KeysAgree table joint shareMap share secret := by
  obtain ⟨s, hs⟩ := Sharing.exists_committedIn hthreshold hcomplete hlength
  have hs_threshold : s.threshold = t := by
    have := hs.threshold_eq
    omega
  refine ⟨s.jointCommitment, s.shareMap table.dealers, fun x => s.value x, s.value 0, ?_⟩
  constructor
  · exact hs.derive_joint
  · rw [hs.threshold_eq, PowerMap.derive_eq, ok_bind]
    exact s.derive_shareMap (PowerMap.derive_eq _ _)
  · intro x h₁ h₂
    exact s.share_shareMap h₁ h₂
  · intro x p hp
    exact hp.finishes hs (by omega)
  · intro hn positions hnodup hlength hrange
    have hpositions : (positions.map fun x => (x, s.value x)).map Prod.fst = positions := by
      simp [Function.comp_def]
    rw [hs.threshold_eq] at hlength
    refine s.interpolate_value hn ?_ ?_ (by rwa [hpositions]) (fun point hpoint => ?_) 0
    · rw [Ne, List.map_eq_nil_iff]
      rintro rfl
      simp at hlength
      omega
    · rw [List.length_map]
      omega
    · obtain ⟨x, hx, rfl⟩ := List.mem_map.1 hpoint
      exact ⟨(hrange x hx).1, (hrange x hx).2, rfl⟩

namespace Participant

/-- One of the three, after it has verified what all of them have dealt to it. -/
def trioMember (x : Int) : Participant ResidueKey :=
  { newcomer 3 3 2 x (.bytes []) (trioSharing.dealt x) with
    commitments := trioTable
    sharesIn := trioShares x
    powerMap := some ⟨2, (upTo 3).map fun x => [1, x]⟩
    stage := .sharesVerified }

theorem verified_trioMember {x : Int} (h₁ : 1 ≤ x) (h₂ : x ≤ 3) :
    (trioMember x).Verified trioTable x where
  n_eq := rfl
  position_eq := rfl
  one_le := h₁
  le_dealers := h₂
  commitments_eq := rfl
  gaps_eq := rfl
  senders i := Mapping.mem_keys_iff.symm.trans
    ((dealtTo_trioShares x).mem_keys_iff.trans mem_upTo)
  accepted i share c hshare hc := by
    change (trioShares x).get? i = some share at hshare
    have hi := (dealtTo_trioShares x).mem_keys_iff.1 (Mapping.mem_keys_iff.2 (by rw [hshare]; rfl))
    rw [dealtTo_trioShares x i, if_pos hi] at hshare
    obtain ⟨h₁, h₂⟩ := mem_upTo.1 hi
    rw [committedIn_trioTable.get?_eq i h₁ h₂] at hc
    rw [Commitment.verifyShare_iff, ← Option.some.inj hc, Commitment.logs_ofCoefficients]
    exact (Option.some.inj hshare).symm
  powerMap_eq := ⟨_, rfl, rfl⟩
  stage_le := Nat.le_refl _
  failure_eq := rfl
  signingShare_eq := rfl
  publicShares_eq := rfl
  joint_eq := rfl
  shareMap_eq := rfl
  groupKey_eq := rfl

end Participant

open Participant in
/-- Any two of the three that have verified what has been dealt to them give the same secret. -/
theorem exists_keysAgree : trioTable.missing = [] ∧
    (∀ x, 1 ≤ x → x ≤ 3 → (trioMember x).Verified trioTable x) ∧
    ∃ joint shareMap share secret, KeysAgree trioTable joint shareMap share secret ∧
      (∀ x, 1 ≤ x → x ≤ 3 → (trioMember x).Finishes joint shareMap (share x) secret) ∧
      share 1 = 21 ∧ share 2 = 36 ∧ share 3 = 51 ∧
      interpolate [(1, 21), (2, 36)] 0 = .ok secret ∧
      interpolate [(3, 51), (2, 36)] 0 = .ok secret ∧
      interpolate [(1, 21), (3, 51)] 0 = .ok secret := by
  have hlength : ∀ i c, trioTable.slots.get? i = some c → c.points.length = 2 :=
    fun i c hc => Int.ofNat.inj (reachable_trio.sound.length_points i c hc)
  obtain ⟨joint, shareMap, share, secret, h⟩ :=
    keysAgree (by decide) rfl committedIn_trioTable.missing_eq hlength
  have hfinishes : ∀ x, 1 ≤ x → x ≤ 3 →
      (trioMember x).Finishes joint shareMap (share x) secret :=
    fun x h₁ h₂ => h.finishes x _ (verified_trioMember h₁ h₂)
  have h₁ : share 1 = 21 := (Except.ok.inj (hfinishes 1 (by decide) (by decide)).signingShare).symm
  have h₂ : share 2 = 36 := (Except.ok.inj (hfinishes 2 (by decide) (by decide)).signingShare).symm
  have h₃ : share 3 = 51 := (Except.ok.inj (hfinishes 3 (by decide) (by decide)).signingShare).symm
  have hrecovers := h.recovers (by decide)
  have hpair₁ := hrecovers [1, 2] (by decide) rfl (by decide)
  have hpair₂ := hrecovers [3, 2] (by decide) rfl (by decide)
  have hpair₃ := hrecovers [1, 3] (by decide) rfl (by decide)
  simp only [List.map_cons, List.map_nil, h₁, h₂, h₃] at hpair₁ hpair₂ hpair₃
  exact ⟨committedIn_trioTable.missing_eq, fun x => verified_trioMember, joint, shareMap, share,
    secret, h, hfinishes, h₁, h₂, h₃, hpair₁, hpair₂, hpair₃⟩

end ThresholdKeygen
