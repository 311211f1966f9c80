import Mathlib.Logic.Relation
import ThresholdKeygen.Proofs.Participant.Reachable

/-!
# What participants keep

A participant never takes back what it has recorded. An operation that computes a value again finds
the same one, because what it computes from cannot change any more. Main statement:
`Settled.persists_run`, which holds along every run.
-/

namespace ThresholdKeygen.Participant

variable {K : Type} [Suite K] {σ : Type} [RandomSource σ]

/-- One operation, whatever it draws and whether it refuses or not. -/
inductive Step : Participant K → Participant K → Prop where
  | perform {σ : Type} [RandomSource σ] (source : σ) (operation : Operation K)
      (p : Participant K) : Step p ((operation.perform p).run source).1

theorem parameters_eq_of_run {p p' : Participant K} (h : Relation.ReflTransGen Step p p') :
    p'.n = p.n ∧ p'.position = p.position := by
  induction h with
  | refl => exact ⟨rfl, rfl⟩
  | tail _ hstep ih =>
    obtain ⟨source, operation⟩ := hstep
    obtain ⟨hn, hposition⟩ := (change_perform source _ operation).parameters_eq
    exact ⟨hn.trans ih.1, hposition.trans ih.2⟩

theorem dealers_eq_of_run {p p' : Participant K} (h : Relation.ReflTransGen Step p p') :
    p'.dealers = p.dealers := by
  induction h with
  | refl => rfl
  | tail _ hstep ih =>
    obtain ⟨source, operation⟩ := hstep
    exact (change_perform source _ operation).dealers_eq.trans ih

/-- That a later state of a participant keeps what is recorded in an earlier one. Public shares are
compared by their encodings. -/
structure Persists (p p' : Participant K) : Prop where
  stage_le : p.stage ≤ p'.stage
  failure_eq : ∀ refusal, p.failure = some refusal → p'.failure = some refusal
  commitment_eq : ∀ i c, p.commitments.slots.get? i = some c →
    p'.commitments.slots.get? i = some c ∧ p'.gapsOf i = p.gapsOf i
  shareOut_eq : ∀ x share, p.sharesOut.get? x = some share → p'.sharesOut.get? x = some share
  powerMap_eq : ∀ m, p.powerMap = some m → p'.powerMap = some m
  signingShare_eq : ∀ share, p.signingShare = some share → p'.signingShare = some share
  publicShare_eq : ∀ x point, p.publicShares.get? x = some point →
    ∃ point', p'.publicShares.get? x = some point' ∧ point'.toBytes = point.toBytes
  groupKey_eq : ∀ point, p.groupKey = some point → p'.groupKey = some point
  sharesIn_eq : .sharesVerified ≤ p.stage → p'.sharesIn = p.sharesIn

namespace Persists

theorem refl (p : Participant K) : p.Persists p where
  stage_le := Nat.le_refl _
  failure_eq _ h := h
  commitment_eq _ _ h := ⟨h, rfl⟩
  shareOut_eq _ _ h := h
  powerMap_eq _ h := h
  signingShare_eq _ h := h
  publicShare_eq _ point h := ⟨point, h, rfl⟩
  groupKey_eq _ h := h
  sharesIn_eq _ := rfl

theorem trans {p q r : Participant K} (h : p.Persists q) (h' : q.Persists r) : p.Persists r where
  stage_le := Stage.le_trans h.stage_le h'.stage_le
  failure_eq refusal hp := h'.failure_eq refusal (h.failure_eq refusal hp)
  commitment_eq i c hp := by
    obtain ⟨hq, hgaps⟩ := h.commitment_eq i c hp
    obtain ⟨hr, hgaps'⟩ := h'.commitment_eq i c hq
    exact ⟨hr, hgaps'.trans hgaps⟩
  shareOut_eq x share hp := h'.shareOut_eq x share (h.shareOut_eq x share hp)
  powerMap_eq m hp := h'.powerMap_eq m (h.powerMap_eq m hp)
  signingShare_eq share hp := h'.signingShare_eq share (h.signingShare_eq share hp)
  publicShare_eq x point hp := by
    obtain ⟨point', hq, hpoint'⟩ := h.publicShare_eq x point hp
    obtain ⟨point'', hr, hpoint''⟩ := h'.publicShare_eq x point' hq
    exact ⟨point'', hr, hpoint''.trans hpoint'⟩
  groupKey_eq point hp := h'.groupKey_eq point (h.groupKey_eq point hp)
  sharesIn_eq hp :=
    (h'.sharesIn_eq (Stage.le_trans hp h.stage_le)).trans (h.sharesIn_eq hp)

theorem advance (p : Participant K) (stage : Stage) : p.Persists (p.advance stage) :=
  { refl p with stage_le := Stage.le_later_left _ _ }

theorem abort (p : Participant K) (failure : Error) : p.Persists (p.abort failure) :=
  { refl p with failure_eq := fun refusal h => by rw [Participant.abort, h]; rfl }

theorem caughtUp (p : Participant K) : p.Persists p.caughtUp := by
  rw [Participant.caughtUp]
  split
  · exact advance p _
  · exact refl p

/-- Public shares that agree with the stored ones do not change any of them. -/
theorem publicShares {p : Participant K} {shares : List (Int × Point K)}
    (h : p.conflicts shares = []) :
    p.Persists { p with publicShares := p.publicShares.putAll shares } := by
  refine { refl p with publicShare_eq := fun x point hpoint => ?_ }
  obtain hsame | ⟨point', hmem, hpoint'⟩ := p.publicShares.get?_putAll_eq_or_mem shares x
  · exact ⟨point, hsame.trans hpoint, rfl⟩
  · refine ⟨point', hpoint', ?_⟩
    rw [conflicts, List.map_eq_nil_iff, List.filter_eq_nil_iff] at h
    have hagree : ¬ (point != point') = true := by simpa only [hpoint] using h _ hmem
    rw [bne, Bool.not_eq_true', Bool.not_eq_false] at hagree
    exact (eq_of_beq (show (point.toBytes == point'.toBytes) = true from hagree)).symm

end Persists

/-! ### Settled participants -/

/-- A sound participant whose recorded shares are those that it would compute again: the shares that
it deals come from its polynomial, and its signing share from an inbox that is closed. -/
structure Settled (p : Participant K) : Prop extends Sound p where
  shareOut_eq : ∀ x share, p.sharesOut.get? x = some share →
    share = p.polynomial.evaluate (Scalar.ofInt x)
  signingShare_eq : ∀ share, p.signingShare = some share →
    .sharesVerified ≤ p.stage ∧ share = Scalar.sum p.sharesIn.values

theorem Fresh.settled {p : Participant K} (h : p.Fresh) : p.Settled := by
  refine ⟨h.sound, ?_, ?_⟩
  · obtain ⟨_, _, _, _⟩ := h
    rintro x share ⟨⟩
  · obtain ⟨_, _, _, _⟩ := h
    rintro share ⟨⟩

omit [Suite K] in
theorem get?_dealt (p : Participant K) (x : Int) :
    (p.sharesOut.putAll p.dealtShares).get? x =
      if x ∈ upTo p.n then some (p.polynomial.evaluate (Scalar.ofInt x))
      else p.sharesOut.get? x :=
  p.sharesOut.get?_putAll (upTo p.n) (fun x => p.polynomial.evaluate (Scalar.ofInt x)) x

namespace Settled

variable {p p' : Participant K} {source : σ} {operation : Operation K}

/-- No rule takes back what a settled participant has recorded. -/
theorem persists (h : p.Settled) (hchange : Change source operation p p') : p.Persists p' := by
  cases hchange with
  | unchanged | derivedJoint | derivedShareMap | importedJoint | importedShareMap =>
    exact { Persists.refl p with }
  | failed | aborted => exact .abort p _
  | repeated => exact .caughtUp p
  | @registered _ sender publication gaps hsender hlength hnone hgaps =>
    refine .trans ?_ (.caughtUp _)
    refine { Persists.refl p with commitment_eq := fun i c hc => ?_ }
    have hne : i ≠ sender := by
      rintro rfl
      rw [hnone] at hc
      cases hc
    refine ⟨by rw [Mapping.get?_put, if_neg hne, hc], ?_⟩
    obtain ⟨_, rfl⟩ | ⟨_, rfl⟩ := hgaps
    · rfl
    · rw [gapsOf, gapsOf, Mapping.get?_put, if_neg hne]
  | dealt =>
    refine .trans ?_ (.advance _ _)
    refine { Persists.refl p with shareOut_eq := fun x share hshare => ?_ }
    -- Dealing again computes the shares again, from the same polynomial.
    rw [get?_dealt]
    split
    · rw [h.shareOut_eq x share hshare]
    · exact hshare
  | received hstage =>
    exact { Persists.refl p with sharesIn_eq := fun hverified => absurd hverified hstage }
  | preparedPowers hnone =>
    refine { Persists.refl p with powerMap_eq := fun m hm => ?_ }
    rw [hnone] at hm
    cases hm
  | verified | advanced => exact .advance p _
  | signed =>
    refine .trans ?_ (.advance _ _)
    refine { Persists.refl p with signingShare_eq := fun share hshare => ?_ }
    rw [(h.signingShare_eq share hshare).2]
  | publishedOwn _ _ _ hagree => exact .publicShares hagree
  | published _ _ hagree => exact .trans (.publicShares hagree) (.advance _ _)
  | keyed _ hkey =>
    refine .trans ?_ (.advance _ _)
    refine { Persists.refl p with groupKey_eq := fun point hpoint => ?_ }
    obtain hsame | ⟨hnone, _⟩ := hkey
    · exact hsame.symm.trans hpoint
    · rw [hnone] at hpoint
      cases hpoint

omit [Suite K] in
theorem advance (h : p.Settled) (stage : Stage) : (p.advance stage).Settled where
  toSound := { h.toSound with }
  shareOut_eq := h.shareOut_eq
  signingShare_eq share hshare := by
    obtain ⟨hstage, hsum⟩ := h.signingShare_eq share hshare
    exact ⟨Stage.le_trans hstage (Stage.le_later_left _ _), hsum⟩

omit [Suite K] in
theorem caughtUp (h : p.Settled) : p.caughtUp.Settled := by
  rw [Participant.caughtUp]
  split
  · exact h.advance _
  · exact h

/-- Every rule keeps a participant settled. -/
theorem change (h : p.Settled) (hchange : Change source operation p p') : p'.Settled := by
  cases hchange with
  | unchanged => exact h
  | repeated => exact h.caughtUp
  | registered hsender hlength hnone hgaps =>
    refine caughtUp ?_
    exact ⟨h.toSound.register hsender hlength hnone hgaps, h.shareOut_eq, h.signingShare_eq⟩
  | dealt =>
    refine advance ?_ _
    refine ⟨{ h.toSound with }, fun x share hshare => ?_, h.signingShare_eq⟩
    rw [get?_dealt] at hshare
    split at hshare
    · exact (Option.some.inj hshare).symm
    · exact h.shareOut_eq x share hshare
  | received hstage =>
    refine ⟨{ h.toSound with }, h.shareOut_eq, fun share hshare => ?_⟩
    exact absurd (h.signingShare_eq share hshare).1 hstage
  | preparedPowers _ hm =>
    exact ⟨{ h.toSound with powerMap_eq := by rintro _ ⟨⟩; exact hm }, h.shareOut_eq,
      h.signingShare_eq⟩
  | signed hstage =>
    refine advance ?_ _
    refine ⟨{ h.toSound with }, h.shareOut_eq, fun share hshare => ?_⟩
    exact ⟨(of_requireStage_eq_ok hstage).2, (Option.some.inj hshare).symm⟩
  | verified | advanced => exact h.advance _
  | published | keyed =>
    refine advance ?_ _
    exact { h with toSound := { h.toSound with } }
  | failed | derivedJoint | derivedShareMap | importedJoint | importedShareMap | publishedOwn
  | aborted => exact { h with toSound := { h.toSound with } }

/-- Along every run a settled participant stays settled and keeps what is recorded. -/
theorem run (h : p.Settled) (hrun : Relation.ReflTransGen Step p p') :
    p'.Settled ∧ p.Persists p' := by
  induction hrun with
  | refl => exact ⟨h, .refl p⟩
  | tail _ hstep ih =>
    obtain ⟨hsettled, hpersists⟩ := ih
    obtain ⟨source, operation, _⟩ := hstep
    exact ⟨hsettled.change (change_perform source _ operation),
      hpersists.trans (hsettled.persists (change_perform source _ operation))⟩

end Settled

theorem Reachable.settled {p : Participant K} (h : p.Reachable) : p.Settled := by
  induction h with
  | created source n threshold position dealers context p h =>
    exact (fresh_create n threshold position dealers context source p h).settled
  | performed source operation _ ih => exact ih.change (change_perform source _ operation)

end ThresholdKeygen.Participant
