import ThresholdKeygen.Ceremony.Round
import ThresholdKeygen.Proofs.Participant.Change

/-!
# Operations that are blind to shares

Most operations of a participant neither look at the shares that it has received, nor at their sum,
nor change them. They commute with an exchange of these shares.
-/

namespace ThresholdKeygen.Participant

variable {K : Type} [Suite K] {σ α β : Type}

/-- The participant with other shares received, and another sum of them. -/
def holding (p : Participant K) (inbox : Inbox) (share : Option Scalar) : Participant K :=
  { p with sharesIn := inbox, signingShare := share }

/-- That two participants have the same place among as many dealers and share indices. -/
structure SamePlace (p p' : Participant K) : Prop where
  n_eq : p'.n = p.n
  position_eq : p'.position = p.position
  dealers_eq : p'.dealers = p.dealers

theorem Change.samePlace {source : σ} {operation : Operation K} {p p' : Participant K}
    [RandomSource σ] (h : Change source operation p p') : p.SamePlace p' := by
  refine ⟨h.n_eq, h.parameters_eq.2, ?_⟩
  cases h with
  | repeated | registered =>
    obtain ⟨stage, heq, -⟩ := exists_caughtUp _
    rw [heq]
    rfl
  | unchanged | failed | dealt | received | preparedPowers | verified | signed | derivedJoint
  | derivedShareMap | importedJoint | importedShareMap | publishedOwn | published | keyed
  | advanced | aborted => rfl

/-- That an operation neither looks at the shares received nor changes them, nor the place of the
participant. -/
structure Blind (operation : Participant K → Answer (Participant K) α) : Prop where
  commutes : ∀ p inbox share, operation (p.holding inbox share) =
    ((operation p).1, (operation p).2.holding inbox share)
  samePlace : ∀ p : Participant K, p.SamePlace (operation p).2

/-- That a step, which changes nothing when it refuses, does not look at the shares received. -/
def Commutes (step : Participant K → Except Error (α × Participant K)) : Prop :=
  ∀ p inbox share, step (p.holding inbox share) =
    (step p).map fun (a, p') => (a, p'.holding inbox share)

/-! ### Rules -/

section Rules

omit [Suite K]

namespace Commutes

variable {step : Participant K → Except Error (α × Participant K)}

/-- A condition, or what is computed from what a participant knows beside the shares. -/
theorem check {x : Participant K → Except Error β}
    {step : β → Participant K → Except Error (α × Participant K)}
    (hx : ∀ p inbox share, x (p.holding inbox share) = x p) (hstep : ∀ b, Commutes (step b)) :
    Commutes fun p => x p >>= fun b => step b p := by
  intro p inbox share
  dsimp only
  rw [hx]
  cases x p with
  | error refusal => rfl
  | ok b => exact hstep b p inbox share

/-- A change that may be refused, and a step behind it. -/
theorem andThen {change : Participant K → Except Error (Participant K)}
    (hchange : ∀ p inbox share, change (p.holding inbox share) =
      (change p).map fun p' => p'.holding inbox share) (hstep : Commutes step) :
    Commutes fun p => change p >>= step := by
  intro p inbox share
  dsimp only
  rw [hchange]
  cases change p with
  | error refusal => rfl
  | ok p' => exact hstep p' inbox share

/-- A case for each value of something that a participant knows beside the shares. -/
theorem cases (x : Participant K → β) (hx : ∀ p inbox share, x (p.holding inbox share) = x p)
    (h : ∀ b, ∃ step', (∀ p, x p = b → step p = step' p) ∧ Commutes step') : Commutes step := by
  intro p inbox share
  obtain ⟨step', hstep, hcommutes⟩ := h (x p)
  rw [hstep p rfl, hstep (p.holding inbox share) (hx p inbox share)]
  exact hcommutes p inbox share

/-- A choice by what a participant knows beside the shares. -/
theorem ite {c : Participant K → Prop} [∀ p, Decidable (c p)]
    (hc : ∀ p inbox share, c (p.holding inbox share) ↔ c p)
    {step' : Participant K → Except Error (α × Participant K)} (h : Commutes step)
    (h' : Commutes step') : Commutes fun p => if c p then step p else step' p := by
  intro p inbox share
  by_cases hp : c p
  · simpa only [if_pos hp, if_pos ((hc p inbox share).2 hp)] using h p inbox share
  · simpa only [if_neg hp, if_neg (mt (hc p inbox share).1 hp)] using h' p inbox share

theorem refused (refusal : Participant K → Error)
    (hrefusal : ∀ p inbox share, refusal (p.holding inbox share) = refusal p) :
    Commutes (α := α) fun p => .error (refusal p) := by
  intro p inbox share
  dsimp only
  rw [hrefusal]
  rfl

theorem pure {a : Participant K → α} {change : Participant K → Participant K}
    (ha : ∀ p inbox share, a (p.holding inbox share) = a p)
    (hchange : ∀ p inbox share, change (p.holding inbox share) = (change p).holding inbox share) :
    Commutes fun p => .ok (a p, change p) := by
  intro p inbox share
  dsimp only
  rw [ha, hchange]
  rfl

end Commutes

namespace Blind

theorem attempt {step : Participant K → Except Error (α × Participant K)} (h : Commutes step)
    (hplace : ∀ p : Participant K, p.SamePlace (ThresholdKeygen.attempt p (step p)).2) :
    Blind fun p => ThresholdKeygen.attempt p (step p) := by
  refine ⟨fun p inbox share => ?_, hplace⟩
  rw [h]
  cases step p <;> rfl

theorem verifyAttempt {step : Participant K → Except Error (α × Participant K)} (h : Commutes step)
    (hplace : ∀ p : Participant K, p.SamePlace (p.verifyAttempt (step p)).2) :
    Blind fun p => p.verifyAttempt (step p) := by
  refine ⟨fun p inbox share => ?_, hplace⟩
  rw [h]
  cases step p with
  | error refusal =>
    rw [map_error, Participant.verifyAttempt, Participant.verifyAttempt]
    split <;> rfl
  | ok answer => rfl

theorem logged (fingerprint : α → Except Error String)
    {operation : Participant K → Answer (Participant K) α} (h : Blind operation) :
    Blind fun p => Participant.logged fingerprint (operation p) := by
  refine ⟨fun p inbox share => ?_, h.samePlace⟩
  rw [h.commutes]
  rfl

theorem forget {operation : Participant K → Answer (Participant K) α} (h : Blind operation) :
    Blind fun p => Ceremony.forget (operation p) := by
  refine ⟨fun p inbox share => ?_, h.samePlace⟩
  rw [h.commutes]
  rfl

theorem andThen {first : Participant K → Answer (Participant K) α}
    {second : Participant K → Answer (Participant K) Unit} (hfirst : Blind first)
    (hsecond : Blind second) : Blind fun p => Ceremony.andThen (first p) second := by
  refine ⟨fun p inbox share => ?_, fun p => ?_⟩
  · rw [hfirst.commutes]
    generalize first p = answer
    obtain ⟨_ | _, p'⟩ := answer
    · rfl
    · exact hsecond.commutes p' inbox share
  · have hplace := hfirst.samePlace p
    generalize first p = answer at hplace
    obtain ⟨_ | _, p'⟩ := answer
    · exact hplace
    · have hplace' := hsecond.samePlace p'
      exact ⟨hplace'.n_eq.trans hplace.n_eq, hplace'.position_eq.trans hplace.position_eq,
        hplace'.dealers_eq.trans hplace.dealers_eq⟩

end Blind

end Rules

/-! ### Operations -/

/-- Any source; the operations below draw nothing. -/
def anySource : Tape := Tape.new [] [] ""

omit [Suite K] in
theorem noteGaps_holding (p : Participant K) (inbox : Inbox) (share : Option Scalar) (sender : Int)
    (fresh : Bool) (gaps : List Nat) : (p.holding inbox share).noteGaps sender fresh gaps =
      (p.noteGaps sender fresh gaps).map fun p' => p'.holding inbox share := by
  by_cases hsame : p.gapsOf sender = gaps
  · rw [noteGaps, noteGaps, if_pos hsame]
    exact if_pos hsame
  · rw [noteGaps, noteGaps, if_neg hsame]
    refine (if_neg hsame).trans ?_
    split <;> rfl

theorem blind_receivePublication (sender : Int) (publication : Publication K) :
    Blind fun p : Participant K => p.receivePublication sender publication := by
  refine .attempt (.check (fun _ _ _ => rfl) ?_) fun p =>
    (change_receivePublication anySource p sender publication).samePlace
  rintro ⟨fresh, commitments⟩
  refine .andThen (fun p inbox share =>
    noteGaps_holding { p with commitments } inbox share sender fresh publication.gaps) ?_
  refine .pure (fun _ _ _ => rfl) fun p inbox share => ?_
  split <;> rfl

theorem blind_receiveCommitment (sender : Int) (commitment : Commitment K) :
    Blind fun p : Participant K => p.receiveCommitment sender commitment :=
  blind_receivePublication sender _

theorem blind_dealShares : Blind (dealShares (K := K)) :=
  .attempt (.check (fun _ _ _ => rfl) fun _ => .pure (fun _ _ _ => rfl) fun _ _ _ => rfl)
    fun p => (change_dealShares anySource p).samePlace

theorem blind_derivePowerMap : Blind (derivePowerMap (K := K)) := by
  refine .attempt (.cases powerMap (fun _ _ _ => rfl) fun known => ?_) fun p =>
    (change_derivePowerMap anySource p).samePlace
  cases known with
  | some m =>
    refine ⟨_, fun p hp => by rw [hp], ?_⟩
    exact .pure (fun _ _ _ => rfl) fun _ _ _ => rfl
  | none =>
    refine ⟨_, fun p hp => by rw [hp], ?_⟩
    exact .check (fun _ _ _ => rfl) fun m => .pure (fun _ _ _ => rfl) fun _ _ _ => rfl

/-! ### Public maps -/

theorem blind_deriveJoint : Blind (deriveJoint (K := K)) :=
  .logged _ (.attempt (.check (fun _ _ _ => rfl) fun _ => .check (fun _ _ _ => rfl) fun _ =>
    .pure (fun _ _ _ => rfl) fun _ _ _ => rfl) fun p => (change_deriveJoint anySource p).samePlace)

theorem blind_deriveShareMap : Blind (deriveShareMap (K := K)) := by
  refine .logged _ (.attempt (.check (fun _ _ _ => rfl) fun _ => .cases joint (fun _ _ _ => rfl)
    fun known => ?_) fun p => (change_deriveShareMap anySource p).samePlace)
  cases known with
  | some q =>
    refine ⟨_, fun p hp => by rw [hp], ?_⟩
    exact .check (fun _ _ _ => rfl) fun m => .check (fun _ _ _ => rfl) fun shareMap =>
      .pure (fun _ _ _ => rfl) fun _ _ _ => rfl
  | none =>
    refine ⟨_, fun p hp => by rw [hp], ?_⟩
    exact .refused _ fun _ _ _ => rfl

theorem blind_importJoint (snapshot : Bytes) (recompute : Bool) :
    Blind fun p : Participant K => p.importJoint snapshot recompute := by
  refine .verifyAttempt (.check (fun _ _ _ => rfl) fun _ => .check (fun _ _ _ => rfl)
    fun joint => ?_) fun p => (change_importJoint anySource p snapshot recompute).samePlace
  refine .ite (fun _ _ _ => .rfl) (.refused _ fun _ _ _ => rfl) (.ite (fun _ _ _ => .rfl) ?_
    (.pure (fun _ _ _ => rfl) fun _ _ _ => rfl))
  exact .check (fun _ _ _ => rfl) fun own => .ite (fun _ _ _ => .rfl)
    (.refused _ fun _ _ _ => rfl) (.pure (fun _ _ _ => rfl) fun _ _ _ => rfl)

theorem blind_importShareMap (snapshot : Bytes) (recompute : Bool) :
    Blind fun p : Participant K => p.importShareMap snapshot recompute := by
  refine .verifyAttempt (.check (fun _ _ _ => rfl) fun _ => .check (fun _ _ _ => rfl)
    fun shareMap => ?_) fun p => (change_importShareMap anySource p snapshot recompute).samePlace
  refine .ite (fun _ _ _ => .rfl) (.refused _ fun _ _ _ => rfl) (.ite (fun _ _ _ => .rfl) ?_
    (.pure (fun _ _ _ => rfl) fun _ _ _ => rfl))
  refine .cases joint (fun _ _ _ => rfl) fun known => ?_
  cases known with
  | some joint =>
    refine ⟨_, fun p hp => by rw [hp], ?_⟩
    exact .check (fun _ _ _ => rfl) fun joint => .check (fun _ _ _ => rfl) fun powerMap =>
      .check (fun _ _ _ => rfl) fun derived => .ite (fun _ _ _ => .rfl)
        (.refused _ fun _ _ _ => rfl) (.pure (fun _ _ _ => rfl) fun _ _ _ => rfl)
  | none =>
    refine ⟨_, fun p hp => by rw [hp], ?_⟩
    exact .check (fun _ _ _ => rfl) fun joint => .check (fun _ _ _ => rfl) fun powerMap =>
      .check (fun _ _ _ => rfl) fun derived => .ite (fun _ _ _ => .rfl)
        (.refused _ fun _ _ _ => rfl) (.pure (fun _ _ _ => rfl) fun _ _ _ => rfl)

theorem blind_importMaps (joint shareMap : Bytes) (recompute : Bool) :
    Blind (Ceremony.importMaps (K := K) joint shareMap recompute) :=
  .andThen (blind_importJoint joint recompute) (.forget (blind_importShareMap shareMap recompute))

/-! ### Public shares -/

theorem storePublicShares_holding (p : Participant K) (inbox : Inbox) (share : Option Scalar)
    (shares : List (Int × Point K)) : (p.holding inbox share).storePublicShares shares =
      (p.storePublicShares shares).map fun p' => p'.holding inbox share := by
  by_cases hnone : (p.conflicts shares).isEmpty
  · rw [storePublicShares, storePublicShares, if_pos hnone]
    exact if_pos hnone
  · rw [storePublicShares, storePublicShares, if_neg hnone]
    exact if_neg hnone

theorem blind_publishOwnShare (signingShare : Scalar) (index : Int) :
    Blind fun p : Participant K => p.publishOwnShare (some signingShare) (some index) := by
  refine .verifyAttempt (.check (fun _ _ _ => rfl) fun _ => .check (fun _ _ _ => rfl) fun _ => ?_)
    fun p => (change_publishOwnShare anySource p (some signingShare) (some index)).samePlace
  exact .andThen (fun p inbox share => storePublicShares_holding p inbox share _)
    (.pure (fun _ _ _ => rfl) fun _ _ _ => rfl)

theorem blind_publishShares (excluded : List Int) :
    Blind fun p : Participant K => p.publishShares excluded := by
  refine .verifyAttempt (.check (fun _ _ _ => rfl) fun _ => ?_)
    fun p => (change_publishShares anySource p excluded).samePlace
  refine .ite (fun _ _ _ => .rfl) (.refused _ fun _ _ _ => rfl) ?_
  exact .check (fun _ _ _ => rfl) fun computed => .andThen (fun p inbox share =>
    storePublicShares_holding p inbox share computed) (.pure (fun _ _ _ => rfl) fun _ _ _ => rfl)

theorem blind_deriveGroupKey : Blind (deriveGroupKey (K := K)) := by
  refine .attempt (.check (fun _ _ _ => rfl) fun _ => .check (fun _ _ _ => rfl) fun _ =>
    .cases groupKey (fun _ _ _ => rfl) fun known => ?_) fun p =>
      (change_deriveGroupKey anySource p).samePlace
  cases known with
  | some key =>
    refine ⟨_, fun p hp => by rw [hp], ?_⟩
    exact .check (fun _ _ _ => rfl) fun key => .pure (fun _ _ _ => rfl) fun _ _ _ => rfl
  | none =>
    refine ⟨_, fun p hp => by rw [hp], ?_⟩
    exact .check (fun _ _ _ => rfl) fun key => .pure (fun _ _ _ => rfl) fun _ _ _ => rfl

end ThresholdKeygen.Participant
