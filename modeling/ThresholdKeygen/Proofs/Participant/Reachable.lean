import ThresholdKeygen.Proofs.Participant.Change
import ThresholdKeygen.Proofs.Point.Residues
import ThresholdKeygen.Proofs.Sharing

/-!
# Reachable participants

The participants to which operations lead. Main statement: `Reachable.sound`, every commitment that
is registered has as many points as the threshold, and a power map that is there is the one which
the parameters determine.
-/

namespace ThresholdKeygen

variable {K : Type} [Suite K] {σ : Type} [RandomSource σ]

theorem yields_checkSlots (slots : Int) : Yields (checkSlots slots) fun _ => slots ≤ maxSlots := by
  rw [checkSlots]
  split
  · exact .error
  · split
    · exact .error
    · exact .pure (not_lt.1 ‹_›)

namespace Participant

/-! ### Creation -/

/-- A participant that has neither dealt nor computed anything yet. -/
def newcomer (n dealers : Int) (threshold : Nat) (position : Int) (context : Item K)
    (polynomial : Coefficients) : Participant K :=
  let commitments := ⟨dealers, threshold, Mapping.empty.put position (.ofCoefficients polynomial)⟩
  { n, position, context, polynomial, commitments
    gaps := .empty
    sharesOut := .empty
    sharesIn := .empty
    signingShare := none
    publicShares := .empty
    powerMap := none
    joint := none
    shareMap := none
    groupKey := none
    stage := if commitments.isComplete then .commitmentsExchanged else .created
    failure := none }

/-- That a participant has just been created, with parameters that fit together. -/
inductive Fresh : Participant K → Prop where
  | intro {n dealers position : Int} {threshold : Nat} {context : Item K}
      {polynomial : Coefficients} (one_le : 1 ≤ threshold) (le : threshold ≤ n)
      (lt : n < maxSlots)
      (length_points : (Commitment.ofCoefficients polynomial : Commitment K).points.length =
        threshold) : Fresh (newcomer n dealers threshold position context polynomial)

/-- Who is created is a newcomer at the position that is asked for. -/
theorem delivers_create (n threshold position : Int) (dealers : Option Int) (context : Item K) :
    Delivers (create n threshold position dealers context : ExceptT Error (StateM σ) _) fun p =>
      ∃ (t : Nat) (polynomial : Coefficients), threshold = t ∧ 1 ≤ t ∧ t ≤ n ∧ n < maxSlots ∧
        (Commitment.ofCoefficients polynomial : Commitment K).points.length = t ∧
          p = newcomer n (dealers.getD n) t position context polynomial := by
  rw [create]
  split
  · exact .refused
  dsimp only
  split
  · exact .refused
  split
  · exact .refused
  split
  · exact .refused
  rename_i hthreshold _ _
  refine .bind (.any fun polynomial => .bind (.steady fun empty hempty => ?_))
  refine .bind (.steady fun registered hregistered => ?_)
  refine .bind (.steady fun _ hslots => .pure ?_)
  obtain rfl := CommitmentTable.yields_new _ _ empty hempty
  obtain ⟨_, _, hlength, ⟨_, hsome, _⟩ | ⟨_, _, hregistered⟩⟩ :=
    CommitmentTable.yields_register _ position _ registered hregistered
  · cases hsome
  · have hslots := yields_checkSlots _ _ hslots
    obtain ⟨count, rfl⟩ := Int.eq_ofNat_of_zero_le (show 0 ≤ threshold by omega)
    rw [hregistered]
    exact ⟨count, polynomial, rfl, by omega, by omega, by omega, Int.ofNat.inj hlength, rfl⟩

theorem fresh_create (n threshold position : Int) (dealers : Option Int) (context : Item K) :
    Delivers (create n threshold position dealers context : ExceptT Error (StateM σ) _) Fresh := by
  refine (delivers_create n threshold position dealers context).mono ?_
  rintro _ ⟨t, polynomial, -, one_le, le, lt, hlength, rfl⟩
  exact .intro one_le le lt hlength

/-- Nobody is created among more dealers than there are share indices. -/
theorem dealers_le_create (n threshold position : Int) (dealers : Option Int) (context : Item K) :
    Delivers (create n threshold position dealers context : ExceptT Error (StateM σ) _) fun p =>
      p.dealers ≤ p.n := by
  rw [create]
  split
  · exact .refused
  dsimp only
  split
  · exact .refused
  split
  · exact .refused
  rename_i hdealers
  split
  · exact .refused
  refine .bind (.any fun polynomial => .bind (.steady fun empty hempty => ?_))
  refine .bind (.steady fun registered hregistered => .bind (.steady fun _ _ => .pure ?_))
  obtain rfl := CommitmentTable.yields_new _ _ empty hempty
  obtain ⟨-, -, -, ⟨-, -, hsame⟩ | ⟨-, -, hput⟩⟩ :=
    CommitmentTable.yields_register _ position _ registered hregistered
  · exact hsame ▸ (not_not.1 hdealers).2
  · exact hput ▸ (not_not.1 hdealers).2

theorem position_create (n threshold position : Int) (dealers : Option Int) (context : Item K) :
    Delivers (create n threshold position dealers context : ExceptT Error (StateM σ) _) fun p =>
      1 ≤ p.position ∧ p.position ≤ p.dealers := by
  rw [create]
  split
  · exact .refused
  dsimp only
  split
  · exact .refused
  split
  · exact .refused
  split
  · exact .refused
  refine .bind (.any fun polynomial => .bind (.steady fun empty hempty => ?_))
  refine .bind (.steady fun registered hregistered => .bind (.steady fun _ _ => .pure ?_))
  obtain rfl := CommitmentTable.yields_new _ _ empty hempty
  obtain ⟨h₁, h₂, -, ⟨-, -, hsame⟩ | ⟨-, -, hput⟩⟩ :=
    CommitmentTable.yields_register _ position _ registered hregistered
  · exact ⟨h₁, hsame ▸ h₂⟩
  · exact ⟨h₁, hput ▸ h₂⟩

theorem stage_newcomer_le (n dealers : Int) (threshold : Nat) (position : Int) (context : Item K)
    (polynomial : Coefficients) :
    (newcomer n dealers threshold position context polynomial).stage ≤ .commitmentsExchanged := by
  rw [newcomer]
  dsimp only
  split <;> decide

/-! ### Runs -/

/-- The participants to which operations lead, whatever is drawn on the way. -/
inductive Reachable : Participant K → Prop where
  | created {σ : Type} [RandomSource σ] (source : σ) (n threshold position : Int)
      (dealers : Option Int) (context : Item K) (p : Participant K)
      (h : ((create n threshold position dealers context).run.run source).1 = .ok p) : Reachable p
  | performed {σ : Type} [RandomSource σ] (source : σ) (operation : Operation K)
      {p : Participant K} (h : Reachable p) : Reachable ((operation.perform p).run source).1

theorem Reachable.derivePowerMap {p : Participant K} (h : p.Reachable) :
    p.derivePowerMap.2.Reachable :=
  .performed (Tape.new [] [] "") .derivePowerMap h

theorem Reachable.deriveJoint {p : Participant K} (h : p.Reachable) :
    p.deriveJoint.2.Reachable :=
  .performed (Tape.new [] [] "") .deriveJoint h

theorem Reachable.importJoint {p : Participant K} (h : p.Reachable) (snapshot : Bytes)
    (recompute : Bool) : (p.importJoint snapshot recompute).2.Reachable :=
  .performed (Tape.new [] [] "") (.importJoint snapshot recompute) h

/-! ### Sound participants -/

/-- What holds of a participant whatever operations it has gone through. -/
structure Sound (p : Participant K) : Prop where
  one_le_threshold : 1 ≤ p.threshold
  threshold_le : p.threshold ≤ p.n
  n_lt : p.n < maxSlots
  length_points : ∀ i c, p.commitments.slots.get? i = some c →
    (c.points.length : Int) = p.threshold
  gaps_ne_nil : ∀ i places, p.gaps.get? i = some places → places ≠ []
  gaps_registered : ∀ i places, p.gaps.get? i = some places →
    1 ≤ i ∧ i ≤ p.dealers ∧ (p.commitments.slots.get? i).isSome
  powerMap_eq : ∀ m, p.powerMap = some m → PowerMap.derive p.n p.threshold = .ok m

section Rules

omit [Suite K]

/-- A dealer whose commitment has not come has no gaps noted. -/
theorem Sound.gapsOf_eq_nil {p : Participant K} (h : p.Sound) {sender : Int}
    (hnone : p.commitments.slots.get? sender = none) : p.gapsOf sender = [] := by
  rw [gapsOf]
  cases hgaps : p.gaps.get? sender with
  | none => rfl
  | some places =>
    have hregistered := (h.gaps_registered sender places hgaps).2.2
    rw [hnone] at hregistered
    cases hregistered

theorem Sound.caughtUp {p : Participant K} (h : p.Sound) : p.caughtUp.Sound := by
  rw [Participant.caughtUp]
  split
  · exact { h with }
  · exact h

/-- Storing a commitment of the right length in an empty slot, and the places that it lacks. -/
theorem Sound.register {p : Participant K} (h : p.Sound) {sender : Int} {commitment : Commitment K}
    {places : List Nat} {gaps : Mapping Int (List Nat)}
    (hsender : 1 ≤ sender ∧ sender ≤ p.dealers)
    (hlength : (commitment.points.length : Int) = p.threshold)
    (hnone : p.commitments.slots.get? sender = none)
    (hgaps : p.gapsOf sender = places ∧ gaps = p.gaps ∨
      p.gapsOf sender ≠ places ∧ gaps = p.gaps.put sender places) :
    Sound { p with
      commitments := { p.commitments with
        slots := p.commitments.slots.put sender commitment }
      gaps } := by
  have hnoted : ∀ i found, gaps.get? i = some found →
      p.gaps.get? i = some found ∨ i = sender ∧ found ≠ [] := by
    intro i found hfound
    obtain ⟨_, rfl⟩ | ⟨hne, rfl⟩ := hgaps
    · exact .inl hfound
    · rw [Mapping.get?_put] at hfound
      split at hfound
      · rw [h.gapsOf_eq_nil hnone, Option.some.inj hfound] at hne
        exact .inr ⟨‹_›, hne.symm⟩
      · exact .inl hfound
  refine { h with length_points := fun i c hc => ?_
                  gaps_ne_nil := fun i found hfound => ?_
                  gaps_registered := fun i found hfound => ?_ }
  · rw [Mapping.get?_put] at hc
    split at hc
    · rw [← Option.some.inj hc]
      exact hlength
    · exact h.length_points i c hc
  · rcases hnoted i found hfound with hold | ⟨_, hne⟩
    · exact h.gaps_ne_nil i found hold
    · exact hne
  · rw [Mapping.get?_put]
    rcases hnoted i found hfound with hold | ⟨rfl, _⟩
    · obtain ⟨h₁, h₂, hregistered⟩ := h.gaps_registered i found hold
      exact ⟨h₁, h₂, by split <;> simp [hregistered]⟩
    · exact ⟨hsender.1, hsender.2, by simp⟩

end Rules

/-- Every rule keeps a participant sound. -/
theorem Sound.change {source : σ} {operation : Operation K} {p p' : Participant K} (h : p.Sound)
    (hchange : Change source operation p p') : p'.Sound := by
  cases hchange with
  | unchanged => exact h
  | repeated => exact h.caughtUp
  | registered hsender hlength hnone hgaps =>
    exact (h.register hsender hlength hnone hgaps).caughtUp
  | preparedPowers _ hm => exact { h with powerMap_eq := by rintro _ ⟨⟩; exact hm }
  | failed | dealt | received | verified | signed | derivedJoint | derivedShareMap
  | importedJoint | importedShareMap | publishedOwn | published | keyed | advanced | aborted =>
    exact { h with }

theorem Fresh.sound {p : Participant K} (h : p.Fresh) : p.Sound := by
  obtain ⟨hone, hle, hlt, hlength⟩ := h
  refine ⟨Int.ofNat_le.2 hone, hle, hlt, fun i c hc => ?_, ?_, ?_, ?_⟩
  · rw [newcomer] at hc
    dsimp only at hc
    rw [Mapping.get?_put] at hc
    split at hc
    · rw [← Option.some.inj hc]
      exact congrArg Nat.cast hlength
    · cases hc
  · rintro i places ⟨⟩
  · rintro i places ⟨⟩
  · rintro m ⟨⟩

/-- All participants to which operations lead are sound. -/
theorem Reachable.sound {p : Participant K} (h : Reachable p) : p.Sound := by
  induction h with
  | created source n threshold position dealers context p h =>
    exact (fresh_create n threshold position dealers context source p h).sound
  | performed source operation _ ih => exact ih.change (change_perform source _ operation)

/-- No more dealers than share indices take part in a run. -/
theorem Reachable.dealers_le {p : Participant K} (h : Reachable p) : p.dealers ≤ p.n := by
  induction h with
  | created source n threshold position dealers context p h =>
    exact dealers_le_create n threshold position dealers context source p h
  | @performed _ _ source operation p _ ih =>
    have hchange := change_perform source p operation
    rw [hchange.dealers_eq, hchange.n_eq]
    exact ih

/-- A participant is one of the dealers. -/
theorem Reachable.position_mem {p : Participant K} (h : Reachable p) :
    p.position ∈ upTo p.dealers := by
  induction h with
  | created source n threshold position dealers context p h =>
    exact mem_upTo.2 (position_create n threshold position dealers context source p h)
  | @performed _ _ source operation p _ ih =>
    have hchange := change_perform source p operation
    rw [hchange.dealers_eq, hchange.parameters_eq.2]
    exact ih

omit [Suite K] in
/-- When no dealer's commitment has gaps, none are noted. -/
theorem Sound.gaps_keys_eq_nil {p : Participant K} (h : p.Sound)
    (hwhole : ∀ i, 1 ≤ i → i ≤ p.dealers → p.gapsOf i = []) : p.gaps.keys = [] := by
  apply List.eq_nil_iff_forall_not_mem.2
  intro i hi
  obtain ⟨places, hplaces⟩ := Option.isSome_iff_exists.1 (Mapping.mem_keys_iff.1 hi)
  obtain ⟨h₁, h₂, _⟩ := h.gaps_registered i places hplaces
  apply h.gaps_ne_nil i places hplaces
  rw [← hwhole i h₁ h₂, gapsOf, hplaces, Option.getD_some]

/-- The commitments of a sound participant that has all of them belong to a sharing. -/
theorem Sound.exists_committedIn [LawfulSuite K] {p : Participant K} (h : p.Sound)
    (hcomplete : p.commitments.missing = []) : ∃ s : Sharing, s.CommittedIn p.commitments := by
  have hpos := h.one_le_threshold
  have hthreshold : p.commitments.threshold = p.threshold.toNat := by
    rw [Int.toNat_of_nonneg (by omega)]
    rfl
  apply Sharing.exists_committedIn hthreshold hcomplete
  intro i c hc
  have := h.length_points i c hc
  omega

/-! ### The smallest run -/

/-- The only participant of a run, whose polynomial is the constant one. -/
def lone : Participant ResidueKey := newcomer 1 1 1 1 (.bytes []) [1]

theorem reachable_lone : lone.Reachable :=
  .created (Tape.new [[1]] [] "") 1 1 1 none (.bytes []) lone rfl

/-! ### A run of three -/

/-- What three dealers deal when two shares determine the key. -/
def trioSharing : Sharing := ⟨3, 2, fun i => [.ofInt i, .ofInt (i + 3)], fun _ _ _ => rfl⟩

/-- The commitment of one of the three. -/
def trioCommitment (i : Int) : Commitment ResidueKey := .ofCoefficients (trioSharing.dealt i)

/-- The commitments of all three. -/
def trioTable : CommitmentTable ResidueKey :=
  ⟨3, 2, ((Mapping.empty.put 1 (trioCommitment 1)).put 2 (trioCommitment 2)).put 3
    (trioCommitment 3)⟩

theorem committedIn_trioTable : trioSharing.CommittedIn trioTable where
  dealers_eq := rfl
  threshold_eq := rfl
  get?_eq i h₁ h₂ := by
    obtain rfl | rfl | rfl : i = 1 ∨ i = 2 ∨ i = 3 := by
      have : i ≤ 3 := h₂
      omega
    all_goals rfl

/-- What the three deal to an index. -/
def trioShares (x : Int) : Inbox :=
  .ofList ((upTo 3).map fun i => (i, (trioSharing.dealt i).evaluate x))

theorem dealtTo_trioShares (x : Int) : trioSharing.DealtTo x (trioShares x) := by
  intro i
  rw [trioShares, Mapping.get?_ofList]
  rfl

/-- The first of the three, once all commitments have come. -/
def trio : Participant ResidueKey :=
  { newcomer 3 3 2 1 (.bytes []) (trioSharing.dealt 1) with
    commitments := trioTable
    stage := .commitmentsExchanged }

theorem reachable_trio : trio.Reachable :=
  .performed (Tape.new [] [] "") (.receivePublication 3 (.ofCommitment (trioCommitment 3)))
    (.performed (Tape.new [] [] "") (.receivePublication 2 (.ofCommitment (trioCommitment 2)))
      (.created (Tape.new [[1], [4]] [] "") 3 2 1 none (.bytes [])
        (newcomer 3 3 2 1 (.bytes []) (trioSharing.dealt 1)) rfl))

end Participant

end ThresholdKeygen
