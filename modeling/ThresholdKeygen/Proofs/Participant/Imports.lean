import ThresholdKeygen.Proofs.Participant.Reachable
import ThresholdKeygen.Proofs.PublicMap

/-!
# Imports of public maps

What a participant stores when it imports a public map and recomputes it. A joint commitment is then
the sum of its own commitments. Public shares are those of the joint commitment that it has, which
may itself have been imported unseen; they belong to its own commitments as long as none has. Main
statement: `recomputed_imports`.
-/

namespace ThresholdKeygen.Participant

variable {K : Type} [Suite K] {σ : Type} [RandomSource σ]

/-! ### Vouched participants -/

/-- That an operation imports no joint commitment unseen. -/
def Operation.Vouched : Operation K → Prop
  | .importJoint _ recompute => recompute = true
  | _ => True

/-- The participants to which operations lead of which none imports a joint commitment unseen. -/
inductive Vouched : Participant K → Prop where
  | created {σ : Type} [RandomSource σ] (source : σ) (n threshold position : Int)
      (dealers : Option Int) (context : Item K) (p : Participant K)
      (h : ((create n threshold position dealers context).run.run source).1 = .ok p) : Vouched p
  | performed {σ : Type} [RandomSource σ] (source : σ) (operation : Operation K)
      {p : Participant K} (h : Vouched p) (hvouched : operation.Vouched) :
      Vouched ((operation.perform p).run source).1

/-- That a stored joint commitment is the sum of the own commitments. -/
def OwnJoint (p : Participant K) : Prop := ∀ q, p.joint = some q → p.sumCommitments = .ok q

/-- Where the commitments have been summed up, none is missing. -/
theorem isSome_slot_of_sumCommitments {p : Participant K} {q : JointCommitment K}
    (h : p.sumCommitments = .ok q) {i : Int} (hi : 1 ≤ i ∧ i ≤ p.dealers) :
    (p.commitments.slots.get? i).isSome := by
  obtain ⟨joint, hjoint, -⟩ := bind_eq_ok_iff.1 h
  rw [JointCommitment.derive] at hjoint
  split at hjoint
  · rename_i hcomplete
    rw [List.isEmpty_iff, CommitmentTable.missing, List.filter_eq_nil_iff] at hcomplete
    simpa [Option.isSome_iff_ne_none] using hcomplete i (mem_upTo.2 hi)
  · cases hjoint

/-- Every rule but an import unseen keeps a stored joint commitment the sum of the own ones. -/
theorem OwnJoint.change [LawfulEncoding K] {source : σ} {operation : Operation K}
    {p p' : Participant K} (h : p.OwnJoint) (hchange : Change source operation p p')
    (hvouched : operation.Vouched) : p'.OwnJoint := by
  cases hchange with
  | unchanged => exact h
  | repeated =>
    obtain ⟨stage, heq, -⟩ := exists_caughtUp p
    rw [heq]
    exact h
  | registered hsender _ hnone =>
    -- Once there is a joint commitment, no slot is left for another commitment.
    obtain ⟨stage, heq, -⟩ := exists_caughtUp _
    rw [heq]
    intro q hq
    have hsome := isSome_slot_of_sumCommitments (h q hq) hsender
    rw [hnone] at hsome
    cases hsome
  | derivedJoint _ hown =>
    rintro q ⟨⟩
    exact hown
  | importedJoint _ _ _ hown =>
    rintro q ⟨⟩
    obtain ⟨own, hsum, hsame⟩ := hown hvouched
    exact bne_eq_false_iff_eq.1 hsame ▸ hsum
  | failed | dealt | received | preparedPowers | verified | signed | derivedShareMap
  | importedShareMap | publishedOwn | published | keyed | advanced | aborted =>
    exact fun q hq => h q hq

theorem Vouched.ownJoint [LawfulEncoding K] {p : Participant K} (h : p.Vouched) : p.OwnJoint := by
  induction h with
  | created source n threshold position dealers context p h =>
    obtain ⟨⟩ := fresh_create n threshold position dealers context source p h
    rintro q ⟨⟩
  | performed source operation _ hvouched ih =>
    exact ih.change (change_perform source _ operation) hvouched

/-- A joint commitment that is imported and recomputed is the sum of the own commitments. Public
shares that are imported and recomputed are those of the joint commitment that is stored; they are
those of the own commitments when no joint commitment has ever been imported unseen. -/
theorem recomputed_imports [LawfulEncoding K] (p : Participant K) (snapshot : Bytes) :
    (∀ q, (p.importJoint snapshot true).1 = .ok q →
      p.importJoint snapshot true = (.ok q, { p with joint := some q }) ∧
        p.sumCommitments = .ok q) ∧
    ∀ w, (p.importShareMap snapshot true).1 = .ok w →
      p.importShareMap snapshot true = (.ok w, { p with shareMap := some w }) ∧
        ∃ q m, p.powerMap = some m ∧ ShareMap.derive q m = .ok w ∧
          (p.joint = some q ∨ p.joint = none ∧ p.sumCommitments = .ok q) ∧
          (p.Vouched → p.sumCommitments = .ok q) := by
  refine ⟨fun q h => ?_, fun w h => ?_⟩
  · obtain ⟨hstored, -, -, -, hown⟩ := of_importJoint_eq_ok h
    obtain ⟨own, hsum, hsame⟩ := hown rfl
    obtain rfl := bne_eq_false_iff_eq.1 hsame
    exact ⟨hstored, hsum⟩
  · obtain ⟨hstored, -, -, -, hown⟩ := of_importShareMap_eq_ok h
    obtain ⟨q, m, own, hjoint, hm, hderive, hsame⟩ := hown rfl
    obtain rfl := bne_eq_false_iff_eq.1 hsame
    refine ⟨hstored, q, m, hm, hderive, hjoint, fun hvouched => ?_⟩
    obtain hsome | ⟨-, hsum⟩ := hjoint
    · exact hvouched.ownJoint q hsome
    · exact hsum

theorem vouched_trio : trio.derivePowerMap.2.Vouched :=
  .performed (Tape.new [] [] "") .derivePowerMap
    (.performed (Tape.new [] [] "") (.receivePublication 3 (.ofCommitment (trioCommitment 3)))
      (.performed (Tape.new [] [] "") (.receivePublication 2 (.ofCommitment (trioCommitment 2)))
        (.created (Tape.new [[1], [4]] [] "") 3 2 1 none (.bytes [])
          (newcomer 3 3 2 1 (.bytes []) (trioSharing.dealt 1)) rfl) trivial) trivial) trivial

/-- Both maps of a run of three are imported and recomputed. -/
theorem exists_recomputed_imports : ∃ (p : Participant ResidueKey) (joint shares : Bytes)
    (q : JointCommitment ResidueKey) (w : ShareMap ResidueKey) (m : PowerMap), p.Vouched ∧
      p.importJoint joint true = (.ok q, { p with joint := some q }) ∧
      p.importShareMap shares true = (.ok w, { p with shareMap := some w }) ∧
      p.sumCommitments = .ok q ∧ p.powerMap = some m ∧ ShareMap.derive q m = .ok w ∧
      q.threshold = 2 ∧ w.size = 3 := by
  let q : JointCommitment ResidueKey := trioSharing.jointCommitment
  let w : ShareMap ResidueKey := trioSharing.shareMap 3
  obtain ⟨joint, hjoint⟩ : ∃ bytes, q.toBytes = .ok bytes := Snapshot.exists_pack .joint (by decide)
  obtain ⟨shares, hshares⟩ : ∃ bytes, w.toBytes = .ok bytes :=
    Snapshot.exists_pack .shares (by decide)
  have hread := JointCommitment.ofBytes?_toBytes hjoint (by decide)
  have hreadShares := ShareMap.ofBytes?_toBytes hshares
  obtain ⟨hstored, hown⟩ := (recomputed_imports trio.derivePowerMap.2 joint).1 q
    (by rw [importJoint, hread]; rfl)
  obtain ⟨hstoredShares, q', m, hm, hderive, -, hvouched⟩ :=
    (recomputed_imports trio.derivePowerMap.2 shares).2 w
      (by rw [importShareMap, hreadShares]; rfl)
  obtain rfl := Except.ok.inj (hown.symm.trans (hvouched vouched_trio))
  exact ⟨_, _, _, _, _, m, vouched_trio, hstored, hstoredShares, hown, hm, hderive, rfl, rfl⟩

/-- The joint commitment of the only participant of a run. -/
def loneJoint : JointCommitment ResidueKey := ⟨[.ofScalar 1]⟩

/-- The public shares that belong to it. -/
def loneShares : ShareMap ResidueKey := ⟨[.ofScalar 1]⟩

/-- A joint commitment that nobody has agreed on. -/
def foreignJoint : JointCommitment ResidueKey := ⟨[.ofScalar (.ofNat 5)]⟩

/-- The public shares that belong to it. -/
def foreignShares : ShareMap ResidueKey := ⟨[.ofScalar (.ofNat 5)]⟩

/-- The only participant of a run, which has imported a foreign joint commitment unseen. -/
def misled : Participant ResidueKey :=
  { lone.derivePowerMap.2 with joint := some foreignJoint }

theorem reachable_misled : misled.Reachable := by
  obtain ⟨bytes, hbytes⟩ : ∃ bytes, foreignJoint.toBytes = .ok bytes :=
    Snapshot.exists_pack .joint (by decide)
  have himport : (lone.derivePowerMap.2.importJoint bytes false).2 = misled := by
    rw [importJoint, JointCommitment.ofBytes?_toBytes hbytes (by decide)]
    rfl
  rw [← himport]
  exact reachable_lone.derivePowerMap.importJoint _ false

theorem importShareMap_misled {bytes : Bytes} (hbytes : foreignShares.toBytes = .ok bytes) :
    misled.importShareMap bytes true =
      (.ok foreignShares, { misled with shareMap := some foreignShares }) := by
  rw [importShareMap, ShareMap.ofBytes?_toBytes hbytes]
  rfl

/-- Public shares of a foreign joint commitment pass for recomputed ones once that commitment has
been imported unseen. -/
theorem exists_foreign_import : ∃ (p : Participant ResidueKey) (snapshot : Bytes)
    (w : ShareMap ResidueKey), p.Reachable ∧ (p.importShareMap snapshot true).1 = .ok w ∧
      ∃ q m own, p.sumCommitments = .ok q ∧ p.powerMap = some m ∧ ShareMap.derive q m = .ok own ∧
        own ≠ w := by
  obtain ⟨bytes, hbytes⟩ : ∃ bytes, foreignShares.toBytes = .ok bytes :=
    Snapshot.exists_pack .shares (by decide)
  refine ⟨misled, bytes, foreignShares, reachable_misled, ?_, loneJoint, ⟨1, [[1]]⟩, loneShares,
    rfl, rfl, rfl, ?_⟩
  · rw [importShareMap_misled hbytes]
  · intro h
    have hpoints := congrArg (fun w : ShareMap ResidueKey => w.shares.map Point.toBytes) h
    revert hpoints
    decide

end ThresholdKeygen.Participant
