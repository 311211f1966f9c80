import ThresholdKeygen.Proofs.Ceremony.Preparation

/-!
# Weighted ceremonies that simulate plain ones

A weighted ceremony with as many key slots as parties does what a plain ceremony does, whatever
shares are put in place of those that were dealt: the same positions fail to verify them and blame
the same dealers, and where nobody fails both end with the same keys or both fail.
Main statement: `slotted_simulates_plain`.
-/

namespace ThresholdKeygen

open Ceremony

variable {K : Type} [Suite K] {σ : Type}

/-! ### Replaced shares -/

/-- Every participant stores an inbox over the shares that it has received. -/
def Plain.replaceInboxes (inbox : Int → Inbox) : Plain.Action σ K Unit := do
  (List.range (← get).members.length).forM fun place => do
    let _ ← onMember place fun p : Participant K => p.receiveShares (.ofInbox (inbox p.position))

/-- Every party stores an inbox for the slot that is its position. -/
def Weighted.replaceInboxes (inbox : Int → Inbox) : Weighted.Action σ K Unit := do
  (List.range (← get).members.length).forM fun place => do
    let _ ← onMember place fun w : WeightedParty K =>
      w.storeShares w.position (.ofInbox (inbox w.position))

/-- That everybody is given an inbox with a share from every dealer and from nobody else. -/
def FromAll (n : Int) (inbox : Int → Inbox) : Prop :=
  ∀ x ∈ upTo n, ∀ i, i ∈ (inbox x).keys ↔ i ∈ upTo n

/-- A participant that has shares of which nothing is known, beside a party that has the same. -/
structure Tampered (s : Sharing) (n x : Int) (p : Participant K) (w : WeightedParty K) : Prop where
  honest : p.Honest s n x
  le_stage : .sharesDistributed ≤ p.stage
  mirrors : Mirrors n (Loaded n) x p w

variable {config config' : Config} {s : Sharing} {n : Int} {inbox : Int → Inbox}
  {c : Ceremony (Participant K)} {d : Ceremony (WeightedParty K)}

/-- Both put the same shares in place of those that were dealt. -/
theorem inStep_replaceInboxes (hinbox : FromAll n inbox) (hdealers : s.dealers = n)
    (h : c.Abreast config config' (fun x p w => p.Supplied s n x ∧ Mirrors n Open x p w) d) :
    (Plain.replaceInboxes inbox : Plain.Action σ K Unit).InStep c (Weighted.replaceInboxes inbox) d
      (fun _ c' _ d' => c'.Abreast config config' (Tampered s n) d') fun _ _ _ _ => False := by
  refine .bind (.get (inStep_onMembers (fun x p w hpair => ?_) h))
  obtain ⟨hsupplied, hmirrors⟩ := hpair
  have hposition : w.position = x := by
    rw [WeightedParty.position, hmirrors.core_eq]
    exact hmirrors.position_eq
  have hstage : ¬ .sharesVerified ≤ p.stage := by
    rw [hsupplied.stage_eq]
    decide
  obtain ⟨hreceive, w', hstore, hmirrors'⟩ := hmirrors.replace
    hsupplied.consistent.failure_eq hstage
    (fun i hi => hdealers ▸ hsupplied.dealtTo.mem_keys_iff.1 hi) (hinbox x hmirrors.position_mem)
  rw [hposition, hsupplied.position_eq, hreceive, hstore]
  exact .ok { hsupplied with
    honest := { hsupplied with consistent := { hsupplied.consistent with } }
    le_stage := Nat.le_of_eq (congrArg Stage.rank hsupplied.stage_eq.symm)
    mirrors := hmirrors' }

/-! ### Verification -/

/-- Both prepare the same powers. -/
theorem Tampered.derivePowerMap {x : Int} {p : Participant K} {w : WeightedParty K}
    (h : Tampered s n x p w) :
    Alike (fun _ p' _ w' => Tampered s n x p' w' ∧ p'.powerMap.isSome) (fun _ _ _ _ => False)
      (forget p.derivePowerMap) (onCore w fun p => forget p.derivePowerMap) := by
  obtain ⟨m, hderive, hm⟩ := h.honest.consistent.derivePowerMap_eq
  obtain ⟨w', hderive', hmirrors⟩ :=
    h.mirrors.exists_onCore Participant.blind_derivePowerMap.forget (forget_eq hderive)
  rw [forget_eq hderive, hderive']
  exact .ok ⟨⟨{ h.honest with consistent := h.honest.consistent.consistent_powerMap hm },
    h.le_stage, hmirrors⟩, rfl⟩

section Verification

variable [LawfulSuite K] [RandomSource σ]

/-- Both verify the same shares, at the same positions. -/
theorem inStep_verifyShares (h : c.Abreast config config' (Tampered s n) d) :
    (Plain.verifyShares : Plain.Action σ K Unit).InStep c Weighted.verifyShares d
      (fun _ c' _ d' => c'.Abreast config config' (Mirrors n (Loaded n)) d')
      (RefusedAlike config.participants "verify-batch-public-secret-shares" (Mirrors n (Loaded n))
        FailedAlike) := by
  refine .bind ((inStep_steadyRound _ (fun _ _ _ htampered => htampered.derivePowerMap) h).mono
    (fun _ c₁ _ d₁ h₁ => ?_) fun _ _ _ _ hrefused => hrefused.elim.elim)
  refine inStep_round _ (fun x p w htampered => ?_) h₁
  obtain ⟨⟨hhonest, hstage, hmirrors⟩, hpowers⟩ := htampered
  obtain ⟨powerMap, hm⟩ := Option.isSome_iff_exists.1 hpowers
  exact hmirrors.verify hhonest.consistent hm hstage

end Verification

/-- That a participant and a party are at the same position, have stopped at the same stage, and
both have recorded a failure or both have not. -/
structure SameStanding (x : Int) (p : Participant K) (w : WeightedParty K) : Prop where
  position_eq : p.position = x
  position'_eq : w.position = x
  stage_eq : p.stage = w.core.stage
  aborted_eq : p.aborted = w.core.aborted

/-- That the members at every place are in the same standing. -/
structure SameProgress (c : Ceremony (Participant K)) (d : Ceremony (WeightedParty K)) : Prop where
  length_eq : d.members.length = c.members.length
  same : ∀ (place : Nat) p w, c.members[place]? = some p → d.members[place]? = some w →
    SameStanding (place + 1) p w

/-- That two failures are at the same position and blame the same. -/
def BlameAlike (failure failure' : Int × Error) : Prop :=
  failure.1 = failure'.1 ∧ failure.2.offenders = failure'.2.offenders

/-- That two rounds have been aborted by failures at the same positions, which blame the same. -/
def AbortedAlike (name : String) (refusal refusal' : Error) : Prop :=
  ∃ failures failures', refusal = .roundAborted name failures ∧
    refusal' = .roundAborted name failures' ∧ List.Forall₂ BlameAlike failures failures'

theorem forall₂_insertFailure {position : Int} {refusal refusal' : Error}
    (hnew : refusal.offenders = refusal'.offenders) {sorted sorted' : List (Int × Error)}
    (h : List.Forall₂ BlameAlike sorted sorted') :
    List.Forall₂ BlameAlike (Error.insertFailure position refusal sorted)
      (Error.insertFailure position refusal' sorted') := by
  induction h with
  | nil => exact .cons ⟨rfl, hnew⟩ .nil
  | @cons first first' rest rest' hfirst hrest ih =>
    obtain ⟨other, error⟩ := first
    obtain ⟨other', error'⟩ := first'
    obtain ⟨rfl, hsame⟩ := hfirst
    rw [Error.insertFailure, Error.insertFailure]
    split
    · exact .cons ⟨rfl, hnew⟩ (.cons ⟨rfl, hsame⟩ hrest)
    · split
      · exact .cons ⟨rfl, hnew⟩ hrest
      · exact .cons ⟨rfl, hsame⟩ ih

theorem forall₂_byPosition {failures failures' : List (Int × Error)}
    (h : List.Forall₂ BlameAlike failures failures') :
    List.Forall₂ BlameAlike (Error.byPosition failures) (Error.byPosition failures') := by
  let insert (sorted : List (Int × Error)) (failure : Int × Error) : List (Int × Error) :=
    Error.insertFailure failure.1 failure.2 sorted
  suffices hfold : ∀ sorted sorted', List.Forall₂ BlameAlike sorted sorted' →
      List.Forall₂ BlameAlike (failures.foldl insert sorted) (failures'.foldl insert sorted') from
    hfold [] [] .nil
  induction h with
  | nil => exact fun _ _ hsorted => hsorted
  | @cons failure failure' rest rest' hfailure _ ih =>
    intro sorted sorted' hsorted
    obtain ⟨position, refusal⟩ := failure
    obtain ⟨rfl, hoffenders⟩ := hfailure
    exact ih _ _ (forall₂_insertFailure hoffenders hsorted)

omit [Suite K] in
/-- Refusals that blame the same abort a round with the same failures. -/
theorem Ceremony.RefusedAlike.abortedAlike {name : String}
    {R : Int → Participant K → WeightedParty K → Prop} {refusal refusal' : Error}
    (h : RefusedAlike n name R FailedAlike refusal c refusal' d) :
    AbortedAlike name refusal refusal' := by
  obtain ⟨refused, refused', hpaired, hsettle, hsettle'⟩ := h.settled
  have hrefused : List.Forall₂ (fun entry entry' => (entry.2.isProtocol = true ∧
      entry'.2.isProtocol = true) ∧ BlameAlike entry entry') refused refused' := by
    refine hpaired.imp fun entry entry' hentry => ?_
    obtain ⟨x, p, w, hfailed, hposition, hposition'⟩ := hentry
    refine ⟨⟨hfailed.isProtocol, hfailed.isProtocol'⟩, ?_, hfailed.offenders_eq⟩
    rw [← hposition, ← hposition']
    exact hfailed.position_eq.trans hfailed.position'_eq.symm
  obtain ⟨hprotocol, hsame⟩ := (List.forall₂_and_left (R := BlameAlike)
    (p := fun entry => entry.2.isProtocol = true) _ _).1
      (hrefused.imp fun _ _ hentry => ⟨hentry.1.1, hentry.2⟩)
  obtain ⟨hprotocol', -⟩ := (List.forall₂_and_left (R := flip BlameAlike)
    (p := fun entry => entry.2.isProtocol = true) _ _).1
      (.flip (hrefused.imp fun _ _ hentry => ⟨hentry.1.2, hentry.2⟩))
  have hne : refused ≠ [] := by
    rintro rfl
    cases hsettle
  have hne' : refused' ≠ [] := by
    rintro rfl
    cases hsettle'
  rw [settle_of_isProtocol hprotocol hne] at hsettle
  rw [settle_of_isProtocol hprotocol' hne'] at hsettle'
  exact ⟨_, _, (Except.error.inj hsettle).symm, (Except.error.inj hsettle').symm,
    forall₂_byPosition hsame⟩

section Progress

omit [Suite K]

variable {Φ : Holdings} {x : Int} {p : Participant K} {w : WeightedParty K}

theorem Mirrors.sameStanding (h : Mirrors n Φ x p w) : SameStanding x p w where
  position_eq := h.position_eq
  position'_eq := (congrArg Participant.position h.core_eq).trans h.position_eq
  stage_eq := (congrArg Participant.stage h.core_eq).symm
  aborted_eq := (congrArg Participant.aborted h.core_eq).symm

theorem FailedAlike.sameStanding {refusal refusal' : Error}
    (h : FailedAlike x refusal p refusal' w) : SameStanding x p w where
  position_eq := h.position_eq
  position'_eq := h.position'_eq
  stage_eq := h.stage_eq
  aborted_eq := h.aborted.trans h.aborted'.symm

theorem Ceremony.Abreast.sameProgress (h : c.Abreast config config' (Mirrors n Φ) d) :
    SameProgress c d :=
  ⟨h.length'_eq, fun place p w hp hw => (h.beside place p w hp hw).sameStanding⟩

theorem Ceremony.RefusedAlike.sameProgress {name : String} {refusal refusal' : Error}
    (h : RefusedAlike n name (Mirrors n Φ) FailedAlike refusal c refusal' d) :
    SameProgress c d := by
  refine ⟨h.length'_eq, fun place p w hp hw => ?_⟩
  obtain hmirrors | ⟨_, _, hfailed⟩ := h.beside place p w hp hw
  · exact hmirrors.sameStanding
  · exact hfailed.sameStanding

end Progress

/-! ### Keys -/

section Keys

variable {Φ : Holdings}

theorem same_answer {S T α : Type} {u : S} {v : T} (answer : Except Error α)
    {Q : α → S → α → T → Prop} (hQ : ∀ a, Q a u a v) :
    Alike Q (fun _ _ _ _ => True) (answer, u) (answer, v) := by
  cases answer with
  | error => exact .error trivial
  | ok a => exact .ok (hQ a)

theorem inStep_importMaps (h : c.Abreast config config' (Mirrors n Φ) d) (joint shareMap : Bytes)
    (recompute : Bool) {schedule : List Nat} (hnodup : schedule.Nodup) :
    (roundAmong "parse-q-w-map" schedule (steadyTask fun p =>
      onCore p (importMaps joint shareMap recompute)) : Plain.Action σ K Unit).InStep c
      (roundAmong "parse-q-w-map" schedule (steadyTask fun w =>
        onCore w (importMaps joint shareMap recompute)) : Weighted.Action σ K Unit) d
      (fun _ c' _ d' => c'.Abreast config config' (Mirrors n Φ) d') fun _ _ _ _ => True := by
  have himport : ∀ x (p : Participant K) (w : WeightedParty K), Mirrors n Φ x p w →
      Together (σ := σ) (fun _ p' _ w' => Mirrors n Φ x p' w') (fun _ _ _ _ => True)
        (steadyTask (fun p => onCore p (importMaps joint shareMap recompute)) p)
        (steadyTask (fun w => onCore w (importMaps joint shareMap recompute)) w) :=
    fun x p w hmirrors source =>
      ⟨hmirrors.onCore (Participant.blind_importMaps joint shareMap recompute), rfl⟩
  exact (inStep_roundAmong _ hnodup himport (fun _ _ _ _ _ hmirrors => hmirrors) h).mono
    (fun _ _ _ _ hleft => hleft) fun _ _ _ _ _ => trivial

/-- Snapshots of the same maps are imported. -/
theorem inStep_propagateMaps (hmode : config'.mapMode = config.mapMode)
    (h : c.Abreast config config' (Mirrors n Φ) d) :
    (propagateMaps : Plain.Action σ K Unit).InStep c propagateMaps d
      (fun _ c' _ d' => c'.Abreast config config' (Mirrors n Φ) d') fun _ _ _ _ => True := by
  refine .bind ((inStep_onCore h 0 Participant.blind_deriveJoint).mono (fun _ c₁ _ d₁ h₁ => ?_)
    fun _ _ _ _ _ => trivial)
  refine .bind ((inStep_onCore h₁ 0 Participant.blind_deriveShareMap).mono
    (fun _ c₂ _ d₂ h₂ => ?_) fun _ _ _ _ _ => trivial)
  refine .bind (.get ?_)
  have hlength := h₂.length'_eq
  cases hmembers : c₂.members with
  | nil =>
    rw [hmembers, List.length_nil, List.length_eq_zero_iff] at hlength
    rw [hlength]
    exact .pure h₂
  | cons first others =>
    rw [hmembers] at hlength
    obtain ⟨first', others', hmembers'⟩ := List.exists_cons_of_length_eq_add_one hlength
    rw [hmembers', List.length_cons, List.length_cons, Nat.add_right_cancel_iff] at hlength
    have hcore : Member.core first' = first.bare :=
      (h₂.beside 0 first first' (by rw [hmembers]; rfl) (by rw [hmembers']; rfl)).core_eq
    rw [hmembers']
    dsimp only
    rw [hcore, hlength]
    -- what is bare has the same snapshots
    refine .bind (.steady (same_answer first.jointSnapshot fun joint => ?_))
    refine .bind (.steady (same_answer first.shareMapSnapshot fun shareMap => ?_))
    refine .bind (.modify (.bind (.get ?_)))
    have hrecorded := h₂.record "derive-external-q-w-map"
    rw [hrecorded.config_eq, hrecorded.config'_eq, hmode]
    exact inStep_importMaps hrecorded joint shareMap _ List.nodup_range'

/-- Both publish what the same public maps tell of the others. -/
theorem Mirrors.publishShares {x : Int} {p : Participant K} {w : WeightedParty K}
    (h : Mirrors n Φ x p w) :
    Alike (fun _ p' _ w' => Mirrors n Φ x p' w') (fun _ _ _ _ => True)
      (forget (p.publishShares [p.position])) (forget w.publishShares) := by
  rw [WeightedParty.publishShares, h.members_eq, h.position_eq]
  exact (h.onCore (Participant.blind_publishShares [x])).forget

/-- Both compute the same signing shares and public shares, or neither succeeds. -/
theorem inStep_derivePublicShares (hmode : config'.mapMode = config.mapMode)
    (h : c.Abreast config config' (Mirrors n (Loaded n)) d) :
    (Plain.derivePublicShares : Plain.Action σ K Unit).InStep c Weighted.derivePublicShares d
      (fun _ c' _ d' => c'.Abreast config config' (Mirrors n HasShare) d')
      fun _ _ _ _ => True := by
  refine .bind ((inStep_steadyRound _ (fun _ _ _ hmirrors => hmirrors.computeOwnShare) h).mono
    (fun _ c₁ _ d₁ h₁ => ?_) fun _ _ _ _ _ => trivial)
  refine .bind ((inStep_propagateMaps hmode h₁).mono (fun _ c₂ _ d₂ h₂ => ?_)
    fun _ _ _ _ _ => trivial)
  exact (inStep_steadyRound _ (fun _ _ _ hmirrors => hmirrors.publishShares) h₂).mono
    (fun _ _ _ _ hleft => hleft) fun _ _ _ _ _ => trivial

/-- Both derive the same group key and agree on it, or neither succeeds. -/
theorem inStep_deriveGroupKey (h : c.Abreast config config' (Mirrors n HasShare) d) :
    (Plain.deriveGroupKey : Plain.Action σ K (Result K)).InStep c Weighted.deriveGroupKey d
      (fun result c' result' d' => result = result' ∧
        c'.Abreast config config' (Mirrors n HasShare) d') fun _ _ _ _ => True := by
  refine .bind ((inStep_steadyRound _ (fun _ _ _ hmirrors => hmirrors.deriveGroupKey) h).mono
    (fun _ c₁ _ d₁ h₁ => ?_) fun _ _ _ _ _ => trivial)
  refine .bind (.get ?_)
  have hcores := Mirrors.cores_eq h₁.forall₂
  refine .bind ((inStep_inspection _ (fun _ _ _ hmirrors =>
    Mirrors.crossCheck_eq_ok_iff hcores hmirrors) h₁).mono (fun _ c₂ _ d₂ h₂ => ?_)
      fun _ _ _ _ _ => trivial)
  refine .bind (.get (.pure ⟨?_, h₂⟩))
  exact Mirrors.result_eq (Mirrors.cores_eq h₂.forall₂) h₂.rounds_eq

/-- The rounds that follow the verification of shares. -/
def Plain.deriveKeys : Plain.Action σ K (Result K) := do
  derivePublicShares
  deriveGroupKey

/-- The rounds that follow the verification of shares. -/
def Weighted.deriveKeys : Weighted.Action σ K (Result K) := do
  derivePublicShares
  deriveGroupKey

/-- That members at the same place have the same signing share, and the same public shares and group
key. -/
structure SameKeys (c : Ceremony (Participant K)) (d : Ceremony (WeightedParty K)) : Prop where
  length_eq : d.members.length = c.members.length
  signingShare_eq : ∀ (place : Nat) p w, c.members[place]? = some p → d.members[place]? = some w →
    ∃ share, p.signingShare = some share ∧ w.signingShareOf (place + 1) = .ok (some share)
  publicShares_eq : ∀ (place : Nat) p w, c.members[place]? = some p → d.members[place]? = some w →
    p.publicShares = w.core.publicShares
  groupKey_eq : ∀ (place : Nat) p w, c.members[place]? = some p → d.members[place]? = some w →
    p.groupKey = w.core.groupKey

omit [Suite K] in
theorem Ceremony.Abreast.sameKeys (h : c.Abreast config config' (Mirrors n HasShare) d) :
    SameKeys c d where
  length_eq := h.length'_eq
  signingShare_eq place p w hp hw := by
    have hmirrors := h.beside place p w hp hw
    obtain ⟨share, hshare⟩ := Option.isSome_iff_exists.1 hmirrors.holdings
    exact ⟨share, hshare, hmirrors.signingShareOf_eq.trans (congrArg Except.ok hshare)⟩
  publicShares_eq place p w hp hw :=
    (congrArg Participant.publicShares (h.beside place p w hp hw).core_eq).symm
  groupKey_eq place p w hp hw :=
    (congrArg Participant.groupKey (h.beside place p w hp hw).core_eq).symm

theorem inStep_deriveKeys (h : c.Abreast config config.slotted (Mirrors n (Loaded n)) d) :
    (Plain.deriveKeys : Plain.Action σ K (Result K)).InStep c Weighted.deriveKeys d
      (fun result c' result' d' => result = result' ∧ SameKeys c' d') fun _ _ _ _ => True := by
  have hmode : config.slotted.mapMode = config.mapMode := rfl
  refine .bind ((inStep_derivePublicShares hmode h).mono (fun _ c₁ _ d₁ h₁ => ?_)
    fun _ _ _ _ _ => trivial)
  exact (inStep_deriveGroupKey h₁).mono (fun _ _ _ _ h₂ => ⟨h₂.1, h₂.2.sameKeys⟩)
    fun _ _ _ _ _ => trivial

end Keys

/-! ### Ceremonies -/

section Ceremonies

variable [RandomSource σ]

/-- Checks proofs when it is asked to. -/
def Ceremony.verifyProofsIf {M : Type} [Member M K] (asked : Bool) : Run σ (Ceremony M) Unit :=
  if asked then verifyProofs else return

/-- The rounds up to the distribution of shares, with or without proofs, and the inboxes that take
the place of the shares then. -/
def Plain.prepare (proofs : Bool) (inbox : Int → Inbox) : Plain.Action σ K Unit := do
  exchangeCommitments
  verifyProofsIf proofs
  distributeShares
  replaceInboxes inbox

/-- The rounds up to the distribution of shares, with or without proofs, and the inboxes that take
the place of the shares then. -/
def Weighted.prepare (proofs : Bool) (inbox : Int → Inbox) : Weighted.Action σ K Unit := do
  exchangeCommitments
  verifyProofsIf proofs
  distributeShares
  replaceInboxes inbox

/-- That members at the same place have drawn the same coefficients. -/
def SameCoefficients (c : Ceremony (Participant K)) (d : Ceremony (WeightedParty K)) : Prop :=
  c.members.map Participant.polynomial = d.members.map fun w => w.core.polynomial

variable [LawfulSuite K]

theorem inStep_prepare (hinbox : FromAll config.participants inbox) (proofs : Bool)
    (h : Paired config s (fun s n x p => p.Enrolled s n x) c d) :
    (Plain.prepare proofs inbox : Plain.Action σ K Unit).InStep c (Weighted.prepare proofs inbox) d
      (fun _ c' _ d' => c'.Abreast config config.slotted (Tampered s config.participants) d')
      fun _ _ _ _ => proofs = true := by
  refine .bind (h.exchangeCommitments.mono (fun _ c₁ _ d₁ h₁ => ?_) fun _ _ _ _ => False.elim)
  have hproofs : (verifyProofsIf proofs : Plain.Action σ K Unit).InStep c₁ (verifyProofsIf proofs)
      d₁ (fun _ c' _ d' => Paired config s (fun s n x p => p.Ready s n x) c' d')
      fun _ _ _ _ => proofs = true := by
    cases proofs with
    | false => exact .pure h₁
    | true => exact h₁.verifyProofs.mono (fun _ _ _ _ h₂ => h₂) fun _ _ _ _ _ => rfl
  refine .bind (hproofs.mono (fun _ c₂ _ d₂ h₂ => ?_) fun _ _ _ _ hrefused => hrefused)
  refine .bind (h₂.distributeShares.mono (fun _ c₃ _ d₃ h₃ => ?_) fun _ _ _ _ => False.elim)
  exact (inStep_replaceInboxes hinbox h₂.dealers_eq h₃).mono (fun _ _ _ _ h₄ => h₄)
    fun _ _ _ _ => False.elim

/-- A weighted ceremony with as many key slots as parties simulates the plain ceremony that draws
the same, whatever shares everybody is given from all dealers in place of those that they have
dealt. Both are created, or both refused with the same refusal; without proofs, nothing is refused
before the shares are verified. These pass in both ceremonies, or fail at the same positions, each
of which blames the same dealers. Where they pass, both ceremonies end with the same keys, or both
fail. -/
theorem slotted_simulates_plain (hplain : config.keys = none)
    (hparticipants : 1 ≤ config.participants) (hinbox : FromAll config.participants inbox)
    (proofs : Bool) :
    (Run.besides (Plain.start config) : Run σ Unit (Ceremony (Participant K))).InStep ()
      (Run.besides (Weighted.start config.slotted)) ()
      (fun c _ d _ => SameCoefficients c d ∧
        (Plain.prepare proofs inbox : Plain.Action σ K Unit).InStep c
          (Weighted.prepare proofs inbox) d
          (fun _ c₁ _ d₁ =>
            (Plain.verifyShares : Plain.Action σ K Unit).InStep c₁ Weighted.verifyShares d₁
              (fun _ c₂ _ d₂ => SameProgress c₂ d₂ ∧
                (Plain.deriveKeys : Plain.Action σ K (Result K)).InStep c₂ Weighted.deriveKeys d₂
                  (fun result c₃ result' d₃ => result = result' ∧ SameKeys c₃ d₃)
                  fun _ _ _ _ => True)
              fun refusal c₂ refusal' d₂ =>
                AbortedAlike "verify-batch-public-secret-shares" refusal refusal' ∧
                  SameProgress c₂ d₂)
          fun _ _ _ _ => proofs = true)
      fun refusal _ refusal' _ => refusal = refusal' := by
  refine (inStep_start hplain hparticipants).mono (fun c _ d _ hstarted => ?_)
    fun _ _ _ _ hrefused => hrefused
  obtain ⟨s, hpaired⟩ := hstarted
  have hcores := congrArg (List.map Participant.polynomial) (Mirrors.cores_eq
    (hpaired.abreast.forall₂.imp fun _ _ hpair => hpair.imp fun _ hpair => hpair.2))
  rw [List.map_map, List.map_map] at hcores
  refine ⟨hcores.symm, ?_⟩
  refine (inStep_prepare hinbox proofs hpaired).mono (fun _ c₁ _ d₁ h₁ => ?_)
    fun _ _ _ _ hrefused => hrefused
  exact (inStep_verifyShares h₁).mono
    (fun _ c₂ _ d₂ h₂ => ⟨h₂.sameProgress, inStep_deriveKeys h₂⟩)
    fun _ _ _ _ hrefused => ⟨hrefused.abortedAlike, hrefused.sameProgress⟩

end Ceremonies

/-- Two participants, each of which is given the shares five and seven. -/
theorem exists_slotted_simulates_plain : ∃ (config : Config) (inbox : Int → Inbox),
    config.keys = none ∧ 1 ≤ config.participants ∧ FromAll config.participants inbox ∧
      (Run.besides (Plain.start config) :
        Run Tape Unit (Ceremony (Participant ResidueKey))).InStep ()
        (Run.besides (Weighted.start config.slotted)) ()
        (fun c _ d _ => SameCoefficients c d ∧
          (Plain.prepare true inbox : Plain.Action Tape ResidueKey Unit).InStep c
            (Weighted.prepare true inbox) d
            (fun _ c₁ _ d₁ => (Plain.verifyShares : Plain.Action Tape ResidueKey Unit).InStep c₁
              Weighted.verifyShares d₁
              (fun _ c₂ _ d₂ => SameProgress c₂ d₂ ∧
                (Plain.deriveKeys : Plain.Action Tape ResidueKey (Result ResidueKey)).InStep c₂
                  Weighted.deriveKeys d₂
                  (fun result c₃ result' d₃ => result = result' ∧ SameKeys c₃ d₃)
                  fun _ _ _ _ => True)
              fun refusal c₂ refusal' d₂ =>
                AbortedAlike "verify-batch-public-secret-shares" refusal refusal' ∧
                  SameProgress c₂ d₂)
            fun _ _ _ _ => true = true)
        fun refusal _ refusal' _ => refusal = refusal' := by
  have hinbox : FromAll 2 fun _ => .ofList [(1, 5), (2, 7)] := by
    intro x _ i
    exact .rfl
  exact ⟨⟨2, 2, none, .bytes [], .broadcast, none⟩, _, rfl, by decide, hinbox,
    slotted_simulates_plain rfl (by decide) hinbox true⟩

end ThresholdKeygen
