import ThresholdKeygen.Proofs.Ceremony.Methods

/-!
# No result after an abort

A ceremony in which a round has been aborted because of a failed verification does not come to a
result any more, whatever is called on it and done to its members. Only rejected proofs of knowledge
do not count, since no participant remembers them, nor does the last comparison while public shares
are missing. Main statement: `futile_of_aborts`.
-/

namespace ThresholdKeygen

variable {K : Type} [Suite K] {σ : Type}

open Relation Ceremony

namespace Ceremony

variable {M : Type} [Member M K] [Stepping M]

/-! ### Calls -/

section Calls

omit [Suite K] [Member M K] [Stepping M] in
/-- What a method answers, and the ceremony that it leaves behind. -/
def outcome (method : Run σ (Ceremony M) (Option (Result K))) (source : σ) (c : Ceremony M) :
    Except Error (Option (Result K)) × Ceremony M := ((method.run.run c).run source).1

/-- How ceremonies of a kind are started, and their rounds. -/
structure Kind (M K : Type) where
  start : (σ : Type) → [RandomSource σ] → Config → ExceptT Error (StateM σ) (Ceremony M)
  rounds : (σ : Type) → [RandomSource σ] → Rounds σ M K

variable (k : Kind M K)

/-- That a method of a ceremony answers so and leaves that behind, whatever has been drawn. -/
inductive Answers (name : String) (c : Ceremony M) :
    Except Error (Option (Result K)) → Ceremony M → Prop where
  | drawing {σ : Type} [RandomSource σ] (source : σ) :
      Answers name c (outcome ((k.rounds σ).named name) source c).1
        (outcome ((k.rounds σ).named name) source c).2

/-- What happens to a ceremony: one of its methods is called, or an operation on one member. -/
inductive Call : Ceremony M → Ceremony M → Prop where
  | method {c c' : Ceremony M} {name : String} {answer : Except Error (Option (Result K))}
      (h : Answers k name c answer c') : Call c c'
  | operation {c : Ceremony M} {place : Nat} {member member' : M}
      (hmember : c.members[place]? = some member) (hstep : Stepping.Step member member') :
      Call c { c with members := c.members.set place member' }

/-- The ceremonies that are started from a configuration, and those to which calls lead. -/
inductive Reached : Ceremony M → Prop where
  | started {σ : Type} [RandomSource σ] (source : σ) (config : Config) (c : Ceremony M)
      (h : ((k.start σ config).run.run source).1 = .ok c) : Reached c
  | called {c c' : Ceremony M} (h : Reached c) (hcall : Call k c c') : Reached c'

/-- That a method aborts a round because a verification has failed. -/
def Aborts (round : String) (c c' : Ceremony M) : Prop :=
  ∃ name failures, Answers k name c (.error (.roundAborted round failures)) c' ∧
    ∃ failure ∈ failures, failure.2.isVerification = true

/-- That no call ever has a result again. -/
def Futile (c : Ceremony M) : Prop :=
  ∀ c₁, ReflTransGen (Call k) c c₁ → ∀ name answer c₂, Answers k name c₁ answer c₂ →
    ∀ result, answer ≠ .ok (some result)

variable {k}
variable (hrounds : ∀ (σ : Type) [RandomSource σ], Followed (k.rounds σ))

include hrounds

theorem Answers.tracked {name : String} {c c' : Ceremony M}
    {answer : Except Error (Option (Result K))} (h : Answers k name c answer c') :
    Tracked c answer c' := by
  obtain ⟨source⟩ := h
  exact (hrounds _).tracks_named name c source

theorem Call.evolves {c c' : Ceremony M} (h : Call k c c') : c.Evolves c' := by
  cases h with
  | method h => exact (h.tracked hrounds).evolves
  | operation hmember hstep => exact .set hmember (.single hstep)

theorem evolves_of_calls {c c' : Ceremony M} (h : ReflTransGen (Call k) c c') :
    c.Evolves c' := by
  induction h with
  | refl => exact .refl c
  | tail _ hcall ih => exact ih.trans (hcall.evolves hrounds)

theorem Doomed.futile {c : Ceremony M} (hsettled : c.Settled) (h : c.Doomed) :
    Futile k c := by
  intro c₁ hcalls name answer c₂ hanswer
  have hevolves := evolves_of_calls hrounds hcalls
  obtain ⟨source⟩ := hanswer
  exact (hrounds _).named_ends name (hevolves.settled hsettled) (h.evolves hsettled hevolves) source

theorem Aborts.futile {round : String} {c c' : Ceremony M} (h : Aborts k round c c')
    (hsettled : c.Settled) (hproofs : round ≠ "verify-secret-proofs")
    (hinformed : round = "cross-check" → c'.Informed) : Futile k c' := by
  obtain ⟨name, failures, hanswer, hfailed⟩ := h
  have htracked := hanswer.tracked hrounds
  exact Doomed.futile hrounds (htracked.evolves.settled hsettled)
    (htracked.ruined round failures rfl hfailed hproofs hinformed)

theorem Reached.settled
    (hstart : ∀ (σ : Type) [RandomSource σ] config, Delivers (k.start σ config) Ceremony.Settled)
    {c : Ceremony M} (h : Reached k c) : c.Settled := by
  induction h with
  | started source config c h => exact hstart _ config source c h
  | called _ hcall ih => exact (hcall.evolves hrounds).settled ih

end Calls

/-! ### Starts -/

omit [Stepping M] in
/-- What members have at their positions when they have been created one after the other. -/
theorem delivers_createFrom {create : Int → ExceptT Error (StateM σ) M} {R : Int → M → Prop}
    (h : ∀ position, Delivers (create position) (R position)) (count : Nat) (next : Int) :
    Delivers (createFrom create count next) fun members =>
      ∀ (place : Nat) member, members[place]? = some member → R (place + next) member := by
  induction count generalizing next with
  | zero => exact .pure fun _ _ hmember => by cases hmember
  | succ count ih =>
    refine .bind ((h next).mono fun first hfirst => .bind ((ih (next + 1)).mono ?_))
    refine fun members hmembers => .pure fun place member hmember => ?_
    cases place with
    | zero =>
      obtain rfl := Option.some.inj hmember
      simpa using hfirst
    | succ place =>
      rw [show ((place + 1 : Nat) : Int) + next = place + (next + 1) by omega]
      exact hmembers place member hmember

omit [Stepping M] in
theorem delivers_createFrom_forall {create : Int → ExceptT Error (StateM σ) M} {P : M → Prop}
    (h : ∀ position, Delivers (create position) P) (count : Nat) (next : Int) :
    Delivers (createFrom create count next) fun members => ∀ member ∈ members, P member := by
  refine (delivers_createFrom (R := fun _ => P) h count next).mono fun members hmembers => ?_
  intro member hmember
  obtain ⟨place, hplace⟩ := List.mem_iff_getElem?.1 hmember
  exact hmembers place member hplace

end Ceremony

/-- Plain ceremonies. -/
def Plain.kind : Kind (Participant K) K := ⟨fun _ => start, fun _ => rounds⟩

/-- Weighted ceremonies. -/
def Weighted.kind : Kind (WeightedParty K) K := ⟨fun _ => start, fun _ => rounds⟩

theorem Plain.settled_start [RandomSource σ] (config : Config) :
    Delivers (Plain.start config : ExceptT Error (StateM σ) (Ceremony (Participant K)))
      Ceremony.Settled := by
  rw [Plain.start]
  split
  · exact .refused
  · refine .bind ((delivers_createFrom_forall (fun position => ?_) _ _).mono fun _ hmembers =>
      .pure hmembers)
    exact (Participant.fresh_create _ _ position _ _).mono fun _ => Participant.Fresh.settled

namespace Weighted

theorem settled_createParty [RandomSource σ] (config : Config) (position : Int) :
    Delivers (createParty config position : ExceptT Error (StateM σ) (WeightedParty K))
      WeightedParty.Settled :=
  .bind ((Participant.fresh_create _ _ position _ _).mono fun _ hcore =>
    .steady (WeightedParty.settled_create hcore.settled))

theorem settled_assignRange (ranges : Mapping Int (Int × Int)) {w : WeightedParty K}
    (h : w.Settled) : Yields (assignRange ranges w) WeightedParty.Settled := by
  rw [assignRange]
  split
  · exact .error
  · rename_i range _
    have hassign := (h.run (.single (.perform (Tape.new [] [] "")
      (.assignKeys (KeyPartition.keysOfRange range)) w))).1
    split
    · rename_i w' heq
      refine .pure ?_
      rw [show w' = (w.assignKeys (KeyPartition.keysOfRange range)).2 by rw [heq]]
      exact hassign
    · exact .error

theorem settled_start [RandomSource σ] (config : Config) :
    Delivers (start config : ExceptT Error (StateM σ) (Ceremony (WeightedParty K)))
      Ceremony.Settled := by
  rw [start]
  split
  · exact .refused
  · refine .bind ((delivers_createFrom_forall (settled_createParty config) _ _).mono ?_)
    intro parties h
    refine .bind (.steady fun counts _ => .bind (.steady fun members hmembers => ?_))
    refine .bind (.any fun _ => .pure fun w hw => ?_)
    obtain ⟨party, hparty, hassign⟩ := exists_of_mem_mapM hmembers hw
    exact settled_assignRange _ (h party hparty) w hassign

end Weighted

/-! ### Ceremonies that are revised by hand -/

namespace Ceremony

variable {M : Type} [Member M K] [Stepping M]

/-- A ceremony after an operation on the member at a place. -/
def revise (c : Ceremony M) (place : Nat) (operate : M → M) : Ceremony M :=
  { c with members := c.members.modify place operate }

/-- Whether an answer is the end of a round because of a failed verification. -/
def abortsIn {α : Type} (round : String) : Except Error α → Bool
  | .error (.roundAborted name failures) =>
    name == round && failures.any fun failure => failure.2.isVerification
  | _ => false

section Calls

variable {k : Kind M K} {c : Ceremony M}

omit [Stepping M] in
theorem Answers.aborts {round name : String} {answer : Except Error (Option (Result K))}
    {c' : Ceremony M} (h : Answers k name c answer c') (haborts : abortsIn round answer = true) :
    Aborts k round c c' := by
  unfold abortsIn at haborts
  split at haborts
  · rename_i name' failures
    obtain ⟨hname, hfailed⟩ := Bool.and_eq_true_iff.1 haborts
    obtain rfl := beq_iff_eq.1 hname
    exact ⟨name, failures, h, List.any_eq_true.1 hfailed⟩
  · cases haborts

theorem calls_revise (c : Ceremony M) (place : Nat) {operate : M → M}
    (hsteps : ∀ member, ReflTransGen Stepping.Step member (operate member)) :
    ReflTransGen (Call k) c (c.revise place operate) := by
  cases hmember : c.members[place]? with
  | none => rw [revise, List.modify_eq_self (List.getElem?_eq_none_iff.1 hmember)]
  | some member =>
    obtain ⟨hplace, rfl⟩ := List.getElem?_eq_some_iff.1 hmember
    have hcalls : ReflTransGen (Call k)
        { c with members := c.members.set place c.members[place] }
        { c with members := c.members.set place (operate c.members[place]) } := by
      refine ReflTransGen.lift (fun next => { c with members := c.members.set place next })
        (fun next next' hstep => ?_) _ _ (hsteps _)
      have hcall : Call k { c with members := c.members.set place next } _ :=
        .operation (List.getElem?_set_self hplace) hstep
      rwa [List.set_set] at hcall
    rw [List.set_getElem_self] at hcalls
    rw [revise, List.modify_eq_set_getElem?, hmember]
    exact hcalls

theorem Reached.revise (h : Reached k c) (place : Nat) {operate : M → M}
    (hsteps : ∀ member, ReflTransGen Stepping.Step member (operate member)) :
    Reached k (c.revise place operate) := by
  have hcalls : ReflTransGen (Call k) c (c.revise place operate) := calls_revise c place hsteps
  generalize c.revise place operate = c' at hcalls
  induction hcalls with
  | refl => exact h
  | tail _ hcall ih => exact .called ih hcall

theorem Reached.method (h : Reached k c) (name : String) (source : Tape) :
    Reached k (outcome ((k.rounds Tape).named name) source c).2 :=
  .called h (.method (.drawing source))

end Calls

end Ceremony

/-! ### Aborted ceremonies -/

/-- Once a method has aborted a round because of a failed verification, no sequence of calls leads
to a result, be they methods of the ceremony or operations on its members. This does not hold of the
round in which proofs are rejected, for which see `verifyProofs_ends`, and of the comparison at the
end it holds when the members have all public shares. -/
theorem futile_of_aborts :
    (∀ (round : String) (c c' : Ceremony (Participant K)), Reached Plain.kind c →
      Aborts Plain.kind round c c' → round ≠ "verify-secret-proofs" →
      (round = "cross-check" → c'.Informed) → Futile Plain.kind c') ∧
    ∀ (round : String) (c c' : Ceremony (WeightedParty K)), Reached Weighted.kind c →
      Aborts Weighted.kind round c c' → round ≠ "verify-secret-proofs" →
      (round = "cross-check" → c'.Informed) → Futile Weighted.kind c' := by
  constructor
  · intro round c c' hreached haborts
    exact haborts.futile (fun _ => Plain.followed)
      (hreached.settled (fun _ => Plain.followed) fun _ => Plain.settled_start)
  · intro round c c' hreached haborts
    exact haborts.futile (fun _ => Weighted.followed)
      (hreached.settled (fun _ => Weighted.followed) fun _ => Weighted.settled_start)

namespace Plain

/-- A ceremony that has just been started; the polynomials of its members are constant. -/
def opened (secrets : List Scalar) : Ceremony (Participant ResidueKey) where
  config := ⟨secrets.length, 1, none, .bytes [], .broadcast, none⟩
  members := secrets.zipIdx.map fun (secret, place) =>
    .newcomer secrets.length secrets.length 1 (place + 1) (.bytes []) [secret]
  inboxes := .ofList ((upTo secrets.length).map (·, .empty))
  rounds := []

end Plain

namespace Weighted

/-- A ceremony of one party with one key that has just been started. -/
def opened : Ceremony (WeightedParty ResidueKey) where
  config := ⟨1, 1, some 1, .bytes [], .broadcast, none⟩
  members := [(WeightedParty.assignKeys
    ⟨1, .newcomer 1 1 1 1 (.bytes []) [7], .empty, .empty, .empty, .empty⟩ [1]).2]
  inboxes := .empty
  rounds := []

end Weighted

/-- The only member of a ceremony receives a forged share, and so does the only party. -/
theorem exists_futile_of_aborts :
    (∃ c c' : Ceremony (Participant ResidueKey),
      Reached Plain.kind c ∧
      Aborts Plain.kind "verify-batch-public-secret-shares" c c' ∧
      Futile Plain.kind c') ∧
    ∃ c c' : Ceremony (WeightedParty ResidueKey),
      Reached Weighted.kind c ∧
      Aborts Weighted.kind "verify-batch-public-secret-shares" c c' ∧
      Futile Weighted.kind c' := by
  let tape := Tape.new [[7]] [] ""
  let forged : Delivery := .ofInbox (.ofList [(1, 8)])
  constructor
  · let c := (outcome (Plain.rounds.named "distribute_shares") tape (Plain.opened [7])).2.revise 0
      fun p => (p.receiveShares forged).2
    have hreached : Reached Plain.kind c :=
      ((Reached.started tape (Plain.opened [7]).config _ rfl).method _ tape).revise 0
        fun p => p.steps_perform (.receiveShares forged)
    have haborts : Aborts Plain.kind "verify-batch-public-secret-shares" c
        (outcome (Plain.rounds.named "verify_shares") tape c).2 :=
      (Answers.drawing tape).aborts (by decide +kernel)
    exact ⟨c, _, hreached, haborts,
      futile_of_aborts.1 _ _ _ hreached haborts (by decide) fun h => absurd h (by decide)⟩
  · let c := (outcome (Weighted.rounds.named "distribute_shares") tape Weighted.opened).2.revise 0
      fun w => (w.storeShares 1 forged).2
    have hreached : Reached Weighted.kind c :=
      ((Reached.started tape Weighted.opened.config _ (by with_unfolding_all rfl)).method _
        tape).revise 0 fun w => .single (.perform tape (.storeShares 1 forged) w)
    have haborts : Aborts Weighted.kind "verify-batch-public-secret-shares" c
        (outcome (Weighted.rounds.named "verify_shares") tape c).2 :=
      (Answers.drawing tape).aborts (by decide +kernel)
    exact ⟨c, _, hreached, haborts,
      futile_of_aborts.2 _ _ _ hreached haborts (by decide) fun h => absurd h (by decide)⟩

/-! ### A comparison too early -/

namespace Plain

open Participant

/-- A sharing of two dealers, with constant polynomials. -/
def sharing : Sharing := ⟨2, 1, fun i => [if i = 1 then 7 else 9], fun _ _ _ => rfl⟩

/-- A member of a ceremony of these two that has heard from the other one. -/
def introduced (position : Int) : Participant ResidueKey :=
  { newcomer 2 2 1 position (.bytes []) (sharing.dealt position) with
    commitments := ⟨2, 1, .ofList ([position, 3 - position].map fun i =>
      (i, .ofCoefficients (sharing.dealt i)))⟩
    stage := .commitmentsExchanged }

/-- Such a member when it has dealt and received shares. -/
def supplied (position : Int) : Participant ResidueKey :=
  { introduced position with
    sharesOut := .ofList ((upTo 2).map fun x => (x, (sharing.dealt position).evaluate x))
    sharesIn := .ofList ((upTo 2).map fun i => (i, (sharing.dealt i).evaluate position))
    powerMap := some ⟨1, [[1], [1]]⟩
    stage := .sharesDistributed }

/-- A ceremony of these two before they verify their shares. -/
def dealt : Ceremony (Participant ResidueKey) :=
  { opened [7, 9] with
    members := [supplied 1, supplied 2]
    inboxes := .ofList ((upTo 2).map fun x =>
      (x, .ofList ((upTo 2).map fun i => (i, (sharing.dealt i).evaluate x))))
    rounds := ["calculate-secret-shares"] }

theorem consistent_supplied {position : Int} (h : position = 1 ∨ position = 2) :
    (supplied position).Consistent sharing where
  committed := by
    refine ⟨rfl, rfl, fun i h₁ h₂ => ?_⟩
    have hi : i = 1 ∨ i = 2 := by
      change i ≤ 2 at h₂
      omega
    rcases h with rfl | rfl <;> rcases hi with rfl | rfl <;> rfl
  gaps_eq := rfl
  failure_eq := rfl
  powerMap_eq := by
    rintro _ ⟨⟩
    rfl
  signingShare_eq := by rintro _ ⟨⟩
  joint_eq := by rintro _ ⟨⟩
  shareMap_eq := by rintro _ ⟨⟩
  publicShares_eq := by rintro _ _ ⟨⟩
  groupKey_eq := by rintro _ ⟨⟩

theorem verifyShares_supplied [RandomSource σ] {position : Int} (h : position = 1 ∨ position = 2)
    (source : σ) :
    (((supplied position).verifyShares none none).run source).1 =
      (.ok (), (supplied position).advance .sharesVerified) := by
  have hinbox : sharing.DealtTo (supplied position).position (supplied position).sharesIn :=
    Mapping.get?_ofList _ _
  have hposition : (supplied position).position = position := rfl
  have hn : (supplied position).n = 2 := rfl
  exact (consistent_supplied h).always_verifyShares rfl (Nat.le_refl _) hinbox (by omega) (by omega)
    source

theorem reached_dealt : Reached kind dealt := by
  let tape := Tape.new [[7], [9]] [] ""
  have hopened : Reached kind (opened [7, 9]) := .started tape (opened [7, 9]).config _ rfl
  have hexchanged : Reached kind { opened [7, 9] with members := [introduced 1, introduced 2] } :=
    hopened.method "exchange_commitments" tape
  have hdealt : Reached kind
      { dealt with members := dealt.members.map fun p => { p with powerMap := none } } :=
    hexchanged.method "distribute_shares" tape
  have hpowers := (hdealt.revise 0 fun p => p.steps_perform .derivePowerMap).revise 1
    fun p => p.steps_perform .derivePowerMap
  exact hpowers

/-- The same ceremony when they have. -/
def verified : Ceremony (Participant ResidueKey) :=
  { dealt with members := dealt.members.map fun p => p.advance .sharesVerified }

theorem reached_verified : Reached kind verified := by
  have hreached := (reached_dealt.revise 0 fun p =>
    p.steps_perform (.verifyShares none none)).revise 1 fun p =>
      p.steps_perform (.verifyShares none none)
  change Reached kind { dealt with members :=
    [(((supplied 1).verifyShares none none).run (Tape.new [] [] "")).1.2,
      (((supplied 2).verifyShares none none).run (Tape.new [] [] "")).1.2] } at hreached
  rw [verifyShares_supplied (.inl rfl), verifyShares_supplied (.inr rfl)] at hreached
  exact hreached

/-- A member after the operations behind the verification of its shares. -/
def equipped (excluded : List Int) (p : Participant ResidueKey) : Participant ResidueKey :=
  ((p.computeSigningShare.2.publishOwnShare none none).2.deriveJoint.2.publishShares excluded).2

theorem steps_equipped (excluded : List Int) (p : Participant ResidueKey) :
    ReflTransGen Step p (equipped excluded p) := by
  have hsigned := p.steps_perform .computeSigningShare
  have hpublished := hsigned.trans (steps_perform _ (.publishOwnShare none none))
  have hderived := hpublished.trans (steps_perform _ .deriveJoint)
  exact hderived.trans (steps_perform _ (.publishShares excluded))

/-- Where a public share is missing, the comparison can be repeated once it is there. -/
theorem exists_not_futile_of_aborts : ∃ c c' : Ceremony (Participant ResidueKey),
    Reached kind c ∧ Aborts kind "cross-check" c c' ∧ ¬ Futile kind c' := by
  let tape := Tape.new [] [] ""
  let c := (verified.revise 0 (equipped [1, 2])).revise 1 (equipped [2])
  let c' := (outcome (rounds.named "derive_group_key") tape c).2
  let c₁ := c'.revise 0 fun p => (p.publishShares [1]).2
  have hreached : Reached kind c :=
    (reached_verified.revise 0 (steps_equipped _)).revise 1 (steps_equipped _)
  have haborts : Aborts kind "cross-check" c c' :=
    (Answers.drawing tape).aborts (by decide +kernel)
  have hcalls : ReflTransGen (Call kind) c' c₁ :=
    calls_revise c' 0 fun p => p.steps_perform (.publishShares [1])
  refine ⟨c, c', hreached, haborts, fun hfutile => ?_⟩
  have hresult : ((outcome (rounds.named "derive_group_key") tape c₁).1.toOption.join).isSome := by
    decide +kernel
  obtain ⟨result, hresult⟩ := Option.isSome_iff_exists.1 hresult
  refine hfutile c₁ hcalls "derive_group_key" _ _ (.drawing tape) result (eq_ok_of_toOption ?_)
  exact Option.join_eq_some_iff.1 hresult

end Plain

end ThresholdKeygen
