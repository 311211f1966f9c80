import ThresholdKeygen.Proofs.Ceremony.Resumption
import ThresholdKeygen.Proofs.Ceremony.Schedules
import ThresholdKeygen.Proofs.Ceremony.Weighted

/-!
# Rounds in any order

The rounds of both kinds of ceremonies as data; the methods of a ceremony are made of them. From
every ceremony to which calls lead, a round comes to the same end in whatever order the members have
their turns. Main statement: `joined_in_any_order`.
-/

namespace ThresholdKeygen

variable {K : Type} [Suite K] {σ τ : Type}

open Relation

/-! ### Phases -/

/-- A round of a ceremony, with what its tasks are given beside the members. -/
inductive Phase (K : Type) where
  | dealing
  | powers
  | proofs (label : Option (Item K)) (proofs : List (Int × KnowledgeProof K))
  | verification
  | ownShares
  | imports (joint shareMap : Bytes) (recompute : Bool)
  | publicShares
  | groupKey
  | comparison

namespace Phase

/-- The name of the round. -/
def name : Phase K → String
  | dealing => "calculate-secret-shares"
  | powers => "derive-power-map"
  | proofs .. => "verify-secret-proofs"
  | verification => "verify-batch-public-secret-shares"
  | ownShares => "calculate-internal-public-signing-shares"
  | imports .. => "parse-q-w-map"
  | publicShares => "calculate-batch-public-signing-shares"
  | groupKey => "calculate-group-public-key"
  | comparison => "cross-check"

/-- The places of those who have a turn among a number of members: all, or all but the first. -/
def places (count : Nat) : Phase K → List Nat
  | imports .. => List.range' 1 (count - 1)
  | _ => List.range count

omit [Suite K] in
theorem nodup_places (count : Nat) (phase : Phase K) : (phase.places count).Nodup := by
  cases phase <;> first | exact List.nodup_range | exact List.nodup_range'

variable {M : Type} [Member M K]

/-- Runs a round with the turns in the order of the places. -/
def inOrder (task : Phase K → Ceremony.SharedTask σ M) (phase : Phase K) :
    Run σ (Ceremony M) Unit := do
  Ceremony.sharedRound phase.name (phase.places (← get).members.length) (task phase)

omit [Suite K] in
theorem finish_inOrder (task : Phase K → Ceremony.SharedTask σ M) (phase : Phase K)
    (c : Ceremony M) (source : σ) : (phase.inOrder task).finish c source =
      (Ceremony.sharedRound phase.name (phase.places c.members.length) (task phase)).finish c
        source := rfl

end Phase

open Ceremony

section Tasks

variable [RandomSource σ]

/-- The tasks of a plain ceremony. -/
def Plain.task : Phase K → SharedTask σ (Participant K)
  | .dealing => fun _ => steadyTask Participant.dealShares
  | .powers => fun _ => steadyTask fun p => forget p.derivePowerMap
  | .proofs label proofs => fun _ => inspection (checkProofs label proofs)
  | .verification => fun _ p => p.verifyShares none none
  | .ownShares => fun _ => steadyTask computeOwnShare
  | .imports joint shareMap recompute =>
    fun _ => steadyTask fun p => onCore p (importMaps joint shareMap recompute)
  | .publicShares => fun _ => steadyTask fun p => forget (p.publishShares [p.position])
  | .groupKey => fun _ => steadyTask fun p => forget p.deriveGroupKey
  | .comparison => fun members => inspection (crossCheck members)

/-- The tasks of a weighted ceremony. -/
def Weighted.task : Phase K → SharedTask σ (WeightedParty K)
  | .dealing => fun _ => steadyTask fun party => onCore party Participant.dealShares
  | .powers => fun _ => steadyTask fun party => onCore party fun p => forget p.derivePowerMap
  | .proofs label proofs => fun _ => inspection fun party => checkProofs label proofs party.core
  | .verification => fun _ party => party.verifyShares
  | .ownShares => fun _ => steadyTask computeOwnShares
  | .imports joint shareMap recompute =>
    fun _ => steadyTask fun party => onCore party (importMaps joint shareMap recompute)
  | .publicShares => fun _ => steadyTask fun party => forget party.publishShares
  | .groupKey => fun _ => steadyTask fun party => forget party.deriveGroupKey
  | .comparison => fun members => inspection (crossCheck members)

end Tasks

/-! ### The rounds of the methods -/

namespace Phase

variable {M : Type} [Member M K] {tasks : Phase K → SharedTask σ M}

omit [Suite K] in
/-- A round of tasks that do not look at each other. -/
theorem inOrder_eq_round {phase : Phase K} {task : Task σ M} (htask : tasks phase = fun _ => task)
    (hplaces : ∀ count, phase.places count = List.range count) :
    inOrder tasks phase = Ceremony.round phase.name task := by
  rw [inOrder, Ceremony.round]
  refine bind_congr fun c => ?_
  rw [htask, hplaces, sharedRound_const]

omit [Suite K] in
/-- The comparison at the end, in which everybody looks at all. -/
theorem inOrder_comparison {check : List M → M → Except Error Unit}
    (htask : tasks .comparison = fun members => inspection (check members)) :
    inOrder tasks .comparison =
      get >>= fun c => Ceremony.round "cross-check" (inspection (check c.members)) := by
  refine Run.ext_finish fun c source => ?_
  rw [finish_inOrder, htask, finish_sharedRound (undisturbed_inspection check),
    Run.finish_bind Run.finish_get, Ceremony.round, Run.finish_bind Run.finish_get]
  rfl

/-- The round in which everybody checks the proofs that have been collected. -/
theorem verifyProofs_eq [RandomSource σ] (htask : ∀ label found, tasks (.proofs label found) =
      fun _ => inspection fun member => checkProofs label found (Member.core member)) :
    verifyProofs = (do
      let label := (← get).config.label.toItem?
      let found ← Run.besides (collectProofs label (← get).members)
      inOrder tasks (.proofs label found)) := by
  simp only [inOrder_eq_round (htask _ _) fun _ => rfl]
  rfl

/-- The round in which all but the first member import the maps that the first one has derived. -/
theorem finish_imports {joint shareMap : Bytes} {recompute : Bool}
    (htask : tasks (.imports joint shareMap recompute) =
      fun _ => steadyTask fun member => onCore member (importMaps joint shareMap recompute))
    {c : Ceremony M} {first : M} {others : List M} (hmembers : c.members = first :: others)
    (source : σ) : (inOrder tasks (.imports joint shareMap recompute)).finish c source =
      (roundAmong "parse-q-w-map" (List.range' 1 others.length)
        (steadyTask fun member => onCore member (importMaps joint shareMap recompute))).finish c
          source := by
  rw [finish_inOrder, htask, sharedRound_const, hmembers]
  rfl

end Phase

section Methods

variable [RandomSource σ]

namespace Plain

theorem distributeShares_eq : (distributeShares : Action σ K Unit) = (do
    Phase.inOrder task .dealing
    let members := (← get).members
    members.forM fun sender => members.forM fun receiver => collectShare sender receiver
    (List.range members.length).forM deliverInbox) := by
  rw [Phase.inOrder_eq_round rfl fun _ => rfl]
  rfl

theorem verifyShares_eq : (verifyShares : Action σ K Unit) = (do
    Phase.inOrder task .powers
    Phase.inOrder task .verification) := by
  rw [Phase.inOrder_eq_round rfl fun _ => rfl, Phase.inOrder_eq_round rfl fun _ => rfl]
  rfl

theorem derivePublicShares_eq : (derivePublicShares : Action σ K Unit) = (do
    Phase.inOrder task .ownShares
    propagateMaps
    Phase.inOrder task .publicShares) := by
  rw [Phase.inOrder_eq_round rfl fun _ => rfl, Phase.inOrder_eq_round rfl fun _ => rfl]
  rfl

theorem deriveGroupKey_eq : (deriveGroupKey : Action σ K (Result K)) = (do
    Phase.inOrder task .groupKey
    Phase.inOrder task .comparison
    return (← get).result) := by
  rw [Phase.inOrder_eq_round rfl fun _ => rfl, Phase.inOrder_comparison rfl]
  simp only [deriveGroupKey, bind_assoc]
  rfl

end Plain

namespace Weighted

theorem distributeShares_eq : (distributeShares : Action σ K Unit) = (do
    Phase.inOrder task .dealing
    (← get).members.zipIdx.forM fun (party, place) =>
      party.keys.sorted.forM (deliverSlot place)) := by
  rw [Phase.inOrder_eq_round rfl fun _ => rfl]
  rfl

theorem verifyShares_eq : (verifyShares : Action σ K Unit) = (do
    Phase.inOrder task .powers
    Phase.inOrder task .verification) := by
  rw [Phase.inOrder_eq_round rfl fun _ => rfl, Phase.inOrder_eq_round rfl fun _ => rfl]
  rfl

theorem derivePublicShares_eq : (derivePublicShares : Action σ K Unit) = (do
    Phase.inOrder task .ownShares
    propagateMaps
    Phase.inOrder task .publicShares) := by
  rw [Phase.inOrder_eq_round rfl fun _ => rfl, Phase.inOrder_eq_round rfl fun _ => rfl]
  rfl

theorem deriveGroupKey_eq : (deriveGroupKey : Action σ K (Result K)) = (do
    Phase.inOrder task .groupKey
    Phase.inOrder task .comparison
    return (← get).result) := by
  rw [Phase.inOrder_eq_round rfl fun _ => rfl, Phase.inOrder_comparison rfl]
  simp only [deriveGroupKey, bind_assoc]
  rfl

end Weighted

end Methods

/-! ### Positions -/

/-- Members that keep their positions. -/
class Steadfast (M : Type) {K : outParam Type} [Suite K] [Member M K] [Stepping M] : Prop where
  positionOf_eq : ∀ {member member' : M}, Stepping.Settled member →
    ReflTransGen Stepping.Step member member' → positionOf member' = positionOf member

instance : Steadfast (Participant K) := ⟨fun _ hrun => (Participant.parameters_eq_of_run hrun).2⟩

instance : Steadfast (WeightedParty K) := ⟨fun h hrun => h.position_eq_of_run hrun⟩

namespace Ceremony

variable {M : Type} [Member M K] [Stepping M]

/-- Members stay where they sit. -/
theorem Evolves.seated [Steadfast M] {c c' : Ceremony M} (h : c.Evolves c') (hsettled : c.Settled)
    (hseated : c.Seated) : c'.Seated := by
  intro place member' hmember'
  obtain ⟨member, hmember, hsteps⟩ := h.exists_origin hmember'
  rw [← hseated place member hmember]
  exact Steadfast.positionOf_eq (hsettled _ (List.mem_of_getElem? hmember)) hsteps

/-- What is known of the starts and the rounds of a kind of ceremonies. -/
structure Kind.Sound (k : Kind M K) : Prop where
  followed : ∀ (σ : Type) [RandomSource σ], Followed (k.rounds σ)
  settled : ∀ (σ : Type) [RandomSource σ] config, Delivers (k.start σ config) Ceremony.Settled
  seated : ∀ (σ : Type) [RandomSource σ] config, Delivers (k.start σ config) Ceremony.Seated

theorem Reached.seated [Steadfast M] {k : Kind M K} (hk : k.Sound) {c : Ceremony M}
    (h : Reached k c) : c.Settled ∧ c.Seated := by
  induction h with
  | started source config c h =>
    exact ⟨hk.settled _ config source c h, hk.seated _ config source c h⟩
  | called _ hcall ih =>
    have hevolves := hcall.evolves hk.followed
    exact ⟨hevolves.settled ih.1, hevolves.seated ih.1 ih.2⟩

end Ceremony

theorem Participant.position_eq_of_create [RandomSource σ] (n threshold position : Int)
    (dealers : Option Int) (context : Item K) :
    Delivers (create n threshold position dealers context : ExceptT Error (StateM σ) _)
      fun p => p.position = position := by
  refine (delivers_create n threshold position dealers context).mono ?_
  rintro _ ⟨t, polynomial, -, -, -, -, -, rfl⟩
  rfl

theorem Plain.sound_kind : (kind : Kind (Participant K) K).Sound where
  followed _ := followed
  settled _ := settled_start
  seated σ _ config := by
    change Delivers (start config) Ceremony.Seated
    rw [start]
    split
    · exact .refused
    · refine .bind ((delivers_createFrom (R := fun position (p : Participant K) =>
        p.position = position) (fun position => ?_) _ _).mono fun _ hmembers => .pure hmembers)
      exact Participant.position_eq_of_create _ _ position _ _

namespace Weighted

theorem position_createParty [RandomSource σ] (config : Config) (position : Int) :
    Delivers (createParty config position : ExceptT Error (StateM σ) (WeightedParty K))
      fun w => w.Settled ∧ w.position = position := by
  refine .bind (((Participant.fresh_create _ _ position _ _).and
    (Participant.position_eq_of_create _ _ position _ _)).mono fun core hcore => .steady ?_)
  refine fun w hw => ⟨WeightedParty.settled_create hcore.1.settled w hw, ?_⟩
  rw [WeightedParty.create] at hw
  split at hw
  · cases hw
  · obtain rfl := Except.ok.inj hw
    exact hcore.2

theorem position_assignRange (ranges : Mapping Int (Int × Int)) {w w' : WeightedParty K}
    (hsettled : w.Settled) (h : assignRange ranges w = .ok w') : w'.position = w.position := by
  rw [assignRange] at h
  split at h
  · cases h
  · rename_i range _
    have hposition := hsettled.position_eq_of_run (.single (.perform (Tape.new [] [] "")
      (.assignKeys (KeyPartition.keysOfRange range)) w))
    split at h
    · rename_i w'' heq
      obtain rfl := Except.ok.inj h
      rw [← hposition]
      change _ = (w.assignKeys (KeyPartition.keysOfRange range)).2.position
      rw [heq]
    · cases h

theorem sound_kind : (kind : Kind (WeightedParty K) K).Sound where
  followed _ := followed
  settled _ := settled_start
  seated σ _ config := by
    change Delivers (start config) Ceremony.Seated
    rw [start]
    split
    · exact .refused
    · refine .bind ((delivers_createFrom (R := fun position (w : WeightedParty K) =>
        w.Settled ∧ w.position = position) (position_createParty config) _ _).mono ?_)
      intro parties hparties
      refine .bind (.steady fun counts _ => .bind (.steady fun members hmembers => ?_))
      refine .bind (.any fun _ => .pure fun place w hw => ?_)
      obtain ⟨party, hparty, hassign⟩ := exists_of_getElem?_mapM hmembers hw
      obtain ⟨hsettled, hposition⟩ := hparties place party hparty
      exact (position_assignRange _ hsettled hassign).trans hposition

end Weighted

/-! ### Turns in any order -/

namespace Ceremony

variable {M : Type} [Member M K] [Stepping M]

/-- What allows turns to be taken in any order: no turn changes anything that another task reads,
every task draws from the source of its member, and is made of operations on it. -/
structure Independent (task : Phase K → SharedTask (Sources τ) M) : Prop where
  undisturbed : ∀ phase, Undisturbed (task phase)
  confined : ∀ phase members member, Confined (positionOf member) (task phase members member)
  steps : ∀ phase members member sources,
    ReflTransGen Stepping.Step member ((task phase members member).run sources).1.2

namespace Independent

variable {task : Phase K → SharedTask (Sources τ) M} (h : Independent task)

include h

/-- Rounds lead to ceremonies whose members have gone through operations. -/
theorem evolves_inOrder (phase : Phase K) (c : Ceremony M) (sources : Sources τ) :
    c.Evolves ((phase.inOrder task).finish c sources).1.2 := by
  obtain ⟨refused, -, hturns, -, -⟩ := (roundAmong_ends phase.name
    (phase.nodup_places c.members.length) (task phase c.members) c).finish sources
  rw [phase.finish_inOrder, finish_sharedRound (h.undisturbed phase)]
  exact hturns.evolves (h.steps phase c.members)

theorem joined_of_perm [Steadfast M] {k : Kind M K} (hk : k.Sound) {c₀ c : Ceremony M}
    (hreached : Reached k c₀) (hevolves : c₀.Evolves c) (phase : Phase K) (sources : Sources τ)
    {schedule : List Nat} (hperm : schedule.Perm (phase.places c.members.length))
    (hregular : Regular (task phase c.members) (phase.places c.members.length) c sources) :
    (sharedRound phase.name schedule (task phase)).finish c sources =
        (phase.inOrder task).finish c sources ∧
      Joined phase.name (task phase c.members) (phase.places c.members.length) c sources
        ((sharedRound phase.name schedule (task phase)).finish c sources).1.1
        ((sharedRound phase.name schedule (task phase)).finish c sources).1.2 := by
  obtain ⟨hsettled, hseated⟩ := hreached.seated hk
  rw [phase.finish_inOrder]
  refine finish_sharedRound_perm (phase.nodup_places _) hperm (h.undisturbed phase)
    (hevolves.seated hsettled hseated) (h.confined phase c.members)
    (fun place _ member hmember => ?_) hregular
  exact Steadfast.positionOf_eq (hevolves.settled hsettled _ (List.mem_of_getElem? hmember))
    (h.steps phase c.members member sources)

end Independent

end Ceremony

theorem Plain.independent_task [RandomSource τ] :
    Independent (Plain.task : Phase K → SharedTask (Sources τ) (Participant K)) where
  undisturbed phase := by
    cases phase with
    | comparison => exact undisturbed_inspection _
    | _ => exact undisturbed_const _
  confined phase members p := by
    cases phase with
    | verification => exact p.confined_verifyShares none none
    | _ => exact .pure _
  steps phase members p sources := by
    cases phase with
    | dealing => exact p.careful_dealShares.steps
    | powers => exact p.careful_derivePowerMap.forget.steps
    | proofs | comparison => exact .refl
    | verification => exact (p.careful_verifyShares sources none none).steps
    | ownShares => exact (careful_computeOwnShare p).steps
    | imports joint shareMap recompute =>
      exact (Careful.onCore (p.careful_importMaps joint shareMap recompute)).steps
    | publicShares => exact (p.careful_publishShares _).forget.steps
    | groupKey => exact p.careful_deriveGroupKey.forget.steps

theorem Weighted.independent_task [RandomSource τ] :
    Independent (Weighted.task : Phase K → SharedTask (Sources τ) (WeightedParty K)) where
  undisturbed phase := by
    cases phase with
    | comparison => exact undisturbed_inspection _
    | _ => exact undisturbed_const _
  confined phase members w := by
    cases phase with
    | verification => exact w.confined_verifyShares
    | _ => exact .pure _
  steps phase members w sources := by
    cases phase with
    | dealing => exact (Careful.onCore w.core.careful_dealShares).steps
    | powers => exact (Careful.onCore w.core.careful_derivePowerMap.forget).steps
    | proofs | comparison => exact .refl
    | verification => exact (w.careful_verifyShares sources).steps
    | ownShares => exact (careful_computeOwnShares w).steps
    | imports joint shareMap recompute =>
      exact (Careful.onCore (w.core.careful_importMaps joint shareMap recompute)).steps
    | publicShares => exact w.careful_publishShares.forget.steps
    | groupKey => exact w.careful_deriveGroupKey.forget.steps

/-- In every round of a ceremony of either kind, from every ceremony to which calls lead and for
every source of every position: if no task refuses with anything but a refusal of the protocol, the
round comes to the same answer, members and sources in whatever order the members have their turns.
Everybody has a turn, even when others refuse, and the refusals are reported by position. -/
theorem joined_in_any_order [RandomSource τ] :
    (∀ (c₀ c : Ceremony (Participant K)) (phase : Phase K) (sources : Sources τ)
      (schedule : List Nat), Reached Plain.kind c₀ → c₀.Evolves c →
      schedule.Perm (phase.places c.members.length) →
      Regular (Plain.task phase c.members) (phase.places c.members.length) c sources →
      (sharedRound phase.name schedule (Plain.task phase)).finish c sources =
          (phase.inOrder Plain.task).finish c sources ∧
        Joined phase.name (Plain.task phase c.members) (phase.places c.members.length) c sources
          ((sharedRound phase.name schedule (Plain.task phase)).finish c sources).1.1
          ((sharedRound phase.name schedule (Plain.task phase)).finish c sources).1.2) ∧
    ∀ (c₀ c : Ceremony (WeightedParty K)) (phase : Phase K) (sources : Sources τ)
      (schedule : List Nat), Reached Weighted.kind c₀ → c₀.Evolves c →
      schedule.Perm (phase.places c.members.length) →
      Regular (Weighted.task phase c.members) (phase.places c.members.length) c sources →
      (sharedRound phase.name schedule (Weighted.task phase)).finish c sources =
          (phase.inOrder Weighted.task).finish c sources ∧
        Joined phase.name (Weighted.task phase c.members) (phase.places c.members.length) c sources
          ((sharedRound phase.name schedule (Weighted.task phase)).finish c sources).1.1
          ((sharedRound phase.name schedule (Weighted.task phase)).finish c sources).1.2 :=
  ⟨fun _ _ phase sources _ hreached hevolves hperm hregular =>
    Plain.independent_task.joined_of_perm Plain.sound_kind hreached hevolves phase sources hperm
      hregular,
    fun _ _ phase sources _ hreached hevolves hperm hregular =>
    Weighted.independent_task.joined_of_perm Weighted.sound_kind hreached hevolves phase sources
      hperm hregular⟩

namespace Weighted

/-- One of two parties before it has keys; its polynomial is constant. -/
def keyless (position : Int) : WeightedParty ResidueKey :=
  ⟨2, .newcomer 2 2 1 position (.bytes []) [.ofNat 7], .empty, .empty, .empty, .empty⟩

/-- A ceremony of these two that has just been started, with one key each. -/
def paired : Ceremony (WeightedParty ResidueKey) where
  config := ⟨2, 1, some 2, .bytes [], .broadcast, none⟩
  members := [((keyless 1).assignKeys [1]).2, ((keyless 2).assignKeys [2]).2]
  inboxes := .empty
  rounds := []

theorem reached_paired : Reached kind paired := by
  have hcounts : KeyPartition.counts 2 2 = .ok (.ofList [(1, 1), (2, 1)]) := rfl
  have hranges : KeyPartition.ranges (.ofList [(1, 1), (2, 1)]) =
      .ofList [(1, 1, 2), (2, 2, 3)] := by
    simp [KeyPartition.ranges, KeyPartition.consecutive, Mapping.ofList, Mapping.put,
      Mapping.putEntry, Mapping.empty, List.mergeSort]
  have hmembers : [keyless 1, keyless 2].mapM
      (assignRange (KeyPartition.ranges (.ofList [(1, 1), (2, 1)]))) = .ok paired.members := by
    rw [hranges]
    with_unfolding_all rfl
  have hparties : (createFrom (createParty paired.config) 2 1).run.run
      (Tape.new [[7], [7]] [] "") = (.ok [keyless 1, keyless 2], Tape.new [] [] "") := by
    with_unfolding_all rfl
  have hvalid : validateParties paired.members 2 = .ok () := by with_unfolding_all rfl
  have hstart : (start paired.config).run.run (Tape.new [[7], [7]] [] "") = _ :=
    start_eq rfl hparties hcounts hmembers hvalid
  exact .started (Tape.new [[7], [7]] [] "") paired.config paired (congrArg Prod.fst hstart)

end Weighted

/-- Two members verify their shares, the second one first, and two parties refuse to deal before
they know each other. -/
theorem exists_joined_in_any_order :
    (∃ (c : Ceremony (Participant ResidueKey)) (phase : Phase ResidueKey) (sources : Sources Tape),
      Reached Plain.kind c ∧ [1, 0].Perm (phase.places c.members.length) ∧
      Regular (Plain.task phase c.members) (phase.places c.members.length) c sources ∧
      (sharedRound phase.name [1, 0] (Plain.task phase)).finish c sources =
          (phase.inOrder Plain.task).finish c sources ∧
        Joined phase.name (Plain.task phase c.members) (phase.places c.members.length) c sources
          ((sharedRound phase.name [1, 0] (Plain.task phase)).finish c sources).1.1
          ((sharedRound phase.name [1, 0] (Plain.task phase)).finish c sources).1.2) ∧
    ∃ (c : Ceremony (WeightedParty ResidueKey)) (phase : Phase ResidueKey) (sources : Sources Tape),
      Reached Weighted.kind c ∧ [1, 0].Perm (phase.places c.members.length) ∧
      Regular (Weighted.task phase c.members) (phase.places c.members.length) c sources ∧
      (sharedRound phase.name [1, 0] (Weighted.task phase)).finish c sources =
          (phase.inOrder Weighted.task).finish c sources ∧
        Joined phase.name (Weighted.task phase c.members) (phase.places c.members.length) c sources
          ((sharedRound phase.name [1, 0] (Weighted.task phase)).finish c sources).1.1
          ((sharedRound phase.name [1, 0] (Weighted.task phase)).finish c sources).1.2 := by
  let sources : Sources Tape := ⟨fun _ => Tape.new [] [] ""⟩
  constructor
  · have hregular : Regular (Plain.task .verification Plain.dealt.members) [0, 1] Plain.dealt
        sources := by
      intro place hplace member hmember
      obtain rfl | rfl : place = 0 ∨ place = 1 := by simpa using hplace
      · obtain rfl := Option.some.inj hmember
        change Refuses (((Plain.supplied 1).verifyShares none none).run sources).1.1 _
        rw [Plain.verifyShares_supplied (.inl rfl)]
        exact .ok
      · obtain rfl := Option.some.inj hmember
        change Refuses (((Plain.supplied 2).verifyShares none none).run sources).1.1 _
        rw [Plain.verifyShares_supplied (.inr rfl)]
        exact .ok
    have hperm : [1, 0].Perm
        ((.verification : Phase ResidueKey).places Plain.dealt.members.length) := .swap 0 1 []
    exact ⟨Plain.dealt, .verification, sources, Plain.reached_dealt, hperm, hregular,
      joined_in_any_order.1 _ _ .verification sources _ Plain.reached_dealt (.refl _) hperm
        hregular⟩
  · have hregular : Regular (Weighted.task .dealing Weighted.paired.members) [0, 1] Weighted.paired
        sources := by
      intro place hplace member hmember
      obtain rfl | rfl : place = 0 ∨ place = 1 := by simpa using hplace
      · obtain rfl := Option.some.inj hmember
        exact .error rfl
      · obtain rfl := Option.some.inj hmember
        exact .error rfl
    have hperm : [1, 0].Perm
        ((.dealing : Phase ResidueKey).places Weighted.paired.members.length) := .swap 0 1 []
    exact ⟨Weighted.paired, .dealing, sources, Weighted.reached_paired, hperm, hregular,
      joined_in_any_order.2 _ _ .dealing sources _ Weighted.reached_paired (.refl _) hperm hregular⟩

end ThresholdKeygen
