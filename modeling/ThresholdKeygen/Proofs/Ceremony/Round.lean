import ThresholdKeygen.Proofs.Draws
import ThresholdKeygen.Proofs.Participant.Dealing

/-!
# Rounds of honest members

What rounds do to members that follow the protocol. A ceremony seats its members by a property that
each has at its position; a round whose task leads from one property to another one leads from one
seating to the other.
-/

namespace ThresholdKeygen

variable {K σ : Type}

/-- A member gives back the participant that was put into it. -/
class LawfulMember (M : Type) {K : outParam Type} [Member M K] : Prop where
  core_withCore : ∀ (member : M) (p : Participant K), Member.core (Member.withCore member p) = p

instance : LawfulMember (Participant K) := ⟨fun _ _ => rfl⟩

instance : LawfulMember (WeightedParty K) := ⟨fun _ _ => rfl⟩

/-! ### Configurations -/

/-- A configuration with parameters in range, whose snapshots of public maps have lengths in four
bytes and whose label has an encoding. -/
structure Config.Feasible (config : Config) : Prop where
  one_le_participants : 1 ≤ config.participants
  participants_le : config.participants ≤ config.shareIndices
  one_le_threshold : 1 ≤ config.threshold
  threshold_le : config.threshold ≤ config.shareIndices
  snapshots : 33 * config.shareIndices + 4 < 2 ^ 32
  label : ∃ label, config.label = .bytes label ∧ label.length < 2 ^ 32

/-- A configuration with which members can be created: its parameters are in range, and tables of
that many slots fit into memory. -/
structure Config.Sized (config : Config) : Prop where
  one_le_participants : 1 ≤ config.participants
  participants_le : config.participants ≤ config.shareIndices
  one_le_threshold : 1 ≤ config.threshold
  threshold_le : config.threshold ≤ config.shareIndices
  shareIndices_lt : config.shareIndices < maxSlots

theorem Config.Feasible.sized {config : Config} (h : config.Feasible) : config.Sized := by
  have hslots : (2 : Int) ^ 32 ≤ maxSlots := by decide
  exact ⟨h.one_le_participants, h.participants_le, h.one_le_threshold, h.threshold_le,
    by have := h.snapshots; omega⟩

theorem Config.shareIndices_of_none {config : Config} (h : config.keys = none) :
    config.shareIndices = config.participants := by
  rw [shareIndices, h]
  rfl

/-- That a sharing has the parameters of a configuration and no coefficient that is zero. -/
structure Sharing.DealtFor (s : Sharing) (config : Config) : Prop where
  dealers_eq : s.dealers = config.participants
  threshold_eq : s.threshold = config.threshold
  nonzero : s.Nonzero

theorem Sharing.DealtFor.one_le_threshold {s : Sharing} {config : Config} (hs : s.DealtFor config)
    (hconfig : config.Feasible) : 1 ≤ s.threshold := by
  have := hs.threshold_eq
  have := hconfig.one_le_threshold
  omega

/-- Values at enough different indices recover the value at any other one. -/
theorem Sharing.DealtFor.interpolate_eq {s : Sharing} {config : Config} (hs : s.DealtFor config)
    (hconfig : config.Feasible) {points : List (Int × Scalar)}
    (hnodup : (points.map Prod.fst).Nodup) (hlength : config.threshold ≤ points.length)
    (hpoints : ∀ point ∈ points,
      point.1 ∈ upTo config.shareIndices ∧ point.2 = s.value point.1) (place : Int) :
    interpolate points place = .ok (s.value place) := by
  obtain ⟨-, -, ht₁, ht₂, hbytes, -⟩ := hconfig
  have hthreshold := hs.threshold_eq
  have horder : (2 : Int) ^ 32 ≤ groupOrder := by decide
  refine s.interpolate_value (n := config.shareIndices) (by omega) ?_ (by omega) hnodup
    (fun point hpoint => ?_) place
  · rintro rfl
    rw [List.length_nil] at hlength
    omega
  · obtain ⟨hindex, hvalue⟩ := hpoints point hpoint
    obtain ⟨h₁, h₂⟩ := mem_upTo.1 hindex
    exact ⟨h₁, h₂, hvalue⟩

namespace Ceremony

/-! ### Seats -/

variable {M : Type}

/-- That the members of a ceremony with a configuration and some inboxes sit at the positions
`1, …, participants`, in order, and each has a property there. -/
structure Seats (config : Config) (inboxes : Mapping Int Inbox) (R : Int → M → Prop)
    (c : Ceremony M) : Prop where
  config_eq : c.config = config
  inboxes_eq : c.inboxes = inboxes
  length_eq : (c.members.length : Int) = config.participants
  seated : ∀ (place : Nat) member, c.members[place]? = some member → R (place + 1) member

variable {config : Config} {inboxes : Mapping Int Inbox} {R R' : Int → M → Prop} {c : Ceremony M}

/-- After another member has taken a place, it is there, and nobody else has changed. -/
theorem getElem?_set_cases {members : List M} {place i : Nat} {member other : M}
    (h : (members.set place member)[i]? = some other) :
    i = place ∧ other = member ∨ i ≠ place ∧ members[i]? = some other := by
  rw [List.getElem?_set] at h
  by_cases hi : place = i
  · rw [if_pos hi] at h
    split at h
    · exact .inl ⟨hi.symm, (Option.some.inj h).symm⟩
    · cases h
  · rw [if_neg hi] at h
    exact .inr ⟨Ne.symm hi, h⟩

namespace Seats

variable (h : c.Seats config inboxes R)

include h

theorem mem_upTo {place : Nat} {member : M} (hmember : c.members[place]? = some member) :
    (place : Int) + 1 ∈ upTo config.participants := by
  obtain ⟨hplace, -⟩ := List.getElem?_eq_some_iff.1 hmember
  have := h.length_eq
  exact ThresholdKeygen.mem_upTo.2 ⟨by omega, by omega⟩

theorem mono (hRR' : ∀ x member, x ∈ upTo config.participants → R x member → R' x member) :
    c.Seats config inboxes R' :=
  { h with
    seated := fun place member hmember =>
      hRR' _ member (h.mem_upTo hmember) (h.seated place member hmember) }

/-- Every member sits somewhere. -/
theorem exists_seat {member : M} (hmember : member ∈ c.members) :
    ∃ x ∈ upTo config.participants, R x member := by
  obtain ⟨place, hplace⟩ := List.mem_iff_getElem?.1 hmember
  exact ⟨place + 1, h.mem_upTo hplace, h.seated place member hplace⟩

/-- There is a member at every position. -/
theorem exists_member {x : Int} (hx : x ∈ upTo config.participants) :
    ∃ (place : Nat) (member : M), (place : Int) + 1 = x ∧ c.members[place]? = some member := by
  obtain ⟨h₁, h₂⟩ := ThresholdKeygen.mem_upTo.1 hx
  have := h.length_eq
  have hplace : (x - 1).toNat < c.members.length := by omega
  exact ⟨(x - 1).toNat, _, by omega, List.getElem?_eq_getElem hplace⟩

/-- Another member takes a seat. -/
theorem set {place : Nat} {member : M} (hnew : R' (place + 1) member)
    (hold : ∀ i other, i ≠ place → R ((i : Int) + 1) other → R' (i + 1) other) :
    { c with members := c.members.set place member }.Seats config inboxes R' where
  config_eq := h.config_eq
  inboxes_eq := h.inboxes_eq
  length_eq := by rw [List.length_set]; exact h.length_eq
  seated := by
    intro i other hother
    rcases getElem?_set_cases hother with ⟨rfl, rfl⟩ | ⟨hi, hother⟩
    · exact hnew
    · exact hold i other hi (h.seated i other hother)

theorem record (name : String) : (c.record name).Seats config inboxes R := by
  unfold Ceremony.record
  split
  · exact h
  · exact { h with }

end Seats

theorem forget_eq {S α : Type} {answer : Answer S α} {a : α} {s : S} (h : answer = (.ok a, s)) :
    forget answer = (.ok (), s) := by
  rw [h]
  rfl

/-! ### Creation -/

theorem succeeds_createFrom {create : Int → ExceptT Error (StateM σ) M} {count : Nat} {next : Int}
    (h : ∀ x, next ≤ x → x < next + count → Succeeds (create x) (R x)) :
    Succeeds (createFrom create count next) fun members =>
      members.length = count ∧
        ∀ (place : Nat) member, members[place]? = some member → R (place + next) member := by
  induction count generalizing next with
  | zero => exact .pure ⟨rfl, by simp⟩
  | succ count ih =>
    rw [createFrom]
    refine .bind ((h next le_rfl (by omega)).mono fun member hmember => ?_)
    refine .bind ((ih fun x h₁ h₂ => h x (by omega) (by omega)).mono ?_)
    rintro members ⟨hlength, hmembers⟩
    refine .pure ⟨by rw [List.length_cons, hlength], fun place other hother => ?_⟩
    cases place with
    | zero =>
      obtain rfl := Option.some.inj hother
      simpa using hmember
    | succ place =>
      have hplace : ((place + 1 : Nat) : Int) + next = place + (next + 1) := by omega
      rw [hplace]
      exact hmembers place other hother

/-! ### Places -/

/-- That a position is that of one of some places. -/
def Among (places : List Nat) (x : Int) : Prop := ∃ place ∈ places, x = (place : Int) + 1

theorem not_among_nil {x : Int} : ¬ Among [] x := by
  rintro ⟨place, hplace, -⟩
  cases hplace

theorem among_append_singleton {places : List Nat} {place : Nat} {x : Int} :
    Among (places ++ [place]) x ↔ Among places x ∨ x = place + 1 := by
  constructor
  · rintro ⟨i, hi, rfl⟩
    rcases List.mem_append.1 hi with hi | hi
    · exact .inl ⟨i, hi, rfl⟩
    · exact .inr (by rw [List.mem_singleton.1 hi])
  · rintro (⟨i, hi, rfl⟩ | rfl)
    · exact ⟨i, List.mem_append_left _ hi, rfl⟩
    · exact ⟨place, List.mem_append_right _ (List.mem_singleton_self place), rfl⟩

theorem among_range {count : Nat} {x : Int} (hx : x ∈ upTo count) :
    Among (List.range count) x := by
  obtain ⟨h₁, h₂⟩ := mem_upTo.1 hx
  exact ⟨(x - 1).toNat, List.mem_range.2 (by omega), by omega⟩

/-! ### Tasks -/

/-- Tasks that succeed, in an order in which every member has at most one turn. -/
theorem always_runTasks {task : Task σ M}
    (htask : ∀ x member, R x member →
      Always (task member) fun answer => answer.1 = .ok () ∧ R' x answer.2)
    {schedule : List Nat} (hnodup : schedule.Nodup) {members : List M}
    (hscheduled : ∀ (place : Nat) member, members[place]? = some member → place ∈ schedule →
      R (place + 1) member)
    (hothers : ∀ (place : Nat) member, members[place]? = some member → place ∉ schedule →
      R' (place + 1) member) :
    Always (runTasks task schedule members) fun result =>
      (∀ outcome ∈ result.1, outcome.2 = .ok ()) ∧ result.2.length = members.length ∧
        ∀ (place : Nat) member, result.2[place]? = some member → R' (place + 1) member := by
  induction schedule generalizing members with
  | nil =>
    refine .pure ⟨by simp, rfl, fun place member hmember => ?_⟩
    exact hothers place member hmember List.not_mem_nil
  | cons place schedule ih =>
    obtain ⟨hplace, hrest⟩ := List.nodup_cons.1 hnodup
    rw [runTasks]
    cases hmember : members[place]? with
    | none =>
      dsimp only
      refine ih hrest (fun i other hother hi => hscheduled i other hother (.tail _ hi))
        fun i other hother hi => hothers i other hother ?_
      rintro (_ | ⟨_, hmem⟩)
      · rw [hmember] at hother
        cases hother
      · exact hi hmem
    | some member =>
      dsimp only
      refine .bind ((htask _ member (hscheduled place member hmember (.head _))).mono ?_)
      rintro ⟨_, member'⟩ ⟨rfl, hmember'⟩
      -- who has had its turn has the new property, and must not come again
      have hnext := @ih hrest (members.set place member') ?_ ?_
      · refine .bind (hnext.mono ?_)
        rintro ⟨outcomes, members'⟩ ⟨houtcomes, hlength, hmembers'⟩
        refine .pure ⟨List.forall_mem_cons.2 ⟨rfl, houtcomes⟩, ?_, hmembers'⟩
        rw [hlength, List.length_set]
      · intro i other hother hi
        rcases getElem?_set_cases hother with ⟨rfl, -⟩ | ⟨-, hold⟩
        · exact absurd hi hplace
        · exact hscheduled i other hold (.tail _ hi)
      · intro i other hother hi
        rcases getElem?_set_cases hother with ⟨rfl, rfl⟩ | ⟨hne, hold⟩
        · exact hmember'
        · apply hothers i other hold
          rintro (_ | ⟨_, hmem⟩)
          · exact hne rfl
          · exact hi hmem

theorem reaches_onMember {α : Type} {place : Nat} {operation : M → Answer M α} {member member' : M}
    {a : α} {Q : Option α → Ceremony M → Prop} (hmember : c.members[place]? = some member)
    (hoperation : operation member = (.ok a, member'))
    (hQ : Q (some a) { c with members := c.members.set place member' }) :
    (onMember place operation : Run σ (Ceremony M) (Option α)).Reaches c Q := by
  refine .bind (.get ?_)
  simp only [hmember, hoperation]
  exact .bind (.set (.bind (.steady rfl (.pure hQ))))

/-! ### Rounds -/

variable [Member M K]

theorem refusals_eq_nil {members : List M} {outcomes : List (Nat × Except Error Unit)}
    (h : ∀ outcome ∈ outcomes, outcome.2 = .ok ()) : refusals members outcomes = [] := by
  rw [refusals, List.filterMap_eq_nil_iff]
  rintro ⟨member, place⟩ -
  cases houtcome : Mapping.findEntry place outcomes with
  | none => simp only [houtcome]
  | some outcome =>
    have hok : outcome = .ok () := h _ (Mapping.mem_of_findEntry houtcome)
    simp only [houtcome, hok]

/-- A round in which every member that has a turn succeeds. -/
theorem reaches_roundAmong {name : String} {schedule : List Nat} {task : Task σ M}
    {Q : Int → M → Prop} (h : c.Seats config inboxes Q) (hnodup : schedule.Nodup)
    (hscheduled : ∀ (place : Nat) member, c.members[place]? = some member → place ∈ schedule →
      R (place + 1) member)
    (hothers : ∀ (place : Nat) member, c.members[place]? = some member → place ∉ schedule →
      R' (place + 1) member)
    (htask : ∀ x member, R x member →
      Always (task member) fun answer => answer.1 = .ok () ∧ R' x answer.2) :
    (roundAmong name schedule task).Reaches c fun _ c' => c'.Seats config inboxes R' := by
  refine .bind (.get (.bind (.lift ?_)))
  refine (always_runTasks htask hnodup hscheduled hothers).mono ?_
  rintro ⟨outcomes, members⟩ ⟨houtcomes, hlength, hmembers⟩
  have hseats : { c with members }.Seats config inboxes R' :=
    ⟨h.config_eq, h.inboxes_eq, by rw [hlength]; exact h.length_eq, hmembers⟩
  dsimp only
  rw [refusals_eq_nil houtcomes]
  exact .bind (.set (.steady rfl (hseats.record name)))

/-- A round in which every member succeeds. -/
theorem reaches_round {name : String} {task : Task σ M} (h : c.Seats config inboxes R)
    (htask : ∀ x member, x ∈ upTo config.participants → R x member →
      Always (task member) fun answer => answer.1 = .ok () ∧ R' x answer.2) :
    (round name task).Reaches c fun _ c' => c'.Seats config inboxes R' := by
  have hrange : ∀ {place : Nat} {member : M}, c.members[place]? = some member →
      place ∈ List.range c.members.length := by
    intro place member hmember
    obtain ⟨hplace, -⟩ := List.getElem?_eq_some_iff.1 hmember
    exact List.mem_range.2 hplace
  refine .bind (.get (reaches_roundAmong (R := fun x member =>
    x ∈ upTo config.participants ∧ R x member) h List.nodup_range ?_ ?_ ?_))
  · exact fun place member hmember _ => ⟨h.mem_upTo hmember, h.seated place member hmember⟩
  · exact fun place member hmember hplace => absurd (hrange hmember) hplace
  · exact fun x member hmember => htask x member hmember.1 hmember.2

/-- A round of tasks that draw nothing. -/
theorem reaches_steadyRound {name : String} {work : M → Answer M Unit}
    (h : c.Seats config inboxes R)
    (hwork : ∀ x member, x ∈ upTo config.participants → R x member →
      ∃ member', work member = (.ok (), member') ∧ R' x member') :
    (round name (steadyTask work) : Run σ (Ceremony M) Unit).Reaches c fun _ c' =>
      c'.Seats config inboxes R' := by
  apply reaches_round h
  intro x member hx hmember
  obtain ⟨member', hwork, hmember'⟩ := hwork x member hx hmember
  rw [steadyTask, hwork]
  exact .pure ⟨rfl, hmember'⟩

/-- A round of checks that all pass. -/
theorem reaches_inspection {name : String} {check : M → Except Error Unit}
    (h : c.Seats config inboxes R)
    (hcheck : ∀ x member, x ∈ upTo config.participants → R x member → check member = .ok ()) :
    (round name (inspection check) : Run σ (Ceremony M) Unit).Reaches c fun _ c' =>
      c'.Seats config inboxes R := by
  apply reaches_round h
  intro x member hx hmember
  rw [inspection, hcheck x member hx hmember]
  exact .pure ⟨rfl, hmember⟩

/-! ### Participants of members -/

/-- Members sit at all positions and nowhere else. -/
theorem Seats.mem_positions (h : c.Seats config inboxes R)
    (hR : ∀ x member, R x member → positionOf member = x) {y : Int} :
    y ∈ c.members.map positionOf ↔ y ∈ upTo config.participants := by
  rw [List.mem_map]
  constructor
  · rintro ⟨member, hmember, rfl⟩
    obtain ⟨x, hx, hseat⟩ := h.exists_seat hmember
    rwa [hR x member hseat]
  · intro hy
    obtain ⟨place, member, rfl, hmember⟩ := h.exists_member hy
    exact ⟨member, List.mem_of_getElem? hmember, hR _ _ (h.seated place member hmember)⟩

/-- There is a first member. -/
theorem Seats.exists_first (h : c.Seats config inboxes R) (hconfig : config.Feasible) :
    ∃ first others, c.members = first :: others ∧ R 1 first := by
  have := h.length_eq
  have := hconfig.one_le_participants
  obtain ⟨first, others, hfirst⟩ :=
    List.exists_cons_of_length_pos (show 0 < c.members.length by omega)
  exact ⟨first, others, hfirst, h.seated 0 first (by rw [hfirst]; rfl)⟩

/-- That a property of a member depends only on what it keeps beside its participant. -/
def Outside (Φ : Int → M → Prop) : Prop :=
  ∀ x member p, Φ x member → Φ x (Member.withCore member p)

theorem onCore_eq {α : Type} {member : M} {operation : Participant K → Answer (Participant K) α}
    {a : α} {p : Participant K} (h : operation (Member.core member) = (.ok a, p)) :
    onCore member operation = (.ok a, Member.withCore member p) := by
  rw [onCore, h]

/-- The polynomials that newcomers have drawn are a sharing, in which they are enrolled. -/
theorem exists_enrolled [Suite K] {members : List M}
    (hlength : (members.length : Int) = config.participants) {t : Nat} (ht : config.threshold = t)
    {n : Int} {context : Item K} (hmembers : ∀ (place : Nat) member, members[place]? = some member →
      (Member.core member).New n config.participants t context (place + 1)) :
    ∃ s : Sharing, s.DealtFor config ∧ ∀ (place : Nat) member, members[place]? = some member →
      (Member.core member).Enrolled s n (place + 1) := by
  let dealt (i : Int) : Coefficients :=
    (members[(i - 1).toNat]?.map fun member => (Member.core member).polynomial).getD []
  have hdealt : ∀ i, 1 ≤ i → i ≤ config.participants →
      (dealt i).length = t ∧ ∀ a ∈ dealt i, a ≠ 0 := by
    intro i h₁ h₂
    have hplace : (i - 1).toNat < members.length := by omega
    obtain ⟨polynomial, hpolynomial, hne, hnew⟩ :=
      hmembers _ _ (List.getElem?_eq_getElem hplace)
    simp only [dealt, List.getElem?_eq_getElem hplace, Option.map_some, Option.getD_some, hnew]
    exact ⟨hpolynomial, hne⟩
  refine ⟨⟨config.participants, t, dealt, fun i h₁ h₂ => (hdealt i h₁ h₂).1⟩,
    ⟨rfl, ht.symm, fun i h₁ h₂ => (hdealt i h₁ h₂).2⟩, fun place member hmember => ?_⟩
  obtain ⟨polynomial, -, -, hnew⟩ := hmembers place member hmember
  have hplace : ((place : Int) + 1 - 1).toNat = place := by omega
  have hpolynomial : polynomial = dealt (place + 1) := by
    simp only [dealt, hplace, hmember, Option.map_some, Option.getD_some, hnew]
    rfl
  subst hpolynomial
  rw [hnew]
  exact Participant.enrolled_newcomer context

end Ceremony

end ThresholdKeygen
