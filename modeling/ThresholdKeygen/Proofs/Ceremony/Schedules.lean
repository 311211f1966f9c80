import ThresholdKeygen.Proofs.Ceremony.Evolution
import ThresholdKeygen.Proofs.OwnDraws

/-!
# Schedules

A round comes to the same end in whatever order its tasks run, when every task draws from the source
of its member and changes nothing that another task reads. Main statements: `alone_runTasks`, every
task comes to what it comes to alone, and `runShared_eq`, for tasks that look at all members.
-/

namespace ThresholdKeygen

variable {K M σ τ : Type}

/-- What a run comes to from a state and a source: its answer, and the state and the source
afterwards. -/
def Run.finish {S α : Type} (m : Run σ S α) (s : S) (source : σ) : (Except Error α × S) × σ :=
  (m.run.run s).run source

namespace Run

variable {S α β : Type} {m : Run σ S α} {s s' : S} {source source' : σ}

theorem Ends.finish {Q : Except Error α → S → Prop} (h : m.Ends s Q) (source : σ) :
    Q (m.finish s source).1.1 (m.finish s source).1.2 := h source

theorem Reaches.finish {Q : α → S → Prop} (h : m.Reaches s Q) (source : σ) :
    ∃ a, (m.finish s source).1.1 = .ok a ∧ Q a (m.finish s source).1.2 := h source

theorem finish_bind {f : α → Run σ S β} {a : α} (h : m.finish s source = ((.ok a, s'), source')) :
    (m >>= f).finish s source = (f a).finish s' source' := by
  rw [finish] at h
  rw [finish, ExceptT.run_bind, StateT.run_bind, StateT.run_bind, h]
  rfl

theorem finish_bind_error {f : α → Run σ S β} {refusal : Error}
    (h : m.finish s source = ((.error refusal, s'), source')) :
    (m >>= f).finish s source = ((.error refusal, s'), source') := by
  rw [finish] at h
  rw [finish, ExceptT.run_bind, StateT.run_bind, StateT.run_bind, h]
  rfl

theorem finish_get : (get : Run σ S S).finish s source = ((.ok s, s), source) := rfl

theorem finish_set : (set s' : Run σ S PUnit).finish s source = ((.ok ⟨⟩, s'), source) := rfl

theorem finish_lift (m : StateM σ α) : (liftM m : Run σ S α).finish s source =
    ((.ok (m.run source).1, s), (m.run source).2) := rfl

theorem finish_steady (x : Except Error α) :
    (liftM x : Run σ S α).finish s source = ((x, s), source) := by
  cases x <;> rfl

/-- Runs that come to the same from everywhere are the same. -/
theorem ext_finish {m' : Run σ S α} (h : ∀ s source, m.finish s source = m'.finish s source) :
    m = m' := ExceptT.ext (StateT.ext fun s => StateT.ext fun source => h s source)

end Run

namespace Ceremony

/-! ### Tasks that look at all members -/

/-- The tasks of a round in which a member may look at what all members are when its turn comes. -/
abbrev SharedTask (σ M : Type) := List M → Task σ M

/-- Runs the task of every member in a schedule; each looks at what the members have become. -/
def runShared (task : SharedTask σ M) :
    (schedule : List Nat) → List M → StateM σ (List (Nat × Except Error Unit) × List M)
  | [], members => return ([], members)
  | place :: schedule, members =>
    match members[place]? with
    | none => runShared task schedule members
    | some member => do
      let (outcome, member) ← task members member
      let (outcomes, members) ← runShared task schedule (members.set place member)
      return ((place, outcome) :: outcomes, members)

/-- Runs a round of tasks that may look at all members. -/
def sharedRound [Member M K] (name : String) (schedule : List Nat) (task : SharedTask σ M) :
    Run σ (Ceremony M) Unit := do
  let c ← get
  let (outcomes, members) ← (runShared task schedule c.members : StateM σ _)
  let found := refusals members outcomes
  let c := { c with members }
  set (if found.all fun (_, refusal) => refusal.isProtocol then c.record name else c)
  settle name found

/-- That no turn changes anything that a task reads. -/
def Undisturbed (task : SharedTask σ M) : Prop :=
  ∀ (members : List M) (place : Nat) (member : M) (source : σ), members[place]? = some member →
    task (members.set place ((task members member).run source).1.2) = task members

theorem undisturbed_const (task : Task σ M) : Undisturbed fun _ => task := fun _ _ _ _ _ => rfl

/-- Who only looks disturbs nobody. -/
theorem undisturbed_inspection (check : List M → M → Except Error Unit) :
    Undisturbed (fun members => inspection (check members) : SharedTask σ M) := by
  intro members place member source hmember
  obtain ⟨hplace, rfl⟩ := List.getElem?_eq_some_iff.1 hmember
  exact congrArg (fun members => inspection (check members)) (List.set_getElem_self hplace)

/-- Where no turn disturbs another one, all members can as well look first. -/
theorem runShared_eq {task : SharedTask σ M} (h : Undisturbed task) (schedule : List Nat)
    (members : List M) :
    runShared task schedule members = runTasks (task members) schedule members := by
  induction schedule generalizing members with
  | nil => rfl
  | cons place schedule ih =>
    rw [runShared, runTasks]
    cases hmember : members[place]? with
    | none => exact ih members
    | some member =>
      refine StateT.ext fun source => ?_
      dsimp only
      rw [StateT.run_bind, StateT.run_bind]
      have hsame := h members place member source hmember
      generalize (task members member).run source = turn at hsame ⊢
      obtain ⟨⟨outcome, left⟩, rest⟩ := turn
      change ((runShared task schedule (members.set place left)) >>= _).run rest =
        ((runTasks (task members) schedule (members.set place left)) >>= _).run rest
      rw [ih, hsame]

theorem sharedRound_const [Member M K] (name : String) (schedule : List Nat) (task : Task σ M) :
    (sharedRound name schedule fun _ => task) = roundAmong name schedule task := by
  rw [sharedRound, roundAmong]
  simp only [runShared_eq (undisturbed_const task)]

theorem finish_sharedRound [Member M K] {task : SharedTask σ M} (h : Undisturbed task)
    (name : String) (schedule : List Nat) (c : Ceremony M) (source : σ) :
    (sharedRound name schedule task).finish c source =
      (roundAmong name schedule (task c.members)).finish c source := by
  rw [sharedRound, roundAmong, Run.finish_bind Run.finish_get, Run.finish_bind Run.finish_get,
    runShared_eq h]

/-! ### Tasks alone -/

/-- What tasks come to: their outcomes by place, the members, and the sources. -/
abbrev Turned (τ M : Type) := (List (Nat × Except Error Unit) × List M) × Sources τ

/-- What tasks have come to at a place. -/
def Turned.seen (result : Turned τ M) (place : Nat) : Option (Except Error Unit) × Option M × τ :=
  (Mapping.findEntry place result.1.1, result.1.2[place]?, result.2.of (place + 1))

/-- That every task has come to what it comes to alone, and that nothing else has happened. -/
structure Alone (task : Task (Sources τ) M) (schedule : List Nat) (members : List M)
    (sources : Sources τ) (result : Turned τ M) : Prop where
  turn : ∀ place ∈ schedule, ∀ member, members[place]? = some member → result.seen place =
    (some ((task member).run sources).1.1, some ((task member).run sources).1.2,
      ((task member).run sources).2.of (place + 1))
  others : ∀ place, (place ∈ schedule → members[place]? = none) →
    result.seen place = (none, members[place]?, sources.of (place + 1))
  beyond : ∀ x < 1, result.2.of x = sources.of x

section Alone

variable {task : Task (Sources τ) M} {schedule : List Nat} {members : List M} {sources : Sources τ}

/-- The first turn leaves the other members and their sources as they were. -/
theorem Alone.cons {first : Nat} {member left : M} {outcome : Except Error Unit}
    {sources₁ : Sources τ} {result : Turned τ M} (hfirst : first ∉ schedule)
    (hturn : members[first]? = some member) (hown : Confined (first + 1) (task member))
    (hanswer : (task member).run sources = ((outcome, left), sources₁))
    (hconfined : ∀ place ∈ schedule, ∀ member, members[place]? = some member →
      Confined (place + 1) (task member))
    (halone : Alone task schedule (members.set first left) sources₁ result) :
    Alone task (first :: schedule) members sources
      (((first, outcome) :: result.1.1, result.1.2), result.2) := by
  have hof : ∀ x ≠ (first : Int) + 1, sources₁.of x = sources.of x := by
    intro x hx
    have hx := hown.of_run sources hx
    rwa [hanswer] at hx
  have hkept : ∀ place ≠ first, (members.set first left)[place]? = members[place]? ∧
      sources₁.of (place + 1) = sources.of (place + 1) := fun place hplace =>
    ⟨List.getElem?_set_ne hplace.symm, hof _ (by omega)⟩
  have hseen : ∀ place ≠ first, Turned.seen (((first, outcome) :: result.1.1, result.1.2), result.2)
      place = result.seen place := by
    intro place hplace
    rw [Turned.seen, Mapping.findEntry, if_neg hplace.symm]
    rfl
  refine ⟨List.forall_mem_cons.2 ⟨fun other hmember => ?_, fun place hplace other hmember => ?_⟩,
    fun place hplace => ?_, fun x hx => (halone.beyond x hx).trans (hof x (by omega))⟩
  · obtain rfl := Option.some.inj (hturn.symm.trans hmember)
    have hleft := halone.others first fun hmem => absurd hmem hfirst
    rw [List.getElem?_set_self (List.getElem?_eq_some_iff.1 hturn).1] at hleft
    rw [hanswer, Turned.seen, Mapping.findEntry, if_pos rfl]
    exact congrArg (Prod.mk (some outcome)) (Prod.mk.inj hleft).2
  · have hne := ne_of_mem_of_not_mem hplace hfirst
    obtain ⟨hmember', hsource⟩ := hkept place hne
    rw [hseen place hne, halone.turn place hplace other (hmember'.trans hmember),
      (hconfined place hplace other hmember).run_eq hsource, Sources.of_put_self]
  · have hne : place ≠ first := by
      rintro rfl
      rw [hturn] at hplace
      cases hplace (.head _)
    obtain ⟨hmember', hsource⟩ := hkept place hne
    rw [hseen place hne, halone.others place fun hmem => hmember'.trans (hplace (.tail _ hmem)),
      hmember', hsource]

/-- No turn depends on the turns before it, since all tasks draw from sources of their own. -/
theorem alone_runTasks (hnodup : schedule.Nodup)
    (hconfined : ∀ place ∈ schedule, ∀ member, members[place]? = some member →
      Confined (place + 1) (task member)) :
    Alone task schedule members sources ((runTasks task schedule members).run sources) := by
  induction schedule generalizing members sources with
  | nil =>
    exact ⟨fun place hplace => absurd hplace List.not_mem_nil, fun _ _ => rfl, fun _ _ => rfl⟩
  | cons first schedule ih =>
    obtain ⟨hfirst, hrest⟩ := List.nodup_cons.1 hnodup
    obtain ⟨hown, hconfined⟩ := List.forall_mem_cons.1 hconfined
    rw [runTasks]
    cases hturn : members[first]? with
    | none =>
      have halone := @ih members sources hrest hconfined
      refine ⟨List.forall_mem_cons.2 ⟨?_, halone.turn⟩, fun place hplace => ?_, halone.beyond⟩
      · rw [hturn]
        rintro _ ⟨⟩
      · exact halone.others place fun hmem => hplace (.tail _ hmem)
    | some member =>
      rw [StateT.run_bind]
      generalize hanswer : (task member).run sources = answer
      obtain ⟨⟨outcome, left⟩, sources₁⟩ := answer
      refine .cons hfirst hturn (hown member hturn) hanswer hconfined (@ih _ sources₁ hrest ?_)
      intro place hplace other hmember
      rw [List.getElem?_set_ne (ne_of_mem_of_not_mem hplace hfirst).symm] at hmember
      exact hconfined place hplace other hmember

/-- What tasks come to alone is the same whoever is first. -/
theorem Alone.eq {schedule' : List Nat} {result result' : Turned τ M}
    (h : Alone task schedule members sources result)
    (h' : Alone task schedule' members sources result') (hperm : schedule.Perm schedule') :
    (∀ place, Mapping.findEntry place result.1.1 = Mapping.findEntry place result'.1.1) ∧
      result.1.2 = result'.1.2 ∧ result.2 = result'.2 := by
  have hseen : ∀ place, result.seen place = result'.seen place := by
    intro place
    by_cases hplace : place ∈ schedule → members[place]? = none
    · rw [h.others place hplace, h'.others place fun hmem => hplace (hperm.mem_iff.2 hmem)]
    · obtain ⟨hmem, hmember⟩ := Classical.not_imp.1 hplace
      obtain ⟨member, hmember⟩ := Option.ne_none_iff_exists'.1 hmember
      rw [h.turn place hmem member hmember, h'.turn place (hperm.mem_iff.1 hmem) member hmember]
  refine ⟨fun place => (Prod.mk.inj (hseen place)).1, List.ext_getElem? fun place =>
    (Prod.mk.inj (Prod.mk.inj (hseen place)).2).1, Sources.ext (funext fun x => ?_)⟩
  by_cases hx : x < 1
  · rw [h.beyond x hx, h'.beyond x hx]
  · have hof := (Prod.mk.inj (Prod.mk.inj (hseen (x - 1).toNat)).2).2
    rwa [show ((x - 1).toNat : Int) + 1 = x by omega] at hof

end Alone

/-! ### Rounds -/

section Rounds

variable [Member M K]

/-- What a round makes of its outcomes and the members that its tasks leave behind. -/
def close (name : String) (c : Ceremony M) (turned : List (Nat × Except Error Unit) × List M) :
    Except Error Unit × Ceremony M :=
  let found := refusals turned.2 turned.1
  let c := { c with members := turned.2 }
  (settle name found, if found.all fun (_, refusal) => refusal.isProtocol then c.record name else c)

theorem finish_roundAmong (name : String) (schedule : List Nat) (task : Task σ M) (c : Ceremony M)
    (source : σ) : (roundAmong name schedule task).finish c source =
      (close name c ((runTasks task schedule c.members).run source).1,
        ((runTasks task schedule c.members).run source).2) := by
  rw [roundAmong, Run.finish_bind Run.finish_get, Run.finish_bind (Run.finish_lift _)]
  exact (Run.finish_bind Run.finish_set).trans (Run.finish_steady _)

theorem close_congr {name : String} {c : Ceremony M}
    {turned turned' : List (Nat × Except Error Unit) × List M}
    (houtcomes : ∀ place, Mapping.findEntry place turned.1 = Mapping.findEntry place turned'.1)
    (hmembers : turned.2 = turned'.2) : close name c turned = close name c turned' := by
  have hfound : refusals turned.2 turned.1 = refusals turned'.2 turned'.1 := by
    simp only [refusals, houtcomes, hmembers]
  rw [close, close, hfound, hmembers]

/-- That no task refuses with anything but a refusal of the protocol. -/
def Regular (task : Task σ M) (places : List Nat) (c : Ceremony M) (source : σ) : Prop :=
  ∀ place ∈ places, ∀ member, c.members[place]? = some member →
    Refuses ((task member).run source).1.1 fun refusal => refusal.isProtocol = true

/-- That the members sit at the positions from one on, in order. -/
def Seated (c : Ceremony M) : Prop :=
  ∀ (place : Nat) (member : M), c.members[place]? = some member → positionOf member = place + 1

/-- What a round leaves behind when every member that has a turn does what it does alone, and the
refusals, if there are any, are reported by the positions of those who refuse. -/
structure Joined (name : String) (task : Task (Sources τ) M) (places : List Nat) (c : Ceremony M)
    (sources : Sources τ) (answer : Except Error Unit) (c' : Ceremony M) : Prop where
  turn : ∀ place ∈ places, ∀ member, c.members[place]? = some member →
    c'.members[place]? = some ((task member).run sources).1.2
  others : ∀ place ∉ places, c'.members[place]? = c.members[place]?
  answer : (answer = .ok () ∧ ∀ place ∈ places, ∀ member, c.members[place]? = some member →
      ((task member).run sources).1.1 = .ok ()) ∨
    ∃ failures, answer = .error (.roundAborted name failures) ∧ failures ≠ [] ∧
      ∀ x refusal, (x, refusal) ∈ failures ↔ ∃ place ∈ places, ∃ member,
        c.members[place]? = some member ∧ positionOf member = x ∧
          ((task member).run sources).1.1 = .error refusal

section Joined

variable {name : String} {task : Task (Sources τ) M} {places : List Nat} {c : Ceremony M}
  {sources : Sources τ}

theorem members_record (c : Ceremony M) (name : String) : (c.record name).members = c.members := by
  rw [record]
  split <;> rfl

theorem members_close (turned : List (Nat × Except Error Unit) × List M) :
    (close name c turned).2.members = turned.2 := by
  rw [close]
  dsimp only
  split
  · exact members_record _ _
  · rfl

/-- The refusals of a round are those to which its tasks come alone. -/
theorem Alone.mem_refusals {result : Turned τ M} (h : Alone task places c.members sources result)
    (hkept : ∀ place ∈ places, ∀ member, c.members[place]? = some member →
      positionOf ((task member).run sources).1.2 = positionOf member) {entry : Int × Error} :
    entry ∈ refusals result.1.2 result.1.1 ↔
      ∃ place ∈ places, ∃ member, c.members[place]? = some member ∧ positionOf member = entry.1 ∧
        ((task member).run sources).1.1 = .error entry.2 := by
  rw [Ceremony.mem_refusals]
  constructor
  · rintro ⟨place, left, hleft, hrefusal, hposition⟩
    by_cases hplace : place ∈ places → c.members[place]? = none
    · rw [(Prod.mk.inj (h.others place hplace)).1] at hrefusal
      cases hrefusal
    · obtain ⟨hmem, hmember⟩ := Classical.not_imp.1 hplace
      obtain ⟨member, hmember⟩ := Option.ne_none_iff_exists'.1 hmember
      obtain ⟨houtcome, hrest⟩ := Prod.mk.inj (h.turn place hmem member hmember)
      obtain rfl := Option.some.inj (hleft.symm.trans (Prod.mk.inj hrest).1)
      exact ⟨place, hmem, member, hmember, (hkept place hmem member hmember).symm.trans hposition,
        Option.some.inj (houtcome.symm.trans hrefusal)⟩
  · rintro ⟨place, hmem, member, hmember, hposition, hrefusal⟩
    obtain ⟨houtcome, hrest⟩ := Prod.mk.inj (h.turn place hmem member hmember)
    exact ⟨place, _, (Prod.mk.inj hrest).1, houtcome.trans (congrArg some hrefusal),
      (hkept place hmem member hmember).trans hposition⟩

theorem Alone.joined {result : Turned τ M} (h : Alone task places c.members sources result)
    (hseated : c.Seated)
    (hkept : ∀ place ∈ places, ∀ member, c.members[place]? = some member →
      positionOf ((task member).run sources).1.2 = positionOf member)
    (hregular : Regular task places c sources) :
    Joined name task places c sources (close name c result.1).1 (close name c result.1).2 := by
  refine ⟨fun place hmem member hmember => ?_, fun place hmem => ?_, ?_⟩
  · rw [members_close]
    exact (Prod.mk.inj (Prod.mk.inj (h.turn place hmem member hmember)).2).1
  · rw [members_close]
    exact (Prod.mk.inj (Prod.mk.inj (h.others place fun hplace => absurd hplace hmem)).2).1
  · have hrefused : ∀ entry, entry ∈ refusals result.1.2 result.1.1 ↔ _ :=
      fun _ => h.mem_refusals hkept
    rw [close]
    generalize refusals result.1.2 result.1.1 = refused at hrefused ⊢
    by_cases hnone : refused = []
    · refine .inl ⟨settle_eq_ok_iff.2 hnone, fun place hmem member hmember => ?_⟩
      cases hturn : ((task member).run sources).1.1 with
      | ok _ => rfl
      | error refusal =>
        have hentry := (hrefused (_, refusal)).2 ⟨place, hmem, member, hmember, rfl, hturn⟩
        rw [hnone] at hentry
        cases hentry
    · have hsettle : settle name refused = .error (.abortRound name refused) := by
        refine settle_of_isProtocol (fun entry hentry => ?_) hnone
        obtain ⟨place, hmem, member, hmember, -, hturn⟩ := (hrefused entry).1 hentry
        exact hregular place hmem member hmember _ hturn
      -- two members at one position would be at one place
      have honce : ∀ x refusal refusal', (x, refusal) ∈ refused → (x, refusal') ∈ refused →
          refusal = refusal' := by
        intro x refusal refusal' hentry hentry'
        obtain ⟨place, -, member, hmember, hx, hturn⟩ := (hrefused _).1 hentry
        obtain ⟨place', -, member', hmember', hx', hturn'⟩ := (hrefused _).1 hentry'
        have := hseated place member hmember
        have := hseated place' member' hmember'
        obtain rfl : place = place' := by omega
        obtain rfl := Option.some.inj (hmember.symm.trans hmember')
        exact Except.error.inj (hturn.symm.trans hturn')
      refine .inr ⟨_, hsettle, fun hempty => ?_, fun x refusal => ?_⟩
      · obtain ⟨entry, hentry⟩ := List.exists_mem_of_ne_nil _ hnone
        have hmem := (Error.mem_byPosition_iff honce).2 hentry
        rw [hempty] at hmem
        cases hmem
      · rw [Error.mem_byPosition_iff honce, hrefused]

end Joined

/-- Rounds of tasks that draw from sources of their own come to the same end in every order, and
leave behind what each task does alone. -/
theorem finish_sharedRound_perm {name : String} {task : SharedTask (Sources τ) M}
    {schedule places : List Nat} {c : Ceremony M} {sources : Sources τ} (hplaces : places.Nodup)
    (hperm : schedule.Perm places) (hundisturbed : Undisturbed task) (hseated : c.Seated)
    (hconfined : ∀ member, Confined (positionOf member) (task c.members member))
    (hkept : ∀ place ∈ places, ∀ member, c.members[place]? = some member →
      positionOf ((task c.members member).run sources).1.2 = positionOf member)
    (hregular : Regular (task c.members) places c sources) :
    (sharedRound name schedule task).finish c sources =
        (sharedRound name places task).finish c sources ∧
      Joined name (task c.members) places c sources
        ((sharedRound name schedule task).finish c sources).1.1
        ((sharedRound name schedule task).finish c sources).1.2 := by
  have hown : ∀ place : Nat, ∀ member, c.members[place]? = some member →
      Confined (place + 1) (task c.members member) := by
    intro place member hmember
    rw [← hseated place member hmember]
    exact hconfined member
  have halone : Alone (task c.members) places c.members sources _ :=
    alone_runTasks hplaces fun place _ => hown place
  have halone' : Alone (task c.members) schedule c.members sources _ :=
    alone_runTasks (hperm.nodup_iff.2 hplaces) fun place _ => hown place
  obtain ⟨houtcomes, hmembers, hsources⟩ := halone'.eq halone hperm
  have hsame : (sharedRound name schedule task).finish c sources =
      (sharedRound name places task).finish c sources := by
    rw [finish_sharedRound hundisturbed, finish_sharedRound hundisturbed, finish_roundAmong,
      finish_roundAmong, hsources, close_congr houtcomes hmembers]
  refine ⟨hsame, ?_⟩
  rw [hsame, finish_sharedRound hundisturbed, finish_roundAmong]
  exact halone.joined hseated hkept hregular

end Rounds

end Ceremony

end ThresholdKeygen
