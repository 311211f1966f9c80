import ThresholdKeygen.Proofs.Draws

/-!
# Turns

How a round ends, whatever its tasks come to. Every member that is scheduled has a turn, and the
round reports the refusals of all turns, by position. Main statement: `roundAmong_ends`.
-/

namespace ThresholdKeygen

/-! ### Failures by position -/

namespace Error

theorem mem_insertFailure {position : Int} {error : Error} {failures : List (Int × Error)}
    {failure : Int × Error} (h : failure ∈ insertFailure position error failures) :
    failure = (position, error) ∨ failure ∈ failures := by
  induction failures with
  | nil => exact .inl (List.mem_singleton.1 h)
  | cons first rest ih =>
    rw [insertFailure] at h
    split at h
    · exact List.mem_cons.1 h
    · split at h
      · exact (List.mem_cons.1 h).imp_right (.tail _)
      · rcases List.mem_cons.1 h with rfl | h
        · exact .inr (.head _)
        · exact (ih h).imp_right (.tail _)

theorem mem_positions_insertFailure {position x : Int} {error : Error}
    {failures : List (Int × Error)} :
    x ∈ (insertFailure position error failures).map Prod.fst ↔
      x = position ∨ x ∈ failures.map Prod.fst := by
  induction failures with
  | nil => simp [insertFailure]
  | cons first rest ih =>
    rw [insertFailure]
    split
    · simp
    · split
      · simp_all
      · rw [List.map_cons, List.mem_cons, ih, List.map_cons, List.mem_cons, or_left_comm]

/-- Sorting failures by position keeps only what was there. -/
theorem mem_byPosition {failures : List (Int × Error)} {failure : Int × Error}
    (h : failure ∈ byPosition failures) : failure ∈ failures := by
  suffices hfold : ∀ sorted, failure ∈ failures.foldl
      (fun sorted first => insertFailure first.1 first.2 sorted) sorted →
      failure ∈ failures ∨ failure ∈ sorted from (hfold [] h).resolve_right List.not_mem_nil
  clear h
  induction failures with
  | nil => exact fun _ => .inr
  | cons first rest ih =>
    intro sorted h
    rcases ih _ h with h | h
    · exact .inl (.tail _ h)
    · rcases mem_insertFailure h with rfl | h
      · exact .inl (.head _)
      · exact .inr h

/-- Sorting failures by position keeps every position. -/
theorem mem_positions_byPosition {failures : List (Int × Error)} {x : Int} :
    x ∈ (byPosition failures).map Prod.fst ↔ x ∈ failures.map Prod.fst := by
  suffices hfold : ∀ sorted, x ∈ (failures.foldl
      (fun sorted first => insertFailure first.1 first.2 sorted) sorted).map Prod.fst ↔
      x ∈ failures.map Prod.fst ∨ x ∈ sorted.map Prod.fst from
    (hfold []).trans (or_iff_left List.not_mem_nil)
  induction failures with
  | nil => simp
  | cons first rest ih =>
    intro sorted
    rw [List.foldl_cons, ih, mem_positions_insertFailure, List.map_cons, List.mem_cons]
    tauto

/-- Sorting failures keeps all of them when no position has two. -/
theorem mem_byPosition_iff {failures : List (Int × Error)}
    (h : ∀ x refusal refusal', (x, refusal) ∈ failures → (x, refusal') ∈ failures →
      refusal = refusal') {failure : Int × Error} :
    failure ∈ byPosition failures ↔ failure ∈ failures := by
  refine ⟨mem_byPosition, fun hmem => ?_⟩
  obtain ⟨x, refusal⟩ := failure
  obtain ⟨⟨_, refusal'⟩, hmem', rfl⟩ :=
    List.mem_map.1 (mem_positions_byPosition.2 (List.mem_map_of_mem (f := Prod.fst) hmem))
  rwa [h _ _ _ hmem (mem_byPosition hmem')]

theorem mem_offendersOfAll {failures : List (Int × Error)} {x : Int} :
    x ∈ offendersOfAll failures ↔ ∃ failure ∈ failures, x ∈ failure.2.offenders := by
  induction failures with
  | nil => simp [offendersOfAll]
  | cons first rest ih =>
    rw [offendersOfAll, List.mem_append, ih, List.exists_mem_cons_iff]

/-- An aborted round blames those whom its failures blame. -/
theorem mem_offenders_roundAborted {round : String} {failures : List (Int × Error)} {x : Int} :
    x ∈ (roundAborted round failures).offenders ↔
      ∃ failure ∈ failures, x ∈ failure.2.offenders := by
  rw [offenders, mem_ascending, mem_offendersOfAll]

end Error

namespace Ceremony

variable {K M σ : Type}

/-! ### Ends of rounds -/

theorem settle_eq_ok_iff {name : String} {refused : List (Int × Error)} :
    settle name refused = .ok () ↔ refused = [] := by
  constructor
  · intro h
    rw [settle] at h
    split at h
    · cases h
    · split at h
      · exact List.isEmpty_iff.1 ‹_›
      · cases h
  · rintro rfl
    rfl

theorem settle_of_isProtocol {name : String} {refused : List (Int × Error)}
    (h : ∀ entry ∈ refused, entry.2.isProtocol = true) (hne : refused ≠ []) :
    settle name refused = .error (.abortRound name refused) := by
  have hnone : refused.find? (fun entry => !entry.2.isProtocol) = none :=
    List.find?_eq_none.2 fun entry hentry => by simp [h entry hentry]
  rw [settle, hnone]
  exact if_neg (mt List.isEmpty_iff.1 hne)

/-- What a round aborts with is what its members have refused. -/
theorem of_settle_eq_roundAborted {name round : String} {refused failures : List (Int × Error)}
    (h : settle name refused = .error (.roundAborted round failures)) :
    round = name ∧ failures = Error.byPosition refused := by
  rw [settle] at h
  split at h
  · rename_i refusal hfind
    have hprotocol := List.find?_some hfind
    rw [Except.error.inj h] at hprotocol
    cases hprotocol
  · split at h
    · cases h
    · obtain ⟨rfl, rfl⟩ := Error.roundAborted.inj (Except.error.inj h)
      exact ⟨rfl, rfl⟩

/-! ### Turns -/

/-- That the task of a member may come to an outcome and leave a member behind. -/
def Turn (task : Task σ M) (member : M) (outcome : Except Error Unit) (member' : M) : Prop :=
  ∃ source, ((task member).run source).1 = (outcome, member')

/-- Every member that is scheduled has a turn, and the others stay as they are. -/
theorem always_turns (task : Task σ M) {schedule : List Nat} (hnodup : schedule.Nodup)
    (members : List M) :
    Always (runTasks task schedule members) fun result =>
      result.2.length = members.length ∧
      ∀ (place : Nat) member, members[place]? = some member →
        (place ∈ schedule → ∃ outcome member', Turn task member outcome member' ∧
          result.2[place]? = some member' ∧ Mapping.findEntry place result.1 = some outcome) ∧
        (place ∉ schedule → result.2[place]? = some member ∧
          Mapping.findEntry place result.1 = none) := by
  induction schedule generalizing members with
  | nil =>
    refine .pure ⟨rfl, fun place member hmember => ⟨fun hplace => ?_, fun _ => ⟨hmember, rfl⟩⟩⟩
    exact absurd hplace List.not_mem_nil
  | cons first schedule ih =>
    obtain ⟨hfirst, hrest⟩ := List.nodup_cons.1 hnodup
    rw [runTasks]
    cases hturn : members[first]? with
    | none =>
      dsimp only
      refine (ih hrest members).mono fun result hresult => ⟨hresult.1, ?_⟩
      intro place member hmember
      have hne : place ≠ first := by
        rintro rfl
        rw [hturn] at hmember
        cases hmember
      simpa [hne] using hresult.2 place member hmember
    | some member =>
      dsimp only
      refine .bind fun source => ?_
      generalize hanswer : ((task member).run source).1 = answer
      obtain ⟨outcome, left⟩ := answer
      refine .bind ((ih hrest (members.set first left)).mono ?_)
      rintro ⟨outcomes, members'⟩ ⟨hlength, hturns⟩
      refine .pure ⟨by rw [hlength, List.length_set], fun place other hother => ?_⟩
      by_cases hplace : place = first
      · -- nobody has two turns, so that the member stays as its turn has left it
        subst hplace
        obtain rfl := Option.some.inj (hturn.symm.trans hother)
        have hset : (members.set place left)[place]? = some left :=
          List.getElem?_set_self (List.getElem?_eq_some_iff.1 hturn).1
        obtain ⟨hleft, -⟩ := (hturns place _ hset).2 hfirst
        refine ⟨fun _ => ⟨outcome, left, ⟨source, hanswer⟩, hleft, if_pos rfl⟩, fun hnot => ?_⟩
        exact absurd (.head _) hnot
      · have hset : (members.set first left)[place]? = some other := by
          rwa [List.getElem?_set_ne (Ne.symm hplace)]
        obtain ⟨hscheduled, hothers⟩ := hturns place other hset
        rw [Mapping.findEntry, if_neg (Ne.symm hplace)]
        simpa [hplace] using ⟨hscheduled, hothers⟩

section Rounds

variable [Member M K]

/-- What a round leaves behind: what the members have become, and what they have refused, by
position. -/
structure Turns (task : Task σ M) (schedule : List Nat) (members members' : List M)
    (refused : List (Int × Error)) : Prop where
  length_eq : members'.length = members.length
  scheduled : ∀ (place : Nat) member, members[place]? = some member → place ∈ schedule →
    ∃ outcome member', Turn task member outcome member' ∧ members'[place]? = some member' ∧
      ∀ refusal, outcome = .error refusal → (positionOf member', refusal) ∈ refused
  others : ∀ (place : Nat) member, members[place]? = some member → place ∉ schedule →
    members'[place]? = some member
  refused : ∀ entry ∈ refused, ∃ (place : Nat) (member member' : M),
    members[place]? = some member ∧ Turn task member (.error entry.2) member' ∧
      members'[place]? = some member' ∧ positionOf member' = entry.1

theorem mem_refusals {members : List M} {outcomes : List (Nat × Except Error Unit)}
    {entry : Int × Error} : entry ∈ refusals members outcomes ↔
      ∃ (place : Nat) (member : M), members[place]? = some member ∧
        Mapping.findEntry place outcomes = some (.error entry.2) ∧
          positionOf member = entry.1 := by
  rw [refusals, List.mem_filterMap]
  constructor
  · rintro ⟨⟨member, place⟩, hmem, hentry⟩
    dsimp only at hentry
    split at hentry
    · rename_i refusal hrefusal
      obtain rfl := Option.some.inj hentry
      exact ⟨place, member, List.mem_zipIdx_iff_getElem?.1 hmem, hrefusal, rfl⟩
    · cases hentry
  · rintro ⟨place, member, hmember, hrefusal, hposition⟩
    refine ⟨(member, place), List.mem_zipIdx_iff_getElem?.2 hmember, ?_⟩
    dsimp only
    rw [hrefusal, hposition]

/-- A round ends as the refusals of its members settle. -/
theorem roundAmong_ends (name : String) {schedule : List Nat} (hnodup : schedule.Nodup)
    (task : Task σ M) (c : Ceremony M) :
    (roundAmong name schedule task).Ends c fun answer c' => ∃ refused,
      answer = settle name refused ∧ Turns task schedule c.members c'.members refused ∧
        c'.config = c.config ∧ c'.inboxes = c.inboxes := by
  refine .bind (.get (.bind (.lift ?_)))
  refine (always_turns task hnodup c.members).mono ?_
  rintro ⟨outcomes, members⟩ ⟨hlength, hturns⟩
  dsimp only at hlength hturns ⊢
  have hspec : Turns task schedule c.members members (refusals members outcomes) := by
    refine ⟨hlength, fun place member hmember hplace => ?_, fun place member hmember hplace =>
      ((hturns place member hmember).2 hplace).1, fun entry hentry => ?_⟩
    · obtain ⟨outcome, member', hturn, hmember', houtcome⟩ :=
        (hturns place member hmember).1 hplace
      refine ⟨outcome, member', hturn, hmember', ?_⟩
      rintro refusal rfl
      exact mem_refusals.2 ⟨place, member', hmember', houtcome, rfl⟩
    · obtain ⟨place, member', hmember', houtcome, hposition⟩ := mem_refusals.1 hentry
      have hplace : place < c.members.length := by
        rw [← hlength]
        exact (List.getElem?_eq_some_iff.1 hmember').1
      have hmember := List.getElem?_eq_getElem hplace
      by_cases hmem : place ∈ schedule
      · obtain ⟨outcome, member'', hturn, hmember'', houtcome'⟩ := (hturns place _ hmember).1 hmem
        obtain rfl := Option.some.inj (hmember'.symm.trans hmember'')
        obtain rfl := Option.some.inj (houtcome.symm.trans houtcome')
        exact ⟨place, _, member', hmember, hturn, hmember', hposition⟩
      · rw [((hturns place _ hmember).2 hmem).2] at houtcome
        cases houtcome
  refine .bind (.set (.steady ⟨_, rfl, ?_⟩))
  split
  · unfold record
    split <;> exact ⟨hspec, rfl, rfl⟩
  · exact ⟨hspec, rfl, rfl⟩

theorem mem_range_of_getElem? {members : List M} {place : Nat} {member : M}
    (h : members[place]? = some member) : place ∈ List.range members.length :=
  List.mem_range.2 (List.getElem?_eq_some_iff.1 h).1

theorem round_ends (name : String) (task : Task σ M) (c : Ceremony M) :
    (round name task).Ends c fun answer c' => ∃ refused,
      answer = settle name refused ∧
        Turns task (List.range c.members.length) c.members c'.members refused ∧
        c'.config = c.config ∧ c'.inboxes = c.inboxes :=
  .bind (.get (roundAmong_ends name List.nodup_range task c))

/-- A round of tasks that draw nothing leaves behind what they do, and ends well when all do. -/
theorem steadyRound_ends (name : String) (work : M → Answer M Unit) (c : Ceremony M) :
    (round name (steadyTask work) : Run σ (Ceremony M) Unit).Ends c fun answer c' =>
      (answer = .ok () ↔ ∀ member ∈ c.members, (work member).1 = .ok ()) ∧
        c'.members = c.members.map fun member => (work member).2 := by
  refine (round_ends name _ c).mono ?_
  rintro _ c' ⟨refused, rfl, hturns, -, -⟩
  rw [settle_eq_ok_iff, List.eq_nil_iff_forall_not_mem]
  refine ⟨⟨fun hnone member hmember => ?_, fun hall entry hentry => ?_⟩, ?_⟩
  · obtain ⟨place, hplace⟩ := List.mem_iff_getElem?.1 hmember
    obtain ⟨outcome, member', ⟨_, hturn⟩, -, hrefused⟩ :=
      hturns.scheduled place member hplace (mem_range_of_getElem? hplace)
    rw [show work member = (outcome, member') from hturn]
    cases outcome with
    | ok _ => rfl
    | error refusal => exact absurd (hrefused refusal rfl) (hnone _)
  · obtain ⟨place, member, member', hmember, ⟨_, hturn⟩, -, -⟩ := hturns.refused entry hentry
    have hok := hall member (List.mem_of_getElem? hmember)
    rw [show work member = (.error entry.2, member') from hturn] at hok
    cases hok
  · apply List.ext_getElem?
    intro place
    rw [List.getElem?_map]
    cases hmember : c.members[place]? with
    | none =>
      rw [List.getElem?_eq_none_iff] at hmember
      rw [Option.map_none, List.getElem?_eq_none_iff, hturns.length_eq]
      exact hmember
    | some member =>
      obtain ⟨outcome, member', ⟨_, hturn⟩, hmember', -⟩ :=
        hturns.scheduled place member hmember (mem_range_of_getElem? hmember)
      rw [hmember', Option.map_some, show work member = (outcome, member') from hturn]

/-- A round of checks reports those that do not pass, and changes nobody. -/
theorem inspection_ends (name : String) (check : M → Except Error Unit) (c : Ceremony M) :
    (round name (inspection check) : Run σ (Ceremony M) Unit).Ends c fun answer c' =>
      c'.members = c.members ∧ ∃ refused, answer = settle name refused ∧
        ∀ entry, entry ∈ refused ↔
          ∃ member ∈ c.members, positionOf member = entry.1 ∧ check member = .error entry.2 := by
  refine ((steadyRound_ends name (fun member => (check member, member)) c).and
    (round_ends name _ c)).mono ?_
  rintro _ c' ⟨⟨-, hmembers⟩, refused, rfl, hturns, -, -⟩
  refine ⟨hmembers.trans (List.map_id _), refused, rfl, fun entry => ⟨fun hentry => ?_, ?_⟩⟩
  · obtain ⟨place, member, member', hmember, ⟨_, hturn⟩, -, hposition⟩ :=
      hturns.refused entry hentry
    obtain ⟨hcheck, rfl⟩ := Prod.mk.inj (show (check member, member) = _ from hturn)
    exact ⟨member, List.mem_of_getElem? hmember, hposition, hcheck⟩
  · rintro ⟨member, hmember, hposition, hcheck⟩
    obtain ⟨place, hplace⟩ := List.mem_iff_getElem?.1 hmember
    obtain ⟨outcome, member', ⟨_, hturn⟩, -, hrefused⟩ :=
      hturns.scheduled place member hplace (mem_range_of_getElem? hplace)
    obtain ⟨rfl, rfl⟩ := Prod.mk.inj (show (check member, member) = _ from hturn)
    have hmem := hrefused _ hcheck
    rwa [hposition] at hmem

end Rounds

end Ceremony

end ThresholdKeygen
