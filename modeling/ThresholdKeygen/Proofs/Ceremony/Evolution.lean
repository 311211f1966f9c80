import ThresholdKeygen.Proofs.Ceremony.Careful

/-!
# How ceremonies evolve

The members of a ceremony go through operations, whether in rounds or outside. A ceremony is doomed
when a participant has failed, or when two members have recorded different group keys or public
shares; it stays so, since nothing that is recorded changes. A round that aborts because of a failed
verification dooms its ceremony, with two exceptions (`Ceremony.Ruined`). Main statements:
`Ceremony.Doomed.evolves`, `Ceremony.tracks_careful` and `Ceremony.verifyProofs_ends`.
-/

namespace ThresholdKeygen

variable {K : Type} [Suite K] {σ : Type} {M : Type} [Member M K] [Stepping M]

open Relation

namespace Ceremony

/-! ### Evolution -/

/-- That the members of a ceremony have gone through operations to become those of another one. -/
structure Evolves (c c' : Ceremony M) : Prop where
  length_eq : c'.members.length = c.members.length
  evolved : ∀ (place : Nat) member, c.members[place]? = some member →
    ∃ member', c'.members[place]? = some member' ∧ ReflTransGen Stepping.Step member member'

/-- That all members are in states to which operations lead. -/
def Settled (c : Ceremony M) : Prop := ∀ member ∈ c.members, Stepping.Settled member

namespace Evolves

variable {c c₁ c₂ : Ceremony M}

theorem of_members_eq (h : c₁.members = c.members) : c.Evolves c₁ where
  length_eq := by rw [h]
  evolved place member hmember := ⟨member, by rw [h, hmember], .refl⟩

theorem refl (c : Ceremony M) : c.Evolves c := of_members_eq rfl

theorem trans (h : c.Evolves c₁) (h' : c₁.Evolves c₂) : c.Evolves c₂ where
  length_eq := h'.length_eq.trans h.length_eq
  evolved place member hmember := by
    obtain ⟨member₁, hmember₁, hsteps⟩ := h.evolved place member hmember
    obtain ⟨member₂, hmember₂, hsteps'⟩ := h'.evolved place member₁ hmember₁
    exact ⟨member₂, hmember₂, hsteps.trans hsteps'⟩

theorem set {place : Nat} {member member' : M} (hmember : c.members[place]? = some member)
    (hsteps : ReflTransGen Stepping.Step member member') :
    c.Evolves { c with members := c.members.set place member' } where
  length_eq := List.length_set
  evolved i other hother := by
    by_cases hi : i = place
    · subst hi
      obtain rfl := Option.some.inj (hmember.symm.trans hother)
      exact ⟨member', List.getElem?_set_self (List.getElem?_eq_some_iff.1 hmember).1, hsteps⟩
    · exact ⟨other, by rwa [List.getElem?_set_ne (Ne.symm hi)], .refl⟩

/-- Where a member has gone. -/
theorem exists_evolved (h : c.Evolves c₁) {member : M} (hmember : member ∈ c.members) :
    ∃ member' ∈ c₁.members, ReflTransGen Stepping.Step member member' := by
  obtain ⟨place, hplace⟩ := List.mem_iff_getElem?.1 hmember
  obtain ⟨member', hmember', hsteps⟩ := h.evolved place member hplace
  exact ⟨member', List.mem_of_getElem? hmember', hsteps⟩

/-- Where a member has come from. -/
theorem exists_origin (h : c.Evolves c₁) {place : Nat} {member' : M}
    (hmember' : c₁.members[place]? = some member') : ∃ member, c.members[place]? = some member ∧
      ReflTransGen Stepping.Step member member' := by
  have hlength : place < c.members.length := by
    rw [← h.length_eq]
    exact (List.getElem?_eq_some_iff.1 hmember').1
  have hmember := List.getElem?_eq_getElem hlength
  obtain ⟨member'', hmember'', hsteps⟩ := h.evolved place _ hmember
  obtain rfl := Option.some.inj (hmember'.symm.trans hmember'')
  exact ⟨_, hmember, hsteps⟩

theorem settled (h : c.Evolves c₁) (hsettled : c.Settled) : c₁.Settled := by
  intro member' hmember'
  obtain ⟨place, hplace⟩ := List.mem_iff_getElem?.1 hmember'
  obtain ⟨member, hmember, hsteps⟩ := h.exists_origin hplace
  exact (Stepping.run (hsettled _ (List.mem_of_getElem? hmember)) hsteps).1

end Evolves

/-! ### Doomed ceremonies -/

/-- That a participant has failed. -/
def Failed (c : Ceremony M) : Prop :=
  ∃ member ∈ c.members, (Member.core member).aborted = true

/-- That two members have derived different group keys, or that one holds another public share of an
index than its owner. -/
inductive Divided (c : Ceremony M) : Prop where
  | keys {member other : M} (hmember : member ∈ c.members) (hother : other ∈ c.members)
      {a b : Point K} (ha : (Member.core member).groupKey = some a)
      (hb : (Member.core other).groupKey = some b) (hne : a.toBytes ≠ b.toBytes) : Divided c
  | shares {owner other : M} (howner : owner ∈ c.members) (hother : other ∈ c.members) {x : Int}
      (howns : Stepping.Owns owner x) {a b : Point K}
      (ha : (Member.core owner).publicShares.get? x = some a)
      (hb : (Member.core other).publicShares.get? x = some b) (hne : a.toBytes ≠ b.toBytes) :
      Divided c

/-- That a ceremony cannot come to a result any more. -/
def Doomed (c : Ceremony M) : Prop := c.Failed ∨ c.Divided

section Persistence

variable {c c' : Ceremony M} (hsettled : c.Settled) (hevolves : c.Evolves c')

include hsettled hevolves

theorem Failed.evolves (h : c.Failed) : c'.Failed := by
  obtain ⟨member, hmember, hfailed⟩ := h
  obtain ⟨member', hmember', hsteps⟩ := hevolves.exists_evolved hmember
  obtain ⟨-, hpersists, -⟩ := Stepping.run (hsettled _ hmember) hsteps
  obtain ⟨failure, hfailure⟩ := Option.isSome_iff_exists.1 hfailed
  refine ⟨member', hmember', ?_⟩
  rw [Participant.aborted, hpersists.failure_eq failure hfailure]
  rfl

theorem Divided.evolves (h : c.Divided) : c'.Divided := by
  cases h with
  | keys hmember hother ha hb hne =>
    obtain ⟨member', hmember', hsteps⟩ := hevolves.exists_evolved hmember
    obtain ⟨other', hother', hsteps'⟩ := hevolves.exists_evolved hother
    obtain ⟨-, hpersists, -⟩ := Stepping.run (hsettled _ hmember) hsteps
    obtain ⟨-, hpersists', -⟩ := Stepping.run (hsettled _ hother) hsteps'
    exact .keys hmember' hother' (hpersists.groupKey_eq _ ha) (hpersists'.groupKey_eq _ hb) hne
  | shares howner hother howns ha hb hne =>
    obtain ⟨owner', howner', hsteps⟩ := hevolves.exists_evolved howner
    obtain ⟨other', hother', hsteps'⟩ := hevolves.exists_evolved hother
    obtain ⟨-, hpersists, howns'⟩ := Stepping.run (hsettled _ howner) hsteps
    obtain ⟨-, hpersists', -⟩ := Stepping.run (hsettled _ hother) hsteps'
    obtain ⟨a', ha', heq⟩ := hpersists.publicShare_eq _ _ ha
    obtain ⟨b', hb', heq'⟩ := hpersists'.publicShare_eq _ _ hb
    refine .shares howner' hother' (howns' _ howns) ha' hb' ?_
    rw [heq, heq']
    exact hne

/-- Nothing that members do afterwards helps. -/
theorem Doomed.evolves (h : c.Doomed) : c'.Doomed :=
  h.imp (.evolves hsettled hevolves) (.evolves hsettled hevolves)

end Persistence

/-! ### Methods -/

/-- That every participant knows the public shares of all indices. -/
def Informed (c : Ceremony M) : Prop :=
  ∀ member ∈ c.members, ∀ x ∈ upTo (Member.core member).n,
    ((Member.core member).publicShares.get? x).isSome = true

/-- That a round which has failed dooms the ceremony. Proofs of knowledge are rejected without
consequences, and so is a public share that is still missing when the members compare theirs. -/
def Ruined (round : String) (c : Ceremony M) : Prop :=
  round ≠ "verify-secret-proofs" → (round = "cross-check" → c.Informed) → c.Doomed

/-- What a method comes to: members evolve, and a round that aborts because of a failed verification
ruins the ceremony. -/
structure Tracked {α : Type} (c : Ceremony M) (answer : Except Error α) (c' : Ceremony M) :
    Prop where
  evolves : c.Evolves c'
  ruined : ∀ round failures, answer = .error (.roundAborted round failures) →
    (∃ failure ∈ failures, failure.2.isVerification = true) → c'.Ruined round

namespace Tracked

variable {α β : Type} {c c₁ c₂ : Ceremony M}

theorem ok (h : c.Evolves c₁) {a : α} : Tracked c (.ok a) c₁ := ⟨h, by rintro _ _ ⟨⟩⟩

/-- A refusal outside rounds. -/
theorem error (h : c.Evolves c₁) {refusal : Error} (hrefusal : refusal.isRound = false) :
    Tracked c (.error refusal : Except Error α) c₁ := by
  refine ⟨h, ?_⟩
  rintro round failures ⟨⟩
  cases hrefusal

theorem trans (h : c.Evolves c₁) {answer : Except Error α} (h' : Tracked c₁ answer c₂) :
    Tracked c answer c₂ := ⟨h.trans h'.evolves, h'.ruined⟩

end Tracked

end Ceremony

open Ceremony

/-- That a run is tracked from wherever it starts. -/
def Run.Tracks {α : Type} (m : Run σ (Ceremony M) α) : Prop := ∀ c, m.Ends c (Tracked c)

namespace Run.Tracks

variable {α β : Type}

theorem pure (a : α) : Run.Tracks (pure a : Run σ (Ceremony M) α) := fun c =>
  .pure (.ok (.refl c))

theorem bind {m : Run σ (Ceremony M) α} {f : α → Run σ (Ceremony M) β} (hm : m.Tracks)
    (hf : ∀ a, (f a).Tracks) : (m >>= f).Tracks := by
  intro c
  refine .bind ((hm c).mono fun answer c₁ htracked => ?_)
  cases answer with
  | error refusal =>
    refine ⟨htracked.evolves, ?_⟩
    rintro round failures ⟨⟩
    exact htracked.ruined round failures rfl
  | ok a => exact (hf a c₁).mono fun _ _ => .trans htracked.evolves

theorem get : Run.Tracks (get : Run σ (Ceremony M) (Ceremony M)) := fun c => .get (.ok (.refl c))

theorem modify {f : Ceremony M → Ceremony M} (h : ∀ c, (f c).members = c.members) :
    Run.Tracks (modify f : Run σ (Ceremony M) PUnit) := fun c =>
  .modify (.ok (.of_members_eq (h c)))

theorem steady {x : Except Error α} (h : Refuses x fun refusal => refusal.isRound = false) :
    Run.Tracks (liftM x : Run σ (Ceremony M) α) := by
  intro c
  cases x with
  | error refusal => exact .throw (.error (.refl c) (h refusal rfl))
  | ok a => exact .pure (.ok (.refl c))

theorem forM {ι : Type} {f : ι → Run σ (Ceremony M) PUnit} (h : ∀ i, (f i).Tracks) (l : List ι) :
    (l.forM f).Tracks := by
  induction l with
  | nil => exact pure _
  | cons i l ih => exact bind (h i) fun _ => ih

end Run.Tracks

namespace Ceremony

theorem tracks_onMember {α : Type} (place : Nat) {operation : M → Answer M α}
    (hsteps : ∀ member, ReflTransGen Stepping.Step member (operation member).2)
    (hrefuses : ∀ member, Refuses (operation member).1 fun refusal => refusal.isRound = false) :
    (onMember place operation : Run σ (Ceremony M) (Option α)).Tracks := by
  intro c
  refine .bind (.get ?_)
  dsimp only
  cases hmember : c.members[place]? with
  | none => exact .pure (.ok (.refl c))
  | some member =>
    have hevolves := Evolves.set hmember (hsteps member)
    refine .bind (.set (.bind (.steady ?_)))
    cases hresult : (operation member).1 with
    | error refusal => exact .error hevolves (hrefuses member refusal hresult)
    | ok a => exact .pure (.ok hevolves)

/-- Who has a turn goes through the operations of its task, and the others do nothing. -/
theorem Turns.evolves {task : Task σ M} {schedule : List Nat} {c c' : Ceremony M}
    {refused : List (Int × Error)} (h : Turns task schedule c.members c'.members refused)
    (hsteps : ∀ member source, ReflTransGen Stepping.Step member ((task member).run source).1.2) :
    c.Evolves c' := by
  refine ⟨h.length_eq, fun place member hmember => ?_⟩
  by_cases hplace : place ∈ schedule
  · obtain ⟨outcome, member', ⟨source, hturn⟩, hmember', -⟩ :=
      h.scheduled place member hmember hplace
    have hmember := hsteps member source
    rw [hturn] at hmember
    exact ⟨member', hmember', hmember⟩
  · exact ⟨member, h.others place member hmember hplace, .refl⟩

/-- A round of careful tasks. -/
theorem tracks_careful {name : String} {schedule : List Nat} (hnodup : schedule.Nodup)
    {task : Task σ M} (htask : ∀ member source, Careful member ((task member).run source).1) :
    (roundAmong name schedule task).Tracks := by
  intro c
  refine (roundAmong_ends name hnodup task c).mono ?_
  rintro _ c' ⟨refused, rfl, hturns, -, -⟩
  refine ⟨hturns.evolves fun member source => (htask member source).steps, ?_⟩
  rintro round failures hsettle ⟨failure, hfailure, hverification⟩ - -
  obtain ⟨rfl, rfl⟩ := of_settle_eq_roundAborted hsettle
  obtain ⟨place, member, member', -, ⟨source, hturn⟩, hmember', -⟩ :=
    hturns.refused failure (Error.mem_byPosition hfailure)
  have hcareful := htask member source
  rw [hturn] at hcareful
  exact .inl ⟨member', List.mem_of_getElem? hmember', hcareful.records _ rfl hverification⟩

theorem tracks_round (name : String) {task : Task σ M}
    (htask : ∀ member source, Careful member ((task member).run source).1) :
    (round name task).Tracks :=
  .bind .get fun _ => tracks_careful List.nodup_range htask

theorem tracks_steadyRound (name : String) {work : M → Answer M Unit}
    (hwork : ∀ member, Careful member (work member)) :
    (round name (steadyTask work) : Run σ (Ceremony M) Unit).Tracks :=
  tracks_round name fun member _ => hwork member

/-! ### Exchanges -/

section Exchanges

theorem tracks_onCore {α : Type} (place : Nat)
    {operation : Participant K → Answer (Participant K) α}
    (hsteps : ∀ p : Participant K, ReflTransGen Participant.Step p (operation p).2)
    (hrefuses : ∀ p, Refuses (operation p).1 fun refusal => refusal.isRound = false) :
    (onMember place fun member => onCore member operation : Run σ (Ceremony M) (Option α)).Tracks :=
  tracks_onMember place (fun member => Stepping.steps_withCore (hsteps (Member.core member)))
    fun member => hrefuses (Member.core member)

theorem refuses_of_ordinary {α : Type} {x : Except Error α} (h : Ordinary x) :
    Refuses x fun refusal => refusal.isRound = false :=
  h.mono fun _ => Error.isRound_eq_false

theorem tracks_deliverCommitment (sender receiver : Nat) :
    (deliverCommitment sender receiver : Run σ (Ceremony M) Unit).Tracks := by
  refine .bind .get fun c => ?_
  split
  · exact .pure _
  · rename_i member _
    refine .bind (.steady (refuses_of_ordinary (Member.core member).ordinary_commitment))
      fun commitment => ?_
    refine .bind (tracks_onCore receiver (fun p => ?_) fun p => ?_) fun _ => .pure _
    · exact p.steps_perform (.receivePublication _ _)
    · exact p.refuses_receivePublication _ _

theorem tracks_exchangeCommitments :
    (exchangeCommitments : Run σ (Ceremony M) Unit).Tracks := by
  refine .bind .get fun c => .forM (fun sender => .forM (fun receiver => ?_) _) _
  split
  · exact .pure _
  · exact tracks_deliverCommitment sender receiver

omit [Stepping M] in
/-- Whatever comes of the check of the proofs, all members are afterwards what they were before; in
particular, none remembers that it has rejected a proof. -/
theorem verifyProofs_ends [RandomSource σ] (c : Ceremony M) :
    (verifyProofs : Run σ (Ceremony M) Unit).Ends c fun answer c' => c'.members = c.members ∧
      ∀ round failures, answer = .error (.roundAborted round failures) →
        round = "verify-secret-proofs" := by
  have hcollect : Declines (collectProofs c.config.label.toItem? c.members :
      ExceptT Error (StateM σ) _) fun refusal => refusal.isRound = false := by
    refine .mapM (fun member => .bind ?_ fun proof => .pure) _
    exact Declines.mono ((Member.core member).declines_prove _) fun _ => Error.isRound_eq_false
  refine .bind (.get (.bind (.besides (Always.mono hcollect fun answer hanswer => ?_))))
  cases answer with
  | error refusal =>
    refine ⟨rfl, ?_⟩
    rintro round failures ⟨⟩
    cases hanswer _ rfl
  | ok proofs =>
    refine (inspection_ends "verify-secret-proofs" _ c).mono ?_
    rintro _ c' ⟨hsame, refused, rfl, -⟩
    exact ⟨hsame, fun round failures hsettle => (of_settle_eq_roundAborted hsettle).1⟩

theorem tracks_verifyProofs [RandomSource σ] :
    (verifyProofs : Run σ (Ceremony M) Unit).Tracks := by
  intro c
  refine (verifyProofs_ends c).mono fun answer c' h => ⟨.of_members_eq h.1, ?_⟩
  rintro round failures habort - hproofs
  exact absurd (h.2 round failures habort) hproofs

theorem tracks_propagateMaps [LawfulMember M] :
    (propagateMaps : Run σ (Ceremony M) Unit).Tracks := by
  refine .bind (tracks_onCore 0 (fun p => p.steps_perform .deriveJoint) fun p =>
    refuses_of_ordinary p.ordinary_deriveJoint) fun _ => ?_
  refine .bind (tracks_onCore 0 (fun p => p.steps_perform .deriveShareMap) fun p =>
    refuses_of_ordinary p.ordinary_deriveShareMap) fun _ => ?_
  refine .bind .get fun c => ?_
  split
  · exact .pure _
  · rename_i first others _
    refine .bind (.steady (refuses_of_ordinary (Member.core first).ordinary_jointSnapshot))
      fun joint => ?_
    refine .bind (.steady (refuses_of_ordinary (Member.core first).ordinary_shareMapSnapshot))
      fun shareMap => ?_
    refine .bind (.modify fun c => ?_) fun _ => .bind .get fun c => ?_
    · rw [record]
      split <;> rfl
    · exact tracks_careful List.nodup_range' fun member _ =>
        Careful.onCore (Participant.careful_importMaps _ joint shareMap _)

end Exchanges

end Ceremony

end ThresholdKeygen
