import Mathlib.Data.List.Forall2
import ThresholdKeygen.Proofs.Ceremony.Schedules

/-!
# Runs in step

Two runs are in step when, whatever source both of them start with, they leave the same source
behind and both return or both refuse. Relations say how what they leave behind is related. Main
statement: `inStep_roundAmong`, rounds are in step when the tasks at every place are.
-/

namespace ThresholdKeygen

variable {K σ S T α β : Type}

/-! ### Answers -/

/-- That two answers are alike: results that are related, with the states that they come with, or
refusals that are. -/
inductive Alike (Q : α → S → β → T → Prop) (E : Error → S → Error → T → Prop) :
    Answer S α → Answer T β → Prop where
  | ok {a : α} {s : S} {b : β} {t : T} (h : Q a s b t) : Alike Q E (.ok a, s) (.ok b, t)
  | error {refusal refusal' : Error} {s : S} {t : T} (h : E refusal s refusal' t) :
      Alike Q E (.error refusal, s) (.error refusal', t)

namespace Alike

variable {Q Q' : α → S → β → T → Prop} {E E' : Error → S → Error → T → Prop}
  {answer : Answer S α} {answer' : Answer T β}

theorem mono (h : Alike Q E answer answer') (hQ : ∀ a s b t, Q a s b t → Q' a s b t)
    (hE : ∀ refusal s refusal' t, E refusal s refusal' t → E' refusal s refusal' t) :
    Alike Q' E' answer answer' := by
  cases h with
  | ok h => exact .ok (hQ _ _ _ _ h)
  | error h => exact .error (hE _ _ _ _ h)

/-- An answer that is like a result is one. -/
theorem exists_of_ok {a : α} {s : S} (h : Alike Q E (.ok a, s) answer') :
    ∃ b t, answer' = (.ok b, t) ∧ Q a s b t := by
  cases h with
  | ok h => exact ⟨_, _, rfl, h⟩

/-- Without the results answers are as much alike. -/
theorem forget {R : S → T → Prop} (h : Alike (fun _ s _ t => R s t) E answer answer') :
    Alike (fun _ s _ t => R s t) E (Ceremony.forget answer) (Ceremony.forget answer') := by
  cases h with
  | ok h => exact .ok h
  | error h => exact .error h

end Alike

/-- That two computations with one source draw the same, and answer alike. -/
def Together (Q : α → S → β → T → Prop) (E : Error → S → Error → T → Prop)
    (m : StateM σ (Answer S α)) (m' : StateM σ (Answer T β)) : Prop :=
  ∀ source, Alike Q E (m.run source).1 (m'.run source).1 ∧ (m.run source).2 = (m'.run source).2

/-! ### Runs -/

namespace Run

/-- That two runs, each from a state of its own, are in step. -/
def InStep (m : Run σ S α) (s : S) (m' : Run σ T β) (t : T) (Q : α → S → β → T → Prop)
    (E : Error → S → Error → T → Prop) : Prop :=
  ∀ source, Alike Q E (m.finish s source).1 (m'.finish t source).1 ∧
    (m.finish s source).2 = (m'.finish t source).2

/-- That a run draws nothing, and leaves alone what a function of the state tells. -/
def Keeps {γ : Type} (g : S → γ) (m : Run σ S α) : Prop :=
  ∀ s source, g (m.finish s source).1.2 = g s ∧ (m.finish s source).2 = source

namespace Keeps

variable {γ : Type} {g : S → γ}

theorem pure (a : α) : Keeps g (pure a : Run σ S α) := fun _ _ => ⟨rfl, rfl⟩

theorem bind {m : Run σ S α} {f : α → Run σ S β} (hm : Keeps g m) (hf : ∀ a, Keeps g (f a)) :
    Keeps g (m >>= f) := by
  intro s source
  obtain ⟨hstate, hsource⟩ := hm s source
  generalize hfinish : m.finish s source = outcome at hstate hsource
  obtain ⟨⟨answer, s'⟩, source'⟩ := outcome
  obtain rfl : source' = source := hsource
  cases answer with
  | error refusal =>
    rw [finish_bind_error hfinish]
    exact ⟨hstate, rfl⟩
  | ok a =>
    rw [finish_bind hfinish]
    obtain ⟨hstate', hsource'⟩ := hf a s' source'
    exact ⟨hstate'.trans hstate, hsource'⟩

theorem get : Keeps g (get : Run σ S S) := fun _ _ => ⟨rfl, rfl⟩

theorem modify {f : S → S} (h : ∀ s, g (f s) = g s) : Keeps g (modify f : Run σ S PUnit) :=
  fun s _ => ⟨h s, rfl⟩

theorem steady (x : Except Error α) : Keeps g (liftM x : Run σ S α) := by
  intro s source
  rw [finish_steady]
  exact ⟨rfl, rfl⟩

theorem forM {ι : Type} {f : ι → Run σ S PUnit} (h : ∀ i, Keeps g (f i)) (l : List ι) :
    Keeps g (l.forM f) := by
  induction l with
  | nil => exact pure _
  | cons i rest ih => exact bind (h i) fun _ => ih

end Keeps

namespace InStep

variable {s : S} {t : T} {m : Run σ S α} {m' : Run σ T β} {Q Q' : α → S → β → T → Prop}
  {E E' : Error → S → Error → T → Prop}

theorem pure {a : α} {b : β} (h : Q a s b t) :
    InStep (pure a : Run σ S α) s (pure b : Run σ T β) t Q E := fun _ => ⟨.ok h, rfl⟩

/-- Runs go on where their first parts succeed, and end where these refuse. -/
theorem bind {α' β' : Type} {f : α → Run σ S α'} {g : β → Run σ T β'}
    {Q : α' → S → β' → T → Prop}
    (h : m.InStep s m' t (fun a s' b t' => (f a).InStep s' (g b) t' Q E) E) :
    (m >>= f).InStep s (m' >>= g) t Q E := by
  intro source
  obtain ⟨halike, hsource⟩ := h source
  generalize hfinish : m.finish s source = outcome at halike hsource
  generalize hfinish' : m'.finish t source = outcome' at halike hsource
  obtain ⟨answer, source₁⟩ := outcome
  obtain ⟨answer', source₁'⟩ := outcome'
  obtain rfl : source₁ = source₁' := hsource
  cases halike with
  | ok hnext =>
    rw [finish_bind hfinish, finish_bind hfinish']
    exact hnext source₁
  | error hrefused =>
    rw [finish_bind_error hfinish, finish_bind_error hfinish']
    exact ⟨.error hrefused, rfl⟩

theorem mono (h : m.InStep s m' t Q E) (hQ : ∀ a s' b t', Q a s' b t' → Q' a s' b t')
    (hE : ∀ refusal s' refusal' t', E refusal s' refusal' t' → E' refusal s' refusal' t') :
    m.InStep s m' t Q' E' := fun source => ⟨(h source).1.mono hQ hE, (h source).2⟩

theorem get {Q : S → S → T → T → Prop} (h : Q s s t t) :
    InStep (get : Run σ S S) s (get : Run σ T T) t Q E := fun _ => ⟨.ok h, rfl⟩

theorem set {Q : PUnit → S → PUnit → T → Prop} {s' : S} {t' : T} (h : Q ⟨⟩ s' ⟨⟩ t') :
    InStep (set s' : Run σ S PUnit) s (set t' : Run σ T PUnit) t Q E := fun _ => ⟨.ok h, rfl⟩

theorem modify {Q : PUnit → S → PUnit → T → Prop} {f : S → S} {g : T → T}
    (h : Q ⟨⟩ (f s) ⟨⟩ (g t)) :
    InStep (modify f : Run σ S PUnit) s (modify g : Run σ T PUnit) t Q E := fun _ => ⟨.ok h, rfl⟩

theorem steady {x : Except Error α} {y : Except Error β} (h : Alike Q E (x, s) (y, t)) :
    InStep (liftM x : Run σ S α) s (liftM y : Run σ T β) t Q E := by
  intro source
  rw [finish_steady, finish_steady]
  exact ⟨h, rfl⟩

/-- Loops over the same elements, by an invariant of those that they have gone through. -/
theorem forM {ι : Type} {f : ι → Run σ S PUnit} {g : ι → Run σ T PUnit} {l : List ι}
    {I : List ι → S → T → Prop} (hstart : I [] s t)
    (hstep : ∀ done i rest s t, l = done ++ i :: rest → I done s t →
      (f i).InStep s (g i) t (fun _ s' _ t' => I (done ++ [i]) s' t') E) :
    InStep (l.forM f) s (l.forM g) t (fun _ s' _ t' => I l s' t') E := by
  suffices h : ∀ done rest s t, l = done ++ rest → I done s t →
      InStep (rest.forM f) s (rest.forM g) t (fun _ s' _ t' => I l s' t') E from
    h [] l s t rfl hstart
  intro done rest
  induction rest generalizing done with
  | nil =>
    intro s t hl hI
    rw [List.append_nil] at hl
    subst hl
    exact .pure hI
  | cons i rest ih =>
    intro s t hl hI
    refine .bind ((hstep done i rest s t hl hI).mono (fun _ s' _ t' hI' => ?_) fun _ _ _ _ h => h)
    exact ih (done ++ [i]) s' t' (by rw [hl, List.append_assoc]; rfl) hI'

/-- What is known of one of the runs alone. -/
theorem ended {P : Except Error α → S → Prop} (h : m.InStep s m' t Q E) (hm : m.Ends s P) :
    m.InStep s m' t (fun a s' b t' => Q a s' b t' ∧ P (.ok a) s')
      fun refusal s' refusal' t' => E refusal s' refusal' t' ∧ P (.error refusal) s' := by
  intro source
  obtain ⟨halike, hsource⟩ := h source
  refine ⟨?_, hsource⟩
  have hends := hm.finish source
  generalize (m.finish s source).1 = answer at halike hends
  generalize (m'.finish t source).1 = answer' at halike
  cases halike with
  | ok hok => exact .ok ⟨hok, hends⟩
  | error hrefused => exact .error ⟨hrefused, hends⟩

/-- The same computation beside the states. -/
theorem besides {m : ExceptT Error (StateM σ) α} {Q : α → S → α → T → Prop}
    (hQ : ∀ a, Q a s a t) (hE : ∀ refusal, E refusal s refusal t) :
    InStep (Run.besides m) s (Run.besides m) t Q E := by
  intro source
  change Alike Q E ((m.run.run source).1, s) ((m.run.run source).1, t) ∧ _ = _
  cases (m.run.run source).1 with
  | error refusal => exact ⟨.error (hE refusal), rfl⟩
  | ok a => exact ⟨.ok (hQ a), rfl⟩

/-- A run that succeeds takes the other one along. -/
theorem reached {P : α → S → Prop} (h : m.InStep s m' t Q E) (hm : m.Reaches s P) :
    m.InStep s m' t (fun a s' b t' => Q a s' b t' ∧ P a s') E' := by
  refine (h.ended (P := fun answer s' => ∃ a, answer = .ok a ∧ P a s') hm).mono ?_ ?_
  · rintro a s' b t' ⟨hQ, _, ⟨⟩, hP⟩
    exact ⟨hQ, hP⟩
  · rintro refusal s' refusal' t' ⟨-, _, ⟨⟩, -⟩

/-- Runs that both succeed and draw nothing. -/
theorem of_reaches {γ γ' : Type} {g : S → γ} {g' : T → γ'} {P : α → S → Prop} {P' : β → T → Prop}
    (hm : m.Reaches s P) (hkeeps : m.Keeps g) (hm' : m'.Reaches t P') (hkeeps' : m'.Keeps g')
    (h : ∀ a s' b t', P a s' → g s' = g s → P' b t' → g' t' = g' t → Q a s' b t') :
    m.InStep s m' t Q E := by
  intro source
  obtain ⟨a, hanswer, ha⟩ := hm.finish source
  obtain ⟨b, hanswer', hb⟩ := hm'.finish source
  obtain ⟨hs, hsource⟩ := hkeeps s source
  obtain ⟨ht, hsource'⟩ := hkeeps' t source
  refine ⟨?_, hsource.trans hsource'.symm⟩
  have hQ := h a _ b _ ha hs hb ht
  generalize (m.finish s source).1 = answer at hanswer hQ
  generalize (m'.finish t source).1 = answer' at hanswer' hQ
  obtain ⟨_, s'⟩ := answer
  obtain ⟨_, t'⟩ := answer'
  cases hanswer
  cases hanswer'
  exact .ok hQ

end InStep

end Run

namespace Ceremony

variable {M N : Type}

theorem keeps_onMember {γ : Type} {g : Ceremony M → γ} {place : Nat} {operation : M → Answer M α}
    (h : ∀ c member, c.members[place]? = some member →
      g { c with members := c.members.set place (operation member).2 } = g c) :
    (onMember place operation : Run σ (Ceremony M) (Option α)).Keeps g := by
  intro c source
  rw [onMember, Run.finish_bind Run.finish_get]
  cases hmember : c.members[place]? with
  | none => exact ⟨rfl, rfl⟩
  | some member =>
    dsimp only
    rw [Run.finish_bind Run.finish_set]
    obtain ⟨hsteady, hsource⟩ := Run.Keeps.bind (g := g) (Run.Keeps.steady (σ := σ)
      (operation member).1) (fun a => .pure (some a))
        { c with members := c.members.set place (operation member).2 } source
    exact ⟨hsteady.trans (h c member hmember), hsource⟩

/-! ### Ceremonies side by side -/

/-- That two ceremonies with given configurations and the same number of members have run the same
rounds, and that a relation ties together the members at each position. -/
structure Abreast (config config' : Config) (R : Int → M → N → Prop) (c : Ceremony M)
    (d : Ceremony N) : Prop where
  config_eq : c.config = config
  config'_eq : d.config = config'
  rounds_eq : c.rounds = d.rounds
  length_eq : (c.members.length : Int) = config.participants
  length'_eq : d.members.length = c.members.length
  beside : ∀ (place : Nat) member member', c.members[place]? = some member →
    d.members[place]? = some member' → R (place + 1) member member'

variable {config config' : Config} {P R : Int → M → N → Prop} {c : Ceremony M} {d : Ceremony N}

namespace Abreast

theorem mono (h : c.Abreast config config' P d)
    (hPR : ∀ (place : Nat) member member', c.members[place]? = some member →
      P (place + 1) member member' → R (place + 1) member member') :
    c.Abreast config config' R d :=
  { h with
    beside := fun place member member' hmember hmember' =>
      hPR place member member' hmember (h.beside place member member' hmember hmember') }

theorem forall₂ (h : c.Abreast config config' R d) :
    List.Forall₂ (fun member member' => ∃ x, R x member member') c.members d.members :=
  List.forall₂_iff_get.2 ⟨h.length'_eq.symm, fun i hi hi' =>
    ⟨i + 1, h.beside i _ _ (List.getElem?_eq_getElem hi) (List.getElem?_eq_getElem hi')⟩⟩

/-- There are members at a place on both sides, or on none. -/
theorem cases_place (h : c.Abreast config config' R d) (place : Nat) :
    c.members[place]? = none ∧ d.members[place]? = none ∨
      ∃ member member', c.members[place]? = some member ∧ d.members[place]? = some member' ∧
        R (place + 1) member member' := by
  by_cases hplace : place < c.members.length
  · have hmember := List.getElem?_eq_getElem hplace
    have hmember' := List.getElem?_eq_getElem (h.length'_eq ▸ hplace)
    exact .inr ⟨_, _, hmember, hmember', h.beside place _ _ hmember hmember'⟩
  · rw [List.getElem?_eq_none_iff, List.getElem?_eq_none_iff, h.length'_eq]
    exact .inl ⟨not_lt.1 hplace, not_lt.1 hplace⟩

/-- Who sits on one side, when nothing is asked of the other one. -/
theorem seats (h : c.Abreast config config' R d) {Q : Int → M → Prop}
    (hQ : ∀ x member member', R x member member' → Q x member) :
    c.Seats config c.inboxes Q where
  config_eq := h.config_eq
  inboxes_eq := rfl
  length_eq := h.length_eq
  seated := by
    intro place member hmember
    obtain ⟨hplace, -⟩ := List.getElem?_eq_some_iff.1 hmember
    rw [← h.length'_eq] at hplace
    exact hQ _ _ _ (h.beside place member _ hmember (List.getElem?_eq_getElem hplace))

theorem seats' (h : c.Abreast config config' R d)
    (hparticipants : config'.participants = config.participants) {Q : Int → N → Prop}
    (hQ : ∀ x member member', R x member member' → Q x member') :
    d.Seats config' d.inboxes Q where
  config_eq := h.config'_eq
  inboxes_eq := rfl
  length_eq := by rw [h.length'_eq, hparticipants]; exact h.length_eq
  seated := by
    intro place member' hmember'
    obtain ⟨hplace, -⟩ := List.getElem?_eq_some_iff.1 hmember'
    rw [h.length'_eq] at hplace
    exact hQ _ _ _ (h.beside place _ member' (List.getElem?_eq_getElem hplace) hmember')

theorem record (h : c.Abreast config config' R d) (name : String) :
    (c.record name).Abreast config config' R (d.record name) := by
  rw [Ceremony.record, Ceremony.record, ← h.rounds_eq]
  split
  · exact h
  · exact { h with rounds_eq := by rw [h.rounds_eq] }

/-- Others take the seats at a place. -/
theorem set (h : c.Abreast config config' P d) {place : Nat} {member : M} {member' : N}
    (hnew : R (place + 1) member member')
    (hothers : ∀ (i : Nat) other other', i ≠ place → P (i + 1) other other' →
      R (i + 1) other other') :
    { c with members := c.members.set place member }.Abreast config config' R
      { d with members := d.members.set place member' } where
  config_eq := h.config_eq
  config'_eq := h.config'_eq
  rounds_eq := h.rounds_eq
  length_eq := by rw [List.length_set]; exact h.length_eq
  length'_eq := by rw [List.length_set, List.length_set]; exact h.length'_eq
  beside := by
    intro i other other' hother hother'
    rcases getElem?_set_cases hother with ⟨rfl, rfl⟩ | ⟨hi, hother⟩
    · rcases getElem?_set_cases hother' with ⟨-, rfl⟩ | ⟨hi, -⟩
      · exact hnew
      · exact absurd rfl hi
    · rcases getElem?_set_cases hother' with ⟨rfl, -⟩ | ⟨-, hother'⟩
      · exact absurd rfl hi
      · exact hothers i other other' hi (h.beside i other other' hother hother')

end Abreast

/-- Operations on the members at a place. -/
theorem inStep_onMember {place : Nat} {operation : M → Answer M α} {operation' : N → Answer N β}
    {E : Prop} (h : c.Abreast config config' P d)
    (hothers : ∀ (i : Nat) other other', i ≠ place → P (i + 1) other other' →
      R (i + 1) other other')
    (hplace : ∀ member member', c.members[place]? = some member → P (place + 1) member member' →
      Alike (fun _ left _ left' => R (place + 1) left left') (fun _ _ _ _ => E)
        (operation member) (operation' member')) :
    (onMember place operation : Run σ (Ceremony M) (Option α)).InStep c
      (onMember place operation' : Run σ (Ceremony N) (Option β)) d
      (fun _ c' _ d' => c'.Abreast config config' R d') fun _ _ _ _ => E := by
  refine .bind (.get ?_)
  rcases h.cases_place place with ⟨hnone, hnone'⟩ | ⟨member, member', hmember, hmember', hP⟩
  · rw [hnone, hnone']
    refine .pure { h with beside := fun i other other' hother hother' => ?_ }
    refine hothers i other other' ?_ (h.beside i other other' hother hother')
    rintro rfl
    rw [hnone] at hother
    cases hother
  · rw [hmember, hmember']
    have halike := hplace member member' hmember hP
    dsimp only
    generalize operation member = answer at halike
    generalize operation' member' = answer' at halike
    cases halike with
    | ok hleft =>
      exact Run.InStep.bind (.set (.bind (.steady (.ok (.pure (h.set hleft hothers))))))
    | error hE => exact Run.InStep.bind (.set (.bind (.steady (.error hE))))

/-- Operations on the members at all places, one after the other. -/
theorem inStep_onMembers {operation : M → Answer M α} {operation' : N → Answer N β} {E : Prop}
    (hoperation : ∀ x member member', P x member member' →
      Alike (fun _ left _ left' => R x left left') (fun _ _ _ _ => E) (operation member)
        (operation' member'))
    (h : c.Abreast config config' P d) :
    ((List.range c.members.length).forM fun place => do
      let _ ← onMember place operation : Run σ (Ceremony M) Unit).InStep c
      ((List.range d.members.length).forM fun place => do
        let _ ← onMember place operation' : Run σ (Ceremony N) Unit) d
      (fun _ c' _ d' => c'.Abreast config config' R d') fun _ _ _ _ => E := by
  -- the operations have been at the first places
  let mixed (done : List Nat) (x : Int) (member : M) (member' : N) : Prop :=
    (Among done x → R x member member') ∧ (¬ Among done x → P x member member')
  rw [h.length'_eq]
  refine (Run.InStep.forM (I := fun done c d => Abreast config config' (mixed done) c d) ?_ ?_).mono
    (fun _ c' _ d' h' => ?_) fun _ _ _ _ hE => hE
  · exact h.mono fun place _ _ _ hP => ⟨fun hamong => absurd hamong not_among_nil, fun _ => hP⟩
  · intro done place rest c₁ d₁ hrange h₁
    have hfresh : ¬ Among done (place + 1) := by
      rintro ⟨i, hi, heq⟩
      obtain rfl : i = place := by omega
      have hnodup := hrange ▸ List.nodup_range (n := c.members.length)
      exact (List.nodup_append.1 hnodup).2.2 i hi i (.head _) rfl
    refine .bind ((inStep_onMember h₁ (fun i other other' hi hother => ?_)
      fun member member' _ hmixed => ?_).mono (fun _ _ _ _ h₂ => .pure h₂) fun _ _ _ _ hE => hE)
    · have hsame : Among (done ++ [place]) ((i : Int) + 1) ↔ Among done (i + 1) := by
        rw [among_append_singleton, or_iff_left (by omega)]
      exact ⟨fun hamong => hother.1 (hsame.1 hamong), fun hnot => hother.2 (mt hsame.2 hnot)⟩
    · refine (hoperation _ _ _ (hmixed.2 hfresh)).mono (fun _ left _ left' hR => ?_)
        fun _ _ _ _ hE => hE
      exact ⟨fun _ => hR, fun hnot => absurd (among_append_singleton.2 (.inr rfl)) hnot⟩
  · refine h'.mono fun place member member' hmember hmixed => hmixed.1 (among_range ?_)
    obtain ⟨hplace, -⟩ := List.getElem?_eq_some_iff.1 hmember
    have := h.length_eq
    have := h'.length_eq
    exact mem_upTo.2 ⟨by omega, by omega⟩

/-! ### Tasks -/

section Tasks

variable {F : Int → Error → M → Error → N → Prop} {task : Task σ M} {task' : Task σ N}
  (htask : ∀ x member member', P x member member' →
    Together (fun _ left _ left' => R x left left') (F x) (task member) (task' member'))

include htask

/-- Tasks that run together at every place come to outcomes that are alike, place by place. -/
theorem runTasks_alike {schedule : List Nat} (hnodup : schedule.Nodup) {members : List M}
    {members' : List N} (hlength : members.length = members'.length)
    (hscheduled : ∀ place ∈ schedule, ∀ member member', members[place]? = some member →
      members'[place]? = some member' → P (place + 1) member member') (source : σ) :
    ((runTasks task schedule members).run source).2 =
        ((runTasks task' schedule members').run source).2 ∧
      ∀ place ∈ schedule, ∀ left left',
        ((runTasks task schedule members).run source).1.2[place]? = some left →
        ((runTasks task' schedule members').run source).1.2[place]? = some left' →
        ∃ outcome outcome',
          Mapping.findEntry place ((runTasks task schedule members).run source).1.1 =
            some outcome ∧
          Mapping.findEntry place ((runTasks task' schedule members').run source).1.1 =
            some outcome' ∧
          Alike (fun _ left _ left' => R (place + 1) left left') (F (place + 1)) (outcome, left)
            (outcome', left') := by
  induction schedule generalizing members members' source with
  | nil => exact ⟨rfl, fun place hplace => absurd hplace List.not_mem_nil⟩
  | cons first schedule ih =>
    obtain ⟨hfirst, hrest⟩ := List.nodup_cons.1 hnodup
    rw [runTasks, runTasks]
    cases hmember : members[first]? with
    | none =>
      have hmember' : members'[first]? = none := by
        rw [List.getElem?_eq_none_iff, ← hlength]
        exact List.getElem?_eq_none_iff.1 hmember
      rw [hmember']
      obtain ⟨hsource, hturns⟩ := ih hrest hlength
        (fun place hplace => hscheduled place (.tail _ hplace)) source
      refine ⟨hsource, List.forall_mem_cons.2 ⟨fun left left' hleft => ?_, hturns⟩⟩
      have hsame := (always_turns task hrest members source).1
      rw [List.getElem?_eq_none_iff.2 (hsame ▸ List.getElem?_eq_none_iff.1 hmember)] at hleft
      cases hleft
    | some member =>
      obtain ⟨hplace, -⟩ := List.getElem?_eq_some_iff.1 hmember
      have hplace' : first < members'.length := hlength ▸ hplace
      have hmember' := List.getElem?_eq_getElem hplace'
      rw [hmember']
      obtain ⟨halike, hsource⟩ := htask (first + 1) member _
        (hscheduled first (.head _) member _ hmember hmember') source
      dsimp only
      rw [StateT.run_bind, StateT.run_bind]
      generalize (task member).run source = answer at halike hsource
      generalize (task' members'[first]).run source = answer' at halike hsource
      obtain ⟨⟨outcome, left⟩, source₁⟩ := answer
      obtain ⟨⟨outcome', left'⟩, source₁'⟩ := answer'
      obtain rfl : source₁ = source₁' := hsource
      have hnext : ∀ place ∈ schedule, ∀ other other',
          (members.set first left)[place]? = some other →
          (members'.set first left')[place]? = some other' → P (place + 1) other other' := by
        intro place hmem other other' hother hother'
        have hne := (ne_of_mem_of_not_mem hmem hfirst).symm
        rw [List.getElem?_set_ne hne] at hother hother'
        exact hscheduled place (.tail _ hmem) other other' hother hother'
      obtain ⟨hsource, hturns⟩ :=
        ih hrest (by rw [List.length_set, List.length_set]; exact hlength) hnext source₁
      -- nobody has two turns, so that the first members stay as their turns have left them
      have hkept := ((always_turns task hrest (members.set first left) source₁).2 first left
        (List.getElem?_set_self hplace)).2 hfirst
      have hkept' := ((always_turns task' hrest (members'.set first left') source₁).2 first left'
        (List.getElem?_set_self hplace')).2 hfirst
      refine ⟨hsource, List.forall_mem_cons.2 ⟨fun member₁ member₁' hmember₁ hmember₁' => ?_,
        fun place hmem => ?_⟩⟩
      · obtain rfl := Option.some.inj (hkept.1.symm.trans hmember₁)
        obtain rfl := Option.some.inj (hkept'.1.symm.trans hmember₁')
        exact ⟨outcome, outcome', if_pos rfl, if_pos rfl, halike⟩
      · have hne := (ne_of_mem_of_not_mem hmem hfirst).symm
        intro member₁ member₁' hmember₁ hmember₁'
        obtain ⟨outcome₁, outcome₁', houtcome, houtcome', halike₁⟩ :=
          hturns place hmem member₁ member₁' hmember₁ hmember₁'
        exact ⟨outcome₁, outcome₁', (if_neg hne).trans houtcome, (if_neg hne).trans houtcome',
          halike₁⟩

end Tasks

/-! ### Rounds -/

section Rounds

variable [Member M K] [Member N K] {F : Int → Error → M → Error → N → Prop}

/-- That two refusals are those of members at one place, each with the position of its member. -/
def Corresponds (F : Int → Error → M → Error → N → Prop) (entry entry' : Int × Error) : Prop :=
  ∃ x member member', F x entry.2 member entry'.2 member' ∧ positionOf member = entry.1 ∧
    positionOf member' = entry'.1

/-- How rounds in step are refused: for refusals of the members at the same places. The others have
succeeded or had no turn. -/
structure RefusedAlike (n : Int) (name : String) (R : Int → M → N → Prop)
    (F : Int → Error → M → Error → N → Prop) (refusal : Error) (c : Ceremony M) (refusal' : Error)
    (d : Ceremony N) : Prop where
  length_eq : (c.members.length : Int) = n
  length'_eq : d.members.length = c.members.length
  beside : ∀ (place : Nat) member member', c.members[place]? = some member →
    d.members[place]? = some member' →
      R (place + 1) member member' ∨ ∃ own own', F (place + 1) own member own' member'
  settled : ∃ refused refused', List.Forall₂ (Corresponds F) refused refused' ∧
    settle name refused = .error refusal ∧ settle name refused' = .error refusal'

/-- Rounds in which no task refuses are not refused. -/
theorem RefusedAlike.elim {n : Int} {name : String} {R : Int → M → N → Prop}
    {refusal refusal' : Error}
    (h : RefusedAlike n name R (fun _ _ _ _ _ => False) refusal c refusal' d) : False := by
  obtain ⟨refused, refused', hpaired, hsettle, -⟩ := h.settled
  cases hpaired with
  | nil => cases hsettle
  | cons hentry =>
    obtain ⟨_, _, _, hfalse, -⟩ := hentry
    exact hfalse

/-- That members have come to outcomes that are alike, place by place, or have had no turn. -/
structure TurnedAlike (R : Int → M → N → Prop) (F : Int → Error → M → Error → N → Prop)
    (turned : List (Nat × Except Error Unit) × List M)
    (turned' : List (Nat × Except Error Unit) × List N) : Prop where
  length_eq : turned.2.length = turned'.2.length
  alike : ∀ (place : Nat) member member', turned.2[place]? = some member →
    turned'.2[place]? = some member' →
      (Mapping.findEntry place turned.1 = none ∧ Mapping.findEntry place turned'.1 = none ∧
        R (place + 1) member member') ∨
      ∃ outcome outcome', Mapping.findEntry place turned.1 = some outcome ∧
        Mapping.findEntry place turned'.1 = some outcome' ∧
        Alike (fun _ left _ left' => R (place + 1) left left') (F (place + 1)) (outcome, member)
          (outcome', member')

namespace TurnedAlike

variable {turned : List (Nat × Except Error Unit) × List M}
  {turned' : List (Nat × Except Error Unit) × List N} (h : TurnedAlike R F turned turned')

include h

theorem refusals_correspond :
    List.Forall₂ (Corresponds F) (refusals turned.2 turned.1) (refusals turned'.2 turned'.1) := by
  have hplaces : List.Forall₂ (fun (entry : M × Nat) (entry' : N × Nat) => entry.2 = entry'.2 ∧
      turned.2[entry.2]? = some entry.1 ∧ turned'.2[entry'.2]? = some entry'.1)
      turned.2.zipIdx turned'.2.zipIdx := by
    refine List.forall₂_iff_get.2 ⟨by simpa using h.length_eq, fun i hi hi' => ?_⟩
    rw [List.length_zipIdx] at hi hi'
    simp [hi, hi']
  refine List.rel_filterMap ?_ hplaces
  rintro ⟨member, place⟩ ⟨member', _⟩ ⟨rfl, hmember, hmember'⟩
  dsimp only
  obtain ⟨hnone, hnone', -⟩ | ⟨outcome, outcome', houtcome, houtcome', halike⟩ :=
    h.alike place member member' hmember hmember'
  · rw [hnone, hnone']
    exact .none
  · rw [houtcome, houtcome']
    cases halike with
    | ok => exact .none
    | error hF => exact .some ⟨place + 1, member, member', hF, rfl, rfl⟩

omit [Member N K] in
/-- Where nobody has refused, everybody has come to the same. -/
theorem beside_of_ok (hnone : refusals turned.2 turned.1 = []) {place : Nat} {member : M}
    {member' : N} (hmember : turned.2[place]? = some member)
    (hmember' : turned'.2[place]? = some member') : R (place + 1) member member' := by
  obtain ⟨-, -, hR⟩ | ⟨outcome, outcome', houtcome, -, halike⟩ :=
    h.alike place member member' hmember hmember'
  · exact hR
  · cases halike with
    | ok hR => exact hR
    | error =>
      have hentry : (positionOf member, _) ∈ refusals turned.2 turned.1 :=
        mem_refusals.2 ⟨place, member, hmember, houtcome, rfl⟩
      rw [hnone] at hentry
      cases hentry

/-- Rounds that have come to the same end alike. -/
theorem close_alike (name : String) {P : Int → M → N → Prop}
    (hbefore : c.Abreast config config' P d) (hlength : turned.2.length = c.members.length) :
    Alike (fun _ c' _ d' => c'.Abreast config config' R d')
      (RefusedAlike config.participants name R F) (close name c turned) (close name d turned') := by
  have hcount : (turned.2.length : Int) = config.participants := by
    rw [hlength]
    exact hbefore.length_eq
  have hrefused := h.refusals_correspond
  cases hsettle : settle name (refusals turned.2 turned.1) with
  | ok =>
    have hnone := settle_eq_ok_iff.1 hsettle
    have hnone' : refusals turned'.2 turned'.1 = [] := by
      rw [hnone] at hrefused
      exact List.forall₂_nil_left_iff.1 hrefused
    have hturned : { c with members := turned.2 }.Abreast config config' R
        { d with members := turned'.2 } :=
      ⟨hbefore.config_eq, hbefore.config'_eq, hbefore.rounds_eq, hcount, h.length_eq.symm,
        fun _ _ _ => h.beside_of_ok hnone⟩
    rw [close, close, hnone, hnone']
    exact .ok (hturned.record name)
  | error refusal =>
    cases hsettle' : settle name (refusals turned'.2 turned'.1) with
    | ok =>
      rw [settle_eq_ok_iff.1 hsettle'] at hrefused
      rw [List.forall₂_nil_right_iff.1 hrefused] at hsettle
      cases hsettle
    | error refusal' =>
      have hclose : close name c turned = (.error refusal, (close name c turned).2) :=
        Prod.ext hsettle rfl
      have hclose' : close name d turned' = (.error refusal', (close name d turned').2) :=
        Prod.ext hsettle' rfl
      rw [hclose, hclose']
      refine .error ⟨by rw [members_close]; exact hcount,
        by rw [members_close, members_close, h.length_eq], ?_, _, _, hrefused, hsettle, hsettle'⟩
      rw [members_close, members_close]
      intro place member member' hmember hmember'
      obtain ⟨-, -, hR⟩ | ⟨outcome, outcome', -, -, halike⟩ :=
        h.alike place member member' hmember hmember'
      · exact .inl hR
      · cases halike with
        | ok hR => exact .inl hR
        | error hF => exact .inr ⟨_, _, hF⟩

end TurnedAlike

/-- Rounds are in step when the tasks at every place of their schedule are. -/
theorem inStep_roundAmong (name : String) {schedule : List Nat} (hnodup : schedule.Nodup)
    {task : Task σ M} {task' : Task σ N}
    (htask : ∀ x member member', P x member member' →
      Together (fun _ left _ left' => R x left left') (F x) (task member) (task' member'))
    (hidle : ∀ (place : Nat) member member', c.members[place]? = some member → place ∉ schedule →
      P (place + 1) member member' → R (place + 1) member member')
    (h : c.Abreast config config' P d) :
    (roundAmong name schedule task).InStep c (roundAmong name schedule task') d
      (fun _ c' _ d' => c'.Abreast config config' R d')
      (RefusedAlike config.participants name R F) := by
  intro source
  rw [finish_roundAmong, finish_roundAmong]
  obtain ⟨hsource, hturns⟩ := runTasks_alike htask hnodup h.length'_eq.symm
    (fun place _ member member' => h.beside place member member') source
  obtain ⟨hlength, hkept⟩ := always_turns task hnodup c.members source
  obtain ⟨hlength', hkept'⟩ := always_turns task' hnodup d.members source
  refine ⟨TurnedAlike.close_alike ⟨?_, fun place member member' hmember hmember' => ?_⟩ name h
    hlength, hsource⟩
  · rw [hlength, hlength', h.length'_eq]
  · by_cases hplace : place ∈ schedule
    · exact .inr (hturns place hplace member member' hmember hmember')
    · -- who has no turn stays as before
      have hold := List.getElem?_eq_getElem (hlength ▸ (List.getElem?_eq_some_iff.1 hmember).1)
      have hold' := List.getElem?_eq_getElem (hlength' ▸ (List.getElem?_eq_some_iff.1 hmember').1)
      obtain ⟨hsame, hnone⟩ := (hkept place _ hold).2 hplace
      obtain ⟨hsame', hnone'⟩ := (hkept' place _ hold').2 hplace
      rw [← Option.some.inj (hsame.symm.trans hmember),
        ← Option.some.inj (hsame'.symm.trans hmember')]
      exact .inl ⟨hnone, hnone', hidle place _ _ hold hplace (h.beside place _ _ hold hold')⟩

/-- Rounds of all members. -/
theorem inStep_round (name : String) {task : Task σ M} {task' : Task σ N}
    (htask : ∀ x member member', P x member member' →
      Together (fun _ left _ left' => R x left left') (F x) (task member) (task' member'))
    (h : c.Abreast config config' P d) :
    (round name task).InStep c (round name task') d
      (fun _ c' _ d' => c'.Abreast config config' R d')
      (RefusedAlike config.participants name R F) := by
  refine .bind (.get ?_)
  rw [h.length'_eq]
  exact inStep_roundAmong name List.nodup_range htask (fun place member member' hmember hplace =>
    absurd (mem_range_of_getElem? hmember) hplace) h

/-- Rounds of all members in which nothing is drawn. -/
theorem inStep_steadyRound (name : String) {work : M → Answer M Unit} {work' : N → Answer N Unit}
    (hwork : ∀ x member member', P x member member' →
      Alike (fun _ left _ left' => R x left left') (F x) (work member) (work' member'))
    (h : c.Abreast config config' P d) :
    (round name (steadyTask work) : Run σ (Ceremony M) Unit).InStep c
      (round name (steadyTask work') : Run σ (Ceremony N) Unit) d
      (fun _ c' _ d' => c'.Abreast config config' R d')
      (RefusedAlike config.participants name R F) :=
  inStep_round name (fun x member member' hP _ => ⟨hwork x member member' hP, rfl⟩) h

/-- Rounds of checks that pass at the same places. -/
theorem inStep_inspection (name : String) {check : M → Except Error Unit}
    {check' : N → Except Error Unit}
    (hcheck : ∀ x member member', P x member member' →
      (check member = .ok () ↔ check' member' = .ok ()))
    (h : c.Abreast config config' P d) :
    (round name (inspection check) : Run σ (Ceremony M) Unit).InStep c
      (round name (inspection check') : Run σ (Ceremony N) Unit) d
      (fun _ c' _ d' => c'.Abreast config config' P d')
      (RefusedAlike config.participants name P fun _ _ _ _ _ => True) := by
  change (round name (steadyTask fun member => (check member, member))).InStep c
    (round name (steadyTask fun member' => (check' member', member'))) d _ _
  refine inStep_steadyRound name (fun x member member' hP => ?_) h
  have hsame := hcheck x member member' hP
  cases hpassed : check member with
  | ok =>
    rw [hsame.1 hpassed]
    exact .ok hP
  | error refusal =>
    cases hpassed' : check' member' with
    | ok =>
      rw [hsame.2 hpassed'] at hpassed
      cases hpassed
    | error refusal' => exact .error trivial

end Rounds

end Ceremony

end ThresholdKeygen
