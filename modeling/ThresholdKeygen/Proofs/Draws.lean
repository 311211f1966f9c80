import ThresholdKeygen.Ceremony.Round
import ThresholdKeygen.Proofs.Refusal

/-!
# Computations that draw randomness

What a computation answers whatever it draws. `Always` speaks of computations that only draw,
`Succeeds`, `Fails`, `Delivers` and `Declines` of those that may also refuse, and `Run.Reaches` and
`Run.Ends` of those on a state. Each has one rule per way of composing computations, so that a long
one is followed step by step.
-/

namespace ThresholdKeygen

variable {σ : Type} {α β : Type}

/-! ### Drawing -/

/-- Whatever is drawn, the result has a property. -/
def Always (m : StateM σ α) (Q : α → Prop) : Prop := ∀ source : σ, Q (m.run source).1

namespace Always

theorem pure {Q : α → Prop} {a : α} (h : Q a) : Always (pure a : StateM σ α) Q := fun _ => h

theorem bind {m : StateM σ α} {f : α → StateM σ β} {Q : β → Prop}
    (h : Always m fun a => Always (f a) Q) : Always (m >>= f) Q := by
  intro source
  exact h source (m.run source).2

theorem mono {m : StateM σ α} {Q R : α → Prop} (h : Always m Q) (hQR : ∀ a, Q a → R a) :
    Always m R := fun source => hQR _ (h source)

/-- A step that may refuse, and what follows it. -/
theorem bindExcept {m : ExceptT Error (StateM σ) α} {f : α → ExceptT Error (StateM σ) β}
    {Q : Except Error β → Prop}
    (h : Always m.run fun
      | .ok a => Always (f a).run Q
      | .error refusal => Q (.error refusal)) : Always (m >>= f).run Q := by
  rw [ExceptT.run_bind]
  refine .bind (h.mono fun answer hanswer => ?_)
  cases answer with
  | error refusal => exact .pure hanswer
  | ok a => exact hanswer

end Always

section Draws

variable [RandomSource σ] (who : Int)

theorem always_drawScalar : Always (drawScalar who : StateM σ Scalar) (· ≠ 0) := fun source =>
  (RandomSource.nextScalar who source).1.2

theorem always_drawScalars (count : Nat) :
    Always (drawScalars who count : StateM σ (List Scalar)) fun scalars =>
      scalars.length = count ∧ ∀ s ∈ scalars, s ≠ 0 := by
  induction count with
  | zero => exact .pure ⟨rfl, by simp⟩
  | succ count ih =>
    refine .bind ((always_drawScalar who).mono fun s hs => .bind (ih.mono fun scalars h => ?_))
    exact .pure ⟨by rw [List.length_cons, h.1], List.forall_mem_cons.2 ⟨hs, h.2⟩⟩

theorem always_drawWeights (bits count : Nat) :
    Always (drawWeights who bits count : StateM σ (List Scalar)) fun weights =>
      weights.length = count := by
  induction count with
  | zero => exact .pure rfl
  | succ count ih =>
    refine .bind fun _ => Always.bind (ih.mono fun weights h => Always.pure ?_)
    rw [List.length_cons, h]

end Draws

/-! ### Drawing and refusing -/

/-- Whatever is drawn, the computation succeeds, and its result has a property. -/
def Succeeds (m : ExceptT Error (StateM σ) α) (Q : α → Prop) : Prop :=
  Always m.run fun answer => ∃ a, answer = .ok a ∧ Q a

namespace Succeeds

theorem pure {Q : α → Prop} {a : α} (h : Q a) :
    Succeeds (pure a : ExceptT Error (StateM σ) α) Q := fun _ => ⟨a, rfl, h⟩

theorem bind {m : ExceptT Error (StateM σ) α} {f : α → ExceptT Error (StateM σ) β} {Q : β → Prop}
    (h : Succeeds m fun a => Succeeds (f a) Q) : Succeeds (m >>= f) Q := by
  rw [Succeeds, ExceptT.run_bind]
  refine .bind (h.mono ?_)
  rintro _ ⟨a, rfl, ha⟩
  exact ha

theorem mono {m : ExceptT Error (StateM σ) α} {Q R : α → Prop} (h : Succeeds m Q)
    (hQR : ∀ a, Q a → R a) : Succeeds m R := by
  refine Always.mono h ?_
  rintro _ ⟨a, rfl, ha⟩
  exact ⟨a, rfl, hQR a ha⟩

/-- A step that draws nothing. -/
theorem steady {x : Except Error α} {a : α} {Q : α → Prop} (hx : x = .ok a) (h : Q a) :
    Succeeds (liftM x : ExceptT Error (StateM σ) α) Q := by
  subst hx
  exact .pure h

/-- A step that only draws. -/
theorem lift {m : StateM σ α} {Q : α → Prop} (h : Always m Q) :
    Succeeds (liftM m : ExceptT Error (StateM σ) α) Q := fun source => ⟨_, rfl, h source⟩

/-- Steps for all elements of a list. -/
theorem mapM {f : α → ExceptT Error (StateM σ) β} {Q : β → Prop} {l : List α}
    (h : ∀ a ∈ l, Succeeds (f a) Q) : Succeeds (l.mapM f) fun results =>
      ∀ b ∈ results, Q b := by
  induction l with
  | nil => exact .pure (by simp)
  | cons a l ih =>
    obtain ⟨ha, hl⟩ := List.forall_mem_cons.1 h
    rw [List.mapM_cons]
    refine .bind (ha.mono fun b hb => .bind ((ih hl).mono fun results hresults => ?_))
    exact .pure (List.forall_mem_cons.2 ⟨hb, hresults⟩)

end Succeeds

/-- Whatever is drawn, the computation is refused, and the refusal has a property. -/
def Fails (m : ExceptT Error (StateM σ) α) (P : Error → Prop) : Prop :=
  Always m.run fun answer => ∃ refusal, answer = .error refusal ∧ P refusal

namespace Fails

variable {P : Error → Prop}

theorem bind {m : ExceptT Error (StateM σ) α} {f : α → ExceptT Error (StateM σ) β}
    (h : Fails m P) : Fails (m >>= f) P := by
  refine .bindExcept (Always.mono h ?_)
  rintro _ ⟨refusal, rfl, hrefusal⟩
  exact ⟨refusal, rfl, hrefusal⟩

/-- A step that succeeds before the one that is refused. -/
theorem after {m : ExceptT Error (StateM σ) α} {f : α → ExceptT Error (StateM σ) β}
    (h : Succeeds m fun a => Fails (f a) P) : Fails (m >>= f) P := by
  refine .bindExcept (Always.mono h ?_)
  rintro _ ⟨a, rfl, ha⟩
  exact ha

theorem throw {refusal : Error} (h : P refusal) :
    Fails (throw refusal : ExceptT Error (StateM σ) α) P := fun _ => ⟨refusal, rfl, h⟩

/-- A step that draws nothing. -/
theorem steady {x : Except Error α} {refusal : Error} (hx : x = .error refusal) (h : P refusal) :
    Fails (liftM x : ExceptT Error (StateM σ) α) P := by
  subst hx
  exact .throw h

end Fails

/-- Whatever is drawn, the result has a property if there is one. -/
def Delivers (m : ExceptT Error (StateM σ) α) (Q : α → Prop) : Prop :=
  Always m.run fun answer => Yields answer Q

namespace Delivers

theorem pure {Q : α → Prop} {a : α} (h : Q a) :
    Delivers (pure a : ExceptT Error (StateM σ) α) Q := fun _ => Yields.pure h

theorem bind {m : ExceptT Error (StateM σ) α} {f : α → ExceptT Error (StateM σ) β} {Q : β → Prop}
    (h : Delivers m fun a => Delivers (f a) Q) : Delivers (m >>= f) Q := by
  rw [Delivers, ExceptT.run_bind]
  refine .bind (Always.mono h fun answer hanswer => ?_)
  cases answer with
  | error refusal => exact .pure .error
  | ok a => exact hanswer a rfl

theorem mono {m : ExceptT Error (StateM σ) α} {Q R : α → Prop} (h : Delivers m Q)
    (hQR : ∀ a, Q a → R a) : Delivers m R :=
  Always.mono h fun _ hanswer a ha => hQR a (hanswer a ha)

theorem and {m : ExceptT Error (StateM σ) α} {Q R : α → Prop} (h : Delivers m Q)
    (h' : Delivers m R) : Delivers m fun a => Q a ∧ R a :=
  fun source a ha => ⟨h source a ha, h' source a ha⟩

theorem refused {f : α → ExceptT Error (StateM σ) β} {Q : β → Prop} {refusal : Error} :
    Delivers (throw refusal >>= f) Q := fun _ => Yields.error

/-- A step of which nothing but its success matters. -/
theorem any {m : ExceptT Error (StateM σ) α} {Q : α → Prop} (h : ∀ a, Q a) : Delivers m Q :=
  fun _ a _ => h a

/-- A step that draws nothing. -/
theorem steady {x : Except Error α} {Q : α → Prop} (h : Yields x Q) :
    Delivers (liftM x : ExceptT Error (StateM σ) α) Q := fun _ => h

end Delivers

/-- Whatever is drawn, a refusal has a property if there is one. -/
def Declines (m : ExceptT Error (StateM σ) α) (P : Error → Prop) : Prop :=
  Always m.run fun answer => Refuses answer P

namespace Declines

variable {P : Error → Prop}

theorem pure {a : α} : Declines (pure a : ExceptT Error (StateM σ) α) P := fun _ => .ok

theorem refused {f : α → ExceptT Error (StateM σ) β} {refusal : Error} (h : P refusal) :
    Declines (throw refusal >>= f) P := fun _ => .error h

theorem throw {refusal : Error} (h : P refusal) :
    Declines (throw refusal : ExceptT Error (StateM σ) α) P := fun _ => .error h

theorem mono {Q : Error → Prop} {m : ExceptT Error (StateM σ) α} (h : Declines m P)
    (hPQ : ∀ refusal, P refusal → Q refusal) : Declines m Q :=
  Always.mono h fun _ hanswer => hanswer.mono hPQ

theorem bind {m : ExceptT Error (StateM σ) α} {f : α → ExceptT Error (StateM σ) β}
    (hm : Declines m P) (hf : ∀ a, Declines (f a) P) : Declines (m >>= f) P := by
  rw [Declines, ExceptT.run_bind]
  refine .bind (Always.mono hm fun answer hanswer => ?_)
  cases answer with
  | error refusal => exact .pure (.error (hanswer refusal rfl))
  | ok a => exact hf a

/-- A step that draws nothing. -/
theorem steady {x : Except Error α} (h : Refuses x P) :
    Declines (liftM x : ExceptT Error (StateM σ) α) P := fun _ => h

/-- A step that only draws. -/
theorem lift (m : StateM σ α) : Declines (liftM m : ExceptT Error (StateM σ) α) P :=
  fun _ => .ok

theorem mapM {f : α → ExceptT Error (StateM σ) β} (hf : ∀ a, Declines (f a) P) (l : List α) :
    Declines (l.mapM f) P := by
  induction l with
  | nil => exact pure
  | cons a l ih =>
    rw [List.mapM_cons]
    exact bind (hf a) fun _ => bind ih fun _ => pure

end Declines

/-! ### Runs -/

variable {S : Type}

/-- Whatever is drawn, the run succeeds from a state, and its result and the state that it leaves
behind have a property. -/
def Run.Reaches (m : Run σ S α) (s : S) (Q : α → S → Prop) : Prop :=
  Always (m.run.run s) fun outcome => ∃ a, outcome.1 = .ok a ∧ Q a outcome.2

namespace Run.Reaches

variable {s : S}

theorem pure {Q : α → S → Prop} {a : α} (h : Q a s) :
    Run.Reaches (pure a : Run σ S α) s Q := fun _ => ⟨a, rfl, h⟩

theorem bind {m : Run σ S α} {f : α → Run σ S β} {Q : β → S → Prop}
    (h : Run.Reaches m s fun a s' => Run.Reaches (f a) s' Q) : Run.Reaches (m >>= f) s Q := by
  rw [Run.Reaches, ExceptT.run_bind, StateT.run_bind]
  refine .bind (Always.mono h ?_)
  rintro ⟨_, s'⟩ ⟨a, rfl, ha⟩
  exact ha

theorem mono {m : Run σ S α} {Q R : α → S → Prop} (h : Run.Reaches m s Q)
    (hQR : ∀ a s', Q a s' → R a s') : Run.Reaches m s R := by
  refine Always.mono h ?_
  rintro ⟨_, s'⟩ ⟨a, rfl, ha⟩
  exact ⟨a, rfl, hQR a s' ha⟩

theorem get {Q : S → S → Prop} (h : Q s s) : Run.Reaches (get : Run σ S S) s Q :=
  fun _ => ⟨s, rfl, h⟩

theorem set {Q : PUnit → S → Prop} {s' : S} (h : Q ⟨⟩ s') :
    Run.Reaches (set s' : Run σ S PUnit) s Q := fun _ => ⟨⟨⟩, rfl, h⟩

theorem modify {Q : PUnit → S → Prop} {f : S → S} (h : Q ⟨⟩ (f s)) :
    Run.Reaches (modify f : Run σ S PUnit) s Q := fun _ => ⟨⟨⟩, rfl, h⟩

theorem steady {x : Except Error α} {a : α} {Q : α → S → Prop} (hx : x = .ok a) (h : Q a s) :
    Run.Reaches (liftM x : Run σ S α) s Q := by
  subst hx
  exact .pure h

theorem lift {m : StateM σ α} {Q : α → S → Prop} (h : Always m fun a => Q a s) :
    Run.Reaches (liftM m : Run σ S α) s Q := fun source => ⟨_, rfl, h source⟩

theorem besides {m : ExceptT Error (StateM σ) α} {Q : α → S → Prop}
    (h : Succeeds m fun a => Q a s) : Run.Reaches (Run.besides m) s Q := by
  refine Always.bind (Always.mono h ?_)
  rintro _ ⟨a, rfl, ha⟩
  exact .pure ⟨a, rfl, ha⟩

/-- A loop, by an invariant of the elements that it has gone through. -/
theorem forM {ι : Type} {f : ι → Run σ S PUnit} {l : List ι} {I : List ι → S → Prop}
    (hstart : I [] s)
    (hstep : ∀ done i rest s, l = done ++ i :: rest → I done s →
      Run.Reaches (f i) s fun _ s' => I (done ++ [i]) s') :
    Run.Reaches (l.forM f) s fun _ s' => I l s' := by
  suffices h : ∀ done rest s, l = done ++ rest → I done s →
      Run.Reaches (rest.forM f) s fun _ s' => I l s' from h [] l s rfl hstart
  intro done rest
  induction rest generalizing done with
  | nil =>
    intro s hl hI
    rw [List.append_nil] at hl
    subst hl
    exact .pure hI
  | cons i rest ih =>
    intro s hl hI
    refine .bind ((hstep done i rest s hl hI).mono fun _ s' hI' => ?_)
    exact ih (done ++ [i]) s' (by rw [hl, List.append_assoc]; rfl) hI'

end Run.Reaches

/-- Whatever is drawn, what the run answers from a state, be it a refusal, and the state that it
leaves behind have a property. -/
def Run.Ends (m : Run σ S α) (s : S) (Q : Except Error α → S → Prop) : Prop :=
  Always (m.run.run s) fun outcome => Q outcome.1 outcome.2

namespace Run.Ends

variable {s : S}

theorem pure {Q : Except Error α → S → Prop} {a : α} (h : Q (.ok a) s) :
    Run.Ends (pure a : Run σ S α) s Q := fun _ => h

theorem throw {Q : Except Error α → S → Prop} {refusal : Error} (h : Q (.error refusal) s) :
    Run.Ends (throw refusal : Run σ S α) s Q := fun _ => h

/-- A run goes on where its first part succeeds, and ends where that refuses. -/
theorem bind {m : Run σ S α} {f : α → Run σ S β} {Q : Except Error β → S → Prop}
    (h : Run.Ends m s fun
      | .ok a, s' => Run.Ends (f a) s' Q
      | .error refusal, s' => Q (.error refusal) s') : Run.Ends (m >>= f) s Q := by
  rw [Run.Ends, ExceptT.run_bind, StateT.run_bind]
  refine .bind (Always.mono h ?_)
  rintro ⟨answer, s'⟩ hanswer
  cases answer with
  | error refusal => exact .pure hanswer
  | ok a => exact hanswer

theorem mono {m : Run σ S α} {Q R : Except Error α → S → Prop} (h : Run.Ends m s Q)
    (hQR : ∀ answer s', Q answer s' → R answer s') : Run.Ends m s R :=
  Always.mono h fun _ houtcome => hQR _ _ houtcome

/-- A run of which nothing matters. -/
theorem any {m : Run σ S α} {Q : Except Error α → S → Prop} (h : ∀ answer s', Q answer s') :
    Run.Ends m s Q := fun _ => h _ _

theorem and {m : Run σ S α} {Q R : Except Error α → S → Prop} (h : Run.Ends m s Q)
    (h' : Run.Ends m s R) : Run.Ends m s fun answer s' => Q answer s' ∧ R answer s' :=
  fun source => ⟨h source, h' source⟩

theorem get {Q : Except Error S → S → Prop} (h : Q (.ok s) s) :
    Run.Ends (get : Run σ S S) s Q := fun _ => h

theorem set {Q : Except Error PUnit → S → Prop} {s' : S} (h : Q (.ok ⟨⟩) s') :
    Run.Ends (set s' : Run σ S PUnit) s Q := fun _ => h

theorem modify {Q : Except Error PUnit → S → Prop} {f : S → S} (h : Q (.ok ⟨⟩) (f s)) :
    Run.Ends (modify f : Run σ S PUnit) s Q := fun _ => h

theorem steady {x : Except Error α} {Q : Except Error α → S → Prop} (h : Q x s) :
    Run.Ends (liftM x : Run σ S α) s Q := by
  cases x with
  | error refusal => exact .throw h
  | ok a => exact .pure h

theorem lift {m : StateM σ α} {Q : Except Error α → S → Prop}
    (h : Always m fun a => Q (.ok a) s) : Run.Ends (liftM m : Run σ S α) s Q :=
  fun source => h source

theorem besides {m : ExceptT Error (StateM σ) α} {Q : Except Error α → S → Prop}
    (h : Always m.run fun answer => Q answer s) : Run.Ends (Run.besides m) s Q :=
  Always.bind (Always.mono h fun _ hanswer => .pure hanswer)

end Run.Ends

end ThresholdKeygen
