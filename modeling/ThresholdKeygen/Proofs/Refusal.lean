import Mathlib.Data.List.Forall2
import ThresholdKeygen.Error

/-!
# Computations that may refuse

Rewriting rules for computations in `Except Error`: what a step that succeeds or refuses does to the
steps behind it.
-/

namespace ThresholdKeygen

variable {ε α β : Type}

@[simp] theorem ok_bind (a : α) (f : α → Except ε β) : (Except.ok a >>= f) = f a := rfl

@[simp] theorem error_bind (e : ε) (f : α → Except ε β) :
    (Except.error e >>= f) = .error e := rfl

@[simp] theorem pure_eq_ok (a : α) : (pure a : Except ε α) = .ok a := rfl

@[simp] theorem throw_eq_error (e : ε) : (throw e : Except ε α) = .error e := rfl

@[simp] theorem map_ok (a : α) (f : α → β) : (Except.ok a : Except ε α).map f = .ok (f a) := rfl

@[simp] theorem map_error (e : ε) (f : α → β) :
    (Except.error e : Except ε α).map f = .error e := rfl

theorem bind_eq_ok_iff {x : Except ε α} {f : α → Except ε β} {b : β} :
    (x >>= f) = .ok b ↔ ∃ a, x = .ok a ∧ f a = .ok b := by
  cases x with
  | error e => simp
  | ok a => simp

/-- A check and what follows it. -/
theorem check_bind_eq_ok_iff {x : Except ε Unit} {f : Unit → Except ε β} {b : β} :
    (x >>= f) = .ok b ↔ x = .ok () ∧ f () = .ok b := by
  rw [bind_eq_ok_iff]
  exact ⟨fun ⟨_, hx, hb⟩ => ⟨hx, hb⟩, fun ⟨hx, hb⟩ => ⟨(), hx, hb⟩⟩

theorem bind_eq_error_iff {x : Except ε α} {f : α → Except ε β} {e : ε} :
    (x >>= f) = .error e ↔ x = .error e ∨ ∃ a, x = .ok a ∧ f a = .error e := by
  cases x with
  | error e' => simp
  | ok a => simp

theorem eq_ok_of_toOption {x : Except ε α} {a : α} (h : x.toOption = some a) : x = .ok a := by
  cases x with
  | error e => cases h
  | ok b => exact congrArg _ (Option.some.inj h)

/-- Steps that all succeed. -/
theorem mapM_eq_ok {f : α → Except ε β} {g : α → β} {l : List α}
    (h : ∀ a ∈ l, f a = .ok (g a)) : l.mapM f = .ok (l.map g) := by
  induction l with
  | nil => rfl
  | cons a l ih =>
    obtain ⟨ha, hl⟩ := List.forall_mem_cons.1 h
    rw [List.mapM_cons, ha, ih hl]
    rfl

/-- Where all steps have succeeded, the result at a place is that of the step there. -/
theorem exists_of_getElem?_mapM {f : α → Except ε β} {l : List α} {results : List β}
    (h : l.mapM f = .ok results) {i : Nat} {b : β} (hb : results[i]? = some b) :
    ∃ a, l[i]? = some a ∧ f a = .ok b := by
  induction l generalizing results i with
  | nil =>
    obtain rfl := Except.ok.inj h
    cases hb
  | cons a l ih =>
    rw [List.mapM_cons] at h
    obtain ⟨c, hc, hrest⟩ := bind_eq_ok_iff.1 h
    obtain ⟨cs, hcs, hresults⟩ := bind_eq_ok_iff.1 hrest
    obtain rfl := Except.ok.inj hresults
    cases i with
    | zero =>
      obtain rfl := Option.some.inj hb
      exact ⟨a, rfl, hc⟩
    | succ i => exact ih hcs hb

/-- Where all steps have succeeded, every result is that of a step. -/
theorem exists_of_mem_mapM {f : α → Except ε β} {l : List α} {results : List β}
    (h : l.mapM f = .ok results) {b : β} (hb : b ∈ results) : ∃ a ∈ l, f a = .ok b := by
  obtain ⟨i, hi⟩ := List.mem_iff_getElem?.1 hb
  obtain ⟨a, ha, hfa⟩ := exists_of_getElem?_mapM h hi
  exact ⟨a, List.mem_of_getElem? ha, hfa⟩

/-- Where all steps have succeeded, what tells from a result what it is for tells all of it. -/
theorem map_eq_of_mapM_eq_ok {f : α → Except ε β} {g : β → α} (hg : ∀ a b, f a = .ok b → g b = a)
    {l : List α} {results : List β} (h : l.mapM f = .ok results) : results.map g = l := by
  induction l generalizing results with
  | nil =>
    obtain rfl := Except.ok.inj h
    rfl
  | cons a l ih =>
    rw [List.mapM_cons] at h
    obtain ⟨b, hb, hrest⟩ := bind_eq_ok_iff.1 h
    obtain ⟨bs, hbs, hresults⟩ := bind_eq_ok_iff.1 hrest
    obtain rfl := Except.ok.inj hresults
    rw [List.map_cons, hg a b hb, ih hbs]

/-- Steps that all succeed, with a result at every place that has a property there. -/
theorem exists_mapM_eq_ok {f : α → Except ε β} {R : Nat → β → Prop} {l : List α}
    (h : ∀ (i : Nat) a, l[i]? = some a → ∃ b, f a = .ok b ∧ R i b) :
    ∃ results, l.mapM f = .ok results ∧ results.length = l.length ∧
      ∀ (i : Nat) b, results[i]? = some b → R i b := by
  induction l generalizing R with
  | nil => exact ⟨[], rfl, rfl, by simp⟩
  | cons a l ih =>
    obtain ⟨b, hb, hR⟩ := h 0 a rfl
    obtain ⟨results, hresults, hlength, hall⟩ := @ih (fun i => R (i + 1)) fun i => h (i + 1)
    refine ⟨b :: results, ?_, by rw [List.length_cons, hlength, List.length_cons], fun i c hc => ?_⟩
    · rw [List.mapM_cons, hb, hresults]
      rfl
    · cases i with
      | zero => exact Option.some.inj hc ▸ hR
      | succ i => exact hall i c hc

/-- Steps that all succeed have the results of the steps, in order. -/
theorem mapM_eq_ok_iff {f : α → Except ε β} {l : List α} {results : List β} :
    l.mapM f = .ok results ↔ List.Forall₂ (fun a b => f a = .ok b) l results := by
  induction l generalizing results with
  | nil => simp [eq_comm]
  | cons a l ih =>
    rw [List.mapM_cons, bind_eq_ok_iff, List.forall₂_cons_left_iff]
    simp only [bind_eq_ok_iff, pure_eq_ok, Except.ok.injEq, ih]
    constructor
    · rintro ⟨b, hb, rest, hrest, rfl⟩
      exact ⟨b, rest, hb, hrest, rfl⟩
    · rintro ⟨b, rest, hb, hrest, rfl⟩
      exact ⟨b, hb, rest, hrest, rfl⟩

/-- Steps are refused for the first one that is. -/
theorem mapM_eq_error_iff {f : α → Except ε β} {l : List α} {e : ε} :
    l.mapM f = .error e ↔ ∃ before a after, l = before ++ a :: after ∧
      (∀ other ∈ before, ∃ b, f other = .ok b) ∧ f a = .error e := by
  induction l with
  | nil => simp
  | cons a l ih =>
    rw [List.mapM_cons, bind_eq_error_iff]
    simp only [bind_eq_error_iff, pure_eq_ok, reduceCtorEq, and_false, exists_false, or_false, ih]
    constructor
    · rintro (ha | ⟨b, hb, before, a', after, rfl, hbefore, ha'⟩)
      · exact ⟨[], a, l, rfl, by simp, ha⟩
      · exact ⟨a :: before, a', after, rfl, List.forall_mem_cons.2 ⟨⟨b, hb⟩, hbefore⟩, ha'⟩
    · rintro ⟨before, a', after, hl, hbefore, ha'⟩
      cases before with
      | nil =>
        obtain ⟨rfl, rfl⟩ := List.cons.inj hl
        exact .inl ha'
      | cons c before =>
        obtain ⟨rfl, rfl⟩ := List.cons.inj hl
        obtain ⟨⟨b, hb⟩, hbefore⟩ := List.forall_mem_cons.1 hbefore
        exact .inr ⟨b, hb, before, a', after, rfl, hbefore, ha'⟩

/-- A result, if there is one, has a property. -/
def Yields (x : Except ε α) (Q : α → Prop) : Prop := ∀ a, x = .ok a → Q a

namespace Yields

variable {Q : β → Prop}

theorem pure {b : β} (h : Q b) : Yields (pure b : Except ε β) Q := by
  rintro _ ⟨⟩
  exact h

theorem error {e : ε} : Yields (.error e : Except ε β) Q := by
  rintro _ ⟨⟩

theorem bind {x : Except ε α} {f : α → Except ε β} (h : ∀ a, x = .ok a → Yields (f a) Q) :
    Yields (x >>= f) Q := by
  intro b hb
  obtain ⟨a, ha, hfa⟩ := bind_eq_ok_iff.1 hb
  exact h a ha b hfa

theorem map {x : Except ε α} {f : α → β} (h : ∀ a, x = .ok a → Q (f a)) : Yields (x.map f) Q := by
  cases x with
  | error e => exact error
  | ok a => exact pure (h a rfl)

end Yields

/-- A refusal, if there is one, has a property. -/
def Refuses (x : Except ε α) (P : ε → Prop) : Prop := ∀ e, x = .error e → P e

namespace Refuses

variable {P : ε → Prop}

theorem ok {a : α} : Refuses (.ok a : Except ε α) P := by
  rintro _ ⟨⟩

theorem error {e : ε} (h : P e) : Refuses (.error e : Except ε α) P := by
  rintro _ ⟨⟩
  exact h

theorem mono {Q : ε → Prop} {x : Except ε α} (h : Refuses x P) (hPQ : ∀ e, P e → Q e) :
    Refuses x Q := fun e he => hPQ e (h e he)

theorem bind {x : Except ε α} {f : α → Except ε β} (hx : Refuses x P)
    (hf : ∀ a, Refuses (f a) P) : Refuses (x >>= f) P := by
  cases x with
  | error e => exact error (hx e rfl)
  | ok a => exact hf a

theorem map {x : Except ε α} (hx : Refuses x P) (f : α → β) : Refuses (x.map f) P := by
  cases x with
  | error e => exact error (hx e rfl)
  | ok a => exact ok

theorem mapM {f : α → Except ε β} (hf : ∀ a, Refuses (f a) P) (l : List α) :
    Refuses (l.mapM f) P := by
  induction l with
  | nil => exact ok
  | cons a l ih =>
    rw [List.mapM_cons]
    exact bind (hf a) fun _ => bind ih fun _ => ok

theorem foldlM {f : β → α → Except ε β} (hf : ∀ b a, Refuses (f b a) P) (b : β) (l : List α) :
    Refuses (l.foldlM f b) P := by
  induction l generalizing b with
  | nil => exact ok
  | cons a l ih =>
    rw [List.foldlM_cons]
    exact bind (hf b a) fun b' => ih b'

end Refuses

/-- Checks that all pass. -/
theorem forM_eq_ok {f : α → Except ε Unit} {l : List α} (h : ∀ a ∈ l, f a = .ok ()) :
    l.forM f = .ok () := by
  induction l with
  | nil => rfl
  | cons a l ih =>
    obtain ⟨ha, hl⟩ := List.forall_mem_cons.1 h
    change (f a >>= fun _ => l.forM f) = _
    rw [ha, ok_bind, ih hl]

/-- Checks go on to the end, or to the first that does not pass. -/
theorem forM_cases (f : α → Except ε Unit) (l : List α) :
    l.forM f = .ok () ∧ (∀ a ∈ l, f a = .ok ()) ∨
      ∃ a ∈ l, ∃ e, f a = .error e ∧ l.forM f = .error e := by
  induction l with
  | nil => exact .inl ⟨rfl, by simp⟩
  | cons a l ih =>
    change (f a >>= fun _ => l.forM f) = _ ∧ _ ∨ ∃ _ ∈ _, ∃ _, _ ∧ (f a >>= fun _ => l.forM f) = _
    cases ha : f a with
    | error e => exact .inr ⟨a, .head _, e, ha, rfl⟩
    | ok _ =>
      obtain ⟨hpass, hall⟩ | ⟨b, hb, e, he, hfail⟩ := ih
      · exact .inl ⟨hpass, List.forall_mem_cons.2 ⟨ha, hall⟩⟩
      · exact .inr ⟨b, .tail _ hb, e, he, hfail⟩

theorem forM_eq_ok_iff {f : α → Except ε Unit} {l : List α} :
    l.forM f = .ok () ↔ ∀ a ∈ l, f a = .ok () := by
  refine ⟨fun hpass => ?_, forM_eq_ok⟩
  obtain ⟨-, hall⟩ | ⟨a, -, e, -, hfail⟩ := forM_cases f l
  · exact hall
  · rw [hpass] at hfail
    cases hfail

end ThresholdKeygen
