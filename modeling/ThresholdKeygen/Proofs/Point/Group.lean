import Mathlib.Algebra.BigOperators.Group.List.Basic
import ThresholdKeygen.Proofs.Point.Laws

/-!
# Points as elements of a group

A backend cannot represent the identity of its group, so that it fails to add up keys that cancel.
Points make up for that. Main statements: for a backend that computes in some abelian group,
`GroupBackend.sum?_eq`, no call of the backend on which a sum depends fails, and
`GroupBackend.value_sum`, the sum is the one in the group.
-/

namespace ThresholdKeygen

variable {K : Type} [Suite K]

/-! ### Computations that may fail -/

namespace Point

/-- The negative of a point; none when the backend refuses the encoding with the other sign. -/
def neg? : Point K → Option (Point K)
  | identity => some identity
  | key k => (Suite.decode? (flipSign (Suite.encode k))).map key

/-- Adds a key to a point; none when the backend fails in a case that it should be able to
compute. -/
def addKey? (acc : Point K) (k : K) : Option (Point K) :=
  match acc with
  | identity => some (key k)
  | key a => do
    if acc == (← neg? (key k)) then some identity
    else (Suite.combine? [a, k]).map key

/-- The sum of some points; none when the backend fails and the sum one by one does so too. -/
def sum? (points : List (Point K)) : Option (Point K) :=
  match keys points with
  | [] => some identity
  | [k] => some (key k)
  | k :: rest =>
    match Suite.combine? (k :: rest) with
    | some s => some (key s)
    | none => rest.foldlM addKey? (key k)

theorem neg_of_neg? {p q : Point K} (h : neg? p = some q) : -p = q := by
  change neg p = q
  cases p with
  | identity => exact Option.some.inj h
  | key k =>
    obtain ⟨k', hk', rfl⟩ := Option.map_eq_some_iff.1 h
    rw [neg, hk']

theorem addKey_of_addKey? {acc q : Point K} {k : K} (h : addKey? acc k = some q) :
    addKey acc k = q := by
  cases acc with
  | identity => exact Option.some.inj h
  | key a =>
    obtain ⟨p, hp, hq⟩ := Option.bind_eq_some_iff.1 h
    have hneg : neg (key k) = p := neg_of_neg? hp
    simp only [addKey, hneg]
    split at hq
    · rw [if_pos ‹_›]
      exact Option.some.inj hq
    · obtain ⟨s, hs, rfl⟩ := Option.map_eq_some_iff.1 hq
      rw [if_neg ‹_›, hs]

theorem foldl_addKey_of_foldlM {ks : List K} {acc q : Point K}
    (h : ks.foldlM addKey? acc = some q) : ks.foldl addKey acc = q := by
  induction ks generalizing acc with
  | nil => exact Option.some.inj h
  | cons k ks ih =>
    rw [List.foldlM_cons] at h
    obtain ⟨p, hp, hq⟩ := Option.bind_eq_some_iff.1 h
    rw [List.foldl_cons, addKey_of_addKey? hp]
    exact ih hq

/-- A sum for which the backend does not fail is the sum that is computed. -/
theorem sum_of_sum? {points : List (Point K)} {q : Point K} (h : sum? points = some q) :
    sum points = q := by
  rw [sum?] at h
  rw [sum]
  match hkeys : keys points with
  | [] =>
    rw [hkeys] at h
    exact Option.some.inj h
  | [k] =>
    rw [hkeys] at h
    exact Option.some.inj h
  | k :: l :: rest =>
    rw [hkeys] at h
    cases hs : Suite.combine? (k :: l :: rest) with
    | some s =>
      simp only [hs] at h ⊢
      exact Option.some.inj h
    | none =>
      simp only [hs] at h ⊢
      exact foldl_addKey_of_foldlM h

end Point

/-! ### Backends -/

/-- How a backend computes in an abelian group: keys are elements of the group other than zero. -/
structure GroupBackend (K : Type) [Suite K] (A : Type*) [AddCommGroup A] where
  element : K → A
  element_ne_zero (k : K) : element k ≠ 0
  element_injective : Function.Injective element
  /-- What a backend adds up is the sum. -/
  combine?_eq_some {ks : List K} {k : K} (hlen : 2 ≤ ks.length) (h : Suite.combine? ks = some k) :
    element k = (ks.map element).sum
  /-- A backend gives up only when some of the keys cancel. -/
  combine?_eq_none {ks : List K} (hlen : 2 ≤ ks.length) (h : Suite.combine? ks = none) :
    ∃ part : List K, part.Sublist ks ∧ part ≠ [] ∧ (part.map element).sum = 0
  /-- The encoding with the other sign belongs to the negative. -/
  decode?_flipSign (k : K) : ∃ k', Suite.decode? (Point.flipSign (Suite.encode k)) = some k' ∧
    element k' = -element k

namespace GroupBackend

variable {A : Type*} [AddCommGroup A] (backend : GroupBackend K A)

/-- The element of the group for which a point stands. -/
def value : Point K → A
  | .identity => 0
  | .key k => backend.element k

@[simp] theorem value_identity : backend.value .identity = 0 := rfl

@[simp] theorem value_key (k : K) : backend.value (.key k) = backend.element k := rfl

theorem value_injective : Function.Injective backend.value := by
  intro p q h
  cases p with
  | identity =>
    cases q with
    | identity => rfl
    | key l => exact absurd h.symm (backend.element_ne_zero l)
  | key k =>
    cases q with
    | identity => exact absurd h (backend.element_ne_zero k)
    | key l => rw [backend.element_injective h]

theorem exists_neg? (p : Point K) :
    ∃ q, Point.neg? p = some q ∧ backend.value q = -backend.value p := by
  cases p with
  | identity => exact ⟨.identity, rfl, neg_zero.symm⟩
  | key k =>
    obtain ⟨k', hk', hneg⟩ := backend.decode?_flipSign k
    exact ⟨.key k', by rw [Point.neg?, hk']; rfl, hneg⟩

/-- A pair of keys that do not cancel can be added up. -/
theorem exists_combine?_pair {a k : K} (hne : backend.element a + backend.element k ≠ 0) :
    ∃ s, Suite.combine? [a, k] = some s ∧
      backend.element s = backend.element a + backend.element k := by
  cases hs : Suite.combine? [a, k] with
  | some s => exact ⟨s, rfl, by simpa using backend.combine?_eq_some (by simp) hs⟩
  | none =>
    obtain ⟨part, hpart, hnil, hsum⟩ := backend.combine?_eq_none (by simp) hs
    exfalso
    simp only [List.sublist_cons_iff, List.sublist_nil] at hpart
    rcases hpart with (rfl | ⟨_, rfl, rfl⟩) | ⟨_, rfl, rfl | ⟨_, rfl, rfl⟩⟩
    · exact hnil rfl
    · exact backend.element_ne_zero k (by simpa using hsum)
    · exact backend.element_ne_zero a (by simpa using hsum)
    · exact hne (by simpa using hsum)

variable [LawfulEncoding K]

theorem exists_addKey? (acc : Point K) (k : K) :
    ∃ q, Point.addKey? acc k = some q ∧
      backend.value q = backend.value acc + backend.element k := by
  cases acc with
  | identity => exact ⟨.key k, rfl, (zero_add _).symm⟩
  | key a =>
    obtain ⟨p, hp, hvalue⟩ := backend.exists_neg? (.key k)
    rw [value_key] at hvalue
    have hcancel : Point.key a = p ↔ backend.element a + backend.element k = 0 := by
      rw [← backend.value_injective.eq_iff, hvalue, value_key, eq_neg_iff_add_eq_zero]
    by_cases h : Point.key a = p
    · refine ⟨.identity, ?_, (hcancel.1 h).symm⟩
      simp [Point.addKey?, hp, h]
    · obtain ⟨s, hs, hsum⟩ := backend.exists_combine?_pair (mt hcancel.2 h)
      refine ⟨.key s, ?_, hsum⟩
      simp [Point.addKey?, hp, h, hs]

/-- Adding keys one by one never fails, whatever cancels on the way. -/
theorem exists_foldlM_addKey? (ks : List K) (acc : Point K) :
    ∃ q, ks.foldlM Point.addKey? acc = some q ∧
      backend.value q = backend.value acc + (ks.map backend.element).sum := by
  induction ks generalizing acc with
  | nil => exact ⟨acc, rfl, (add_zero _).symm⟩
  | cons k ks ih =>
    obtain ⟨p, hp, hstep⟩ := backend.exists_addKey? acc k
    obtain ⟨q, hq, hrest⟩ := ih p
    refine ⟨q, by rw [List.foldlM_cons, hp]; exact hq, ?_⟩
    rw [hrest, hstep, List.map_cons, List.sum_cons, add_assoc]

omit [LawfulEncoding K] in
/-- The identity contributes nothing to a sum. -/
theorem sum_element_keys (points : List (Point K)) :
    ((Point.keys points).map backend.element).sum = (points.map backend.value).sum := by
  induction points with
  | nil => rfl
  | cons p points ih =>
    cases p with
    | identity => simpa [Point.keys] using ih
    | key k => simpa [Point.keys] using ih

theorem exists_sum? (points : List (Point K)) :
    ∃ q, Point.sum? points = some q ∧ backend.value q = (points.map backend.value).sum := by
  rw [← backend.sum_element_keys, Point.sum?]
  match Point.keys points with
  | [] => exact ⟨.identity, rfl, rfl⟩
  | [k] => exact ⟨.key k, rfl, by simp⟩
  | k :: l :: rest =>
    cases hs : Suite.combine? (k :: l :: rest) with
    | some s =>
      simp only [hs]
      exact ⟨.key s, rfl, backend.combine?_eq_some (by simp) hs⟩
    | none =>
      simp only [hs]
      exact backend.exists_foldlM_addKey? (l :: rest) (.key k)

/-! ### What is computed -/

include backend in
theorem sum?_eq (points : List (Point K)) : Point.sum? points = some (Point.sum points) := by
  obtain ⟨q, hq, -⟩ := backend.exists_sum? points
  rw [hq, Point.sum_of_sum? hq]

theorem value_sum (points : List (Point K)) :
    backend.value (Point.sum points) = (points.map backend.value).sum := by
  obtain ⟨q, hq, hvalue⟩ := backend.exists_sum? points
  rw [Point.sum_of_sum? hq, hvalue]

omit [LawfulEncoding K] in
include backend in
theorem neg?_eq (p : Point K) : Point.neg? p = some (-p) := by
  obtain ⟨q, hq, -⟩ := backend.exists_neg? p
  rw [hq, Point.neg_of_neg? hq]

omit [LawfulEncoding K] in
theorem value_neg (p : Point K) : backend.value (-p) = -backend.value p := by
  obtain ⟨q, hq, hvalue⟩ := backend.exists_neg? p
  rw [Point.neg_of_neg? hq, hvalue]

theorem value_add (p q : Point K) : backend.value (p + q) = backend.value p + backend.value q := by
  change backend.value (Point.sum [p, q]) = _
  simp [value_sum]

theorem value_sub (p q : Point K) : backend.value (p - q) = backend.value p - backend.value q := by
  change backend.value (Point.sum [p, -q]) = _
  simp [value_sum, value_neg, sub_eq_add_neg]

end GroupBackend

end ThresholdKeygen
