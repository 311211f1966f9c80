/-!
# Ascending lists of numbers

Sets of positions and share indices are shown as strictly ascending lists. Main statements: a list
and its ascending form have the same elements, and the ascending form is strictly ascending.
-/

namespace ThresholdKeygen

/-- Inserts a number into an ascending list, unless it is already there. -/
def insertAscending (x : Int) : List Int → List Int
  | [] => [x]
  | y :: rest =>
    if x < y then x :: y :: rest
    else if x = y then y :: rest
    else y :: insertAscending x rest

/-- The elements of a list, ascending and without repetitions. -/
def ascending (xs : List Int) : List Int :=
  xs.foldr insertAscending []

theorem mem_insertAscending {a x : Int} {xs : List Int} :
    a ∈ insertAscending x xs ↔ a = x ∨ a ∈ xs := by
  induction xs with
  | nil => simp [insertAscending]
  | cons y rest ih =>
    unfold insertAscending
    split
    · simp
    · split
      · simp_all
      · rw [List.mem_cons, List.mem_cons, ih, or_left_comm]

@[simp] theorem mem_ascending {a : Int} {xs : List Int} : a ∈ ascending xs ↔ a ∈ xs := by
  induction xs with
  | nil => simp [ascending]
  | cons x xs ih => simpa [ascending, mem_insertAscending] using or_congr_right ih

theorem pairwise_insertAscending {x : Int} {xs : List Int} (h : xs.Pairwise (· < ·)) :
    (insertAscending x xs).Pairwise (· < ·) := by
  induction xs with
  | nil => simp [insertAscending]
  | cons y rest ih =>
    obtain ⟨hy, hrest⟩ := List.pairwise_cons.1 h
    unfold insertAscending
    split
    · refine List.pairwise_cons.2 ⟨fun z hz => ?_, h⟩
      rcases List.mem_cons.1 hz with rfl | hz
      · assumption
      · exact Int.lt_trans ‹x < y› (hy z hz)
    · split
      · exact h
      · refine List.pairwise_cons.2 ⟨fun z hz => ?_, ih hrest⟩
        rcases mem_insertAscending.1 hz with rfl | hz
        · omega
        · exact hy z hz

theorem pairwise_ascending (xs : List Int) : (ascending xs).Pairwise (· < ·) := by
  induction xs with
  | nil => exact .nil
  | cons x xs ih => exact pairwise_insertAscending ih

/-- A list in strictly ascending order is kept as it is. -/
theorem ascending_eq_self {xs : List Int} (h : xs.Pairwise (· < ·)) : ascending xs = xs := by
  induction xs with
  | nil => rfl
  | cons x xs ih =>
    obtain ⟨hx, hxs⟩ := List.pairwise_cons.1 h
    rw [ascending, List.foldr_cons]
    change insertAscending x (ascending xs) = _
    rw [ih hxs]
    cases xs with
    | nil => rfl
    | cons y rest => exact if_pos (hx y (.head _))

/-- The numbers `1, …, n`, none when `n` is not positive. -/
def upTo (n : Int) : List Int :=
  (List.range n.toNat).map fun i : Nat => (i : Int) + 1

@[simp] theorem mem_upTo {n x : Int} : x ∈ upTo n ↔ 1 ≤ x ∧ x ≤ n := by
  simp only [upTo, List.mem_map, List.mem_range]
  constructor
  · rintro ⟨i, hi, rfl⟩
    omega
  · rintro ⟨h₁, h₂⟩
    exact ⟨(x - 1).toNat, by omega, by omega⟩

@[simp] theorem length_upTo (n : Int) : (upTo n).length = n.toNat := by simp [upTo]

/-- Every number has its place, counted from zero. -/
theorem getElem?_upTo {n x : Int} (h₁ : 1 ≤ x) (h₂ : x ≤ n) :
    (upTo n)[(x - 1).toNat]? = some x := by
  rw [upTo, List.getElem?_map, List.getElem?_range (by omega), Option.map_some]
  exact congrArg some (by omega)

theorem pairwise_upTo (n : Int) : (upTo n).Pairwise (· < ·) := by
  rw [upTo, List.pairwise_map]
  exact List.pairwise_lt_range.imp fun h => by omega

theorem nodup_upTo (n : Int) : (upTo n).Nodup :=
  (pairwise_upTo n).imp fun h => Int.ne_of_lt h

/-- A list of numbers in brackets, separated by commas. -/
def listText (xs : List Int) : String :=
  "[" ++ ", ".intercalate (xs.map toString) ++ "]"

end ThresholdKeygen
