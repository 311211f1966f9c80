/-!
# Mappings

Finite mappings that remember the order in which their keys were first given a value. A value given
to a known key takes the place of the old one.
-/

namespace ThresholdKeygen

/-- A finite mapping from `κ` to `α`, its entries in order of first insertion. -/
structure Mapping (κ α : Type) where
  entries : List (κ × α)
  nodup_keys : (entries.map Prod.fst).Nodup

namespace Mapping

variable {κ α : Type}

/-- The keys, in order of insertion. -/
def keys (m : Mapping κ α) : List κ := m.entries.map Prod.fst

/-- The values, in order of insertion of their keys. -/
def values (m : Mapping κ α) : List α := m.entries.map Prod.snd

/-- The mapping without entries. -/
def empty : Mapping κ α := ⟨[], .nil⟩

instance : Inhabited (Mapping κ α) := ⟨empty⟩

/-- Applies a function to every value. -/
def map {β : Type} (f : α → β) (m : Mapping κ α) : Mapping κ β :=
  ⟨m.entries.map fun (k, a) => (k, f a), by simpa [Function.comp_def] using m.nodup_keys⟩

theorem values_map {β : Type} (f : α → β) (m : Mapping κ α) :
    (m.map f).values = m.values.map f := by
  simp [map, values]

/-- The entries whose value is there. -/
def presentEntries : List (κ × Option α) → List (κ × α)
  | [] => []
  | (k, some a) :: rest => (k, a) :: presentEntries rest
  | (_, none) :: rest => presentEntries rest

theorem presentEntries_sublist (entries : List (κ × Option α)) :
    ((presentEntries entries).map Prod.fst).Sublist (entries.map Prod.fst) := by
  fun_induction presentEntries entries with
  | case1 => exact .slnil
  | case2 _ _ _ ih => exact ih.cons_cons _
  | case3 _ _ ih => exact ih.cons _

theorem presentEntries_map_some (entries : List (κ × α)) :
    presentEntries (entries.map fun (k, a) => (k, some a)) = entries := by
  induction entries with
  | nil => rfl
  | cons entry rest ih => simp [presentEntries, ih]

theorem map_some_presentEntries {entries : List (κ × Option α)}
    (h : ∀ entry ∈ entries, entry.2.isSome) :
    (presentEntries entries).map (fun (k, a) => (k, some a)) = entries := by
  fun_induction presentEntries entries with
  | case1 => rfl
  | case2 k a rest ih => rw [List.map_cons, ih fun entry hentry => h entry (.tail _ hentry)]
  | case3 k rest => simpa using h (k, none) (.head _)

/-- The mapping of the values that are there. -/
def present (m : Mapping κ (Option α)) : Mapping κ α :=
  ⟨presentEntries m.entries, m.nodup_keys.sublist (presentEntries_sublist m.entries)⟩

@[simp] theorem present_map_some (m : Mapping κ α) : (m.map some).present = m := by
  simp [map, present, presentEntries_map_some]

variable [DecidableEq κ]

/-- The value of the first entry with a key. -/
def findEntry (k : κ) : List (κ × α) → Option α
  | [] => none
  | (j, a) :: rest => if j = k then some a else findEntry k rest

/-- The value of a key. -/
def get? (m : Mapping κ α) (k : κ) : Option α := findEntry k m.entries

/-- Gives a key its value in a list of entries. -/
def putEntry (k : κ) (a : α) : List (κ × α) → List (κ × α)
  | [] => [(k, a)]
  | (j, b) :: rest => if j = k then (k, a) :: rest else (j, b) :: putEntry k a rest

theorem keys_putEntry (k : κ) (a : α) (entries : List (κ × α)) :
    (putEntry k a entries).map Prod.fst =
      if k ∈ entries.map Prod.fst then entries.map Prod.fst else entries.map Prod.fst ++ [k] := by
  induction entries with
  | nil => rfl
  | cons entry rest ih =>
    obtain ⟨j, b⟩ := entry
    by_cases h : j = k
    · simp [putEntry, h]
    · by_cases hk : k ∈ rest.map Prod.fst <;> simp_all [putEntry, Ne.symm h, eq_comm]

theorem nodup_putEntry (k : κ) (a : α) {entries : List (κ × α)}
    (h : (entries.map Prod.fst).Nodup) : ((putEntry k a entries).map Prod.fst).Nodup := by
  rw [keys_putEntry]
  split
  · exact h
  · rw [List.nodup_append]
    refine ⟨h, by simp, fun x hx y hy => ?_⟩
    rintro rfl
    simp only [List.mem_singleton] at hy
    exact absurd (hy ▸ hx) ‹_›

/-- Gives a key its value. -/
def put (m : Mapping κ α) (k : κ) (a : α) : Mapping κ α :=
  ⟨putEntry k a m.entries, nodup_putEntry k a m.nodup_keys⟩

theorem findEntry_putEntry (k j : κ) (a : α) (entries : List (κ × α)) :
    findEntry j (putEntry k a entries) = if j = k then some a else findEntry j entries := by
  induction entries with
  | nil => simp [putEntry, findEntry, eq_comm]
  | cons entry rest ih =>
    obtain ⟨i, b⟩ := entry
    by_cases hik : i = k
    · subst hik
      by_cases hij : j = i
      · simp [putEntry, findEntry, hij]
      · simp [putEntry, findEntry, hij, Ne.symm hij]
    · by_cases hij : i = j
      · subst hij
        simp [putEntry, findEntry, hik]
      · simp [putEntry, findEntry, hik, hij, ih]

@[simp] theorem get?_put (m : Mapping κ α) (k j : κ) (a : α) :
    (m.put k a).get? j = if j = k then some a else m.get? j :=
  findEntry_putEntry k j a m.entries

/-- Takes a key and its value away. -/
def erase (m : Mapping κ α) (k : κ) : Mapping κ α :=
  ⟨m.entries.filter fun entry => entry.1 ≠ k, (m.nodup_keys).sublist (List.filter_sublist.map _)⟩

/-- Gives a key its value, or takes the key away. -/
def assign (m : Mapping κ α) (k : κ) : Option α → Mapping κ α
  | some a => m.put k a
  | none => m.erase k

/-- The mapping of a list of entries; the last value of a key counts. -/
def ofList (entries : List (κ × α)) : Mapping κ α :=
  entries.foldl (fun m (k, a) => m.put k a) empty

/-- Gives each entry of a list its value in turn. -/
def putAll (m : Mapping κ α) (entries : List (κ × α)) : Mapping κ α :=
  entries.foldl (fun m (k, a) => m.put k a) m

end Mapping

end ThresholdKeygen
