import Mathlib.Data.List.Nodup
import Mathlib.Data.List.Perm.Basic
import ThresholdKeygen.Mapping

/-!
# Mappings by their values

A mapping is known up to the order of its entries by the value of every key. Main statement:
`entries_perm`, the entries of a mapping whose keys and values are known.
-/

namespace ThresholdKeygen.Mapping

variable {κ α β : Type} [DecidableEq κ]

@[simp] theorem get?_empty (k : κ) : (empty : Mapping κ α).get? k = none := rfl

theorem mem_of_findEntry {entries : List (κ × α)} {k : κ} {a : α}
    (h : findEntry k entries = some a) : (k, a) ∈ entries := by
  induction entries with
  | nil => cases h
  | cons entry rest ih =>
    rw [findEntry] at h
    split at h
    · rename_i hk
      rw [← hk, ← Option.some.inj h]
      exact .head _
    · exact .tail _ (ih h)

theorem findEntry_eq_some_iff {entries : List (κ × α)} (h : (entries.map Prod.fst).Nodup) {k : κ}
    {a : α} : findEntry k entries = some a ↔ (k, a) ∈ entries := by
  induction entries with
  | nil => simp [findEntry]
  | cons entry rest ih =>
    obtain ⟨j, b⟩ := entry
    rw [List.map_cons, List.nodup_cons] at h
    by_cases hj : j = k
    · subst hj
      have hrest : (j, a) ∉ rest := fun hmem => h.1 (List.mem_map.2 ⟨(j, a), hmem, rfl⟩)
      simp [findEntry, hrest, eq_comm]
    · simp [findEntry, hj, Ne.symm hj, ih h.2]

theorem findEntry_eq_none {entries : List (κ × α)} {k : κ} (h : k ∉ entries.map Prod.fst) :
    findEntry k entries = none :=
  Option.eq_none_iff_forall_ne_some.2 fun a ha =>
    h (List.mem_map.2 ⟨(k, a), mem_of_findEntry ha, rfl⟩)

theorem get?_eq_some_iff {m : Mapping κ α} {k : κ} {a : α} :
    m.get? k = some a ↔ (k, a) ∈ m.entries := findEntry_eq_some_iff m.nodup_keys

/-- Mappings with the same values have the same entries, up to their order. -/
theorem entries_perm_of_get?_eq {m m' : Mapping κ α} (h : ∀ k, m.get? k = m'.get? k) :
    m.entries.Perm m'.entries := by
  refine (List.perm_ext_iff_of_nodup (List.Nodup.of_map Prod.fst m.nodup_keys)
    (List.Nodup.of_map Prod.fst m'.nodup_keys)).2 fun ⟨k, a⟩ => ?_
  rw [← get?_eq_some_iff, ← get?_eq_some_iff, h]

theorem mem_keys_iff {m : Mapping κ α} {k : κ} : k ∈ m.keys ↔ (m.get? k).isSome := by
  rw [Option.isSome_iff_exists, keys, List.mem_map]
  constructor
  · rintro ⟨⟨_, a⟩, hmem, rfl⟩
    exact ⟨a, get?_eq_some_iff.2 hmem⟩
  · rintro ⟨a, ha⟩
    exact ⟨(k, a), get?_eq_some_iff.1 ha, rfl⟩

theorem findEntry_map (f : α → β) (k : κ) (entries : List (κ × α)) :
    findEntry k (entries.map fun (j, a) => (j, f a)) = (findEntry k entries).map f := by
  induction entries with
  | nil => rfl
  | cons entry rest ih =>
    obtain ⟨j, a⟩ := entry
    by_cases hj : j = k
    · simp [findEntry, hj]
    · simpa [findEntry, hj] using ih

@[simp] theorem get?_map (f : α → β) (m : Mapping κ α) (k : κ) :
    (m.map f).get? k = (m.get? k).map f := findEntry_map f k m.entries

theorem findEntry_filter_ne (k j : κ) (entries : List (κ × α)) :
    findEntry j (entries.filter fun entry => entry.1 ≠ k) =
      if j = k then none else findEntry j entries := by
  induction entries with
  | nil => simp [findEntry]
  | cons entry rest ih =>
    obtain ⟨i, b⟩ := entry
    by_cases hik : i = k
    · subst hik
      by_cases hji : j = i
      · simpa [hji] using ih
      · simpa [findEntry, hji, Ne.symm hji] using ih
    · by_cases hij : i = j
      · subst hij
        simp [findEntry, hik]
      · simpa [findEntry, hik, hij] using ih

@[simp] theorem get?_erase (m : Mapping κ α) (k j : κ) :
    (m.erase k).get? j = if j = k then none else m.get? j :=
  findEntry_filter_ne k j m.entries

/-- Giving a key its value, or taking it away, changes the value of no other key. -/
@[simp] theorem get?_assign (m : Mapping κ α) (k j : κ) (choice : Option α) :
    (m.assign k choice).get? j = if j = k then choice else m.get? j := by
  cases choice with
  | some a => exact get?_put m k j a
  | none => exact get?_erase m k j

omit [DecidableEq κ] in
@[simp] theorem keys_map (f : α → β) (m : Mapping κ α) : (m.map f).keys = m.keys := by
  simp [map, keys, Function.comp_def]

theorem get?_putAll (m : Mapping κ α) (keys : List κ) (g : κ → α) (k : κ) :
    (m.putAll (keys.map fun j => (j, g j))).get? k =
      if k ∈ keys then some (g k) else m.get? k := by
  induction keys generalizing m with
  | nil => rfl
  | cons j keys ih =>
    rw [List.map_cons, putAll, List.foldl_cons]
    change ((m.put j (g j)).putAll _).get? k = _
    rw [ih, get?_put]
    by_cases hk : k ∈ keys
    · simp [hk]
    · by_cases hj : k = j
      · simp [hj]
      · simp [hk, hj]

/-- Storing entries one after the other changes the values of their keys alone. -/
theorem get?_putAll_eq_or_mem (m : Mapping κ α) (entries : List (κ × α)) (k : κ) :
    (m.putAll entries).get? k = m.get? k ∨
      ∃ a, (k, a) ∈ entries ∧ (m.putAll entries).get? k = some a := by
  induction entries generalizing m with
  | nil => exact .inl rfl
  | cons entry rest ih =>
    obtain ⟨j, b⟩ := entry
    obtain hrest | ⟨a, hmem, ha⟩ := ih (m.put j b)
    · by_cases hk : k = j
      · exact .inr ⟨b, by simp [hk], hrest.trans (by simp [hk])⟩
      · exact .inl (hrest.trans (by simp [hk]))
    · exact .inr ⟨a, .tail _ hmem, ha⟩

/-- Storing all entries of a mapping, one after the other. -/
theorem get?_putAll_entries (m other : Mapping κ α) (k : κ) :
    (m.putAll other.entries).get? k = (other.get? k).or (m.get? k) := by
  obtain ⟨entries, hnodup⟩ := other
  change (m.putAll entries).get? k = (findEntry k entries).or (m.get? k)
  induction entries generalizing m with
  | nil => rfl
  | cons entry rest ih =>
    obtain ⟨j, a⟩ := entry
    rw [List.map_cons, List.nodup_cons] at hnodup
    rw [putAll, List.foldl_cons]
    change ((m.put j a).putAll rest).get? k = _
    rw [ih _ hnodup.2, get?_put, findEntry]
    by_cases hk : k = j
    · subst hk
      simp [findEntry_eq_none hnodup.1]
    · simp [hk, Ne.symm hk]

/-- The values of keys, some of which are taken away, one after the other. -/
def assignAll (m : Mapping κ α) (entries : List (κ × Option α)) : Mapping κ α :=
  entries.foldl (fun m entry => m.assign entry.1 entry.2) m

theorem get?_assignAll (m : Mapping κ α) {entries : List (κ × Option α)}
    (h : (entries.map Prod.fst).Nodup) (k : κ) :
    (m.assignAll entries).get? k = (findEntry k entries).getD (m.get? k) := by
  induction entries generalizing m with
  | nil => rfl
  | cons entry rest ih =>
    obtain ⟨j, choice⟩ := entry
    rw [List.map_cons, List.nodup_cons] at h
    rw [assignAll, List.foldl_cons]
    change ((m.assign j choice).assignAll rest).get? k = _
    rw [ih _ h.2, get?_assign, findEntry]
    by_cases hk : k = j
    · subst hk
      simp [findEntry_eq_none h.1]
    · simp [hk, Ne.symm hk]

theorem get?_ofList (keys : List κ) (g : κ → α) (k : κ) :
    (ofList (keys.map fun j => (j, g j))).get? k = if k ∈ keys then some (g k) else none :=
  get?_putAll empty keys g k

theorem putEntry_eq_append {k : κ} {a : α} {entries : List (κ × α)}
    (hk : k ∉ entries.map Prod.fst) : putEntry k a entries = entries ++ [(k, a)] := by
  induction entries with
  | nil => rfl
  | cons entry rest ih =>
    obtain ⟨j, b⟩ := entry
    rw [List.map_cons, List.mem_cons, not_or] at hk
    rw [putEntry, if_neg (Ne.symm hk.1), ih hk.2]
    rfl

/-- A list with different keys is kept as it is. -/
theorem entries_ofList {entries : List (κ × α)} (h : (entries.map Prod.fst).Nodup) :
    (ofList entries).entries = entries := by
  suffices hfold : ∀ (m : Mapping κ α), ((m.entries ++ entries).map Prod.fst).Nodup →
      (m.putAll entries).entries = m.entries ++ entries from hfold empty h
  induction entries with
  | nil => intro m _; rw [List.append_nil]; rfl
  | cons entry rest ih =>
    intro m hnodup
    obtain ⟨k, a⟩ := entry
    have hk : k ∉ m.entries.map Prod.fst := by
      rw [List.map_append, List.nodup_append] at hnodup
      exact fun hmem => hnodup.2.2 k hmem k (.head _) rfl
    have hput : (m.put k a).entries = m.entries ++ [(k, a)] := putEntry_eq_append hk
    rw [List.map_cons, List.nodup_cons] at h
    have hrest := ih h.2 (m.put k a) (by rw [hput]; simpa using hnodup)
    rw [hput, List.append_assoc] at hrest
    exact hrest

section Known

variable {m : Mapping κ α} {keys : List κ} {g : κ → α}

/-- The entries of a mapping, given its keys and the value of each. -/
theorem entries_perm (hkeys : keys.Nodup)
    (h : ∀ k, m.get? k = if k ∈ keys then some (g k) else none) :
    m.entries.Perm (keys.map fun k => (k, g k)) := by
  refine (List.perm_ext_iff_of_nodup (List.Nodup.of_map Prod.fst m.nodup_keys)
    (hkeys.map fun _ _ h => congrArg Prod.fst h)).2 fun ⟨k, a⟩ => ?_
  rw [← get?_eq_some_iff, h, List.mem_map]
  constructor
  · intro ha
    split at ha
    · exact ⟨k, ‹_›, by rw [Option.some.inj ha]⟩
    · simp at ha
  · rintro ⟨_, hk, heq⟩
    obtain ⟨rfl, rfl⟩ := Prod.mk.inj heq
    exact if_pos hk

theorem values_perm (hkeys : keys.Nodup)
    (h : ∀ k, m.get? k = if k ∈ keys then some (g k) else none) : m.values.Perm (keys.map g) := by
  have hperm := (entries_perm hkeys h).map Prod.snd
  simpa [values, Function.comp_def] using hperm

end Known

end ThresholdKeygen.Mapping
