import Mathlib.Tactic.Ring
import ThresholdKeygen.KeyPartition
import ThresholdKeygen.Proofs.Mapping
import ThresholdKeygen.Proofs.Refusal

/-!
# Ranges of keys

The ranges of the parties are consecutive and end with the last key, whatever the remainder, so that
every key has exactly one owner. Main statements: `exists_owner`, `Owns.unique`, and `ranges_get?`,
that the computed ranges are these.
-/

namespace ThresholdKeygen

namespace KeySet

theorem nodup_scan (s : KeySet) : s.scan.Nodup :=
  (List.mergeSort_perm _ _).nodup_iff.2 s.nodup_members

end KeySet

namespace KeyPartition

variable (parties keys : Int)

/-- The number of keys of the party at a position. -/
def rangeSize (position : Int) : Int :=
  keys / parties + if position ≤ keys % parties then 1 else 0

/-- The first key of the party at a position. -/
def firstKey (position : Int) : Int :=
  1 + (position - 1) * (keys / parties) + min (position - 1) (keys % parties)

/-- That a key is in the range of the party at a position. -/
def Owns (position key : Int) : Prop :=
  firstKey parties keys position ≤ key ∧ key < firstKey parties keys (position + 1)

variable {parties keys}

theorem firstKey_succ (position : Int) :
    firstKey parties keys (position + 1) =
      firstKey parties keys position + rangeSize parties keys position := by
  have hmin : min (position + 1 - 1) (keys % parties) =
      min (position - 1) (keys % parties) + if position ≤ keys % parties then 1 else 0 := by
    split <;> omega
  rw [firstKey, firstKey, rangeSize, hmin]
  ring

section Bounds

variable (hparties : 1 ≤ parties) (hkeys : parties ≤ keys)

include hparties

theorem firstKey_one : firstKey parties keys 1 = 1 := by
  have hremainder := Int.emod_nonneg keys (show parties ≠ 0 by omega)
  rw [firstKey, Int.sub_self, Int.zero_mul]
  omega

/-- The ranges end with the last key. -/
theorem firstKey_last : firstKey parties keys (parties + 1) = keys + 1 := by
  have hremainder := Int.emod_lt_of_pos keys (show 0 < parties by omega)
  have hdivision := Int.mul_ediv_add_emod keys parties
  rw [firstKey, Int.add_sub_cancel]
  omega

include hkeys

theorem firstKey_mono {i j : Int} (h : i ≤ j) :
    firstKey parties keys i ≤ firstKey parties keys j := by
  have hquotient : 0 ≤ keys / parties := Int.ediv_nonneg (by omega) (by omega)
  have hproduct := Int.mul_le_mul_of_nonneg_right (show i - 1 ≤ j - 1 by omega) hquotient
  rw [firstKey, firstKey]
  omega

/-- No key has two owners. -/
theorem Owns.unique {i j key : Int} (hi : Owns parties keys i key) (hj : Owns parties keys j key) :
    i = j := by
  have hlast := hi.2
  have hlast' := hj.2
  have hfirst := hi.1
  have hfirst' := hj.1
  rcases Int.lt_trichotomy i j with h | h | h
  · have := firstKey_mono hparties hkeys (show i + 1 ≤ j by omega)
    omega
  · exact h
  · have := firstKey_mono hparties hkeys (show j + 1 ≤ i by omega)
    omega

/-- Only keys have owners. -/
theorem Owns.mem_upTo {i key : Int} (h : Owns parties keys i key) (hi : i ∈ upTo parties) :
    key ∈ upTo keys := by
  obtain ⟨hi₁, hi₂⟩ := ThresholdKeygen.mem_upTo.1 hi
  have hstart := firstKey_mono hparties hkeys hi₁
  have hend := firstKey_mono hparties hkeys (show i + 1 ≤ parties + 1 by omega)
  rw [firstKey_one hparties] at hstart
  rw [firstKey_last hparties] at hend
  exact ThresholdKeygen.mem_upTo.2 ⟨by have := h.1; omega, by have := h.2; omega⟩

omit hkeys in
/-- Every key has an owner. -/
theorem exists_owner {key : Int} (hkey : key ∈ upTo keys) :
    ∃ i ∈ upTo parties, Owns parties keys i key := by
  obtain ⟨hkey₁, hkey₂⟩ := ThresholdKeygen.mem_upTo.1 hkey
  have hsearch : ∀ m : Nat, key < firstKey parties keys (m + 1) →
      ∃ i : Int, 1 ≤ i ∧ i ≤ m ∧ Owns parties keys i key := by
    intro m
    induction m with
    | zero =>
      intro hlt
      have hone : firstKey parties keys 1 = 1 := firstKey_one hparties
      rw [Int.natCast_zero, Int.zero_add] at hlt
      omega
    | succ m ih =>
      intro hlt
      by_cases hbefore : key < firstKey parties keys (m + 1)
      · obtain ⟨i, hi₁, hi₂, howns⟩ := ih hbefore
        exact ⟨i, hi₁, by omega, howns⟩
      · rw [Nat.cast_succ] at hlt
        exact ⟨m + 1, by omega, by omega, not_lt.1 hbefore, hlt⟩
  have hlast : firstKey parties keys (parties + 1) = keys + 1 := firstKey_last hparties
  have hcast : (parties.toNat : Int) = parties := by omega
  obtain ⟨i, hi₁, hi₂, howns⟩ := hsearch parties.toNat (by rw [hcast]; omega)
  exact ⟨i, ThresholdKeygen.mem_upTo.2 ⟨hi₁, by omega⟩, howns⟩

omit hkeys in
/-- With as many keys as parties, the only key of a party is its position. -/
theorem owns_iff_eq {i key : Int} (hi : 1 ≤ i) : Owns parties parties i key ↔ key = i := by
  have hself : parties / parties = 1 := Int.ediv_self (by omega)
  rw [Owns, firstKey, firstKey, hself, Int.emod_self]
  omega

end Bounds

/-! ### Computed ranges -/

theorem counts_eq (hparties : 1 ≤ parties) (hkeys : parties ≤ keys) :
    counts parties keys = .ok (.ofList ((upTo parties).map fun i =>
      (i, rangeSize parties keys i))) := by
  rw [counts, if_neg (by omega), if_neg (by omega)]
  rfl

theorem consecutive_eq (parties keys : Int) (m : Nat) (i : Int) :
    consecutive (firstKey parties keys i)
      ((List.range m).map fun j : Nat => (j + i, rangeSize parties keys (j + i))) =
      (List.range m).map fun j : Nat =>
        (j + i, firstKey parties keys (j + i), firstKey parties keys (j + i + 1)) := by
  induction m generalizing i with
  | zero => rfl
  | succ m ih =>
    have hshift : ∀ j : Nat, ((j + 1 : Nat) : Int) + i = j + (i + 1) := by omega
    rw [List.range_succ_eq_map, List.map_cons, List.map_cons, List.map_map, List.map_map,
      consecutive]
    simp only [Function.comp_def, Nat.succ_eq_add_one, hshift, Int.natCast_zero, Int.zero_add,
      ← firstKey_succ, ih]

/-- The computed ranges are those of the owners. -/
theorem ranges_eq (hparties : 1 ≤ parties) :
    ranges (.ofList ((upTo parties).map fun i => (i, rangeSize parties keys i))) =
      .ofList ((upTo parties).map fun i =>
        (i, firstKey parties keys i, firstKey parties keys (i + 1))) := by
  have hnodup : (((upTo parties).map fun i => (i, rangeSize parties keys i)).map
      Prod.fst).Nodup := by
    simpa [Function.comp_def] using nodup_upTo parties
  have hsorted : ((upTo parties).map fun i => (i, rangeSize parties keys i)).Pairwise
      fun a b => decide (a.1 ≤ b.1) = true := by
    rw [List.pairwise_map]
    exact (pairwise_upTo parties).imp fun h => decide_eq_true (Int.le_of_lt h)
  have hlist : ∀ {β : Type} (g : Int → β), (upTo parties).map (fun i => (i, g i)) =
      (List.range parties.toNat).map fun j : Nat => ((j : Int) + 1, g (j + 1)) := by
    intro β g
    rw [upTo, List.map_map]
    rfl
  have hconsecutive := consecutive_eq parties keys parties.toNat 1
  rw [firstKey_one hparties, ← hlist, ← hlist fun i =>
    (firstKey parties keys i, firstKey parties keys (i + 1))] at hconsecutive
  rw [ranges, Mapping.entries_ofList hnodup, List.mergeSort_of_pairwise hsorted, hconsecutive]

theorem get?_ranges (hparties : 1 ≤ parties) (i : Int) :
    (ranges (.ofList ((upTo parties).map fun i => (i, rangeSize parties keys i)))).get? i =
      if i ∈ upTo parties then some (firstKey parties keys i, firstKey parties keys (i + 1))
      else none := by
  rw [ranges_eq hparties, Mapping.get?_ofList]

theorem ranges_get? (hparties : 1 ≤ parties) {i : Int} (hi : i ∈ upTo parties) :
    (ranges (.ofList ((upTo parties).map fun i => (i, rangeSize parties keys i)))).get? i =
      some (firstKey parties keys i, firstKey parties keys (i + 1)) :=
  (get?_ranges hparties i).trans (if_pos hi)

theorem keys_ranges (hparties : 1 ≤ parties) :
    (ranges (.ofList ((upTo parties).map fun i => (i, rangeSize parties keys i)))).keys =
      upTo parties := by
  have hnodup : (((upTo parties).map fun i =>
      (i, firstKey parties keys i, firstKey parties keys (i + 1))).map Prod.fst).Nodup := by
    simpa [Function.comp_def] using nodup_upTo parties
  rw [ranges_eq hparties, Mapping.keys, Mapping.entries_ofList hnodup, List.map_map]
  exact List.map_id _

theorem mem_keysOfRange {first next key : Int} :
    key ∈ keysOfRange (first, next) ↔ first ≤ key ∧ key < next := by
  rw [keysOfRange, List.mem_map]
  constructor
  · rintro ⟨i, hi, rfl⟩
    obtain ⟨h₁, h₂⟩ := mem_upTo.1 hi
    dsimp only at h₂ ⊢
    omega
  · rintro ⟨h₁, h₂⟩
    exact ⟨key - first + 1, mem_upTo.2 ⟨by omega, by dsimp only; omega⟩, by dsimp only; omega⟩

/-! ### Division -/

/-- That ranges divide the keys among the parties, evenly and in the order of the positions. -/
structure Divides (parties keys : Int) (ranges : Mapping Int (Int × Int)) : Prop where
  keys_eq : ranges.keys = upTo parties
  first_eq : (ranges.get? 1).map Prod.fst = some 1
  last_eq : (ranges.get? parties).map Prod.snd = some (keys + 1)
  next_eq : ∀ i, 1 ≤ i → i < parties →
    (ranges.get? (i + 1)).map Prod.fst = (ranges.get? i).map Prod.snd
  nonempty : ∀ i range, ranges.get? i = some range → range.1 < range.2
  disjoint : ∀ i j range range', ranges.get? i = some range → ranges.get? j = some range' →
    ∀ key ∈ keysOfRange range, key ∈ keysOfRange range' → i = j
  cover : ∀ key, key ∈ upTo keys ↔ ∃ i range, ranges.get? i = some range ∧ key ∈ keysOfRange range
  size_le : ∀ i j range range', i ≤ j → ranges.get? i = some range → ranges.get? j = some range' →
    range'.2 - range'.1 ≤ range.2 - range.1
  le_size : ∀ i j range range', ranges.get? i = some range → ranges.get? j = some range' →
    range.2 - range.1 ≤ range'.2 - range'.1 + 1

theorem one_le_rangeSize (hparties : 1 ≤ parties) (hkeys : parties ≤ keys) (i : Int) :
    1 ≤ rangeSize parties keys i := by
  have hquotient : 1 ≤ keys / parties := (Int.le_ediv_iff_mul_le (by omega)).2 (by omega)
  rw [rangeSize]
  split <;> omega

theorem rangeSize_le {i j : Int} (h : i ≤ j) :
    rangeSize parties keys j ≤ rangeSize parties keys i := by
  rw [rangeSize, rangeSize]
  split <;> split <;> omega

theorem rangeSize_le_succ (i j : Int) :
    rangeSize parties keys i ≤ rangeSize parties keys j + 1 := by
  rw [rangeSize, rangeSize]
  split <;> split <;> omega

/-- The computed ranges divide the keys. -/
theorem divides_ranges (hparties : 1 ≤ parties) (hkeys : parties ≤ keys) :
    Divides parties keys
      (ranges (.ofList ((upTo parties).map fun i => (i, rangeSize parties keys i)))) := by
  have hget := @get?_ranges parties keys hparties
  have hrange : ∀ i range, (ranges (.ofList ((upTo parties).map fun i =>
      (i, rangeSize parties keys i)))).get? i = some range → i ∈ upTo parties ∧
      range = (firstKey parties keys i, firstKey parties keys (i + 1)) := by
    intro i range h
    rw [hget] at h
    split at h
    · exact ⟨‹_›, (Option.some.inj h).symm⟩
    · cases h
  have hsize : ∀ i, firstKey parties keys (i + 1) - firstKey parties keys i =
      rangeSize parties keys i := by
    intro i
    rw [firstKey_succ]
    omega
  constructor
  case keys_eq => exact keys_ranges hparties
  case first_eq =>
    rw [hget, if_pos (mem_upTo.2 ⟨by omega, hparties⟩)]
    exact congrArg some (firstKey_one hparties)
  case last_eq =>
    rw [hget, if_pos (mem_upTo.2 ⟨hparties, by omega⟩)]
    exact congrArg some (firstKey_last hparties)
  case next_eq =>
    intro i h₁ h₂
    rw [hget, hget, if_pos (mem_upTo.2 ⟨by omega, by omega⟩),
      if_pos (mem_upTo.2 ⟨h₁, by omega⟩)]
    rfl
  case nonempty =>
    intro i range h
    obtain ⟨-, rfl⟩ := hrange i range h
    have := one_le_rangeSize hparties hkeys i
    have := hsize i
    dsimp only
    omega
  case disjoint =>
    intro i j range range' h h' key hkey hkey'
    obtain ⟨-, rfl⟩ := hrange i range h
    obtain ⟨-, rfl⟩ := hrange j range' h'
    exact Owns.unique hparties hkeys (mem_keysOfRange.1 hkey) (mem_keysOfRange.1 hkey')
  case cover =>
    intro key
    constructor
    · intro hkey
      obtain ⟨i, hi, howns⟩ := exists_owner hparties hkey
      exact ⟨i, _, ranges_get? hparties hi, mem_keysOfRange.2 howns⟩
    · rintro ⟨i, range, h, hkey⟩
      obtain ⟨hi, rfl⟩ := hrange i range h
      exact Owns.mem_upTo hparties hkeys (mem_keysOfRange.1 hkey) hi
  case size_le =>
    intro i j range range' hij h h'
    obtain ⟨-, rfl⟩ := hrange i range h
    obtain ⟨-, rfl⟩ := hrange j range' h'
    dsimp only
    rw [hsize, hsize]
    exact rangeSize_le hij
  case le_size =>
    intro i j range range' h h'
    obtain ⟨-, rfl⟩ := hrange i range h
    obtain ⟨-, rfl⟩ := hrange j range' h'
    dsimp only
    rw [hsize, hsize]
    exact rangeSize_le_succ i j

/-! ### Validation -/

/-- How keys are given to a party: all of them when none has an owner, and else none is given after
one that has. -/
inductive Claims (owners : Mapping Int Int) (position : Int) (claimed : List Int) :
    Except Error (Mapping Int Int) → Prop where
  | free {owners' : Mapping Int Int} (hfree : ∀ key ∈ claimed, owners.get? key = none)
      (hget : ∀ key, owners'.get? key =
        if key ∈ claimed then some position else owners.get? key) :
    Claims owners position claimed (.ok owners')
  | taken {key first : Int} (hkey : key ∈ claimed) (hfirst : owners.get? key = some first) :
    Claims owners position claimed (.error (.parameters (.keyOwnedTwice key first position)))

theorem claims_claim (position : Int) {claimed : List Int} (hnodup : claimed.Nodup)
    (owners : Mapping Int Int) :
    Claims owners position claimed (claim owners position claimed) := by
  induction claimed generalizing owners with
  | nil => exact .free (by simp) (by simp)
  | cons key rest ih =>
    obtain ⟨hkey, hrest⟩ := List.nodup_cons.1 hnodup
    have hother : ∀ other ∈ rest, (owners.put key position).get? other = owners.get? other := by
      intro other hmem
      rw [Mapping.get?_put, if_neg (by rintro rfl; exact hkey hmem)]
    rw [claim]
    cases hfirst : owners.get? key with
    | some first => exact .taken (.head _) hfirst
    | none =>
      have hclaims := ih hrest (owners.put key position)
      dsimp only
      generalize claim (owners.put key position) position rest = outcome at hclaims ⊢
      cases hclaims with
      | free hfree hget =>
        refine .free (List.forall_mem_cons.2 ⟨hfirst, fun other hmem => ?_⟩) fun other => ?_
        · rw [← hother other hmem]
          exact hfree other hmem
        · rw [hget, Mapping.get?_put]
          by_cases hmem : other ∈ rest
          · simp [hmem]
          · simp [hmem]
      | taken hmem hfirst' => exact .taken (.tail _ hmem) (by rwa [← hother _ hmem])

/-- That a mapping tells who has a key, and at which position. -/
def Recorded (parties : List (Int × KeySet)) (owners : Mapping Int Int) : Prop :=
  ∀ key position, owners.get? key = some position ↔
    ∃ party ∈ parties, party.1 = position ∧ key ∈ party.2

/-- What the recording of all owners comes to. -/
inductive Records (parties : List (Int × KeySet)) : Except Error (Mapping Int Int) → Prop where
  | disjoint {owners : Mapping Int Int}
      (hdisjoint : parties.Pairwise fun a b => ∀ key ∈ a.2, key ∉ b.2)
      (hrecorded : Recorded parties owners) : Records parties (.ok owners)
  | twice {first second : Int × KeySet} {key : Int} (hparties : [first, second].Sublist parties)
      (hfirst : key ∈ first.2) (hsecond : key ∈ second.2) :
    Records parties (.error (.parameters (.keyOwnedTwice key first.1 second.1)))

/-- A party whose keys are free is recorded behind those before it. -/
theorem Recorded.append {before : List (Int × KeySet)} {party : Int × KeySet}
    {owners owners' : Mapping Int Int} (h : Recorded before owners)
    (hfree : ∀ key ∈ party.2.scan, owners.get? key = none)
    (hget : ∀ key, owners'.get? key =
      if key ∈ party.2.scan then some party.1 else owners.get? key) :
    Recorded (before ++ [party]) owners' := by
  intro key position
  rw [hget]
  simp only [List.mem_append, List.mem_singleton, or_and_right, exists_or, exists_eq_left]
  rw [← h key position]
  by_cases hkey : key ∈ party.2.scan
  · simp [hkey, hfree key hkey, KeySet.mem_scan.1 hkey]
  · simp [hkey, mt KeySet.mem_scan.2 hkey]

/-- The parties are recorded one after the other; the first one with a key that has an owner is
refused. -/
theorem records_foldlM (before after : List (Int × KeySet)) {start : Mapping Int Int}
    (hdisjoint : before.Pairwise fun a b => ∀ key ∈ a.2, key ∉ b.2)
    (hrecorded : Recorded before start) : Records (before ++ after)
      (after.foldlM (fun owners party => claim owners party.1 party.2.scan) start) := by
  induction after generalizing before start with
  | nil =>
    rw [List.append_nil]
    exact .disjoint hdisjoint hrecorded
  | cons party after ih =>
    have hclaims := claims_claim party.1 party.2.nodup_scan start
    rw [List.foldlM_cons]
    generalize claim start party.1 party.2.scan = outcome at hclaims ⊢
    cases hclaims with
    | free hfree hget =>
      have hnext : (before ++ [party]).Pairwise fun a b => ∀ key ∈ a.2, key ∉ b.2 := by
        refine List.pairwise_append.2 ⟨hdisjoint, List.pairwise_singleton _ _, ?_⟩
        rintro first hfirst _ hparty key hkey hkey'
        rw [List.mem_singleton.1 hparty] at hkey'
        have hnone := hfree key (KeySet.mem_scan.2 hkey')
        rw [(hrecorded key first.1).2 ⟨first, hfirst, rfl, hkey⟩] at hnone
        cases hnone
      have hrecords := ih (before ++ [party]) hnext (hrecorded.append hfree hget)
      rwa [List.append_assoc] at hrecords
    | @taken key position hkey hfirst =>
      obtain ⟨first, hmem, rfl, hkey'⟩ := (hrecorded key position).1 hfirst
      have hparties : [first, party].Sublist (before ++ party :: after) :=
        (List.singleton_sublist.2 hmem).append ((List.nil_sublist after).cons_cons party)
      exact .twice hparties hkey' (KeySet.mem_scan.1 hkey)

theorem records_owners (parties : List (Int × KeySet)) : Records parties (owners parties) :=
  records_foldlM [] parties .nil fun _ _ => by simp

/-- Whether every key has exactly one owner, and what is wrong if not: a key that two parties have,
or the keys that nobody has. -/
inductive Verdict (parties : List (Int × KeySet)) (keys : Int) : Except Error Unit → Prop where
  | valid (hdisjoint : parties.Pairwise fun a b => ∀ key ∈ a.2, key ∉ b.2)
      (hcover : ∀ key ∈ upTo keys, ∃ party ∈ parties, key ∈ party.2) :
    Verdict parties keys (.ok ())
  | twice {first second : Int × KeySet} {key : Int} (hparties : [first, second].Sublist parties)
      (hfirst : key ∈ first.2) (hsecond : key ∈ second.2) :
    Verdict parties keys (.error (.parameters (.keyOwnedTwice key first.1 second.1)))
  | uncovered (hdisjoint : parties.Pairwise fun a b => ∀ key ∈ a.2, key ∉ b.2)
      {missing : List Int} (hmissing : missing =
        (upTo keys).filter fun key => ∀ party ∈ parties, key ∉ party.2) (hne : missing ≠ []) :
    Verdict parties keys (.error (.configuration (.keysWithoutOwner missing)))

theorem verdict_validate (parties : List (Int × KeySet)) (keys : Int) :
    Verdict parties keys (validate parties keys) := by
  rw [validate]
  have hrecords := records_owners parties
  generalize owners parties = outcome at hrecords ⊢
  cases hrecords with
  | twice hparties hfirst hsecond => exact .twice hparties hfirst hsecond
  | @disjoint recorded hdisjoint hrecorded =>
    have hnone : ∀ key, recorded.get? key = none ↔ ∀ party ∈ parties, key ∉ party.2 := by
      intro key
      rw [Option.eq_none_iff_forall_ne_some]
      constructor
      · intro h party hparty hkey
        exact h party.1 ((hrecorded key party.1).2 ⟨party, hparty, rfl, hkey⟩)
      · intro h position hposition
        obtain ⟨party, hparty, -, hkey⟩ := (hrecorded key position).1 hposition
        exact h party hparty hkey
    have hmissing : ((upTo keys).filter fun key => (recorded.get? key).isNone) =
        (upTo keys).filter fun key => ∀ party ∈ parties, key ∉ party.2 := by
      apply List.filter_congr
      intro key _
      rw [Bool.eq_iff_iff, Option.isNone_iff_eq_none, hnone, decide_eq_true_iff]
    simp only [ok_bind, hmissing]
    generalize hlist : ((upTo keys).filter fun key => ∀ party ∈ parties, key ∉ party.2) = missing
    cases missing with
    | nil =>
      refine .valid hdisjoint fun key hkey => ?_
      simpa using List.filter_eq_nil_iff.1 hlist key hkey
    | cons key rest => exact .uncovered hdisjoint hlist.symm (List.cons_ne_nil _ _)

/-- Parties are accepted when their sets of keys are disjoint and cover all keys, and only then. -/
theorem validate_eq_ok_iff {parties : List (Int × KeySet)} {keys : Int} :
    validate parties keys = .ok () ↔
      (parties.Pairwise fun a b => ∀ key ∈ a.2, key ∉ b.2) ∧
        ∀ key ∈ upTo keys, ∃ party ∈ parties, key ∈ party.2 := by
  have hverdict := verdict_validate parties keys
  generalize validate parties keys = outcome at hverdict ⊢
  cases hverdict with
  | valid hdisjoint hcover => exact iff_of_true rfl ⟨hdisjoint, hcover⟩
  | @twice first second key hparties hfirst hsecond =>
    refine iff_of_false (by rintro ⟨⟩) fun h => ?_
    exact List.rel_of_pairwise_cons (h.1.sublist hparties) (.head _) key hfirst hsecond
  | uncovered _ hmissing hne =>
    refine iff_of_false (by rintro ⟨⟩) fun h => hne ?_
    rw [hmissing, List.filter_eq_nil_iff]
    simpa using h.2

/-- Parties that have the keys of their ranges are accepted, in whatever order. -/
theorem validate_of_owns {parties keys : Int} (hparties : 1 ≤ parties) (hkeys : parties ≤ keys)
    {owners : List (Int × KeySet)} (hpositions : (owners.map Prod.fst).Perm (upTo parties))
    (howns : ∀ party ∈ owners, ∀ key, key ∈ party.2 ↔ Owns parties keys party.1 key) :
    validate owners keys = .ok () := by
  refine validate_eq_ok_iff.2 ⟨?_, fun key hkey => ?_⟩
  · have hdifferent := List.pairwise_map.1 (hpositions.nodup_iff.2 (nodup_upTo parties))
    refine hdifferent.imp_of_mem fun hfirst hsecond hne key hkey hkey' => hne ?_
    exact Owns.unique hparties hkeys ((howns _ hfirst key).1 hkey) ((howns _ hsecond key).1 hkey')
  · obtain ⟨i, hi, hown⟩ := exists_owner hparties hkey
    obtain ⟨party, hparty, rfl⟩ := List.mem_map.1 (hpositions.mem_iff.2 hi)
    exact ⟨party, hparty, (howns party hparty key).2 hown⟩

end KeyPartition

end ThresholdKeygen
