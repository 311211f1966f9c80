/-!
# Key sets

Sets of key numbers. They are scanned in the order of an open-addressed table: a key is tried at the
cell of its hash, at up to nine cells behind it where the table has room, and then along a sequence
that visits every cell; a table that is three fifths full grows to at least four times its keys.
-/

namespace ThresholdKeygen

/-! ### Tables -/

namespace CellTable

/-- The hash of a key: its residue modulo `2⁶¹ - 1`, with the sign kept, as a 64-bit word. -/
def hash (key : Int) : Nat :=
  let residue := Int.tmod key (Int.pow 2 61 - 1)
  ((if residue = -1 then -2 else residue) % Int.pow 2 64).toNat

/-- The first free cell among the cell `i` and the `probes` cells behind it. -/
def freeFrom (cells : List (Option Int)) (i : Nat) : (probes : Nat) → Option Nat
  | 0 => if cells[i]? = some none then some i else none
  | probes + 1 =>
    if cells[i]? = some none then some i else freeFrom cells (i + 1) probes

/-- The free cell for a key whose search has come to the cell `i`. -/
def freeCell (cells : List (Option Int)) (i perturb : Nat) : (tries : Nat) → Option Nat
  | 0 => none
  | tries + 1 =>
    match freeFrom cells i (if i + 9 < cells.length then 9 else 0) with
    | some cell => some cell
    | none =>
      let perturb := perturb / 32
      freeCell cells ((i * 5 + 1 + perturb) % cells.length) perturb tries

/-- Puts a key that is not in the table into its cell. -/
def place (cells : List (Option Int)) (key : Int) : List (Option Int) :=
  match freeCell cells (hash key % cells.length) (hash key) (cells.length + 16) with
  | some cell => cells.set cell (some key)
  | none => cells

/-- The first power of two, from `size` on, that is over `keys`. -/
def sizeOver (keys : Nat) : (doublings size : Nat) → Nat
  | 0, size => size
  | doublings + 1, size => if size ≤ keys then sizeOver keys doublings (size * 2) else size

/-- Adds a key, and moves all keys to a larger table when this one gets full. -/
def add (cells : List (Option Int)) (key : Int) : List (Option Int) :=
  let cells := place cells key
  let keys := cells.filterMap id
  if keys.length * 5 < (cells.length - 1) * 3 then cells
  else
    let room := if keys.length > 50000 then keys.length * 2 else keys.length * 4
    keys.foldl place (List.replicate (sizeOver room room 8) none)

end CellTable

/-! ### Sets -/

/-- A set of keys, with its members in order of insertion. -/
structure KeySet where
  members : List Int
  nodup_members : members.Nodup

namespace KeySet

/-- The set without keys. -/
def empty : KeySet := ⟨[], .nil⟩

instance : Membership Int KeySet := ⟨fun s key => key ∈ s.members⟩

instance (key : Int) (s : KeySet) : Decidable (key ∈ s) :=
  inferInstanceAs (Decidable (key ∈ s.members))

/-- Adds a key. -/
def insert (s : KeySet) (key : Int) : KeySet :=
  if h : key ∈ s.members then s
  else ⟨s.members ++ [key], by
    rw [List.nodup_append]
    refine ⟨s.nodup_members, by simp, fun a ha b hb => ?_⟩
    rintro rfl
    simp only [List.mem_singleton] at hb
    exact absurd (hb ▸ ha) h⟩

@[simp] theorem mem_insert {s : KeySet} {key k : Int} : k ∈ s.insert key ↔ k ∈ s ∨ k = key := by
  change k ∈ (s.insert key).members ↔ k ∈ s.members ∨ k = key
  unfold insert
  split
  · constructor
    · exact Or.inl
    · rintro (h | rfl) <;> assumption
  · simp

/-- The set of the keys of a list. -/
def ofList (keys : List Int) : KeySet := keys.foldl insert empty

/-- The number of keys. -/
def size (s : KeySet) : Nat := s.members.length

/-- The cells of the keys, inserted in order. -/
def cells (s : KeySet) : List (Option Int) :=
  s.members.foldl CellTable.add (List.replicate 8 none)

/-- The keys in the order of a scan. -/
def scan (s : KeySet) : List Int :=
  let cells := s.cells
  s.members.mergeSort fun a b => cells.idxOf (some a) ≤ cells.idxOf (some b)

/-- The keys in ascending order. -/
def sorted (s : KeySet) : List Int :=
  s.members.mergeSort fun a b => a ≤ b

theorem mem_scan {s : KeySet} {key : Int} : key ∈ s.scan ↔ key ∈ s :=
  (List.mergeSort_perm _ _).mem_iff

theorem mem_sorted {s : KeySet} {key : Int} : key ∈ s.sorted ↔ key ∈ s :=
  (List.mergeSort_perm _ _).mem_iff

end KeySet

end ThresholdKeygen
