import ThresholdKeygen.CommitmentTable
import ThresholdKeygen.Proofs.Mapping
import ThresholdKeygen.Proofs.Refusal

/-!
# Commitment tables

What registering a commitment does to a table, and the tables to which registrations lead. Main
statement: `Built.slot`, a registered commitment is that of a dealer and has as many points as the
threshold.
-/

namespace ThresholdKeygen

variable {K : Type} [Suite K]

namespace CommitmentTable

omit [Suite K] in
theorem yields_new (dealers threshold : Int) :
    Yields (new dealers threshold : Except Error (CommitmentTable K)) fun table =>
      table = ⟨dealers, threshold, .empty⟩ := by
  rw [new]
  split
  · exact .error
  · exact .bind fun _ _ => .pure rfl

/-- What registering a commitment does to a table: nothing the second time. -/
theorem yields_register (table : CommitmentTable K) (sender : Int) (commitment : Commitment K) :
    Yields (table.register sender commitment) fun (fresh, table') =>
      1 ≤ sender ∧ sender ≤ table.dealers ∧ (commitment.points.length : Int) = table.threshold ∧
        (fresh = false ∧ (table.slots.get? sender).isSome ∧ table' = table ∨
          fresh = true ∧ table.slots.get? sender = none ∧
            table' = { table with slots := table.slots.put sender commitment }) := by
  rw [register, checkSender]
  split
  · rename_i hsender
    dsimp only [ok_bind]
    split
    · exact .error
    · rename_i hlength
      cases hcurrent : table.slots.get? sender with
      | some current =>
        dsimp only
        split
        · exact .pure ⟨hsender.1, hsender.2, not_not.1 hlength, .inl ⟨rfl, rfl, rfl⟩⟩
        · exact .error
      | none => exact .pure ⟨hsender.1, hsender.2, not_not.1 hlength, .inr ⟨rfl, rfl, rfl⟩⟩
  · exact .error

/-- The tables to which registrations lead. -/
inductive Built : CommitmentTable K → Prop where
  | new (dealers threshold : Int) {table : CommitmentTable K}
      (h : CommitmentTable.new dealers threshold = .ok table) : Built table
  | register {table : CommitmentTable K} (sender : Int) (commitment : Commitment K) {fresh : Bool}
      {table' : CommitmentTable K} (h : Built table)
      (hregister : table.register sender commitment = .ok (fresh, table')) : Built table'

theorem Built.slot {table : CommitmentTable K} (h : Built table) {i : Int} {c : Commitment K}
    (hc : table.slots.get? i = some c) :
    1 ≤ i ∧ i ≤ table.dealers ∧ (c.points.length : Int) = table.threshold := by
  induction h generalizing i c with
  | new dealers threshold hnew =>
    obtain rfl := yields_new dealers threshold _ hnew
    simp at hc
  | register sender commitment _ hregister ih =>
    obtain ⟨h₁, h₂, hlength, ⟨_, _, rfl⟩ | ⟨_, _, rfl⟩⟩ := yields_register _ _ _ _ hregister
    · exact ih hc
    · dsimp only at hc
      rw [Mapping.get?_put] at hc
      split at hc
      · rename_i hi
        rw [hi, ← Option.some.inj hc]
        exact ⟨h₁, h₂, hlength⟩
      · exact ih hc

end CommitmentTable

end ThresholdKeygen
