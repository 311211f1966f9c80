/-!
# Stages

The progress of a participant through a run. Stages are totally ordered and only ever grow.
-/

namespace ThresholdKeygen

/-- What a participant has achieved so far. -/
inductive Stage where
  | created
  | commitmentsExchanged
  | sharesDistributed
  | sharesVerified
  | signingShareComputed
  | publicSharesComputed
  | groupKeyDerived
deriving DecidableEq

namespace Stage

/-- The place of a stage in the run. -/
def rank : Stage → Nat
  | created => 0
  | commitmentsExchanged => 1
  | sharesDistributed => 2
  | sharesVerified => 3
  | signingShareComputed => 4
  | publicSharesComputed => 5
  | groupKeyDerived => 6

instance : LE Stage := ⟨fun s t => s.rank ≤ t.rank⟩
instance : LT Stage := ⟨fun s t => s.rank < t.rank⟩
instance (s t : Stage) : Decidable (s ≤ t) := inferInstanceAs (Decidable (s.rank ≤ t.rank))
instance (s t : Stage) : Decidable (s < t) := inferInstanceAs (Decidable (s.rank < t.rank))

/-- All stages, in order. -/
def all : List Stage :=
  [created, commitmentsExchanged, sharesDistributed, sharesVerified, signingShareComputed,
    publicSharesComputed, groupKeyDerived]

/-- The name of a stage in messages. -/
def name : Stage → String
  | created => "CREATED"
  | commitmentsExchanged => "COMMITMENTS_EXCHANGED"
  | sharesDistributed => "SHARES_DISTRIBUTED"
  | sharesVerified => "SHARES_VERIFIED"
  | signingShareComputed => "SIGNING_SHARE_COMPUTED"
  | publicSharesComputed => "PUBLIC_SHARES_COMPUTED"
  | groupKeyDerived => "GROUP_KEY_DERIVED"

/-- The stage with a given name. -/
def ofName? (text : String) : Option Stage :=
  all.find? fun stage => stage.name == text

/-- The later of two stages. -/
def later (s t : Stage) : Stage := if s < t then t else s

theorem le_later_left (s t : Stage) : s ≤ s.later t := by
  unfold later
  split
  · exact Nat.le_of_lt ‹_›
  · exact Nat.le_refl _

theorem le_later_right (s t : Stage) : t ≤ s.later t := by
  unfold later
  split
  · exact Nat.le_refl _
  · exact Nat.not_lt.1 ‹_›

theorem later_le {s t u : Stage} (h : s ≤ u) (h' : t ≤ u) : s.later t ≤ u := by
  unfold later
  split <;> assumption

theorem le_trans {s t u : Stage} (h : s ≤ t) (h' : t ≤ u) : s ≤ u := Nat.le_trans h h'

theorem le_antisymm {s t : Stage} (h : s ≤ t) (h' : t ≤ s) : s = t := by
  cases s <;> cases t <;> first | rfl | exact absurd h (by decide) | exact absurd h' (by decide)

theorem later_eq {s t : Stage} (h : s ≤ t) : s.later t = t :=
  le_antisymm (later_le h (Nat.le_refl _)) (le_later_right s t)

theorem later_eq_left {s t : Stage} (h : t ≤ s) : s.later t = s := if_neg (Nat.not_lt.2 h)

theorem le_of_le_later {s t u : Stage} (h : u ≤ s.later t) (ht : ¬ u ≤ t) : u ≤ s := by
  unfold later at h
  split at h
  · exact absurd h ht
  · exact h

theorem le_groupKeyDerived (s : Stage) : s ≤ .groupKeyDerived := by
  cases s <;> decide

end Stage

end ThresholdKeygen
