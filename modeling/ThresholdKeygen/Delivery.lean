import ThresholdKeygen.BatchCheck

/-!
# Deliveries

What reaches the owner of a share index: from each sender a share, or nothing in its place when the
sender has none to hand over. A delivery without gaps is an inbox. Main statement: the delivery of
an inbox has no gaps, and is that inbox.
-/

namespace ThresholdKeygen

/-- Shares by sender, some of which may be missing. -/
abbrev Delivery := Mapping Int (Option Scalar)

namespace Delivery

variable {σ : Type} [RandomSource σ]

/-- The delivery of all shares of an inbox. -/
def ofInbox (inbox : Inbox) : Delivery := inbox.map some

/-- The inbox that a delivery without gaps is. -/
def toInbox? (delivery : Delivery) : Option Inbox :=
  if delivery.values.all Option.isSome then some delivery.present else none

theorem toInbox?_ofInbox (inbox : Inbox) : (ofInbox inbox).toInbox? = some inbox := by
  simp [toInbox?, ofInbox, Mapping.values_map]

theorem eq_ofInbox {delivery : Delivery} {inbox : Inbox} (h : delivery.toInbox? = some inbox) :
    delivery = ofInbox inbox := by
  unfold toInbox? at h
  split at h
  · rename_i hall
    cases h
    have hsome : ∀ entry ∈ delivery.entries, entry.2.isSome := by
      intro entry hentry
      exact List.all_eq_true.1 hall entry.2 (List.mem_map.2 ⟨entry, hentry, rfl⟩)
    obtain ⟨entries, hnodup⟩ := delivery
    simp [ofInbox, Mapping.map, Mapping.present, Mapping.map_some_presentEntries hsome]
  · cases h

/-- The refusal of a share that is missing. -/
def missing (operation : String) : Error := .kind (.operands operation "Scalar" "NoneType")

/-- The sum of all shares, refused when one is missing. -/
def sum (delivery : Delivery) : Except Error Scalar :=
  match delivery.toInbox? with
  | some inbox => .ok (Scalar.sum inbox.values)
  | none => .error (missing "+")

/-- The inbox for a batch check. A gap is noticed when the shares are weighed. -/
def weighed (who : Int) (delivery : Delivery) : ExceptT Error (StateM σ) Inbox := do
  match delivery.toInbox? with
  | some inbox => return inbox
  | none =>
    let _ ← (BatchCheck.freshWeights who delivery.keys.length : StateM σ _)
    throw (missing "*")

end Delivery

end ThresholdKeygen
