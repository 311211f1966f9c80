import ThresholdKeygen.Error

/-!
# Faults of documents

Why a document is not read. A malformed document is the ordinary case; a few slips make the reading
itself impossible and are refused with a cause of their own.
-/

namespace ThresholdKeygen.Toml

/-- Why a document, or a part of it, is not read. -/
inductive Fault where
  /-- The text is no document. -/
  | malformed
  /-- The reading is refused. -/
  | refused (refusal : Error)

/-- The outcome of reading. -/
abbrev Read := Except Fault

/-- A place behind the end of a text is needed. -/
def Fault.endOfText : Fault := .refused (.outOfRange .text)

/-- A place behind the end of a list is needed. -/
def Fault.endOfList : Fault := .refused (.outOfRange .list)

/-- The value of a reading that may fail for its form alone. -/
def Read.ofOption {α : Type} : Option α → Read α
  | some a => .ok a
  | none => .error .malformed

end ThresholdKeygen.Toml
