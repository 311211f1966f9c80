import ThresholdKeygen.Config.Basic
import ThresholdKeygen.Toml.Document

/-!
# Configuration files

A configuration in a file: the fields of the table `dkg` of a document.
-/

namespace ThresholdKeygen.Config

/-- A text with a line feed for each line break. -/
def unifyBreaks : List Char → List Char
  | [] => []
  | '\r' :: '\n' :: rest => '\n' :: unifyBreaks rest
  | c :: rest => (if c = '\r' then '\n' else c) :: unifyBreaks rest

/-- The document in a file. -/
def readFile (path : String) (content : Option String) :
    Except Error (List (String × Datum)) :=
  match content with
  | none => .error (.configuration (.fileNotFound path))
  | some text =>
    match Toml.readDocument (unifyBreaks text.toList) with
    | .ok entries => .ok entries
    | .error .malformed => .error (.configuration (.fileUnreadable path))
    | .error (.refused refusal) => .error refusal

/-- Makes a configuration from the content of a file, none when there is no such file. -/
def ofFile (path : String) (content : Option String) : Except Error Config := do
  match Datum.field? "dkg" (← readFile path content) with
  | some (.table _ fields) => ofFields fields
  | _ => throw (.configuration (.noTable path))

end ThresholdKeygen.Config
