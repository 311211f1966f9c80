import ThresholdKeygen.Decimal.Shortest
import ThresholdKeygen.Item
import ThresholdKeygen.Text.Numeral

/-!
# Configuration data

The values that fields of a configuration can have before they are checked, their text in messages,
and the integers that they stand for.
-/

namespace ThresholdKeygen

/-- A value of a configuration. A text that holds surrogates is `illFormed`. A `moment` is a date or
a time of day, of a named kind. -/
inductive Datum where
  | null
  | bool (b : Bool)
  | int (n : Int)
  | float (x : Float)
  | text (s : String)
  | illFormed (s : List Text.CodePoint)
  | list (items : List Datum)
  | table (inline : Bool) (entries : List (String × Datum))
  | moment (kind shown : String)
deriving Inhabited

namespace Datum

/-- The text with given code points. -/
def ofPoints (s : List Text.CodePoint) : Datum :=
  match Text.characters? s with
  | some characters => text (String.ofList characters)
  | none => illFormed s

/-- The name of the kind of a value. -/
def kind : Datum → String
  | null => "NoneType"
  | bool _ => "bool"
  | int _ => "int"
  | float _ => "float"
  | text _ | illFormed _ => "str"
  | list _ => "list"
  | table false _ => "dict"
  | table true _ => "DynamicInlineTableDict"
  | moment kind _ => "datetime." ++ kind

mutual
/-- The text of a value in messages. -/
def shown : Datum → String
  | null => "None"
  | bool b => if b then "True" else "False"
  | int n => toString n
  | float x => Decimal.text x
  | text s => Text.quoted s
  | illFormed s => Text.quotedPoints s
  | list items => "[" ++ ", ".intercalate (shownItems items) ++ "]"
  | table _ entries => "\x7b" ++ ", ".intercalate (shownEntries entries) ++ "\x7d"
  | moment _ words => words

def shownItems : List Datum → List String
  | [] => []
  | item :: rest => shown item :: shownItems rest

def shownEntries : List (String × Datum) → List String
  | [] => []
  | (key, item) :: rest => (Text.quoted key ++ ": " ++ shown item) :: shownEntries rest
end

mutual
/-- Whether a value can be shown: the numbers in it have texts. -/
def hasText : Datum → Bool
  | int n => isWritable n
  | list items => itemsHaveText items
  | table _ entries => entriesHaveText entries
  | _ => true

def itemsHaveText : List Datum → Bool
  | [] => true
  | item :: rest => hasText item && itemsHaveText rest

def entriesHaveText : List (String × Datum) → Bool
  | [] => true
  | (_, item) :: rest => hasText item && entriesHaveText rest
end

/-- The integer that a text names. -/
def readInt (s : List Text.CodePoint) : Except Error Int :=
  (Text.readPoints s).mapError fun fault => .value (.numeral fault)

/-- The integer that a value stands for: the whole part of a number, or the number that a text
names. -/
def toInt : Datum → Except Error Int
  | bool b => .ok (if b then 1 else 0)
  | int n => .ok n
  | float x =>
    match Decimal.shape x with
    | .nan => .error (.value (.numeral .notANumber))
    | .infinite _ => .error (.overflow .infinite)
    | .finite negative size => .ok (if negative then -size.floor else size.floor)
  | text s => readInt (Text.codePoints s)
  | illFormed s => readInt s
  | other => .error (.kind (.notAnInteger other.kind))

/-- The value of a field, when the table has it. -/
def field? (name : String) (entries : List (String × Datum)) : Option Datum :=
  (entries.find? fun (key, _) => key == name).map Prod.snd

/-- Why a value that is no table has no fields. -/
def refuseFields : Datum → Error
  | list _ => .kind .listIndex
  | text _ | illFormed _ => .kind .textIndex
  | other => .kind (.notSubscriptable other.kind)

mutual
/-- A value as the input of a hash. -/
def toItem {K : Type} : Datum → Item K
  | bool b => .int (if b then 1 else 0)
  | int n => .int n
  | list items => .list (toItems items)
  | moment kind _ => .other kind
  | other => .other other.kind

def toItems {K : Type} : List Datum → List (Item K)
  | [] => []
  | item :: rest => toItem item :: toItems rest
end

end Datum

end ThresholdKeygen
