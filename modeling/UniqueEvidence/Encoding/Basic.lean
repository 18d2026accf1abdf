/-
Reading structured data out of JSON values.

* `DecodeError`: why a value does not describe what is asked for, with its wording;
* `Json.field`, `Json.elements`, `Json.text`: a member, the entries of a list, a text;
* `Json.atom`, `Name.ofJson`, `Name.toJson`: atoms and names.  A tuple is written as a list.
-/
import UniqueEvidence.Environment
import UniqueEvidence.Json.Reader
import UniqueEvidence.Json.Writer

namespace UniqueEvidence

/-- Why a JSON value does not describe what is asked for. -/
inductive DecodeError where
  /-- A text is not read as JSON. -/
  | unreadable (why : Json.ReadError)
  /-- An object lacks a member. -/
  | missing (key : Name)
  /-- The tag of a term is none of the known ones. -/
  | unknownForm (tag : String)
  /-- A member is asked of a value that is not an object. -/
  | noMembers (kind : Json.Kind)
  /-- Entries are asked of a value that has none. -/
  | noEntries (kind : Json.Kind)
  /-- A value that should map names to terms is not an object. -/
  | notMapping (kind : Json.Kind)
  /-- A value is of a kind that is not used here. -/
  | unexpected (kind : Json.Kind)
  /-- A name is declared twice. -/
  | duplicate (name : Name)
  deriving DecidableEq

/-- The wording of a decoding error. -/
def DecodeError.message : DecodeError → String
  | unreadable why => why.message
  | missing key => key.describe
  | unknownForm tag => "Unknown term type: " ++ tag
  | noMembers .arr => "list indices must be integers or slices, not str"
  | noMembers .str => "string indices must be integers, not 'str'"
  | noMembers kind => "'" ++ kind.name ++ "' object is not subscriptable"
  | noEntries kind => "'" ++ kind.name ++ "' object is not iterable"
  | notMapping kind => "'" ++ kind.name ++ "' object has no attribute 'items'"
  | unexpected kind => "unhashable type: '" ++ kind.name ++ "'"
  | duplicate name => duplicateMessage name

namespace Json

/-- The value of a member that has to be there. -/
def field (j : Json) (key : String) : Except DecodeError { v : Json // sizeOf v < sizeOf j } :=
  match j.member? key with
  | some v => .ok v
  | none =>
    match j with
    | obj _ => .error (.missing key)
    | _ => .error (.noMembers j.kind)

/-- The entries of a list.  Those of an object are its keys, and those of a text its letters. -/
def elements : Json → Except DecodeError (List Json)
  | arr items => .ok items
  | obj members => .ok (members.map fun (key, _) => str key)
  | str s => .ok (s.toList.map fun c => str (String.singleton c))
  | j => .error (.noEntries j.kind)

theorem sizeOf_pos (j : Json) : 0 < sizeOf j := by
  cases j <;>
    simp only [null.sizeOf_spec, bool.sizeOf_spec, int.sizeOf_spec, real.sizeOf_spec,
    str.sizeOf_spec, arr.sizeOf_spec, obj.sizeOf_spec] <;> omega

/-- The entries of a list of objects, with the fact by which readers recurse.  Keys and letters are
no objects. -/
def objects (j : Json) : Except DecodeError { items : List Json // sizeOf items < sizeOf j + 1 } :=
  match j with
  | arr items => .ok ⟨items, by rw [arr.sizeOf_spec]; omega⟩
  | j =>
    match j.elements with
    | .ok [] => .ok ⟨[], by have := j.sizeOf_pos; rw [List.nil.sizeOf_spec]; omega⟩
    | .ok (_ :: _) => .error (.noMembers .str)
    | .error e => .error e

/-- The members of an object that maps names. -/
def mapping : Json → Except DecodeError (List (String × Json))
  | obj members => .ok members
  | j => .error (.notMapping j.kind)

/-- A text. -/
def text : Json → Except DecodeError String
  | str s => .ok s
  | j => .error (.unexpected j.kind)

/-- The entries of a list member, each read by `decode`. -/
def listField {α : Type} (j : Json) (key : String) (decode : Json → Except DecodeError α) :
    Except DecodeError (List α) := do
  let items ← (← j.field key).1.elements
  items.mapM decode

/-- A text member. -/
def textField (j : Json) (key : String) : Except DecodeError String := do
  (← j.field key).1.text

/-- An atom. -/
def atom : Json → Except DecodeError Atom
  | null => .ok .null
  | bool b => .ok (.flag b)
  | int n => .ok (.number n)
  | real x => .ok (.real x)
  | str s => .ok (.text s)
  | j => .error (.unexpected j.kind)

end Json

/-- An atom as a JSON value. -/
def Atom.toJson : Atom → Json
  | null => .null
  | flag b => .bool b
  | number n => .int n
  | real x => .real x
  | text s => .str s

namespace Name

mutual

/-- A name as a JSON value. -/
def toJson : Name → Json
  | atom a => a.toJson
  | tuple parts => .arr (toJsonAll parts)

/-- Several names as JSON values. -/
def toJsonAll : List Name → List Json
  | [] => []
  | x :: rest => x.toJson :: toJsonAll rest

end

mutual

/-- The name a JSON value describes. -/
def ofJson : Json → Except DecodeError Name
  | .arr items => do return tuple (← ofJsonAll items)
  | j => do return atom (← j.atom)

/-- The names that JSON values describe. -/
def ofJsonAll : List Json → Except DecodeError (List Name)
  | [] => return []
  | j :: rest => do return (← ofJson j) :: (← ofJsonAll rest)

end

end Name

/-- A member that is a name. -/
def Json.nameField (j : Json) (key : String) : Except DecodeError Name := do
  Name.ofJson (← j.field key).1

end UniqueEvidence
