/-
JSON values.  Objects keep their members in order, since the order shows when they are written.

* `Json`: the values; a number is an integer, or a binary number if it was written with a point or
  an exponent;
* `Json.kind`: whether it is a text, a list, and so on;
* `setMember`: a member added, or given a new value in its old place;
* `Json.member?`: the value of a member, with the fact that it is smaller than its object, by which
  readers of nested data recurse;
* `Json.describe`: a value as it is shown inside a message.
-/
import UniqueEvidence.Number.Shortest
import UniqueEvidence.Text.Quoted

namespace UniqueEvidence

/-- A JSON value. -/
inductive Json where
  | null
  | bool (b : Bool)
  | int (n : Int)
  | real (x : Double)
  | str (s : String)
  | arr (items : List Json)
  | obj (members : List (String × Json))
  deriving Inhabited

namespace Json

/-- The kinds of values. -/
inductive Kind where
  | null
  | bool
  | int
  | real
  | str
  | arr
  | obj
  deriving DecidableEq

/-- The kind of a value. -/
def kind : Json → Kind
  | null => .null
  | bool _ => .bool
  | int _ => .int
  | real _ => .real
  | str _ => .str
  | arr _ => .arr
  | obj _ => .obj

/-- The name of a kind. -/
def Kind.name : Kind → String
  | null => "NoneType"
  | bool => "bool"
  | int => "int"
  | real => "float"
  | str => "str"
  | arr => "list"
  | obj => "dict"

/-- The members with `key` set to `value`: in place if the key is there already, otherwise at the
end. -/
def setMember (key : String) (value : Json) : List (String × Json) → List (String × Json)
  | [] => [(key, value)]
  | (k, v) :: rest => if k = key then (k, value) :: rest else (k, v) :: setMember key value rest

/-- The value of the first member with the given key. -/
def findMember? (key : String) :
    (members : List (String × Json)) → Option { v : Json // sizeOf v < sizeOf members }
  | [] => none
  | (k, v) :: rest =>
    if k = key then some ⟨v, by simp; omega⟩
    else (findMember? key rest).map fun ⟨w, h⟩ => ⟨w, by simp; omega⟩

/-- The value of a member of an object. -/
def member? (j : Json) (key : String) : Option { v : Json // sizeOf v < sizeOf j } :=
  match j with
  | obj members => (findMember? key members).map fun ⟨v, h⟩ => ⟨v, by simp; omega⟩
  | _ => none

mutual

/-- A value as it is shown inside a message, with text in quotes. -/
def describe : Json → String
  | null => "None"
  | bool true => "True"
  | bool false => "False"
  | int n => toString n
  | real x => x.render
  | str s => Text.quote s
  | arr items => "[" ++ ", ".intercalate (describeItems items) ++ "]"
  | obj members => "\x7b" ++ ", ".intercalate (describeMembers members) ++ "\x7d"

/-- The entries of a list. -/
def describeItems : List Json → List String
  | [] => []
  | j :: rest => j.describe :: describeItems rest

/-- The members of an object. -/
def describeMembers : List (String × Json) → List String
  | [] => []
  | (k, v) :: rest => (Text.quote k ++ ": " ++ v.describe) :: describeMembers rest

end

/-- A value as it is shown inside a message; text by itself stands without quotes. -/
def plain : Json → String
  | str s => s
  | j => j.describe

/-- The whole number that a value is; a truth value counts as zero or one. -/
def integer? : Json → Option Int
  | int n => some n
  | bool b => some (if b then 1 else 0)
  | _ => none

end Json

end UniqueEvidence
