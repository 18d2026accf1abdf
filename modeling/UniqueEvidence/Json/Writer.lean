/-
JSON text, indented by two blanks a level.

* `Json.write`: the text of a value.  Everything outside printable ASCII is escaped, characters
  beyond the basic plane as a pair of surrogates; empty lists and objects stay on one line.
-/
import UniqueEvidence.Json.Basic

namespace UniqueEvidence

namespace Json

/-- The escape of a 16-bit unit. -/
def escapeUnit (n : Nat) : List Char :=
  '\\' :: 'u' :: Text.hex 4 n

/-- One character inside a string literal. -/
def escapeChar (c : Char) : List Char :=
  if c = '"' then ['\\', '"']
  else if c = '\\' then ['\\', '\\']
  else if c = '\n' then ['\\', 'n']
  else if c = '\r' then ['\\', 'r']
  else if c = '\t' then ['\\', 't']
  else if c = '\x0c' then ['\\', 'f']
  else if c = '\x08' then ['\\', 'b']
  else if 0x20 ≤ c.toNat ∧ c.toNat ≤ 0x7e then [c]
  else if c.toNat < 0x10000 then escapeUnit c.toNat
  else
    let n := c.toNat - 0x10000
    escapeUnit (0xd800 + n / 0x400) ++ escapeUnit (0xdc00 + n % 0x400)

/-- A string literal. -/
def writeString (s : String) : List Char :=
  '"' :: s.toList.flatMap escapeChar ++ ['"']

/-- A line end followed by an indentation. -/
def newline (indent : Nat) : List Char :=
  '\n' :: List.replicate indent ' '

/-- A number that is no integer. -/
def writeReal : Double → String
  | .nan => "NaN"
  | .infinite negative => if negative then "-Infinity" else "Infinity"
  | x => x.render

mutual

/-- The text of a value whose first line is already indented. -/
def writeAt (indent : Nat) : Json → List Char
  | null => "null".toList
  | bool true => "true".toList
  | bool false => "false".toList
  | int n => (toString n).toList
  | real x => (writeReal x).toList
  | str s => writeString s
  | arr [] => ['[', ']']
  | arr (j :: rest) =>
    '[' :: newline (indent + 2) ++ writeAt (indent + 2) j ++ writeItems (indent + 2) rest ++
      newline indent ++ [']']
  | obj [] => ['\x7b', '\x7d']
  | obj ((k, v) :: rest) =>
    '\x7b' :: newline (indent + 2) ++ writeString k ++ [':', ' '] ++ writeAt (indent + 2) v ++
      writeMembers (indent + 2) rest ++ newline indent ++ ['\x7d']

/-- The entries of a list after the first. -/
def writeItems (indent : Nat) : List Json → List Char
  | [] => []
  | j :: rest => ',' :: newline indent ++ writeAt indent j ++ writeItems indent rest

/-- The members of an object after the first. -/
def writeMembers (indent : Nat) : List (String × Json) → List Char
  | [] => []
  | (k, v) :: rest =>
    ',' :: newline indent ++ writeString k ++ [':', ' '] ++ writeAt indent v ++
      writeMembers indent rest

end

/-- The text of a value. -/
def write (j : Json) : String :=
  String.ofList (j.writeAt 0)

end Json

end UniqueEvidence
