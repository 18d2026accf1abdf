/-
Where settings come from: variables of the process, and a file that supplies those the process does
not have.

* `pieces`, `expand`: a value may refer to a variable by `${NAME}`, or by `${NAME:-text}` with a
  text for its absence;
* `resolve`: the values of assignments.  A reference looks at the process first, and then at the
  assignments before it;
* `Variables.withFile`: process variables win over a file, and later assignments over earlier ones.
-/
import UniqueEvidence.Settings.Assignment

namespace UniqueEvidence.Settings

/-- Variables by name. -/
abbrev Variables := String → Option String

/-! ### References -/

/-- A reference to a variable, and the text that stands for it if there is none. -/
structure Reference where
  name : String
  fallback : String

/-- A part of a value. -/
inductive Piece where
  | plain (c : Char)
  | reference (r : Reference)

/-- The reference after an opening brace, and the text after it. -/
def readReference? (cs : List Char) : Option (Reference × List Char) :=
  let inName (c : Char) : Bool := c != '\x7d' && c != ':'
  let name := String.ofList (cs.takeWhile inName)
  match cs.dropWhile inName with
  | '\x7d' :: rest => some (⟨name, ""⟩, rest)
  | ':' :: '-' :: inner =>
    match inner.dropWhile (· != '\x7d') with
    | _ :: rest => some (⟨name, String.ofList (inner.takeWhile (· != '\x7d'))⟩, rest)
    | [] => none
  | _ => none

/-- The first parts of a value, at most so many. -/
def piecesWithin : Nat → List Char → List Piece
  | 0, _ => []
  | _ + 1, [] => []
  | count + 1, c :: cs =>
    match c, cs with
    | '$', '\x7b' :: inner =>
      match readReference? inner with
      | some (r, rest) => .reference r :: piecesWithin count rest
      | none => .plain c :: piecesWithin count cs
    | _, _ => .plain c :: piecesWithin count cs

/-- The parts of a value.  There are no more of them than characters. -/
def pieces (value : String) : List Piece :=
  piecesWithin value.length value.toList

/-- The reference that a part of a value is. -/
def Piece.reference? : Piece → Option Reference
  | plain _ => none
  | reference r => some r

/-- A value with its references replaced.  What is put in for them is not looked at again. -/
def expand (meaning : Reference → String) (value : String) : String :=
  String.join ((pieces value).map fun
    | .plain c => String.singleton c
    | .reference r => meaning r)

/-! ### Assignments -/

/-- What a reference stands for.  A name without a value stands for no text. -/
def Reference.meaning (vars : Variables) (earlier : List Assignment) (r : Reference) : String :=
  match vars r.name with
  | some value => value
  | none =>
    match earlier.reverse.find? (·.name = r.name) with
    | some a => a.value.getD ""
    | none => r.fallback

/-- The assignments with the references in their values replaced, after some that are done. -/
def resolveAfter (vars : Variables) (earlier : List Assignment) : List Assignment → List Assignment
  | [] => earlier
  | a :: rest =>
    let a := { a with value := a.value.map (expand (Reference.meaning vars earlier)) }
    resolveAfter vars (earlier ++ [a]) rest

/-- The assignments with the references in their values replaced. -/
def resolve (vars : Variables) (assignments : List Assignment) : List Assignment :=
  resolveAfter vars [] assignments

/-- The names that the values of assignments refer to. -/
def referredTo (assignments : List Assignment) : List String :=
  (assignments.flatMap fun a => pieces (a.value.getD "")).filterMap fun p =>
    p.reference?.map Reference.name

/-- The variables with those of a file where there are none.  A name without a value takes back an
earlier one. -/
def Variables.withFile (vars : Variables) (text : String) : Variables := fun name =>
  vars name <|>
    ((resolve vars (readAssignments text)).reverse.find? (·.name = name)).bind Assignment.value

end UniqueEvidence.Settings
