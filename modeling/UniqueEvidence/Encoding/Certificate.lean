/-
Certificates as JSON.  Arguments of rules are written untagged: a term as an object, a tuple as a
list, an atom as itself.

* `Certificate.toJson`, `Certificate.ofJson`: writing and reading.
-/
import UniqueEvidence.Certificate
import UniqueEvidence.Encoding.Declarations

namespace UniqueEvidence

namespace Argument

mutual

/-- An argument as a JSON value. -/
def toJson : Argument → Json
  | term t => t.toJson
  | atom a => a.toJson
  | tuple args => .arr (toJsonAll args)

/-- Several arguments as JSON values. -/
def toJsonAll : List Argument → List Json
  | [] => []
  | a :: rest => a.toJson :: toJsonAll rest

end

mutual

/-- The argument a JSON value describes. -/
def ofJson : Json → Except DecodeError Argument
  | .arr items => do return tuple (← ofJsonAll items)
  | .obj members => do return term (← Term.ofJson (.obj members))
  | j => do return atom (← j.atom)

/-- The arguments that JSON values describe. -/
def ofJsonAll : List Json → Except DecodeError (List Argument)
  | [] => return []
  | j :: rest => do return (← ofJson j) :: (← ofJsonAll rest)

end

end Argument

namespace Call

/-- The call that the members `rule` and `args` describe. -/
def ofJson (j : Json) : Except DecodeError Call := do
  let rule ← (← j.field "rule").1.atom
  return { rule, args := ← j.listField "args" Argument.ofJson }

end Call

namespace Certificate

mutual

/-- A certificate as a JSON value. -/
def toJson : Certificate → Json
  | hole goal => .obj [("type", .str "hole"), ("goal", goal.toJson)]
  | step call children =>
    .obj [("type", .str "step"), ("rule", call.rule.toJson),
      ("args", .arr (Argument.toJsonAll call.args)), ("children", .arr (toJsonAll children))]

/-- Several certificates as JSON values. -/
def toJsonAll : List Certificate → List Json
  | [] => []
  | c :: rest => c.toJson :: toJsonAll rest

end

/-- The certificate a JSON value describes. -/
def ofJson (j : Json) : Except DecodeError Certificate := do
  match (← j.field "type").1 with
  | .str "hole" => return hole (← Goal.ofJson (← j.field "goal").1)
  | _ =>
    let call ← Call.ofJson j
    let ⟨children, _⟩ ← j.field "children"
    let ⟨items, _⟩ ← children.objects
    return step call (← items.attach.mapM fun ⟨item, _⟩ => ofJson item)
termination_by sizeOf j
decreasing_by
  have := List.sizeOf_lt_of_mem ‹item ∈ items›
  omega

end Certificate

end UniqueEvidence
