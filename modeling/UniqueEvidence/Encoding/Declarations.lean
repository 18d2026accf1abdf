/-
Goals and environments as JSON.

* `Goal.toJson`, `Goal.ofJson`, and the text forms `Goal.write` and `Goal.read`;
* `Environment.toJson`, `Environment.ofJson`: declarations in their order.  A missing `constants`
  member stands for no constants.
-/
import UniqueEvidence.Encoding.Term
import UniqueEvidence.Goal

namespace UniqueEvidence

namespace Goal

/-- A goal as a JSON value. -/
def toJson (g : Goal) : Json :=
  .obj [("type", .str "goal"), ("hyps", .arr (g.hyps.map Binding.toJson)),
    ("target", g.target.toJson)]

/-- The goal a JSON value describes. -/
def ofJson (j : Json) : Except DecodeError Goal := do
  let hyps ← j.listField "hyps" Binding.ofJson
  return { hyps, target := ← Term.ofJson (← j.field "target").1 }

/-- A goal as JSON text. -/
def write (g : Goal) : String :=
  g.toJson.write

/-- The goal a JSON text describes. -/
def read (text : String) : Except DecodeError Goal := do
  ofJson (← (Json.read text).mapError .unreadable)

end Goal

namespace DataType

/-- A data type as a JSON value. -/
def toJson (d : DataType) : Json :=
  .obj [("type", .str "datatype"), ("name", d.name.toJson),
    ("constructors", .arr (d.ctors.map fun c =>
      .obj [("name", c.name.toJson), ("arg_types", .arr (c.argTypes.map Term.toJson))]))]

/-- The data type a JSON value describes. -/
def ofJson (j : Json) : Except DecodeError DataType := do
  let ctors ← j.listField "constructors" fun c => do
    let name ← c.nameField "name"
    return { name, argTypes := ← c.listField "arg_types" Term.ofJson : DataCtor }
  return { name := ← j.nameField "name", ctors }

end DataType

namespace Family

/-- A family as a JSON value. -/
def toJson (f : Family) : Json :=
  .obj [("type", .str "family"), ("name", f.name.toJson),
    ("index_types", .arr (f.indexTypes.map Term.toJson)),
    ("constructors", .arr (f.ctors.map fun c =>
      .obj [("name", c.name.toJson), ("binders", .arr (c.binders.map Binding.toJson)),
        ("indices", .arr (c.indices.map Term.toJson))]))]

/-- The family a JSON value describes. -/
def ofJson (j : Json) : Except DecodeError Family := do
  let ctors ← j.listField "constructors" fun c => do
    let name ← c.nameField "name"
    let binders ← c.listField "binders" Binding.ofJson
    return { name, binders, indices := ← c.listField "indices" Term.ofJson : FamilyCtor }
  let name ← j.nameField "name"
  return { name, indexTypes := ← j.listField "index_types" Term.ofJson, ctors }

end Family

namespace Environment

/-- An environment as a JSON value. -/
def toJson (env : Environment) : Json :=
  .obj [("type", .str "environment"), ("datatypes", .arr (env.datatypes.map DataType.toJson)),
    ("families", .arr (env.families.map Family.toJson)),
    ("constants", .obj (env.constants.map fun c => (c.name, c.ty.toJson)))]

/-- The environment a JSON value describes. -/
def ofJson (j : Json) : Except DecodeError Environment := do
  let datatypes ← j.listField "datatypes" DataType.ofJson
  let families ← j.listField "families" Family.ofJson
  let members ← match j.member? "constants" with
    | some constants => constants.1.mapping
    | none => pure []
  let constants ← members.mapM fun (name, ty) => return { name, ty := ← Term.ofJson ty : Constant }
  match of? datatypes families constants with
  | .ok env => return env
  | .error name => throw (.duplicate name)

end Environment

end UniqueEvidence
