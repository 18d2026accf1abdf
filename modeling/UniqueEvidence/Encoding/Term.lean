/-
Terms as JSON: an object with the tag of the form under `type`, and one member a field.

* `Term.toJson`, `Term.ofJson`: writing and reading;
* `Term.displayJson?`: the readable form of a term as a value.
-/
import UniqueEvidence.Encoding.Basic
import UniqueEvidence.Term.Render

namespace UniqueEvidence

namespace Term

/-- A term as a JSON value. -/
def toJson : Term → Json
  | var x => .obj [("type", .str "var"), ("name", x.toJson)]
  | const c => .obj [("type", .str "const"), ("name", c.toJson)]
  | app fn arg => .obj [("type", .str "app"), ("fn", fn.toJson), ("arg", arg.toJson)]
  | lam x ty body =>
    .obj [("type", .str "lam"), ("name", x.toJson), ("ty", ty.toJson), ("body", body.toJson)]
  | pi x ty body =>
    .obj [("type", .str "pi"), ("name", x.toJson), ("ty", ty.toJson), ("body", body.toJson)]
  | sort => .obj [("type", .str "sort")]
  | unit => .obj [("type", .str "unit")]
  | tt => .obj [("type", .str "tt")]
  | prod a b => .obj [("type", .str "prod"), ("fst", a.toJson), ("snd", b.toJson)]
  | pair a b => .obj [("type", .str "pair"), ("fst", a.toJson), ("snd", b.toJson)]
  | eq ty lhs rhs =>
    .obj [("type", .str "eq"), ("ty", ty.toJson), ("lhs", lhs.toJson), ("rhs", rhs.toJson)]
  | refl ty value => .obj [("type", .str "refl"), ("ty", ty.toJson), ("value", value.toJson)]
  | transport head src dst proof value =>
    .obj [("type", .str "transport"), ("head", head.toJson), ("src", src.toJson),
      ("dst", dst.toJson), ("proof", proof.toJson), ("value", value.toJson)]

/-- The term a JSON value describes.  Members are read in the order in which they are written. -/
def ofJson (j : Json) : Except DecodeError Term := do
  let tag ← j.field "type"
  match tag.1 with
  | .str "var" => return var (← j.nameField "name")
  | .str "const" => return const (← j.nameField "name")
  | .str "app" =>
    let ⟨fn, _⟩ ← j.field "fn"
    let fn ← ofJson fn
    let ⟨arg, _⟩ ← j.field "arg"
    return app fn (← ofJson arg)
  | .str "lam" =>
    let x ← j.nameField "name"
    let ⟨ty, _⟩ ← j.field "ty"
    let ty ← ofJson ty
    let ⟨body, _⟩ ← j.field "body"
    return lam x ty (← ofJson body)
  | .str "pi" =>
    let x ← j.nameField "name"
    let ⟨ty, _⟩ ← j.field "ty"
    let ty ← ofJson ty
    let ⟨body, _⟩ ← j.field "body"
    return pi x ty (← ofJson body)
  | .str "sort" => return sort
  | .str "unit" => return unit
  | .str "tt" => return tt
  | .str "prod" =>
    let ⟨a, _⟩ ← j.field "fst"
    let a ← ofJson a
    let ⟨b, _⟩ ← j.field "snd"
    return prod a (← ofJson b)
  | .str "pair" =>
    let ⟨a, _⟩ ← j.field "fst"
    let a ← ofJson a
    let ⟨b, _⟩ ← j.field "snd"
    return pair a (← ofJson b)
  | .str "eq" =>
    let ⟨ty, _⟩ ← j.field "ty"
    let ty ← ofJson ty
    let ⟨lhs, _⟩ ← j.field "lhs"
    let lhs ← ofJson lhs
    let ⟨rhs, _⟩ ← j.field "rhs"
    return eq ty lhs (← ofJson rhs)
  | .str "refl" =>
    let ⟨ty, _⟩ ← j.field "ty"
    let ty ← ofJson ty
    let ⟨value, _⟩ ← j.field "value"
    return refl ty (← ofJson value)
  | .str "transport" =>
    let ⟨head, _⟩ ← j.field "head"
    let head ← ofJson head
    let ⟨src, _⟩ ← j.field "src"
    let src ← ofJson src
    let ⟨dst, _⟩ ← j.field "dst"
    let dst ← ofJson dst
    let ⟨proof, _⟩ ← j.field "proof"
    let proof ← ofJson proof
    let ⟨value, _⟩ ← j.field "value"
    return transport head src dst proof (← ofJson value)
  | tag => throw (.unknownForm tag.plain)
termination_by sizeOf j

/-- The notation of a term as a JSON value, if it is proper.  A bare name is written as itself. -/
def displayJson? (t : Term) : Option Json :=
  match t with
  | var x | const x => some x.toJson
  | t => if t.isReadable then some (.str t.render) else none

end Term

namespace Binding

/-- A binding as a JSON value. -/
def toJson (b : Binding) : Json :=
  .obj [("name", b.name.toJson), ("ty", b.ty.toJson)]

/-- The binding a JSON value describes. -/
def ofJson (j : Json) : Except DecodeError Binding := do
  let name ← j.nameField "name"
  return ⟨name, ← Term.ofJson (← j.field "ty").1⟩

end Binding

end UniqueEvidence
