/-
Obligation files that are built in.

* `Examples.unitPair`: two indices of decidable types, `unit` and `unit * unit`;
* `Examples.shapeIndex`: a family over a data type, with one impossible case;
* `Examples.nodeSubst`: indices that mention hypotheses, solved by substitution;
* `Examples.missingDecider`: no decider for one index type, so that the surviving case stays open;
* `Examples.source?`, `Examples.source`: the files by path.
-/
import UniqueEvidence.Encoding.Registry
import UniqueEvidence.ObligationFile

namespace UniqueEvidence.Examples

/-- The data type `shape`, of trees without labels. -/
def shape : DataType where
  name := "shape"
  ctors := [⟨"sunit", []⟩, ⟨"spair", [.const "shape", .const "shape"]⟩]

/-- The tree without branches. -/
def sunit : Term := .const "sunit"

/-- The tree with two branches. -/
def spair (a b : Term) : Term := Term.apps (.const "spair") [a, b]

/-- Two trees `a` and `b`. -/
def twoShapes : List Binding :=
  [⟨"a", .const "shape"⟩, ⟨"b", .const "shape"⟩]

/-- Evidence `h` of a type. -/
def evidence (ty : Term) : Binding := ⟨"h", ty⟩

/-- A new registry, with a structural decider for each of the data types. -/
def registryWith : List DataType → Work Registry
  | [] => Work.newRegistry
  | d :: rest => do
    let r ← registryWith rest
    match r.add (.fact (.const d.name) (.structural d.name)) with
    | .ok (r, events) =>
      Work.log events
      return r
    | .error _ => return r

/-- A file with a single factory. -/
def fileOf (name : String) (call : Work Product) : ObligationFile :=
  { definitions := [{ name, isOwnFunction := true, call }] }

/-- Any `h : P tt (tt, tt)` is `mkP`. -/
def unitPair : Work Product := do
  let family : Family :=
    { name := "P"
      indexTypes := [.unit, .prod .unit .unit]
      ctors := [⟨"mkP", [], [.tt, .pair .tt .tt]⟩] }
  let ty := Term.apps (.const "P") [.tt, .pair .tt .tt]
  return .obligation
    { name := .str "unit_pair"
      env := { datatypes := [], families := [family], constants := [], distinct := by decide }
      goal := { hyps := [evidence ty], target := .eq ty (.const "mkP") (.var "h") }
      icount := .int 2
      registry := some (← registryWith []) }

/-- Any `h : R sunit` is `r_unit`, because `r_pair` has another index. -/
def shapeIndex : Work Product := do
  let family : Family :=
    { name := "R"
      indexTypes := [.const "shape"]
      ctors := [⟨"r_unit", [], [sunit]⟩, ⟨"r_pair", twoShapes, [spair (.var "a") (.var "b")]⟩] }
  let ty := Term.apps (.const "R") [sunit]
  return .obligation
    { name := .str "shape_index"
      env := { datatypes := [shape], families := [family], constants := [], distinct := by decide }
      goal := { hyps := [evidence ty], target := .eq ty (.const "r_unit") (.var "h") }
      icount := .int 1
      registry := some (← registryWith [shape]) }

/-- Any `h : S (spair x y)` is `s_node x y`. -/
def nodeSubst : Work Product := do
  let family : Family :=
    { name := "S"
      indexTypes := [.const "shape"]
      ctors := [⟨"s_leaf", [], [sunit]⟩, ⟨"s_node", twoShapes, [spair (.var "a") (.var "b")]⟩] }
  let ty := Term.apps (.const "S") [spair (.var "x") (.var "y")]
  return .obligation
    { name := .str "node_subst"
      env := { datatypes := [shape], families := [family], constants := [], distinct := by decide }
      goal :=
        { hyps := [⟨"x", .const "shape"⟩, ⟨"y", .const "shape"⟩, evidence ty]
          target := .eq ty (.var "h") (Term.apps (.const "s_node") [.var "x", .var "y"]) }
      icount := .int 1
      registry := some (← registryWith [shape]) }

/-- Any `h : Q tt sunit` is `q_leaf`, which needs a decider for `shape`. -/
def missingDecider : Work Product := do
  let family : Family :=
    { name := "Q"
      indexTypes := [.unit, .const "shape"]
      ctors := [⟨"q_leaf", [], [.tt, sunit]⟩,
        ⟨"q_node", twoShapes, [.tt, spair (.var "a") (.var "b")]⟩] }
  let ty := Term.apps (.const "Q") [.tt, sunit]
  return .obligation
    { name := .str "missing_decider"
      env := { datatypes := [shape], families := [family], constants := [], distinct := by decide }
      goal := { hyps := [evidence ty], target := .eq ty (.const "q_leaf") (.var "h") }
      icount := .int 2
      registry := some (← registryWith []) }

/-- The built-in files by path, and their directory. -/
def source? : String → Option Source
  | "examples" => some (.refused .directory)
  | "examples/unit_pair.py" => some (.file (fileOf "unit_pair_obligation" unitPair))
  | "examples/shape_index.py" => some (.file (fileOf "shape_index_obligation" shapeIndex))
  | "examples/node_subst.py" => some (.file (fileOf "node_subst_obligation" nodeSubst))
  | "examples/missing_decider.py" =>
    some (.file (fileOf "missing_decider_obligation" missingDecider))
  | _ => none

/-- What is found at a path if there are only the built-in files. -/
def source (path : String) : Source :=
  (source? path).getD (.refused .missing)

end UniqueEvidence.Examples
