/-
A small environment, in which the general theorems are shown to apply.

* `Sample.env`: unlabelled binary trees, and evidence `S` of a tree that says whether it is a leaf
  or a node;
* `Sample.goal`: any `h : S (spair x y)` is `s_node x y`;
* `Sample.equated`, `Sample.replaced`: a goal with an equation for a variable, and the goal without
  them;
* `Sample.indexed`: a goal with an equation between index tuples.
-/
import UniqueEvidence.Examples

namespace UniqueEvidence.Sample

/-- Evidence of a tree, one constructor for each form. -/
def family : Family where
  name := "S"
  indexTypes := [.const "shape"]
  ctors := [⟨"s_leaf", [], [.const "sunit"]⟩,
    ⟨"s_node", [⟨"a", .const "shape"⟩, ⟨"b", .const "shape"⟩],
      [Term.apps (.const "spair") [.var "a", .var "b"]]⟩]

/-- The two declarations. -/
def env : Environment where
  datatypes := [Examples.shape]
  families := [family]
  constants := []
  distinct := by decide

/-- The kernel with the given deciders, which need not compute deep. -/
def kernel (registry : Registry) : Kernel where
  env := env
  registry := registry
  depth := 40

/-- The registry with a decider for trees. -/
def registry : Registry :=
  ⟨Registry.default.facts ++ [(.const "shape", .structural "shape")], Registry.default.rules⟩

/-- The type `S (spair x y)`. -/
def nodeType : Term :=
  .app (.const "S") (Term.apps (.const "spair") [.var "x", .var "y"])

/-- Any `h : S (spair x y)` is `s_node x y`. -/
def goal : Goal where
  hyps := [⟨"x", .const "shape"⟩, ⟨"y", .const "shape"⟩, ⟨"h", nodeType⟩]
  target := .eq nodeType (.var "h") (Term.apps (.const "s_node") [.var "x", .var "y"])

/-- Evidence of `x`, and an equation between `x` and a later variable. -/
def equated : Goal where
  hyps := [⟨"x", .const "shape"⟩, ⟨"h", .app (.const "S") (.var "x")⟩, ⟨"y", .const "shape"⟩,
    ⟨"e", .eq (.const "shape") (.var "x") (.var "y")⟩]
  target := .eq (.app (.const "S") (.var "x")) (.var "h") (.var "h")

/-- The same with `y` in the place of `x`. -/
def replaced : Goal where
  hyps := [⟨"y", .const "shape"⟩, ⟨"h", .app (.const "S") (.var "y")⟩]
  target := .eq (.app (.const "S") (.var "y")) (.var "h") (.var "h")

/-- The index `spair x x`. -/
def doubled : Tuple :=
  [⟨.const "shape", Term.apps (.const "spair") [.var "x", .var "x"]⟩]

/-- The index `spair y sunit`. -/
def grafted : Tuple :=
  [⟨.const "shape", Term.apps (.const "spair") [.var "y", .const "sunit"]⟩]

/-- An equation between the two indices. -/
def indexed : Goal where
  hyps := [⟨"x", .const "shape"⟩, ⟨"y", .const "shape"⟩,
    ⟨"pf", .eq (Tuple.ty doubled) (Tuple.toTerm doubled) (Tuple.toTerm grafted)⟩]
  target := .eq (.eq (Tuple.ty doubled) (Tuple.toTerm doubled) (Tuple.toTerm grafted))
    (.var "pf") (.var "pf")

end UniqueEvidence.Sample
