/-
Goals: hypotheses in order, and a target.

* `Goal`: each hypothesis is meant to mention only the ones before it;
* `Goal.context`: the hypotheses as a typing context, in which the last type of a repeated name
  counts;
* `Goal.lookup?`, `Goal.position?`: the first hypothesis of a name;
* `Goal.render`: the hypotheses line by line, a rule, and the target.
-/
import UniqueEvidence.Environment
import UniqueEvidence.Term.Render

namespace UniqueEvidence

/-- A typing context. -/
abbrev Context := List Binding

/-- The type of a name in a context. -/
def Context.lookup? (ctx : Context) (name : Name) : Option Term :=
  (ctx.find? (·.name == name)).map Binding.ty

/-- A sequent: hypotheses and a target. -/
structure Goal where
  hyps : List Binding
  target : Term
  deriving DecidableEq, Inhabited

namespace Goal

/-- The names of the hypotheses. -/
def names (g : Goal) : List Name :=
  Binding.names g.hyps

/-- The hypotheses as a context. -/
def context (g : Goal) : Context :=
  keepLast Binding.name g.hyps

/-- The type of a hypothesis. -/
def lookup? (g : Goal) (name : Name) : Option Term :=
  (g.hyps.find? (·.name == name)).map Binding.ty

/-- The place of a hypothesis. -/
def position? (g : Goal) (name : Name) : Option Nat :=
  g.hyps.findIdx? (·.name == name)

/-- The goal with another target. -/
def withTarget (g : Goal) (target : Term) : Goal :=
  { g with target }

/-- The goal as text. -/
def render (g : Goal) : String :=
  let hyps := g.hyps.map fun h => h.name.plain ++ " : " ++ h.ty.render
  "\n".intercalate (hyps ++ ["============================", g.target.render])

/-- Whether the text of a goal is proper. -/
def isReadable (g : Goal) : Bool :=
  g.target.isWord && g.target.isReadable && g.hyps.all (·.ty.isReadable)

end Goal

/-- An equation between two terms of a type. -/
structure Equation where
  ty : Term
  lhs : Term
  rhs : Term
  deriving DecidableEq, Inhabited

namespace Equation

/-- The equation as a type. -/
def toTerm (e : Equation) : Term :=
  .eq e.ty e.lhs e.rhs

/-- The equation a type states. -/
def ofTerm? : Term → Option Equation
  | .eq ty lhs rhs => some ⟨ty, lhs, rhs⟩
  | _ => none

/-- The equation read from right to left. -/
def swap (e : Equation) : Equation :=
  ⟨e.ty, e.rhs, e.lhs⟩

end Equation

end UniqueEvidence
