/-
The two pieces of evidence that a goal compares, and what their type says.

* `orient`: the equation of a goal with the side to be analysed on the right;
* `Kernel.comparison`: the head and the last indices of that side's type.  How many indices there
  are is given, never guessed: an index may be an application that must stay whole.
-/
import UniqueEvidence.Kernel.Typing
import UniqueEvidence.Log

namespace UniqueEvidence

/-- Evidence `lhs` and `rhs` of the family `head` at an index tuple. -/
structure Comparison where
  head : Term
  /-- The indices, last one first. -/
  reversed : Tuple
  lhs : Term
  rhs : Term
  /-- Whether the sides of the goal were exchanged. -/
  swapped : Bool

namespace Comparison

/-- The number of indices. -/
def icount (c : Comparison) : Nat :=
  c.reversed.length

/-- The indices in natural order. -/
def indices (c : Comparison) : Tuple :=
  c.reversed.reverse

/-- The common type of both sides. -/
def evidenceType (c : Comparison) : Term :=
  c.head.applyTuple c.indices

end Comparison

/-- Whether a term is a hypothesis or an opaque constant, possibly applied.  Terms built by
constructors are not. -/
def Environment.isNeutral (env : Environment) (t : Term) : Bool :=
  match t.head with
  | .var _ | .const _ => (env.constructorHead? t).isNone
  | _ => false

/-- A refusal reported as a mismatch. -/
def refusalAs {α : Type} (f : Refusal → Mismatch) : Except Fault α → Except Fault α
  | .error (.refused why) => .error (.mismatch (f why))
  | x => x

namespace Kernel

/-- The equation a target stands for, with a neutral side on the right, and whether the sides were
exchanged. -/
def orient (k : Kernel) (target : Term) : Logged (Equation × Bool) := do
  let target ← k.normalize target
  match Equation.ofTerm? target with
  | none => Logged.fail (.mismatch (.notEquation target))
  | some e =>
    if !k.env.isNeutral e.rhs && k.env.isNeutral e.lhs then
      Logged.note (.sidesSwapped target)
      return (e.swap, true)
    else
      return (e, false)

/-- The head of a type and its last `count` arguments with their types, last one first. -/
def peel (k : Kernel) (ctx : Context) (scrutinee : Term) (icount : Int) :
    Nat → Nat → Term → Except Fault (Term × Tuple)
  | _, 0, ty => return (ty, [])
  | found, count + 1, .app fn arg => do
    let ty ← refusalAs (.untypedIndex arg) (k.infer ctx arg)
    let (head, rest) ← k.peel ctx scrutinee icount (found + 1) count fn
    return (head, ⟨ty, arg⟩ :: rest)
  | found, _ + 1, _ => .error (.mismatch (.fewArguments scrutinee found icount))

/-- The comparison that a goal asks for, at so many indices. -/
def comparison (k : Kernel) (goal : Goal) (icount : Int) : Logged Comparison := do
  if icount < 0 then Logged.fail (.mismatch (.negativeCount icount))
  let (e, swapped) ← k.orient goal.target
  let ty ← refusalAs .untypedScrutinee (k.infer goal.context e.rhs)
  let (head, reversed) ← k.peel goal.context e.rhs icount 0 icount.toNat ty
  let c : Comparison := { head, reversed, lhs := e.lhs, rhs := e.rhs, swapped }
  Logged.note (.introspected head icount c.indices.values)
  return c

end Kernel

end UniqueEvidence
