/-
Simplifying the index equation of a branch: first-order unification by kernel rules.

* `Attempt.simplify`: one equation.  It is dropped if its sides agree, split if they are built by
  one constructor, recognised as contradictory if they are built by two, and else used to eliminate
  a variable;
* `Attempt.destructure`: a queue of equations, until it is empty, a contradiction turns up, or the
  steps run out.

The equation `pf` that the queue starts with is split but never dropped: the target still mentions
it.
-/
import UniqueEvidence.Uniqueness.Trail

namespace UniqueEvidence

/-- How many equations between components an equation splits into, if both sides are built alike. -/
def Kernel.injectionWidth? (k : Kernel) (e : Equation) : Option Nat :=
  match e.ty, e.lhs, e.rhs with
  | .prod .., .pair .., .pair .. => some 2
  | _, lhs, rhs => do
    let c ← k.env.constructorHead? lhs
    guard (k.env.constructorHead? rhs = some c)
    let (_, ctor) ← k.env.dataCtor? c
    guard (lhs.args.length = ctor.arity ∧ rhs.args.length = ctor.arity)
    return ctor.arity

/-- The distinct constructors that an equation equates, the left one of a data type. -/
def Kernel.contradictory? (k : Kernel) (e : Equation) : Option (Name × Name) := do
  let left ← k.env.constructorHead? e.lhs
  let right ← k.env.constructorHead? e.rhs
  guard (left ≠ right ∧ (k.env.dataCtor? left).isSome)
  return (left, right)

/-- Whether a side of an equation is a hypothesis that does not occur in the other side. -/
def Goal.solves? (goal : Goal) (side other : Term) : Option Name :=
  match side with
  | .var x => if (goal.lookup? x).isSome && !other.occurs x then some x else none
  | _ => none

/-- The variable that an equation eliminates.  Of two candidates the later hypothesis goes, so that
earlier ones keep their names. -/
def Goal.eliminable? (goal : Goal) (e : Equation) : Option Name :=
  match goal.solves? e.lhs e.rhs, goal.solves? e.rhs e.lhs with
  | some x, some y =>
    if (goal.position? x).getD 0 < (goal.position? y).getD 0 then some y else some x
  | some x, none => some x
  | none, y => y

/-- The pending equations from the first one on that is still a hypothesis; those before it cost no
step. -/
def Goal.remaining (goal : Goal) (pending : List Name) : List Name :=
  pending.dropWhile fun x => (goal.lookup? x).isNone

/-- What became of an equation. -/
inductive Simplified where
  /-- It equates distinct constructors. -/
  | contradiction
  /-- The named equations are left of it. -/
  | parts (names : List Name)

namespace Attempt

/-- Drops an equation, unless it is the one that is kept. -/
def dropUnless (k : Kernel) (pf x : Name) : Attempt Unit :=
  if x = pf then pure () else step k (.clear x)

/-- The equation that a hypothesis states. -/
def equation (k : Kernel) (x : Name) : Attempt Equation := do
  match (← goal).lookup? x with
  | none => fail (.notIndexEquation x)
  | some ty =>
    match Equation.ofTerm? (← (k.normalize ty : Logged Term)) with
    | some e => return e
    | none => fail (.notIndexEquation x)

/-- Simplifies one equation. -/
def simplify (k : Kernel) (pf x : Name) : Attempt Simplified := do
  let e ← equation k x
  if ← (k.convertible e.lhs e.rhs : Logged Bool) then
    dropUnless k pf x
    return .parts []
  if let some width := k.injectionWidth? e then
    let parts := freshNames "H" (← goal).names width
    step k (.injection x parts)
    dropUnless k pf x
    return .parts parts
  if let some (left, right) := k.contradictory? e then
    Logged.note (.contradiction x left right)
    return .contradiction
  match (← goal).eliminable? e with
  | some y =>
    step k (.subst x y)
    return .parts []
  | none => fail (.stuck (.irreducible x e.toTerm))

/-- Simplifies the pending equations in order, those that a split leaves at the end, in at most so
many steps.  Returns the name of a contradictory equation, if one turns up. -/
def destructure (k : Kernel) (pf : Name) (limit : Int) : Nat → List Name → Attempt (Option Name)
  | 0, pending => do
    match (← goal).remaining pending with
    | [] => return none
    | _ :: _ => fail (.stuck (.stepLimit limit))
  | steps + 1, pending => do
    match (← goal).remaining pending with
    | [] => return none
    | x :: rest =>
      match ← simplify k pf x with
      | .contradiction => return some x
      | .parts names => destructure k pf limit steps (rest ++ names)

end Attempt

end UniqueEvidence
