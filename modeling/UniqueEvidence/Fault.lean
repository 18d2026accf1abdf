/-
What can go wrong, as causes with one wording each.

* `Refusal`: a rule is applied where its preconditions do not hold;
* `Mismatch`: an obligation does not have the shape the engine handles;
* `Stuck`: a branch that could not be closed;
* `Fault`: any of these, or a computation that gave no answer.
-/
import UniqueEvidence.Argument
import UniqueEvidence.Goal

namespace UniqueEvidence

/-- Why a rule does not apply. -/
inductive Refusal where
  -- typing
  | unboundVariable (name : Name)
  | undeclaredConstant (name : Name)
  | notFunction (fn : Term)
  | wrongType (term actual expected : Term)
  | notType (term : Term)
  | untypable (arg : Argument)
  | unevenTransport
  -- rules in general
  | unknownRule (rule : Atom)
  | noHypothesis (arg : Argument)
  | notEquation (name : Name)
  | targetNotEquation
  | wrongNames (count : Nat) (given : Argument)
  | nameInUse (name : Name)
  | usedInTarget (name : Name)
  | usedBy (name user : Name)
  -- changing the target
  | targetNotConvertible
  | notProduct
  | notInstance
  | nothingToIntroduce
  -- case analysis
  | notEvidence (scrutinee : Term)
  | wrongIndexCount (given : Argument) (arity : Nat)
  | motiveIndices
  | motiveEvidence
  | motiveResult
  | motiveGoal
  | fixedIndex (ctor : Name)
  -- equations
  | notEqualConstructors (name : Name)
  | partialInjection (ctor name : Name)
  | notDistinctConstructors (name : Name)
  | notASide (name : Name) (side : Argument)
  | notEliminable (name : Name)
  | occursIn (name : Name) (value : Term)
  | noOrder
  | notReflexive (name : Name)
  | missingDecider (ty : Term)
  -- closing rules
  | sidesDiffer
  | notProof (arg : Argument)
  | notClosed
  | undecided (decider : Name)
  | headsDiffer
  | partialCongruence (ctor : Name)
  | dependentArguments (ctor : Name)
  | determinesIndex (argument ctor : Name)
  -- certificates
  | wrongHole
  | wrongBranching (rule : Atom) (subgoals covered : Nat)
  | notSingle (rule : Atom) (subgoals : Nat)

/-- The wording of a refusal. -/
def Refusal.message : Refusal → String
  | unboundVariable x => s!"unbound variable {x}"
  | undeclaredConstant c => s!"undeclared constant {c}"
  | notFunction fn => fn.render ++ " is not a function"
  | wrongType t actual expected =>
    t.render ++ " has type " ++ actual.render ++ ", expected " ++ expected.render
  | notType t => t.render ++ " is not a type"
  | untypable arg => "cannot type " ++ arg.describe
  | unevenTransport => "transport endpoints must be index tuples of equal length"
  | unknownRule rule => "unknown rule " ++ rule.describe
  | noHypothesis arg => "no hypothesis named " ++ arg.plain
  | notEquation x => s!"{x} is not an equation"
  | targetNotEquation => "target is not an equation"
  | wrongNames count given => s!"expected {count} distinct names, got " ++ given.plain
  | nameInUse x => s!"name {x} is already in use"
  | usedInTarget x => s!"{x} is still used in the target"
  | usedBy x user => s!"{x} is still used by {user}"
  | targetNotConvertible => "new target is not convertible with the old one"
  | notProduct => "generalized target must be a product"
  | notInstance => "instantiated generalization does not match the goal"
  | nothingToIntroduce => "nothing to introduce"
  | notEvidence t => t.render ++ " is not evidence of an indexed family"
  | wrongIndexCount given arity => "cannot generalize " ++ given.plain ++ s!" of {arity} indices"
  | motiveIndices => "motive does not abstract over the index types"
  | motiveEvidence => "motive does not abstract over the evidence"
  | motiveResult => "motive does not return a type"
  | motiveGoal => "motive does not match the goal"
  | fixedIndex c => s!"constructor {c} fixes an index outside the generalized tuple"
  | notEqualConstructors x => s!"{x} is not an equation between equal constructors"
  | partialInjection c x => s!"{c} is not fully applied in {x}"
  | notDistinctConstructors x => s!"{x} does not equate distinct constructors"
  | notASide x arg => s!"{x} does not have " ++ arg.plain ++ " on either side"
  | notEliminable x => s!"{x} is not a hypothesis that can be eliminated"
  | occursIn x value => s!"{x} occurs in " ++ value.render
  | noOrder => "hypotheses cannot be ordered after substitution"
  | notReflexive x => s!"{x} is not a reflexive equation"
  | missingDecider ty => "no decider registered for " ++ ty.render
  | sidesDiffer => "sides are not convertible"
  | notProof arg => arg.plain ++ " does not prove the target"
  | notClosed => "decision procedures only apply to closed values"
  | undecided d => s!"decider {d} does not establish the equation"
  | headsDiffer => "sides are not headed by the same constructor"
  | partialCongruence c => s!"{c} is not fully applied"
  | dependentArguments c => s!"{c} has dependent argument types"
  | determinesIndex x c => s!"argument {x} of {c} determines an index"
  | wrongHole => "open goal does not match the replayed goal"
  | wrongBranching rule subgoals covered =>
    s!"rule {rule} left {subgoals} subgoal(s), certificate covers {covered}"
  | notSingle rule subgoals => s!"rule {rule} left {subgoals} subgoals, expected one"

/-- Whether the terms that a refusal mentions have a proper notation. -/
def Refusal.isReadable : Refusal → Bool
  | notFunction t | notType t | notEvidence t | occursIn _ t | missingDecider t => t.isReadable
  | wrongType t actual expected => t.isReadable && actual.isReadable && expected.isReadable
  | _ => true

/-- Why an obligation is not of the shape the engine handles. -/
inductive Mismatch where
  | notEquation (target : Term)
  | negativeCount (icount : Int)
  | untypedScrutinee (why : Refusal)
  | fewArguments (scrutinee : Term) (found : Nat) (icount : Int)
  | untypedIndex (index : Term) (why : Refusal)
  | unsplittable (scrutinee : Term) (why : Refusal)

/-- The wording of a mismatch. -/
def Mismatch.message : Mismatch → String
  | notEquation target => "goal is not an equation: " ++ target.render
  | negativeCount icount => s!"index count must be non-negative, got {icount}"
  | untypedScrutinee why => "cannot type the scrutinee: " ++ why.message
  | fewArguments scrutinee found icount =>
    scrutinee.render ++ s!" has a type with {found} applied argument(s), {icount} requested"
  | untypedIndex index why => "cannot type index " ++ index.render ++ ": " ++ why.message
  | unsplittable scrutinee why => "cannot split " ++ scrutinee.render ++ ": " ++ why.message

/-- Whether the terms that a mismatch mentions have a proper notation. -/
def Mismatch.isReadable : Mismatch → Bool
  | notEquation target => target.isReadable
  | negativeCount _ => true
  | untypedScrutinee why => why.isReadable
  | fewArguments scrutinee _ _ => scrutinee.isReadable
  | untypedIndex index why => index.isReadable && why.isReadable
  | unsplittable scrutinee why => scrutinee.isReadable && why.isReadable

/-- Why a branch could not be closed, although no rule refused. -/
inductive Stuck where
  | stepLimit (limit : Int)
  | irreducible (name : Name) (equation : Term)
  | noProof (target : Term)

/-- The wording of a stuck branch. -/
def Stuck.message : Stuck → String
  | stepLimit limit => s!"index equation not simplified in {limit} steps"
  | irreducible x equation => s!"cannot simplify {x} : " ++ equation.render
  | noProof target => "no structural proof of " ++ target.render

/-- What can go wrong. -/
inductive Fault where
  /-- A rule does not apply. -/
  | refused (why : Refusal)
  /-- An obligation has the wrong shape. -/
  | mismatch (why : Mismatch)
  /-- A branch stays open. -/
  | stuck (why : Stuck)
  /-- A rule is given arguments it does not take. -/
  | misapplied (rule : Atom)
  /-- A constructor gives fewer indices than stay fixed in a case split. -/
  | missingIndex (ctor : Name)
  /-- A name queued as an index equation has another type. -/
  | notIndexEquation (name : Name)
  /-- The number of indices is not a number. -/
  | notNumber
  /-- A term is shown that has no proper notation. -/
  | unreadable
  /-- The recursion depth is spent. -/
  | exhausted

/-- The wording of a fault. -/
def Fault.message : Fault → String
  | refused why => why.message
  | mismatch why => why.message
  | stuck why => why.message
  | misapplied rule => s!"wrong arguments for rule {rule}"
  | missingIndex _ => "zip() argument 2 is longer than argument 1"
  | notIndexEquation x => s!"{x} is not an index equation"
  | notNumber => "the number of indices is not a number"
  | unreadable => "a name in an application is not text"
  | exhausted => "recursion depth exceeded"

/-- Whether the terms that a fault mentions have a proper notation. -/
def Fault.isReadable : Fault → Bool
  | refused why => why.isReadable
  | mismatch why => why.isReadable
  | _ => true

/-- The fault as it can be worded: one that mentions a term without a proper notation is a fault of
its own. -/
def Fault.worded (f : Fault) : Fault :=
  if f.isReadable then f else unreadable

/-- A refused rule. -/
def refuse {α : Type} (why : Refusal) : Except Fault α :=
  .error (.refused why)

end UniqueEvidence
