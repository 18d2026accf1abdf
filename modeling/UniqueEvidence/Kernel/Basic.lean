/-
The proof kernel: declarations and deciders, with the depth to which it computes.

* `Kernel.normalize`, `Kernel.convertible`, `Kernel.decider?`: the computations on terms, which fail
  once the depth is spent;
* `familyAt`: a family at an index tuple given in reversed order.
-/
import UniqueEvidence.Decider
import UniqueEvidence.Fault

namespace UniqueEvidence

/-- What the rules refer to. -/
structure Kernel where
  env : Environment
  registry : Registry
  /-- The depth to which terms are normalised and typed. -/
  depth : Nat := Term.defaultDepth

/-- The result of a bounded computation. -/
def withinDepth {α : Type} : Option α → Except Fault α
  | some a => .ok a
  | none => .error .exhausted

/-- The family `head` at an index tuple in reversed order, in normal form. -/
def familyAt (depth : Nat) (head : Term) (reversed : Tuple) : Except Fault Term :=
  withinDepth ((head.applyTuple reversed.reverse).normalize depth)

namespace Kernel

/-- The normal form of a term. -/
def normalize (k : Kernel) (t : Term) : Except Fault Term :=
  withinDepth (t.normalize k.depth)

/-- Whether two terms are convertible. -/
def convertible (k : Kernel) (a b : Term) : Except Fault Bool :=
  withinDepth (Term.convertible k.depth a b)

/-- The decider for a type. -/
def decider? (k : Kernel) (ty : Term) : Except Fault (Option Decider) :=
  withinDepth (k.registry.lookup? k.depth ty)

end Kernel

end UniqueEvidence
