/-
Obligations: a goal with all that is needed to prove it.

* `Obligation.solve`: runs the engine;
* `Obligation.check`: replays a certificate against the obligation's goal.
-/
import UniqueEvidence.Json.Basic
import UniqueEvidence.Uniqueness.Solution

namespace UniqueEvidence

/-- A goal, its declarations, the number of indices to generalise, and deciders of its own or the
shared ones. -/
structure Obligation where
  name : Json
  env : Environment
  goal : Goal
  /-- The number of indices.  That it is a number matters when the obligation is solved. -/
  icount : Json
  /-- Its own deciders; without them the shared registry is used. -/
  registry : Option Registry

namespace Obligation

/-- The kernel of an obligation. -/
def kernel (o : Obligation) (shared : Registry) : Kernel where
  env := o.env
  registry := o.registry.getD shared

/-- Runs the engine on an obligation. -/
def solve (o : Obligation) (shared : Registry) (bounds : Bounds) : Logged Solution :=
  match o.icount.integer? with
  | some icount => (o.kernel shared).solve o.goal icount bounds
  | none => Logged.fail .notNumber

/-- The goals that a solution's certificate leaves open, if it fits the obligation. -/
def check (o : Obligation) (shared : Registry) (s : Solution) : Logged (List Goal) :=
  (o.kernel shared).replay o.goal s.proof

end Obligation

end UniqueEvidence
