/-
Bounded search for a proof of an equation.

* `Kernel.closeDirectly`: the closing rules, on the goal and on the goal with its sides exchanged;
* `Kernel.searchWithin`, `Kernel.search`: the same with congruence, nested at most so many times.
-/
import UniqueEvidence.Certificate

namespace UniqueEvidence

/-- The closing rules for a goal, in the order in which they are tried. -/
def Goal.closers (goal : Goal) : List Rule :=
  .reflexivity :: goal.hyps.map (fun h => .assumption h.name) ++ [.decide]

namespace Kernel

/-- The first of some rules that closes the goal. -/
def firstClosing (k : Kernel) (goal : Goal) : List Rule → Logged (Option Rule)
  | [] => return none
  | rule :: rest => do
    match ← (k.perform goal rule).attempt with
    | .ok [] => return some rule
    | _ => k.firstClosing goal rest

/-- Closes the goal by a hypothesis that proves the equation with its sides exchanged. -/
def closeFlipped (k : Kernel) (goal : Goal) : Logged (Option Certificate) := do
  match ← (k.perform goal .symmetry).attempt with
  | .ok [flipped] =>
    let found ← k.firstClosing flipped (flipped.hyps.map fun h => .assumption h.name)
    return found.map fun rule => .step Rule.symmetry.call [.leaf rule]
  | _ => return none

/-- Closes the goal without congruence. -/
def closeDirectly (k : Kernel) (goal : Goal) : Logged (Option Certificate) := do
  match ← k.firstClosing goal goal.closers with
  | some rule => return some (.leaf rule)
  | none => k.closeFlipped goal

/-- Closes all goals by one method, or gives up at the first that stays open. -/
def closeAll (close : Goal → Logged (Option Certificate)) (depth : Nat) :
    List Goal → Logged (Option (List Certificate))
  | [] => return some []
  | goal :: rest => do
    match ← close goal with
    | some c => return (← closeAll close depth rest).map (c :: ·)
    | none =>
      Logged.note (.subgoalOpen depth)
      return none

/-- Closes the goal by congruence, and the arguments' equations by the given method. -/
def closeByCongruence (k : Kernel) (close : Goal → Logged (Option Certificate)) (depth : Nat)
    (goal : Goal) : Logged (Option Certificate) := do
  match ← (k.perform goal .congruence).attempt with
  | .ok subgoals => return (← closeAll close depth subgoals).map (.step Rule.congruence.call)
  | .error _ => return none

/-- A proof of the goal with congruence nested at most `depth` times. -/
def searchWithin (k : Kernel) : Nat → Goal → Logged (Option Certificate)
  | 0, goal => k.closeDirectly goal
  | depth + 1, goal => do
    match ← k.closeDirectly goal with
    | some c => return some c
    | none => k.closeByCongruence (k.searchWithin depth) (depth + 1) goal

/-- A proof of the goal, if the search finds one.  A negative depth finds none. -/
def search (k : Kernel) (goal : Goal) (depth : Int) : Logged (Option Certificate) :=
  if depth < 0 then return none else k.searchWithin depth.toNat goal

end Kernel

end UniqueEvidence
