/-
Certificates: trees of rule applications, with holes for the goals left open.

* `Certificate.holes`, `Certificate.size`: the open goals, and the number of rule applications;
* `Certificate.chain`: single-subgoal steps, outermost first, around a rest;
* `Kernel.replay`: re-runs every rule from a goal.  A certificate is trusted only as far as the
  rules' own checks.
-/
import UniqueEvidence.Kernel.Apply
import UniqueEvidence.Log

namespace UniqueEvidence

/-- A proof, complete up to its holes. -/
inductive Certificate where
  /-- A goal left open. -/
  | hole (goal : Goal)
  /-- A rule application, with a proof for each subgoal. -/
  | step (call : Call) (children : List Certificate)
  deriving Inhabited

namespace Certificate

mutual

/-- The open goals, in order. -/
def holes : Certificate → List Goal
  | hole goal => [goal]
  | step _ children => holesAll children

/-- The open goals of several certificates, in order. -/
def holesAll : List Certificate → List Goal
  | [] => []
  | c :: rest => c.holes ++ holesAll rest

end

mutual

/-- The number of rule applications. -/
def size : Certificate → Nat
  | hole _ => 0
  | step _ children => 1 + sizeAll children

/-- The number of rule applications in several certificates. -/
def sizeAll : List Certificate → Nat
  | [] => 0
  | c :: rest => c.size + sizeAll rest

end

mutual

/-- The rules in the order in which they are applied, with `none` for a hole. -/
def trace : Certificate → List (Option Atom)
  | hole _ => [none]
  | step call children => some call.rule :: traceAll children

/-- The rules of several certificates. -/
def traceAll : List Certificate → List (Option Atom)
  | [] => []
  | c :: rest => c.trace ++ traceAll rest

end

/-- The given steps, the first one outermost, around a rest. -/
def chain (calls : List Call) (tail : Certificate) : Certificate :=
  calls.foldr (fun call inner => step call [inner]) tail

/-- A rule that leaves no subgoals. -/
def leaf (rule : Rule) : Certificate :=
  step rule.call []

end Certificate

namespace Kernel

/-- Applies a rule and reports it. -/
def perform (k : Kernel) (goal : Goal) (rule : Rule) : Logged (List Goal) := do
  let subgoals ← k.run goal rule
  Logged.note (.ruleApplied rule.call.rule subgoals.length)
  return subgoals

/-- Applies a call and reports it. -/
def performCall (k : Kernel) (goal : Goal) (call : Call) : Logged (List Goal) := do
  let subgoals ← k.apply goal call
  Logged.note (.ruleApplied call.rule subgoals.length)
  return subgoals

mutual

/-- The goals a certificate leaves open, if it fits the goal. -/
def replay (k : Kernel) (goal : Goal) : Certificate → Logged (List Goal)
  | .hole expected =>
    if expected = goal then return [goal] else Logged.fail (.refused .wrongHole)
  | .step call children => do
    let subgoals ← k.performCall goal call
    if subgoals.length = children.length then
      k.replayAll subgoals children
    else
      Logged.fail (.refused (.wrongBranching call.rule subgoals.length children.length))

/-- The goals that certificates leave open, each on its own goal. -/
def replayAll (k : Kernel) (goals : List Goal) : List Certificate → Logged (List Goal)
  | [] => return []
  | c :: rest =>
    match goals with
    | [] => return []
    | goal :: goals => do
      let first ← k.replay goal c
      return first ++ (← k.replayAll goals rest)

end

end Kernel

end UniqueEvidence
