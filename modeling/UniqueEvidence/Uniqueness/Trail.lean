/-
Working on one goal step by step.

* `Trail`: the goal reached, and the steps that led there;
* `Attempt`: work that moves along a trail.  What was reached is kept when the work fails;
* `Attempt.step`: applies a rule that leaves one subgoal.
-/
import UniqueEvidence.Certificate

namespace UniqueEvidence

/-- The goal reached by some steps. -/
structure Trail where
  goal : Goal
  /-- The steps so far, the first one first. -/
  calls : List Call := []
  /-- Whether the index equation is fully simplified. -/
  destructed : Bool := false

/-- The certificate that follows the trail and ends as given. -/
def Trail.finish (t : Trail) (tail : Certificate) : Certificate :=
  .chain t.calls tail

/-- Work along a trail: its outcome, and where it ended. -/
def Attempt (α : Type) : Type :=
  Trail → Logged α × Trail

namespace Attempt

/-- One piece of work after another. -/
protected def bind {α β : Type} (x : Attempt α) (f : α → Attempt β) : Attempt β := fun t =>
  match x t with
  | (⟨.ok a, log⟩, t) =>
    let (y, t) := f a t
    (⟨y.outcome, log ++ y.log⟩, t)
  | (⟨.error e, log⟩, t) => (⟨.error e, log⟩, t)

instance : Monad Attempt where
  pure a := fun t => (pure a, t)
  bind := Attempt.bind

instance : MonadLift Logged Attempt where
  monadLift x := fun t => (x, t)

/-- The goal reached. -/
def goal : Attempt Goal := fun t =>
  (pure t.goal, t)

/-- A failure. -/
def fail {α : Type} (f : Fault) : Attempt α := fun t =>
  (Logged.fail f, t)

/-- Goes on to a goal by a step. -/
def advance (call : Call) (goal : Goal) : Attempt Unit := fun t =>
  (pure (), { t with goal, calls := t.calls ++ [call] })

/-- Marks the index equation as simplified. -/
def markDestructed : Attempt Unit := fun t =>
  (pure (), { t with destructed := true })

/-- Applies a rule that must leave one subgoal. -/
def step (k : Kernel) (rule : Rule) : Attempt Unit := do
  match ← k.perform (← goal) rule with
  | [subgoal] => advance rule.call subgoal
  | subgoals => fail (.refused (.notSingle rule.call.rule subgoals.length))

/-- Replaces the target by its normal form. -/
def stepNormalize (k : Kernel) : Attempt Unit := do
  let target ← (k.normalize (← goal).target : Logged Term)
  step k (.change target)

end Attempt

end UniqueEvidence
