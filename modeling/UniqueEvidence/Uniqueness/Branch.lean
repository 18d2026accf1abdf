/-
The branches of the case split.

* `Attempt.discharge`: closes the goal of a branch, or fails on the way;
* `Outcome`: what became of a branch.  A failure inside a branch leaves that branch open and nothing
  else;
* `Kernel.branch`: the outcome of working on a branch.
-/
import UniqueEvidence.Kernel.Search
import UniqueEvidence.Uniqueness.IndexEquation

namespace UniqueEvidence

/-- Limits of the work on a branch. -/
structure Bounds where
  /-- How deep congruence may be nested in the search. -/
  searchDepth : Int := 3
  /-- How many index equations may be simplified. -/
  destructSteps : Int := 64
  deriving DecidableEq

/-- Why a branch stays open. -/
inductive Obstacle where
  | refused (why : Refusal)
  | stuck (why : Stuck)

namespace Obstacle

/-- The obstacle that a fault is, if it concerns one branch only. -/
def ofFault? : Fault → Option Obstacle
  | .refused why => some (refused why)
  | .stuck why => some (stuck why)
  | _ => none

/-- Whether a decider is missing. -/
def isMissingDecider : Obstacle → Bool
  | refused (.missingDecider _) => true
  | _ => false

/-- The kind of obstacle. -/
def reason (o : Obstacle) : String :=
  if o.isMissingDecider then "missing_decider" else "unresolved"

/-- The wording of an obstacle. -/
def message : Obstacle → String
  | refused why => why.message
  | stuck why => why.message

end Obstacle

/-- How a closed branch was closed. -/
inductive Closing where
  /-- Both sides are equal. -/
  | discharged
  /-- The index equation is contradictory. -/
  | contradicted

namespace Attempt

/-- Closes the goal of a branch: by a contradiction between its indices, or by uniqueness of
identity proofs for the index type and a search. -/
def discharge (k : Kernel) (bounds : Bounds) : Attempt (Closing × Certificate) := do
  let pf := fresh "pf" (← goal).names
  step k (.intro pf)
  stepNormalize k
  let contradiction ← destructure k pf bounds.destructSteps bounds.destructSteps.toNat [pf]
  markDestructed
  match contradiction with
  | some x => return (.contradicted, .leaf (.discriminate x))
  | none =>
    step k (.uip pf)
    stepNormalize k
    match ← k.search (← goal) bounds.searchDepth with
    | some proof => return (.discharged, proof)
    | none => fail (.stuck (.noProof (← goal).target))

end Attempt

/-- What became of a branch. -/
inductive Outcome where
  /-- The split itself ruled the branch out. -/
  | impossible
  /-- The branch was closed. -/
  | closed (how : Closing) (proof : Certificate)
  /-- The branch stays open at a residual goal. -/
  | leftOpen (why : Obstacle) (residual : Goal) (proof : Certificate)

/-- The status of a branch. -/
inductive Status where
  | discharged
  | contradicted
  | leftOpen
  deriving DecidableEq

/-- The name of a status. -/
def Status.name : Status → String
  | discharged => "discharged"
  | contradicted => "contradicted"
  | leftOpen => "open"

/-- The status of a closed branch. -/
def Closing.status : Closing → Status
  | discharged => .discharged
  | contradicted => .contradicted

namespace Outcome

/-- The status of a branch. -/
def status : Outcome → Status
  | impossible => .contradicted
  | closed how _ => how.status
  | leftOpen .. => .leftOpen

/-- The proof of a branch, unless the split ruled it out. -/
def proof? : Outcome → Option Certificate
  | impossible => none
  | closed _ proof => some proof
  | leftOpen _ _ proof => some proof

/-- Why a branch stays open. -/
def obstacle? : Outcome → Option Obstacle
  | leftOpen why _ _ => some why
  | _ => none

/-- What is left of an open branch. -/
def residual? : Outcome → Option Goal
  | leftOpen _ residual _ => some residual
  | _ => none

end Outcome

/-- A branch of the split. -/
structure Branch where
  ctor : Name
  outcome : Outcome
  /-- Whether its index equation was fully simplified. -/
  destructed : Bool := false

namespace Branch

/-- The status of a branch. -/
def status (b : Branch) : Status :=
  b.outcome.status

/-- What an open branch lacks, in words. -/
def detail (b : Branch) : String :=
  (b.outcome.obstacle?.map Obstacle.message).getD ""

end Branch

namespace Kernel

/-- The outcome of work that ended at a trail.  Faults that do not concern the branch alone stay
faults. -/
def conclude (ctor : Name) (result : Except Fault (Closing × Certificate)) (trail : Trail) :
    Logged Branch := do
  match result with
  | .ok (how, tail) =>
    Logged.note (.settled ctor how.status.name)
    return { ctor, outcome := .closed how (trail.finish tail), destructed := trail.destructed }
  | .error f =>
    match Obstacle.ofFault? f with
    | none => Logged.fail f
    | some why =>
      Logged.note (.leftOpen ctor why.reason why.message)
      let proof := trail.finish (.hole trail.goal)
      return { ctor, outcome := .leftOpen why trail.goal proof, destructed := trail.destructed }

/-- Works on the branch of a constructor. -/
def branch (k : Kernel) (bounds : Bounds) (ctor : Name) (goal : Goal) : Logged Branch :=
  let (work, trail) := Attempt.discharge k bounds { goal }
  let ending := conclude ctor work.outcome trail
  ⟨ending.outcome, work.log ++ ending.log⟩

end Kernel

end UniqueEvidence
