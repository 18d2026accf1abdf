/-
Uniqueness of evidence: a proof of `lhs = rhs` between evidence of an indexed family, given
decidable equality on the index types.

* `Kernel.prepare`: brings the goal into the form of the motive at the right side's indices, and
  splits on the right side;
* `Kernel.solve`: works on every branch and assembles the certificate.  A goal of the wrong shape is
  a mismatch; what goes wrong inside a branch only leaves that branch open.
-/
import UniqueEvidence.Uniqueness.Branch
import UniqueEvidence.Uniqueness.Motive

namespace UniqueEvidence

/-- The result of a run. -/
structure Solution where
  goal : Goal
  comparison : Comparison
  motive : Motive
  /-- The motive as the split uses it. -/
  curried : Term
  proof : Certificate
  /-- One branch for each constructor, in order of declaration. -/
  branches : List Branch

namespace Solution

/-- The goals left open. -/
def openGoals (s : Solution) : List Goal :=
  s.proof.holes

/-- Whether nothing is left open. -/
def isClosed (s : Solution) : Bool :=
  s.openGoals.isEmpty

/-- The branches of a status. -/
def withStatus (s : Solution) (status : Status) : List Branch :=
  s.branches.filter (·.status = status)

end Solution

/-- The stages of a run. -/
def phases : List String :=
  ["init", "oriented", "introspected", "generalized", "split"]

namespace Kernel

/-- Brings the goal into the form of the motive and splits on the right side. -/
def prepare (k : Kernel) (c : Comparison) (m : Motive) (curried : Term) :
    Attempt (List (FamilyCtor × Option Goal)) := do
  if c.swapped then Attempt.step k .symmetry
  Attempt.step k (.change (.eq c.evidenceType m.reflexiveLhs c.rhs))
  let target ← (m.target k.depth c.indices c.rhs : Logged Term)
  Attempt.step k (.generalize target m.reflWitness)
  (k.caseBranches (← Attempt.goal) c.rhs c.icount curried :
    Logged (List (FamilyCtor × Option Goal)))

/-- Works on the branches in order. -/
def workOn (k : Kernel) (bounds : Bounds) : List (FamilyCtor × Option Goal) → Logged (List Branch)
  | [] => return []
  | (c, none) :: rest => do
    Logged.note (.impossible c.name)
    return { ctor := c.name, outcome := .impossible } :: (← k.workOn bounds rest)
  | (c, some goal) :: rest => do
    let b ← k.branch bounds c.name goal
    return b :: (← k.workOn bounds rest)

/-- Proves a goal by uniqueness of evidence, generalising over the last `icount` indices. -/
def solve (k : Kernel) (goal : Goal) (icount : Int) (bounds : Bounds) : Logged Solution := do
  let c ← k.comparison goal icount
  let (motive, curried) ← k.motive c goal.names
  let (work, trail) := k.prepare c motive curried { goal }
  let cases ← work.mapOutcome (refusalAs (.unsplittable c.rhs))
  Logged.note (.split c.rhs cases.length)
  let branches ← k.workOn bounds cases
  let split :=
    Certificate.step (Rule.case c.rhs icount curried).call (branches.filterMap (·.outcome.proof?))
  let s : Solution :=
    { goal, comparison := c, motive, curried, proof := trail.finish split, branches }
  Logged.note (.summary branches.length (s.withStatus .discharged).length
    (s.withStatus .contradicted).length (s.withStatus .leftOpen).length)
  return s

end Kernel

end UniqueEvidence
