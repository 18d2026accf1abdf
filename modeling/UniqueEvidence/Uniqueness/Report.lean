/-
Reports of a run.

* `Solution.report`: for reading;
* `Solution.toJson`: for programs, with the certificate.
-/
import UniqueEvidence.Encoding.Certificate
import UniqueEvidence.Uniqueness.Solution

namespace UniqueEvidence

namespace Branch

/-- A branch as a JSON value. -/
def toJson (b : Branch) : Json :=
  .obj [
    ("constructor", b.ctor.toJson),
    ("status", .str b.status.name),
    ("reason", (b.outcome.obstacle?.map fun o => Json.str o.reason).getD .null),
    ("detail", .str b.detail),
    ("residual", (b.outcome.residual?.map Goal.toJson).getD .null),
    ("destructed", .bool b.destructed)]

/-- A branch as a row of the table. -/
def row (b : Branch) : String :=
  let reason := (b.outcome.obstacle?.map fun o => " (" ++ o.reason ++ ")").getD ""
  "| " ++ b.ctor.plain ++ " | " ++ b.status.name ++ reason ++ " | " ++ b.detail ++ " |\n"

end Branch

namespace Solution

/-- The report of a run as a JSON value. -/
def toJson (s : Solution) (name : Json) : Json :=
  .obj [
    ("type", .str "report"),
    ("name", name),
    ("closed", .bool s.isClosed),
    ("head", .str s.comparison.head.render),
    ("icount", .int s.comparison.icount),
    ("swapped", .bool s.comparison.swapped),
    ("index_types", .arr (s.comparison.indices.types.map Term.toJson)),
    ("motive", s.curried.toJson),
    ("phases", .arr (phases.map Json.str)),
    ("branches", .arr (s.branches.map Branch.toJson)),
    ("open_goals", .arr (s.openGoals.map Goal.toJson)),
    ("steps", .int s.proof.size),
    ("proof", s.proof.toJson)]

/-- What is left open, or that nothing is. -/
def verdict (s : Solution) : String :=
  if s.isClosed then
    "Closed: " ++ toString s.proof.size ++ " kernel step(s), no open goals.\n"
  else
    toString s.openGoals.length ++ " open goal(s):\n" ++
      String.join (s.openGoals.map fun g => "\n```\n" ++ g.render ++ "\n```\n")

/-- The report of a run. -/
def report (s : Solution) (name : Json) : String :=
  "# " ++ name.plain ++ "\n\n" ++
  "Goal: `" ++ s.goal.target.render ++ "`\n" ++
  "Head: `" ++ s.comparison.head.render ++ "` with " ++ toString
    s.comparison.icount ++ " index(es)\n" ++
  (if s.comparison.swapped then "Sides were swapped so the scrutinee is on the right.\n" else "") ++
  "Phases: " ++ " -> ".intercalate phases ++ "\n\n" ++
  "| Case | Status | Detail |\n|------|--------|--------|\n" ++
  String.join (s.branches.map Branch.row) ++ "\n" ++
  s.verdict

end Solution

end UniqueEvidence
