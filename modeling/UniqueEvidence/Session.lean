/-
What a run of the command line accumulates.

* `Emission`: something printed, complained about or logged;
* `Session`: the registry shared by all obligations, once it is needed, and everything emitted so
  far;
* `Work`: computations in a session.
-/
import UniqueEvidence.Decider
import UniqueEvidence.Log

namespace UniqueEvidence

/-- Something a run emits. -/
inductive Emission where
  /-- A text for the reader. -/
  | printed (text : String)
  /-- A complaint. -/
  | complained (text : String)
  /-- A log entry. -/
  | logged (event : Event)

/-- What outlives the work on a single file. -/
structure Session where
  shared : Option Registry := none
  /-- Everything emitted so far, in order. -/
  transcript : List Emission := []

namespace Session

/-- What is printed. -/
def output (s : Session) : String :=
  String.join (s.transcript.map fun
    | .printed text => text
    | _ => "")

/-- Complaints, and log entries of at least the given level. -/
def errors (s : Session) (level : Level) : String :=
  String.join (s.transcript.map fun
    | .printed _ => ""
    | .complained text => text
    | .logged e => if level.rank ≤ e.level.rank then e.line ++ "\n" else "")

end Session

/-- Computations in a session. -/
abbrev Work := StateM Session

namespace Work

/-- Emits something. -/
def emit (e : Emission) : Work Unit :=
  modify fun s => { s with transcript := s.transcript ++ [e] }

/-- Prints a line. -/
def print (line : String) : Work Unit :=
  emit (.printed (line ++ "\n"))

/-- Complains in a line. -/
def complain (line : String) : Work Unit :=
  emit (.complained (line ++ "\n"))

/-- Logs events. -/
def log (events : List Event) : Work Unit :=
  modify fun s => { s with transcript := s.transcript ++ events.map .logged }

/-- Makes a logged computation. -/
def ofLogged {α : Type} (x : Logged α) : Work (Except Fault α) := do
  log x.log
  return x.worded

/-- A new registry with the base facts. -/
def newRegistry : Work Registry := do
  log (Registry.default.facts.map fun (_, d) => .registered d.name)
  return .default

/-- The shared registry, which is made when it is first needed. -/
def sharedRegistry : Work Registry := do
  match (← get).shared with
  | some r => return r
  | none =>
    let r ← newRegistry
    modify fun s => { s with shared := some r }
    return r

end Work

end UniqueEvidence
