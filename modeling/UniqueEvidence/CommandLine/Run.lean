/-
Running the program.

* `Ending`, `Run`: how a run ends, and work that may end it before its time;
* `proveFile`, `checkFile`: one round of the two loops, the work on one file after others;
* `proveAll`, `checkAll`: the loops over all files;
* `runCommand`: settings, logging and the command;
* `RunResult`, `run`: a whole run from its arguments.
-/
import UniqueEvidence.CommandLine.Help
import UniqueEvidence.ObligationFile
import UniqueEvidence.Settings.Basic
import UniqueEvidence.Uniqueness.Report

namespace UniqueEvidence.CommandLine

/-- How a run ended. -/
inductive Ending where
  /-- By its arguments alone, or by a file that ends the program. -/
  | stopped (status : Nat)
  /-- After its work. -/
  | finished (status : Nat)
  /-- By a file that is not text. -/
  | illegible (why : Illegible)
  /-- By a fault. -/
  | broken (fault : Fault)

/-- Work that may end the run. -/
abbrev Run := ExceptT Ending Work

/-- The obligation of a file, after a complaint if there is none.  Nobody answers for a file that
is not text, or that ends the program. -/
def loadFile (sources : String → Source) (path : String) : Run (Option Obligation) := do
  match ← load path (Source.find sources path) with
  | .ok o => return some o
  | .error (.illegible why) => throw (.illegible why)
  | .error (.exited status) => throw (.stopped status)
  | .error e =>
    Work.complain (path ++ ": " ++ e.message)
    return none

/-- The deciders that an obligation uses. -/
def registryFor (o : Obligation) : Work Registry :=
  match o.registry with
  | some r => return r
  | none => Work.sharedRegistry

/-- Solves an obligation. -/
def solve (o : Obligation) (bounds : Bounds) : Work (Except Fault Solution) := do
  Work.ofLogged (o.solve (← registryFor o) bounds)

/-- Solves an obligation and replays the certificate. -/
def solveAndCheck (o : Obligation) (bounds : Bounds) :
    Work (Except Fault (Solution × List Goal)) := do
  match ← solve o bounds with
  | .error f => return .error f
  | .ok s =>
    match ← Work.ofLogged (o.check (← registryFor o) s) with
    | .error f => return .error f
    | .ok remaining => return .ok (s, remaining)

/-- Complains about an obligation. -/
def complainOf (o : Obligation) (text : String) : Work Unit :=
  Work.complain (o.name.plain ++ ": " ++ text)

/-- What a loop over files has come to: the status so far, and the reports that are kept. -/
structure Progress where
  status : Nat := 0
  reports : List Json := []

/-- Proves the obligation of a file and reports it, in print or as a JSON value. -/
def proveFile (sources : String → Source) (bounds : Bounds) (json : Bool) (p : Progress)
    (path : String) : Run Progress := do
  match ← loadFile sources path with
  | none => return { p with status := 2 }
  | some o =>
    match ← ExceptT.lift (solve o bounds) with
    | .error (.mismatch why) =>
      complainOf o ("structural mismatch: " ++ why.message)
      return { p with status := 2 }
    | .error f => throw (.broken f)
    | .ok s =>
      let status := if s.isClosed then p.status else max p.status 1
      if json then return { status, reports := p.reports ++ [s.toJson o.name] }
      Work.print (s.report o.name)
      return { p with status }

/-- Proves the obligation of a file and checks the certificate. -/
def checkFile (sources : String → Source) (bounds : Bounds) (status : Nat) (path : String) :
    Run Nat := do
  match ← loadFile sources path with
  | none => return 2
  | some o =>
    match ← ExceptT.lift (solveAndCheck o bounds) with
    | .error (.mismatch why) =>
      complainOf o ("structural mismatch: " ++ why.message)
      return 2
    | .error (.refused why) =>
      complainOf o ("certificate rejected: " ++ why.message)
      return 2
    | .error f => throw (.broken f)
    | .ok (s, remaining) =>
      if remaining = s.openGoals then
        Work.print (o.name.plain ++ ": certificate ok, " ++ toString remaining.length ++
          " open goal(s)")
        return if remaining.isEmpty then status else max status 1
      else
        complainOf o "replay left different open goals"
        return 2

/-- Proves the obligations of all files. -/
def proveAll (sources : String → Source) (bounds : Bounds) (json : Bool) (paths : List String) :
    Run Nat := do
  let p ← paths.foldlM (proveFile sources bounds json) {}
  if json then Work.print (Json.arr p.reports).write
  return p.status

/-- Checks the certificates of all files. -/
def checkAll (sources : String → Source) (bounds : Bounds) (paths : List String) : Run Nat :=
  paths.foldlM (checkFile sources bounds) 0

/-- Runs a command under given settings.  Without a command there is only help. -/
def runCommand (sources : String → Source) (settings : Settings) (command : Option Command) :
    Run Nat := do
  Work.log [.settings settings.describe]
  match command with
  | some (.prove files json _) => proveAll sources settings.toBounds json files
  | some (.check files) => checkAll sources settings.toBounds files
  | none =>
    Work.emit (.printed program.fullHelp)
    return 1

/-- A run: its ending, and what it wrote to either stream. -/
structure RunResult where
  ending : Ending
  output : String
  errors : String

/-- The settings of a command. -/
def settingsFor (settings : Settings) (command : Option Command) : Settings :=
  if command.any Command.isVerbose then { settings with level := .debug } else settings

/-- Runs the program, with the variables of the process and a file of variables. -/
def run (sources : String → Source) (vars : Settings.Variables) (file : String)
    (args : List String) : RunResult :=
  match interfaces.parseArguments args with
  | .error stop => { ending := .stopped stop.status, output := stop.output, errors := stop.errors }
  | .ok command =>
    match Settings.ofVariables (vars.withFile file) with
    | .error e =>
      { ending := .finished 2, output := "", errors :=
        "Invalid configuration: " ++ e.message ++ "\n" }
    | .ok settings =>
      let settings := settingsFor settings command
      let (result, session) := (runCommand sources settings command).run {}
      let ending := match result with
        | .ok status => .finished status
        | .error ending => ending
      { ending, output := session.output, errors := session.errors settings.level }

end UniqueEvidence.CommandLine
