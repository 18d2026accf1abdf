/-
The interfaces of the program: usage lines and help.

* `interfaces`: the program and its two commands;
* `Stop.output`, `Stop.errors`, `Stop.status`: what is written when the program stops at once, and
  its exit status.
-/
import UniqueEvidence.CommandLine.Arguments

namespace UniqueEvidence.CommandLine

/-- The program without a command. -/
def program : Interface where
  name := "uipdec"
  usage := "usage: uipdec [-h] \x7bprove,check\x7d ...\n"
  help := "
Prove equalities between evidence of indexed predicates

positional arguments:
  \x7bprove,check\x7d  Available commands
    prove        Load obligation .py file(s), run the engine and print a
                 report.
    check        Run the engine and replay its certificate against the
                 original goal.

options:
  -h, --help     show this help message and exit
"
  flags := [.help]

/-- The command that runs the engine. -/
def prove : Interface where
  name := "uipdec prove"
  usage := "usage: uipdec prove [-h] [--json] [--verbose] FILE [FILE ...]\n"
  help := "
positional arguments:
  FILE           Obligation file(s) exposing a *_obligation() factory.

options:
  -h, --help     show this help message and exit
  --json         Print the reports as JSON, including the proof certificate.
  --verbose, -v  Log every engine phase and kernel step.
"
  flags := [.help, .json, .verbose]

/-- The command that replays certificates. -/
def check : Interface where
  name := "uipdec check"
  usage := "usage: uipdec check [-h] FILE [FILE ...]\n"
  help := "
positional arguments:
  FILE

options:
  -h, --help  show this help message and exit
"
  flags := [.help]

/-- The program and its commands. -/
def interfaces : Interfaces := { program, prove, check }

/-- The whole help of an interface. -/
def Interface.fullHelp (i : Interface) : String :=
  i.usage ++ i.help

namespace Stop

/-- What is printed before the program stops. -/
def output : Stop → String
  | help i => i.fullHelp
  | error .. => ""

/-- What is complained about before the program stops. -/
def errors : Stop → String
  | help _ => ""
  | error i message => i.usage ++ i.name ++ ": error: " ++ message ++ "\n"

/-- The exit status. -/
def status : Stop → Nat
  | help _ => 0
  | error .. => 2

end Stop

end UniqueEvidence.CommandLine
