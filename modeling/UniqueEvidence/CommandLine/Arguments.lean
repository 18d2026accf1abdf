/-
Reading the command line.  The program and each of its commands have an interface: flags, which may
stand anywhere and may be abbreviated, and positional arguments.

* `Interface`: the flags, the usage line and the help of the program or a command;
* `Interface.classify`: an argument as a flag, an unknown flag, or a positional argument;
* `Interface.readFlag`: the flags that one argument sets, as in `-vh`;
* `parseArguments`: the invocation that arguments ask for, or why the program stops at once.

All arguments are classified before the first one takes effect, and flags take effect from left to
right.
-/
import UniqueEvidence.Text.Classes
import UniqueEvidence.Text.Quoted

namespace UniqueEvidence.CommandLine

/-- A flag. -/
inductive Flag where
  | help
  | json
  | verbose
  deriving DecidableEq

/-- The spellings of a flag. -/
def Flag.names : Flag → List String
  | help => ["-h", "--help"]
  | json => ["--json"]
  | verbose => ["--verbose", "-v"]

/-- The flag in messages. -/
def Flag.label (f : Flag) : String :=
  "/".intercalate f.names

/-- The interface of the program or of a command. -/
structure Interface where
  name : String
  usage : String
  help : String
  flags : List Flag

/-- Why the program stops at once. -/
inductive Stop where
  /-- Help was asked for. -/
  | help (interface : Interface)
  /-- The arguments are wrong. -/
  | error (interface : Interface) (message : String)

/-- A flag as an argument gives it. -/
inductive FlagUse where
  /-- A flag by its name. -/
  | plain (flag : Flag)
  /-- A flag with a value, which no flag takes. -/
  | valued (flag : Flag) (value : String)
  /-- A short flag with more letters after it, each again a short flag. -/
  | cluster (flag : Flag) (more : List Char)
  /-- A flag that the interface does not have. -/
  | unknown (text : String)

/-- What an argument is. -/
inductive Token where
  /-- The mark `--`, after which all arguments are positional. -/
  | mark
  | positional (text : String)
  | flag (use : FlagUse)

/-- The argument itself, where it is not a flag. -/
def Token.text? : Token → Option String
  | mark => some "--"
  | positional text => some text
  | flag _ => none

/-- A text at its first `=`, if it has one. -/
def splitValue (s : String) : String × Option String :=
  let cs := s.toList
  match cs.dropWhile (· != '=') with
  | [] => (s, none)
  | _ :: value => (String.ofList (cs.takeWhile (· != '=')), some (String.ofList value))

/-- Whether an argument that starts with a dash is a negative number: digits, or digits after a
point with or without digits before it.  A line break at the end is ignored. -/
def isNegativeNumber (s : String) : Bool :=
  let isDigit (c : Char) : Bool := (Text.decimalValue? c).isSome
  match s.toList with
  | '-' :: body =>
    let body := if body.getLast? = some '\n' then body.dropLast else body
    match body.dropWhile isDigit with
    | [] => !body.isEmpty
    | '.' :: decimals => !decimals.isEmpty && decimals.all isDigit
    | _ => false
  | _ => false

namespace Interface

/-- The spellings of all flags. -/
def spellings (i : Interface) : List (String × Flag) :=
  i.flags.flatMap fun f => f.names.map (·, f)

/-- The flag of a spelling. -/
def flag? (i : Interface) (name : String) : Option Flag :=
  i.spellings.lookup name

/-- A long flag with the value that follows it, if one does. -/
def withValue (flag : Flag) : Option String → FlagUse
  | none => .plain flag
  | some value => .valued flag value

/-- A flag with a value, by the spelling that was used.  Letters after a short flag are flags, with
`=` between them or without. -/
def spelledWithValue (name : String) (flag : Flag) (value : String) : FlagUse :=
  if name.startsWith "--" || value.isEmpty then .valued flag value else .cluster flag value.toList

/-- The flags that an argument with an unknown spelling may stand for: long flags that it
abbreviates, or a short flag that it starts with. -/
def readings (i : Interface) (arg : String) : List (String × FlagUse) :=
  match arg.toList with
  | '-' :: '-' :: _ =>
    let (start, value) := splitValue arg
    i.spellings.filterMap fun (name, f) => if name.startsWith start then
      some (name, withValue f value) else none
  | '-' :: c :: more =>
    let name := String.ofList ['-', c]
    ((i.flag? name).map fun f => (name, .cluster f more)).toList
  | _ => []

/-- What an argument is that starts with a dash and is no spelling of a flag. -/
def classifyUnspelled (i : Interface) (arg : String) : Except Stop Token :=
  match i.readings arg with
  | [(_, use)] => return .flag use
  | [] =>
    if isNegativeNumber arg || arg.contains ' ' then return .positional arg
      else return .flag (.unknown arg)
  | several =>
    .error (.error i
      ("ambiguous option: " ++ arg ++ " could match " ++ ", ".intercalate (several.map Prod.fst)))

/-- What an argument before the mark is. -/
def classify (i : Interface) (arg : String) : Except Stop Token :=
  if !arg.startsWith "-" then return .positional arg
  else if let some f := i.flag? arg then return .flag (.plain f)
  else if arg = "-" then return .positional arg
  else match splitValue arg with
    | (name, some value) =>
      match i.flag? name with
      | some f => return .flag (spelledWithValue name f value)
      | none => i.classifyUnspelled arg
    | (_, none) => i.classifyUnspelled arg

/-- What the arguments are. -/
def classifyAll (i : Interface) : List String → Except Stop (List Token)
  | [] => return []
  | "--" :: rest => return .mark :: rest.map .positional
  | arg :: rest => do return (← i.classify arg) :: (← i.classifyAll rest)

/-- The complaint about a value given to a flag. -/
def ignoredValue (i : Interface) (f : Flag) (value : String) : Stop :=
  .error i ("argument " ++ f.label ++ ": ignored explicit argument " ++ Text.quote value)

/-- The flags in an argument that starts with a short flag.  A letter that is no flag makes it and
all that follows a value of the flag before it. -/
def readCluster (i : Interface) (flag : Flag) : List Char → Except Stop (List Flag)
  | [] => return [flag]
  | c :: more =>
    match i.flag? (String.ofList ['-', c]) with
    | some next => do return flag :: (← i.readCluster next more)
    | none => .error (i.ignoredValue flag (String.ofList (c :: more)))

/-- The flags that an argument sets, and the argument itself if it means nothing. -/
def readFlag (i : Interface) : FlagUse → Except Stop (List Flag × List String)
  | .plain f => return ([f], [])
  | .valued f value => .error (i.ignoredValue f value)
  | .cluster f more => do return (← i.readCluster f more, [])
  | .unknown text => return ([], [text])

/-- The same, where help stops the program. -/
def useFlag (i : Interface) (use : FlagUse) : Except Stop (List Flag × List String) := do
  let (flags, left) ← i.readFlag use
  if flags.contains .help then throw (.help i)
  return (flags, left)

end Interface

/-! ### Commands -/

/-- The arguments of a command. -/
structure CommandArguments where
  files : List String
  flags : List Flag
  /-- Arguments that mean nothing here. -/
  extras : List String

/-- The state of reading: files once they are known, flags and extras so far. -/
structure Reading where
  files : Option (List String) := none
  flags : List Flag := []
  extras : List String := []

/-- Uses up the positional arguments between two flags.  The first such run names the files. -/
def Reading.useRun (r : Reading) (run : List Token) : Reading :=
  let texts := run.filterMap Token.text?
  let namesFiles := run.any fun
    | .positional _ => true
    | _ => false
  match r.files with
  | none => if namesFiles then { r with files := some (texts.erase "--") }
    else { r with extras := r.extras ++ texts }
  | some _ => { r with extras := r.extras ++ texts }

/-- Reads the classified arguments of a command; `run` holds the positional ones since the last
flag. -/
def readTokens (i : Interface) (r : Reading) (run : List Token) : List Token → Except Stop Reading
  | [] => return r.useRun run
  | .flag use :: rest => do
    let r := r.useRun run
    let (flags, left) ← i.useFlag use
    readTokens i { r with flags := r.flags ++ flags, extras := r.extras ++ left } [] rest
  | token :: rest => readTokens i r (run ++ [token]) rest

/-- Reads the arguments of a command. -/
def readCommand (i : Interface) (args : List String) : Except Stop CommandArguments := do
  let r ← readTokens i {} [] (← i.classifyAll args)
  match r.files with
  | none => throw (.error i "the following arguments are required: FILE")
  | some files => return { files, flags := r.flags, extras := r.extras }

/-! ### The program -/

/-- What the program is asked to do. -/
inductive Command where
  | prove (files : List String) (json verbose : Bool)
  | check (files : List String)

/-- Whether every step is to be logged. -/
def Command.isVerbose : Command → Bool
  | prove _ _ verbose => verbose
  | check _ => false

/-- The interfaces of the program and its commands. -/
structure Interfaces where
  program : Interface
  prove : Interface
  check : Interface

namespace Interfaces

/-- Reads a command by its name. -/
def readNamed (is : Interfaces) (name : String) (args : List String) :
    Except Stop (Command × List String) :=
  match name with
  | "prove" => do
    let a ← readCommand is.prove args
    return (.prove a.files (a.flags.contains .json) (a.flags.contains .verbose), a.extras)
  | "check" => do
    let a ← readCommand is.check args
    return (.check a.files, a.extras)
  | name =>
    .error (.error is.program
      ("argument command: invalid choice: " ++ Text.quote name ++
        " (choose from 'prove', 'check')"))

/-- Reads arguments up to the name of a command, and then the command.  Returns what means nothing,
too. -/
def read (is : Interfaces) : List Token → List String → Except Stop (Option Command × List String)
  | .flag use :: tokens, _ :: args => do
    let (_, left) ← is.program.useFlag use
    let (command, extras) ← is.read tokens args
    return (command, left ++ extras)
  | .positional name :: _, _ :: args => do
    let (command, extras) ← is.readNamed name args
    return (some command, extras)
  | [.mark], _ => return (none, ["--"])
  | .mark :: _, _ :: args => do
    let (command, extras) ← is.readNamed "--" args
    return (some command, extras)
  | _, _ => return (none, [])

/-- What the arguments ask for. -/
def parseArguments (is : Interfaces) (args : List String) : Except Stop (Option Command) := do
  let (command, extras) ← is.read (← is.program.classifyAll args) args
  if extras.isEmpty then return command
  else throw (.error is.program ("unrecognized arguments: " ++ " ".intercalate extras))

end Interfaces

end UniqueEvidence.CommandLine
