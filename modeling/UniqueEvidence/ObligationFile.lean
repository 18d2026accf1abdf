/-
Obligation files.  A file defines names in order; some of them are functions of its own that can be
called for an obligation.

* `Source`: what is found at a path.  The system may refuse to give the contents, and contents or
  path may not be text;
* `Definition.isFactory`: the definitions that may be called: own functions with a public name;
* `inOrder`: the definitions in the order of their names: names known to every file first, then by
  first definition;
* `candidates`: the factories that are called: those with a name in `_obligation` if there are any,
  otherwise all;
* `firstObligation`: calls candidates in order until one gives an obligation;
* `load`: the obligation of a file, or why there is none.
-/
import UniqueEvidence.Obligation
import UniqueEvidence.Session
import UniqueEvidence.Vocabulary

namespace UniqueEvidence

/-- What a call gives. -/
inductive Product where
  | obligation (o : Obligation)
  /-- A value of another kind. -/
  | other (kind : String)
  /-- No value, but an error. -/
  | raised (text : String)

/-- A name that a file defines. -/
structure Definition where
  name : String
  /-- Whether it is a function of the file itself. -/
  isOwnFunction : Bool
  call : Work Product

/-- What ends the execution of a file before its end. -/
inductive Failure where
  /-- An error. -/
  | raised (text : String)
  /-- The file ends the whole program. -/
  | exited (status : Nat)

/-- A file that was read. -/
structure ObligationFile where
  definitions : List Definition
  failure : Option Failure := none

/-- An error of the system, when it is asked for the contents of a file. -/
structure SystemError where
  number : Nat
  text : String

namespace SystemError

/-- There is nothing at the path. -/
def missing : SystemError := ⟨2, "No such file or directory"⟩

/-- There is a directory at the path. -/
def directory : SystemError := ⟨21, "Is a directory"⟩

/-- The wording of an error about a path. -/
def message (e : SystemError) (path : String) : String :=
  "[Errno " ++ toString e.number ++ "] " ++ e.text ++ ": " ++ Text.quote path

end SystemError

/-- Why there is no text at a path. -/
inductive Illegible where
  /-- The path has a zero character, so the system is not even asked. -/
  | zeroInPath
  /-- The contents are bytes that encode no text. -/
  | undecodable
  deriving DecidableEq

/-- The wording of the error. -/
def Illegible.message : Illegible → String
  | zeroInPath => "embedded null byte"
  | undecodable => "the contents are not encoded text"

/-- What is found at a path. -/
inductive Source where
  | refused (e : SystemError)
  | illegible (why : Illegible)
  | file (f : ObligationFile)

/-- What is found at a path, if `found` is what the system has there. -/
def Source.find (found : String → Source) (path : String) : Source :=
  if '\x00' ∈ path.toList then .illegible .zeroInPath else found path

/-- Why a file gives no obligation. -/
inductive LoadError where
  | refused (e : SystemError) (path : String)
  | illegible (why : Illegible)
  | exited (status : Nat)
  | failed (text : String)
  | noFactory
  /-- All candidates were called. -/
  | noObligation (reasons : List String)

/-- The wording of a load error. -/
def LoadError.message : LoadError → String
  | refused e path => "Could not read file: " ++ e.message path
  | illegible why => why.message
  | exited status => toString status
  | failed text => "Code execution failed: " ++ text
  | noFactory => "No callable obligation factory found in file"
  | noObligation reasons => "; ".intercalate reasons

/-- Why a call gave no obligation. -/
def Product.complaint (name : String) : Product → String
  | obligation _ => ""
  | other kind => "'" ++ name ++ "()' returned " ++ kind ++ ", expected Obligation"
  | raised text => "'" ++ name ++ "()' raised: " ++ text

/-- Whether a definition can be called for an obligation. -/
def Definition.isFactory (d : Definition) : Bool :=
  d.isOwnFunction && !d.name.startsWith "_"

/-- Whether a name says that it stands for an obligation. -/
def isObligationName (name : String) : Bool :=
  name.endsWith "_obligation"

/-- The definitions in the order of their names.  A name defined twice counts once, with its last
meaning in its first place; the names that every file knows have their places before all others. -/
def inOrder (definitions : List Definition) : List Definition :=
  let distinct := keepLast Definition.name definitions
  vocabulary.filterMap (fun name => distinct.find? (·.name = name)) ++
    distinct.filter (·.name ∉ vocabulary)

/-- The factories that are called. -/
def candidates (definitions : List Definition) : List Definition :=
  let factories := (inOrder definitions).filter Definition.isFactory
  let named := factories.filter fun d => isObligationName d.name
  if named.isEmpty then factories else named

/-- The first obligation that a call gives, or the complaints about all calls. -/
def firstObligation : List Definition → Work (Except (List String) Obligation)
  | [] => return .error []
  | d :: rest => do
    match ← d.call with
    | .obligation o => return .ok o
    | failed => return (← firstObligation rest).mapError (failed.complaint d.name :: ·)

/-- The obligation found at a path. -/
def load (path : String) : Source → Work (Except LoadError Obligation)
  | .refused e => return .error (.refused e path)
  | .illegible why => return .error (.illegible why)
  | .file f =>
    match f.failure, candidates f.definitions with
    | some (.raised text), _ => return .error (.failed text)
    | some (.exited status), _ => return .error (.exited status)
    | none, [] => return .error .noFactory
    | none, ds => return (← firstObligation ds).mapError .noObligation

end UniqueEvidence
