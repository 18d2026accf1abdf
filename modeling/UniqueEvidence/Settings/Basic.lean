/-
Settings of a run.

* `Settings`: the bounds of the engine, and the least level that is logged;
* `Settings.ofVariables`: settings from variables, with a default for each that is not set.
-/
import UniqueEvidence.Settings.Number
import UniqueEvidence.Settings.Variables
import UniqueEvidence.Uniqueness.Branch

namespace UniqueEvidence

/-- Settings of a run. -/
structure Settings extends Bounds where
  level : Level := .warning

namespace Settings

/-- Why variables give no settings. -/
inductive Error where
  | notInteger (variableName raw : String)
  | negative (variableName : String) (value : Int)
  | unknownLevel

/-- The wording of an error. -/
def Error.message : Error → String
  | notInteger x raw => x ++ " must be an integer, got " ++ Text.quote raw
  | negative x value => x ++ " must be non-negative, got " ++ toString value
  | unknownLevel =>
    "UIPDEC_LOG_LEVEL must be one of " ++ ", ".intercalate (Level.all.map Level.name)

/-- The value of a bound.  A blank value counts as none. -/
def bound (vars : Variables) (name : String) (default : Int) : Except Error Int :=
  match vars name with
  | none => .ok default
  | some raw =>
    if (Text.trim raw.toList).isEmpty then .ok default
    else match readInteger? raw with
      | none => .error (.notInteger name raw)
      | some value => if value < 0 then .error (.negative name value) else .ok value

/-- The capital form of a letter, as far as names of levels need it. -/
def capital (c : Char) : Char :=
  if c = 'ı' then 'I' else c.toUpper

/-- The level of a name, in capital or small letters and possibly with blanks around it. -/
def readLevel? (s : String) : Option Level :=
  let name := String.ofList ((Text.trim s.toList).map capital)
  Level.all.find? (·.name = name)

/-- The settings that variables give. -/
def ofVariables (vars : Variables) : Except Error Settings := do
  let defaults : Settings := {}
  let searchDepth ← bound vars "UIPDEC_SEARCH_DEPTH" defaults.searchDepth
  let destructSteps ← bound vars "UIPDEC_MAX_DESTRUCT_STEPS" defaults.destructSteps
  match vars "UIPDEC_LOG_LEVEL" with
  | none => return { searchDepth, destructSteps }
  | some raw =>
    match readLevel? raw with
    | some level => return { searchDepth, destructSteps, level }
    | none => throw .unknownLevel

/-- Settings as they are shown in the log. -/
def describe (s : Settings) : String :=
  "EngineConfig(search_depth=" ++ toString s.searchDepth ++ ", max_destruct_steps=" ++
    toString s.destructSteps ++ ", log_level=" ++ Text.quote s.level.name ++ ")"

end Settings

end UniqueEvidence
