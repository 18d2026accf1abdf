/-
Obligation files as JSON: a list of definitions under `functions`, and an error text under
`exec_error`.  A definition gives an obligation, raises an error, or returns a value; an obligation
is read when it is called for.

* `ObligationFile.ofJson`, `ObligationFile.read`: the file that a value or a text describes.
-/
import UniqueEvidence.Encoding.Registry
import UniqueEvidence.ObligationFile

namespace UniqueEvidence

/-- Makes additions to a registry.  The shared registry keeps them even if a later one fails. -/
def Work.extend (isShared : Bool) (r : Registry) (env : Environment) (adds : List Json) :
    Work (Except AdditionError Registry) := do
  let (r, events, problem) := r.addAll env adds
  log events
  if isShared then modify fun s => { s with shared := some r }
  match problem with
  | none => return .ok r
  | some e => return .error e

/-- Reads a part of a description. -/
def Work.part {α : Type} (x : Except DecodeError α) : ExceptT AdditionError Work α :=
  ExceptT.mk (pure (x.mapError .unreadable))

/-- The registry that a value describes: a base and additions. -/
def Registry.build (env : Environment) (j : Json) : ExceptT AdditionError Work Registry := do
  let base ← Work.part (j.textField "base")
  let r ← match base with
    | "empty" => pure Registry.empty
    | "global" => Work.sharedRegistry
    | _ => Work.newRegistry
  let adds ← Work.part (j.listField "adds" pure)
  ExceptT.mk (Work.extend (base == "global") r env adds)

/-- The obligation that a value describes.  Its registry is built last, when all else has been
read. -/
def Obligation.build (j : Json) : ExceptT AdditionError Work Obligation := do
  let env ← Work.part (do Environment.ofJson (← j.field "env").1)
  let name ← Work.part (Subtype.val <$> j.field "name")
  let goal ← Work.part (do Goal.ofJson (← j.field "goal").1)
  let icount ← Work.part (Subtype.val <$> j.field "icount")
  let registry ← match j.member? "registry" with
    | none | some ⟨.null, _⟩ => pure none
    | some ⟨r, _⟩ => some <$> Registry.build env r
  return { name, env, goal, icount, registry }

namespace Definition

/-- What calling a described function gives.  A member counts when it is there, even if it is null;
without any of the three the value is missing, which is an error of the call. -/
def product (j : Json) : Work Product := do
  match j.member? "obligation", j.member? "raises" with
  | some ⟨o, _⟩, _ =>
    match ← Obligation.build o with
    | .ok o => return .obligation o
    | .error e => return .raised e.message
  | none, some ⟨text, _⟩ => return .raised text.plain
  | none, none =>
    match j.field "value" with
    | .ok ⟨v, _⟩ => return .other v.kind.name
    | .error e => return .raised e.message

/-- The definition that a value describes. -/
def ofJson (j : Json) : Except DecodeError Definition := do
  let isOwnFunction := match j.member? "kind" with
    | none | some ⟨.str "def", _⟩ | some ⟨.str "lambda", _⟩ => true
    | _ => false
  return { name := ← j.textField "name", isOwnFunction, call := product j }

end Definition

namespace ObligationFile

/-- The file that a value describes. -/
def ofJson (j : Json) : Except DecodeError ObligationFile := do
  let definitions ← match j.member? "functions" with
    | none => pure []
    | some _ => j.listField "functions" Definition.ofJson
  return { definitions, failure := (j.member? "exec_error").map fun text => .raised text.1.plain }

/-- The file that a text describes. -/
def read (text : String) : ObligationFile :=
  match (Json.read text).mapError DecodeError.unreadable >>= ofJson with
  | .ok f => f
  | .error e => { definitions := [], failure := some (.raised e.message) }

end ObligationFile

end UniqueEvidence
