/-
Descriptions of registries: a base, and additions to it.

* `Addition`: a fact or a rule to be added;
* `Registry.add`: adds it, unless the type has a decider already;
* `Registry.addAll`: reads and makes additions one by one, and stops at the first that fails.
-/
import UniqueEvidence.Decider
import UniqueEvidence.Encoding.Declarations
import UniqueEvidence.Log

namespace UniqueEvidence

/-- Something added to a registry. -/
inductive Addition where
  | fact (ty : Term) (decider : Decider)
  | rule (rule : DeciderRule)

/-- Why an addition failed. -/
inductive AdditionError where
  /-- Its description cannot be read. -/
  | unreadable (why : DecodeError)
  /-- The type, in normal form, has a decider already. -/
  | registered (key : Term)
  /-- The type was not normalised within the depth. -/
  | exhausted

/-- The wording of a failed addition. -/
def AdditionError.message : AdditionError → String
  | unreadable why => why.message
  | registered key => registeredMessage key
  | exhausted => Fault.exhausted.message

namespace Addition

/-- The decider of a name and a method: `alpha` compares terms, `always` and `never` do not look at
them. -/
def deciderOf (j : Json) : Except DecodeError Decider := do
  let name ← j.nameField "name"
  match ← j.textField "decide" with
  | "alpha" => return .structural name
  | "always" => return .always name
  | "never" => return ⟨name, fun _ _ => false⟩
  | other => throw (.missing other)

/-- The addition that a JSON value describes, over given declarations. -/
def ofJson (env : Environment) (j : Json) : Except DecodeError Addition := do
  match ← j.textField "do" with
  | "register" =>
    let ty ← Term.ofJson (← j.field "ty").1
    return fact ty (← deciderOf j)
  | "datatype" =>
    let name ← j.nameField "name"
    match env.datatype? name with
    | some d => return fact (.const d.name) (.structural d.name)
    | none => throw (.missing name)
  | "pair_rule" => return rule .pairs
  | "fixed_rule" =>
    let ty ← Term.ofJson (← j.field "ty").1
    return rule (.fixed ty (← deciderOf j))
  | other => throw (.missing other)

end Addition

namespace Registry

/-- The registry with an addition, and what is reported of it. -/
def add (r : Registry) : Addition → Except AdditionError (Registry × List Event)
  | .fact ty d =>
    match ty.normalize Term.defaultDepth with
    | none => .error .exhausted
    | some key =>
      match r.register? key d with
      | some r => .ok (r, [.registered d.name])
      | none => .error (.registered key)
  | .rule rule => .ok (r.addRule rule, [])

/-- Makes the described additions in order.  Returns the registry reached, what was reported on the
way, and why it stopped early, if it did. -/
def addAll (r : Registry) (env : Environment) :
    List Json → Registry × List Event × Option AdditionError
  | [] => (r, [], none)
  | j :: rest =>
    match (Addition.ofJson env j).mapError AdditionError.unreadable >>= r.add with
    | .error e => (r, [], some e)
    | .ok (r, events) =>
      let (r, later, e) := r.addAll env rest
      (r, events ++ later, e)

end Registry

end UniqueEvidence
