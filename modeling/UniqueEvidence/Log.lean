/-
What a run reports on the way.

* `Level`, `Event`: how important an event is, and the events with their wording;
* `Logged`: a computation that may fail and keeps a log in either case.  The outcome never depends
  on the log: `Logged.outcome_bind` and its companions let proofs about outcomes leave the log out;
* `Logged.worded`: the outcome once everything is put into words, which fails for terms without a
  proper notation.
-/
import UniqueEvidence.Fault

namespace UniqueEvidence

/-- How important an event is. -/
inductive Level where
  | debug
  | info
  | warning
  | error
  | critical
  deriving DecidableEq, Inhabited

namespace Level

/-- The levels from the least to the most important. -/
def all : List Level :=
  [debug, info, warning, error, critical]

/-- The name of a level. -/
def name : Level → String
  | debug => "DEBUG"
  | info => "INFO"
  | warning => "WARNING"
  | error => "ERROR"
  | critical => "CRITICAL"

/-- The place of a level in `all`. -/
def rank : Level → Nat
  | debug => 0
  | info => 1
  | warning => 2
  | error => 3
  | critical => 4

end Level

/-- Something a run reports. -/
inductive Event where
  /-- A rule applied and left that many subgoals. -/
  | ruleApplied (rule : Atom) (subgoals : Nat)
  /-- The sides of the goal equation change places. -/
  | sidesSwapped (equation : Term)
  /-- Head and indices of the scrutinee's type are known. -/
  | introspected (head : Term) (icount : Int) (indices : List Term)
  /-- The motive of the case split. -/
  | motiveBuilt (curried : Term)
  /-- The search gave up on a subgoal. -/
  | subgoalOpen (depth : Nat)
  /-- The case split was made. -/
  | split (scrutinee : Term) (cases : Nat)
  /-- A constructor was ruled out by the split. -/
  | impossible (ctor : Name)
  /-- A branch was closed. -/
  | settled (ctor : Name) (status : String)
  /-- A branch stays open. -/
  | leftOpen (ctor : Name) (reason detail : String)
  /-- An index equation contradicts itself. -/
  | contradiction (name left right : Name)
  /-- The outcome of a run. -/
  | summary (cases discharged contradicted remaining : Nat)
  /-- A decider was registered. -/
  | registered (decider : Name)
  /-- The settings of a run. -/
  | settings (text : String)

namespace Event

/-- The importance of an event. -/
def level : Event → Level
  | leftOpen .. => .warning
  | summary .. => .info
  | _ => .debug

/-- The part of the program that reports an event. -/
def source : Event → String
  | ruleApplied .. => "uipdec.kernel"
  | sidesSwapped .. | introspected .. => "uipdec.introspect"
  | motiveBuilt .. => "uipdec.motive"
  | subgoalOpen .. => "uipdec.search"
  | registered .. => "uipdec.deciders"
  | settings .. => "uipdec.cli"
  | _ => "uipdec.engine"

/-- The wording of an event. -/
def message : Event → String
  | ruleApplied rule subgoals => s!"rule {rule} -> {subgoals} subgoal(s)"
  | sidesSwapped e => "Swapping sides of " ++ e.render
  | introspected head icount indices =>
    "Introspected head " ++ head.render ++ s!" with {icount} index(es): " ++
      ", ".intercalate (indices.map Term.render)
  | motiveBuilt curried => "Motive: " ++ curried.render
  | subgoalOpen depth => s!"Congruence subgoal not closed at depth {depth}"
  | split scrutinee cases => "Split " ++ scrutinee.render ++ s!" into {cases} case(s)"
  | impossible c => s!"Case {c} is impossible at these indices"
  | settled c status => s!"Case {c}: {status}"
  | leftOpen c reason detail => s!"Case {c} left open ({reason}): {detail}"
  | contradiction x left right => s!"{x} equates {left} and {right}"
  | summary cases discharged contradicted remaining =>
    s!"{cases} case(s): {discharged} discharged, {contradicted} contradicted, {remaining} open"
  | registered decider => s!"Registered decider {decider}"
  | settings text => s!"Using {text}"

/-- Whether the terms that an event mentions have a proper notation. -/
def isReadable : Event → Bool
  | sidesSwapped t | motiveBuilt t | split t _ => t.isReadable
  | introspected head _ indices => head.isReadable && indices.all fun t => t.isWord && t.isReadable
  | _ => true

/-- The log line of an event. -/
def line (e : Event) : String :=
  e.level.name ++ " " ++ e.source ++ ": " ++ e.message

end Event

/-- The outcome of a computation, with what it reported. -/
structure Logged (α : Type) where
  outcome : Except Fault α
  log : List Event

namespace Logged

/-- A computation that reports nothing. -/
def lift {α : Type} (x : Except Fault α) : Logged α :=
  ⟨x, []⟩

/-- A single event. -/
def note (e : Event) : Logged Unit :=
  ⟨.ok (), [e]⟩

/-- A failure. -/
def fail {α : Type} (f : Fault) : Logged α :=
  ⟨.error f, []⟩

/-- One computation after another. -/
protected def bind {α β : Type} (x : Logged α) (f : α → Logged β) : Logged β :=
  match x.outcome with
  | .ok a => ⟨(f a).outcome, x.log ++ (f a).log⟩
  | .error e => ⟨.error e, x.log⟩

instance : Monad Logged where
  pure a := ⟨.ok a, []⟩
  bind := Logged.bind

instance : MonadLift (Except Fault) Logged where
  monadLift := lift

/-- The outcome changed, with the same log. -/
def mapOutcome {α β : Type} (f : Except Fault α → Except Fault β) (x : Logged α) : Logged β :=
  ⟨f x.outcome, x.log⟩

/-- The outcome of a computation whose log and faults are worded. -/
def worded {α : Type} (x : Logged α) : Except Fault α :=
  if x.log.all Event.isReadable then x.outcome.mapError Fault.worded else .error .unreadable

/-- A refusal becomes a result; other faults stay faults. -/
def attempt {α : Type} (x : Logged α) : Logged (Except Refusal α) :=
  match x.outcome with
  | .ok a => ⟨.ok (.ok a), x.log⟩
  | .error (.refused why) => ⟨.ok (.error why), x.log⟩
  | .error f => ⟨.error f, x.log⟩

/-! ### Outcomes without the log -/

@[simp] theorem outcome_lift {α : Type} (x : Except Fault α) : (lift x).outcome = x := rfl

@[simp] theorem outcome_note (e : Event) : (note e).outcome = .ok () := rfl

@[simp] theorem outcome_fail {α : Type} (f : Fault) : (fail f : Logged α).outcome = .error f := rfl

@[simp] theorem outcome_pure {α : Type} (a : α) : (pure a : Logged α).outcome = .ok a := rfl

@[simp] theorem outcome_bind {α β : Type} (x : Logged α) (f : α → Logged β) :
    (x >>= f).outcome = x.outcome >>= fun a => (f a).outcome := by
  change (Logged.bind x f).outcome = _
  unfold Logged.bind
  split <;> rename_i h <;> rw [h] <;> rfl

end Logged

end UniqueEvidence
