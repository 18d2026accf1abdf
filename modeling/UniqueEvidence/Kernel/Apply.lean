/-
Rules as data.

* `Rule`: a rule with its arguments;
* `Rule.call`, `Rule.ofCall?`: its form in a certificate, a name with untyped arguments, and back;
* `Kernel.run`: the subgoals a rule leaves;
* `Kernel.apply`: the same for a call, which may name no rule, or give a rule arguments that it does
  not take.
-/
import UniqueEvidence.Kernel.Rules

namespace UniqueEvidence

/-- A rule with its arguments. -/
inductive Rule where
  | change (target : Term)
  | symmetry
  | generalize (target witness : Term)
  | intro (name : Name)
  | clear (name : Name)
  | case (scrutinee : Term) (icount : Int) (motive : Term)
  | injection (name : Name) (parts : List Name)
  | discriminate (name : Name)
  | subst (name removed : Name)
  | uip (name : Name)
  | reflexivity
  | assumption (name : Name)
  | decide
  | congruence
  deriving DecidableEq

/-- A rule by name, with arguments as a certificate records them. -/
structure Call where
  rule : Atom
  args : List Argument
  deriving DecidableEq, Inhabited

/-- The form of a rule in a certificate. -/
def Rule.call : Rule → Call
  | change target => ⟨"change", [.term target]⟩
  | symmetry => ⟨"symmetry", []⟩
  | generalize target witness => ⟨"generalize", [.term target, .term witness]⟩
  | intro x => ⟨"intro", [.ofName x]⟩
  | clear x => ⟨"clear", [.ofName x]⟩
  | case scrutinee icount motive => ⟨"case", [.term scrutinee, .number icount, .term motive]⟩
  | injection x parts => ⟨"injection", [.ofName x, .ofNames parts]⟩
  | discriminate x => ⟨"discriminate", [.ofName x]⟩
  | subst x y => ⟨"subst", [.ofName x, .ofName y]⟩
  | uip x => ⟨"uip", [.ofName x]⟩
  | reflexivity => ⟨"reflexivity", []⟩
  | assumption x => ⟨"assumption", [.ofName x]⟩
  | decide => ⟨"decide", []⟩
  | congruence => ⟨"congruence", []⟩

/-- The rule that a call denotes. -/
def Rule.ofCall? (call : Call) : Option Rule :=
  match call.rule, call.args with
  | .text "change", [.term target] => some (change target)
  | .text "symmetry", [] => some symmetry
  | .text "generalize", [.term target, .term witness] => some (generalize target witness)
  | .text "intro", [x] => x.toName?.map intro
  | .text "clear", [x] => x.toName?.map clear
  | .text "case", [.term scrutinee, .number icount, .term motive] =>
    some (case scrutinee icount motive)
  | .text "injection", [x, .tuple parts] =>
    do return injection (← x.toName?) (← Argument.names? parts)
  | .text "discriminate", [x] => x.toName?.map discriminate
  | .text "subst", [x, y] => do return subst (← x.toName?) (← y.toName?)
  | .text "uip", [x] => x.toName?.map uip
  | .text "reflexivity", [] => some reflexivity
  | .text "assumption", [x] => x.toName?.map assumption
  | .text "decide", [] => some decide
  | .text "congruence", [] => some congruence
  | _, _ => none

/-- The number of arguments of the rule of a name. -/
def ruleArity? : Atom → Option Nat
  | .text "symmetry" | .text "reflexivity" | .text "decide" | .text "congruence" => some 0
  | .text "change" | .text "intro" | .text "clear" | .text "discriminate" | .text "uip" |
    .text "assumption" => some 1
  | .text "generalize" | .text "injection" | .text "subst" => some 2
  | .text "case" => some 3
  | _ => none

namespace Kernel

/-- The subgoals a rule leaves. -/
def run (k : Kernel) (goal : Goal) : Rule → Except Fault (List Goal)
  | .change target => k.change goal target
  | .symmetry => k.symmetry goal
  | .generalize target witness => k.generalize goal target witness
  | .intro x => k.intro goal x
  | .clear x => clear goal x
  | .case scrutinee icount motive => k.case goal scrutinee icount motive
  | .injection x parts => k.injection goal x parts
  | .discriminate x => k.discriminate goal x
  | .subst x y => k.eliminate goal x y
  | .uip x => k.uip goal x
  | .reflexivity => k.reflexivity goal
  | .assumption x => k.assumption goal x
  | .decide => k.decide goal
  | .congruence => k.congruence goal

/-- The fault of a call with as many arguments as the rule takes, of which one is of the wrong kind.
The checks that a rule makes before it looks at that argument come first. -/
def wrongArgument (k : Kernel) (goal : Goal) (call : Call) : Except Fault Fault := do
  match call.rule, call.args with
  | .text "change", [a] => return .refused (.untypable a)
  | .text "generalize", [.term target, a] =>
    discard (k.quantified goal target)
    return .refused (.untypable a)
  | .text "generalize", [a, _] => return .refused (.untypable a)
  | .text "intro", _ =>
    match ← k.normalize goal.target with
    | .pi .. => return .misapplied call.rule
    | _ => return .refused .nothingToIntroduce
  | .text "case", [.term scrutinee, count, a] =>
    let (family, args) ← k.evidenceOf goal.context scrutinee
    match count.integer? with
    | some icount =>
      discard (leadCount family args icount count)
      return .refused (.untypable a)
    | none =>
      if args.length = family.arity then return .misapplied call.rule
      else return .refused (.wrongIndexCount count family.arity)
  | .text "case", [a, _, _] => return .refused (.untypable a)
  | .text "injection", [a, b] =>
    match a.toName?, b with
    | none, _ => return .refused (.noHypothesis a)
    | some x, .tuple parts =>
      let count := (← k.componentEquations x (← k.equation goal x)).length
      if parts.length = count ∧ parts.Nodup then
        match (parts.filterMap Argument.toName?).find? (· ∈ goal.names) with
        | some y => return .refused (.nameInUse y)
        | none => return .misapplied call.rule
      else
        return .refused (.wrongNames count b)
    | some x, _ =>
      discard (k.componentEquations x (← k.equation goal x))
      return .misapplied call.rule
  | .text "subst", [a, b] =>
    match a.toName? with
    | none => return .refused (.noHypothesis a)
    | some x =>
      discard (k.equation goal x)
      return .refused (.notASide x b)
  | .text "assumption", [a] => return .refused (.notProof a)
  | _, a :: _ => return .refused (.noHypothesis a)
  | _, [] => return .misapplied call.rule

/-- The fault of a call that denotes no rule. -/
def misapply (k : Kernel) (goal : Goal) (call : Call) : Except Fault Fault :=
  match ruleArity? call.rule with
  | none => return .refused (.unknownRule call.rule)
  | some arity =>
    if call.args.length = arity then k.wrongArgument goal call else return .misapplied call.rule

/-- The subgoals of a call that denotes no rule.  Where names are expected, a single text is read as
the list of its letters; where the number of indices is expected, a truth value is read as zero or
one.  Every other such call is a fault. -/
def applyOdd (k : Kernel) (goal : Goal) (call : Call) : Except Fault (List Goal) := do
  match call.rule, call.args with
  | .text "injection", [a, .text letters] =>
    match a.toName? with
    | some x =>
      k.injectionAs goal x (letters.toList.map fun c => .text (String.singleton c)) (.text letters)
    | none => throw (← k.misapply goal call)
  | .text "case", [.term scrutinee, count, .term motive] =>
    match count.integer? with
    | some icount => k.caseAs goal scrutinee icount count motive
    | none => throw (← k.misapply goal call)
  | _, _ => throw (← k.misapply goal call)

/-- The subgoals a call leaves. -/
def apply (k : Kernel) (goal : Goal) (call : Call) : Except Fault (List Goal) :=
  match Rule.ofCall? call with
  | some rule => k.run goal rule
  | none => k.applyOdd goal call

end Kernel

end UniqueEvidence
