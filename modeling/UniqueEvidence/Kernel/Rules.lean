/-
The primitive rules.  A rule takes a goal, checks its own preconditions, and gives the subgoals that
remain; no subgoals means that the goal is closed.

* changing the target: `Kernel.change`, `Kernel.symmetry`, `Kernel.generalize`, `Kernel.intro`,
  `Kernel.clear`, `Kernel.case`;
* using an equation: `Kernel.injection`, `Kernel.discriminate`, `Kernel.eliminate`, `Kernel.uip`;
* closing an equation: `Kernel.reflexivity`, `Kernel.assumption`, `Kernel.decide`,
  `Kernel.congruence`.
-/
import UniqueEvidence.Kernel.Case
import UniqueEvidence.Kernel.Order

namespace UniqueEvidence

namespace Kernel

/-! ### Preconditions -/

/-- The equation a hypothesis states, in normal form. -/
def equation (k : Kernel) (goal : Goal) (x : Name) : Except Fault Equation := do
  match goal.lookup? x with
  | none => refuse (.noHypothesis (.ofName x))
  | some ty =>
    match Equation.ofTerm? (← k.normalize ty) with
    | some e => return e
    | none => refuse (.notEquation x)

/-- The equation the target states, in normal form. -/
def targetEquation (k : Kernel) (goal : Goal) : Except Fault Equation := do
  match Equation.ofTerm? (← k.normalize goal.target) with
  | some e => return e
  | none => refuse .targetNotEquation

/-- The names are distinct, as many as needed, and not hypotheses yet. -/
def freshFor (goal : Goal) (names : List Name) (count : Nat) (shown : Argument) :
    Except Fault Unit :=
  if names.length = count ∧ names.Nodup then
    match names.find? (· ∈ goal.names) with
    | some x => refuse (.nameInUse x)
    | none => return ()
  else
    refuse (.wrongNames count shown)

/-- No other hypothesis mentions the name. -/
def unusedInHyps (goal : Goal) (x : Name) : Except Fault Unit :=
  match goal.hyps.find? fun h => h.name != x && h.ty.occurs x with
  | some h => refuse (.usedBy x h.name)
  | none => return ()

/-- Neither the target nor another hypothesis mentions the name. -/
def unused (goal : Goal) (x : Name) : Except Fault Unit :=
  if goal.target.occurs x then refuse (.usedInTarget x) else unusedInHyps goal x

/-- The hypotheses without a name. -/
def without (goal : Goal) (x : Name) : List Binding :=
  goal.hyps.filter (·.name != x)

/-! ### Changing the target -/

/-- Replaces the target by a convertible one. -/
def change (k : Kernel) (goal : Goal) (target : Term) : Except Fault (List Goal) := do
  k.expectType goal.context target
  if ← k.convertible goal.target target then return [goal.withTarget target]
  else refuse .targetNotConvertible

/-- `a = b` from `b = a`. -/
def symmetry (k : Kernel) (goal : Goal) : Except Fault (List Goal) := do
  let e ← k.targetEquation goal
  return [goal.withTarget e.swap.toTerm]

/-- The product that a generalised target denotes: its binder, domain and codomain. -/
def quantified (k : Kernel) (goal : Goal) (target : Term) : Except Fault (Binding × Term) := do
  k.expectType goal.context target
  match ← k.normalize target with
  | .pi x dom cod => return (⟨x, dom⟩, cod)
  | _ => refuse .notProduct

/-- The target from a product and a witness of its domain, at which it gives the target. -/
def generalize (k : Kernel) (goal : Goal) (target witness : Term) : Except Fault (List Goal) := do
  let (binder, cod) ← k.quantified goal target
  k.check goal.context witness binder.ty
  if ← k.convertible (cod.subst binder.name witness) goal.target then
    return [goal.withTarget target]
  else refuse .notInstance

/-- Moves a leading product into the hypotheses. -/
def intro (k : Kernel) (goal : Goal) (x : Name) : Except Fault (List Goal) := do
  match ← k.normalize goal.target with
  | .pi y dom cod =>
    freshFor goal [x] 1 (.ofNames [x])
    return [⟨goal.hyps ++ [⟨x, dom⟩], cod.subst y (.var x)⟩]
  | _ => refuse .nothingToIntroduce

/-- Drops an unused hypothesis. -/
def clear (goal : Goal) (x : Name) : Except Fault (List Goal) := do
  match goal.lookup? x with
  | none => refuse (.noHypothesis (.ofName x))
  | some _ =>
    unused goal x
    return [⟨without goal x, goal.target⟩]

/-- Case analysis: the goals of the possible branches.  The number of indices is shown as in
`shown`. -/
def caseAs (k : Kernel) (goal : Goal) (scrutinee : Term) (icount : Int) (shown : Argument)
    (motive : Term) : Except Fault (List Goal) := do
  return (← k.caseBranchesAs goal scrutinee icount shown motive).filterMap Prod.snd

/-- Case analysis: the goals of the possible branches. -/
def case (k : Kernel) (goal : Goal) (scrutinee : Term) (icount : Int) (motive : Term) :
    Except Fault (List Goal) :=
  k.caseAs goal scrutinee icount (.number icount) motive

/-! ### Using an equation -/

/-- The equations between the components of the two sides: of two pairs, or of two applications of
one data constructor. -/
def componentEquations (k : Kernel) (x : Name) (e : Equation) : Except Fault (List Term) :=
  match e.ty, e.lhs, e.rhs with
  | .prod a b, .pair l₁ l₂, .pair r₁ r₂ => return [.eq a l₁ r₁, .eq b l₂ r₂]
  | _, lhs, rhs =>
    match k.env.constructorHead? lhs with
    | none => refuse (.notEqualConstructors x)
    | some c =>
      match k.env.dataCtor? c with
      | none => refuse (.notEqualConstructors x)
      | some (_, ctor) =>
        if k.env.constructorHead? rhs = some c then
          if lhs.args.length = ctor.arity ∧ rhs.args.length = ctor.arity then
            return List.zipWith (fun ty (l, r) => .eq ty l r) ctor.argTypes (lhs.args.zip rhs.args)
          else
            refuse (.partialInjection c x)
        else
          refuse (.notEqualConstructors x)

/-- Splits an equation between pairs or equal-headed constructors.  The names given are shown as in
`shown`. -/
def injectionAs (k : Kernel) (goal : Goal) (x : Name) (names : List Name) (shown : Argument) :
    Except Fault (List Goal) := do
  let parts ← k.componentEquations x (← k.equation goal x)
  freshFor goal names parts.length shown
  return [⟨goal.hyps ++ List.zipWith Binding.mk names parts, goal.target⟩]

/-- Splits an equation between pairs or equal-headed constructors into equations with the given
names. -/
def injection (k : Kernel) (goal : Goal) (x : Name) (names : List Name) :
    Except Fault (List Goal) :=
  k.injectionAs goal x names (.ofNames names)

/-- Closes a goal with an equation between distinct constructors of data types. -/
def discriminate (k : Kernel) (goal : Goal) (x : Name) : Except Fault (List Goal) := do
  let e ← k.equation goal x
  match k.env.constructorHead? e.lhs, k.env.constructorHead? e.rhs with
  | some c, some d =>
    if c ≠ d ∧ (k.env.dataCtor? c).isSome then return [] else refuse (.notDistinctConstructors x)
  | _, _ => refuse (.notDistinctConstructors x)

/-- The other side of an equation that has the variable on one side; the right side counts first. -/
def solvedFor (e : Equation) (y : Name) : Option Term :=
  if e.rhs = .var y then some e.lhs
  else if e.lhs = .var y then some e.rhs
  else none

/-- Eliminates a variable by an equation for it. -/
def eliminate (k : Kernel) (goal : Goal) (x y : Name) : Except Fault (List Goal) := do
  let e ← k.equation goal x
  match solvedFor e y with
  | none => refuse (.notASide x (.ofName y))
  | some value =>
    if y = x ∨ (goal.lookup? y).isNone then refuse (.notEliminable y)
    else if value.occurs y then refuse (.occursIn y value)
    else
      unused goal x
      let hyps := (goal.hyps.filter fun h => h.name != y && h.name != x).map fun h =>
        { h with ty := h.ty.subst y value }
      match reorder hyps with
      | some hyps => return [⟨hyps, goal.target.subst y value⟩]
      | none => refuse .noOrder

/-- Replaces a proof of a reflexive equation by reflexivity, where equality on the type is
decidable. -/
def uip (k : Kernel) (goal : Goal) (x : Name) : Except Fault (List Goal) := do
  let e ← k.equation goal x
  if ← k.convertible e.lhs e.rhs then
    match ← k.decider? e.ty with
    | none => refuse (.missingDecider e.ty)
    | some _ =>
      unusedInHyps goal x
      return [⟨without goal x, goal.target.subst x (.refl e.ty e.lhs)⟩]
  else
    refuse (.notReflexive x)

/-! ### Closing an equation -/

/-- Closes an equation between convertible sides. -/
def reflexivity (k : Kernel) (goal : Goal) : Except Fault (List Goal) := do
  let e ← k.targetEquation goal
  if ← k.convertible e.lhs e.rhs then return [] else refuse .sidesDiffer

/-- Closes a goal with a hypothesis. -/
def assumption (k : Kernel) (goal : Goal) (x : Name) : Except Fault (List Goal) := do
  match goal.lookup? x with
  | none => refuse (.notProof (.ofName x))
  | some ty => if ← k.convertible ty goal.target then return [] else refuse (.notProof (.ofName x))

/-- Closes an equation between closed values by a decider. -/
def decide (k : Kernel) (goal : Goal) : Except Fault (List Goal) := do
  let e ← k.targetEquation goal
  if e.lhs.freeVars.isEmpty && e.rhs.freeVars.isEmpty then
    match ← k.decider? e.ty with
    | none => refuse (.missingDecider e.ty)
    | some d => if d.decides e.lhs e.rhs then return [] else refuse (.undecided d.name)
  else
    refuse .notClosed

/-- The arguments of a constructor; those of a data constructor are named by their places. -/
def ctorBinders (env : Environment) (c : Name) : List Binding :=
  match env.dataCtor? c with
  | some (_, ctor) => ctor.argTypes.zipIdx.map fun (ty, i) => ⟨.text ("_" ++ toString i), ty⟩
  | none =>
    match env.familyCtor? c with
    | some (_, ctor) => ctor.binders
    | none => []

/-- The names the indices of a family constructor mention. -/
def indexVars (env : Environment) (c : Name) : List Name :=
  match env.familyCtor? c with
  | some (_, ctor) => ctor.indices.flatMap Term.freeVars
  | none => []

/-- The equations between the arguments of two applications of a constructor.  An argument that
determines an index has to agree, and no argument type may mention an argument. -/
def argumentEquations (k : Kernel) (c : Name) (bound determined : List Name) :
    List (Binding × Term × Term) → Except Fault (List Term)
  | [] => return []
  | (b, l, r) :: rest => do
    if b.ty.freeVars.any (· ∈ bound) then
      refuse (.dependentArguments c)
    else
      let agree ← if b.name ∈ determined then k.convertible l r else pure true
      if agree then return .eq b.ty l r :: (← k.argumentEquations c bound determined rest)
      else refuse (.determinesIndex b.name c)

/-- `c a₁ … aₙ = c b₁ … bₙ` from the equations `aᵢ = bᵢ`. -/
def congruence (k : Kernel) (goal : Goal) : Except Fault (List Goal) := do
  let e ← k.targetEquation goal
  match k.env.constructorHead? e.lhs with
  | none => refuse .headsDiffer
  | some c =>
    if k.env.constructorHead? e.rhs = some c then
      let binders := ctorBinders k.env c
      if e.lhs.args.length = binders.length ∧ e.rhs.args.length = binders.length then
        let parts ← k.argumentEquations c (Binding.names binders) (indexVars k.env c)
          (binders.zip (e.lhs.args.zip e.rhs.args))
        return parts.map goal.withTarget
      else
        refuse (.partialCongruence c)
    else
      refuse .headsDiffer

end Kernel

end UniqueEvidence
