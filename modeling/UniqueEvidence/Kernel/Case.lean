/-
Case analysis of evidence of an indexed family.

* `FamilyCtor.freshen`: a constructor with its binders renamed away from given names;
* `Kernel.checkMotive`: a motive abstracts over the generalised indices and the evidence, and gives
  a type;
* `Kernel.caseBranches`: one branch a constructor.  The motive generalises the last indices and the
  evidence, the leading indices stay fixed, and a constructor whose fixed indices clash with them
  has no branch goal.
-/
import UniqueEvidence.Kernel.Typing

namespace UniqueEvidence

/-- A simultaneous renaming of free variables.  It goes through temporary names, so that no new name
is taken for an old one. -/
def Term.renameAll (ρ : List (Name × Name)) (t : Term) : Term :=
  let temporary (i : Nat) : Name := .text ("#" ++ toString i)
  let t := ρ.zipIdx.foldl (fun t ((old, _), i) => t.subst old (.var (temporary i))) t
  ρ.zipIdx.foldl (fun t ((_, new), i) => t.subst (temporary i) (.var new)) t

/-- The renaming with `old` sent to `new`, in place if `old` is renamed already. -/
def setRenaming (old new : Name) : List (Name × Name) → List (Name × Name)
  | [] => [(old, new)]
  | (x, y) :: rest => if x = old then (x, new) :: rest else (x, y) :: setRenaming old new rest

/-- Binders renamed away from the taken names, with the renaming.  Each type is renamed by what
precedes it. -/
def freshenBinders (taken : List Name) (ρ : List (Name × Name)) :
    List Binding → List Binding × List (Name × Name)
  | [] => ([], ρ)
  | b :: rest =>
    let x := fresh b.name taken
    let (bs, final) := freshenBinders (x :: taken) (setRenaming b.name x ρ) rest
    (⟨x, b.ty.renameAll ρ⟩ :: bs, final)

/-- The constructor with its binders renamed away from the taken names. -/
def FamilyCtor.freshen (c : FamilyCtor) (taken : List Name) : FamilyCtor :=
  let (binders, ρ) := freshenBinders taken [] c.binders
  { c with binders, indices := c.indices.map (Term.renameAll ρ) }

namespace Kernel

/-- Whether two terms are headed by different constructors. -/
def clash (k : Kernel) (a b : Term) : Bool :=
  match k.env.constructorHead? a, k.env.constructorHead? b with
  | some c, some d => c != d
  | _, _ => false

/-- The type of a motive, past its products over the given index types, with the names these
bind. -/
def peelIndices (k : Kernel) : List Term → Term → Except Fault (List Name × Term)
  | [], mty => return ([], mty)
  | ity :: rest, mty =>
    match mty with
    | .pi x dom cod => do
      if ← k.convertible dom ity then
        let (xs, mty) ← k.peelIndices rest cod
        return (x :: xs, mty)
      else
        refuse .motiveIndices
    | _ => refuse .motiveIndices

/-- The motive takes indices of the given types, then evidence of the family at the fixed indices
and these, and returns a type. -/
def checkMotive (k : Kernel) (ctx : Context) (motive : Term) (family : Name)
    (indexTypes fixed : List Term) : Except Fault Unit := do
  let (names, mty) ← k.peelIndices indexTypes (← k.infer ctx motive)
  let evidenceType := Term.apps (.const family) (fixed ++ names.map Term.var)
  match mty with
  | .pi _ dom cod =>
    if ← k.convertible dom evidenceType then
      match ← k.normalize cod with
      | .sort => return ()
      | _ => refuse .motiveResult
    else
      refuse .motiveEvidence
  | _ => refuse .motiveEvidence

/-- The family of a scrutinee, and the indices of its type. -/
def evidenceOf (k : Kernel) (ctx : Context) (scrutinee : Term) :
    Except Fault (Family × List Term) := do
  let ty ← k.infer ctx scrutinee
  match ty.head with
  | .const name =>
    match k.env.family? name with
    | some family => return (family, ty.args)
    | none => refuse (.notEvidence scrutinee)
  | _ => refuse (.notEvidence scrutinee)

/-- The number of leading indices that stay fixed when the last `icount` are generalised.  The
number given is shown as in `shown`. -/
def leadCount (family : Family) (args : List Term) (icount : Int) (shown : Argument) :
    Except Fault Nat :=
  if args.length = family.arity ∧ 0 ≤ icount ∧ icount ≤ family.arity then
    return family.arity - icount.toNat
  else
    refuse (.wrongIndexCount shown family.arity)

/-- Whether all pairs of terms are convertible. -/
def allConvertible (k : Kernel) : List (Term × Term) → Except Fault Bool
  | [] => return true
  | (a, b) :: rest => do
    if ← k.convertible a b then k.allConvertible rest else return false

/-- The branch goal of a constructor, already freshened, or nothing if its leading indices clash
with the fixed ones. -/
def branchGoal (k : Kernel) (goal : Goal) (motive : Term) (fixed : List Term) (ctor : FamilyCtor) :
    Except Fault (Option Goal) := do
  let lead ← (ctor.indices.take fixed.length).mapM k.normalize
  let pairs := lead.zip fixed
  if pairs.any fun (a, b) => k.clash a b then
    return none
  else if lead.length < fixed.length then
    throw (.missingIndex ctor.name)
  else if ← k.allConvertible pairs then
    let evidence := Term.apps (.const ctor.name) (ctor.binders.map fun b => .var b.name)
    let target ← k.normalize (motive.apps (ctor.indices.drop fixed.length ++ [evidence]))
    return some ⟨goal.hyps ++ ctor.binders, target⟩
  else
    refuse (.fixedIndex ctor.name)

/-- The branches of the constructors in turn; names taken by one are avoided by the next. -/
def branchGoals (k : Kernel) (goal : Goal) (motive : Term) (fixed : List Term) (taken : List Name) :
    List FamilyCtor → Except Fault (List (FamilyCtor × Option Goal))
  | [] => return []
  | c :: rest => do
    let fresh := c.freshen taken
    let branch ← k.branchGoal goal motive fixed fresh
    return (c, branch) ::
      (← k.branchGoals goal motive fixed (Binding.names fresh.binders ++ taken) rest)

/-- The branches of a case split, one a constructor.  The number of indices is shown as in
`shown`. -/
def caseBranchesAs (k : Kernel) (goal : Goal) (scrutinee : Term) (icount : Int) (shown : Argument)
    (motive : Term) : Except Fault (List (FamilyCtor × Option Goal)) := do
  let ctx := goal.context
  let (family, args) ← k.evidenceOf ctx scrutinee
  let lead ← leadCount family args icount shown
  let fixed := args.take lead
  k.checkMotive ctx motive family.name (family.indexTypes.drop lead) fixed
  if ← k.convertible (motive.apps (args.drop lead ++ [scrutinee])) goal.target then
    k.branchGoals goal motive fixed (goal.names ++ motive.freeVars) family.ctors
  else
    refuse .motiveGoal

/-- The branches of a case split, one a constructor. -/
def caseBranches (k : Kernel) (goal : Goal) (scrutinee : Term) (icount : Int) (motive : Term) :
    Except Fault (List (FamilyCtor × Option Goal)) :=
  k.caseBranchesAs goal scrutinee icount (.number icount) motive

end Kernel

end UniqueEvidence
