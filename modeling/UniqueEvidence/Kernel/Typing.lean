/-
Type inference.

* `Kernel.infer`: the type of a term in a context, in normal form;
* `Kernel.check`, `Kernel.expectType`: a term has a given type, and is a type.

Inference of a transport looks at the normal forms of its endpoints, so it does not recurse on the
term alone; it takes a bound on the depth, as normalisation does.
-/
import UniqueEvidence.Kernel.Basic

namespace UniqueEvidence

/-- A binder opened in a context: it is renamed if the context has its name already. -/
def openBinder (ctx : Context) (x : Name) (body : Term) : Name × Term :=
  if x ∈ Binding.names ctx then
    let z := fresh x (Binding.names ctx ++ body.freeVars)
    (z, body.subst x (.var z))
  else
    (x, body)

namespace Kernel

/-- A function that infers types. -/
abbrev Inference := Context → Term → Except Fault Term

/-- The term has the type, up to conversion. -/
def checkBy (k : Kernel) (infer : Inference) (ctx : Context) (t ty : Term) : Except Fault Unit := do
  let actual ← infer ctx t
  if ← k.convertible actual ty then return () else refuse (.wrongType t actual ty)

/-- The term is a type. -/
def expectTypeBy (infer : Inference) (ctx : Context) (t : Term) : Except Fault Unit := do
  match ← infer ctx t with
  | .sort => return ()
  | _ => refuse (.notType t)

/-- The type of a transport, given the inference for its parts.  The endpoints must be tuples of the
same length; the types of the source's components fix the type of the equation. -/
def typeOfTransport (k : Kernel) (infer : Inference) (ctx : Context)
    (head src dst proof value : Term) : Except Fault Term := do
  match (← k.normalize src).components, (← k.normalize dst).components with
  | some srcParts, some dstParts =>
    if srcParts.length = dstParts.length then
      let types ← srcParts.mapM (infer ctx)
      k.checkBy infer ctx dst (tupleType types)
      k.checkBy infer ctx proof (.eq (tupleType types) src dst)
      k.checkBy infer ctx value (← familyAt k.depth head (List.zipWith Slot.mk types srcParts))
      familyAt k.depth head (List.zipWith Slot.mk types dstParts)
    else
      refuse .unevenTransport
  | _, _ => refuse .unevenTransport

/-- The type of a term, not yet in normal form, given the inference for its parts. -/
def typeOf (k : Kernel) (infer : Inference) (ctx : Context) : Term → Except Fault Term
  | .var x =>
    match ctx.lookup? x with
    | some ty => return ty
    | none => refuse (.unboundVariable x)
  | .const c =>
    match k.env.constType? c with
    | some ty => return ty
    | none => refuse (.undeclaredConstant c)
  | .sort => return .sort
  | .unit => return .sort
  | .tt => return .unit
  | .prod a b => do
    expectTypeBy infer ctx a
    expectTypeBy infer ctx b
    return .sort
  | .pair a b => return .prod (← infer ctx a) (← infer ctx b)
  | .app fn arg => do
    match ← infer ctx fn with
    | .pi x dom cod =>
      k.checkBy infer ctx arg dom
      return cod.subst x arg
    | _ => refuse (.notFunction fn)
  | .pi x ty body => do
    expectTypeBy infer ctx ty
    let (x, body) := openBinder ctx x body
    expectTypeBy infer (⟨x, ty⟩ :: ctx) body
    return .sort
  | .lam x ty body => do
    expectTypeBy infer ctx ty
    let (x, body) := openBinder ctx x body
    return .pi x ty (← infer (⟨x, ty⟩ :: ctx) body)
  | .eq ty lhs rhs => do
    expectTypeBy infer ctx ty
    k.checkBy infer ctx lhs ty
    k.checkBy infer ctx rhs ty
    return .sort
  | .refl ty value => do
    expectTypeBy infer ctx ty
    k.checkBy infer ctx value ty
    return .eq ty value value
  | .transport head src dst proof value => k.typeOfTransport infer ctx head src dst proof value

/-- The type of a term in normal form, if it is found within the given depth. -/
def inferAt (k : Kernel) : Nat → Inference
  | 0, _, _ => .error .exhausted
  | depth + 1, ctx, t => do k.normalize (← k.typeOf (k.inferAt depth) ctx t)

/-- The type of a term in normal form. -/
def infer (k : Kernel) : Inference :=
  k.inferAt k.depth

/-- The term has the type, up to conversion. -/
def check (k : Kernel) (ctx : Context) (t ty : Term) : Except Fault Unit :=
  k.checkBy k.infer ctx t ty

/-- The term is a type. -/
def expectType (k : Kernel) (ctx : Context) (t : Term) : Except Fault Unit :=
  expectTypeBy k.infer ctx t

end Kernel

end UniqueEvidence
