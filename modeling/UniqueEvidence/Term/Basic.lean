/-
Terms of the small dependent type theory the library works over.

* `Term`: the thirteen term forms, with named binders; types are terms too;
* `Term.size`: the number of nodes, the measure by which substitution recurses;
* `Term.freeVars`, `Term.constants`: the names that occur free, and those of constants, in order and
  with repetitions;
* `Term.apps` and `Term.spine`: application to several arguments, and its inverse view;
* `Term.lams`, `Term.pis`: closing a term over a telescope of bindings.
-/
import UniqueEvidence.Name

namespace UniqueEvidence

/-- A term or type. -/
inductive Term where
  /-- A hypothesis, or an occurrence of an enclosing binder. -/
  | var (name : Name)
  /-- A global symbol: type former, constructor or opaque constant. -/
  | const (name : Name)
  /-- Application to one argument. -/
  | app (fn arg : Term)
  /-- `fun (name : ty) => body`. -/
  | lam (name : Name) (ty body : Term)
  /-- `forall (name : ty), body`; a plain arrow binds the name `_`. -/
  | pi (name : Name) (ty body : Term)
  /-- The universe of types. -/
  | sort
  /-- The unit type, which ends every tuple type. -/
  | unit
  /-- The inhabitant of the unit type, which ends every tuple. -/
  | tt
  /-- The type of pairs. -/
  | prod (fst snd : Term)
  /-- A pair. -/
  | pair (fst snd : Term)
  /-- The identity type `lhs = rhs` at `ty`. -/
  | eq (ty lhs rhs : Term)
  /-- Reflexivity at `value`. -/
  | refl (ty value : Term)
  /-- `value`, moved along `proof : src = dst` in the family `head`.  The endpoints are index
  tuples in reversed order. -/
  | transport (head src dst proof value : Term)
  deriving DecidableEq, Inhabited

/-- A name together with its type: a hypothesis, or an argument of a constructor. -/
structure Binding where
  name : Name
  ty : Term
  deriving DecidableEq, Inhabited

namespace Term

/-- The binder name of an arrow whose codomain does not depend on the argument. -/
def anonymous : Name := "_"

/-- The number of nodes of a term. -/
def size : Term → Nat
  | var _ | const _ | sort | unit | tt => 1
  | app a b | prod a b | pair a b | refl a b => a.size + b.size + 1
  | lam _ ty body | pi _ ty body => ty.size + body.size + 1
  | eq ty lhs rhs => ty.size + lhs.size + rhs.size + 1
  | transport head src dst proof value =>
    head.size + src.size + dst.size + proof.size + value.size + 1

/-- The names that occur free. -/
def freeVars : Term → List Name
  | var x => [x]
  | const _ | sort | unit | tt => []
  | app a b | prod a b | pair a b | refl a b => a.freeVars ++ b.freeVars
  | lam x ty body | pi x ty body => ty.freeVars ++ body.freeVars.filter (· ≠ x)
  | eq ty lhs rhs => ty.freeVars ++ lhs.freeVars ++ rhs.freeVars
  | transport head src dst proof value =>
    head.freeVars ++ src.freeVars ++ dst.freeVars ++ proof.freeVars ++ value.freeVars

/-- The names of the constants in a term, as a list in which a name may repeat. -/
def constants : Term → List Name
  | const c => [c]
  | var _ | sort | unit | tt => []
  | app a b | prod a b | pair a b | refl a b => a.constants ++ b.constants
  | lam _ ty body | pi _ ty body => ty.constants ++ body.constants
  | eq ty lhs rhs => ty.constants ++ lhs.constants ++ rhs.constants
  | transport head src dst proof value =>
    head.constants ++ src.constants ++ dst.constants ++ proof.constants ++ value.constants

/-- Whether a name occurs free. -/
def occurs (x : Name) (t : Term) : Bool :=
  decide (x ∈ t.freeVars)

/-- `fn a₁ … aₙ`. -/
def apps (fn : Term) (args : List Term) : Term :=
  args.foldl app fn

/-- The head of an application. -/
def head : Term → Term
  | app fn _ => fn.head
  | t => t

/-- The arguments of an application, first one first. -/
def args : Term → List Term
  | app fn arg => fn.args ++ [arg]
  | _ => []

/-- Head and arguments of an application. -/
def spine (t : Term) : Term × List Term :=
  (t.head, t.args)

/-- `dom -> cod`. -/
def arrow (dom cod : Term) : Term :=
  pi anonymous dom cod

/-- `x₁ -> … -> xₙ -> cod`. -/
def arrows (doms : List Term) (cod : Term) : Term :=
  doms.foldr arrow cod

/-- `fun b₁ … bₙ => body`. -/
def lams (bs : List Binding) (body : Term) : Term :=
  bs.foldr (fun b t => lam b.name b.ty t) body

/-- `forall b₁ … bₙ, body`. -/
def pis (bs : List Binding) (body : Term) : Term :=
  bs.foldr (fun b t => pi b.name b.ty t) body

/-! ### Small facts -/

theorem size_pos (t : Term) : 0 < t.size := by
  cases t <;> simp [size]

@[simp] theorem apps_nil (fn : Term) : apps fn [] = fn := rfl

@[simp] theorem apps_cons (fn a : Term) (as : List Term) :
    apps fn (a :: as) = apps (app fn a) as := rfl

theorem apps_append (fn : Term) (as bs : List Term) :
    apps fn (as ++ bs) = apps (apps fn as) bs := by
  simp [apps]

/-- A term is its head applied to its arguments. -/
theorem apps_head_args (t : Term) : apps t.head t.args = t := by
  induction t with
  | app fn arg ih _ => simp [head, args, apps_append, ih]
  | _ => rfl

end Term

/-- The names a list of bindings declares. -/
def Binding.names (bs : List Binding) : List Name :=
  bs.map Binding.name

end UniqueEvidence
