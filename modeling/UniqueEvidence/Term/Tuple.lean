/-
Heterogeneous tuples: a list of slots, each a value with its type.  As terms they are right-nested
pairs that end in `tt`, and their types are right-nested products that end in `unit`.

* `Tuple`: the slots, with views `types`, `values`, `ty` and `toTerm`;
* `Tuple.ofLists?`, `Tuple.ofTerm?`: tuples from two lists, and from an encoded term;
* `Term.applyTuple`: a function applied to the values of a tuple, front to back;
* `curry`: a function of the components from a statement over the whole tuple.
-/
import UniqueEvidence.Term.Describe
import UniqueEvidence.Term.Fresh

namespace UniqueEvidence

/-- A value with its type. -/
structure Slot where
  ty : Term
  value : Term
  deriving DecidableEq, Inhabited

/-- A heterogeneous tuple. -/
abbrev Tuple := List Slot

/-- The type of tuples with the given component types. -/
def tupleType (types : List Term) : Term :=
  types.foldr Term.prod Term.unit

/-- The components of an encoded tuple. -/
def Term.components : Term → Option (List Term)
  | pair a b => b.components.map (a :: ·)
  | tt => some []
  | _ => none

/-- Why a tuple cannot be formed. -/
inductive TupleError where
  /-- As many values, for that many types. -/
  | lengths (values types : Nat)
  /-- A term that does not encode a tuple with that many components. -/
  | shape (count : Nat) (term : Term)
  deriving DecidableEq

/-- The wording of a tuple error. -/
def TupleError.message : TupleError → String
  | lengths values types => s!"HTuple has {values} values for {types} types"
  | shape count term => s!"Term is not a {count}-tuple: " ++ term.describe

namespace Tuple

/-- The types of the components. -/
def types (t : Tuple) : List Term :=
  t.map Slot.ty

/-- The components. -/
def values (t : Tuple) : List Term :=
  t.map Slot.value

/-- The type of the encoded tuple. -/
def ty (t : Tuple) : Term :=
  tupleType (types t)

/-- The tuple as nested pairs. -/
def toTerm (t : Tuple) : Term :=
  t.foldr (fun slot rest => Term.pair slot.value rest) Term.tt

/-- The tuple with the given types and values, if there are as many of either. -/
def ofLists? (types values : List Term) : Except TupleError Tuple :=
  if types.length = values.length then .ok (List.zipWith Slot.mk types values)
  else .error (.lengths values.length types.length)

/-- The tuple a term encodes, if it has one component for each type. -/
def ofTerm? (types : List Term) (term : Term) : Except TupleError Tuple :=
  match term.components with
  | some parts =>
    if parts.length = types.length then .ok (List.zipWith Slot.mk types parts)
    else .error (.shape types.length term)
  | none => .error (.shape types.length term)

/-- The tuple of the variables of a telescope. -/
def ofBindings (bs : List Binding) : Tuple :=
  bs.map fun b => ⟨b.ty, .var b.name⟩

end Tuple

/-- `fn v₁ … vₙ` for the values of a tuple. -/
def Term.applyTuple (fn : Term) (t : Tuple) : Term :=
  fn.apps (Tuple.values t)

/-- A telescope of the given types, whose names vary `base` and stay outside `avoid`. -/
def freshBindings (types : List Term) (avoid : List Name) (base : Name) : List Binding :=
  List.zipWith Binding.mk (freshNames base avoid types.length) types

/-- `fun (x₁ : X₁) … (xₙ : Xₙ) => body (x₁, …, xₙ)`, with binder names outside `avoid`. -/
def curry (types : List Term) (body : Tuple → Term) (avoid : List Name) (base : Name) : Term :=
  let bs := freshBindings types avoid base
  Term.lams bs (body (Tuple.ofBindings bs))

end UniqueEvidence
