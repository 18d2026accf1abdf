/-
The motive of the case split.  For a family `head`, an index tuple `rv` and evidence `lhs` at `rv`,
it says of indices `ainds` and evidence `e` at `ainds`

    forall (pf : rv = ainds), transport pf lhs = e

* `Motive.statement`: the motive over a whole tuple, in reversed order;
* `Motive.curried`: the motive as a function of the indices, one by one in natural order, and the
  evidence.
-/
import UniqueEvidence.Uniqueness.Comparison

namespace UniqueEvidence

/-- What the motive is built from. -/
structure Motive where
  head : Term
  /-- The indices of the left side, last one first. -/
  reversed : Tuple
  lhs : Term
  /-- Names that bound variables must differ from. -/
  avoid : List Name

namespace Motive

/-- The type of the index tuples. -/
def tupleTy (m : Motive) : Term :=
  m.reversed.ty

/-- The left side, transported along a proof that its indices are `ainds`. -/
def transport (m : Motive) (ainds : Tuple) (proof : Term) : Term :=
  .transport m.head m.reversed.toTerm ainds.toTerm proof m.lhs

/-- The motive at a reversed index tuple. -/
def statement (m : Motive) (depth : Nat) (ainds : Tuple) (evidence : Term) : Except Fault Term := do
  let pf := fresh "pf" (m.avoid ++ evidence.freeVars ++ ainds.toTerm.freeVars)
  let family ← familyAt depth m.head ainds
  return .pi pf (.eq m.tupleTy m.reversed.toTerm ainds.toTerm)
    (.eq family (m.transport ainds (.var pf)) evidence)

/-- The motive as a function of the indices in natural order and the evidence. -/
def curried (m : Motive) (depth : Nat) : Except Fault Term := do
  let e := fresh "e" m.avoid
  let bindings := freshBindings m.reversed.types.reverse (e :: m.avoid) "i"
  let indices := Tuple.ofBindings bindings
  return .lams bindings
    (.lam e (m.head.applyTuple indices) (← m.statement depth indices.reverse (.var e)))

/-- The motive at indices in natural order, in normal form. -/
def target (m : Motive) (depth : Nat) (indices : Tuple) (evidence : Term) : Except Fault Term := do
  withinDepth ((← m.statement depth indices.reverse evidence).normalize depth)

/-- The index tuple equals itself. -/
def reflWitness (m : Motive) : Term :=
  .refl m.tupleTy m.reversed.toTerm

/-- The left side transported along reflexivity, which is convertible with it. -/
def reflexiveLhs (m : Motive) : Term :=
  m.transport m.reversed m.reflWitness

end Motive

/-- The motive for a comparison. -/
def Comparison.motive (c : Comparison) (avoid : List Name) : Motive where
  head := c.head
  reversed := c.reversed
  lhs := c.lhs
  avoid := avoid ++ c.lhs.freeVars ++ c.rhs.freeVars

/-- The motive for a comparison with its curried form, reported. -/
def Kernel.motive (k : Kernel) (c : Comparison) (avoid : List Name) : Logged (Motive × Term) := do
  let m := c.motive avoid
  let curried ← m.curried k.depth
  Logged.note (.motiveBuilt curried)
  return (m, curried)

end UniqueEvidence
