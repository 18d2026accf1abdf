/-
Equality up to the names of bound variables, and conversion.

* `Term.alphaEq`: two terms that differ only in the names of their binders;
* `Term.convertible`: alpha-equality of normal forms.
-/
import UniqueEvidence.Term.Normal

namespace UniqueEvidence

namespace Term

/-- Whether two variables refer to the same binder, or are the same free name.  The list pairs the
binders passed on the way down on either side, innermost first. -/
def sameVar : List (Name × Name) → Name → Name → Bool
  | [], x, y => x == y
  | (a, b) :: binders, x, y =>
    if x = a ∨ y = b then x == a && y == b else sameVar binders x y

/-- Equality up to bound names below the given pairs of binders. -/
def alphaEqUnder (binders : List (Name × Name)) : Term → Term → Bool
  | var x, var y => sameVar binders x y
  | const c, const d => c == d
  | app f a, app g b => alphaEqUnder binders f g && alphaEqUnder binders a b
  | lam x s a, lam y t b => alphaEqUnder binders s t && alphaEqUnder ((x, y) :: binders) a b
  | pi x s a, pi y t b => alphaEqUnder binders s t && alphaEqUnder ((x, y) :: binders) a b
  | sort, sort => true
  | unit, unit => true
  | tt, tt => true
  | prod a b, prod c d => alphaEqUnder binders a c && alphaEqUnder binders b d
  | pair a b, pair c d => alphaEqUnder binders a c && alphaEqUnder binders b d
  | eq s a b, eq t c d =>
    alphaEqUnder binders s t && alphaEqUnder binders a c && alphaEqUnder binders b d
  | refl s a, refl t b => alphaEqUnder binders s t && alphaEqUnder binders a b
  | transport h s d p v, transport h' s' d' p' v' =>
    alphaEqUnder binders h h' && alphaEqUnder binders s s' && alphaEqUnder binders d d' &&
      alphaEqUnder binders p p' && alphaEqUnder binders v v'
  | _, _ => false

/-- Equality up to the names of bound variables. -/
def alphaEq (a b : Term) : Bool :=
  alphaEqUnder [] a b

/-- Whether two terms have alpha-equal normal forms, if both are found within the given depth. -/
def convertible (depth : Nat) (a b : Term) : Option Bool := do
  let a ← a.normalize depth
  let b ← b.normalize depth
  return a.alphaEq b

end Term

end UniqueEvidence
