/-
Normalisation.  Two steps compute: an applied function is unfolded, and a transport along
reflexivity gives back the transported value.  There are no definitions to unfold.

* `Term.normalize`: both kinds of step everywhere, also below binders and in type annotations.
  Terms without a normal form exist, so the function takes a bound on the depth of the recursion
  and gives `none` once it is spent.
-/
import UniqueEvidence.Term.Subst

namespace UniqueEvidence

namespace Term

/-- The normal form of a term, if it is found within the given depth. -/
def normalize : Nat → Term → Option Term
  | 0, _ => none
  | depth + 1, t =>
    match t with
    | var x => some (var x)
    | const c => some (const c)
    | sort => some sort
    | unit => some unit
    | tt => some tt
    | app fn arg => do
      let fn ← normalize depth fn
      let arg ← normalize depth arg
      match fn with
      | lam x _ body => normalize depth (body.subst x arg)
      | fn => some (app fn arg)
    | lam x ty body => return lam x (← normalize depth ty) (← normalize depth body)
    | pi x ty body => return pi x (← normalize depth ty) (← normalize depth body)
    | prod a b => return prod (← normalize depth a) (← normalize depth b)
    | pair a b => return pair (← normalize depth a) (← normalize depth b)
    | eq ty lhs rhs =>
      return eq (← normalize depth ty) (← normalize depth lhs) (← normalize depth rhs)
    | refl ty value => return refl (← normalize depth ty) (← normalize depth value)
    | transport head src dst proof value => do
      match ← normalize depth proof with
      | refl _ _ => normalize depth value
      | proof =>
        return transport (← normalize depth head) (← normalize depth src)
          (← normalize depth dst) proof (← normalize depth value)

/-- The depth to which terms are normalised where nothing else is asked for. -/
def defaultDepth : Nat := 10000

end Term

end UniqueEvidence
