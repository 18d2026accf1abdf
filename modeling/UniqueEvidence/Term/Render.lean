/-
Readable notation for terms.

* `Term.render`: `f a b`, `fun (x : A) => b`, `A -> B`, `forall (x : A), B`, `A * B`, `(a, b)`,
  `a = b`, `eq_refl a` and `transport p a`; parts that are not atoms stand in parentheses;
* `Term.isReadable`: whether every name that is applied, or that something is applied to, is text.
-/
import UniqueEvidence.Term.Basic

namespace UniqueEvidence

namespace Term

/-- Whether the notation of a term needs parentheses where an atom is expected. -/
def isCompound : Term → Bool
  | app .. | lam .. | pi .. | prod .. | eq .. | refl .. | transport .. => true
  | var _ | const _ | sort | unit | tt | pair .. => false

/-- Whether a term is an application. -/
def isApp : Term → Bool
  | app .. => true
  | _ => false

/-- A notation, in parentheses if the flag says so. -/
def enclose (needed : Bool) (text : String) : String :=
  if needed then "(" ++ text ++ ")" else text

/-- The notation of a term. -/
def render : Term → String
  | var x => x.plain
  | const c => c.plain
  | sort => "Type"
  | unit => "unit"
  | tt => "tt"
  | app fn arg =>
    enclose (fn.isCompound && !fn.isApp) fn.render ++ " " ++ enclose arg.isCompound arg.render
  | lam x ty body => "fun (" ++ x.plain ++ " : " ++ ty.render ++ ") => " ++ body.render
  | pi x ty body =>
    if x = anonymous ∨ x ∉ body.freeVars then
      enclose ty.isCompound ty.render ++ " -> " ++ body.render
    else
      "forall (" ++ x.plain ++ " : " ++ ty.render ++ "), " ++ body.render
  | prod a b => enclose a.isCompound a.render ++ " * " ++ enclose b.isCompound b.render
  | pair a b => "(" ++ a.render ++ ", " ++ b.render ++ ")"
  | eq _ lhs rhs => lhs.render ++ " = " ++ rhs.render
  | refl _ value => "eq_refl " ++ enclose value.isCompound value.render
  | transport _ _ _ proof value =>
    "transport " ++ enclose proof.isCompound proof.render ++ " " ++
      enclose value.isCompound value.render

/-- Whether a term can stand in an application: a bare name has to be text. -/
def isWord : Term → Bool
  | var x | const x => x.isText
  | _ => true

/-- Whether the notation of a term is proper: names that are not text stand in no application. -/
def isReadable : Term → Bool
  | var _ | const _ | sort | unit | tt => true
  | app fn arg => fn.isWord && arg.isWord && fn.isReadable && arg.isReadable
  | lam _ ty body | pi _ ty body => ty.isReadable && body.isReadable
  | prod a b | pair a b => a.isReadable && b.isReadable
  | eq _ lhs rhs => lhs.isReadable && rhs.isReadable
  | refl _ value => value.isReadable
  | transport _ _ _ proof value => proof.isReadable && value.isReadable

end Term

end UniqueEvidence
