/-
Descriptions of terms, form by form.  They show every field, types included, where the readable
notation leaves some out, so messages about malformed terms use them.

* `Term.describe`: `Var(name='x')`, `App(fn=…, arg=…)`, `Unit()` and so on for each of the thirteen
  forms.
-/
import UniqueEvidence.Term.Basic

namespace UniqueEvidence

namespace Term

/-- The name of a form with its labelled fields. -/
def describeForm (form : String) (fields : List (String × String)) : String :=
  form ++ "(" ++ ", ".intercalate (fields.map fun (label, text) => label ++ "=" ++ text) ++ ")"

/-- A description that shows every field of a term. -/
def describe : Term → String
  | var x => describeForm "Var" [("name", x.describe)]
  | const c => describeForm "Const" [("name", c.describe)]
  | app fn arg => describeForm "App" [("fn", fn.describe), ("arg", arg.describe)]
  | lam x ty body =>
    describeForm "Lam" [("name", x.describe), ("ty", ty.describe), ("body", body.describe)]
  | pi x ty body =>
    describeForm "Pi" [("name", x.describe), ("ty", ty.describe), ("body", body.describe)]
  | sort => describeForm "Sort" []
  | unit => describeForm "Unit" []
  | tt => describeForm "Tt" []
  | prod a b => describeForm "Prod" [("fst", a.describe), ("snd", b.describe)]
  | pair a b => describeForm "Pair" [("fst", a.describe), ("snd", b.describe)]
  | eq ty lhs rhs =>
    describeForm "Eq" [("ty", ty.describe), ("lhs", lhs.describe), ("rhs", rhs.describe)]
  | refl ty value => describeForm "Refl" [("ty", ty.describe), ("value", value.describe)]
  | transport head src dst proof value =>
    describeForm "Transport" [("head", head.describe), ("src", src.describe), ("dst", dst.describe),
      ("proof", proof.describe), ("value", value.describe)]

end Term

end UniqueEvidence
