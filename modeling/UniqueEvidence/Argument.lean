/-
Arguments of proof rules, as a certificate records them.

* `Argument`: a term, an atom, or a tuple of arguments, with decidable equality;
* `Argument.integer?`: the number that an argument counts as;
* `Argument.ofName`, `Argument.toName?`: names as arguments, and back.  Every argument without a
  term is a name;
* `Argument.describe`, `Argument.plain`: how messages show an argument.
-/
import UniqueEvidence.Term.Describe

namespace UniqueEvidence

/-- An argument of a rule. -/
inductive Argument where
  | term (t : Term)
  | atom (a : Atom)
  | tuple (args : List Argument)
  deriving Inhabited

namespace Argument

/-- A number as an argument. -/
@[match_pattern] abbrev number (n : Int) : Argument :=
  atom (.number n)

/-- A text as an argument. -/
@[match_pattern] abbrev text (s : String) : Argument :=
  atom (.text s)

/-- The whole number that an argument counts as; a truth value counts as zero or one. -/
def integer? : Argument → Option Int
  | number n => some n
  | atom (.flag b) => some (if b then 1 else 0)
  | _ => none

mutual

/-- Whether two arguments are equal. -/
def decEq : (a b : Argument) → Decidable (a = b)
  | term s, term t => decidable_of_iff (s = t) (by rw [term.injEq])
  | atom x, atom y => decidable_of_iff (x = y) (by rw [atom.injEq])
  | tuple as, tuple bs => @decidable_of_iff _ (as = bs) (by rw [tuple.injEq]) (decEqAll as bs)
  | term _, atom _ | term _, tuple _ => isFalse nofun
  | atom _, term _ | atom _, tuple _ => isFalse nofun
  | tuple _, term _ | tuple _, atom _ => isFalse nofun

/-- Whether two lists of arguments are equal. -/
def decEqAll : (as bs : List Argument) → Decidable (as = bs)
  | [], [] => isTrue rfl
  | [], _ :: _ => isFalse nofun
  | _ :: _, [] => isFalse nofun
  | a :: as, b :: bs =>
    match decEq a b, decEqAll as bs with
    | isTrue h, isTrue h' => isTrue (by rw [h, h'])
    | isFalse h, _ => isFalse fun e => h (List.cons.inj e).1
    | _, isFalse h => isFalse fun e => h (List.cons.inj e).2

end

instance : DecidableEq Argument :=
  decEq

/-! ### Names -/

mutual

/-- A name as an argument. -/
def ofName : Name → Argument
  | .atom a => atom a
  | .tuple parts => tuple (ofNameList parts)

/-- Several names as arguments. -/
def ofNameList : List Name → List Argument
  | [] => []
  | x :: rest => ofName x :: ofNameList rest

end

/-- A tuple of names as an argument. -/
def ofNames (xs : List Name) : Argument :=
  tuple (ofNameList xs)

mutual

/-- The name that an argument is. -/
def toName? : Argument → Option Name
  | term _ => none
  | atom a => some (.atom a)
  | tuple args => (names? args).map .tuple

/-- The names in a list of arguments that are all names. -/
def names? : List Argument → Option (List Name)
  | [] => some []
  | a :: rest => do return (← a.toName?) :: (← names? rest)

end

mutual

theorem toName?_ofName : (x : Name) → (ofName x).toName? = some x
  | .atom _ => rfl
  | .tuple parts => by rw [ofName, toName?, names?_ofNameList parts]; rfl

/-- Names are read back from arguments. -/
theorem names?_ofNameList : (xs : List Name) → names? (ofNameList xs) = some xs
  | [] => rfl
  | x :: rest => by rw [ofNameList, names?, toName?_ofName x, names?_ofNameList rest]; rfl

end

/-! ### Wording -/

mutual

/-- An argument with text in quotes. -/
def describe : Argument → String
  | term t => t.describe
  | atom a => a.describe
  | tuple args => Text.parenthesized (describeAll args)

/-- The descriptions of several arguments. -/
def describeAll : List Argument → List String
  | [] => []
  | a :: rest => a.describe :: describeAll rest

end

/-- An argument inside a sentence, where text stands without quotes. -/
def plain : Argument → String
  | atom a => a.plain
  | a => a.describe

end Argument

end UniqueEvidence
