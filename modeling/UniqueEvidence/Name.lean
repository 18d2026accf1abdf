/-
Names of variables, hypotheses and global symbols.

* `Atom`: a single value; almost always it is text;
* `Name`: an atom, or a tuple of names.  A rule takes any of these where it introduces a name, and
  names that are not text differ from all that are;
* `Name.describe`, `Name.plain`: how messages show a name.
-/
import UniqueEvidence.Number.Shortest
import UniqueEvidence.Text.Quoted

namespace UniqueEvidence

/-- A single value. -/
inductive Atom where
  | null
  | flag (b : Bool)
  | number (n : Int)
  | real (x : Double)
  | text (s : String)
  deriving DecidableEq, Inhabited

namespace Atom

/-- An atom with text in quotes. -/
def describe : Atom → String
  | null => "None"
  | flag true => "True"
  | flag false => "False"
  | number n => toString n
  | real x => x.render
  | text s => Text.quote s

/-- An atom inside a sentence, where text stands without quotes. -/
def plain : Atom → String
  | text s => s
  | a => a.describe

instance : ToString Atom :=
  ⟨plain⟩

instance : Coe String Atom :=
  ⟨text⟩

end Atom

/-- A name. -/
inductive Name where
  | atom (a : Atom)
  | tuple (parts : List Name)
  deriving Inhabited

namespace Name

/-- A name that is text. -/
@[match_pattern] abbrev text (s : String) : Name :=
  atom (.text s)

instance : Coe String Name :=
  ⟨text⟩

mutual

/-- Whether two names are equal. -/
def decEq : (x y : Name) → Decidable (x = y)
  | atom a, atom b => decidable_of_iff (a = b) (by rw [atom.injEq])
  | tuple xs, tuple ys => @decidable_of_iff _ (xs = ys) (by rw [tuple.injEq]) (decEqAll xs ys)
  | atom _, tuple _ | tuple _, atom _ => isFalse nofun

/-- Whether two lists of names are equal. -/
def decEqAll : (xs ys : List Name) → Decidable (xs = ys)
  | [], [] => isTrue rfl
  | [], _ :: _ => isFalse nofun
  | _ :: _, [] => isFalse nofun
  | x :: xs, y :: ys =>
    match decEq x y, decEqAll xs ys with
    | isTrue h, isTrue h' => isTrue (by rw [h, h'])
    | isFalse h, _ => isFalse fun e => h (List.cons.inj e).1
    | _, isFalse h => isFalse fun e => h (List.cons.inj e).2

end

instance : DecidableEq Name :=
  decEq

mutual

/-- A name with text in quotes. -/
def describe : Name → String
  | atom a => a.describe
  | tuple parts => Text.parenthesized (describeAll parts)

/-- The descriptions of several names. -/
def describeAll : List Name → List String
  | [] => []
  | x :: rest => x.describe :: describeAll rest

end

/-- A name inside a sentence, where text stands without quotes. -/
def plain : Name → String
  | atom a => a.plain
  | x => x.describe

instance : ToString Name :=
  ⟨plain⟩

/-- Whether a name is text. -/
def isText : Name → Bool
  | text _ => true
  | _ => false

@[simp] theorem plain_text (s : String) : (text s).plain = s := rfl

theorem text_inj {s t : String} : text s = text t ↔ s = t := by
  rw [text, text, atom.injEq, Atom.text.injEq]

end Name

end UniqueEvidence
