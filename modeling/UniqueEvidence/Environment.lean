/-
Global declarations: data types, indexed families and opaque constants.

* `Environment`: the declarations, no two of which share a name;
* `Environment.of?`: an environment from lists of declarations; of two data types or two families
  with one name the later one counts, and any other repeated name is refused;
* `Environment.dataCtor?`, `Environment.familyCtor?`, `Environment.constType?`: what a name stands
  for.
-/
import UniqueEvidence.Term.Tuple

namespace UniqueEvidence

/-- A constructor of a data type, such as `spair : shape -> shape -> shape`. -/
structure DataCtor where
  name : Name
  argTypes : List Term
  deriving DecidableEq, Inhabited

/-- A plain data type. -/
structure DataType where
  name : Name
  ctors : List DataCtor
  deriving DecidableEq, Inhabited

/-- A constructor of an indexed family, such as `s_node : forall (a b : shape), S (spair a b)`. -/
structure FamilyCtor where
  name : Name
  binders : List Binding
  indices : List Term
  deriving DecidableEq, Inhabited

/-- An indexed predicate `name : I₁ -> … -> Iₙ -> Type`. -/
structure Family where
  name : Name
  indexTypes : List Term
  ctors : List FamilyCtor
  deriving DecidableEq, Inhabited

/-- An opaque constant. -/
structure Constant where
  name : String
  ty : Term
  deriving DecidableEq, Inhabited

/-- The number of arguments of a constructor. -/
def DataCtor.arity (c : DataCtor) : Nat :=
  c.argTypes.length

/-- The number of arguments of a constructor. -/
def FamilyCtor.arity (c : FamilyCtor) : Nat :=
  c.binders.length

/-- The number of indices of a family. -/
def Family.arity (f : Family) : Nat :=
  f.indexTypes.length

/-- The names that declarations introduce: types first, then families, constants and
constructors. -/
def declaredNames (datatypes : List DataType) (families : List Family) (constants : List Constant) :
    List Name :=
  datatypes.map DataType.name ++ families.map Family.name ++ constants.map
    (fun c => .text c.name) ++
    datatypes.flatMap (·.ctors.map DataCtor.name) ++ families.flatMap (·.ctors.map FamilyCtor.name)

/-- All global declarations. -/
structure Environment where
  datatypes : List DataType
  families : List Family
  constants : List Constant
  /-- No name is declared twice. -/
  distinct : (declaredNames datatypes families constants).Nodup

/-! ### Building an environment -/

/-- The first entry that stands in `seen` or repeats an earlier one. -/
def firstRepeat (seen : List Name) : List Name → Option Name
  | [] => none
  | x :: xs => if x ∈ seen then some x else firstRepeat (x :: seen) xs

theorem firstRepeat_eq_none {seen xs : List Name} (h : firstRepeat seen xs = none) :
    xs.Nodup ∧ ∀ x ∈ xs, x ∉ seen := by
  induction xs generalizing seen with
  | nil => simp
  | cons x xs ih =>
    rw [firstRepeat] at h
    split at h
    · simp at h
    · rename_i hx
      obtain ⟨hnodup, hout⟩ := ih h
      refine ⟨List.nodup_cons.2 ⟨fun hmem => hout x hmem (by simp), hnodup⟩, ?_⟩
      intro y hy
      rcases List.mem_cons.1 hy with rfl | hy
      · exact hx
      · exact fun hseen => hout y hy (by simp [hseen])

/-- The list with each entry put in place of an earlier one with the same key. -/
def keepLast {α κ : Type} [DecidableEq κ] (key : α → κ) (xs : List α) : List α :=
  xs.foldl (fun kept x =>
    if kept.any (key · == key x) then kept.map fun y => if key y = key x then x else y
    else kept ++ [x]) []

/-- The environment of the given declarations, or a name that is declared twice. -/
def Environment.of? (datatypes : List DataType) (families : List Family)
    (constants : List Constant) : Except Name Environment :=
  let datatypes := keepLast DataType.name datatypes
  let families := keepLast Family.name families
  let constants := keepLast Constant.name constants
  match h : firstRepeat [] (declaredNames datatypes families constants) with
  | some name => .error name
  | none => .ok { datatypes, families, constants, distinct := (firstRepeat_eq_none h).1 }

/-- The wording for a name that is declared twice. -/
def duplicateMessage (name : Name) : String :=
  "Duplicate declaration: " ++ name.describe

/-! ### Looking names up -/

namespace Environment

/-- The data type of a name. -/
def datatype? (env : Environment) (name : Name) : Option DataType :=
  env.datatypes.find? (·.name == name)

/-- The family of a name. -/
def family? (env : Environment) (name : Name) : Option Family :=
  env.families.find? (·.name == name)

/-- The data constructor of a name, with its type. -/
def dataCtor? (env : Environment) (name : Name) : Option (DataType × DataCtor) :=
  env.datatypes.findSome? fun d => (d.ctors.find? (·.name == name)).map (d, ·)

/-- The family constructor of a name, with its family. -/
def familyCtor? (env : Environment) (name : Name) : Option (Family × FamilyCtor) :=
  env.families.findSome? fun f => (f.ctors.find? (·.name == name)).map (f, ·)

/-- Whether a name is a constructor. -/
def isConstructor (env : Environment) (name : Name) : Bool :=
  (env.dataCtor? name).isSome || (env.familyCtor? name).isSome

/-- The declared type of a global symbol. -/
def constType? (env : Environment) (name : Name) : Option Term :=
  if (env.datatype? name).isSome then
    some .sort
  else if let some f := env.family? name then
    some (.arrows f.indexTypes .sort)
  else if let some (d, c) := env.dataCtor? name then
    some (.arrows c.argTypes (.const d.name))
  else if let some (f, c) := env.familyCtor? name then
    some (.pis c.binders (.apps (.const f.name) c.indices))
  else
    (env.constants.find? (Name.text ·.name == name)).map Constant.ty

/-- The constructor that heads a term, if there is one. -/
def constructorHead? (env : Environment) (t : Term) : Option Name :=
  match t.head with
  | .const c => if env.isConstructor c then some c else none
  | _ => none

end Environment

end UniqueEvidence
