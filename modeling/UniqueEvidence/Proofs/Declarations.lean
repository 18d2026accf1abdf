/-
What a declared name stands for.

* `Role`: what a name can be declared as; `roles`: the roles that declarations give, one for each
  name in them;
* `Environment.eq_of_mem_roles`: **a name has one role**;
* `Environment.mem_of_dataCtor?`, `Environment.mem_of_familyCtor?`, …: a name that is found is
  declared;
* `Environment.dataCtor?_of_mem`, `Environment.familyCtor?_of_mem`, …: what is declared is found;
* `Environment.constType?_of_mem_roles`: **the type of a symbol is that of its role**, whichever
  tables are looked through first; `Environment.constType?_of_dataCtor?`,
  `Environment.constType?_of_familyCtor?`, … for each kind of declaration;
* `Environment.constType?_cases`, `Environment.mem_declaredNames`: the roles are the only ones.
-/
import Mathlib.Data.List.Nodup
import Mathlib.Tactic.Common
import UniqueEvidence.Environment

namespace UniqueEvidence

/-! ### Roles -/

/-- What a name is declared as. -/
inductive Role where
  | datatype (d : DataType)
  | family (f : Family)
  | constant (c : Constant)
  | dataCtor (d : DataType) (c : DataCtor)
  | familyCtor (f : Family) (c : FamilyCtor)

namespace Role

/-- The name that has the role. -/
def name : Role → Name
  | datatype d => d.name
  | family f => f.name
  | constant c => .text c.name
  | dataCtor _ c => c.name
  | familyCtor _ c => c.name

/-- The type of a symbol in the role. -/
def type : Role → Term
  | datatype _ => .sort
  | family f => .arrows f.indexTypes .sort
  | constant c => c.ty
  | dataCtor d c => .arrows c.argTypes (.const d.name)
  | familyCtor f c => .pis c.binders (.apps (.const f.name) c.indices)

end Role

/-- The roles that declarations give. -/
def roles (datatypes : List DataType) (families : List Family) (constants : List Constant) :
    List Role :=
  datatypes.map .datatype ++ families.map .family ++ constants.map .constant ++
    datatypes.flatMap (fun d => d.ctors.map (.dataCtor d)) ++ families.flatMap
      (fun f => f.ctors.map (.familyCtor f))

/-- There is one role for each declared name. -/
lemma map_name_roles (datatypes : List DataType) (families : List Family)
    (constants : List Constant) :
    (roles datatypes families constants).map Role.name =
      declaredNames datatypes families constants := by
  simp [roles, declaredNames, Role.name, List.map_flatMap, Function.comp_def]

namespace Environment

variable {env : Environment} {c : Name} {d : DataType} {f : Family} {k : Constant} {ctor : DataCtor}
  {fctor : FamilyCtor}

/-- The roles in an environment. -/
def roles (env : Environment) : List Role :=
  UniqueEvidence.roles env.datatypes env.families env.constants

@[simp]
lemma datatype_mem_roles : .datatype d ∈ env.roles ↔ d ∈ env.datatypes := by
  simp [roles, UniqueEvidence.roles]

@[simp]
lemma family_mem_roles : .family f ∈ env.roles ↔ f ∈ env.families := by
  simp [roles, UniqueEvidence.roles]

@[simp]
lemma constant_mem_roles : .constant k ∈ env.roles ↔ k ∈ env.constants := by
  simp [roles, UniqueEvidence.roles]

@[simp]
lemma dataCtor_mem_roles : .dataCtor d ctor ∈ env.roles ↔ d ∈ env.datatypes ∧ ctor ∈ d.ctors := by
  simp [roles, UniqueEvidence.roles]

@[simp]
lemma familyCtor_mem_roles :
    .familyCtor f fctor ∈ env.roles ↔ f ∈ env.families ∧ fctor ∈ f.ctors := by
  simp [roles, UniqueEvidence.roles]

/-- **A name has one role.** -/
lemma eq_of_mem_roles {r r' : Role} (hr : r ∈ env.roles) (hr' : r' ∈ env.roles)
    (h : r.name = r'.name) : r = r' := by
  have hdistinct := env.distinct
  rw [← map_name_roles] at hdistinct
  exact List.inj_on_of_nodup_map hdistinct hr hr' h

lemma datatype_ne_family (hd : d ∈ env.datatypes) (hf : f ∈ env.families) : d.name ≠ f.name :=
  fun hname => by
  cases eq_of_mem_roles (datatype_mem_roles.2 hd) (family_mem_roles.2 hf) hname

/-! ### Names that are found are declared -/

lemma mem_of_datatype? (h : env.datatype? c = some d) : d ∈ env.datatypes ∧ d.name = c :=
  ⟨List.mem_of_find?_eq_some h, by simpa using List.find?_some h⟩

lemma mem_of_family? (h : env.family? c = some f) : f ∈ env.families ∧ f.name = c :=
  ⟨List.mem_of_find?_eq_some h, by simpa using List.find?_some h⟩

lemma mem_of_dataCtor? (h : env.dataCtor? c = some (d, ctor)) :
    d ∈ env.datatypes ∧ ctor ∈ d.ctors ∧ ctor.name = c := by
  obtain ⟨d', hd', h⟩ := List.exists_of_findSome?_eq_some h
  obtain ⟨ctor', hctor, heq⟩ := Option.map_eq_some_iff.1 h
  cases heq
  exact ⟨hd', List.mem_of_find?_eq_some hctor, by simpa using List.find?_some hctor⟩

lemma mem_of_familyCtor? (h : env.familyCtor? c = some (f, fctor)) :
    f ∈ env.families ∧ fctor ∈ f.ctors ∧ fctor.name = c := by
  obtain ⟨f', hf', h⟩ := List.exists_of_findSome?_eq_some h
  obtain ⟨ctor', hctor, heq⟩ := Option.map_eq_some_iff.1 h
  cases heq
  exact ⟨hf', List.mem_of_find?_eq_some hctor, by simpa using List.find?_some hctor⟩

/-! ### Declared names are found -/

/-! Something of the name is found, and since the name has one role it is what was declared. -/

lemma datatype?_of_mem (hd : d ∈ env.datatypes) : env.datatype? d.name = some d := by
  obtain ⟨d', hfound⟩ : ∃ d', env.datatype? d.name = some d' :=
    Option.isSome_iff_exists.1 (List.find?_isSome.2 ⟨d, hd, by simp⟩)
  obtain ⟨hd', hname⟩ := mem_of_datatype? hfound
  cases eq_of_mem_roles (datatype_mem_roles.2 hd') (datatype_mem_roles.2 hd) hname
  exact hfound

lemma family?_of_mem (hf : f ∈ env.families) : env.family? f.name = some f := by
  obtain ⟨f', hfound⟩ : ∃ f', env.family? f.name = some f' :=
    Option.isSome_iff_exists.1 (List.find?_isSome.2 ⟨f, hf, by simp⟩)
  obtain ⟨hf', hname⟩ := mem_of_family? hfound
  cases eq_of_mem_roles (family_mem_roles.2 hf') (family_mem_roles.2 hf) hname
  exact hfound

lemma dataCtor?_of_mem (hd : d ∈ env.datatypes) (hctor : ctor ∈ d.ctors) :
    env.dataCtor? ctor.name = some (d, ctor) := by
  obtain ⟨⟨d', ctor'⟩, hfound⟩ : ∃ p, env.dataCtor? ctor.name = some p := by
    refine Option.isSome_iff_exists.1 (List.findSome?_isSome_iff.2 ⟨d, hd, ?_⟩)
    simpa using ⟨ctor, hctor, rfl⟩
  obtain ⟨hd', hctor', hname⟩ := mem_of_dataCtor? hfound
  cases eq_of_mem_roles (dataCtor_mem_roles.2 ⟨hd', hctor'⟩)
    (dataCtor_mem_roles.2 ⟨hd, hctor⟩) hname
  exact hfound

lemma familyCtor?_of_mem (hf : f ∈ env.families) (hctor : fctor ∈ f.ctors) :
    env.familyCtor? fctor.name = some (f, fctor) := by
  obtain ⟨⟨f', fctor'⟩, hfound⟩ : ∃ p, env.familyCtor? fctor.name = some p := by
    refine Option.isSome_iff_exists.1 (List.findSome?_isSome_iff.2 ⟨f, hf, ?_⟩)
    simpa using ⟨fctor, hctor, rfl⟩
  obtain ⟨hf', hctor', hname⟩ := mem_of_familyCtor? hfound
  cases eq_of_mem_roles (familyCtor_mem_roles.2 ⟨hf', hctor'⟩)
    (familyCtor_mem_roles.2 ⟨hf, hctor⟩) hname
  exact hfound

/-! ### Types of symbols -/

/-! A table that comes first does not hide a later one, since it does not have the name. -/

lemma datatype?_eq_none {r : Role} (hr : r ∈ env.roles) (h : ∀ d, r ≠ .datatype d) :
    env.datatype? r.name = none := by
  refine Option.eq_none_iff_forall_ne_some.2 fun d hd => ?_
  obtain ⟨hmem, hname⟩ := mem_of_datatype? hd
  exact h d (eq_of_mem_roles hr (datatype_mem_roles.2 hmem) hname.symm)

lemma family?_eq_none {r : Role} (hr : r ∈ env.roles) (h : ∀ f, r ≠ .family f) :
    env.family? r.name = none := by
  refine Option.eq_none_iff_forall_ne_some.2 fun f hf => ?_
  obtain ⟨hmem, hname⟩ := mem_of_family? hf
  exact h f (eq_of_mem_roles hr (family_mem_roles.2 hmem) hname.symm)

lemma dataCtor?_eq_none {r : Role} (hr : r ∈ env.roles) (h : ∀ d ctor, r ≠ .dataCtor d ctor) :
    env.dataCtor? r.name = none := by
  refine Option.eq_none_iff_forall_ne_some.2 fun p hp => ?_
  obtain ⟨hd, hctor, hname⟩ := mem_of_dataCtor? hp
  exact h _ _ (eq_of_mem_roles hr (dataCtor_mem_roles.2 ⟨hd, hctor⟩) hname.symm)

lemma familyCtor?_eq_none {r : Role} (hr : r ∈ env.roles) (h : ∀ f ctor, r ≠ .familyCtor f ctor) :
    env.familyCtor? r.name = none := by
  refine Option.eq_none_iff_forall_ne_some.2 fun p hp => ?_
  obtain ⟨hf, hctor, hname⟩ := mem_of_familyCtor? hp
  exact h _ _ (eq_of_mem_roles hr (familyCtor_mem_roles.2 ⟨hf, hctor⟩) hname.symm)

lemma find?_constants (hk : k ∈ env.constants) :
    env.constants.find? (Name.text ·.name == .text k.name) = some k := by
  obtain ⟨k', hfound⟩ : ∃ k', env.constants.find? (Name.text ·.name == .text k.name) = some k' :=
    Option.isSome_iff_exists.1 (List.find?_isSome.2 ⟨k, hk, by simp⟩)
  have hname : Name.text k'.name = .text k.name := by simpa using List.find?_some hfound
  cases eq_of_mem_roles (constant_mem_roles.2 (List.mem_of_find?_eq_some hfound))
    (constant_mem_roles.2 hk) hname
  exact hfound

/-- **The type of a symbol is that of its role.** -/
lemma constType?_of_mem_roles {r : Role} (hr : r ∈ env.roles) :
    env.constType? r.name = some r.type := by
  cases r with
  | datatype d =>
    have hfound := datatype?_of_mem (datatype_mem_roles.1 hr)
    simp [constType?, Role.name, hfound, Role.type]
  | family f =>
    have hdata := datatype?_eq_none hr (by simp)
    have hfound := family?_of_mem (family_mem_roles.1 hr)
    rw [Role.name] at hdata ⊢
    simp [constType?, hdata, hfound, Role.type]
  | dataCtor d ctor =>
    have hdata := datatype?_eq_none hr (by simp)
    have hfamily := family?_eq_none hr (by simp)
    have hfound := dataCtor?_of_mem (dataCtor_mem_roles.1 hr).1 (dataCtor_mem_roles.1 hr).2
    rw [Role.name] at hdata hfamily ⊢
    simp [constType?, hdata, hfamily, hfound, Role.type]
  | familyCtor f ctor =>
    have hdata := datatype?_eq_none hr (by simp)
    have hfamily := family?_eq_none hr (by simp)
    have hdataCtor := dataCtor?_eq_none hr (by simp)
    have hfound := familyCtor?_of_mem (familyCtor_mem_roles.1 hr).1 (familyCtor_mem_roles.1 hr).2
    rw [Role.name] at hdata hfamily hdataCtor ⊢
    simp [constType?, hdata, hfamily, hdataCtor, hfound, Role.type]
  | constant k =>
    have hdata := datatype?_eq_none hr (by simp)
    have hfamily := family?_eq_none hr (by simp)
    have hdataCtor := dataCtor?_eq_none hr (by simp)
    have hfamilyCtor := familyCtor?_eq_none hr (by simp)
    have hfound := find?_constants (constant_mem_roles.1 hr)
    rw [Role.name] at hdata hfamily hdataCtor hfamilyCtor ⊢
    simp [constType?, hdata, hfamily, hdataCtor, hfamilyCtor, hfound, Role.type]

lemma constType?_of_family? (h : env.family? c = some f) :
    env.constType? c = some (.arrows f.indexTypes .sort) := by
  obtain ⟨hf, rfl⟩ := mem_of_family? h
  exact constType?_of_mem_roles (family_mem_roles.2 hf)

lemma constType?_of_dataCtor? (h : env.dataCtor? c = some (d, ctor)) :
    env.constType? c = some (.arrows ctor.argTypes (.const d.name)) := by
  obtain ⟨hd, hctor, rfl⟩ := mem_of_dataCtor? h
  exact constType?_of_mem_roles (dataCtor_mem_roles.2 ⟨hd, hctor⟩)

lemma constType?_of_familyCtor? (h : env.familyCtor? c = some (f, fctor)) :
    env.constType? c = some (.pis fctor.binders (.apps (.const f.name) fctor.indices)) := by
  obtain ⟨hf, hctor, rfl⟩ := mem_of_familyCtor? h
  exact constType?_of_mem_roles (familyCtor_mem_roles.2 ⟨hf, hctor⟩)

/-- The type of a declared symbol comes from a declaration of one of five kinds. -/
lemma constType?_cases {U : Term} (h : env.constType? c = some U) :
    (∃ d, env.datatype? c = some d ∧ U = .sort) ∨
    (∃ f, env.family? c = some f ∧ U = .arrows f.indexTypes .sort) ∨
    (∃ d ctor, env.dataCtor? c = some (d, ctor) ∧ U = .arrows ctor.argTypes (.const d.name)) ∨
    (∃ f ctor, env.familyCtor? c = some (f, ctor) ∧
      U = .pis ctor.binders (.apps (.const f.name) ctor.indices)) ∨
    ∃ k ∈ env.constants, .text k.name = c ∧ U = k.ty := by
  rw [constType?] at h
  split at h
  · rename_i hd
    obtain ⟨d, hd⟩ := Option.isSome_iff_exists.1 hd
    exact .inl ⟨d, hd, (Option.some.inj h).symm⟩
  · split at h
    · rename_i f hf
      exact .inr (.inl ⟨f, hf, (Option.some.inj h).symm⟩)
    · split at h
      · rename_i d ctor hctor
        exact .inr (.inr (.inl ⟨d, ctor, hctor, (Option.some.inj h).symm⟩))
      · split at h
        · rename_i f ctor hctor
          exact .inr (.inr (.inr (.inl ⟨f, ctor, hctor, (Option.some.inj h).symm⟩)))
        · obtain ⟨k, hk, rfl⟩ := Option.map_eq_some_iff.1 h
          exact .inr (.inr
            (.inr (.inr ⟨k, List.mem_of_find?_eq_some hk, by simpa using List.find?_some hk, rfl⟩)))

/-- A symbol with a type has the type of a role. -/
lemma exists_role {U : Term} (h : env.constType? c = some U) :
    ∃ r ∈ env.roles, r.name = c ∧ r.type = U := by
  rcases constType?_cases h with ⟨d, hd, rfl⟩ | ⟨f, hf, rfl⟩ | ⟨d, ctor, hd, rfl⟩ |
    ⟨f, ctor, hf, rfl⟩ | ⟨k, hk, rfl, rfl⟩
  · obtain ⟨hmem, hname⟩ := mem_of_datatype? hd
    exact ⟨_, datatype_mem_roles.2 hmem, hname, rfl⟩
  · obtain ⟨hmem, hname⟩ := mem_of_family? hf
    exact ⟨_, family_mem_roles.2 hmem, hname, rfl⟩
  · obtain ⟨hmem, hctor, hname⟩ := mem_of_dataCtor? hd
    exact ⟨_, dataCtor_mem_roles.2 ⟨hmem, hctor⟩, hname, rfl⟩
  · obtain ⟨hmem, hctor, hname⟩ := mem_of_familyCtor? hf
    exact ⟨_, familyCtor_mem_roles.2 ⟨hmem, hctor⟩, hname, rfl⟩
  · exact ⟨_, constant_mem_roles.2 hk, rfl, rfl⟩

/-- A symbol with a type is among the declared names. -/
lemma mem_declaredNames {U : Term} (h : env.constType? c = some U) :
    c ∈ declaredNames env.datatypes env.families env.constants := by
  obtain ⟨r, hr, rfl, -⟩ := exists_role h
  rw [← map_name_roles]
  exact List.mem_map_of_mem hr

end Environment

end UniqueEvidence
