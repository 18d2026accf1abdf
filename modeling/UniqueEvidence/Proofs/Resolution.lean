/-
Looking declared names up.

* `Environment.dataCtor?_eq_some`, `Environment.familyCtor?_eq_some`,
  `Environment.isConstructor_iff`, `Environment.constType?_eq_some`: each lookup finds the
  declaration of the name;
* `Environment.Keyed.of?_cases`: declarations are refused if a name occurs twice, and otherwise
  accepted as they are;
* `Environment.Rearranges`: the declarations in another order, with their constructors in another
  order;
* `Environment.Rearranged.exists_role`: a role then corresponds to one of the same name and type, so
  no lookup changes;
* `Environment.resolution`: **lookups are unambiguous and do not depend on the order of the
  declarations**.
-/
import UniqueEvidence.Proofs.Declarations
import UniqueEvidence.Proofs.Sample
import UniqueEvidence.Proofs.Telescope

namespace UniqueEvidence

/-- Whether the role is that of a constructor. -/
def Role.isCtor : Role → Bool
  | dataCtor _ _ | familyCtor _ _ => true
  | _ => false

namespace Environment

variable {env : Environment} {x : Name} {d : DataType} {f : Family} {ctor : DataCtor}
  {fctor : FamilyCtor}

/-! ### Lookups -/

lemma dataCtor?_eq_some :
    env.dataCtor? x = some (d, ctor) ↔ .dataCtor d ctor ∈ env.roles ∧ ctor.name = x := by
  rw [dataCtor_mem_roles]
  constructor
  · intro h
    obtain ⟨hd, hctor, hname⟩ := mem_of_dataCtor? h
    exact ⟨⟨hd, hctor⟩, hname⟩
  · rintro ⟨⟨hd, hctor⟩, rfl⟩
    exact dataCtor?_of_mem hd hctor

lemma familyCtor?_eq_some :
    env.familyCtor? x = some (f, fctor) ↔ .familyCtor f fctor ∈ env.roles ∧ fctor.name = x := by
  rw [familyCtor_mem_roles]
  constructor
  · intro h
    obtain ⟨hf, hctor, hname⟩ := mem_of_familyCtor? h
    exact ⟨⟨hf, hctor⟩, hname⟩
  · rintro ⟨⟨hf, hctor⟩, rfl⟩
    exact familyCtor?_of_mem hf hctor

lemma isConstructor_iff :
    env.isConstructor x = true ↔ ∃ r ∈ env.roles, r.name = x ∧ r.isCtor = true := by
  rw [isConstructor, Bool.or_eq_true, Option.isSome_iff_exists, Option.isSome_iff_exists]
  constructor
  · rintro (⟨p, h⟩ | ⟨p, h⟩)
    · obtain ⟨hmem, hname⟩ := dataCtor?_eq_some.1 h
      exact ⟨_, hmem, hname, rfl⟩
    · obtain ⟨hmem, hname⟩ := familyCtor?_eq_some.1 h
      exact ⟨_, hmem, hname, rfl⟩
  · rintro ⟨r, hr, hname, hctor⟩
    cases r with
    | dataCtor d ctor => exact .inl ⟨_, dataCtor?_eq_some.2 ⟨hr, hname⟩⟩
    | familyCtor f ctor => exact .inr ⟨_, familyCtor?_eq_some.2 ⟨hr, hname⟩⟩
    | datatype | family | constant => cases hctor

lemma constType?_eq_some {U : Term} :
    env.constType? x = some U ↔ ∃ r ∈ env.roles, r.name = x ∧ r.type = U := by
  refine ⟨exists_role, ?_⟩
  rintro ⟨r, hr, rfl, rfl⟩
  exact constType?_of_mem_roles hr

end Environment

/-! ### Building an environment -/

/-- How often a name is declared. -/
lemma countP_roles (datatypes : List DataType) (families : List Family) (constants : List Constant)
    (x : Name) :
    (roles datatypes families constants).countP (·.name == x) =
      (declaredNames datatypes families constants).count x := by
  rw [← map_name_roles, List.count_eq_countP, List.countP_map]
  rfl

/-- A name that is reported occurs twice, or was seen before. -/
lemma count_of_firstRepeat {seen xs : List Name} {x : Name} (h : firstRepeat seen xs = some x) :
    x ∈ xs ∧ (x ∈ seen ∨ 2 ≤ xs.count x) := by
  induction xs generalizing seen with
  | nil => cases h
  | cons y ys ih =>
    rw [firstRepeat] at h
    split at h
    · rename_i hy
      obtain rfl := Option.some.inj h
      exact ⟨List.mem_cons_self, .inl hy⟩
    · obtain ⟨hmem, hagain⟩ := ih h
      refine ⟨List.mem_cons_of_mem _ hmem, ?_⟩
      have hone : 1 ≤ ys.count x := List.one_le_count_iff.2 hmem
      rw [List.count_cons]
      rcases hagain with hseen | htwice
      · rcases List.mem_cons.1 hseen with rfl | hseen
        · exact .inr (by simpa using hone)
        · exact .inl hseen
      · exact .inr (by omega)

namespace Environment

variable {datatypes : List DataType} {families : List Family} {constants : List Constant}

/-- Distinct names within each kind of declarations, as keys of a map are. -/
structure Keyed (datatypes : List DataType) (families : List Family) (constants : List Constant) :
    Prop where
  datatypes : (datatypes.map DataType.name).Nodup
  families : (families.map Family.name).Nodup
  constants : (constants.map Constant.name).Nodup

lemma keyed_of_nodup (h : (declaredNames datatypes families constants).Nodup) :
    Keyed datatypes families constants := by
  simp only [declaredNames, List.nodup_append] at h
  obtain ⟨⟨⟨⟨hdatatypes, hfamilies, -⟩, hconstants, -⟩, -, -⟩, -, -⟩ := h
  refine ⟨hdatatypes, hfamilies, List.Nodup.of_map Name.text ?_⟩
  rwa [List.map_map]

/-- **Declarations are refused exactly if a name occurs twice**, and otherwise accepted as they
are. -/
lemma Keyed.of?_cases (h : Keyed datatypes families constants) :
    (∃ x, of? datatypes families constants = .error x ∧
      2 ≤ (declaredNames datatypes families constants).count x) ∨
    ∃ hdistinct, of? datatypes families constants =
      .ok ⟨datatypes, families, constants, hdistinct⟩ := by
  rw [of?]
  simp only [keepLast_of_nodup h.datatypes, keepLast_of_nodup h.families,
    keepLast_of_nodup h.constants]
  split
  · rename_i x hx
    rw [keepLast_of_nodup h.datatypes, keepLast_of_nodup h.families,
      keepLast_of_nodup h.constants] at hx
    refine .inl ⟨x, rfl, ?_⟩
    rcases (count_of_firstRepeat hx).2 with hseen | htwice
    · cases hseen
    · exact htwice
  · rename_i hnone
    rw [keepLast_of_nodup h.datatypes, keepLast_of_nodup h.families,
      keepLast_of_nodup h.constants] at hnone
    exact .inr ⟨(firstRepeat_eq_none hnone).1, rfl⟩

lemma of?_of_nodup (h : (declaredNames datatypes families constants).Nodup) :
    of? datatypes families constants = .ok ⟨datatypes, families, constants, h⟩ := by
  rcases (keyed_of_nodup h).of?_cases with ⟨x, -, htwice⟩ | ⟨_, hok⟩
  · exact absurd (List.nodup_iff_count_le_one.1 h x) (by omega)
  · exact hok

end Environment

/-! ### Other orders -/

/-- The second list has the entries of the first one in another order, up to a relation. -/
def Shuffles {α : Type} (R : α → α → Prop) (as bs : List α) : Prop :=
  ∃ cs, as.Perm cs ∧ List.Forall₂ R cs bs

namespace Shuffles

variable {α β : Type} {R : α → α → Prop} {as bs : List α}

lemma symm (hR : ∀ a b, R a b → R b a) (h : Shuffles R as bs) : Shuffles R bs as := by
  obtain ⟨cs, hperm, hrel⟩ := h
  have hback : Relation.Comp (List.Forall₂ R) List.Perm bs as :=
    ⟨cs, (hrel.imp hR).flip, hperm.symm⟩
  rwa [List.forall₂_comp_perm_eq_perm_comp_forall₂] at hback

lemma exists_mem (h : Shuffles R as bs) {a : α} (ha : a ∈ as) : ∃ b ∈ bs, R a b := by
  obtain ⟨cs, hperm, hrel⟩ := h
  exact Kernel.exists_of_forall₂ hrel (hperm.mem_iff.1 ha)

lemma perm_flatMap {g : α → List β} (hg : ∀ a b, R a b → (g a).Perm (g b)) (h : Shuffles R as bs) :
    (as.flatMap g).Perm (bs.flatMap g) := by
  obtain ⟨cs, hperm, hrel⟩ := h
  refine (hperm.flatMap_right g).trans ?_
  clear hperm
  induction hrel with
  | nil => exact .refl _
  | cons hab _ ih => exact (hg _ _ hab).append ih

lemma perm_map {g : α → β} (hg : ∀ a b, R a b → g b = g a) (h : Shuffles R as bs) :
    (as.map g).Perm (bs.map g) := by
  rw [List.map_eq_flatMap, List.map_eq_flatMap]
  exact h.perm_flatMap fun a b hab => by rw [hg a b hab]

end Shuffles

/-- The data types agree up to the order of their constructors. -/
structure DataType.Reorders (d d' : DataType) : Prop where
  name : d'.name = d.name
  ctors : d.ctors.Perm d'.ctors

/-- The families agree up to the order of their constructors. -/
structure Family.Reorders (f f' : Family) : Prop where
  name : f'.name = f.name
  indexTypes : f'.indexTypes = f.indexTypes
  ctors : f.ctors.Perm f'.ctors

lemma DataType.Reorders.symm {d d' : DataType} (h : d.Reorders d') : d'.Reorders d :=
  ⟨h.name.symm, h.ctors.symm⟩

lemma Family.Reorders.symm {f f' : Family} (h : f.Reorders f') : f'.Reorders f :=
  ⟨h.name.symm, h.indexTypes.symm, h.ctors.symm⟩

namespace Environment

variable {env env' : Environment}

/-- The declarations of an environment in another order, with their constructors in another
order. -/
structure Rearranges (env : Environment) (datatypes : List DataType) (families : List Family)
    (constants : List Constant) : Prop where
  datatypes : Shuffles DataType.Reorders env.datatypes datatypes
  families : Shuffles Family.Reorders env.families families
  constants : env.constants.Perm constants

/-- Other orders declare the same names. -/
lemma Rearranges.perm_declaredNames {datatypes : List DataType} {families : List Family}
    {constants : List Constant} (h : env.Rearranges datatypes families constants) :
    (declaredNames env.datatypes env.families env.constants).Perm
      (declaredNames datatypes families constants) := by
  refine ((((h.datatypes.perm_map fun _ _ hd => hd.name).append
    (h.families.perm_map fun _ _ hf => hf.name)).append (h.constants.map _)).append ?_).append ?_
  · exact h.datatypes.perm_flatMap fun _ _ hd => hd.ctors.map _
  · exact h.families.perm_flatMap fun _ _ hf => hf.ctors.map _

/-- The environments have the same declarations, in any order. -/
abbrev Rearranged (env env' : Environment) : Prop :=
  env.Rearranges env'.datatypes env'.families env'.constants

namespace Rearranged

lemma symm (h : env.Rearranged env') : env'.Rearranged env where
  datatypes := h.datatypes.symm fun _ _ hd => hd.symm
  families := h.families.symm fun _ _ hf => hf.symm
  constants := h.constants.symm

variable (h : env.Rearranged env')
include h

/-- A role corresponds to one of the same name and type. -/
lemma exists_role {r : Role} (hr : r ∈ env.roles) :
    ∃ r' ∈ env'.roles, r'.name = r.name ∧ r'.type = r.type ∧ r'.isCtor = r.isCtor := by
  cases r with
  | datatype d =>
    obtain ⟨d', hd', hrel⟩ := h.datatypes.exists_mem (datatype_mem_roles.1 hr)
    exact ⟨.datatype d', datatype_mem_roles.2 hd', hrel.name, rfl, rfl⟩
  | family f =>
    obtain ⟨f', hf', hrel⟩ := h.families.exists_mem (family_mem_roles.1 hr)
    exact ⟨.family f', family_mem_roles.2 hf', hrel.name,
      by rw [Role.type, Role.type, hrel.indexTypes], rfl⟩
  | constant k =>
    exact ⟨.constant k, constant_mem_roles.2 (h.constants.mem_iff.1 (constant_mem_roles.1 hr)),
      rfl, rfl, rfl⟩
  | dataCtor d ctor =>
    obtain ⟨hd, hctor⟩ := dataCtor_mem_roles.1 hr
    obtain ⟨d', hd', hrel⟩ := h.datatypes.exists_mem hd
    exact ⟨.dataCtor d' ctor, dataCtor_mem_roles.2 ⟨hd', hrel.ctors.mem_iff.1 hctor⟩, rfl,
      by rw [Role.type, Role.type, hrel.name], rfl⟩
  | familyCtor f ctor =>
    obtain ⟨hf, hctor⟩ := familyCtor_mem_roles.1 hr
    obtain ⟨f', hf', hrel⟩ := h.families.exists_mem hf
    exact ⟨.familyCtor f' ctor, familyCtor_mem_roles.2 ⟨hf', hrel.ctors.mem_iff.1 hctor⟩, rfl,
      by rw [Role.type, Role.type, hrel.name], rfl⟩

lemma constType?_of_eq_some {x : Name} {U : Term} (hx : env.constType? x = some U) :
    env'.constType? x = some U := by
  obtain ⟨r, hr, rfl, rfl⟩ := constType?_eq_some.1 hx
  obtain ⟨r', hr', hname, htype, -⟩ := h.exists_role hr
  exact constType?_eq_some.2 ⟨r', hr', hname, htype⟩

lemma isConstructor_of_eq_true {x : Name} (hx : env.isConstructor x = true) :
    env'.isConstructor x = true := by
  obtain ⟨r, hr, rfl, hctor⟩ := isConstructor_iff.1 hx
  obtain ⟨r', hr', hname, -, hctor'⟩ := h.exists_role hr
  exact isConstructor_iff.2 ⟨r', hr', hname, hctor'.trans hctor⟩

lemma exists_dataCtor? {x : Name} {p : DataType × DataCtor} (hx : env.dataCtor? x = some p) :
    ∃ p', env'.dataCtor? x = some p' ∧ p'.2 = p.2 ∧ p.1.Reorders p'.1 := by
  obtain ⟨hd, hctor, rfl⟩ := mem_of_dataCtor? hx
  obtain ⟨d', hd', hrel⟩ := h.datatypes.exists_mem hd
  exact ⟨(d', p.2), dataCtor?_of_mem hd' (hrel.ctors.mem_iff.1 hctor), rfl, hrel⟩

lemma exists_familyCtor? {x : Name} {p : Family × FamilyCtor} (hx : env.familyCtor? x = some p) :
    ∃ p', env'.familyCtor? x = some p' ∧ p'.2 = p.2 ∧ p.1.Reorders p'.1 := by
  obtain ⟨hf, hctor, rfl⟩ := mem_of_familyCtor? hx
  obtain ⟨f', hf', hrel⟩ := h.families.exists_mem hf
  exact ⟨(f', p.2), familyCtor?_of_mem hf' (hrel.ctors.mem_iff.1 hctor), rfl, hrel⟩

end Rearranged

/-- Two lookups that find something in the same cases. -/
lemma rel_of_exists {α β : Type} {R : α → β → Prop} {a? : Option α} {b? : Option β}
    (h : ∀ a, a? = some a → ∃ b, b? = some b ∧ R a b)
    (hback : ∀ b, b? = some b → ∃ a, a? = some a) : Option.Rel R a? b? := by
  cases a? with
  | some a =>
    obtain ⟨b, rfl, hab⟩ := h a rfl
    exact .some hab
  | none =>
    cases b? with
    | none => exact .none
    | some b =>
      obtain ⟨a, ha⟩ := hback b rfl
      cases ha

/-- The environments find the same under every name.  A constructor is found with its type or
family, which lists its constructors in the order of its own environment. -/
structure SameLookups (env env' : Environment) : Prop where
  dataCtor? : ∀ x, Option.Rel (fun p p' => p'.2 = p.2 ∧ p.1.Reorders p'.1)
    (env.dataCtor? x) (env'.dataCtor? x)
  dataCtor?_of_perm : env.datatypes.Perm env'.datatypes → env'.dataCtor? = env.dataCtor?
  familyCtor? : ∀ x, Option.Rel (fun p p' => p'.2 = p.2 ∧ p.1.Reorders p'.1)
    (env.familyCtor? x) (env'.familyCtor? x)
  familyCtor?_of_perm : env.families.Perm env'.families → env'.familyCtor? = env.familyCtor?
  isConstructor : env'.isConstructor = env.isConstructor
  constType? : env'.constType? = env.constType?

/-- **Lookups do not depend on the order of the declarations.** -/
lemma Rearranged.sameLookups (h : env.Rearranged env') : env.SameLookups env' where
  dataCtor? x := rel_of_exists (fun _ => h.exists_dataCtor?) fun _ hp' =>
    (h.symm.exists_dataCtor? hp').imp fun _ hp => hp.1
  dataCtor?_of_perm hperm := by
    funext x
    refine Option.ext fun p => ?_
    rw [dataCtor?_eq_some, dataCtor?_eq_some, dataCtor_mem_roles, dataCtor_mem_roles, hperm.mem_iff]
  familyCtor? x := rel_of_exists (fun _ => h.exists_familyCtor?) fun _ hp' =>
    (h.symm.exists_familyCtor? hp').imp fun _ hp => hp.1
  familyCtor?_of_perm hperm := by
    funext x
    refine Option.ext fun p => ?_
    rw [familyCtor?_eq_some, familyCtor?_eq_some, familyCtor_mem_roles,
      familyCtor_mem_roles, hperm.mem_iff]
  isConstructor := by
    funext x
    exact Bool.eq_iff_iff.2 ⟨h.symm.isConstructor_of_eq_true, h.isConstructor_of_eq_true⟩
  constType? := by
    funext x
    exact Option.ext fun U => ⟨h.symm.constType?_of_eq_some, h.constType?_of_eq_some⟩

/-- Every name has at most one role, and each lookup gives what the role of the name says. -/
structure Resolves (env : Environment) : Prop where
  atMostOne : ∀ x, env.roles.countP (·.name == x) ≤ 1
  dataCtor? : ∀ x d ctor, env.dataCtor? x = some (d, ctor) ↔
    .dataCtor d ctor ∈ env.roles ∧ ctor.name = x
  familyCtor? : ∀ x f ctor, env.familyCtor? x = some (f, ctor) ↔
    .familyCtor f ctor ∈ env.roles ∧ ctor.name = x
  isConstructor : ∀ x, env.isConstructor x = true ↔ ∃ r ∈ env.roles, r.name = x ∧ r.isCtor = true
  constType? : ∀ x U, env.constType? x = some U ↔ ∃ r ∈ env.roles, r.name = x ∧ r.type = U

lemma resolves (env : Environment) : env.Resolves where
  atMostOne x := by
    rw [roles, countP_roles]
    exact List.nodup_iff_count_le_one.1 env.distinct x
  dataCtor? _ _ _ := dataCtor?_eq_some
  familyCtor? _ _ _ := familyCtor?_eq_some
  isConstructor _ := isConstructor_iff
  constType? _ _ := constType?_eq_some

/-- **Lookups are unambiguous and do not depend on the order of the declarations.**  Let
declarations be given, keyed by their names.  They are refused if and only if some name would have
two roles, counting every constructor of every declaration.  Otherwise they make an environment with
exactly these roles, in which every name has at most one; a lookup finds what the role of the name
says, and nothing if it has none.  Any other order of the declarations, and of the constructors
within them, is accepted too and gives the same answers. -/
theorem resolution (datatypes : List DataType) (families : List Family) (constants : List Constant)
    (hkeyed : Keyed datatypes families constants) :
    ((∃ x, of? datatypes families constants = .error x) ↔
      ∃ x, 2 ≤ (UniqueEvidence.roles datatypes families constants).countP (·.name == x)) ∧
    ∀ env, of? datatypes families constants = .ok env →
      env.roles = UniqueEvidence.roles datatypes families constants ∧ env.Resolves ∧
      ∀ datatypes' families' constants', env.Rearranges datatypes' families' constants' →
        ∃ env', of? datatypes' families' constants' = .ok env' ∧
          env'.roles = UniqueEvidence.roles datatypes' families' constants' ∧
            env.SameLookups env' := by
  rcases hkeyed.of?_cases with ⟨x, herror, htwice⟩ | ⟨hdistinct, hok⟩
  · rw [herror]
    refine ⟨⟨fun _ => ⟨x, by rwa [countP_roles]⟩, fun _ => ⟨x, rfl⟩⟩, fun env henv => ?_⟩
    cases henv
  · rw [hok]
    refine ⟨⟨?_, ?_⟩, fun env henv => ?_⟩
    · rintro ⟨x, hx⟩
      cases hx
    · rintro ⟨x, htwice⟩
      rw [countP_roles] at htwice
      exact absurd (List.nodup_iff_count_le_one.1 hdistinct x) (by omega)
    · obtain rfl := Except.ok.inj henv
      refine ⟨rfl, resolves _, fun datatypes' families' constants' h => ?_⟩
      have hdistinct' := h.perm_declaredNames.nodup_iff.1 hdistinct
      exact ⟨_, of?_of_nodup hdistinct', rfl, Rearranged.sameLookups h⟩

end Environment

namespace Sample

/-- Two constants of the type of trees. -/
def constants : List Constant :=
  [⟨"a", .const "shape"⟩, ⟨"b", .const "shape"⟩]

/-- Trees and their evidence, with the constructors in the opposite order. -/
def shapeReversed : DataType :=
  { Examples.shape with ctors := Examples.shape.ctors.reverse }

@[inherit_doc shapeReversed]
def familyReversed : Family :=
  { family with ctors := family.ctors.reverse }

end Sample

/-- A constant with the name of a constructor is refused.  With other constants the declarations are
accepted, and so are they with everything in the opposite order. -/
theorem Environment.resolution_sample :
    (∃ x, of? [Examples.shape] [Sample.family] [⟨"spair", .unit⟩] = .error x) ∧
    ∃ env env', of? [Examples.shape] [Sample.family] Sample.constants = .ok env ∧ env.Resolves ∧
      of? [Sample.shapeReversed] [Sample.familyReversed] Sample.constants.reverse = .ok env' ∧
        env.SameLookups env' := by
  have hrefused :=
    (resolution [Examples.shape] [Sample.family] [⟨"spair", .unit⟩]
      ⟨by decide, by decide, by decide⟩).1
  have haccepted : of? [Examples.shape] [Sample.family] Sample.constants =
      .ok ⟨[Examples.shape], [Sample.family], Sample.constants, by decide⟩ := of?_of_nodup _
  obtain ⟨-, hresolves, hrearranges⟩ :=
    (resolution [Examples.shape] [Sample.family] Sample.constants
    ⟨by decide, by decide, by decide⟩).2 _ haccepted
  obtain ⟨env', haccepted', -, hlookups⟩ := hrearranges [Sample.shapeReversed]
    [Sample.familyReversed] Sample.constants.reverse
    ⟨⟨[Examples.shape], .refl _, .cons ⟨rfl, (List.reverse_perm _).symm⟩ .nil⟩,
      ⟨[Sample.family], .refl _, .cons ⟨rfl, rfl, (List.reverse_perm _).symm⟩ .nil⟩,
      (List.reverse_perm _).symm⟩
  exact ⟨hrefused.2 ⟨"spair", by decide⟩, _, env', haccepted, hresolves, haccepted', hlookups⟩

end UniqueEvidence
