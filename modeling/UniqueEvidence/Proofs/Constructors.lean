/-
Applications of constructors, argument by argument.

* `ctorBinders_spec`, `ctorBinders_closed`: a constructor is declared with the argument types that
  the rules give it;
* `HasType.components`: **two typed applications of a constructor have typed equations between their
  arguments**, if the argument types are closed;
* `Kernel.Splits.typed`: so has an equation that splits into its components.
-/
import UniqueEvidence.Proofs.Declarations
import UniqueEvidence.Proofs.Preconditions
import UniqueEvidence.Proofs.Spine

namespace UniqueEvidence

open Nameless

/-! ### Names in applications and telescopes -/

lemma mem_freeVars_apps {f : Term} {as : List Term} {x : Name} :
    x ∈ (f.apps as).freeVars ↔ x ∈ f.freeVars ∨ ∃ a ∈ as, x ∈ a.freeVars := by
  induction as generalizing f with
  | nil => simp [Term.apps]
  | cons a as ih =>
    change x ∈ ((Term.app f a).apps as).freeVars ↔ _
    rw [ih]
    simp [Term.freeVars, or_assoc]

lemma mem_freeVars_of_mem_args {t a : Term} (ha : a ∈ t.args) {x : Name} (hx : x ∈ a.freeVars) :
    x ∈ t.freeVars := by
  rw [← Term.apps_head_args t, mem_freeVars_apps]
  exact .inr ⟨a, ha, hx⟩

lemma mem_freeVars_pis {bs : List Binding} {R : Term} {b : Binding} (hb : b ∈ bs) {x : Name}
    (hx : x ∈ b.ty.freeVars) (hbound : x ∉ Binding.names bs) : x ∈ (Term.pis bs R).freeVars := by
  induction bs with
  | nil => cases hb
  | cons a bs ih =>
    simp only [Binding.names, List.map_cons, List.mem_cons, not_or] at hbound
    simp only [Term.pis, List.foldr_cons, Term.freeVars, List.mem_append,
      List.mem_filter, decide_eq_true_eq]
    rcases List.mem_cons.1 hb with rfl | hb
    · exact .inl hx
    · exact .inr ⟨ih hb hbound.2, hbound.1⟩

lemma nameless_of_head {t : Term} {c : Name} (h : t.head = .const c) :
    t.nameless = (Nameless.const c).apps (t.args.map Term.nameless) := by
  conv_lhs => rw [← Term.apps_head_args t, h]
  exact Term.nameless_apps ..

/-! ### Declared argument types -/

namespace Kernel

variable {env : Environment} {c : Name}

lemma ctorBinders_of_dataCtor? {d : DataType} {ctor : DataCtor}
    (h : env.dataCtor? c = some (d, ctor)) :
    (ctorBinders env c).map Binding.ty = ctor.argTypes := by
  simp only [ctorBinders, h, List.map_map]
  exact List.zipIdx_map_fst 0 ctor.argTypes

/-- A constructor is declared with the argument types that the rules give it. -/
lemma ctorBinders_spec (h : env.isConstructor c) :
    ∃ bs R, env.constType? c = some (.pis bs R) ∧
      bs.map Binding.ty = (ctorBinders env c).map Binding.ty ∧
      (env.dataCtor? c = none → bs = ctorBinders env c) := by
  cases hdata : env.dataCtor? c with
  | some p =>
    obtain ⟨d, ctor⟩ := p
    refine ⟨_, _,
      (arrows_eq_pis ctor.argTypes _) ▸ Environment.constType?_of_dataCtor? hdata, ?_, nofun⟩
    rw [ctorBinders_of_dataCtor? hdata, List.map_map]
    exact List.map_id _
  | none =>
    cases hfamily : env.familyCtor? c with
    | none => simp [Environment.isConstructor, hdata, hfamily] at h
    | some p =>
      obtain ⟨f, ctor⟩ := p
      have hbs : ctorBinders env c = ctor.binders := by simp [ctorBinders, hdata, hfamily]
      exact ⟨_, _, Environment.constType?_of_familyCtor? hfamily, by rw [hbs], fun _ => hbs.symm⟩

/-- Argument types that mention none of the arguments are closed. -/
lemma ctorBinders_closed (hclosed : env.Closed)
    (hargs : ∀ d ∈ env.datatypes, ∀ ctor ∈ d.ctors, ∀ ty ∈ ctor.argTypes, ty.freeVars = [])
    (h : env.isConstructor c)
    (hindependent : ∀ b ∈ ctorBinders env c, ∀ x ∈ b.ty.freeVars,
      x ∉ Binding.names (ctorBinders env c)) :
    ∃ bs R, env.constType? c = some (.pis bs R) ∧
      bs.map Binding.ty = (ctorBinders env c).map Binding.ty ∧
      ∀ b ∈ bs, b.ty.freeVars = [] := by
  obtain ⟨bs, R, hdeclared, htypes, hbs⟩ := ctorBinders_spec h
  refine ⟨bs, R, hdeclared, htypes, fun b hb => ?_⟩
  cases hdata : env.dataCtor? c with
  | some p =>
    obtain ⟨hd, hmem, -⟩ := Environment.mem_of_dataCtor? hdata
    rw [ctorBinders_of_dataCtor? hdata] at htypes
    exact hargs _ hd _ hmem _ (htypes ▸ List.mem_map_of_mem hb)
  | none =>
    -- the binders mention none of their names, and the declared type mentions nothing else
    rw [← hbs hdata] at hindependent
    refine List.eq_nil_iff_forall_not_mem.2 fun x hx => ?_
    have hfree := mem_freeVars_pis (R := R) hb hx (hindependent b hb x hx)
    rw [hclosed _ _ hdeclared] at hfree
    cases hfree

end Kernel

/-! ### Equations between arguments -/

lemma mem_zip_zip {α β γ : Type} {as : List α} {bs : List β} {cs : List γ} {a : α} {b : β} {c : γ}
    (h : (a, b, c) ∈ as.zip (bs.zip cs)) : (a, b) ∈ as.zip bs ∧ (a, c) ∈ as.zip cs := by
  induction as generalizing bs cs with
  | nil => cases h
  | cons a' as ih =>
    cases bs with
    | nil => cases h
    | cons b' bs =>
      cases cs with
      | nil => cases h
      | cons c' cs =>
        simp only [List.zip_cons_cons, List.mem_cons, Prod.mk.injEq] at h ⊢
        rcases h with ⟨rfl, rfl, rfl⟩ | h
        · exact ⟨.inl ⟨rfl, rfl⟩, .inl ⟨rfl, rfl⟩⟩
        · exact ⟨.inr (ih h).1, .inr (ih h).2⟩

variable {m : Discipline} {S : Signature} {Γ : Scope}

/-- An argument of a typed application has the type at its place, if that is closed. -/
lemma HasType.argument {c : Name} {bs : List Binding} {R t : Term} {T : Nameless}
    (hc : S.type? c = some (Term.pis bs R).nameless) (hclosed : ∀ b ∈ bs, b.ty.freeVars = [])
    (ht : HasType .strict S Γ t.nameless T) (hhead : t.head = .const c)
    (hlen : t.args.length = bs.length) {ty a : Term}
    (ha : (ty, a) ∈ (bs.map Binding.ty).zip t.args) :
    HasType .strict S Γ a.nameless ty.nameless := by
  rw [nameless_of_head hhead] at ht
  have hargs := ht.args_of_closed hc hclosed (by simpa using hlen)
  rw [List.forall₂_map_right_iff] at hargs
  rw [List.zip_map_left, List.mem_map] at ha
  obtain ⟨⟨b, a'⟩, hmem, heq⟩ := ha
  obtain ⟨rfl, rfl⟩ : b.ty = ty ∧ a' = a := by simpa using heq
  exact (List.forall₂_iff_zip.1 hargs).2 hmem

/-- **Two typed applications of a constructor** have typed equations between their arguments, if the
argument types are closed. -/
theorem HasType.components {c : Name} {bs : List Binding} {R : Term} {e : Equation} {Δ : Scope}
    (he : HasType .strict S Γ e.toTerm.nameless .sort)
    (hc : S.type? c = some (Term.pis bs R).nameless)
    (htype : HasType .strict S Δ (Term.pis bs R).nameless .sort)
    (hclosed : ∀ b ∈ bs, b.ty.freeVars = []) (hl : e.lhs.head = .const c)
    (hr : e.rhs.head = .const c) (hllen : e.lhs.args.length = bs.length)
    (hrlen : e.rhs.args.length = bs.length) {ty l r : Term}
    (hmem : (ty, l, r) ∈ (bs.map Binding.ty).zip (e.lhs.args.zip e.rhs.args)) :
    HasType .strict S Γ (Term.eq ty l r).nameless .sort ∧
      ∀ x ∈ (Term.eq ty l r).freeVars, x ∈ e.toTerm.freeVars := by
  obtain ⟨-, hlhs, hrhs⟩ := he.eq_inv
  obtain ⟨hml, hmr⟩ := mem_zip_zip hmem
  obtain ⟨b, hb, rfl⟩ := List.mem_map.1 (List.of_mem_zip hmem).1
  have hty : HasType .strict S Γ b.ty.nameless .sort :=
    hasType_of_pis (m := .strict) (R := R) (ρ := id)
      (by simpa [Discipline.view, rename_id] using htype) hb (hclosed b hb)
  refine ⟨.eq hty (.argument hc hclosed hlhs hl hllen hml)
    (.argument hc hclosed hrhs hr hrlen hmr) .rfl, ?_⟩
  intro x hx
  simp only [Term.freeVars, hclosed b hb, List.nil_append, List.mem_append] at hx
  simp only [Equation.toTerm, Term.freeVars, List.mem_append]
  rcases hx with hx | hx
  · exact .inl (.inr (mem_freeVars_of_mem_args (List.of_mem_zip hml).2 hx))
  · exact .inr (mem_freeVars_of_mem_args (List.of_mem_zip hmr).2 hx)

/-! ### Typed declarations -/

/-- Every declared type is closed and a type. -/
structure Environment.Typed (env : Environment) : Prop where
  closed : env.Closed
  closed_args : ∀ d ∈ env.datatypes, ∀ ctor ∈ d.ctors, ∀ ty ∈ ctor.argTypes, ty.freeVars = []
  types : ∀ c ty, env.constType? c = some ty →
    HasType .strict (env.signature closed .strict) (Context.scope [] .strict) ty.nameless sort

namespace Kernel

variable {env : Environment} {e : Equation} {parts : List Term}

/-- The components of a typed equation are typed, and mention nothing new. -/
lemma Splits.typed (h : Splits env e parts) (henv : env.Typed)
    (he : HasType .strict (env.signature henv.closed .strict) Γ e.toTerm.nameless sort)
    {part : Term} (hpart : part ∈ parts) :
    HasType .strict (env.signature henv.closed .strict) Γ part.nameless sort ∧
      ∀ x ∈ part.freeVars, x ∈ e.toTerm.freeVars := by
  cases h with
  | @pairs a b l₁ l₂ r₁ r₂ heq =>
    subst heq
    obtain ⟨hty, hl, hr⟩ := he.eq_inv
    obtain ⟨hl₁, hl₂⟩ := hl.pair_inv
    obtain ⟨hr₁, hr₂⟩ := hr.pair_inv
    cases hty with
    | prod ha hb =>
      have hcases : part = .eq a l₁ r₁ ∨ part = .eq b l₂ r₂ := by simpa using hpart
      rcases hcases with rfl | rfl
      · refine ⟨.eq ha hl₁ hr₁ .rfl, fun x hx => ?_⟩
        simp only [Equation.toTerm, Term.freeVars, List.mem_append] at hx ⊢
        tauto
      · refine ⟨.eq hb hl₂ hr₂ .rfl, fun x hx => ?_⟩
        simp only [Equation.toTerm, Term.freeVars, List.mem_append] at hx ⊢
        tauto
  | @ctor c d ctor hl hr hctor hllen hrlen =>
    have hdeclared := Environment.constType?_of_dataCtor? hctor
    obtain ⟨hd, hmem, -⟩ := Environment.mem_of_dataCtor? hctor
    have htype := henv.types _ _ hdeclared
    rw [arrows_eq_pis] at hdeclared htype
    obtain ⟨⟨ty, l, r⟩, hmem', rfl⟩ : ∃ p ∈ ctor.argTypes.zip (e.lhs.args.zip e.rhs.args),
        Term.eq p.1 p.2.1 p.2.2 = part := by
      rw [← List.map_uncurry_zip_eq_zipWith] at hpart
      exact List.mem_map.1 hpart
    have hzip :
        (ty, l, r) ∈
        ((ctor.argTypes.map fun ty => (⟨Term.anonymous, ty⟩ : Binding)).map Binding.ty).zip
        (e.lhs.args.zip e.rhs.args) := by
      simpa [Function.comp_def] using hmem'
    refine he.components (congrArg (Option.map _) hdeclared) htype ?_ hl hr
      (by simpa [DataCtor.arity] using hllen) (by simpa [DataCtor.arity] using hrlen) hzip
    simpa using henv.closed_args d hd ctor hmem

end Kernel

end UniqueEvidence
