/-
Declarations without constants.

* `Term.mentionsSort`: whether the universe occurs in a term;
* `Environment.Plain`: closed declarations without constants, whose binders have no name that is
  kept for renaming;
* `Environment.Plain.telescopic`: **the declared types are telescopes**, whether or not they mention
  the universe;
* `Environment.Plain.ctor_of_inhabits`: **a closed term of a family computes to one of its
  constructors**, with arguments of the declared types and the indices of the type.
-/
import UniqueEvidence.Proofs.Canonicity
import UniqueEvidence.Proofs.Declarations
import UniqueEvidence.Proofs.Freshening

namespace UniqueEvidence

open Nameless

/-! ### Terms without the universe -/

/-- Whether the universe occurs in a term. -/
def Term.mentionsSort : Term → Bool
  | var _ | const _ | unit | tt => false
  | sort => true
  | app a b | prod a b | pair a b | refl a b => a.mentionsSort || b.mentionsSort
  | lam _ a b | pi _ a b => a.mentionsSort || b.mentionsSort
  | eq a b c => a.mentionsSort || b.mentionsSort || c.mentionsSort
  | transport a b c d e => a.mentionsSort || b.mentionsSort || c.mentionsSort ||
    d.mentionsSort || e.mentionsSort

lemma Term.sortFree_nameless {t : Term} : t.nameless.SortFree ↔ t.mentionsSort = false := by
  induction t <;> simp_all [Term.nameless, Nameless.SortFree, Term.mentionsSort, and_assoc]

/-! ### Plain declarations -/

lemma Nameless.Telescopic.rename {T : Nameless} (h : T.Telescopic) (ρ : Ref → Ref) :
    (T.rename ρ).Telescopic := by
  rw [rename_eq_subst]
  exact h.subst _

lemma telescopic_pis {bs : List Binding} {R : Term} (hR : (Discipline.erased.view R).Telescopic) :
    (Discipline.erased.view (.pis bs R)).Telescopic := by
  induction bs with
  | nil => exact hR
  | cons b bs ih =>
    change (Discipline.erased.view (.pi b.name b.ty (.pis bs R))).Telescopic
    rw [Discipline.view_pi]
    exact .pi (ih.rename _)

lemma telescopic_base (f : Name) (indices : List Term) :
    (Discipline.erased.view (.apps (.const f) indices)).Telescopic := by
  rw [Discipline.view_apps, Discipline.view_const]
  exact .base ..

/-- Closed declarations without constants, whose binders have no name that is kept for renaming. -/
structure Environment.Plain (env : Environment) : Prop where
  no_constants : env.constants = []
  closed : env.Closed
  closed_args : ∀ d ∈ env.datatypes, ∀ ctor ∈ d.ctors, ∀ ty ∈ ctor.argTypes, ty.freeVars = []
  names : ∀ f ∈ env.families, ∀ ctor ∈ f.ctors, ∀ b ∈ ctor.binders, ¬ b.name.StartsWithHash

namespace Environment.Plain

variable {env : Environment} {c : Name} {U : Term}

/-- A declared type is a family of types, or the type of a constructor. -/
lemma constType?_cases (h : env.Plain) (hU : env.constType? c = some U) :
    (∃ bs, U = .pis bs .sort) ∨
    (∃ d ctor, env.dataCtor? c = some (d, ctor) ∧
      U = .pis (ctor.argTypes.map fun ty => ⟨Term.anonymous, ty⟩) (.apps (.const d.name) [])) ∨
    ∃ f ctor, env.familyCtor? c = some (f, ctor) ∧
      U = .pis ctor.binders (.apps (.const f.name) ctor.indices) := by
  rcases Environment.constType?_cases hU with ⟨d, -, rfl⟩ | ⟨f, -, rfl⟩ | ⟨d, ctor, hctor, rfl⟩ |
    ⟨f, ctor, hctor, rfl⟩ | ⟨k, hk, -⟩
  · exact .inl ⟨[], rfl⟩
  · exact .inl ⟨_, arrows_eq_pis ..⟩
  · exact .inr (.inl ⟨d, ctor, hctor, arrows_eq_pis ..⟩)
  · exact .inr (.inr ⟨f, ctor, hctor, rfl⟩)
  · rw [h.no_constants] at hk
    cases hk

/-- **The declared types are telescopes.** -/
theorem telescopic (h : env.Plain) : (env.signature h.closed .erased).Telescopic := by
  intro c U hU
  obtain ⟨ty, hty, rfl⟩ := Option.map_eq_some_iff.1 hU
  rcases h.constType?_cases hty with ⟨bs, rfl⟩ | ⟨d, ctor, -, rfl⟩ | ⟨f, ctor, -, rfl⟩
  · exact telescopic_pis (by simpa using Telescopic.sort)
  · exact telescopic_pis (telescopic_base ..)
  · exact telescopic_pis (telescopic_base ..)

end Environment.Plain

/-! ### Closed evidence -/

/-- A spine over a telescope whose result is of another form than a function type takes all its
arguments. -/
lemma Spine.length_eq {m : Discipline} {S : Signature} {Γ : Scope} {bs : List Binding} {R : Term}
    {σ : Ref → Nameless} {us : List Nameless} {T : Nameless}
    (h : Spine m S Γ ((m.view (.pis bs R)).subst σ) us T) {x : Head} (hT : T.head? = some x)
    (hx : x ≠ .pi) (hR : ∀ σ, ∃ y, ((m.view R).subst σ).head? = some y ∧ y ≠ .pi) :
    us.length = bs.length := by
  induction bs generalizing σ us with
  | nil =>
    cases h with
    | nil => rfl
    | cons hc =>
      obtain ⟨y, hy, hne⟩ := hR σ
      exact absurd (Conv.head_eq hc hy rfl) hne
  | cons b bs ih =>
    cases us with
    | nil =>
      cases h with
      | nil hc =>
        change Conv ((m.view (.pi b.name b.ty (.pis bs R))).subst σ) T at hc
        rw [Discipline.view_pi] at hc
        exact absurd (hc.symm.head_eq hT rfl) hx
    | cons u us =>
      obtain ⟨-, hrest⟩ := h.pis_cons
      simpa using ih hrest

lemma head?_view_apps (m : Discipline) (f : Name) (as : List Term) (σ : Ref → Nameless) :
    ((m.view (.apps (.const f) as)).subst σ).head? = some (.const f as.length) := by
  rw [Discipline.view_apps, Discipline.view_const, subst_apps]
  have hhead := head?_apps_const f ((as.map m.view).map (Nameless.subst σ))
  rwa [List.length_map, List.length_map] at hhead

namespace Environment

/-- Families are told apart by their names. -/
lemma family_eq_of_name {env : Environment} {f g : Family} (hf : f ∈ env.families)
    (hg : g ∈ env.families) (hname : f.name = g.name) : f = g :=
  Role.family.inj (eq_of_mem_roles (family_mem_roles.2 hf) (family_mem_roles.2 hg) hname)

/-- **A closed application of a constant that has a family as its type** is one of its constructors,
with arguments of the declared types and the indices of the type. -/
theorem Plain.ctor_of_inhabits {env : Environment} (h : env.Plain) {c : Name}
    {us args : List Nameless} {T : Nameless} {f : Family} (hf : f ∈ env.families)
    (hinh : Inhabits (env.signature h.closed .erased) ((Nameless.const c).apps us) T)
    (hT : Conv T ((Nameless.const f.name).apps args)) :
    ∃ ctor ∈ f.ctors, ctor.name = c ∧
      TypedArgs .erased (env.signature h.closed .erased) Scope.empty ref ctor.binders us ∧
      List.Forall₂ Conv
        (ctor.indices.map fun t => (Discipline.erased.view t).subst (assignAll ref ctor.binders us))
        args := by
  obtain ⟨U, hU, hspine⟩ := (hinh.conv hT).hasType.spine
  obtain ⟨ty, hty, rfl⟩ := Option.map_eq_some_iff.1 hU
  have hhead : ((Nameless.const f.name).apps args).head? = some (.const f.name args.length) :=
    head?_apps_const ..
  rw [← subst_ref (Discipline.erased.view ty)] at hspine
  rcases h.constType?_cases hty with ⟨bs, rfl⟩ | ⟨d, ctor, hc, rfl⟩ | ⟨g, ctor, hc, rfl⟩
  · have hlen :=
      hspine.length_eq hhead (by simp) fun σ => ⟨.sort, by simp [Nameless.subst, head?], by simp⟩
    have hresult := (hspine.telescope hlen).2
    simp only [Discipline.view_sort, Nameless.subst] at hresult
    cases hresult.head_eq rfl hhead
  · have hlen := hspine.length_eq hhead (by simp) fun σ => ⟨_, head?_view_apps .., by simp⟩
    have hresult := (hspine.telescope hlen).2
    have hname := Head.const.inj (hresult.head_eq (head?_view_apps ..) hhead)
    exact absurd hname.1 (datatype_ne_family (mem_of_dataCtor? hc).1 hf)
  · have hlen := hspine.length_eq hhead (by simp) fun σ => ⟨_, head?_view_apps .., by simp⟩
    obtain ⟨hargs, hresult⟩ := hspine.telescope hlen
    obtain ⟨hg, hmem, hname⟩ := mem_of_familyCtor? hc
    rw [Discipline.view_apps, Discipline.view_const, subst_apps] at hresult
    obtain ⟨hfg, hindices⟩ := Conv.apps_const_inj hresult
    obtain rfl := family_eq_of_name hg hf hfg
    refine ⟨ctor, hmem, hname, hargs, ?_⟩
    rwa [List.map_map] at hindices

end Environment

end UniqueEvidence
