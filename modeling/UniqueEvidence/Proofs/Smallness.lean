/-
Goals that compute to ones without the universe.

* `Goal.Small`: the types of the goal compute to ones without the universe;
* `Environment.Predicative`: declarations whose constructors take and give nothing that mentions it;
* `Kernel.Splits.sortFree`, `Kernel.branch_small`: the new types of a rule are those of
  constructors, or parts of old ones;
* `Kernel.run_small`, `Kernel.apply_small`: **calls without the universe keep types small** over
  such declarations.
-/
import UniqueEvidence.Proofs.CaseAnalysis

namespace UniqueEvidence

open Nameless

/-! ### Substitution and renaming -/

namespace Term

variable {t v : Term} {x : Name}

lemma sortFree_single (hv : v.nameless.SortFree) (r : Ref) : (single x v.nameless r).SortFree := by
  by_cases hr : r = .free x
  · rw [hr, single_self]
    exact hv
  · rw [single_of_ne hr]
    trivial

lemma sortFree_subst (ht : t.nameless.SortFree) (hv : v.nameless.SortFree) :
    (t.subst x v).nameless.SortFree :=
  nameless_subst t x v ▸ ht.subst fun r _ => sortFree_single hv r

lemma small_subst (ht : t.nameless.Small) (hv : v.nameless.SortFree) :
    (t.subst x v).nameless.Small :=
  nameless_subst t x v ▸ ht.subst (sortFree_single hv)

end Term

lemma sortFree_renameAll {t : Term} (h : t.nameless.SortFree) (ρ : List (Name × Name)) :
    (t.renameAll ρ).nameless.SortFree := by
  have hfold :
      ∀ (g : (Name × Name) × Nat → Name × Name) (ps : List ((Name × Name) × Nat)) {t : Term},
      t.nameless.SortFree →
      (ps.foldl (fun t p => t.subst (g p).1 (.var (g p).2)) t).nameless.SortFree := by
    intro g ps
    induction ps with
    | nil => exact id
    | cons p ps ih => exact fun ht => ih (Term.sortFree_subst ht trivial)
  exact hfold (fun p => (temporaryName p.2, p.1.2)) _
    (hfold (fun p => (p.1.1, temporaryName p.2)) _ h)

lemma sortFree_freshenBinders {bs : List Binding} (h : ∀ b ∈ bs, b.ty.nameless.SortFree)
    {taken : List Name} {ρ : List (Name × Name)} :
    ∀ b ∈ (freshenBinders taken ρ bs).1, b.ty.nameless.SortFree := by
  induction bs generalizing taken ρ with
  | nil => exact nofun
  | cons b bs ih =>
    intro b' hb'
    rcases List.mem_cons.1 hb' with rfl | hb'
    · exact sortFree_renameAll (h b List.mem_cons_self) ρ
    · exact ih (fun b hb => h b (List.mem_cons_of_mem _ hb)) b' hb'

/-! ### Small goals -/

/-- A small type computes to one without the universe. -/
lemma Nameless.Small.sortFree_of_normal {T u : Nameless} (h : T.Small) (hr : Reduces T u)
    (hu : u.IsNormal) : u.SortFree := by
  obtain ⟨A, hA, hTA⟩ := h
  exact hA.reduces ((hTA.symm.trans (.of_reduces hr)).reduces_normal hu)

lemma Kernel.normalize_sortFree {k : Kernel} {t u : Term} (h : k.normalize t = .ok u)
    (ht : t.nameless.Small) : u.nameless.SortFree :=
  ht.sortFree_of_normal (normalize_spec h).1 (normalize_spec h).2

/-- A goal of small types. -/
structure Goal.Small (goal : Goal) : Prop where
  hyps : ∀ b ∈ goal.hyps, b.ty.nameless.Small
  target : goal.target.nameless.Small

namespace Goal.Small

variable {k : Kernel} {goal : Goal} {x : Name} {e : Equation}

lemma equation (h : goal.Small) (he : k.equation goal x = .ok e) : e.toTerm.nameless.SortFree := by
  obtain ⟨ty, hty, hnormal⟩ := Kernel.equation_eq_ok he
  exact Kernel.normalize_sortFree hnormal (h.hyps _ (Context.mem_of_lookup? hty))

lemma targetEquation (h : goal.Small) (he : k.targetEquation goal = .ok e) :
    e.toTerm.nameless.SortFree :=
  Kernel.normalize_sortFree (Kernel.targetEquation_eq_ok he) h.target

lemma without (h : goal.Small) {t : Term} (ht : t.nameless.Small) :
    Goal.Small ⟨Kernel.without goal x, t⟩ :=
  ⟨fun b hb => h.hyps b (List.mem_filter.1 hb).1, ht⟩

lemma append (h : goal.Small) {bs : List Binding} {t : Term}
    (hbs : ∀ b ∈ bs, b.ty.nameless.SortFree) (ht : t.nameless.Small) :
    Goal.Small ⟨goal.hyps ++ bs, t⟩ :=
  ⟨fun b hb => (List.mem_append.1 hb).elim (h.hyps b) fun hb => (hbs b hb).small, ht⟩

end Goal.Small

/-! ### Declarations -/

/-- Declarations whose constructors take and give nothing that mentions the universe. -/
structure Environment.Predicative (env : Environment) : Prop where
  args : ∀ d ∈ env.datatypes, ∀ ctor ∈ d.ctors, ∀ ty ∈ ctor.argTypes, ty.nameless.SortFree
  binders : ∀ f ∈ env.families, ∀ ctor ∈ f.ctors, ∀ b ∈ ctor.binders, b.ty.nameless.SortFree
  indices : ∀ f ∈ env.families, ∀ ctor ∈ f.ctors, ∀ t ∈ ctor.indices, t.nameless.SortFree

namespace Kernel

variable {k : Kernel} {goal : Goal} {gs : List Goal} {x y : Name} {t : Term}

/-- Arguments of an application without the universe do not mention it. -/
lemma sortFree_arg {c : Name} (hhead : t.head = .const c) (ht : t.nameless.SortFree) {a : Term}
    (ha : a ∈ t.args) : a.nameless.SortFree := by
  rw [nameless_of_head hhead, sortFree_apps] at ht
  exact ht.2 _ (List.mem_map_of_mem ha)

section Declared

variable (henv : k.env.Predicative)
include henv

lemma sortFree_ctorBinders {c : Name} {b : Binding} (hb : b ∈ ctorBinders k.env c) :
    b.ty.nameless.SortFree := by
  cases hdata : k.env.dataCtor? c with
  | some p =>
    obtain ⟨hd, hmem, -⟩ := Environment.mem_of_dataCtor? hdata
    have hty := List.mem_map_of_mem (f := Binding.ty) hb
    rw [ctorBinders_of_dataCtor? hdata] at hty
    exact henv.args _ hd _ hmem _ hty
  | none =>
    cases hfamily : k.env.familyCtor? c with
    | some p =>
      obtain ⟨hf, hmem, -⟩ := Environment.mem_of_familyCtor? hfamily
      simp only [ctorBinders, hdata, hfamily] at hb
      exact henv.binders _ hf _ hmem b hb
    | none => simp [ctorBinders, hdata, hfamily] at hb

/-- The components of an equation without the universe do not mention it. -/
lemma Splits.sortFree {e : Equation} {parts : List Term} (h : Splits k.env e parts)
    (he : e.toTerm.nameless.SortFree) {part : Term} (hpart : part ∈ parts) :
    part.nameless.SortFree := by
  cases h with
  | @pairs A₁ A₂ l₁ l₂ r₁ r₂ heq =>
    subst heq
    obtain ⟨⟨hA₁, hA₂⟩, ⟨hl₁, hl₂⟩, hr₁, hr₂⟩ := he
    have hcases : part = .eq A₁ l₁ r₁ ∨ part = .eq A₂ l₂ r₂ := by simpa using hpart
    rcases hcases with rfl | rfl
    · exact ⟨hA₁, hl₁, hr₁⟩
    · exact ⟨hA₂, hl₂, hr₂⟩
  | @ctor c d ctor hl hr hctor _ _ =>
    obtain ⟨hd, hmem, -⟩ := Environment.mem_of_dataCtor? hctor
    obtain ⟨⟨ty, l, r⟩, hzip, rfl⟩ : ∃ p ∈ ctor.argTypes.zip (e.lhs.args.zip e.rhs.args),
        Term.eq p.1 p.2.1 p.2.2 = part := by
      rw [← List.map_uncurry_zip_eq_zipWith] at hpart
      exact List.mem_map.1 hpart
    obtain ⟨hty, hlr⟩ := List.of_mem_zip hzip
    obtain ⟨hmeml, hmemr⟩ := List.of_mem_zip hlr
    exact ⟨henv.args d hd ctor hmem ty hty, sortFree_arg hl he.2.1 hmeml,
      sortFree_arg hr he.2.2 hmemr⟩

/-- The types of a branch are small. -/
lemma branch_small (hgoal : goal.Small) {f : Family} (hf : f ∈ k.env.families) {ctor : FamilyCtor}
    (hctor : ctor ∈ f.ctors) {motive : Term} (hmotive : motive.nameless.SortFree)
    {fixed : List Term} {taken : List Name} {g : Goal}
    (h : k.branchGoal goal motive fixed (ctor.freshen taken) = .ok (some g)) : g.Small := by
  obtain ⟨target, hnormal, rfl⟩ := branchGoal_eq_some h
  refine hgoal.append (sortFree_freshenBinders (henv.binders f hf ctor hctor))
    (normalize_sortFree hnormal (SortFree.small ?_)).small
  rw [Term.nameless_apps, sortFree_apps]
  refine ⟨hmotive, fun u hu => ?_⟩
  obtain ⟨a, ha, rfl⟩ := List.mem_map.1 hu
  rcases List.mem_append.1 ha with ha | ha
  · obtain ⟨index, hindex, rfl⟩ := List.mem_map.1 (List.mem_of_mem_drop ha)
    exact sortFree_renameAll (henv.indices f hf ctor hctor index hindex) _
  · obtain rfl := List.mem_singleton.1 ha
    rw [Term.nameless_apps, sortFree_apps]
    refine ⟨trivial, fun v hv => ?_⟩
    obtain ⟨w, hw, rfl⟩ := List.mem_map.1 hv
    obtain ⟨b, -, rfl⟩ := List.mem_map.1 hw
    trivial

end Declared

/-! ### Rules -/

section Rules

variable (hgoal : goal.Small)
include hgoal

lemma intro_small (h : k.intro goal x = .ok gs) : ∀ g ∈ gs, g.Small := by
  obtain ⟨z, dom, cod, hnormal, -, rfl⟩ := intro_eq_ok h
  obtain ⟨hdom, hcod⟩ := normalize_sortFree hnormal hgoal.target
  intro g hg
  obtain rfl := List.mem_singleton.1 hg
  refine hgoal.append (by simpa using hdom) ?_
  rw [Term.nameless_contract]
  exact SortFree.small (hcod.inst trivial)

lemma eliminate_small (h : k.eliminate goal x y = .ok gs) : ∀ g ∈ gs, g.Small := by
  obtain ⟨e, v, hyps, he, hsolved, -, -, -, -, -, hreorder, rfl⟩ := eliminate_eq_ok h
  obtain ⟨-, hl, hr⟩ := hgoal.equation he
  have hv : v.nameless.SortFree := by
    rcases solvedFor_eq_some hsolved with ⟨-, rfl⟩ | ⟨-, rfl⟩
    · exact hl
    · exact hr
  intro g hg
  obtain rfl := List.mem_singleton.1 hg
  refine ⟨fun b hb => ?_, Term.small_subst hgoal.target hv⟩
  obtain ⟨b', hb', rfl⟩ := List.mem_map.1 ((reorder_spec hreorder).1.mem_iff.1 hb)
  exact Term.small_subst (hgoal.hyps b' (List.mem_filter.1 hb').1) hv

lemma uip_small (h : k.uip goal x = .ok gs) : ∀ g ∈ gs, g.Small := by
  obtain ⟨e, -, he, -, -, -, rfl⟩ := uip_eq_ok h
  obtain ⟨hty, hl, -⟩ := hgoal.equation he
  intro g hg
  obtain rfl := List.mem_singleton.1 hg
  exact hgoal.without (Term.small_subst hgoal.target ⟨hty, hl⟩)

variable (henv : k.env.Predicative)
include henv

lemma injectionAs_small {names : List Name} {shown : Argument}
    (h : k.injectionAs goal x names shown = .ok gs) : ∀ g ∈ gs, g.Small := by
  obtain ⟨e, parts, he, hsplits, -, -, -, rfl⟩ := injectionAs_eq_ok h
  intro g hg
  obtain rfl := List.mem_singleton.1 hg
  exact hgoal.append
    (fun b hb => hsplits.sortFree henv (hgoal.equation he) (mem_of_zipWith hb).2) hgoal.target

lemma congruence_small (h : k.congruence goal = .ok gs) : ∀ g ∈ gs, g.Small := by
  obtain ⟨e, c, he, hl, hr, -, -, -, -, rfl⟩ := congruence_eq_ok h
  obtain ⟨-, hlfree, hrfree⟩ := hgoal.targetEquation he
  intro g hg
  obtain ⟨⟨b, l, r⟩, hmem, rfl⟩ := List.mem_map.1 hg
  obtain ⟨hb, hlr⟩ := List.of_mem_zip hmem
  obtain ⟨hmeml, hmemr⟩ := List.of_mem_zip hlr
  exact ⟨hgoal.hyps,
    SortFree.small ⟨sortFree_ctorBinders henv hb, sortFree_arg hl hlfree hmeml,
    sortFree_arg hr hrfree hmemr⟩⟩

lemma caseAs_small {motive : Term} (hmotive : motive.nameless.SortFree) {icount : Int}
    {shown : Argument} (h : k.caseAs goal t icount shown motive = .ok gs) : ∀ g ∈ gs, g.Small := by
  rw [caseAs, Except.bind_eq_ok] at h
  obtain ⟨branches, hbranches, h⟩ := h
  obtain rfl := Except.ok.inj h
  obtain ⟨f, ty, lead, -, -, hf, -, -, -, -, -, hgoals⟩ := caseBranchesAs_eq_ok hbranches
  intro g hg
  obtain ⟨⟨ctor', branch⟩, hmem, hg⟩ := List.mem_filterMap.1 hg
  obtain ⟨ctor, hctor, -, taken, -, hbranch⟩ :=
    exists_of_forall₂ (branchGoals_eq_ok hgoals).flip hmem
  have hg : branch = some g := hg
  exact branch_small henv hgoal hf hctor hmotive (hg ▸ hbranch)

/-- **A rule keeps types small**, if its terms do not mention the universe. -/
theorem run_small {rule : Rule} (hargs : ∀ t, .term t ∈ rule.call.args → t.nameless.SortFree)
    (h : k.run goal rule = .ok gs) : ∀ g ∈ gs, g.Small := by
  cases rule with
  | change t =>
    obtain ⟨-, -, rfl⟩ := change_eq_ok h
    exact fun g hg => List.mem_singleton.1 hg ▸ ⟨hgoal.hyps, (hargs t (by simp [Rule.call])).small⟩
  | symmetry =>
    obtain ⟨e, he, rfl⟩ := symmetry_eq_ok h
    obtain ⟨hty, hl, hr⟩ := hgoal.targetEquation he
    exact fun g hg => List.mem_singleton.1 hg ▸ ⟨hgoal.hyps, SortFree.small ⟨hty, hr, hl⟩⟩
  | generalize t w =>
    obtain ⟨z, dom, cod, -, -, -, -, rfl⟩ := generalize_eq_ok h
    exact fun g hg => List.mem_singleton.1 hg ▸ ⟨hgoal.hyps, (hargs t (by simp [Rule.call])).small⟩
  | intro x => exact intro_small hgoal h
  | clear x =>
    obtain ⟨-, -, rfl⟩ := clear_eq_ok h
    exact fun g hg => List.mem_singleton.1 hg ▸ hgoal.without hgoal.target
  | case t n motive => exact caseAs_small hgoal henv (hargs motive (by simp [Rule.call])) h
  | injection x parts => exact injectionAs_small hgoal henv h
  | subst x y => exact eliminate_small hgoal h
  | uip x => exact uip_small hgoal h
  | congruence => exact congruence_small hgoal henv h
  | discriminate x =>
    obtain ⟨-, -, -, -, -, -, -, rfl⟩ := discriminate_eq_ok h
    simp
  | reflexivity =>
    obtain ⟨-, -, -, rfl⟩ := reflexivity_eq_ok h
    simp
  | assumption x =>
    obtain ⟨-, -, -, rfl⟩ := assumption_eq_ok h
    simp
  | decide =>
    obtain ⟨-, -, -, -, -, -, rfl⟩ := decide_eq_ok h
    simp

/-- The same for a call. -/
theorem apply_small {call : Call} (hargs : ∀ t, .term t ∈ call.args → t.nameless.SortFree)
    (h : k.apply goal call = .ok gs) : ∀ g ∈ gs, g.Small := by
  rcases apply_eq_ok h with ⟨rule, rfl, hrun⟩ | ⟨x, letters, rfl, hinjection⟩ |
    ⟨t, n, shown, motive, rfl, hcase⟩
  · exact run_small hgoal henv hargs hrun
  · exact injectionAs_small hgoal henv hinjection
  · exact caseAs_small hgoal henv (hargs motive (by simp)) hcase

end Rules

end Kernel

end UniqueEvidence
