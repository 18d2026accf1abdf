/-
The order of constructors.

* `Kernel.Reorders`: kernels that differ only in the order in which families list their
  constructors;
* `exists_perm_of_freshen`: binders that are freshened in two ways are alike;
* `Kernel.concur_caseBranches`: **a split has the same branches in either order**, up to their order
  and the names of their hypotheses.  A branch avoids the names of the branches before it, so its
  names depend on the order;
* `Kernel.verdicts_of_reorder`: **what a run says of a constructor does not depend on the order of
  the constructors**.
-/
import UniqueEvidence.Proofs.Agreement
import UniqueEvidence.Proofs.Containment
import UniqueEvidence.Proofs.RenamedRuns
import UniqueEvidence.Proofs.Resolution
import UniqueEvidence.Proofs.ScopedRuns

namespace UniqueEvidence

/-! ### Reordered declarations -/

/-- The kernels differ only in the order in which families list their constructors. -/
structure Kernel.Reorders (k k' : Kernel) : Prop where
  registry : k'.registry = k.registry
  depth : k'.depth = k.depth
  datatypes : k'.env.datatypes = k.env.datatypes
  constants : k'.env.constants = k.env.constants
  families : List.Forall₂ Family.Reorders k.env.families k'.env.families

/-- A rule with which a run opens leaves the hypotheses. -/
lemma Rule.IsOpening.hyps {k : Kernel} {g g₁ : Goal} {gs : List Goal} {rule : Rule}
    (hrule : rule.IsOpening) (hgs : k.run g rule = .ok gs) (hg₁ : g₁ ∈ gs) : g₁.hyps = g.hyps := by
  cases rule with
  | symmetry =>
    obtain ⟨e, -, rfl⟩ := Kernel.symmetry_eq_ok hgs
    rw [List.mem_singleton.1 hg₁, Goal.withTarget]
  | change t =>
    obtain ⟨-, -, rfl⟩ := Kernel.change_eq_ok hgs
    rw [List.mem_singleton.1 hg₁, Goal.withTarget]
  | generalize t w =>
    obtain ⟨-, -, -, -, -, -, -, rfl⟩ := Kernel.generalize_eq_ok hgs
    rw [List.mem_singleton.1 hg₁, Goal.withTarget]
  | _ => exact hrule.elim

namespace Kernel.Reorders

variable {k k' : Kernel}

lemma symm (h : k.Reorders k') : k'.Reorders k :=
  ⟨h.registry.symm, h.depth.symm, h.datatypes.symm, h.constants.symm,
    (h.families.imp fun _ _ hf => hf.symm).flip⟩

variable (h : k.Reorders k')
include h

lemma exists_mem {f : Family} (hf : f ∈ k.env.families) : ∃ f' ∈ k'.env.families, f.Reorders f' :=
  exists_of_forall₂ h.families hf

lemma family? (c : Name) : Option.Rel Family.Reorders (k.env.family? c) (k'.env.family? c) :=
  forall₂_find? (fun f f' hf => by rw [hf.name]) h.families

lemma dataCtor? (c : Name) : k'.env.dataCtor? c = k.env.dataCtor? c := by
  rw [Environment.dataCtor?, Environment.dataCtor?, h.datatypes]

lemma rearranged : k.env.Rearranged k'.env where
  datatypes := by
    rw [h.datatypes]
    exact ⟨_, .refl _, List.forall₂_same.2 fun d _ => ⟨rfl, .refl _⟩⟩
  families := ⟨_, .refl _, h.families⟩
  constants := by rw [h.constants]

/-- A name stands for the same constructor, of families that agree. -/
lemma familyCtor? (c : Name) :
    Option.Rel (fun p p' => p'.2 = p.2 ∧ p.1.Reorders p'.1) (k.env.familyCtor? c)
      (k'.env.familyCtor? c) :=
  h.rearranged.sameLookups.familyCtor? c

lemma constType? (c : Name) : k'.env.constType? c = k.env.constType? c :=
  congrFun h.rearranged.sameLookups.constType? c

lemma isScoped (henv : k.env.Scoped) : k'.env.Scoped where
  constants := by
    rw [h.constants]
    exact henv.constants
  indexTypes f' hf' := by
    obtain ⟨f, hf, hreorders⟩ := h.symm.exists_mem hf'
    rw [← hreorders.indexTypes]
    exact henv.indexTypes f hf
  argTypes := by
    rw [h.datatypes]
    exact henv.argTypes
  binders f' hf' ctor hctor := by
    obtain ⟨f, hf, hreorders⟩ := h.symm.exists_mem hf'
    exact henv.binders f hf ctor (hreorders.ctors.mem_iff.1 hctor)
  indices f' hf' ctor hctor := by
    obtain ⟨f, hf, hreorders⟩ := h.symm.exists_mem hf'
    exact henv.indices f hf ctor (hreorders.ctors.mem_iff.1 hctor)

lemma indices (hindices : ∀ f ∈ k.env.families, ∀ ctor ∈ f.ctors, f.arity ≤ ctor.indices.length) :
    ∀ f ∈ k'.env.families, ∀ ctor ∈ f.ctors, f.arity ≤ ctor.indices.length := by
  intro f' hf' ctor hctor
  obtain ⟨f, hf, hreorders⟩ := h.symm.exists_mem hf'
  rw [Family.arity, ← hreorders.indexTypes]
  exact hindices f hf ctor (hreorders.ctors.mem_iff.1 hctor)

/-- So the rules treat alike goals alike. -/
lemma toMatches (henv : k.env.Scoped) (hregistry : k.registry.IsUniform) : k.Matches k' where
  registry := h.registry
  uniform := hregistry
  isScoped := henv
  isScoped' := h.isScoped henv
  constType? := h.constType?
  dataCtor? := h.dataCtor?
  familyCtor? c := by
    have hctor := h.familyCtor? c
    generalize k.env.familyCtor? c = p? at *
    generalize k'.env.familyCtor? c = p?' at *
    cases hctor with
    | some hp => rw [Option.map_some, Option.map_some, hp.1]
    | none => rfl

/-- Nothing else looks at the order. -/
lemma agrees : k.Agrees k' where
  depth := h.depth
  constType? := h.constType?
  isConstructor := congrFun h.rearranged.sameLookups.isConstructor

end Kernel.Reorders

/-! ### Fresh constructors -/

/-- A constructor whose types are over its binders, none of which has the name of a temporary
one. -/
structure FamilyCtor.IsTidy (ctor : FamilyCtor) : Prop where
  binders : OrderedFrom [] ctor.binders
  indices : ∀ t ∈ ctor.indices, t.freeVars ⊆ Binding.names ctor.binders
  names : ∀ b ∈ ctor.binders, ¬ b.name.StartsWithHash

/-- The renaming, followed by another one of its values. -/
def renameValues (σ : Equiv.Perm Name) (ρ : List (Name × Name)) : List (Name × Name) :=
  ρ.map fun p => (p.1, σ p.2)

section Freshening

variable {σ : Equiv.Perm Name} {taken taken' kept : List Name} {ρ : List (Name × Name)}

lemma keys_renameValues (σ : Equiv.Perm Name) (ρ : List (Name × Name)) :
    (renameValues σ ρ).map Prod.fst = ρ.map Prod.fst := by
  simp [renameValues, Function.comp_def]

lemma renameValues_congr {τ : Equiv.Perm Name} (h : ∀ p ∈ ρ, σ p.2 = τ p.2) :
    renameValues σ ρ = renameValues τ ρ :=
  List.map_congr_left fun p hp => by rw [h p hp]

lemma setRenaming_renameValues (σ : Equiv.Perm Name) (old new : Name) (ρ : List (Name × Name)) :
    setRenaming old (σ new) (renameValues σ ρ) = renameValues σ (setRenaming old new ρ) := by
  induction ρ with
  | nil => rfl
  | cons p ρ ih =>
    obtain ⟨x, y⟩ := p
    rw [renameValues, List.map_cons, ← renameValues, setRenaming, setRenaming]
    split
    · rfl
    · rw [ih]
      rfl

/-- A term renamed in two ways. -/
lemma alike_renameAll (hρ : IsRenaming taken ρ) (hρ' : IsRenaming taken' (renameValues σ ρ))
    {t : Term} (ht : ∀ x ∈ t.freeVars, x ∈ ρ.map Prod.fst) :
    (t.renameAll ρ).Alike σ (t.renameAll (renameValues σ ρ)) := by
  rw [Term.Alike, nameless_renameAll hρ ht,
    nameless_renameAll hρ' ((keys_renameValues σ ρ).symm ▸ ht), Nameless.rename_rename,
    funext (onFree_onFree (renamedTo ρ) σ)]
  refine Term.rename_nameless_congr fun x hx => ?_
  obtain ⟨⟨x', y⟩, hmem, rfl⟩ := List.mem_map.1 (ht x hx)
  have hmem' : (x', σ y) ∈ renameValues σ ρ := List.mem_map_of_mem hmem
  rw [renamedTo_of_mem hρ.distinct hmem, renamedTo_of_mem hρ'.distinct hmem']

/-- **Binders that are freshened in two ways are alike.**  The renaming between them is one of the
names that are kept. -/
lemma exists_perm_of_freshenBinders {bs : List Binding} (hordered : OrderedFrom (ρ.map Prod.fst) bs)
    (hnames : ∀ b ∈ bs, ¬ b.name.StartsWithHash) (hρ : IsRenaming taken ρ)
    (hρ' : IsRenaming taken' (renameValues σ ρ)) (hkept : kept ⊆ taken)
    (hkept' : kept.map σ ⊆ taken') (hvalues : ρ.map Prod.snd ⊆ kept) :
    ∃ τ : Equiv.Perm Name, (∀ y ∈ kept, τ y = σ y) ∧
      List.Forall₂ (Binding.Alike τ) (freshenBinders taken ρ bs).1
        (freshenBinders taken' (renameValues σ ρ) bs).1 ∧
      (freshenBinders taken' (renameValues σ ρ) bs).2 =
        renameValues τ (freshenBinders taken ρ bs).2 := by
  induction bs generalizing σ taken taken' kept ρ with
  | nil => exact ⟨σ, fun _ _ => rfl, .nil, rfl⟩
  | cons b bs ih =>
    set x := fresh b.name taken with hx
    set x' := fresh b.name taken' with hx'
    obtain ⟨τ, hτx, hτ⟩ := exists_perm_of_not_mem σ
      (fun hmem => fresh_not_mem b.name taken (hkept hmem))
      fun hmem => fresh_not_mem b.name taken' (hkept' hmem)
    rw [← hx, ← hx'] at hτx
    have hvalue : ∀ p ∈ ρ, p.2 ∈ kept := fun p hp => hvalues (List.mem_map_of_mem hp)
    have hset : setRenaming b.name x' (renameValues σ ρ) =
        renameValues τ (setRenaming b.name x ρ) := by
      rw [renameValues_congr fun p hp => (hτ p.2 (hvalue p hp)).symm, ← hτx,
        setRenaming_renameValues]
    have hhash : ¬ b.name.StartsWithHash := hnames b List.mem_cons_self
    have hρ₁ : IsRenaming (x :: taken) (setRenaming b.name x ρ) := hρ.set_fresh hhash
    have hρ₁' : IsRenaming (x' :: taken') (setRenaming b.name x' (renameValues σ ρ)) :=
      hρ'.set_fresh hhash
    rw [hset] at hρ₁'
    -- the new name is kept from here on
    have hkept₁' : (x :: kept).map τ ⊆ x' :: taken' := by
      rw [List.map_cons, hτx, List.map_congr_left hτ]
      exact List.cons_subset_cons x' hkept'
    have hvalues₁ : (setRenaming b.name x ρ).map Prod.snd ⊆ x :: kept := fun y hy =>
      List.mem_cons.2 ((mem_values_setRenaming hy).imp_right fun hy => hvalues hy)
    obtain ⟨υ, hυ, hbinders, hfinal⟩ :=
      ih (hordered.2.mono fun y hy => mem_keys_setRenaming.2 (List.mem_cons.1 hy))
      (fun b' hb' => hnames b' (List.mem_cons_of_mem _ hb')) hρ₁ hρ₁'
        (List.cons_subset_cons x hkept) hkept₁' hvalues₁
    have hυσ : ∀ y ∈ kept, υ y = σ y :=
      fun y hy => (hυ y (List.mem_cons_of_mem _ hy)).trans (hτ y hy)
    refine ⟨υ, hυσ, ?_, ?_⟩
    · rw [freshenBinders, freshenBinders, ← hx, ← hx', hset]
      refine .cons ⟨?_, ?_⟩ hbinders
      · rw [hυ x List.mem_cons_self, hτx]
      · refine (alike_renameAll hρ hρ' hordered.1).congr fun y hy => (hυσ y ?_).symm
        exact hvalues (mem_of_renameAll hordered.1 hy)
    · rw [freshenBinders, freshenBinders, ← hx, ← hx', hset]
      exact hfinal

/-- **A constructor that is freshened in two ways**, both away from the names that are kept. -/
lemma exists_perm_of_freshen {ctor : FamilyCtor} (hctor : ctor.IsTidy) (hkept : kept ⊆ taken)
    (hkept' : kept ⊆ taken') : ∃ τ : Equiv.Perm Name, (∀ y ∈ kept, τ y = y) ∧
      List.Forall₂ (Binding.Alike τ) (ctor.freshen taken).binders (ctor.freshen taken').binders ∧
      List.Forall₂ (Term.Alike τ) (ctor.freshen taken).indices (ctor.freshen taken').indices := by
  obtain ⟨τ, hτ, hbinders, hfinal⟩ := exists_perm_of_freshenBinders (σ := Equiv.refl Name) (ρ := [])
    hctor.binders hctor.names
    (.nil taken) (.nil taken') hkept (by simpa using hkept') (List.nil_subset _)
  refine ⟨τ, hτ, hbinders, ?_⟩
  have hρ := freshenBinders_isRenaming (.nil taken) hctor.names
  have hρ' := freshenBinders_isRenaming (.nil taken') hctor.names
  have hkeys := (freshenBinders_names (ρ := []) taken hctor.binders).keys
  change List.Forall₂ _ (ctor.indices.map _) (ctor.indices.map _)
  rw [List.forall₂_map_left_iff, List.forall₂_map_right_iff, List.forall₂_same]
  intro t ht
  change (freshenBinders taken' [] ctor.binders).2 = _ at hfinal
  rw [hfinal] at hρ' ⊢
  exact alike_renameAll hρ hρ' fun x hx => (hkeys x).2 (.inr (hctor.indices t ht hx))

end Freshening

/-! ### The branches of a split -/

namespace Kernel

variable {k k' : Kernel} {σ : Equiv.Perm Name} {g g' : Goal} {motive motive' : Term}
  {fixed fixed' : List Term}

lemma concur_allConvertible {pairs pairs' : List (Term × Term)}
    (h : List.Forall₂ (fun p p' => p.1.Alike σ p'.1 ∧ p.2.Alike σ p'.2) pairs pairs') :
    Concur Eq (k.allConvertible pairs) (k'.allConvertible pairs') := by
  induction h with
  | nil => exact .ok rfl
  | cons hp _ ih =>
    rw [allConvertible, allConvertible]
    refine (hp.1.concur_convertible hp.2 k k').bind ?_
    rintro answer _ rfl
    cases answer with
    | true => exact ih
    | false => exact .ok rfl

/-- **Constructors that are alike have branches that are alike.** -/
lemma concur_branchGoal (hk : k.Matches k') (hhyps : List.Forall₂ (Binding.Alike σ) g.hyps g'.hyps)
    (hmotive : motive.Alike σ motive') (hfixed : List.Forall₂ (Term.Alike σ) fixed fixed')
    {ctor ctor' : FamilyCtor} (hname : ctor'.name = ctor.name)
    (hbinders : List.Forall₂ (Binding.Alike σ) ctor.binders ctor'.binders)
    (hindices : List.Forall₂ (Term.Alike σ) ctor.indices ctor'.indices) :
    Concur (Option.Rel (Goal.Alike σ)) (k.branchGoal g motive fixed ctor)
      (k'.branchGoal g' motive' fixed' ctor') := by
  rw [branchGoal, branchGoal, hname, ← hfixed.length_eq]
  have hnormal := Concur.mapM (fun (t t' : Term) (ht : t.Alike σ t') => ht.concur_normalize k k')
    (List.forall₂_take fixed.length hindices)
  refine hnormal.bind fun lead lead' hlead => ?_
  have hpairs : List.Forall₂ (fun p p' => p.1.Alike σ p'.1 ∧ p.2.Alike σ p'.2)
      (lead.zip fixed) (lead'.zip fixed') :=
    forall₂_zipWith (fun hl hr => ⟨hl, hr⟩) hlead hfixed
  have hclash : ((lead'.zip fixed').any fun p => k'.clash p.1 p.2) = (lead.zip fixed).any fun p =>
      k.clash p.1 p.2 := by
    refine forall₂_any (fun p p' hp => ?_) hpairs
    simp only [clash, hk.constructorHead? hp.1, hk.constructorHead? hp.2]
  dsimp only
  rw [hclash, ← hlead.length_eq]
  split
  · exact .ok .none
  split
  · exact .error rfl
  refine (concur_allConvertible hpairs).bind ?_
  rintro answer _ rfl
  cases answer with
  | false => exact .refuse rfl
  | true =>
    have hvars : List.Forall₂ (Term.Alike σ) (ctor.binders.map fun b => .var b.name)
        (ctor'.binders.map fun b => .var b.name) := by
      rw [List.forall₂_map_left_iff, List.forall₂_map_right_iff]
      exact hbinders.imp fun b b' hb => Term.alike_var_iff.2 (by rw [hb.name])
    have hevidence := ((Term.alike_const_iff (c := ctor.name)).2 rfl).apps hvars
    have htarget :=
      hmotive.apps
        (List.rel_append (List.forall₂_drop fixed.length hindices) (.cons hevidence .nil))
    refine (htarget.concur_normalize k k').bind fun target target' htarget' =>
      .ok (.some ⟨?_, htarget'⟩)
    exact List.rel_append hhyps hbinders

end Kernel

/-- Cases of one constructor that are both ruled out, or have goals that are alike. -/
structure CasesAlike (case case' : FamilyCtor × Option Goal) : Prop where
  ctor : case'.1 = case.1
  goals : Option.Rel (fun g g' => g.Scoped ∧ ∃ σ, g.Alike σ g') case.2 case'.2

/-- Cases that are alike up to their order. -/
def SameCases (cases cases' : List (FamilyCtor × Option Goal)) : Prop :=
  ∃ l, cases.Perm l ∧ List.Forall₂ CasesAlike l cases'

namespace Kernel

/-- The constructor has the case, away from some names or other. -/
def HasCase (k : Kernel) (g : Goal) (motive : Term) (fixed : List Term) (ctor : FamilyCtor)
    (case : FamilyCtor × Option Goal) : Prop :=
  case.1 = ctor ∧ ∃ taken, g.names ⊆ taken ∧
    k.branchGoal g motive fixed (ctor.freshen taken) = .ok case.2

section Branches

variable {k k' : Kernel} {g : Goal} {motive : Term} {fixed : List Term} {taken taken' : List Name}
  {ctors ctors' : List FamilyCtor} (hk : k.Matches k') (hgoal : g.Scoped)
  (hmotive : motive.freeVars ⊆ g.names) (hfixed : ∀ t ∈ fixed, t.freeVars ⊆ g.names)
include hk hgoal hmotive hfixed

/-- The branch of a constructor does not depend on the names that its binders avoid. -/
lemma concur_branchGoal_freshen {ctor : FamilyCtor} (hctor : ctor.IsTidy) (htaken : g.names ⊆ taken)
    (htaken' : g.names ⊆ taken') :
    Concur (Option.Rel fun h h' => h.Scoped ∧ ∃ σ, h.Alike σ h')
      (k.branchGoal g motive fixed (ctor.freshen taken))
      (k'.branchGoal g motive fixed (ctor.freshen taken')) := by
  obtain ⟨τ, hτ, hbinders, hindices⟩ := exists_perm_of_freshen hctor htaken htaken'
  have hself : ∀ {t : Term}, t.freeVars ⊆ g.names → t.Alike τ t :=
    fun ht => Term.alike_self fun x hx => hτ x (ht hx)
  have hhyps : List.Forall₂ (Binding.Alike τ) g.hyps g.hyps := by
    refine List.forall₂_same.2 fun b hb =>
      ⟨(hτ _ (List.mem_map_of_mem hb)).symm, hself fun x hx => ?_⟩
    exact hgoal.arranged.mem_names hb hx
  have hname : (ctor.freshen taken').name = (ctor.freshen taken).name := rfl
  refine (concur_branchGoal hk hhyps (hself hmotive)
    (List.forall₂_same.2 fun t ht => hself (hfixed t ht)) hname hbinders
    hindices).imp fun branch branch' hbranch _ halike => ?_
  cases halike with
  | none => exact .none
  | some halike =>
    exact .some ⟨branchGoal_scoped hgoal hctor.binders hctor.indices hmotive htaken hbranch, τ,
      halike⟩

/-- What the branches of the constructors are in one order, they are in another. -/
lemma upToDepth_branchGoals (hctors : ∀ ctor ∈ ctors, ctor.IsTidy) (htaken : g.names ⊆ taken)
    {cases : List (FamilyCtor × Option Goal)}
    (hcases : List.Forall₂ (k.HasCase g motive fixed) ctors cases) :
    UpToDepth (k'.branchGoals g motive fixed taken ctors) (List.Forall₂ CasesAlike cases) := by
  induction hcases generalizing taken with
  | nil => exact .ok .nil
  | cons hcase _ ih =>
    obtain ⟨heq, taken₁, htaken₁, hbranch⟩ := hcase
    rw [branchGoals]
    refine ((concur_branchGoal_freshen hk hgoal hmotive hfixed (hctors _ List.mem_cons_self)
      htaken₁ htaken).upToDepth hbranch).bind fun branch _ hgoals => ?_
    refine (ih (fun ctor hctor => hctors ctor (List.mem_cons_of_mem _ hctor)) fun x hx =>
      List.mem_append_right _ (htaken hx)).bind fun rest _ hrest => ?_
    exact .ok (.cons ⟨heq.symm, hgoals⟩ hrest)

lemma concur_branchGoals (hperm : ctors.Perm ctors') (hctors : ∀ ctor ∈ ctors, ctor.IsTidy)
    (hlen : ∀ ctor ∈ ctors, fixed.length ≤ ctor.indices.length) (htaken : g.names ⊆ taken) :
    Concur SameCases (k.branchGoals g motive fixed taken ctors)
      (k'.branchGoals g motive fixed taken ctors') := by
  -- the cases found in one order, rearranged to the other
  have hrearranged :
      ∀ {k : Kernel} {ctors ctors' : List FamilyCtor} {cases : List (FamilyCtor × Option Goal)},
      ctors.Perm ctors' → k.branchGoals g motive fixed taken ctors = .ok cases →
      ∃ cases', cases.Perm cases' ∧ List.Forall₂ (k.HasCase g motive fixed) ctors' cases' := by
    intro k ctors ctors' cases hperm hcases
    obtain ⟨cases', hcases', hperm'⟩ := List.perm_comp_forall₂ hperm.symm (branchGoals_eq_ok hcases)
    refine ⟨cases', hperm'.symm, hcases'.imp ?_⟩
    rintro ctor case ⟨heq, taken₁, hsub, hbranch⟩
    exact ⟨heq, taken₁, fun x hx => hsub (htaken hx), hbranch⟩
  refine .of_upToDepth (fun cases hcases => ?_) (fun cases' hcases' => ?_) fun f f' hf hf' => ?_
  · obtain ⟨l, hl, hbranches⟩ := hrearranged hperm hcases
    refine (upToDepth_branchGoals hk hgoal hmotive hfixed
      (fun ctor hctor => hctors ctor (hperm.mem_iff.2 hctor)) htaken
      hbranches).imp fun cases' _ hcases' => ⟨l, hl, hcases'⟩
  · obtain ⟨l, -, hbranches⟩ := hrearranged hperm.symm hcases'
    exact (upToDepth_branchGoals hk.symm hgoal hmotive hfixed hctors htaken hbranches).imp
      fun _ _ _ => trivial
  · have hlen' : ∀ ctor ∈ ctors', fixed.length ≤ ctor.indices.length :=
      fun ctor hctor => hlen ctor (hperm.mem_iff.2 hctor)
    obtain rfl | ⟨ctor, -, rfl, -⟩ := (ends_branchGoals hlen (List.nil_subset _)).2 f hf
    · exact .inl rfl
    · obtain rfl | ⟨ctor', -, rfl, -⟩ := (ends_branchGoals hlen' (List.nil_subset _)).2 f' hf'
      · exact .inr (.inl rfl)
      · exact .inr (.inr rfl)

end Branches

/-- Alike cases get the same verdict. -/
lemma verdict_of_alike {k k' : Kernel} (hk : k.Matches k') {case case' : FamilyCtor × Option Goal}
    (hcase : CasesAlike case case') {bounds : Bounds} {b b' : Branch}
    (hb : case.2 = none ∧ b = { ctor := case.1.name, outcome := .impossible } ∨
      ∃ g, case.2 = some g ∧ (k.branch bounds case.1.name g).outcome = .ok b)
    (hb' : case'.2 = none ∧ b' = { ctor := case'.1.name, outcome := .impossible } ∨
      ∃ g', case'.2 = some g' ∧ (k'.branch bounds case'.1.name g').outcome = .ok b') :
    b.verdict = b'.verdict := by
  obtain ⟨c, branch⟩ := case
  obtain ⟨c', branch'⟩ := case'
  obtain ⟨hctor, hgoals⟩ := hcase
  obtain rfl : c' = c := hctor
  cases hgoals with
  | none =>
    obtain ⟨-, rfl⟩ | ⟨_, hnone, -⟩ := hb
    · obtain ⟨-, rfl⟩ | ⟨_, hnone', -⟩ := hb'
      · rfl
      · cases hnone'
    · cases hnone
  | @some g g' halike =>
    obtain ⟨hscoped, σ, halike⟩ := halike
    obtain ⟨hsome, -⟩ | ⟨_, hsome, hb⟩ := hb
    · cases hsome
    · obtain ⟨hsome', -⟩ | ⟨_, hsome', hb'⟩ := hb'
      · cases hsome'
      · obtain rfl := Option.some.inj hsome
        obtain rfl := Option.some.inj hsome'
        exact ((concur_branch hk hscoped halike bounds c'.name).upToDepth hb).of_eq_ok hb'

/-- So the same verdicts are given, up to their order. -/
lemma perm_of_workOn {k k' : Kernel} (hk : k.Matches k')
    {cases cases' : List (FamilyCtor × Option Goal)} {bounds : Bounds} {bs bs' : List Branch}
    (hcases : SameCases cases cases') (hbs : (k.workOn bounds cases).outcome = .ok bs)
    (hbs' : (k'.workOn bounds cases').outcome = .ok bs') :
    (bs.map Branch.verdict).Perm (bs'.map Branch.verdict) := by
  obtain ⟨l, hl, halike⟩ := hcases
  obtain ⟨bs₁, hbs₁, hperm⟩ := List.perm_comp_forall₂ hl.symm (workOn_eq_ok hbs)
  refine (hperm.symm.map _).trans (.of_eq ?_)
  replace hbs' := workOn_eq_ok hbs'
  clear hl hbs hperm
  induction halike generalizing bs₁ bs' with
  | nil =>
    cases hbs₁
    cases hbs'
    rfl
  | cons hcase _ ih =>
    cases hbs₁ with
    | cons hb hrest =>
      cases hbs' with
      | cons hb' hrest' =>
        rw [List.map_cons, List.map_cons, verdict_of_alike hk hcase hb hb', ih _ hrest hrest']

section Splits

variable {k k' : Kernel} (h : k.Reorders k') (henv : k.env.Scoped)
  (hregistry : k.registry.IsUniform)
  (hindices : ∀ f ∈ k.env.families, ∀ ctor ∈ f.ctors, f.arity ≤ ctor.indices.length)
  (hnames : ∀ f ∈ k.env.families, ∀ ctor ∈ f.ctors, ∀ b ∈ ctor.binders, ¬ b.name.StartsWithHash)
include h

lemma concur_evidenceOf (ctx : Context) (scrutinee : Term) :
    Concur (fun p p' => p.1.Reorders p'.1 ∧ p'.2 = p.2 ∧ k.evidenceOf ctx scrutinee = .ok p)
      (k.evidenceOf ctx scrutinee)
      (k'.evidenceOf ctx scrutinee) := by
  refine Concur.imp (R := fun p p' => p.1.Reorders p'.1 ∧ p'.2 = p.2) ?_ fun p p' hp _ hrel =>
    ⟨hrel.1, hrel.2, hp⟩
  rw [evidenceOf, evidenceOf, h.agrees.infer_eq]
  refine (Concur.self _).bind ?_
  rintro ty _ ⟨rfl, -⟩
  split
  · rename_i name _
    have hfamily := h.family? name
    generalize k.env.family? name = f? at *
    generalize k'.env.family? name = f?' at *
    cases hfamily with
    | none => exact .refuse rfl
    | some hf => exact .ok ⟨hf, rfl⟩
  · exact .refuse rfl

include henv hregistry hindices hnames

/-- **A split has the same branches in either order.** -/
theorem concur_caseBranches {g : Goal} (hgoal : g.Scoped) {scrutinee motive : Term}
    (hscrutinee : scrutinee.freeVars ⊆ g.names) (hmotive : motive.freeVars ⊆ g.names)
    (icount : Int) :
    Concur SameCases (k.caseBranches g scrutinee icount motive)
      (k'.caseBranches g scrutinee icount motive) := by
  rw [caseBranches, caseBranches, caseBranchesAs, caseBranchesAs]
  refine (concur_evidenceOf h g.context scrutinee).bind ?_
  rintro ⟨f, args⟩ ⟨f', _⟩ ⟨hf, rfl, hevidence⟩
  obtain ⟨ty, hty, -, hmem, rfl⟩ := evidenceOf_eq_ok hevidence
  have hcount : ∀ shown, leadCount f' ty.args icount shown = leadCount f ty.args icount shown := by
    intro shown
    rw [leadCount, leadCount, Family.arity, hf.indexTypes, Family.arity]
  dsimp only
  rw [hcount, hf.name, hf.indexTypes, h.agrees.convertible_eq]
  refine (Concur.self _).bind ?_
  rintro _ lead ⟨rfl, hlead⟩
  rw [h.agrees.checkMotive_eq]
  refine (Concur.self _).bind fun _ _ _ => (Concur.self _).bind ?_
  rintro answer _ ⟨rfl, -⟩
  split
  · have hfixed : ∀ t ∈ ty.args.take lead, t.freeVars ⊆ g.names := fun t ht x hx =>
      hgoal.infer henv.closed hscrutinee hty (mem_freeVars_of_mem_args (List.mem_of_mem_take ht) hx)
    have hlen := (ends_leadCount f ty.args icount _).1 lead hlead
    refine concur_branchGoals (h.toMatches henv hregistry) hgoal hmotive hfixed hf.ctors
      (fun ctor hctor => ?_)
      (fun ctor hctor => Nat.le_trans hlen (hindices f hmem ctor hctor))
        (List.subset_append_left _ _)
    exact ⟨henv.binders f hmem ctor hctor, henv.indices f hmem ctor hctor, hnames f hmem ctor hctor⟩
  · exact .refuse rfl

/-! ### Whole runs -/

/-- The steps before the split are the same, and so is the split. -/
lemma concurs_prepare {goal : Goal} (hgoal : goal.Scoped) {icount : Int} {c : Comparison}
    {curried : Term} (hc : (k.comparison goal icount).outcome = .ok c)
    (hcurried : (c.motive goal.names).curried k.depth = .ok curried) :
    Attempt.Concurs goal goal (k.prepare c (c.motive goal.names) curried)
      (k'.prepare c (c.motive goal.names) curried)
      fun cases cases' _ _ => SameCases cases cases' := by
  have hopens := opens_scoped henv hgoal hc hcurried
  have hstep : ∀ {g : Goal} (rule : Rule), g.Scoped ∧ g.hyps = goal.hyps → rule.IsOpening →
      rule.call.IsOver g.names →
      Attempt.Concurs g g (Attempt.step k rule) (Attempt.step k' rule) fun _ _ g₁ g₁' =>
        g₁' = g₁ ∧ g₁.Scoped ∧ g₁.hyps = goal.hyps := by
    intro g rule hg hrule hover
    refine Attempt.concurs_step ?_
    rw [h.agrees.run_eq hrule]
    refine (Concur.self _).imp fun gs _ hgs _ hsame => ?_
    obtain ⟨rfl, -⟩ := hsame
    exact List.forall₂_same.2 fun g₁ hg₁ =>
      ⟨rfl, run_scoped hg.1 henv hover hgs hg₁, (hrule.hyps hgs hg₁).trans hg.2⟩
  have hrest : ∀ {g : Goal}, g.Scoped ∧ g.hyps = goal.hyps → Attempt.Concurs g g
      (do
        Attempt.step k (.change (.eq c.evidenceType (c.motive goal.names).reflexiveLhs c.rhs))
        let target ← ((c.motive goal.names).target k.depth c.indices c.rhs : Logged Term)
        Attempt.step k (.generalize target (c.motive goal.names).reflWitness)
        (k.caseBranches (← Attempt.goal) c.rhs c.icount curried :
          Logged (List (FamilyCtor × Option Goal))))
      (do
        Attempt.step k' (.change (.eq c.evidenceType (c.motive goal.names).reflexiveLhs c.rhs))
        let target ← ((c.motive goal.names).target k'.depth c.indices c.rhs : Logged Term)
        Attempt.step k' (.generalize target (c.motive goal.names).reflWitness)
        (k'.caseBranches (← Attempt.goal) c.rhs c.icount curried :
          Logged (List (FamilyCtor × Option Goal))))
      fun cases cases' _ _ => SameCases cases cases' := by
    intro g hg
    rw [h.depth]
    refine Attempt.concurs_bind (hstep _ hg trivial (hopens.change g hg.1 hg.2)) ?_
    rintro _ _ _ g₁ ⟨rfl, hg₁⟩
    refine Attempt.concurs_bind (Attempt.concurs_liftM (Concur.self _)) ?_
    rintro _ target _ g₁ ⟨⟨rfl, rfl⟩, rfl, htarget⟩
    refine Attempt.concurs_bind
      (hstep _ hg₁ trivial (hopens.generalize g₁ hg₁.1 hg₁.2 target htarget)) ?_
    rintro _ _ _ g₂ ⟨rfl, hg₂⟩
    have hover := hopens.case g₂ hg₂.1 hg₂.2
    have hsplit := concur_caseBranches h henv hregistry hindices hnames hg₂.1
      (hover c.rhs (by simp [Rule.call])) (hover curried (by simp [Rule.call])) c.icount
    exact Attempt.concurs_goal
      (Attempt.concurs_mono (Attempt.concurs_liftM hsplit) fun _ _ _ _ hcases => hcases.2)
  unfold prepare
  split
  · have htermless : Rule.symmetry.IsTermless := trivial
    refine Attempt.concurs_bind
      (hstep .symmetry ⟨hgoal, rfl⟩ trivial fun t ht => absurd ht (htermless.not_mem t)) ?_
    rintro _ _ _ g₁ ⟨rfl, hg₁⟩
    exact hrest hg₁
  · exact hrest ⟨hgoal, rfl⟩

lemma concur_solve {goal : Goal} (hgoal : goal.Scoped) (icount : Int) (bounds : Bounds) :
    Concur (fun s s' => (s.branches.map Branch.verdict).Perm (s'.branches.map Branch.verdict))
      (k.solve goal icount bounds).outcome (k'.solve goal icount bounds).outcome := by
  rw [solve, solve, Logged.outcome_bind, Logged.outcome_bind, h.agrees.comparison_eq]
  refine (Concur.self _).bind ?_
  rintro _ c ⟨rfl, hc⟩
  rw [Logged.outcome_bind, Logged.outcome_bind, h.agrees.motive_eq]
  refine (Concur.self _).bind ?_
  rintro _ ⟨motive, curried⟩ ⟨rfl, hmotive⟩
  obtain ⟨rfl, hcurried⟩ := (upToDepth_motive c goal.names).of_eq_ok hmotive
  dsimp only at hcurried ⊢
  have hindices' : ∀ f ∈ k'.env.families, ∀ ctor ∈ f.ctors, f.arity ≤ ctor.indices.length :=
    h.indices hindices
  obtain ⟨hprepare, -⟩ :=
    concurs_prepare h henv hregistry hindices hnames hgoal hc hcurried { goal } { goal } rfl rfl rfl
  have hends := yields_prepare hindices c (c.motive goal.names) curried { goal } trivial
  have hends' := yields_prepare hindices' c (c.motive goal.names) curried { goal } trivial
  rcases hwork : k.prepare c (c.motive goal.names) curried { goal } with ⟨work, trail⟩
  rcases hwork' : k'.prepare c (c.motive goal.names) curried { goal } with ⟨work', trail'⟩
  rw [hwork, hwork'] at hprepare
  rw [hwork] at hends
  rw [hwork'] at hends'
  rw [Logged.outcome_bind, Logged.outcome_bind]
  have hsplit := (hprepare.imp fun cases cases' hcases hcases' hsame =>
    And.intro hsame (And.intro hcases hcases')).refusalAs (.unsplittable c.rhs) hends.2 hends'.2
  refine hsplit.bind fun cases cases' hcases => ?_
  obtain ⟨hsame, hcases, hcases'⟩ := hcases
  have hawaits := awaits_of_prepare persists_true trivial hcurried hwork hcases
  have hawaits' := awaits_of_prepare persists_true trivial (h.depth ▸ hcurried) hwork' hcases'
  simp only [Logged.outcome_bind, Logged.outcome_note, Except.ok_bind]
  rcases upToDepth_workOn bounds hawaits with hbs | ⟨bs, hbs, -⟩
  · rw [hbs]
    exact .left
  · rcases upToDepth_workOn bounds hawaits' with hbs' | ⟨bs', hbs', -⟩
    · rw [hbs']
      exact .right
    · rw [hbs, hbs']
      exact .ok (perm_of_workOn (h.toMatches henv hregistry) hsame hbs hbs')

end Splits

/-- **What a run says of a constructor does not depend on the order of the constructors.**  Let two
kernels differ only in the order in which families list their constructors.  Let the declared types
be closed, each constructor give as many indices as its family has, and no binder of one have a name
that starts with a hash.  Let the registry hold facts for closed types that are spelled in one way
only, with deciders that ignore the names of bound variables, and no rule but the one for pairs.
Then runs on a scoped goal that do not exhaust the depth either both end in a mismatch, or give the
same verdicts, one for each constructor. -/
theorem verdicts_of_reorder (k k' : Kernel) (h : k.Reorders k') (henv : k.env.Scoped)
    (hregistry : k.registry.IsUniform)
    (hindices : ∀ f ∈ k.env.families, ∀ ctor ∈ f.ctors, ctor.indices.length = f.arity)
    (hnames : ∀ f ∈ k.env.families, ∀ ctor ∈ f.ctors, ∀ b ∈ ctor.binders, ¬ b.name.StartsWithHash)
    (goal : Goal) (hgoal : goal.Scoped) (icount : Int) (bounds : Bounds)
    (hdepth : (k.solve goal icount bounds).outcome ≠ .error .exhausted)
    (hdepth' : (k'.solve goal icount bounds).outcome ≠ .error .exhausted) :
    (∃ why why', (k.solve goal icount bounds).outcome = .error (.mismatch why) ∧
      (k'.solve goal icount bounds).outcome = .error (.mismatch why')) ∨
    ∃ s s', (k.solve goal icount bounds).outcome = .ok s ∧
      (k'.solve goal icount bounds).outcome = .ok s' ∧
      (s.branches.map Branch.verdict).Perm (s'.branches.map Branch.verdict) := by
  have hindices : ∀ f ∈ k.env.families, ∀ ctor ∈ f.ctors, f.arity ≤ ctor.indices.length :=
      fun f hf ctor hctor =>
    Nat.le_of_eq (hindices f hf ctor hctor).symm
  have hends := ends_solve_isContained hindices goal icount bounds
  have hends' := ends_solve_isContained (h.indices hindices) goal icount bounds
  have hconcur := concur_solve h henv hregistry hindices hnames hgoal icount bounds
  generalize (k.solve goal icount bounds).outcome = x at *
  generalize (k'.solve goal icount bounds).outcome = x' at *
  cases hconcur with
  | @ok s s' hperm => exact .inr ⟨s, s', rfl, rfl, hperm⟩
  | @error f f' _ =>
    obtain rfl | ⟨why, rfl⟩ := hends.2 f rfl
    · exact absurd rfl hdepth
    · obtain rfl | ⟨why', rfl⟩ := hends'.2 f' rfl
      · exact absurd rfl hdepth'
      · exact .inl ⟨why, why', rfl, rfl⟩
  | left => exact absurd rfl hdepth
  | right => exact absurd rfl hdepth'

end Kernel

/-! ### A sample -/

namespace Sample

/-- A tree whose right side is a leaf, and the other way round.  The other side has the same name in
both. -/
def sides : List FamilyCtor :=
  [⟨"m_left", [⟨"a", .const "shape"⟩], [Term.apps (.const "spair") [.var "a", .const "sunit"]]⟩,
    ⟨"m_right", [⟨"a", .const "shape"⟩], [Term.apps (.const "spair") [.const "sunit", .var "a"]]⟩]

/-- Evidence that a side of a tree is a leaf. -/
def leftFirst : Kernel where
  env := ⟨[Examples.shape], [⟨"M", [.const "shape"], sides⟩], [], by decide⟩
  registry := registry
  depth := 40

/-- The same, with the constructors in the other order. -/
def rightFirst : Kernel where
  env := ⟨[Examples.shape], [⟨"M", [.const "shape"], sides.reverse⟩], [], by decide⟩
  registry := registry
  depth := 40

/-- Any `h : M (spair sunit x)` is `m_right x`.  It may not be, as `x` may be a leaf too. -/
def lopsided : Goal where
  hyps := [⟨"x", .const "shape"⟩,
    ⟨"h", .app (.const "M") (Term.apps (.const "spair") [.const "sunit", .var "x"])⟩]
  target := .eq
    (.app (.const "M") (Term.apps (.const "spair") [.const "sunit", .var "x"])) (.var "h")
    (.app (.const "m_right") (.var "x"))

end Sample

/-- In the first order the branch of `m_right` has to rename its binder, in the second one that of
`m_left` has to. -/
theorem Kernel.verdicts_of_reorder_sample : Sample.leftFirst.Reorders Sample.rightFirst ∧
    ∃ s s', (Sample.leftFirst.solve Sample.lopsided 1 {}).outcome = .ok s ∧
      (Sample.rightFirst.solve Sample.lopsided 1 {}).outcome = .ok s' ∧
      s.branches.map Branch.verdict =
        [(.text "m_left", .leftOpen, some "unresolved", true),
          (.text "m_right", .discharged, none, true)] ∧
      (s.branches.map Branch.verdict).Perm (s'.branches.map Branch.verdict) := by
  have hreorders : Sample.leftFirst.Reorders Sample.rightFirst :=
    ⟨rfl, rfl, rfl, rfl, .cons ⟨rfl, rfl, (List.reverse_perm _).symm⟩ .nil⟩
  have henv : Sample.leftFirst.env.Scoped := ⟨by decide, by decide, by decide, by decide, by decide⟩
  have hgoal : Sample.lopsided.Scoped := ⟨⟨by decide, by decide⟩, by decide⟩
  have hrun : (Sample.leftFirst.solve Sample.lopsided 1 {}).outcome.toOption.map
      (·.branches.map Branch.verdict) =
      some [(.text "m_left", .leftOpen, some "unresolved", true),
        (.text "m_right", .discharged, none, true)] := by decide +kernel
  have hrun' : (Sample.rightFirst.solve Sample.lopsided 1 {}).outcome.toOption.isSome =
    true := by decide +kernel
  obtain ⟨s, hs, hverdicts⟩ := Option.map_eq_some_iff.1 hrun
  obtain ⟨s', hs'⟩ := Option.isSome_iff_exists.1 hrun'
  have hs := Except.toOption_eq_some.1 hs
  have hs' := Except.toOption_eq_some.1 hs'
  have hregistry : Sample.leftFirst.registry.IsUniform := Registry.isUniform_datatypes ["shape"]
  have hsame := verdicts_of_reorder Sample.leftFirst Sample.rightFirst hreorders henv hregistry
    (by decide) (by decide) Sample.lopsided hgoal 1 {} (by simp [hs]) (by simp [hs'])
  obtain ⟨why, why', hwhy, -⟩ | ⟨r, r', hr, hr', hperm⟩ := hsame
  · rw [hs] at hwhy
    cases hwhy
  · rw [hs] at hr
    rw [hs'] at hr'
    obtain rfl := Except.ok.inj hr
    obtain rfl := Except.ok.inj hr'
    exact ⟨hreorders, s, s', hs, hs', hverdicts, hperm⟩

end UniqueEvidence
