/-
Case analysis keeps goals well typed.

A motive is accepted by its type: the products over the generalised indices must bind the index
types, and the product after them must bind evidence of the family at the fixed indices and at the
variables that the former bind.  These variables go by their names, so the check means what it
should only where the names are distinct and no fixed index mentions them.

* `Kernel.Accepted.hasType`: with such names an accepted motive **gives a type at all indices and
  all evidence at these**;
* `freshenBinders_typed`: the fresh variables of a constructor are arguments of it;
* `Kernel.branchGoal_typed`: the branch of a constructor is a typed goal;
* `Kernel.wellTyped_of_case`: **the branches of a well typed goal are well typed**.
-/
import UniqueEvidence.Proofs.Scoping

namespace UniqueEvidence

open Nameless

/-! ### Motives -/

/-- The names that the products of a type bind, the outermost first. -/
def Term.piNames : Term → List Name
  | .pi x _ body => x :: body.piNames
  | _ => []

lemma Term.piNames_pis (bs : List Binding) (R : Term) :
    (Term.pis bs R).piNames = Binding.names bs ++ R.piNames := by
  induction bs with
  | nil => rfl
  | cons b bs ih => exact congrArg (b.name :: ·) ih

/-- A term that computes to one without the assigned names does not depend on what is assigned to
them. -/
lemma conv_subst_assignAll {t w : Nameless} {bs : List Binding} (h : Conv t w)
    (hw : ∀ b ∈ bs, ¬ w.Occurs (.free b.name)) (us : List Nameless) :
    Conv (t.subst (assignAll ref bs us)) t := by
  have hsame : w.subst (assignAll ref bs us) = w := by
    conv_rhs => rw [← subst_ref w]
    exact subst_congr fun r hr => assignAll_of_ne fun b hb hrb => hw b hb (hrb ▸ hr)
  have hsubst := h.subst (assignAll ref bs us)
  rw [hsame] at hsubst
  exact hsubst.trans h.symm

namespace Kernel.Accepted

variable {S : Signature} {Γ : Scope} {family : Name} {indexTypes fixed : List Term}
  {bs : List Binding} {x : Name} {dom cod : Term} {us : List Nameless}

/-- Terms of the index types are arguments of the motive. -/
lemma typedArgs (h : Accepted family indexTypes fixed bs dom cod)
    (hclosed : ∀ ty ∈ indexTypes, ty.freeVars = [])
    (hus : List.Forall₂ (HasType .strict S Γ) us (indexTypes.map Term.nameless))
    (σ : Ref → Nameless) : TypedArgs .strict S Γ σ bs us := by
  have hbs := h.indices
  clear h
  induction hbs generalizing us σ with
  | nil =>
    cases hus
    trivial
  | @cons b ty bs indexTypes hconv _ ih =>
    cases hus with
    | cons hu hus =>
      refine ⟨hu.conv ?_, ih (fun ty' hty' => hclosed ty' (List.mem_cons_of_mem _ hty')) hus _⟩
      have hty : ty.nameless.Closed := Term.closed_nameless (hclosed ty List.mem_cons_self)
      have hsubst := hconv.symm.subst σ
      rwa [subst_of_closed hty] at hsubst

/-- The type of the evidence at given indices, if the names of the motive's type are told apart. -/
lemma evidence_subst (h : Accepted family indexTypes fixed bs dom cod)
    (hnames : (Binding.names bs).Nodup)
    (hfixed : ∀ a ∈ fixed, ∃ w, Conv a.nameless w ∧ ∀ b ∈ bs, ¬ w.Occurs (.free b.name))
    (hlen : us.length = bs.length) :
    Conv (dom.nameless.subst (assignAll ref bs us))
      ((const family).apps (fixed.map Term.nameless ++ us)) := by
  refine (h.evidence.subst _).trans ?_
  rw [Term.nameless_apps, subst_apps, List.map_append, List.map_append]
  refine .apps .rfl (List.rel_append ?_ ?_)
  · rw [List.map_map, List.forall₂_map_left_iff, List.forall₂_map_right_iff, List.forall₂_same]
    intro a ha
    obtain ⟨w, hw, hnot⟩ := hfixed a ha
    exact conv_subst_assignAll hw hnot us
  · have hvalues := map_assignAll (γ := ref) hnames hlen
    rw [Binding.names, List.map_map, List.map_map, List.map_map]
    change List.Forall₂ Conv (bs.map fun b => assignAll ref bs us (.free b.name)) us
    rw [hvalues, List.forall₂_same]
    exact fun _ _ => .rfl

/-- **An accepted motive gives a type** at indices of the index types and evidence of the family at
them. -/
theorem hasType (h : Accepted family indexTypes fixed bs dom cod)
    (hclosed : ∀ ty ∈ indexTypes, ty.freeVars = []) (hnames : (Binding.names bs).Nodup)
    (hfixed : ∀ a ∈ fixed, ∃ w, Conv a.nameless w ∧ ∀ b ∈ bs, ¬ w.Occurs (.free b.name))
    {motive e : Nameless}
    (hmotive : HasType .strict S Γ motive (Term.pis bs (.pi x dom cod)).nameless)
    (hus : List.Forall₂ (HasType .strict S Γ) us (indexTypes.map Term.nameless))
    (he : HasType .strict S Γ e ((const family).apps (fixed.map Term.nameless ++ us))) :
    HasType .strict S Γ (motive.apps (us ++ [e])) sort := by
  have hspine := (h.typedArgs hclosed hus ref).spine (.pi x dom cod)
  rw [subst_ref] at hspine
  have happlied := hspine.hasType hmotive
  rw [Discipline.view_pi, Nameless.subst] at happlied
  have hlen : us.length = bs.length := by
    rw [hus.length_eq, List.length_map, h.indices.length_eq]
  rw [apps_concat]
  refine .app happlied (he.conv (h.evidence_subst hnames hfixed hlen).symm) ?_
  rw [inst_subst_captured]
  exact h.result.subst _

end Kernel.Accepted

/-! ### Fresh variables of a constructor -/

lemma assign_ref_self (x : Name) : assign ref x (ref (.free x)) = ref := by
  funext r
  by_cases hr : r = .free x
  · rw [hr, assign_self]
  · exact assign_of_ne hr

/-- The variables of bindings. -/
def Binding.refs (bs : List Binding) : List Nameless :=
  bs.map fun b => ref (.free b.name)

/-- **The fresh variables are arguments of the binders**, in a scope that gives them their types;
and these are types, as is the result. -/
theorem freshenBinders_typed {m : Discipline} {S : Signature} {Γ : Scope} {taken : List Name}
    {ρ : List (Name × Name)} (h : IsRenaming taken ρ) {bs : List Binding}
    (hordered : OrderedFrom (ρ.map Prod.fst) bs) (hnames : ∀ b ∈ bs, ¬ b.name.StartsWithHash)
    {σ : Ref → Nameless} (hagrees : AgreesAlong ρ σ ref) {R : Term}
    (htype : HasType m S Γ ((m.view (.pis bs R)).subst σ) sort)
    (hΓ : ∀ b ∈ (freshenBinders taken ρ bs).1, Γ (.free b.name) = some (m.view b.ty)) :
    TypedArgs m S Γ σ bs (Binding.refs (freshenBinders taken ρ bs).1) ∧
      AgreesAlong (freshenBinders taken ρ bs).2
        (assignAll σ bs (Binding.refs (freshenBinders taken ρ bs).1)) ref ∧
      HasType m S Γ
        ((m.view R).subst (assignAll σ bs (Binding.refs (freshenBinders taken ρ bs).1))) sort ∧
      ∀ b ∈ (freshenBinders taken ρ bs).1, HasType m S Γ (m.view b.ty) sort := by
  induction bs generalizing taken ρ σ with
  | nil => exact ⟨trivial, hagrees, htype, fun b hb => (List.not_mem_nil hb).elim⟩
  | cons b bs ih =>
    set x := fresh b.name taken with hx
    have hunused : x ∉ taken := fresh_not_mem b.name taken
    have hold : ¬ b.name.StartsWithHash := hnames b List.mem_cons_self
    have hset : IsRenaming (x :: taken) (setRenaming b.name x ρ) := h.set_fresh hold
    have hordered' : OrderedFrom ((setRenaming b.name x ρ).map Prod.fst) bs :=
      hordered.2.mono fun y hy => mem_keys_setRenaming.2 (List.mem_cons.1 hy)
    have hagrees' : AgreesAlong (setRenaming b.name x ρ) (assign σ b.name (ref (.free x)))
        (assign ref x (ref (.free x))) :=
      hagrees.set h hunused _
    rw [assign_ref_self] at hagrees'
    -- the type of the fresh variable is that of the binder, with the fresh variables before it put
    -- in
    have hview : m.view (b.ty.renameAll ρ) = (m.view b.ty).subst σ := by
      rw [← hagrees.view_subst h hordered.1, subst_ref]
    have hvar : HasType m S Γ (ref (.free x)) ((m.view b.ty).subst σ) :=
      .ref ((hΓ _ List.mem_cons_self).trans (congrArg some hview)) .rfl
    change HasType m S Γ ((m.view (.pi b.name b.ty (.pis bs R))).subst σ) sort at htype
    rw [Discipline.view_pi, subst] at htype
    cases htype with
    | pi hdom hcod =>
      have hrest := hcod.inst hvar fun _ => trivial
      rw [inst_subst_captured] at hrest
      obtain ⟨hargs, hfinal, hresult, hbinders⟩ := ih hset hordered'
        (fun b' hb' => hnames b' (List.mem_cons_of_mem _ hb'))
        hagrees' hrest fun b' hb' => hΓ b' (List.mem_cons_of_mem _ hb')
      refine ⟨⟨hvar, hargs⟩, hfinal, hresult, fun b' hb' => ?_⟩
      rcases List.mem_cons.1 hb' with rfl | hb'
      · exact hview.symm ▸ hdom
      · exact hbinders b' hb'

/-! ### Branches -/

namespace Kernel

/-- Declarations are well formed, index types are closed, and each constructor of a family gives all
indices and binds no name of a temporary one. -/
structure FamiliesFormed (k : Kernel) : Prop extends k.WellFormed where
  indexTypes : ∀ f ∈ k.env.families, ∀ ty ∈ f.indexTypes, ty.freeVars = []
  indices : ∀ f ∈ k.env.families, ∀ ctor ∈ f.ctors, ctor.indices.length = f.arity
  names : ∀ f ∈ k.env.families, ∀ ctor ∈ f.ctors, ∀ b ∈ ctor.binders, ¬ b.name.StartsWithHash

variable {k : Kernel} {goal : Goal} {motive : Term}

section Branches

variable (hk : k.FamiliesFormed) {f : Family} (hf : f ∈ k.env.families) {ctor : FamilyCtor}
  (hctor : ctor ∈ f.ctors)
include hk hf hctor

/-- **A constructor with fresh binders**: in a scope that has its binders, their types are types,
its indices have the index types, and its application is evidence at its indices. -/
theorem freshen_typed (taken : List Name) {Γ : Scope}
    (hΓ : ∀ b ∈ (ctor.freshen taken).binders, Γ (.free b.name) = some b.ty.nameless) :
    (∀ b ∈ (ctor.freshen taken).binders,
      HasType .strict (k.env.signature hk.typed.closed .strict) Γ b.ty.nameless sort) ∧
    List.Forall₂ (HasType .strict (k.env.signature hk.typed.closed .strict) Γ)
      ((ctor.freshen taken).indices.map Term.nameless) (f.indexTypes.map Term.nameless) ∧
    HasType .strict (k.env.signature hk.typed.closed .strict) Γ
      (Term.apps (.const ctor.name)
        ((ctor.freshen taken).binders.map fun b => .var b.name)).nameless
      ((const f.name).apps ((ctor.freshen taken).indices.map Term.nameless)) := by
  have henv := hk.typed
  have hdeclared := Environment.constType?_of_familyCtor? (Environment.familyCtor?_of_mem hf hctor)
  have hclosed := Term.closed_nameless (henv.closed _ _ hdeclared)
  obtain ⟨hordered, hindices⟩ := henv.closed.ordered hf hctor
  have htype : HasType .strict (k.env.signature henv.closed .strict) Γ
      ((Discipline.strict.view (.pis ctor.binders (.apps (.const f.name) ctor.indices))).subst ref)
        sort := by
    rw [subst_ref]
    exact (henv.types _ _ hdeclared).of_conv_scope fun r _ hr => absurd hr (hclosed r)
  have hnil : AgreesAlong [] ref ref := fun p hp => (List.not_mem_nil hp).elim
  obtain ⟨hargs, hagrees, hresult, hbinders⟩ :=
    freshenBinders_typed (.nil taken) hordered (hk.names f hf ctor hctor) hnil htype hΓ
  set us := Binding.refs (freshenBinders taken [] ctor.binders).1 with hus
  -- the indices with the fresh variables put in are the fresh indices
  have hsame : (Discipline.strict.view (.apps (.const f.name) ctor.indices)).subst
      (assignAll ref ctor.binders us) =
      (const f.name).apps ((ctor.freshen taken).indices.map Term.nameless) := by
    have hrenaming := freshenBinders_isRenaming (.nil taken) (hk.names f hf ctor hctor)
    have hkeys := (freshenBinders_names (ρ := []) taken hordered).keys
    rw [Discipline.view_apps, subst_apps, FamilyCtor.freshen, List.map_map, List.map_map]
    refine congrArg _ (List.map_congr_left fun t ht => ?_)
    have hview := hagrees.view_subst (m := .strict) hrenaming fun x hx =>
      (hkeys x).2 (.inr (hindices t ht x hx))
    rw [subst_ref] at hview
    exact hview.symm
  rw [hsame] at hresult
  refine ⟨hbinders, ?_, ?_⟩
  · -- the family at the fresh indices is a type, so these fit its declaration
    have hfamily := Environment.constType?_of_family? (Environment.family?_of_mem hf)
    rw [arrows_eq_pis] at hfamily
    have hindexTypes : ∀ b ∈ f.indexTypes.map (Binding.mk Term.anonymous), b.ty.freeVars = [] := by
      intro b hb
      obtain ⟨ty, hty, rfl⟩ := List.mem_map.1 hb
      exact hk.indexTypes f hf ty hty
    have hlen : ((ctor.freshen taken).indices.map Term.nameless).length =
        (f.indexTypes.map (Binding.mk Term.anonymous)).length := by
      simpa [FamilyCtor.freshen, Family.arity] using hk.indices f hf ctor hctor
    have htyped := hresult.args_of_closed (congrArg (Option.map _) hfamily) hindexTypes hlen
    rw [List.forall₂_map_left_iff] at htyped
    rw [List.forall₂_map_right_iff]
    exact htyped.flip
  · have hspine := hargs.spine (.apps (.const f.name) ctor.indices)
    rw [hsame, subst_ref] at hspine
    have hevidence := hspine.hasType (.const (congrArg (Option.map _) hdeclared) .rfl)
    rw [Term.nameless_apps, List.map_map]
    exact hevidence

/-- **The branch of a constructor is typed**, if the names that the motive's type binds are
distinct. -/
theorem branchGoal_typed (hgoal : goal.Typed (k.env.signature hk.typed.closed .strict))
    {taken : List Name} (htaken : goal.names ++ motive.freeVars ⊆ taken)
    (hmentions : motive.freeVars ⊆ goal.names) {bs : List Binding} {x : Name} {dom cod : Term}
    (hmotive : HasType .strict (k.env.signature hk.typed.closed .strict)
      (Context.scope goal.hyps .strict) motive.nameless (Term.pis bs (.pi x dom cod)).nameless)
    {fixed : List Term}
    (haccepted : Accepted f.name (f.indexTypes.drop fixed.length) fixed bs dom cod)
    (hnames : (Binding.names bs).Nodup) (hfixed : ∀ a ∈ fixed, a.freeVars ⊆ goal.names) {g : Goal}
    (h : k.branchGoal goal motive fixed (ctor.freshen taken) = .ok (some g)) :
    g.Typed (k.env.signature hk.typed.closed .strict) := by
  have henv := hk.typed
  obtain ⟨hordered, hindices⟩ := henv.closed.ordered hf hctor
  have hscoped : goal.Scoped := ⟨hgoal.telescope.toArranged, hgoal.mentions⟩
  have hsub := (List.append_subset.1 htaken).1
  have hg := branchGoal_scoped hscoped hordered hindices hmentions hsub h
  have hsame := branchGoal_fixed h
  obtain ⟨target, hnormal, rfl⟩ := branchGoal_eq_some h
  have hfresh := freshenBinders_names (ρ := []) taken hordered
  have hdistinct := hg.arranged.distinct
  obtain ⟨hbinders, htyped, hevidence⟩ := freshen_typed hk hf hctor taken
    fun b hb => Context.scope_of_mem (m := .strict) hdistinct (List.mem_append_right goal.hyps hb)
  set fresh := ctor.freshen taken
  have hweaken : ∀ {t T : Nameless}, HasType .strict (k.env.signature henv.closed .strict)
      (Context.scope goal.hyps .strict) t T →
      HasType .strict (k.env.signature henv.closed .strict)
        (Context.scope (goal.hyps ++ fresh.binders) .strict) t T :=
    fun ht => Context.hasType_of_mem ht hdistinct fun b hb _ => List.mem_append_left _ hb
  -- a fixed index and an index over the fresh binders have no name in common, so they compute to a
  -- closed term
  have hclosed : ∀ a ∈ fixed, ∃ w, Conv a.nameless w ∧ ∀ b ∈ bs, ¬ w.Occurs (.free b.name) := by
    intro a ha
    obtain ⟨_, hmem, w, hiw, haw⟩ := exists_of_forall₂ hsame.flip (List.mem_map_of_mem ha)
    obtain ⟨i, hi, rfl⟩ := List.mem_map.1 hmem
    refine ⟨w, .of_reduces haw, fun b _ hocc => ?_⟩
    have hgoal' := hfixed a ha (Term.occurs_nameless.1 (haw.occurs hocc))
    have hbinder := mem_of_freshen_index taken hordered hindices (List.mem_of_mem_take hi)
      (Term.occurs_nameless.1 (hiw.occurs hocc))
    obtain ⟨b', hb', hname⟩ := List.mem_map.1 hbinder
    exact hfresh.unused b' hb' (hname ▸ hsub hgoal')
  refine ⟨⟨hg.arranged, fun b hb => ?_⟩, hg.target, ?_⟩
  · rcases List.mem_append.1 hb with hb | hb
    · exact hweaken (hgoal.telescope.typed b hb)
    · exact hbinders b hb
  · have hdrop : List.Forall₂ (HasType .strict (k.env.signature henv.closed .strict)
        (Context.scope (goal.hyps ++ fresh.binders) .strict))
          ((fresh.indices.drop fixed.length).map Term.nameless)
        ((f.indexTypes.drop fixed.length).map Term.nameless) := by
      rw [List.map_drop, List.map_drop]
      exact List.forall₂_drop _ htyped
    have hat : Conv ((const f.name).apps (fresh.indices.map Term.nameless))
        ((const f.name).apps
          (fixed.map Term.nameless ++ (fresh.indices.drop fixed.length).map Term.nameless)) := by
      conv_lhs => rw [← List.take_append_drop fixed.length fresh.indices, List.map_append]
      refine .apps .rfl (List.rel_append hsame ?_)
      rw [List.forall₂_same]
      exact fun _ _ => .rfl
    have htarget := haccepted.hasType
      (fun ty hty => hk.indexTypes f hf ty (List.mem_of_mem_drop hty)) hnames hclosed
      (hweaken hmotive) hdrop (hevidence.conv hat)
    refine HasType.reduces ?_ (normalize_spec hnormal).1 (Discipline.admits_strict _)
    rw [Term.nameless_apps, List.map_append]
    exact htarget

end Branches

/-- The type of an accepted motive, with the names that it binds for the generalised indices. -/
lemma accepted_of_checkMotive {ctx : Context} {f : Family} {fixed : List Term} {mty : Term}
    (hmty : k.infer ctx motive = .ok mty)
    (h : k.checkMotive ctx motive f.name (f.indexTypes.drop fixed.length) fixed = .ok ()) :
    ∃ bs x dom cod, mty = .pis bs (.pi x dom cod) ∧
      Accepted f.name (f.indexTypes.drop fixed.length) fixed bs dom cod ∧
      mty.piNames.take (f.arity - fixed.length) = Binding.names bs := by
  obtain ⟨bs, x, dom, cod, hinfer, haccepted⟩ := checkMotive_eq_ok h
  obtain rfl := Except.ok.inj (hinfer.symm.trans hmty)
  refine ⟨bs, x, dom, cod, rfl, haccepted, ?_⟩
  have hlen := haccepted.indices.length_eq
  rw [List.length_drop] at hlen
  rw [Term.piNames_pis, List.take_left']
  rw [Binding.names, List.length_map, hlen, Family.arity]

section Goals

variable (hk : k.FamiliesFormed) (hgoal : goal.Typed (k.env.signature hk.typed.closed .strict))
  (hmotive : motive.freeVars ⊆ goal.names) {mty : Term}
  (hmty : k.infer goal.context motive = .ok mty)
include hgoal hmotive hmty

/-- **The branches of a typed goal are typed**, if the type of the motive binds distinct names. -/
theorem caseBranches_typed {scrutinee : Term} (hscrutinee : scrutinee.freeVars ⊆ goal.names)
    {icount : Int} (hnames : (mty.piNames.take icount.toNat).Nodup)
    {branches : List (FamilyCtor × Option Goal)}
    (h : k.caseBranches goal scrutinee icount motive = .ok branches) {ctor : FamilyCtor} {g : Goal}
    (hg : (ctor, some g) ∈ branches) : g.Typed (k.env.signature hk.typed.closed .strict) := by
  have hscoped : goal.Scoped := ⟨hgoal.telescope.toArranged, hgoal.mentions⟩
  obtain ⟨f, ty, lead, hty, -, hf, harity, hlead, hcount, hcheck, -, hgoals⟩ :=
    caseBranchesAs_eq_ok h
  have hlen : (ty.args.take lead).length = lead := by
    rw [List.length_take]
    omega
  have hcheck' : k.checkMotive goal.context motive f.name
      (f.indexTypes.drop (ty.args.take lead).length) (ty.args.take lead) = .ok () := by rwa [hlen]
  obtain ⟨bs, x, dom, cod, rfl, haccepted, htake⟩ := accepted_of_checkMotive hmty hcheck'
  rw [hlen, hcount] at htake
  obtain ⟨ctor', hctor, -, taken, htaken, hbranch⟩ :=
    exists_of_forall₂ (branchGoals_eq_ok hgoals).flip hg
  have hfixed : ∀ a ∈ ty.args.take lead, a.freeVars ⊆ goal.names := fun a ha y hy =>
    hscoped.infer hk.typed.closed hscrutinee hty
      (mem_freeVars_of_mem_args (List.mem_of_mem_take ha) hy)
  rw [hgoal.context_eq] at hmty
  have hmotiveTyped := inferAt_sound k hk.typed.closed .strict k.depth hgoal.telescope.isScoped
    (fun x hx => hmotive (Term.occurs_nameless.1 hx)) hmty
  exact branchGoal_typed hk hf hctor hgoal htaken hmotive hmotiveTyped haccepted
    (htake ▸ hnames) hfixed hbranch

/-- **An accepted motive gives a type** at well typed indices and evidence, if the names that its
type binds are distinct and no fixed index mentions them. -/
theorem hasType_of_checkMotive {f : Family} (hf : f ∈ k.env.families) {fixed : List Term}
    (hcheck : k.checkMotive goal.context motive f.name
      (f.indexTypes.drop fixed.length) fixed = .ok ())
    (hnames : (mty.piNames.take (f.arity - fixed.length)).Nodup)
    (hfixed : ∀ x ∈ mty.piNames.take (f.arity - fixed.length), ∀ a ∈ fixed, x ∉ a.freeVars)
    {indices : List Term} (hover : ∀ t ∈ indices, t.freeVars ⊆ goal.names)
    (hindices : List.Forall₂ (fun t ty => k.check goal.context t ty = .ok ()) indices
      (f.indexTypes.drop fixed.length))
    {evidence : Term} (hoverE : evidence.freeVars ⊆ goal.names)
    (hevidence :
      k.check goal.context evidence (.apps (.const f.name) (fixed ++ indices)) = .ok ()) :
    HasType .strict (k.env.signature hk.typed.closed .strict) (Context.scope goal.hyps .strict)
      (motive.apps (indices ++ [evidence])).nameless sort := by
  have hsound : Sound .strict (k.env.signature hk.typed.closed .strict) k.infer :=
    inferAt_sound k hk.typed.closed .strict k.depth
  have hpermits : ∀ {t : Term}, t.freeVars ⊆ goal.names → Context.Permits goal.hyps .strict t :=
    fun ht x hx => ht (Term.occurs_nameless.1 hx)
  obtain ⟨bs, x, dom, cod, rfl, haccepted, htake⟩ := accepted_of_checkMotive hmty hcheck
  rw [htake] at hnames hfixed
  rw [hgoal.context_eq] at hmty hindices hevidence
  have hus :
      List.Forall₂
      (HasType .strict (k.env.signature hk.typed.closed .strict) (Context.scope goal.hyps .strict))
      (indices.map Term.nameless) ((f.indexTypes.drop fixed.length).map Term.nameless) := by
    rw [List.forall₂_map_left_iff, List.forall₂_map_right_iff]
    exact ((List.forall₂_and_left _ _).2 ⟨hover, hindices⟩).imp fun t ty ht =>
      hsound.check hgoal.telescope.isScoped (hpermits ht.1) ht.2
  have he := hsound.check hgoal.telescope.isScoped (hpermits hoverE) hevidence
  simp only [Discipline.view, Term.nameless_apps, List.map_append] at he
  have hunfixed : ∀ a ∈ fixed, ∃ w, Conv a.nameless w ∧
      ∀ b ∈ bs, ¬ w.Occurs (.free b.name) := fun a ha =>
    ⟨a.nameless, .rfl,
      fun b hb hocc => hfixed b.name (List.mem_map_of_mem hb) a ha (Term.occurs_nameless.1 hocc)⟩
  rw [Term.nameless_apps, List.map_append]
  exact haccepted.hasType (fun ty hty => hk.indexTypes f hf ty (List.mem_of_mem_drop hty))
    hnames hunfixed (hsound hgoal.telescope.isScoped (hpermits hmotive) hmty) hus he

end Goals

/-- **The branches of a well typed goal are well typed**, over well formed declarations and for a
motive over the hypotheses, if the type of the motive binds distinct names for the generalised
indices.  If no fixed index mentions these either, the motive gives a type at all well typed indices
and evidence at them.  Whatever the depth, inference finds these to be types, or runs out. -/
theorem wellTyped_of_case (k : Kernel) (hk : k.FamiliesFormed) (goal : Goal)
    (hgoal : k.WellTyped IsSort goal) (motive : Term) (hmotive : motive.freeVars ⊆ goal.names)
    (mty : Term) (hmty : k.infer goal.context motive = .ok mty) (depth : Nat) :
    (∀ scrutinee : Term, scrutinee.freeVars ⊆ goal.names →
      ∀ icount : Int, (mty.piNames.take icount.toNat).Nodup →
      ∀ branches, k.caseBranches goal scrutinee icount motive = .ok branches →
      ∀ ctor g, (ctor, some g) ∈ branches → { k with depth }.WellTyped IsSortUpToDepth g) ∧
    ∀ f ∈ k.env.families, ∀ fixed : List Term,
      k.checkMotive goal.context motive f.name (f.indexTypes.drop fixed.length) fixed = .ok () →
      (mty.piNames.take (f.arity - fixed.length)).Nodup →
      (∀ x ∈ mty.piNames.take (f.arity - fixed.length), ∀ a ∈ fixed, x ∉ a.freeVars) →
      ∀ indices : List Term, (∀ t ∈ indices, t.freeVars ⊆ goal.names) →
      List.Forall₂ (fun t ty => k.check goal.context t ty = .ok ()) indices
        (f.indexTypes.drop fixed.length) →
      ∀ evidence : Term, evidence.freeVars ⊆ goal.names →
      k.check goal.context evidence (.apps (.const f.name) (fixed ++ indices)) = .ok () →
      IsSortUpToDepth
        ({ k with depth }.infer goal.context (motive.apps (indices ++ [evidence]))) := by
  have htyped := hgoal.typed hk.typed
  refine ⟨fun scrutinee hscrutinee icount hnames branches h ctor g hg => ?_,
    fun f hf fixed hcheck hnames hfixed indices hover hindices evidence hoverE hevidence => ?_⟩
  · exact wellTyped_of_typed (k := { k with depth }) hk.typed
      (caseBranches_typed hk htyped hmotive hmty hscrutinee hnames h hg)
  · have htype := hasType_of_checkMotive hk htyped hmotive hmty hf hcheck hnames hfixed hover
      hindices hoverE hevidence
    rw [htyped.context_eq]
    refine isSortUpToDepth_of_hasType (k := { k with depth }) hk.typed.closed
      htyped.telescope.isScoped (fun x hx => ?_) htype
    rcases mem_freeVars_apps.1 hx with hx | ⟨t, ht, hxt⟩
    · exact hmotive hx
    · rcases List.mem_append.1 ht with ht | ht
      · exact hover t ht hxt
      · obtain rfl := List.mem_singleton.1 ht
        exact hoverE hxt

end Kernel

namespace Sample

/-- Evidence `h` of a tree `x`, which is itself. -/
def reflexive : Goal where
  hyps := [⟨"x", .const "shape"⟩, ⟨"h", .app (.const "S") (.var "x")⟩]
  target := .eq (.app (.const "S") (.var "x")) (.var "h") (.var "h")

/-- All evidence is itself. -/
def reflexiveMotive : Term :=
  .lam "i" (.const "shape")
    (.lam "e" (.app (.const "S") (.var "i"))
    (.eq (.app (.const "S") (.var "i")) (.var "e") (.var "e")))

/-- The case of a node. -/
def reflexiveNode : Goal where
  hyps := reflexive.hyps ++ [⟨"a", .const "shape"⟩, ⟨"b", .const "shape"⟩]
  target := .eq (.app (.const "S") (Term.apps (.const "spair") [.var "a", .var "b"]))
    (Term.apps (.const "s_node") [.var "a", .var "b"])
      (Term.apps (.const "s_node") [.var "a", .var "b"])

end Sample

namespace Kernel

/-- Both branches of the split of `h`, and the motive at `x` and `h` themselves. -/
theorem wellTyped_of_case_sample :
    (∃ leaf, (Sample.kernel .default).caseBranches Sample.reflexive (.var "h") 1
      Sample.reflexiveMotive =
      .ok (Sample.family.ctors.zip [leaf, some Sample.reflexiveNode])) ∧
    (Sample.kernel .default).WellTyped IsSortUpToDepth Sample.reflexiveNode ∧
    IsSortUpToDepth ((Sample.kernel .default).infer Sample.reflexive.context
      (Sample.reflexiveMotive.apps ([.var "x"] ++ [.var "h"]))) := by
  have hformed : (Sample.kernel .default).FamiliesFormed :=
    ⟨⟨by decide +kernel, by decide +kernel, by decide +kernel⟩, by decide, by decide, by decide⟩
  have hgoal : (Sample.kernel .default).WellTyped IsSort Sample.reflexive :=
    ⟨by decide +kernel, by decide +kernel, by decide +kernel, by decide +kernel, by decide +kernel⟩
  have hmty : (Sample.kernel .default).infer Sample.reflexive.context Sample.reflexiveMotive =
      .ok (.pi "i" (.const "shape") (.pi "e" (.app (.const "S") (.var "i")) .sort)) :=
    Except.toOption_eq_some.1 (by decide +kernel)
  have hcase : (Sample.kernel .default).caseBranches Sample.reflexive (.var "h") 1
      Sample.reflexiveMotive =
      .ok (Sample.family.ctors.zip
        [some ⟨Sample.reflexive.hyps, .eq (.app (.const "S") (.const "sunit")) (.const "s_leaf")
        (.const "s_leaf")⟩, some Sample.reflexiveNode]) :=
    Except.toOption_eq_some.1 (by decide +kernel)
  obtain ⟨hbranches, hmotive⟩ :=
    wellTyped_of_case (Sample.kernel .default) hformed Sample.reflexive hgoal
      Sample.reflexiveMotive (by decide) _ hmty 40
  refine ⟨⟨_, hcase⟩,
    hbranches (.var "h") (by decide) 1 (by decide) _ hcase _ _ (.tail _ (.head _)), ?_⟩
  refine hmotive Sample.family (by decide) [] (Except.toOption_eq_some.1 (by decide +kernel))
    (by decide) (by decide) [.var "x"]
    (by decide) (.cons (Except.toOption_eq_some.1 (by decide +kernel)) .nil)
      (.var "h") (by decide) ?_
  exact Except.toOption_eq_some.1 (by decide +kernel)

end Kernel

namespace Sample

/-- A relation that holds between all trees. -/
def related : Kernel where
  env.datatypes := [Examples.shape]
  env.families := [⟨"R", [.const "shape", .const "shape"],
    [⟨"r", [⟨"x", .const "shape"⟩, ⟨"y", .const "shape"⟩], [.var "x", .var "y"]⟩]⟩]
  env.constants := []
  env.distinct := by decide
  registry := .default
  depth := 40

/-- A motive `M`, whose type binds `a` twice and so asks for evidence at its second argument
only. -/
def shadowed : Goal where
  hyps := [⟨"M", .pi "a" (.const "shape") (.pi "a" (.const "shape")
    (.pi "e" (Term.apps (.const "R") [.var "a", .var "a"]) .sort))⟩,
      ⟨"h", Term.apps (.const "R") [.const "sunit", .const "sunit"]⟩]
  target := Term.apps (.var "M") [.const "sunit", .const "sunit", .var "h"]

end Sample

/-- The motive is accepted, and its branch `M x y (r x y)` is not a type: `r x y` is no evidence of
`R y y`. -/
example :
    ((Sample.related.caseBranches Sample.shadowed (.var "h") 2 (.var "M")).toOption.map
      (·.map Prod.snd)) =
      some [some ⟨Sample.shadowed.hyps ++ [⟨"x", .const "shape"⟩, ⟨"y", .const "shape"⟩],
        Term.apps (.var "M") [.var "x", .var "y", Term.apps (.const "r") [.var "x", .var "y"]]⟩] ∧
    ¬ Kernel.IsSort
      (Sample.related.infer (Sample.shadowed.hyps ++ [⟨"x", .const "shape"⟩, ⟨"y", .const "shape"⟩])
      (Term.apps (.var "M") [.var "x", .var "y",
        Term.apps (.const "r") [.var "x", .var "y"]])) := by
  decide +kernel

end UniqueEvidence
