/-
Case analysis is sound.

* `Kernel.caseBranchesAs_eq_ok`, `Kernel.branchGoals_eq_ok`: what a case split has checked, and its
  branches;
* `Environment.Plain.freshen_spec`: a constructor with fresh binders, under the arguments of closed
  evidence;
* `Kernel.caseAs_follows`: **a goal follows from its branches**: closed evidence computes to a
  constructor, whose branch is not pruned and has the same target;
* `Kernel.apply_follows`: so a goal follows from what any call leaves, if the terms of the call do
  not mention the universe.
-/
import UniqueEvidence.Proofs.Soundness

namespace UniqueEvidence

open Nameless

/-! ### What a split has checked -/

namespace Kernel

variable {k : Kernel} {goal : Goal} {ctx : Context} {motive t : Term} {f : Family}
  {args fixed : List Term}

lemma evidenceOf_eq_ok (h : k.evidenceOf ctx t = .ok (f, args)) :
    ∃ ty, k.infer ctx t = .ok ty ∧ ty.head = .const f.name ∧
      f ∈ k.env.families ∧ args = ty.args := by
  simp only [evidenceOf, Except.bind_eq_ok] at h
  obtain ⟨ty, hty, h⟩ := h
  split at h
  · rename_i name hhead
    split at h
    · rename_i f' hf'
      obtain ⟨rfl, rfl⟩ : f' = f ∧ ty.args = args := by simpa [pure, Except.pure] using h
      obtain ⟨hmem, rfl⟩ := Environment.mem_of_family? hf'
      exact ⟨ty, hty, hhead, hmem, rfl⟩
    · cases h
  · cases h

lemma leadCount_eq_ok {icount : Int} {shown : Argument} {lead : Nat}
    (h : leadCount f args icount shown = .ok lead) :
    args.length = f.arity ∧ lead ≤ f.arity ∧ f.arity - lead = icount.toNat := by
  rw [leadCount] at h
  split at h
  · rename_i hcount
    obtain rfl := Except.ok.inj h
    omega
  · cases h

/-- What is past the products over index types, and the bindings of these. -/
lemma peelIndices_eq_ok {indexTypes : List Term} {mty rest : Term} {names : List Name}
    (h : k.peelIndices indexTypes mty = .ok (names, rest)) :
    ∃ bs, mty = .pis bs rest ∧ names = Binding.names bs ∧
      List.Forall₂ (fun (b : Binding) ty => Conv b.ty.nameless ty.nameless) bs indexTypes := by
  induction indexTypes generalizing mty names with
  | nil =>
    obtain ⟨rfl, rfl⟩ : [] = names ∧ mty = rest := by simpa [peelIndices, pure, Except.pure] using h
    exact ⟨[], rfl, rfl, .nil⟩
  | cons ty indexTypes ih =>
    cases mty with
    | pi x dom cod =>
      simp only [peelIndices, Except.bind_eq_ok] at h
      obtain ⟨answer, hconv, h⟩ := h
      cases answer with
      | false => cases h
      | true =>
        obtain ⟨⟨xs, rest'⟩, hrest, h⟩ := Except.bind_eq_ok.1 h
        obtain ⟨rfl, rfl⟩ : x :: xs = names ∧ rest' = rest := by simpa [pure, Except.pure] using h
        obtain ⟨bs, rfl, rfl, hbs⟩ := ih hrest
        exact ⟨⟨x, dom⟩ :: bs, rfl, rfl, .cons ((convertible_iff hconv).1 rfl) hbs⟩
    | _ => cases h

/-- The type of a motive over the given index types, for a family at fixed indices: its bindings,
the type of the evidence and the result. -/
structure Accepted (family : Name) (indexTypes fixed : List Term) (bs : List Binding)
    (dom cod : Term) : Prop where
  indices : List.Forall₂ (fun (b : Binding) ty => Conv b.ty.nameless ty.nameless) bs indexTypes
  evidence : Conv dom.nameless
    (Term.apps (.const family) (fixed ++ (Binding.names bs).map .var)).nameless
  result : Conv cod.nameless sort

lemma checkMotive_eq_ok {family : Name} {indexTypes : List Term} {u : Unit}
    (h : k.checkMotive ctx motive family indexTypes fixed = .ok u) :
    ∃ bs x dom cod, k.infer ctx motive = .ok (.pis bs (.pi x dom cod)) ∧
      Accepted family indexTypes fixed bs dom cod := by
  simp only [checkMotive, Except.bind_eq_ok] at h
  obtain ⟨mty, hmty, ⟨names, rest⟩, hpeel, h⟩ := h
  obtain ⟨bs, rfl, rfl, hbs⟩ := peelIndices_eq_ok hpeel
  cases rest with
  | pi x dom cod =>
    obtain ⟨answer, hconv, h⟩ := Except.bind_eq_ok.1 h
    cases answer with
    | false => cases h
    | true =>
      obtain ⟨cod', hcod, h⟩ := Except.bind_eq_ok.1 h
      split at h
      · exact ⟨bs, x, dom, cod, hmty, hbs, (convertible_iff hconv).1 rfl,
          .of_reduces (normalize_spec hcod).1⟩
      · cases h
  | _ => cases h

/-- A split is of evidence of a family, under a motive that gives the target at the indices and the
evidence. -/
lemma caseBranchesAs_eq_ok {icount : Int} {shown : Argument}
    {branches : List (FamilyCtor × Option Goal)}
    (h : k.caseBranchesAs goal t icount shown motive = .ok branches) :
    ∃ f ty lead, k.infer goal.context t = .ok ty ∧ ty.head = .const f.name ∧ f ∈ k.env.families ∧
      ty.args.length = f.arity ∧ lead ≤ f.arity ∧ f.arity - lead = icount.toNat ∧
      k.checkMotive goal.context motive f.name (f.indexTypes.drop lead)
        (ty.args.take lead) = .ok () ∧
      k.convertible (motive.apps (ty.args.drop lead ++ [t])) goal.target = .ok true ∧
      k.branchGoals goal motive (ty.args.take lead) (goal.names ++ motive.freeVars) f.ctors =
        .ok branches := by
  simp only [caseBranchesAs, Except.bind_eq_ok] at h
  obtain ⟨⟨f, args⟩, hevidence, lead, hlead, ⟨⟩, hmotive, answer, hconv, h⟩ := h
  obtain ⟨ty, hty, hhead, hf, rfl⟩ := evidenceOf_eq_ok hevidence
  obtain ⟨harity, hle, hcount⟩ := leadCount_eq_ok hlead
  cases answer with
  | false => cases h
  | true => exact ⟨f, ty, lead, hty, hhead, hf, harity, hle, hcount, hmotive, hconv, h⟩

/-- Each constructor has a branch, with binders that are fresh for the goal and the motive. -/
lemma branchGoals_eq_ok {taken : List Name} {ctors : List FamilyCtor}
    {branches : List (FamilyCtor × Option Goal)}
    (h : k.branchGoals goal motive fixed taken ctors = .ok branches) :
    List.Forall₂ (fun ctor p => p.1 = ctor ∧
      ∃ taken', taken ⊆ taken' ∧
        k.branchGoal goal motive fixed (ctor.freshen taken') = .ok p.2) ctors branches := by
  induction ctors generalizing taken branches with
  | nil =>
    obtain rfl : [] = branches := by simpa [branchGoals, pure, Except.pure] using h
    exact .nil
  | cons ctor ctors ih =>
    simp only [branchGoals, Except.bind_eq_ok] at h
    obtain ⟨branch, hbranch, rest, hrest, h⟩ := h
    obtain rfl := Except.ok.inj h
    refine .cons ⟨rfl, taken, List.Subset.refl _, hbranch⟩ ((ih hrest).imp ?_)
    rintro ctor' p ⟨heq, taken', hsub, hp⟩
    exact ⟨heq, taken', fun x hx => hsub (List.mem_append_right _ hx), hp⟩

/-- A branch is pruned if an index of the constructor clashes with the fixed one. -/
lemma branchGoal_eq_none {ctor : FamilyCtor} (h : k.branchGoal goal motive fixed ctor = .ok none) :
    ∃ index a b, (index, b) ∈ (ctor.indices.take fixed.length).zip fixed ∧
      k.normalize index = .ok a ∧ k.clash a b = true := by
  simp only [branchGoal, Except.bind_eq_ok, Except.mapM_eq_ok] at h
  obtain ⟨lead, hlead, h⟩ := h
  split at h
  · rename_i hclash
    obtain ⟨⟨a, b⟩, hmem, hclash⟩ := List.any_eq_true.1 hclash
    obtain ⟨i, hi, heq⟩ := List.mem_iff_getElem.1 hmem
    rw [List.length_zip] at hi
    simp only [List.getElem_zip, Prod.mk.injEq] at heq
    obtain ⟨rfl, rfl⟩ := heq
    have hlen := hlead.length_eq
    have hnormal := (List.forall₂_iff_get.1 hlead).2 i (by omega) (by omega)
    refine ⟨_, _, _, List.mem_iff_getElem.2 ⟨i, ?_, List.getElem_zip⟩, hnormal, hclash⟩
    rw [List.length_zip]
    omega
  · split at h
    · cases h
    · obtain ⟨answer, -, h⟩ := Except.bind_eq_ok.1 h
      cases answer with
      | false => cases h
      | true =>
        obtain ⟨target, -, h⟩ := Except.bind_eq_ok.1 h
        cases h

/-- Otherwise its goal is the motive at the indices of the constructor and its application. -/
lemma branchGoal_eq_some {ctor : FamilyCtor} {g : Goal}
    (h : k.branchGoal goal motive fixed ctor = .ok (some g)) :
    ∃ target, k.normalize (motive.apps (ctor.indices.drop fixed.length ++
      [.apps (.const ctor.name) (ctor.binders.map fun b => .var b.name)])) = .ok target ∧
      g = ⟨goal.hyps ++ ctor.binders, target⟩ := by
  simp only [branchGoal, Except.bind_eq_ok] at h
  obtain ⟨lead, -, h⟩ := h
  split at h
  · cases h
  · split at h
    · cases h
    · obtain ⟨answer, -, h⟩ := Except.bind_eq_ok.1 h
      cases answer with
      | false => cases h
      | true =>
        obtain ⟨target, htarget, h⟩ := Except.bind_eq_ok.1 h
        obtain rfl := Option.some.inj (Except.ok.inj h)
        exact ⟨target, htarget, rfl⟩

lemma allConvertible_eq_true {pairs : List (Term × Term)} (h : k.allConvertible pairs = .ok true) :
    ∀ p ∈ pairs, Conv p.1.nameless p.2.nameless := by
  induction pairs with
  | nil => exact fun p hp => (List.not_mem_nil hp).elim
  | cons q pairs ih =>
    simp only [allConvertible, Except.bind_eq_ok] at h
    obtain ⟨answer, hconv, h⟩ := h
    cases answer with
    | false => cases h
    | true =>
      intro p hp
      rcases List.mem_cons.1 hp with rfl | hp
      · exact (convertible_iff hconv).1 rfl
      · exact ih h p hp

/-- In a branch that is kept the leading indices of the constructor are the fixed ones. -/
lemma branchGoal_fixed {ctor : FamilyCtor} {g : Goal}
    (h : k.branchGoal goal motive fixed ctor = .ok (some g)) :
    List.Forall₂ Conv ((ctor.indices.take fixed.length).map Term.nameless)
      (fixed.map Term.nameless) := by
  simp only [branchGoal, Except.bind_eq_ok, Except.mapM_eq_ok] at h
  obtain ⟨lead, hlead, h⟩ := h
  split at h
  · cases h
  · split at h
    · cases h
    · rename_i hlen
      obtain ⟨answer, hall, h⟩ := Except.bind_eq_ok.1 h
      cases answer with
      | false => cases h
      | true =>
        have hcount := hlead.length_eq
        have htake := List.length_take_le fixed.length ctor.indices
        rw [List.forall₂_map_left_iff, List.forall₂_map_right_iff]
        refine List.forall₂_iff_get.2 ⟨by omega, fun i hi hj => ?_⟩
        have hi' : i < lead.length := hcount ▸ hi
        have hnormal := (List.forall₂_iff_get.1 hlead).2 i hi hi'
        have hpair : (lead.get ⟨i, hi'⟩, fixed.get ⟨i, hj⟩) ∈ lead.zip fixed :=
          List.mem_iff_getElem.2 ⟨i, by rw [List.length_zip]; omega, List.getElem_zip⟩
        exact (Conv.of_reduces (normalize_spec hnormal).1).trans
          (allConvertible_eq_true hall _ hpair)

end Kernel

/-! ### Constructors with fresh binders -/

/-- The bindings of a telescope over given names are in order, and its result mentions no other
names. -/
lemma orderedFrom_of_pis {bs : List Binding} {R : Term} {placed : List Name}
    (h : ∀ x ∈ (Term.pis bs R).freeVars, x ∈ placed) :
    OrderedFrom placed bs ∧ ∀ x ∈ R.freeVars, x ∈ placed ∨ x ∈ Binding.names bs := by
  induction bs generalizing placed with
  | nil => exact ⟨trivial, fun x hx => .inl (h x hx)⟩
  | cons b bs ih =>
    simp only [Term.pis, List.foldr_cons, Term.freeVars, List.mem_append, List.mem_filter] at h
    have hrest : ∀ x ∈ (Term.pis bs R).freeVars, x ∈ b.name :: placed := by
      intro x hx
      by_cases hxb : x = b.name
      · exact hxb ▸ List.mem_cons_self
      · exact List.mem_cons_of_mem _ (h x (.inr ⟨hx, by simpa using hxb⟩))
    obtain ⟨hordered, hresult⟩ := ih hrest
    refine ⟨⟨fun x hx => h x (.inl hx), hordered⟩, fun x hx => ?_⟩
    have hx' := hresult x hx
    simp only [Binding.names, List.map_cons, List.mem_cons] at hx' ⊢
    tauto

/-- A constructor applied to its binders mentions only these. -/
lemma mem_of_evidence {c : Name} {bs : List Binding} {x : Name}
    (hx : x ∈ (Term.apps (.const c) (bs.map fun b => .var b.name)).freeVars) :
    x ∈ Binding.names bs := by
  rcases mem_freeVars_apps.1 hx with hx | ⟨v, hv, hx⟩
  · cases hx
  · obtain ⟨b, hb, rfl⟩ := List.mem_map.1 hv
    obtain rfl : x = b.name := by simpa [Term.freeVars] using hx
    exact List.mem_map_of_mem hb

/-- The binders of a constructor of a closed type are in order, and its indices are over its
binders. -/
lemma Environment.Closed.ordered {env : Environment} (h : env.Closed) {f : Family}
    (hf : f ∈ env.families) {ctor : FamilyCtor} (hctor : ctor ∈ f.ctors) :
    OrderedFrom [] ctor.binders ∧
      ∀ t ∈ ctor.indices, ∀ x ∈ t.freeVars, x ∈ Binding.names ctor.binders := by
  have hclosed := h _ _ (constType?_of_familyCtor? (familyCtor?_of_mem hf hctor))
  obtain ⟨hordered, hresult⟩ := orderedFrom_of_pis fun x hx => (hclosed ▸ hx : x ∈ [])
  refine ⟨hordered, fun t ht x hx => (hresult x ?_).resolve_left List.not_mem_nil⟩
  exact mem_freeVars_apps.2 (.inr ⟨t, ht, hx⟩)

namespace Environment.Plain

variable {env : Environment} {f : Family} {ctor : FamilyCtor} (h : env.Plain)
  (hf : f ∈ env.families) (hctor : ctor ∈ f.ctors)
include h hf hctor

lemma freshened (taken : List Name) :
    Freshened taken [] ctor.binders (ctor.freshen taken).binders
      (freshenBinders taken [] ctor.binders).2 :=
  freshenBinders_names taken (h.closed.ordered hf hctor).1

/-- The indices of a fresh constructor are over its binders. -/
lemma freshen_indices (taken : List Name) {t : Term} (ht : t ∈ (ctor.freshen taken).indices) :
    ∀ x ∈ t.freeVars, x ∈ Binding.names (ctor.freshen taken).binders := by
  obtain ⟨hordered, hindices⟩ := h.closed.ordered hf hctor
  exact fun x hx => mem_of_freshen_index taken hordered hindices ht hx

/-- **The arguments of closed evidence fit the fresh binders**, and give the same indices. -/
theorem freshen_spec (taken : List Name) {S : Signature} {us : List Nameless}
    (hus : TypedArgs .erased S Scope.empty ref ctor.binders us) (γ : Ref → Nameless) :
    List.Forall₂ (fun b u => assignAll γ (ctor.freshen taken).binders us (.free b.name) = u ∧
      HasType .erased S Scope.empty u (b.ty.under (assignAll γ (ctor.freshen taken).binders us)))
      (ctor.freshen taken).binders us ∧
    (ctor.freshen taken).indices.map
      (fun t => t.under (assignAll γ (ctor.freshen taken).binders us)) =
      ctor.indices.map fun t =>
        (Discipline.erased.view t).subst (assignAll ref ctor.binders us) := by
  have hfresh := h.freshened hf hctor taken
  obtain ⟨hordered, hindices⟩ := h.closed.ordered hf hctor
  have hnil : AgreesAlong [] ref γ := fun p hp => (List.not_mem_nil hp).elim
  obtain ⟨hagrees, htyped⟩ :=
    freshenBinders_spec (.nil taken) hordered (h.names f hf ctor hctor) hnil hus
  refine ⟨htyped, ?_⟩
  rw [FamilyCtor.freshen, List.map_map]
  refine List.map_congr_left fun t ht => ?_
  have hrenaming := freshenBinders_isRenaming (.nil taken) (h.names f hf ctor hctor)
  exact hagrees.view_subst hrenaming fun x hx => (hfresh.keys x).2 (.inr (hindices t ht x hx))

end Environment.Plain

/-! ### The branch of closed evidence -/

namespace Kernel

variable {k : Kernel} {goal : Goal} {motive t : Term} {gs : List Goal}

lemma clash_eq_true {a b : Term} (h : k.clash a b = true) :
    ∃ c d, a.head = .const c ∧ b.head = .const d ∧ c ≠ d := by
  rw [clash] at h
  split at h
  · rename_i c d hc hd
    exact ⟨c, d, (constructorHead?_eq_some hc).1, (constructorHead?_eq_some hd).1, by simpa using h⟩
  · cases h

section Branches

variable (henv : k.env.Plain) (hgoal : goal.Grounded) {f : Family} (hf : f ∈ k.env.families)
  {ctor : FamilyCtor} (hctor : ctor ∈ f.ctors) {fixed : List Term} {taken : List Name}
include henv hgoal hf hctor

/-- A branch mentions only its hypotheses. -/
lemma branch_grounded (hmentions : ∀ x, motive.Mentions x → x ∈ goal.names)
    (htaken : goal.names ⊆ taken) {g : Goal}
    (h : k.branchGoal goal motive fixed (ctor.freshen taken) = .ok (some g)) : g.Grounded := by
  obtain ⟨target, hnormal, rfl⟩ := branchGoal_eq_some h
  have hfresh := henv.freshened hf hctor taken
  have harranged := arranged_freshen taken (henv.closed.ordered hf hctor).1
  set fresh := ctor.freshen taken
  have hargs :
      ∀ a ∈ fresh.indices.drop fixed.length ++
      [.apps (.const fresh.name) (fresh.binders.map fun b => .var b.name)],
      ∀ x ∈ a.freeVars, x ∈ Binding.names fresh.binders := by
    intro a ha x hx
    rcases List.mem_append.1 ha with ha | ha
    · exact henv.freshen_indices hf hctor taken (List.mem_of_mem_drop ha) x hx
    · obtain rfl := List.mem_singleton.1 ha
      exact mem_of_evidence hx
  refine hgoal.append hfresh.distinct (fun b hb hname => hfresh.unused b hb (htaken hname))
    (fun b hb x hx => ?_) (fun b hb hself => ?_) fun x hx => ?_
  · exact .inr (harranged.mem_names hb (Term.mem_freeVars_of_mentions hx))
  · exact harranged.not_mem_self hb (Term.mem_freeVars_of_mentions hself)
  · rcases Term.mentions_apps.1 (normalize_mentions hnormal hx) with hx | ⟨a, ha, hx⟩
    · exact .inl (hmentions x hx)
    · exact .inr (hargs a ha x (Term.mem_freeVars_of_mentions hx))

/-- **The branch of a constructor gives the target** at closed evidence that it builds. -/
theorem branch_holds {γ : Ref → Nameless}
    (hγ : Models (k.env.signature henv.closed .erased) goal.hyps γ)
    (htaken : goal.names ++ motive.freeVars ⊆ taken) {us : List Nameless}
    (husfree : ∀ u ∈ us, u.SortFree)
    (hus : TypedArgs .erased (k.env.signature henv.closed .erased) Scope.empty ref ctor.binders us)
    {args : List Term}
    (hindices : List.Forall₂ Conv
      (ctor.indices.map fun t => (Discipline.erased.view t).subst (assignAll ref ctor.binders us))
      (args.map fun a => a.under γ)) {lead : Nat} (hlead : lead ≤ args.length)
    (ht : Conv (t.under γ) ((const ctor.name).apps us))
    (htarget : Conv ((motive.apps (args.drop lead ++ [t])).under γ) (goal.target.under γ))
    (hproper : Proper (k.env.signature henv.closed .erased) (goal.target.under γ))
    {branch : Option Goal}
    (h : k.branchGoal goal motive (args.take lead) (ctor.freshen taken) = .ok branch)
    (hvalid : ∀ g, branch = some g → g.Valid (k.env.signature henv.closed .erased)) :
    Holds (k.env.signature henv.closed .erased) (goal.target.under γ) := by
  have hfresh := henv.freshened hf hctor taken
  obtain ⟨htyped, hsame⟩ := henv.freshen_spec hf hctor taken hus γ
  set fresh := ctor.freshen taken
  set γ' := assignAll γ fresh.binders us
  rw [← hsame, List.forall₂_map_left_iff, List.forall₂_map_right_iff] at hindices
  have hlen : (args.take lead).length = lead := by
    rw [List.length_take]
    omega
  cases branch with
  | none =>
    -- a pruned constructor has an index that is not the index of the evidence
    obtain ⟨index, a, b, hmem, hnormal, hclash⟩ := branchGoal_eq_none h
    rw [hlen] at hmem
    have hindex : Conv (index.under γ') (b.under γ) :=
      List.forall₂_zip (List.forall₂_take lead hindices) hmem
    obtain ⟨c, d, hc, hd, hne⟩ := clash_eq_true hclash
    have hheads := (normalize_under hnormal γ').symm.trans hindex
    rw [Term.under_of_head hc, Term.under_of_head hd] at hheads
    exact absurd hheads.apps_const_inj.1 hne
  | some g =>
    obtain ⟨target, hnormal, rfl⟩ := branchGoal_eq_some h
    have hmodels :
        Models (k.env.signature henv.closed .erased) (goal.hyps ++ fresh.binders) γ' := by
      refine hγ.append hgoal.mentions (fun b hb hname => hfresh.unused b hb (htaken ?_))
        husfree htyped
      exact List.mem_append_left _ hname
    have hmotive : motive.under γ' = motive.under γ := by
      refine Term.under_congr fun x hx => assignAll_of_not_mem fun hname => ?_
      obtain ⟨b, hb, rfl⟩ := List.mem_map.1 hname
      exact hfresh.unused b hb (htaken (List.mem_append_right _ (Term.mem_freeVars_of_mentions hx)))
    have hevidence :
        (Term.apps (.const fresh.name) (fresh.binders.map fun b => .var b.name)).under γ' =
        (const ctor.name).apps us := by
      have hvalues : fresh.binders.map (fun b => γ' (.free b.name)) = us := by
        rw [← List.forall₂_eq_eq_eq, List.forall₂_map_left_iff]
        exact htyped.imp fun b u hbu => hbu.1
      rw [Term.under_apps, List.map_map, ← hvalues]
      simp [Term.under, Nameless.subst, Function.comp_def, fresh, FamilyCtor.freshen]
    have htarget' : Conv (target.under γ') (goal.target.under γ) := by
      refine (normalize_under hnormal γ').symm.trans (Conv.trans ?_ htarget)
      rw [Term.under_apps, Term.under_apps, hmotive, List.map_append, List.map_append, hlen]
      refine .apps .rfl (List.rel_append ?_ ?_)
      · rw [List.forall₂_map_left_iff, List.forall₂_map_right_iff]
        exact List.forall₂_drop lead hindices
      · rw [List.map_singleton, List.map_singleton, hevidence]
        exact .cons ht.symm .nil
    exact (hvalid _ rfl γ' hmodels (hproper.conv htarget')).conv htarget'.symm

end Branches

/-- **A goal follows from the branches of a case split.** -/
theorem caseAs_follows (henv : k.env.Plain) (hgoal : goal.Grounded) (ht : t.nameless.SortFree)
    (hmotive : motive.nameless.SortFree) {icount : Int} {shown : Argument}
    (h : k.caseAs goal t icount shown motive = .ok gs) :
    goal.Follows (k.env.signature henv.closed .erased) gs := by
  rw [caseAs, Except.bind_eq_ok] at h
  obtain ⟨branches, hbranches, h⟩ := h
  obtain rfl := Except.ok.inj h
  obtain ⟨f, ty, lead, hty, hhead, hf, harity, hlead, -, hcheck, hconv, hgoals⟩ :=
    caseBranchesAs_eq_ok hbranches
  obtain ⟨bs, x, dom, cod, hmty, -⟩ := checkMotive_eq_ok hcheck
  have hgoals := branchGoals_eq_ok hgoals
  refine ⟨fun g hg => ?_, fun hsub γ hγ hproper => ?_⟩
  · obtain ⟨⟨ctor', branch⟩, hmem, hg⟩ := List.mem_filterMap.1 hg
    obtain ⟨ctor, hctor, -, taken, htaken, hbranch⟩ := exists_of_forall₂ hgoals.flip hmem
    have hg : branch = some g := hg
    refine branch_grounded henv hgoal hf hctor (fun x hx => ?_)
      (List.append_subset.1 htaken).1 (hg ▸ hbranch)
    exact mem_names_of_mentions (infer_erased henv hgoal hmotive hmty) hx
  · -- closed evidence computes to an application of a constructor of the family
    have hinh := inhabits_under hγ ht (infer_erased henv hgoal ht hty)
    have htype : (Discipline.erased.view ty).subst γ =
        (const f.name).apps (ty.args.map fun a => a.under γ) :=
      Term.under_of_head hhead
    rw [htype] at hinh
    obtain ⟨c, us, htc, hevidence⟩ := hinh.of_base henv.telescopic .rfl
    obtain ⟨ctor, hctor, rfl, hus, hindices⟩ := henv.ctor_of_inhabits hf hevidence .rfl
    obtain ⟨⟨ctor', branch⟩, hmem, -, taken, htaken, hbranch⟩ := exists_of_forall₂ hgoals hctor
    refine branch_holds henv hgoal hf hctor hγ htaken (sortFree_apps.1 hevidence.sortFree).2 hus
      hindices (harity ▸ hlead) htc
      (convertible_under hconv γ) hproper hbranch fun g hg => hsub g ?_
    exact List.mem_filterMap.2 ⟨_, hmem, hg⟩

/-! ### All rules -/

section Calls

variable (henv : k.env.Plain) (hregistry : k.registry.Plain) (hgoal : goal.Grounded)
include hregistry hgoal

/-- **A goal follows from what a rule leaves.** -/
theorem run_follows {rule : Rule} (hargs : ∀ t, .term t ∈ rule.call.args → t.nameless.SortFree)
    (h : k.run goal rule = .ok gs) : goal.Follows (k.env.signature henv.closed .erased) gs := by
  cases rule with
  | change t => exact change_follows henv hgoal (hargs t (by simp [Rule.call])) h
  | symmetry => exact symmetry_follows hgoal h
  | generalize t w =>
    exact generalize_follows henv hgoal (hargs t (by simp [Rule.call]))
      (hargs w (by simp [Rule.call])) h
  | intro x => exact intro_follows hgoal h
  | clear x => exact clear_follows hgoal h
  | case t n motive =>
    exact caseAs_follows henv hgoal (hargs t (by simp [Rule.call]))
      (hargs motive (by simp [Rule.call])) h
  | injection x parts => exact injectionAs_follows henv hgoal h
  | discriminate x => exact discriminate_follows hgoal henv.telescopic h
  | subst x y => exact eliminate_follows hgoal henv.telescopic h
  | uip x => exact uip_follows hgoal henv.telescopic h
  | reflexivity => exact reflexivity_follows h
  | assumption x => exact assumption_follows henv.telescopic h
  | decide => exact decide_follows hregistry henv.telescopic h
  | congruence => exact congruence_follows henv hgoal h

/-- The same for a call. -/
theorem apply_follows {call : Call} (hargs : ∀ t, .term t ∈ call.args → t.nameless.SortFree)
    (h : k.apply goal call = .ok gs) : goal.Follows (k.env.signature henv.closed .erased) gs := by
  rcases apply_eq_ok h with ⟨rule, rfl, hrun⟩ | ⟨x, letters, rfl, hinjection⟩ |
    ⟨t, n, shown, motive, rfl, hcase⟩
  · exact run_follows henv hregistry hgoal hargs hrun
  · exact injectionAs_follows henv hgoal hinjection
  · exact caseAs_follows henv hgoal (hargs t (by simp)) (hargs motive (by simp)) hcase

end Calls

end Kernel

end UniqueEvidence
