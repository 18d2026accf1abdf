/-
Goals about trees, in the model of closed trees.

* `Goal.isAboutTrees`: the hypotheses are variables of data, variables of evidence at first-order
  indices and equations between first-order terms, and the target is such an equation.  Nothing is
  asked of the types at which terms are equated: the goal is to be well typed, and inference has
  them compute to simple types (`Kernel.WellTyped.equation`);
* `AssignsTrees`: an assignment of trees to the variables under which the equations hold;
* `Kernel.WellTyped.grounded`, `Kernel.WellTyped.small`: a goal is grounded, and the types of a goal
  about trees are small;
* `Kernel.WellTyped.models_of_trees`: an assignment of trees models the hypotheses, with reflexivity
  for the equations;
* `Kernel.WellTyped.holdsAt_of_valid`: so **a valid goal about trees holds under every assignment of
  trees**.
-/
import UniqueEvidence.Proofs.SimpleTypes

namespace UniqueEvidence

open Nameless

/-! ### Goals and assignments -/

namespace Goal

variable (env : Environment) (goal : Goal)

/-- The hypotheses that are variables of data or of evidence. -/
def values : List Binding :=
  goal.hyps.filter (·.ty.isValueType env (goal.dataVars env))

/-- The variables of data and of evidence. -/
def valueVars : List Name :=
  Binding.names (goal.values env)

/-- An equation between first-order terms over the variables of data and of evidence. -/
def isTreeEquation : Term → Bool
  | .eq _ l r =>
    l.isFirstOrder env.ctorArity? (goal.valueVars env) 0 &&
      r.isFirstOrder env.ctorArity? (goal.valueVars env) 0
  | _ => false

/-- The hypotheses are variables of data, variables of evidence and equations between first-order
terms, and the target is such an equation. -/
def isAboutTrees : Bool :=
  goal.hyps.all (fun b => b.ty.isValueType env (goal.dataVars env) ||
    goal.isTreeEquation env b.ty) && goal.isTreeEquation env goal.target

end Goal

/-- The variables of data and of evidence are assigned trees of their types, with the indices of
evidence evaluated under the same assignment, and the equations hold. -/
def AssignsTrees (env : Environment) (goal : Goal) (σ : Name → Term) : Prop :=
  ∀ b ∈ goal.hyps, (b.ty.isValueType env (goal.dataVars env) → Tree env (σ b.name) (b.ty.eval σ)) ∧
    b.ty.HoldsAt σ

namespace Goal

variable {env : Environment} {goal : Goal}

lemma values_subset : goal.values env ⊆ goal.hyps :=
  fun _ hb => (List.mem_filter.1 hb).1

lemma nodup_valueVars (hdistinct : goal.names.Nodup) : (goal.valueVars env).Nodup :=
  hdistinct.sublist (List.filter_sublist.map _)

lemma dataVars_subset : goal.dataVars env ⊆ goal.valueVars env := by
  refine List.map_subset _ fun b hb => ?_
  obtain ⟨hb, hdata⟩ := List.mem_filter.1 hb
  exact List.mem_filter.2 ⟨hb, by rw [Term.isValueType, hdata, Bool.true_or]⟩

lemma valueVars_subset : goal.valueVars env ⊆ goal.names :=
  List.map_subset _ values_subset

lemma isValueType_of_mem {b : Binding} (hb : b ∈ goal.values env) :
    b.ty.isValueType env (goal.dataVars env) :=
  (List.mem_filter.1 hb).2

/-- The types of variables are over the variables. -/
lemma freeVars_of_mem {b : Binding} (hb : b ∈ goal.values env) :
    b.ty.freeVars ⊆ goal.valueVars env :=
  List.Subset.trans (Term.freeVars_of_isValueType (isValueType_of_mem hb)) dataVars_subset

/-- A hypothesis of a goal about trees is a variable or an equation. -/
lemma mem_values_or (hform : goal.isAboutTrees env) {b : Binding} (hb : b ∈ goal.hyps) :
    b ∈ goal.values env ∨ goal.isTreeEquation env b.ty := by
  rw [isAboutTrees, Bool.and_eq_true, List.all_eq_true] at hform
  exact (Bool.or_eq_true_iff.1 (hform.1 b hb)).imp_left fun hvalue => List.mem_filter.2 ⟨hb, hvalue⟩

/-- The type of a variable is simple, and seen alike in both disciplines. -/
lemma scope_values (hdistinct : goal.names.Nodup) {m : Discipline} (m' : Discipline) {r : Ref}
    {A : Nameless} (hr : r.IsAmong (goal.valueVars env))
    (hA : Context.scope goal.hyps m r = some A) :
    A.IsSimple env.ctorArity? (Ref.IsAmong (goal.valueVars env)) ∧
      Context.scope (goal.values env) m' r = some A := by
  obtain ⟨x, hx, rfl⟩ := hr
  obtain ⟨b, hb, rfl⟩ := List.mem_map.1 hx
  rw [Context.scope_of_mem hdistinct (values_subset hb)] at hA
  obtain rfl := Option.some.inj hA
  have hflat := Term.isFlat_of_isValueType (isValueType_of_mem hb)
  rw [Context.scope_of_mem (nodup_valueVars hdistinct) hb, hflat.view m, hflat.view m']
  refine ⟨IsSimplePi.mono (n := 0) (Term.isSimple_of_isValueType (isValueType_of_mem hb)) ?_, rfl⟩
  rintro r ⟨y, hy, rfl⟩
  exact ⟨y, dataVars_subset hy, rfl⟩

end Goal

namespace Kernel

variable {k : Kernel} (henv : k.env.FirstOrder) {goal : Goal}

/-! ### Simple types of first-order terms -/

section Typing

variable (hgoal : k.WellTyped IsSort goal)
include henv hgoal

/-- A first-order term over the variables has a simple type. -/
lemma WellTyped.simple {t T : Nameless}
    (ht : t.IsFirstOrder k.env.ctorArity? (Ref.IsAmong (goal.valueVars k.env)) 0)
    (h : HasType .strict (k.env.signature henv.closed .strict)
      (Context.scope goal.hyps .strict) t T) :
    ∃ U, U.IsSimple k.env.ctorArity? (Ref.IsAmong (goal.valueVars k.env)) ∧ Conv U T := by
  refine h.isSimplePi (n := 0) (fun hc hU => ?_) (fun hr hA => ?_) ht
  · obtain ⟨V, hV, rfl⟩ := Option.map_eq_some_iff.1 hU
    exact henv.isSimplePi hc hV
  · exact (Goal.scope_values hgoal.distinct .strict hr hA).1

/-- What is flat and over the variables is typed under erasure, from the variables only. -/
lemma WellTyped.erased {t T : Nameless} (hflat : t.IsFlat)
    (hover : ∀ r, t.Occurs r → r.IsAmong (goal.valueVars k.env))
    (h : HasType .strict (k.env.signature henv.closed .strict)
      (Context.scope goal.hyps .strict) t T) :
    HasType .erased (k.env.signature henv.closed .erased)
      (Context.scope (goal.values k.env) .erased) t T := by
  refine h.of_isFlat hflat (fun hU => ?_) fun hr hA =>
    (Goal.scope_values hgoal.distinct .erased (hover _ hr) hA).2
  rwa [henv.signature_type? .erased .strict]

/-- **The type of an equation between first-order terms computes to a simple type**, which both
sides have under erasure. -/
lemma WellTyped.equation {ty l r : Term} (hform : goal.isTreeEquation k.env (.eq ty l r))
    (h : HasType .strict (k.env.signature henv.closed .strict) (Context.scope goal.hyps .strict)
      (Term.eq ty l r).nameless sort) :
    ∃ U, U.IsSimple k.env.ctorArity? (Ref.IsAmong (goal.valueVars k.env)) ∧ Conv ty.nameless U ∧
      HasType .erased (k.env.signature henv.closed .erased)
        (Context.scope (goal.values k.env) .erased) l.nameless U ∧
      HasType .erased (k.env.signature henv.closed .erased)
        (Context.scope (goal.values k.env) .erased) r.nameless U := by
  rw [Goal.isTreeEquation, Bool.and_eq_true] at hform
  have hfl := Term.isFirstOrder_nameless hform.1
  have hfr := Term.isFirstOrder_nameless hform.2
  obtain ⟨-, hl, hr⟩ := h.eq_inv
  obtain ⟨U, hU, hconv⟩ := hgoal.simple henv hfl hl
  refine ⟨U, hU, hconv.symm, ?_, ?_⟩
  · exact hgoal.erased henv hfl.isFlat (fun r hr => hfl.of_occurs hr) (hl.conv hconv.symm)
  · exact hgoal.erased henv hfr.isFlat (fun r hr => hfr.of_occurs hr) (hr.conv hconv.symm)

/-- The types of an equation between first-order terms are small. -/
lemma WellTyped.small_equation {t : Term} (hform : goal.isTreeEquation k.env t)
    (h : HasType .strict (k.env.signature henv.closed .strict) (Context.scope goal.hyps .strict)
      t.nameless sort) : t.nameless.Small := by
  cases t with
  | eq ty l r =>
    obtain ⟨U, hU, hconv, -⟩ := hgoal.equation henv hform h
    rw [Goal.isTreeEquation, Bool.and_eq_true] at hform
    have hl := (Term.isFlat_of_isFirstOrder hform.1).toNameless
    have hr := (Term.isFlat_of_isFirstOrder hform.2).toNameless
    exact ⟨.eq U l.nameless r.nameless, ⟨hU.isFlat.sortFree, hl.sortFree, hr.sortFree⟩,
      .eq hconv .rfl .rfl⟩
  | _ => cases hform

/-- **The types of a goal about trees are small.** -/
theorem WellTyped.small (hform : goal.isAboutTrees k.env) : goal.Small := by
  have htyped := hgoal.typed_of_closed henv.closed
  refine ⟨fun b hb => ?_, hgoal.small_equation henv (Bool.and_eq_true_iff.1 hform).2 htyped.target⟩
  rcases Goal.mem_values_or hform hb with hvalue | hequation
  · exact (Term.isFlat_of_isValueType (Goal.isValueType_of_mem hvalue)).toNameless.sortFree.small
  · exact hgoal.small_equation henv hequation (htyped.telescope.typed b hb)

omit henv in
/-- A well typed goal is grounded. -/
lemma WellTyped.grounded : goal.Grounded where
  distinct := hgoal.distinct
  mentions _ hb _ hx := hgoal.arranged.mem_names hb (Term.mem_freeVars_of_mentions hx)
  irreflexive _ hb hself := hgoal.arranged.not_mem_self hb (Term.mem_freeVars_of_mentions hself)
  target_mentions x hx := hgoal.target_mentions x (Term.mem_freeVars_of_mentions hx)

end Typing

/-! ### The model of an assignment -/

/-- The trees that the variables are assigned, seen under erasure. -/
def assignment (env : Environment) (goal : Goal) (σ : Name → Term) : Ref → Nameless
  | .free x => if x ∈ goal.valueVars env then Discipline.erased.view (σ x) else tt
  | .bound _ => tt

variable {σ : Name → Term} {γ : Ref → Nameless}

lemma assignment_of_mem {env : Environment} {x : Name} (hx : x ∈ goal.valueVars env) :
    assignment env goal σ (.free x) = Discipline.erased.view (σ x) :=
  if_pos hx

/-- A flat term over the variables, under their trees. -/
lemma under_eq_eval {env : Environment}
    (hγ : ∀ x ∈ goal.valueVars env, γ (.free x) = Discipline.erased.view (σ x)) {t : Term}
    (ht : t.IsFlat) (hover : t.freeVars ⊆ goal.valueVars env) :
    t.under γ = Discipline.erased.view (t.eval σ) :=
  (Term.view_eval ht fun x hx => hγ x (hover hx)).symm

/-- What computes to a simple type over the variables is that type, under all assignments that agree
on the variables. -/
lemma conv_under {arity? : Name → Option Nat} {vars : List Name} {ty : Term} {U : Nameless}
    (hU : U.IsSimple arity? (Ref.IsAmong vars)) (hconv : Conv ty.nameless U) {γ' : Ref → Nameless}
    (hγ' : ∀ x ∈ vars, γ' (.free x) = γ (.free x)) : Conv (U.subst γ) (ty.under γ') := by
  have hsame : U.subst γ = U.subst γ' := by
    refine subst_congr fun r hr => ?_
    obtain ⟨x, hx, rfl⟩ := hU.of_occurs hr
    exact (hγ' x hx).symm
  have herase := hconv.erase
  rw [hU.isFlat.erase] at herase
  exact hsame ▸ (herase.subst γ').symm

include henv

/-- **The trees that variables are assigned** are closed terms of the types of the variables. -/
lemma models_values (hσ : AssignsTrees k.env goal σ) :
    Models (k.env.signature henv.closed .erased) (goal.values k.env) (assignment k.env goal σ) := by
  have htree : ∀ b ∈ goal.values k.env, Tree k.env (σ b.name) (b.ty.eval σ) := fun b hb =>
    (hσ b (Goal.values_subset hb)).1 (Goal.isValueType_of_mem hb)
  refine ⟨fun r => ?_, fun b hb => ?_⟩
  · rcases r with n | x
    · trivial
    · by_cases hx : x ∈ goal.valueVars k.env
      · obtain ⟨b, hb, rfl⟩ := List.mem_map.1 hx
        have hflat := (htree b hb).isFlat henv
        rw [assignment_of_mem hx, hflat.view]
        exact hflat.toNameless.sortFree
      · rw [assignment, if_neg hx]
        trivial
  · rw [assignment_of_mem (List.mem_map_of_mem hb), under_eq_eval (fun x hx => assignment_of_mem hx)
      (Term.isFlat_of_isValueType (Goal.isValueType_of_mem hb)) (Goal.freeVars_of_mem hb)]
    exact (htree b hb).hasType henv

section Models

variable (hgoal : k.WellTyped IsSort goal) (hform : goal.isAboutTrees k.env)
  (hσ : AssignsTrees k.env goal σ)
include hgoal

/-- The sides of an equation are closed terms of its type, under assignments that model the
variables.  The type is the same whatever is assigned to the other hypotheses. -/
lemma WellTyped.inhabits_sides {ty l r : Term} (hequation : goal.isTreeEquation k.env (.eq ty l r))
    (h : HasType .strict (k.env.signature henv.closed .strict) (Context.scope goal.hyps .strict)
      (Term.eq ty l r).nameless sort)
    (hγ : Models (k.env.signature henv.closed .erased) (goal.values k.env) γ) :
    ∃ A, (∀ γ', (∀ x ∈ goal.valueVars k.env, γ' (.free x) = γ (.free x)) → Conv A (ty.under γ')) ∧
      Inhabits (k.env.signature henv.closed .erased) (l.under γ) A ∧
      Inhabits (k.env.signature henv.closed .erased) (r.under γ) A := by
  obtain ⟨U, hU, hconv, hl, hr⟩ := hgoal.equation henv hequation h
  rw [Goal.isTreeEquation, Bool.and_eq_true] at hequation
  have hfl := Term.isFlat_of_isFirstOrder hequation.1
  have hfr := Term.isFlat_of_isFirstOrder hequation.2
  rw [← hfl.view .erased] at hl
  rw [← hfr.view .erased] at hr
  exact ⟨U.subst γ, fun γ' hγ' => conv_under hU hconv hγ',
    inhabits_under hγ hfl.toNameless.sortFree hl, inhabits_under hγ hfr.toNameless.sortFree hr⟩

include hσ

/-- An equation that holds of the trees has a closed proof, by reflexivity. -/
lemma WellTyped.inhabits_equation {b : Binding} (hb : b ∈ goal.hyps)
    (hequation : goal.isTreeEquation k.env b.ty) :
    ∃ u, ∀ γ', (∀ x ∈ goal.valueVars k.env, γ' (.free x) = assignment k.env goal σ (.free x)) →
      Inhabits (k.env.signature henv.closed .erased) u (b.ty.under γ') := by
  have htyped := (hgoal.typed_of_closed henv.closed).telescope.typed b hb
  have hholds := (hσ b hb).2
  obtain ⟨x, t⟩ := b
  cases t with
  | eq ty l r =>
    obtain ⟨A, hconv, hl, -⟩ := hgoal.inhabits_sides henv hequation htyped (models_values henv hσ)
    rw [Goal.isTreeEquation, Bool.and_eq_true] at hequation
    refine ⟨refl tt (l.under (assignment k.env goal σ)), fun γ' hγ' => ?_⟩
    have hside : ∀ {t : Term}, t.isFirstOrder k.env.ctorArity? (goal.valueVars k.env) 0 →
        t.under γ' = Discipline.erased.view (t.eval σ) := fun ht =>
      under_eq_eval (fun x hx => (hγ' x hx).trans (assignment_of_mem hx))
        (Term.isFlat_of_isFirstOrder ht) (Term.freeVars_of_isFirstOrder ht)
    have hsame : l.under (assignment k.env goal σ) = l.under γ' :=
      Term.under_congr fun x hx =>
        (hγ' x (Term.freeVars_of_isFirstOrder hequation.1 (Term.mem_freeVars_of_mentions hx))).symm
    have hlr : l.under γ' = r.under γ' := by
      rw [hside hequation.1, hside hequation.2]
      exact congrArg _ hholds
    rw [Term.under_eq]
    exact inhabits_refl (hl.conv (hconv γ' hγ')) (hsame ▸ .rfl) (hlr ▸ .rfl)
  | _ => cases hequation

include hform

/-- **Trees model the hypotheses of a goal about trees**, with reflexivity for the equations. -/
theorem WellTyped.models_of_trees :
    ∃ γ, Models (k.env.signature henv.closed .erased) goal.hyps γ ∧
      ∀ x ∈ goal.valueVars k.env, γ (.free x) = Discipline.erased.view (σ x) := by
  let others := goal.hyps.filter fun b => !b.ty.isValueType k.env (goal.dataVars k.env)
  have hcases : ∀ b ∈ goal.hyps, b ∈ goal.values k.env ∨ b ∈ others := by
    intro b hb
    by_cases hvalue : b.ty.isValueType k.env (goal.dataVars k.env)
    · exact .inl (List.mem_filter.2 ⟨hb, hvalue⟩)
    · exact .inr (List.mem_filter.2 ⟨hb, by simpa using hvalue⟩)
  have hothers : ∀ b ∈ others, b ∈ goal.hyps ∧ b ∉ goal.values k.env := by
    intro b hb
    obtain ⟨hb, hother⟩ := List.mem_filter.1 hb
    refine ⟨hb, fun hvalue => ?_⟩
    rw [Goal.isValueType_of_mem hvalue] at hother
    cases hother
  have hnew : ∀ b ∈ others, b.name ∉ Binding.names (goal.values k.env) := by
    intro b hb hname
    obtain ⟨b', hb', hname⟩ := List.mem_map.1 hname
    obtain rfl := hgoal.arranged.eq_of_name (Goal.values_subset hb') (hothers b hb).1 hname
    exact (hothers b' hb).2 hb'
  have hproofs := fun b hb => hgoal.inhabits_equation henv hσ (hothers b hb).1
    ((Goal.mem_values_or hform (hothers b hb).1).resolve_left (hothers b hb).2)
  obtain ⟨γ, hγ, hold⟩ := (models_values henv hσ).extend
    (fun b hb x hx => Goal.freeVars_of_mem hb (Term.mem_freeVars_of_mentions hx))
    (hgoal.distinct.sublist (List.filter_sublist.map _)) hnew hproofs
  refine ⟨γ, hγ.mono fun b hb => List.mem_append.2 (hcases b hb), fun x hx => ?_⟩
  exact (hold x hx).trans (assignment_of_mem hx)

/-- **A valid goal about trees holds under every assignment of trees.** -/
theorem WellTyped.holdsAt_of_valid (hvalid : goal.Valid (k.env.signature henv.closed .erased)) :
    goal.target.HoldsAt σ := by
  obtain ⟨γ, hγ, hvalues⟩ := hgoal.models_of_trees henv hform hσ
  have htarget := (hgoal.typed_of_closed henv.closed).target
  have hequation := (Bool.and_eq_true_iff.1 hform).2
  obtain ⟨hyps, target⟩ := goal
  cases target with
  | eq ty l r =>
    obtain ⟨A, hconv, hl, hr⟩ :=
      hgoal.inhabits_sides henv hequation htarget (hγ.mono Goal.values_subset)
    have hty := hconv γ fun _ _ => rfl
    have hsides := hvalid.conv hγ (hl.conv hty) (hr.conv hty)
    rw [Goal.isTreeEquation, Bool.and_eq_true] at hequation
    have hflat : ∀ {t : Term},
        t.isFirstOrder k.env.ctorArity? (Goal.valueVars k.env ⟨hyps, .eq ty l r⟩) 0 →
        (t.eval σ).IsFlat ∧ t.under γ = (t.eval σ).nameless := by
      intro t ht
      have hvalue : (t.eval σ).IsFlat := by
        refine Term.isFlat_eval (Term.isFlat_of_isFirstOrder ht) fun x hx => ?_
        obtain ⟨b, hb, rfl⟩ := List.mem_map.1 (Term.freeVars_of_isFirstOrder ht hx)
        exact ((hσ b (Goal.values_subset hb)).1 (Goal.isValueType_of_mem hb)).isFlat henv
      refine ⟨hvalue, ?_⟩
      rw [under_eq_eval hvalues (Term.isFlat_of_isFirstOrder ht) (Term.freeVars_of_isFirstOrder ht),
        hvalue.view]
    rw [(hflat hequation.1).2, (hflat hequation.2).2] at hsides
    exact (hflat hequation.2).1.eq_of_conv (hflat hequation.1).1 hsides
  | _ => trivial

end Models

end Kernel

end UniqueEvidence
