/-
The rules are sound.

* `Models.append`, `Models.extend`: closed terms for further hypotheses;
* `Goal.Follows S goal gs`: the goal is valid if the subgoals are, which are grounded too;
* `Kernel.change_follows`, `Kernel.eliminate_follows`, `Kernel.caseAs_follows`, …: **each rule
  leaves subgoals from which its goal follows**;
* `Kernel.apply_follows`: so does each call whose terms do not mention the universe.
-/
import UniqueEvidence.Proofs.Constructors
import UniqueEvidence.Proofs.Truth

namespace UniqueEvidence

open Nameless

variable {S : Signature}

/-! ### Further hypotheses -/

lemma sortFree_assignAll {γ : Ref → Nameless} (hγ : ∀ r, (γ r).SortFree) {bs : List Binding}
    {us : List Nameless} (hus : ∀ u ∈ us, u.SortFree) (r : Ref) :
    (assignAll γ bs us r).SortFree := by
  induction bs generalizing γ us with
  | nil => cases us <;> exact hγ r
  | cons b bs ih =>
    cases us with
    | nil => exact hγ r
    | cons u us =>
      refine ih (fun r => ?_) fun u' hu' => hus u' (List.mem_cons_of_mem _ hu')
      by_cases hr : r = .free b.name
      · rw [hr, assign_self]
        exact hus u List.mem_cons_self
      · rw [assign_of_ne hr]
        exact hγ r

/-- Distinct names get the terms assigned to them. -/
lemma assignAll_of_nodup {γ : Ref → Nameless} {bs : List Binding} {us : List Nameless}
    (hlen : bs.length = us.length) (hnodup : (Binding.names bs).Nodup) :
    List.Forall₂ (fun b u => assignAll γ bs us (.free b.name) = u) bs us := by
  induction bs generalizing γ us with
  | nil =>
    obtain rfl := List.length_eq_zero_iff.1 hlen.symm
    exact .nil
  | cons b bs ih =>
    cases us with
    | nil => cases hlen
    | cons u us =>
      simp only [Binding.names, List.map_cons, List.nodup_cons] at hnodup
      refine .cons ?_ (ih (by simpa using hlen) hnodup.2)
      rw [assignAll, assignAll_of_not_mem hnodup.1, assign_self]

/-- **Closed terms for further hypotheses.** -/
theorem Models.append {hyps bs : List Binding} {γ : Ref → Nameless} {us : List Nameless}
    (hγ : Models S hyps γ) (hmentions : ∀ b ∈ hyps, ∀ x, b.ty.Mentions x → x ∈ Binding.names hyps)
    (hnew : ∀ b ∈ bs, b.name ∉ Binding.names hyps) (hus : ∀ u ∈ us, u.SortFree)
    (htyped : List.Forall₂ (fun b u => assignAll γ bs us (.free b.name) = u ∧
      HasType .erased S Scope.empty u (b.ty.under (assignAll γ bs us))) bs us) :
    Models S (hyps ++ bs) (assignAll γ bs us) := by
  have hold : ∀ x ∈ Binding.names hyps, assignAll γ bs us (.free x) = γ (.free x) := by
    intro x hx
    refine assignAll_of_not_mem fun hmem => ?_
    obtain ⟨b, hb, rfl⟩ := List.mem_map.1 hmem
    exact hnew b hb hx
  refine ⟨sortFree_assignAll hγ.sortFree hus, fun b hb => ?_⟩
  rcases List.mem_append.1 hb with hb | hb
  · rw [hold b.name (List.mem_map_of_mem hb),
      Term.under_congr fun x hx => hold x (hmentions b hb x hx)]
    exact hγ.typed b hb
  · obtain ⟨u, -, hu, hty⟩ := Kernel.exists_of_forall₂ htyped hb
    exact hu ▸ hty

/-- **Further hypotheses**, each with a closed term of its type whatever the others are assigned. -/
theorem Models.extend {hyps bs : List Binding} {γ : Ref → Nameless} (hγ : Models S hyps γ)
    (hmentions : ∀ b ∈ hyps, ∀ x, b.ty.Mentions x → x ∈ Binding.names hyps)
    (hnodup : (Binding.names bs).Nodup) (hnew : ∀ b ∈ bs, b.name ∉ Binding.names hyps)
    (hinhabited : ∀ b ∈ bs, ∃ u, ∀ γ', (∀ x ∈ Binding.names hyps, γ' (.free x) = γ (.free x)) →
      Inhabits S u (b.ty.under γ')) :
    ∃ γ', Models S (hyps ++ bs) γ' ∧ ∀ x ∈ Binding.names hyps, γ' (.free x) = γ (.free x) := by
  have : Nonempty Nameless := ⟨tt⟩
  choose! u hu using hinhabited
  have hold : ∀ x ∈ Binding.names hyps, assignAll γ bs (bs.map u) (.free x) = γ (.free x) := by
    intro x hx
    refine assignAll_of_not_mem fun hmem => ?_
    obtain ⟨b, hb, rfl⟩ := List.mem_map.1 hmem
    exact hnew b hb hx
  refine ⟨assignAll γ bs (bs.map u),
    hγ.append hmentions hnew (by simpa using fun b hb => (hu b hb _ hold).sortFree) ?_, hold⟩
  have hvalues := assignAll_of_nodup (γ := γ) (bs.length_map u).symm hnodup
  rw [List.forall₂_map_right_iff, List.forall₂_same] at hvalues ⊢
  exact fun b hb => ⟨hvalues b hb, (hu b hb _ hold).hasType⟩

lemma Models.mono {hyps hyps' : List Binding} {γ : Ref → Nameless} (hγ : Models S hyps γ)
    (hsub : ∀ b ∈ hyps', b ∈ hyps) : Models S hyps' γ :=
  ⟨hγ.sortFree, fun b hb => hγ.typed b (hsub b hb)⟩

/-! ### Subgoals from which a goal follows -/

/-- The goal is valid if the subgoals are, which are grounded. -/
structure Goal.Follows (S : Signature) (goal : Goal) (gs : List Goal) : Prop where
  grounded : ∀ g ∈ gs, g.Grounded
  valid : (∀ g ∈ gs, g.Valid S) → goal.Valid S

namespace Goal.Grounded

variable {goal : Goal} {k : Kernel} {t : Term} {x : Name} {e : Equation} {γ : Ref → Nameless}

lemma context_eq (h : goal.Grounded) : goal.context = goal.hyps :=
  keepLast_of_nodup h.distinct

lemma withTarget (h : goal.Grounded) (hmentions : ∀ x, t.Mentions x → x ∈ goal.names) :
    (goal.withTarget t).Grounded :=
  ⟨h.distinct, h.mentions, h.irreflexive, hmentions⟩

/-- A goal with further hypotheses and another target. -/
lemma append (h : goal.Grounded) {bs : List Binding} (hnodup : (Binding.names bs).Nodup)
    (hnew : ∀ b ∈ bs, b.name ∉ goal.names)
    (hmentions : ∀ b ∈ bs, ∀ x, b.ty.Mentions x → x ∈ goal.names ∨ x ∈ Binding.names bs)
    (hirreflexive : ∀ b ∈ bs, ¬ b.ty.Mentions b.name)
    (htmentions : ∀ x, t.Mentions x → x ∈ goal.names ∨ x ∈ Binding.names bs) :
    Goal.Grounded ⟨goal.hyps ++ bs, t⟩ := by
  have hnames : ∀ x, x ∈ Goal.names ⟨goal.hyps ++ bs, t⟩ ↔ x ∈ goal.names ∨
      x ∈ Binding.names bs := by
    simp [Goal.names, Binding.names]
  refine ⟨?_, fun b hb x hx => (hnames x).2 ?_, fun b hb => ?_,
    fun x hx => (hnames x).2 (htmentions x hx)⟩
  · rw [Goal.names, Binding.names, List.map_append, List.nodup_append]
    refine ⟨h.distinct, hnodup, ?_⟩
    rintro x hx y hy rfl
    obtain ⟨b, hb, rfl⟩ := List.mem_map.1 hy
    exact hnew b hb hx
  · exact (List.mem_append.1 hb).elim (fun hb => .inl (h.mentions b hb x hx)) fun hb =>
      hmentions b hb x hx
  · exact (List.mem_append.1 hb).elim (h.irreflexive b) (hirreflexive b)

/-- A goal without a hypothesis that no other mentions. -/
lemma without (h : goal.Grounded) (hx : ∀ b ∈ goal.hyps, b.name ≠ x → x ∉ b.ty.freeVars)
    (htmentions : ∀ y, t.Mentions y → y ∈ goal.names ∧ y ≠ x) :
    Goal.Grounded ⟨Kernel.without goal x, t⟩ := by
  have hkept : ∀ b, b ∈ Kernel.without goal x ↔ b ∈ goal.hyps ∧
    b.name ≠ x := by simp [Kernel.without]
  have hnames : ∀ y ∈ goal.names, y ≠ x → y ∈ Goal.names ⟨Kernel.without goal x, t⟩ := by
    intro y hy hne
    obtain ⟨b, hb, rfl⟩ := List.mem_map.1 hy
    exact List.mem_map_of_mem ((hkept b).2 ⟨hb, hne⟩)
  refine ⟨?_, fun b hb y hy => ?_, fun b hb => h.irreflexive b ((hkept b).1 hb).1,
    fun y hy => hnames y (htmentions y hy).1 (htmentions y hy).2⟩
  · exact h.distinct.sublist (List.filter_sublist.map _)
  · obtain ⟨hb, hne⟩ := (hkept b).1 hb
    refine hnames y (h.mentions b hb y hy) fun hyx => hx b hb hne ?_
    exact hyx ▸ Term.mem_freeVars_of_mentions hy

/-- The equation of a hypothesis, which mentions no more than the hypothesis and means the same. -/
lemma equation (h : goal.Grounded) (he : k.equation goal x = .ok e) :
    ∃ ty, ⟨x, ty⟩ ∈ goal.hyps ∧ (∀ y, e.toTerm.Mentions y → y ∈ goal.names ∧ y ≠ x) ∧
      ∀ γ, Conv (ty.under γ) (eq (e.ty.under γ) (e.lhs.under γ) (e.rhs.under γ)) := by
  obtain ⟨ty, hty, hnormal⟩ := Kernel.equation_eq_ok he
  have hmem : (⟨x, ty⟩ : Binding) ∈ goal.hyps := Context.mem_of_lookup? hty
  have hred := Kernel.normalize_spec hnormal
  refine ⟨ty, hmem, fun y hy => ?_, fun γ => ?_⟩
  · have hy' : ty.Mentions y := (Discipline.view_reduces hred.1).occurs hy
    exact ⟨h.mentions _ hmem y hy', fun hyx => h.irreflexive _ hmem (hyx ▸ hy')⟩
  · rw [← Term.under_eq]
    exact Term.under_conv (Conv.of_reduces hred.1) γ

end Goal.Grounded

lemma Goal.follows_withTarget {goal : Goal} {t : Term} (hself : (goal.withTarget t).Grounded)
    (hvalid : ∀ γ, Models S goal.hyps γ → Proper S (goal.target.under γ) →
      Proper S (t.under γ) ∧ (Holds S (t.under γ) → Holds S (goal.target.under γ))) :
    goal.Follows S [goal.withTarget t] := by
  refine ⟨fun g hg => List.mem_singleton.1 hg ▸ hself, fun hsub γ hγ hproper => ?_⟩
  obtain ⟨hproper', hholds⟩ := hvalid γ hγ hproper
  exact hholds (hsub _ (List.mem_singleton_self _) γ hγ hproper')

/-! ### Deciders -/

/-- The facts are for the unit type or compare literally, and the only rule is that for pairs. -/
structure Registry.Plain (r : Registry) : Prop where
  facts : ∀ p ∈ r.facts, p.1 = .unit ∨ p.2.decides = Term.alphaEq
  rules : r.rules = [.pairs]

namespace Registry.Plain

variable {r : Registry} {key : Term} {d : Decider}

/-- The unit type has a decider, and so have types whose values are compared literally or by
components. -/
lemma find?_eq_some (hr : r.Plain) (h : r.find? key = some d) :
    (key = .unit ∨ d.decides = Term.alphaEq) ∨
      ∃ a b left right, key = .prod a b ∧ r.find? a = some left ∧ r.find? b = some right ∧
        d = .both left right := by
  rcases find?_cases h with h | ⟨-, ⟨decider?, hrule, -⟩ | h⟩
  · exact .inl (hr.facts _ (mem_of_fact? h))
  · simp [hr.rules] at hrule
  · exact .inr h

/-- **Values of a type that its decider finds equal are convertible.** -/
theorem conv_of_decides (hr : r.Plain) (hS : S.Telescopic) (h : r.find? key = some d)
    {γ : Ref → Nameless} {l l' : Term} {u u' : Nameless} (hu : Inhabits S u (key.under γ))
    (hul : Conv u (l.under γ)) (hu' : Inhabits S u' (key.under γ)) (hul' : Conv u' (l'.under γ))
    (hdecides : d.decides l l' = true) : Conv (l.under γ) (l'.under γ) := by
  induction key generalizing d l l' u u' with
  | prod a b iha ihb =>
    rcases hr.find?_eq_some h with (hunit | halpha) | ⟨a', b', left, right, heq, hleft, hright, rfl⟩
    · cases hunit
    · rw [halpha, Term.alphaEq_iff] at hdecides
      exact Term.under_conv (hdecides ▸ .rfl) γ
    · obtain ⟨rfl, rfl⟩ : a = a' ∧ b = b' := by simpa using heq
      simp only [Decider.both] at hdecides
      split at hdecides
      · rename_i l₁ l₂ l₁' l₂'
        rw [Bool.and_eq_true] at hdecides
        rw [Term.under_prod] at hu hu'
        rw [Term.under_pair] at hul hul' ⊢
        obtain ⟨v₁, v₂, hv, hv₁, hv₂⟩ := hu.of_prod hS .rfl
        obtain ⟨v₁', v₂', hv', hv₁', hv₂'⟩ := hu'.of_prod hS .rfl
        obtain ⟨h₁, h₂⟩ := (hv.symm.trans hul).pair_inj
        obtain ⟨h₁', h₂'⟩ := (hv'.symm.trans hul').pair_inj
        exact .pair (iha hleft hv₁ h₁ hv₁' h₁' hdecides.1) (ihb hright hv₂ h₂ hv₂' h₂' hdecides.2)
      · cases hdecides
  | _ =>
    rcases hr.find?_eq_some h with (hunit | halpha) | ⟨a', b', left, right, heq, -⟩
    · rw [hunit] at hu hu'
      have hunit' : (Term.unit).under γ = .unit := by simp [Term.under, Nameless.subst]
      rw [hunit'] at hu hu'
      exact hul.symm.trans ((hu.of_unit hS .rfl).trans ((hu'.of_unit hS .rfl).symm.trans hul'))
    · rw [halpha, Term.alphaEq_iff] at hdecides
      exact Term.under_conv (hdecides ▸ .rfl) γ
    · cases heq

end Registry.Plain

namespace Kernel

variable {k : Kernel} {goal : Goal} {gs : List Goal} {x y : Name} {t u : Term}

/-! ### Normal forms and inference under an assignment -/

lemma normalize_under (h : k.normalize t = .ok u) (γ : Ref → Nameless) :
    Conv (t.under γ) (u.under γ) :=
  Term.under_conv (Conv.of_reduces (normalize_spec h).1) γ

lemma normalize_mentions (h : k.normalize t = .ok u) (hx : u.Mentions x) : t.Mentions x :=
  (Discipline.view_reduces (normalize_spec h).1).occurs hx

lemma convertible_under {a b : Term} (h : k.convertible a b = .ok true) (γ : Ref → Nameless) :
    Conv (a.under γ) (b.under γ) :=
  Term.under_conv ((convertible_iff h).1 rfl) γ

section Inference

variable (henv : k.env.Plain) (hgoal : goal.Grounded)
include hgoal

lemma expectType_erased (ht : t.nameless.SortFree) (h : k.expectType goal.context t = .ok ()) :
    HasType .erased (k.env.signature henv.closed .erased) (Context.scope goal.hyps .erased)
      (Discipline.erased.view t) sort := by
  rw [hgoal.context_eq] at h
  exact Sound.expectType (inferAt_sound k henv.closed .erased k.depth) hgoal.mentions ht h

lemma check_erased {ty : Term} (ht : t.nameless.SortFree) (h : k.check goal.context t ty = .ok ()) :
    HasType .erased (k.env.signature henv.closed .erased) (Context.scope goal.hyps .erased)
      (Discipline.erased.view t)
      (Discipline.erased.view ty) := by
  rw [hgoal.context_eq] at h
  exact Sound.check (inferAt_sound k henv.closed .erased k.depth) hgoal.mentions ht h

lemma infer_erased {ty : Term} (ht : t.nameless.SortFree) (h : k.infer goal.context t = .ok ty) :
    HasType .erased (k.env.signature henv.closed .erased) (Context.scope goal.hyps .erased)
      (Discipline.erased.view t)
      (Discipline.erased.view ty) := by
  rw [hgoal.context_eq] at h
  exact inferAt_sound k henv.closed .erased k.depth hgoal.mentions ht h

end Inference

/-- The names of a typed term are hypotheses. -/
lemma mem_names_of_mentions {hyps : List Binding} {T : Nameless}
    (h : HasType .erased S (Context.scope hyps .erased) (Discipline.erased.view t) T)
    (hx : t.Mentions x) : x ∈ Binding.names hyps := by
  obtain ⟨A, hA⟩ := Option.isSome_iff_exists.1 (h.isSome_of_occurs hx)
  obtain ⟨b, hb, hname, -⟩ := Context.exists_of_scope hA
  obtain rfl : x = b.name := by simpa using hname
  exact List.mem_map_of_mem hb

/-- A typed term is closed under an assignment. -/
lemma inhabits_under {hyps : List Binding} {γ : Ref → Nameless} (hγ : Models S hyps γ)
    (ht : t.nameless.SortFree) {T : Nameless}
    (h : HasType .erased S (Context.scope hyps .erased) (Discipline.erased.view t) T) :
    Inhabits S (t.under γ) (T.subst γ) := by
  refine ⟨(Discipline.view_sortFree ht).subst fun r _ => hγ.sortFree r,
    h.subst (fun r A _ hA => ?_) fun r _ => hγ.sortFree r⟩
  obtain ⟨b, hb, rfl, rfl⟩ := Context.exists_of_scope hA
  exact hγ.typed b hb

/-! ### Arguments of constructors -/

section Arguments

variable (henv : k.env.Plain)

/-- The arguments of a closed application of a constant are closed terms of the declared types, if
those are closed. -/
lemma inhabits_argument {c : Name} {bs : List Binding} {R : Term}
    (hdeclared : k.env.constType? c = some (.pis bs R)) (hclosed : ∀ b ∈ bs, b.ty.freeVars = [])
    (hhead : t.head = .const c) (hlen : t.args.length = bs.length) {γ : Ref → Nameless}
    {w T : Nameless} (hw : Inhabits (k.env.signature henv.closed .erased) w T)
    (hconv : Conv w (t.under γ)) {ty a : Term} (hmem : (ty, a) ∈ (bs.map Binding.ty).zip t.args) :
    ∃ v, Inhabits (k.env.signature henv.closed .erased) v (ty.under γ) ∧ Conv v (a.under γ) := by
  rw [Term.under_of_head hhead] at hconv
  obtain ⟨w', hww', hargs⟩ := hconv
  obtain ⟨us, rfl, hus⟩ := hargs.apps_const
  have happs := hw.reduces hww'
  have hlen' : us.length = bs.length := by
    rw [← hus.length_eq, List.length_map, hlen]
  have htyped := happs.hasType.args_of_closed (congrArg (Option.map _) hdeclared) hclosed hlen'
  obtain ⟨i, hi, heq⟩ := List.mem_iff_getElem.1 hmem
  simp only [List.length_zip, List.length_map] at hi
  simp only [List.getElem_zip, List.getElem_map, Prod.mk.injEq] at heq
  obtain ⟨rfl, rfl⟩ := heq
  have hty := (List.forall₂_iff_get.1 htyped).2 i (by omega) (by omega)
  have hred := (List.forall₂_iff_get.1 hus).2 i (by simp; omega) (by omega)
  simp only [List.get_eq_getElem, List.getElem_map] at hty hred
  refine ⟨us[i], ⟨(sortFree_apps.1 happs.sortFree).2 _ (List.getElem_mem _), ?_⟩,
    (Conv.of_reduces hred).symm⟩
  rw [Term.under, subst_of_closed (closed_view (hclosed _ (List.getElem_mem _)))]
  exact hty

end Arguments

/-- A reflexivity proof of an equation with convertible sides. -/
lemma inhabits_refl {A l r a : Nameless} (ha : Inhabits S a A) (hal : Conv a l) (hlr : Conv l r) :
    Inhabits S (refl tt a) (eq A l r) :=
  ⟨⟨trivial, ha.sortFree⟩, .same rfl ha.hasType (.eq .rfl hal (hal.trans hlr))⟩

/-- An equation between arguments of two applications mentions no more than they do. -/
lemma mentions_of_argument {e : Equation} {ty l r : Term} (hclosed : ty.freeVars = [])
    (hzip : (l, r) ∈ e.lhs.args.zip e.rhs.args) {y : Name} (hy : (Term.eq ty l r).Mentions y) :
    e.toTerm.Mentions y := by
  obtain ⟨hmeml, hmemr⟩ := List.of_mem_zip hzip
  rw [Term.Mentions, Discipline.view_eq] at hy
  rw [Equation.toTerm, Term.Mentions, Discipline.view_eq]
  rcases hy with hy | hy | hy
  · have hy' := Term.mem_freeVars_of_mentions hy
    rw [hclosed] at hy'
    cases hy'
  · exact .inr (.inl (Term.mentions_of_mem_args hmeml hy))
  · exact .inr (.inr (Term.mentions_of_mem_args hmemr hy))

/-- **The equations between components have proofs** if the equation has one. -/
lemma Splits.inhabited (henv : k.env.Plain) {e : Equation} {parts : List Term}
    (h : Splits k.env e parts) {γ : Ref → Nameless} {p : Nameless}
    (hp : Inhabits (k.env.signature henv.closed .erased) p
      (eq (e.ty.under γ) (e.lhs.under γ) (e.rhs.under γ))) {part : Term} (hpart : part ∈ parts) :
    ∃ q, Inhabits (k.env.signature henv.closed .erased) q (part.under γ) := by
  obtain ⟨hends, a, -, ha, hval⟩ := hp.of_eq henv.telescopic .rfl
  cases h with
  | @pairs A₁ A₂ l₁ l₂ r₁ r₂ heq =>
    subst heq
    simp only [Term.under_prod, Term.under_pair] at hends ha hval
    obtain ⟨hends₁, hends₂⟩ := hends.pair_inj
    obtain ⟨_, hared, hpair⟩ := ha
    obtain ⟨a₁, a₂, rfl, ha₁, ha₂⟩ := inert_pair.reduces hpair
    have hval' := hval.reduces hared
    obtain ⟨hval₁, hval₂⟩ := hval'.hasType.pair_inv
    have hcases : part = .eq A₁ l₁ r₁ ∨ part = .eq A₂ l₂ r₂ := by simpa using hpart
    rcases hcases with rfl | rfl
    · rw [Term.under_eq]
      exact ⟨_, inhabits_refl ⟨hval'.sortFree.1, hval₁⟩ (Conv.of_reduces ha₁).symm hends₁⟩
    · rw [Term.under_eq]
      exact ⟨_, inhabits_refl ⟨hval'.sortFree.2, hval₂⟩ (Conv.of_reduces ha₂).symm hends₂⟩
  | @ctor c d ctor hl hr hctor hllen hrlen =>
    have hdeclared := Environment.constType?_of_dataCtor? hctor
    obtain ⟨hd, hmem, -⟩ := Environment.mem_of_dataCtor? hctor
    rw [arrows_eq_pis] at hdeclared
    obtain ⟨⟨ty, l, r⟩, hzip, rfl⟩ : ∃ p ∈ ctor.argTypes.zip (e.lhs.args.zip e.rhs.args),
        Term.eq p.1 p.2.1 p.2.2 = part := by
      rw [← List.map_uncurry_zip_eq_zipWith] at hpart
      exact List.mem_map.1 hpart
    obtain ⟨hzl, -⟩ := mem_zip_zip hzip
    have hlr : Conv (l.under γ) (r.under γ) := by
      rw [Term.under_of_head hl, Term.under_of_head hr] at hends
      have hargs := hends.apps_const_inj.2
      rw [List.forall₂_map_left_iff, List.forall₂_map_right_iff] at hargs
      exact (List.forall₂_iff_zip.1 hargs).2 (List.of_mem_zip hzip).2
    obtain ⟨v, hv, hvl⟩ := inhabits_argument henv hdeclared
      (by simpa using henv.closed_args d hd ctor hmem) hl
      (by simpa [DataCtor.arity] using hllen) hval ha
      (by simpa [Function.comp_def] using hzl)
    rw [Term.under_eq]
    exact ⟨_, inhabits_refl hv hvl hlr⟩

/-! ### Changing the target -/

section Rules

variable (henv : k.env.Plain) (hgoal : goal.Grounded)
include hgoal

lemma change_follows (ht : t.nameless.SortFree) (h : k.change goal t = .ok gs) :
    goal.Follows (k.env.signature henv.closed .erased) gs := by
  obtain ⟨hty, hconv, rfl⟩ := change_eq_ok h
  have htyped := expectType_erased henv hgoal ht hty
  refine Goal.follows_withTarget (hgoal.withTarget fun x hx => mem_names_of_mentions htyped hx)
    fun γ _ hproper => ?_
  have hsame := convertible_under hconv γ
  exact ⟨hproper.conv hsame.symm, fun hholds => hholds.conv hsame⟩

lemma symmetry_follows (h : k.symmetry goal = .ok gs) : goal.Follows S gs := by
  obtain ⟨e, he, rfl⟩ := symmetry_eq_ok h
  have hnormal := targetEquation_eq_ok he
  refine Goal.follows_withTarget (hgoal.withTarget fun x hx => ?_) fun γ _ hproper => ?_
  · refine hgoal.target_mentions x (normalize_mentions hnormal ?_)
    simp only [Term.Mentions, Equation.toTerm, Equation.swap, Discipline.view_eq,
      Nameless.Occurs] at hx ⊢
    tauto
  · have hsame := normalize_under hnormal γ
    rw [Equation.toTerm, Term.under_eq] at hsame
    obtain ⟨⟨u, hu, hul⟩, v, hv, hvr⟩ := (hproper.conv hsame.symm).of_eq
    rw [Equation.toTerm, Equation.swap, Term.under_eq]
    exact ⟨proper_eq hv hvr hu hul, fun hholds => (holds_eq hholds.of_eq.symm).conv hsame⟩

lemma generalize_follows {w : Term} (ht : t.nameless.SortFree) (hw : w.nameless.SortFree)
    (h : k.generalize goal t w = .ok gs) :
    goal.Follows (k.env.signature henv.closed .erased) gs := by
  obtain ⟨z, dom, cod, hty, hnormal, hcheck, hconv, rfl⟩ := generalize_eq_ok h
  have htyped := expectType_erased henv hgoal ht hty
  refine Goal.follows_withTarget (hgoal.withTarget fun x hx => mem_names_of_mentions htyped hx)
    fun γ hγ _ => ?_
  refine ⟨proper_of_type (inhabits_under hγ ht htyped), fun hholds => ?_⟩
  have hpi := normalize_under hnormal γ
  rw [Term.under_pi] at hpi
  have hinst :=
    (hholds.conv hpi.symm).inst (inhabits_under hγ hw (check_erased henv hgoal hw hcheck))
  rw [Term.under_instance] at hinst
  exact hinst.conv (convertible_under hconv γ).symm

lemma intro_follows (h : k.intro goal x = .ok gs) : goal.Follows S gs := by
  obtain ⟨z, dom, cod, hnormal, hx, rfl⟩ := intro_eq_ok h
  have hmentions : ∀ y, (Term.pi z dom cod).Mentions y → y ∈ goal.names :=
    fun y hy => hgoal.target_mentions y (normalize_mentions hnormal hy)
  have hdomain : ∀ y, dom.Mentions y → y ∈ goal.names :=
    fun y hy => hmentions y (Term.mentions_pi.2 (.inl hy))
  refine ⟨fun g hg => ?_, fun hsub γ hγ hproper => ?_⟩
  · obtain rfl := List.mem_singleton.1 hg
    refine hgoal.append (List.nodup_singleton x) (by simpa using hx) (fun b hb y hy => ?_)
      (fun b hb hself => ?_) fun y hy => ?_
    · obtain rfl := List.mem_singleton.1 hb
      exact .inl (hdomain y hy)
    · obtain rfl := List.mem_singleton.1 hb
      exact hx (hdomain x hself)
    · rcases Term.mentions_subst hy with ⟨hy, hyz⟩ | hy
      · exact .inl (hmentions y (Term.mentions_pi.2 (.inr ⟨hy, hyz⟩)))
      · refine .inr ?_
        obtain rfl : x = y := by simpa [Term.Mentions, Nameless.Occurs] using hy
        exact List.mem_singleton_self _
  · have hpi := normalize_under hnormal γ
    -- the new name is not mentioned yet, so a closed term may be assigned to it
    have hunchanged : ∀ a, (Term.pi z dom cod).under γ =
        (Term.pi z dom cod).under (assign γ x a) := by
      intro a
      refine Term.under_congr fun y hy => (assign_of_ne fun hyx => hx ?_).symm
      obtain rfl : y = x := by simpa using hyx
      exact hmentions y hy
    rw [Term.under_pi] at hpi
    have hinst : ∀ a, (((Discipline.erased.view cod).rename (Ref.capture z)).subst (up γ)).inst a =
        (cod.subst z (.var x)).under (assign γ x a) := by
      intro a
      have hparts := hunchanged a
      rw [Term.under_pi, Term.under_pi, Nameless.pi.injEq] at hparts
      rw [hparts.2, ← Term.under_instance, Term.under_var, assign_self]
    refine (AtEquations.pi_intro fun a ha => ?_).conv hpi
    have hproper' := (hproper.conv hpi.symm).inst ha
    rw [hinst] at hproper' ⊢
    have hmodels : Models S (goal.hyps ++ [⟨x, dom⟩]) (assignAll γ [⟨x, dom⟩] [a]) := by
      refine hγ.append hgoal.mentions (by simpa [Goal.names] using hx)
        (by simpa using ha.sortFree) (.cons ⟨?_, ?_⟩ .nil)
      · exact assign_self ..
      · have hparts := hunchanged a
        rw [Term.under_pi, Term.under_pi, Nameless.pi.injEq] at hparts
        exact hparts.1 ▸ ha.hasType
    exact hsub _ (List.mem_singleton_self _) _ hmodels hproper'

lemma clear_follows (h : clear goal x = .ok gs) : goal.Follows S gs := by
  obtain ⟨htarget, hhyps, rfl⟩ := clear_eq_ok h
  refine ⟨fun g hg => ?_, fun hsub γ hγ hproper => ?_⟩
  · obtain rfl := List.mem_singleton.1 hg
    refine hgoal.without hhyps fun y hy => ⟨hgoal.target_mentions y hy, fun hyx => htarget ?_⟩
    exact hyx ▸ Term.mem_freeVars_of_mentions hy
  · exact hsub _ (List.mem_singleton_self _) γ
      (hγ.mono fun b hb => (List.mem_filter.1 hb).1) hproper

/-! ### Using an equation -/

lemma discriminate_follows (hS : S.Telescopic) (h : k.discriminate goal x = .ok gs) :
    goal.Follows S gs := by
  obtain ⟨e, c, d, he, hc, hd, hne, rfl⟩ := discriminate_eq_ok h
  obtain ⟨ty, hmem, -, hsame⟩ := hgoal.equation he
  refine ⟨nofun, fun _ γ hγ _ => ?_⟩
  obtain ⟨hends, -⟩ := (hγ.inhabits hmem).of_eq hS (hsame γ)
  rw [Term.under_of_head hc, Term.under_of_head hd] at hends
  exact absurd hends.apps_const_inj.1 hne

lemma uip_follows (hS : S.Telescopic) (h : k.uip goal x = .ok gs) : goal.Follows S gs := by
  obtain ⟨e, -, he, -, -, hhyps, rfl⟩ := uip_eq_ok h
  obtain ⟨ty, hmem, hmentions, hsame⟩ := hgoal.equation he
  refine ⟨fun g hg => ?_, fun hsub γ hγ hproper => ?_⟩
  · obtain rfl := List.mem_singleton.1 hg
    refine hgoal.without hhyps fun y hy => ?_
    rcases Term.mentions_subst hy with ⟨hy, hyx⟩ | hy
    · exact ⟨hgoal.target_mentions y hy, hyx⟩
    · refine hmentions y ?_
      simp only [Term.Mentions, Equation.toTerm, Discipline.view_eq, Discipline.erased_view_refl,
        Nameless.Occurs] at hy ⊢
      tauto
  · obtain ⟨-, a, hrefl, ha, -⟩ := (hγ.inhabits hmem).of_eq hS (hsame γ)
    have htarget : Conv ((goal.target.subst x (.refl e.ty e.lhs)).under γ)
        (goal.target.under γ) := by
      refine Term.under_subst ?_
      rw [Term.under_refl]
      exact hrefl.trans (.refl .rfl ha)
    refine (hsub _ (List.mem_singleton_self _) γ (hγ.mono fun b hb => (List.mem_filter.1 hb).1)
      ?_).conv htarget.symm
    exact hproper.conv htarget

omit hgoal in
/-- The components mention no more than the equation. -/
lemma Splits.mentions (henv : k.env.Plain) {e : Equation} {parts : List Term}
    (h : Splits k.env e parts) {part : Term} (hpart : part ∈ parts) {y : Name}
    (hy : part.Mentions y) : e.toTerm.Mentions y := by
  cases h with
  | @pairs A₁ A₂ l₁ l₂ r₁ r₂ heq =>
    subst heq
    have hcases : part = .eq A₁ l₁ r₁ ∨ part = .eq A₂ l₂ r₂ := by simpa using hpart
    simp only [Term.Mentions, Equation.toTerm, Discipline.view_eq, Discipline.view_prod,
      Discipline.view_pair, Nameless.Occurs]
    rcases hcases with rfl | rfl
    · simp only [Term.Mentions, Discipline.view_eq, Nameless.Occurs] at hy
      tauto
    · simp only [Term.Mentions, Discipline.view_eq, Nameless.Occurs] at hy
      tauto
  | @ctor c d ctor hl hr hctor hllen hrlen =>
    obtain ⟨hd, hmem, -⟩ := Environment.mem_of_dataCtor? hctor
    obtain ⟨⟨ty, l, r⟩, hzip, rfl⟩ : ∃ p ∈ ctor.argTypes.zip (e.lhs.args.zip e.rhs.args),
        Term.eq p.1 p.2.1 p.2.2 = part := by
      rw [← List.map_uncurry_zip_eq_zipWith] at hpart
      exact List.mem_map.1 hpart
    exact mentions_of_argument (henv.closed_args d hd ctor hmem ty (List.of_mem_zip hzip).1)
      (List.of_mem_zip hzip).2 hy

lemma injectionAs_follows {names : List Name} {shown : Argument}
    (h : k.injectionAs goal x names shown = .ok gs) :
    goal.Follows (k.env.signature henv.closed .erased) gs := by
  obtain ⟨e, parts, he, hsplits, hlen, hnodup, hnew, rfl⟩ := injectionAs_eq_ok h
  obtain ⟨ty, hmem, hmentions, hsame⟩ := hgoal.equation he
  set bs := List.zipWith Binding.mk names parts with hbs
  have hnames : Binding.names bs = names := by
    rw [hbs, ← List.map_uncurry_zip_eq_zipWith, Binding.names, List.map_map]
    exact List.map_fst_zip (Nat.le_of_eq hlen)
  have hparts : ∀ b ∈ bs, b.ty ∈ parts := fun b hb => (mem_of_zipWith hb).2
  have hnew' : ∀ b ∈ bs, b.name ∉ goal.names := by
    intro b hb
    refine hnew b.name ?_
    rw [← hnames]
    exact List.mem_map_of_mem hb
  refine ⟨fun g hg => ?_, fun hsub γ hγ hproper => ?_⟩
  · obtain rfl := List.mem_singleton.1 hg
    refine hgoal.append (hnames ▸ hnodup) hnew'
      (fun b hb y hy => .inl (hmentions y (hsplits.mentions henv (hparts b hb) hy)).1)
        (fun b hb hself => ?_)
      fun y hy => .inl (hgoal.target_mentions y hy)
    exact hnew' b hb (hmentions _ (hsplits.mentions henv (hparts b hb) hself)).1
  · have hp := (hγ.inhabits hmem).conv (hsame γ)
    obtain ⟨γ', hγ', hold⟩ := hγ.extend hgoal.mentions (hnames ▸ hnodup) hnew' fun b hb => by
      obtain ⟨u, hu⟩ := hsplits.inhabited henv hp (hparts b hb)
      refine ⟨u, fun γ' hold => ?_⟩
      rwa [Term.under_congr fun y hy =>
        hold y (hmentions y (hsplits.mentions henv (hparts b hb) hy)).1]
    have hsame' : goal.target.under γ' = goal.target.under γ :=
      Term.under_congr fun y hy => hold y (hgoal.target_mentions y hy)
    rw [← hsame'] at hproper ⊢
    exact hsub _ (List.mem_singleton_self _) _ hγ' hproper

lemma eliminate_follows (hS : S.Telescopic) (h : k.eliminate goal x y = .ok gs) :
    goal.Follows S gs := by
  obtain ⟨e, v, hyps, he, hsolved, hyx, -, hyv, hxtarget, hxhyps, hreorder, rfl⟩ :=
    eliminate_eq_ok h
  obtain ⟨ty, hmem, hmentions, hsame⟩ := hgoal.equation he
  obtain ⟨hperm, hready⟩ := reorder_spec hreorder
  set pending := (goal.hyps.filter fun b => b.name != y && b.name != x).map fun b =>
    { b with ty := b.ty.subst y v } with hpending
  have hkept : ∀ b, b ∈ hyps ↔ ∃ b' ∈ goal.hyps, b'.name ≠ y ∧ b'.name ≠ x ∧
      ⟨b'.name, b'.ty.subst y v⟩ = b := by
    intro b
    rw [hperm.mem_iff, hpending]
    simp [and_assoc]
  have hvmentions : ∀ z, v.Mentions z → z ∈ goal.names ∧ z ≠ x ∧ z ≠ y := by
    intro z hz
    have hside : e.toTerm.Mentions z := by
      simp only [Term.Mentions, Equation.toTerm, Discipline.view_eq, Nameless.Occurs] at hz ⊢
      rcases solvedFor_eq_some hsolved with ⟨-, rfl⟩ | ⟨-, rfl⟩ <;> tauto
    exact ⟨(hmentions z hside).1, (hmentions z hside).2,
      fun hzy => hyv (hzy ▸ Term.mem_freeVars_of_mentions hz)⟩
  have hnames : ∀ t : Term, x ∉ t.freeVars → (∀ z, t.Mentions z → z ∈ goal.names) →
      ∀ z, (t.subst y v).Mentions z → z ∈ Binding.names hyps := by
    intro t hxt ht z hz
    obtain ⟨hz, hzx, hzy⟩ : z ∈ goal.names ∧ z ≠ x ∧ z ≠ y := by
      rcases Term.mentions_subst hz with ⟨hz, hzy⟩ | hz
      · exact ⟨ht z hz, fun hzx => hxt (hzx ▸ Term.mem_freeVars_of_mentions hz), hzy⟩
      · exact hvmentions z hz
    obtain ⟨b, hb, rfl⟩ := List.mem_map.1 hz
    exact List.mem_map.2 ⟨⟨b.name, b.ty.subst y v⟩, (hkept _).2 ⟨b, hb, hzy, hzx, rfl⟩, rfl⟩
  refine ⟨fun g hg => ?_, fun hsub γ hγ hproper => ?_⟩
  · obtain rfl := List.mem_singleton.1 hg
    have hdistinct : (Binding.names hyps).Nodup := by
      refine (hperm.map _).nodup_iff.2 ?_
      rw [hpending, List.map_map]
      exact hgoal.distinct.sublist (List.filter_sublist.map _)
    refine ⟨hdistinct, fun b hb => ?_, fun b hb hself => ?_,
      hnames _ hxtarget hgoal.target_mentions⟩
    · obtain ⟨b', hb', -, hne, rfl⟩ := (hkept b).1 hb
      exact hnames b'.ty (hxhyps b' hb' hne) (hgoal.mentions b' hb')
    · refine hready.irreflexive hdistinct (fun _ _ => List.not_mem_nil) hb ?_
        (Term.mem_freeVars_of_mentions hself)
      exact List.mem_map_of_mem (hperm.mem_iff.1 hb)
  · -- the proof of the equation computes to reflexivity, so the variable already stands for the
    -- value
    obtain ⟨hends, -⟩ := (hγ.inhabits hmem).of_eq hS (hsame γ)
    have hvalue : Conv (γ (.free y)) (v.under γ) := by
      rw [← Term.under_var y (γ := γ)]
      rcases solvedFor_eq_some hsolved with ⟨hy, rfl⟩ | ⟨hy, rfl⟩
      · exact hy ▸ hends.symm
      · exact hy ▸ hends
    have hmodels : Models S hyps γ := by
      refine ⟨hγ.sortFree, fun b hb => ?_⟩
      obtain ⟨b', hb', -, -, rfl⟩ := (hkept b).1 hb
      exact (hγ.typed b' hb').conv (Term.under_subst hvalue).symm
    have htarget := Term.under_subst (t := goal.target) hvalue
    exact (hsub _ (List.mem_singleton_self _) γ hmodels (hproper.conv htarget)).conv htarget.symm

/-! ### Congruence -/

lemma congruence_follows (h : k.congruence goal = .ok gs) :
    goal.Follows (k.env.signature henv.closed .erased) gs := by
  obtain ⟨e, c, he, hl, hr, hctor, hllen, hrlen, hindependent, rfl⟩ := congruence_eq_ok h
  have hnormal := targetEquation_eq_ok he
  obtain ⟨bs, R, hdeclared, htypes, hclosed⟩ :=
    ctorBinders_closed henv.closed henv.closed_args hctor hindependent
  have hlen : bs.length = (ctorBinders k.env c).length := by simpa using congrArg List.length htypes
  have hclosed' : ∀ b ∈ ctorBinders k.env c, b.ty.freeVars = [] := by
    intro b hb
    have hmem := List.mem_map_of_mem (f := Binding.ty) hb
    rw [← htypes] at hmem
    obtain ⟨b', hb', hty⟩ := List.mem_map.1 hmem
    exact hty ▸ hclosed b' hb'
  refine ⟨fun g hg => ?_, fun hsub γ hγ hproper => ?_⟩
  · obtain ⟨⟨b, l, r⟩, hmem, rfl⟩ := List.mem_map.1 hg
    obtain ⟨hb, hlr⟩ := List.of_mem_zip hmem
    refine hgoal.withTarget fun y hy => hgoal.target_mentions y (normalize_mentions hnormal ?_)
    exact mentions_of_argument (hclosed' b hb) hlr hy
  · have hsame := normalize_under hnormal γ
    rw [Equation.toTerm, Term.under_eq] at hsame
    obtain ⟨⟨u, hu, hul⟩, v, hv, hvr⟩ := (hproper.conv hsame.symm).of_eq
    refine (holds_eq ?_).conv hsame
    rw [Term.under_of_head hl, Term.under_of_head hr]
    refine .apps .rfl ?_
    rw [List.forall₂_map_left_iff, List.forall₂_map_right_iff, List.forall₂_iff_zip]
    refine ⟨hllen.trans hrlen.symm, fun {l r} hlr => ?_⟩
    obtain ⟨b, hmem⟩ : ∃ b, (b, l, r) ∈ (ctorBinders k.env c).zip (e.lhs.args.zip e.rhs.args) := by
      have hshort : (e.lhs.args.zip e.rhs.args).length ≤ (ctorBinders k.env c).length := by
        rw [List.length_zip]
        omega
      rw [← List.map_snd_zip hshort] at hlr
      obtain ⟨⟨b, -⟩, hmem, rfl⟩ := List.mem_map.1 hlr
      exact ⟨b, hmem⟩
    obtain ⟨hml, hmr⟩ := mem_zip_zip hmem
    have harg : ∀ {t a : Term}, (b, a) ∈ (ctorBinders k.env c).zip t.args →
        (b.ty, a) ∈ (bs.map Binding.ty).zip t.args := by
      intro t a hba
      rw [htypes, List.zip_map_left]
      exact List.mem_map.2 ⟨_, hba, rfl⟩
    obtain ⟨u', hu', hul'⟩ :=
      inhabits_argument henv hdeclared hclosed hl (hllen.trans hlen.symm) hu hul (harg hml)
    obtain ⟨v', hv', hvr'⟩ :=
      inhabits_argument henv hdeclared hclosed hr (hrlen.trans hlen.symm) hv hvr (harg hmr)
    have hvalid : (goal.withTarget (.eq b.ty l r)).Valid _ := hsub _ (List.mem_map.2 ⟨_, hmem, rfl⟩)
    have hholds := hvalid γ hγ (Term.under_eq b.ty l r ▸ proper_eq hu' hul' hv' hvr')
    exact (Term.under_eq b.ty l r ▸ hholds).of_eq

end Rules

/-! ### Closing an equation -/

lemma reflexivity_follows (h : k.reflexivity goal = .ok gs) : goal.Follows S gs := by
  obtain ⟨e, he, hconv, rfl⟩ := reflexivity_eq_ok h
  refine ⟨nofun, fun _ γ _ _ => ?_⟩
  have hsame := normalize_under (targetEquation_eq_ok he) γ
  rw [Equation.toTerm, Term.under_eq] at hsame
  exact (holds_eq (convertible_under hconv γ)).conv hsame

lemma assumption_follows (hS : S.Telescopic) (h : k.assumption goal x = .ok gs) :
    goal.Follows S gs := by
  obtain ⟨ty, hty, hconv, rfl⟩ := assumption_eq_ok h
  refine ⟨nofun, fun _ γ hγ _ => ?_⟩
  exact (holds_of_inhabits hS (hγ.inhabits (Context.mem_of_lookup? hty))).conv
    (convertible_under hconv γ).symm

lemma decide_follows (hregistry : k.registry.Plain) (hS : S.Telescopic)
    (h : k.decide goal = .ok gs) : goal.Follows S gs := by
  obtain ⟨e, d, he, -, hd, hdecides, rfl⟩ := decide_eq_ok h
  refine ⟨nofun, fun _ γ _ hproper => ?_⟩
  have hsame := normalize_under (targetEquation_eq_ok he) γ
  rw [Equation.toTerm, Term.under_eq] at hsame
  obtain ⟨⟨u, hu, hul⟩, v, hv, hvr⟩ := (hproper.conv hsame.symm).of_eq
  -- the decider is that of the normal form of the type
  obtain ⟨key, hkey, hfind⟩ := Option.map_eq_some_iff.1 (withinDepth_eq_ok.1 hd)
  have hkey' : k.normalize e.ty = .ok key := withinDepth_eq_ok.2 hkey
  have htype := normalize_under hkey' γ
  refine (holds_eq ?_).conv hsame
  exact hregistry.conv_of_decides hS hfind (hu.conv htype) hul (hv.conv htype) hvr hdecides

end Kernel

end UniqueEvidence
