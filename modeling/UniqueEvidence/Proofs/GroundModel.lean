/-
Goals about data, in the model of closed values.

* `Satisfies`: an assignment of values to the variables of data under which the equations among the
  hypotheses hold;
* `Goal.HoldsIn`: the target holds under all such assignments;
* `Goal.isFirstOrder`: the goals considered, whose hypotheses are variables of data and equations
  between first-order terms, and whose target is such an equation.  `Kernel.WellTyped.ofData`:
  inference types them as `Goal.OfData` says;
* `Kernel.symmetry_ofData`, `Kernel.injectionAs_ofData`, `Kernel.eliminate_ofData`: these rules
  leave **a goal that holds exactly if theirs does**;
* `Kernel.apply_ofData`: what every first-order rule leaves is again about data, and brings its own
  goal with it;
* `Kernel.holdsIn_of_replay`: so **a goal about data that a certificate of first-order rules closes
  holds** in the model.
-/
import UniqueEvidence.Proofs.Consistency
import UniqueEvidence.Proofs.FirstOrder

namespace UniqueEvidence

open Nameless

/-! ### Assignments -/

/-- The equation holds under the assignment.  Other types say nothing. -/
def Term.HoldsAt (σ : Name → Term) : Term → Prop
  | .eq _ l r => l.eval σ = r.eval σ
  | _ => True

/-- The variables of data are assigned values of their types, and the equations hold. -/
def Satisfies (env : Environment) (σ : Name → Term) (hyps : List Binding) : Prop :=
  ∀ b ∈ hyps, (b.ty.isDataType env → DataTerm env [] (σ b.name) [] b.ty) ∧ b.ty.HoldsAt σ

namespace Goal

/-- The target holds under all assignments that satisfy the hypotheses. -/
def HoldsIn (env : Environment) (goal : Goal) : Prop :=
  ∀ σ, Satisfies env σ goal.hyps → goal.target.HoldsAt σ

/-! ### Goals about data -/

/-- The variables of data. -/
def dataVars (env : Environment) (goal : Goal) : List Name :=
  Binding.names (goal.hyps.filter (·.ty.isDataType env))

/-- An equation between first-order terms over the variables of data. -/
def isDataEquation (env : Environment) (goal : Goal) : Term → Bool
  | .eq _ l r =>
    l.isFirstOrder env.dataArity? (goal.dataVars env) 0 &&
      r.isFirstOrder env.dataArity? (goal.dataVars env) 0
  | _ => false

/-- The hypotheses are variables of data and equations between first-order terms, and the target is
such an equation. -/
def isFirstOrder (env : Environment) (goal : Goal) : Bool :=
  goal.hyps.all (fun b => b.ty.isDataType env || goal.isDataEquation env b.ty) &&
    goal.isDataEquation env goal.target

end Goal

/-- The type of a variable of data, or an equation between first-order terms. -/
def DataHypothesis (env : Environment) (Γ : List Binding) (t : Term) : Prop :=
  t.isDataType env ∨ DataEquation env Γ t

/-- A goal about data, by the types of its terms. -/
structure Goal.OfData (env : Environment) (goal : Goal) : Prop where
  distinct : goal.names.Nodup
  hyps : ∀ b ∈ goal.hyps, DataHypothesis env goal.hyps b.ty
  target : DataEquation env goal.hyps goal.target

lemma Goal.OfData.eq_of_name {env : Environment} {goal : Goal} (h : goal.OfData env)
    {b b' : Binding} (hb : b ∈ goal.hyps) (hb' : b' ∈ goal.hyps) (hname : b.name = b'.name) :
    b = b' :=
  List.inj_on_of_nodup_map h.distinct hb hb' hname

lemma Term.holdsAt_of_isDataType {env : Environment} {A : Term} (h : A.isDataType env)
    {σ : Name → Term} : A.HoldsAt σ := by
  cases A with
  | eq => cases h
  | _ => trivial

lemma Term.subst_of_isDataType {env : Environment} {A : Term} (h : A.isDataType env) (y : Name)
    (v : Term) : A.subst y v = A :=
  subst_of_not_mem (by simp [freeVars_of_isDataType h])

namespace DataEquation

variable {env : Environment} {Γ Γ' : List Binding} {t : Term} {σ : Name → Term}

lemma mono (h : DataEquation env Γ t) (hsub : ∀ b ∈ Γ, b.name ∈ t.freeVars → b ∈ Γ') :
    DataEquation env Γ' t := by
  cases h with
  | intro hA hty hl hr =>
    refine .intro hA hty (hl.mono fun b hb hx _ => hsub b hb ?_)
      (hr.mono fun b hb hx _ => hsub b hb ?_)
    · exact List.mem_append_left _ (List.mem_append_right _ hx)
    · exact List.mem_append_right _ hx

/-- An equation with a term put for a variable of its type. -/
lemma subst {y : Name} {v B : Term} (h : DataEquation env Γ t) (hv : DataTerm env Γ' v [] B)
    (hy : ∀ C, ⟨y, C⟩ ∈ Γ → C = B) (hsub : ∀ b ∈ Γ, b.name ≠ y → b.ty.isDataType env → b ∈ Γ') :
    DataEquation env Γ' (t.subst y v) := by
  have hσ : ∀ b ∈ Γ, b.ty.isDataType env →
      DataTerm env Γ' (Function.update Term.var y v b.name) [] b.ty := by
    intro b hb hdata
    by_cases hby : b.name = y
    · obtain rfl : b.ty = B := hy b.ty (hby ▸ hb)
      rwa [hby, Function.update_self]
    · rw [Function.update_of_ne hby]
      exact .var (hsub b hb hby hdata) hdata
  cases h with
  | @intro ty l r A hA hty hl hr =>
    rw [Term.subst_eq]
    refine .intro hA ?_ ?_ ?_
    · have hconv := hty.subst (single y v.nameless)
      rwa [← Term.nameless_subst, ← Term.nameless_subst, Term.subst_of_isDataType hA] at hconv
    · rw [Term.subst_eq_eval hl.isFlat]
      exact hl.eval fun b hb _ => hσ b hb
    · rw [Term.subst_eq_eval hr.isFlat]
      exact hr.eval fun b hb _ => hσ b hb

lemma not_isDataType (h : DataEquation env Γ t) : ¬ t.isDataType env := by
  cases h
  simp [Term.isDataType]

lemma holdsAt_subst (h : DataEquation env Γ t) (y : Name) (v : Term) :
    (t.subst y v).HoldsAt σ ↔ t.HoldsAt (Function.update σ y (v.eval σ)) := by
  cases h with
  | intro _ _ hl hr =>
    rw [Term.subst_eq, Term.HoldsAt, Term.HoldsAt, Term.eval_subst hl.isFlat,
      Term.eval_subst hr.isFlat]

/-- The normal form of an equation has the same sides, and their type. -/
lemma of_normalize {k : Kernel} {e : Equation} (h : DataEquation env Γ t)
    (hn : k.normalize t = .ok e.toTerm) :
    e.ty.isDataType env ∧ DataTerm env Γ e.lhs [] e.ty ∧ DataTerm env Γ e.rhs [] e.ty ∧
      ∃ ty, t = .eq ty e.lhs e.rhs := by
  cases h with
  | @intro ty l r A hA hty hl hr =>
    obtain ⟨rfl, rfl, hconv, hnormal⟩ := hl.isFlat.of_normalize_eq hr.isFlat hn
    obtain rfl : e.ty = A :=
      (Term.isFlat_of_isDataType hA).eq_of_conv_normal (hconv.trans hty) hnormal
    exact ⟨hA, hl, hr, ty, rfl⟩

end DataEquation

namespace DataHypothesis

variable {env : Environment} {Γ Γ' : List Binding} {t : Term} {σ : Name → Term} {y : Name}
  {v : Term}

lemma subst {B : Term} (h : DataHypothesis env Γ t) (hv : DataTerm env Γ' v [] B)
    (hy : ∀ C, ⟨y, C⟩ ∈ Γ → C = B) (hsub : ∀ b ∈ Γ, b.name ≠ y → b.ty.isDataType env → b ∈ Γ') :
    DataHypothesis env Γ' (t.subst y v) := by
  refine h.imp (fun hdata => ?_) fun heq => heq.subst hv hy hsub
  rwa [Term.subst_of_isDataType hdata y v]

/-- Substitution for a variable makes no other variable of data, and changes none. -/
lemma isDataType_subst (h : DataHypothesis env Γ t) (hdata : (t.subst y v).isDataType env) :
    t.isDataType env ∧ t.subst y v = t := by
  rcases h with hdata' | heq
  · exact ⟨hdata', Term.subst_of_isDataType hdata' y v⟩
  · cases heq
    rw [Term.subst_eq] at hdata
    cases hdata

lemma holdsAt_subst (h : DataHypothesis env Γ t) :
    (t.subst y v).HoldsAt σ ↔ t.HoldsAt (Function.update σ y (v.eval σ)) := by
  rcases h with hdata | heq
  · rw [Term.subst_of_isDataType hdata y v]
    exact iff_of_true (Term.holdsAt_of_isDataType hdata) (Term.holdsAt_of_isDataType hdata)
  · exact heq.holdsAt_subst y v

end DataHypothesis

namespace Kernel

variable {k : Kernel} {goal : Goal} {gs : List Goal} {x y : Name} {σ : Name → Term}

/-- A variable of data has only one hypothesis, so a part of the context gives it the same type. -/
lemma isDataType_of_lookup {env : Environment} (hdistinct : goal.names.Nodup) {ctx : Context}
    (hsub : ctx ⊆ goal.hyps) (x : Name) (ty : Term) (hx : x ∈ goal.dataVars env)
    (hlookup : ctx.lookup? x = some ty) : ⟨x, ty⟩ ∈ goal.hyps ∧ ty.isDataType env := by
  have hmem := hsub (Context.mem_of_lookup? hlookup)
  obtain ⟨b, hb, rfl⟩ := List.mem_map.1 hx
  obtain ⟨hb, hdata⟩ := List.mem_filter.1 hb
  have hfound := Context.lookup?_of_mem hdistinct hb
  rw [Context.lookup?_of_mem hdistinct hmem] at hfound
  obtain rfl := Option.some.inj hfound
  exact ⟨hmem, hdata⟩

/-- **A well typed goal of first-order form is about data.** -/
theorem WellTyped.ofData (henv : k.env.TakesData) (h : k.WellTyped IsSort goal)
    (hform : goal.isFirstOrder k.env) : goal.OfData k.env := by
  rw [Goal.isFirstOrder, Bool.and_eq_true, List.all_eq_true] at hform
  have hequation : ∀ {ctx : Context} {t : Term}, ctx ⊆ goal.hyps → goal.isDataEquation k.env t →
      IsSort (k.infer ctx t) → DataEquation k.env goal.hyps t := by
    intro ctx t hsub ht hinfer
    cases t with
    | eq ty l r =>
      rw [Goal.isDataEquation, Bool.and_eq_true] at ht
      exact dataEquation_of_infer henv (isDataType_of_lookup h.distinct hsub) ht.1 ht.2 hinfer
    | _ => cases ht
  refine ⟨h.distinct, fun b hb => ?_, hequation ?_ hform.2 h.target⟩
  · obtain ⟨i, hi, rfl⟩ := List.mem_iff_getElem.1 hb
    refine (Bool.or_eq_true_iff.1 (hform.1 _ hb)).imp_right fun heq => ?_
    exact hequation (List.take_subset i goal.hyps) heq (h.hyps ⟨i, hi⟩)
  · rw [Goal.context, keepLast_of_nodup h.distinct]
    exact List.Subset.refl _

/-! ### What the rules find -/

/-- The equation that a hypothesis states. -/
lemma equation_ofData {env : Environment} (hgoal : goal.OfData env) {e : Equation}
    (he : k.equation goal x = .ok e) :
    e.ty.isDataType env ∧ DataTerm env goal.hyps e.lhs [] e.ty ∧
      DataTerm env goal.hyps e.rhs [] e.ty ∧
      ∃ ty, ⟨x, .eq ty e.lhs e.rhs⟩ ∈ goal.hyps := by
  obtain ⟨ty, hlookup, hn⟩ := equation_eq_ok he
  have hmem : ⟨x, ty⟩ ∈ goal.hyps := Context.mem_of_lookup? hlookup
  rcases hgoal.hyps _ hmem with hdata | heq
  · have heq := (Term.isFlat_of_isDataType hdata).eq_of_normalize hn
    rw [← heq] at hdata
    cases hdata
  · obtain ⟨hA, hl, hr, ty', rfl⟩ := heq.of_normalize hn
    exact ⟨hA, hl, hr, ty', hmem⟩

/-- The equation that the target states. -/
lemma targetEquation_ofData {env : Environment} (hgoal : goal.OfData env) {e : Equation}
    (he : k.targetEquation goal = .ok e) :
    e.ty.isDataType env ∧ DataTerm env goal.hyps e.lhs [] e.ty ∧
      DataTerm env goal.hyps e.rhs [] e.ty ∧
      ∃ ty, goal.target = .eq ty e.lhs e.rhs :=
  hgoal.target.of_normalize (targetEquation_eq_ok he)

/-! ### Rules that can be taken back -/

lemma symmetry_ofData {env : Environment} (hgoal : goal.OfData env) (h : k.symmetry goal = .ok gs) :
    ∃ g, gs = [g] ∧ g.OfData env ∧ (g.HoldsIn env ↔ goal.HoldsIn env) := by
  obtain ⟨e, he, rfl⟩ := symmetry_eq_ok h
  obtain ⟨hA, hl, hr, ty, htarget⟩ := targetEquation_ofData hgoal he
  refine ⟨_, rfl, ⟨hgoal.distinct, hgoal.hyps, .intro hA .rfl hr hl⟩, ?_⟩
  refine forall_congr' fun σ => imp_congr .rfl ?_
  rw [htarget]
  exact eq_comm

/-- Terms with the same values, entry by entry. -/
lemma map_eval_eq_iff {as bs : List Term} :
    as.map (Term.eval σ) = bs.map (Term.eval σ) ↔
      List.Forall₂ (fun a b => a.eval σ = b.eval σ) as bs := by
  rw [← List.forall₂_map_left_iff (R := fun v b => v = Term.eval σ b),
    ← List.forall₂_map_right_iff (R := Eq), List.forall₂_eq_eq_eq]

/-- The arguments of an application of a data constructor are of the declared types. -/
lemma argument_ofData {env : Environment} {Γ : List Binding} {t A ty a : Term} {c : Name}
    {d : DataType} {ctor : DataCtor} (h : DataTerm env Γ t [] A) (hhead : t.head = .const c)
    (hc : env.dataCtor? c = some (d, ctor)) (hmem : (ty, a) ∈ ctor.argTypes.zip t.args) :
    DataTerm env Γ a [] ty := by
  obtain ⟨d', ctor', taken, hc', htypes, -, hargs⟩ := h.of_head hhead
  obtain ⟨rfl, rfl⟩ : d = d' ∧ ctor = ctor' := by simpa [hc] using hc'
  rw [htypes, List.append_nil] at hmem
  exact (List.forall₂_iff_zip.1 hargs).2 hmem

lemma Splits.ofData {env : Environment} {Γ : List Binding} {e : Equation} {parts : List Term}
    (h : Splits env e parts) (henv : env.TakesData) (hl : DataTerm env Γ e.lhs [] e.ty)
    (hr : DataTerm env Γ e.rhs [] e.ty) : ∀ p ∈ parts, DataEquation env Γ p := by
  cases h with
  | pairs he =>
    subst he
    cases hl with
    | pair hl₁ hl₂ =>
      cases hr with
      | pair hr₁ hr₂ =>
        intro p hp
        rcases List.mem_pair.1 hp with rfl | rfl
        · exact .intro (hl₁.isDataType henv).2 .rfl hl₁ hr₁
        · exact .intro (hl₂.isDataType henv).2 .rfl hl₂ hr₂
  | ctor hlhead hrhead hc =>
    intro p hp
    rw [← List.map_uncurry_zip_eq_zipWith] at hp
    obtain ⟨⟨ty, l, r⟩, hmem, rfl⟩ := List.mem_map.1 hp
    obtain ⟨hml, hmr⟩ := mem_zip_zip hmem
    have hl' := argument_ofData hl hlhead hc hml
    exact .intro (hl'.isDataType henv).2 .rfl hl' (argument_ofData hr hrhead hc hmr)

/-- **Constructors are free**: if two applications have one value, so have their components. -/
lemma Splits.holdsAt {env : Environment} {e : Equation} {parts : List Term} (h : Splits env e parts)
    (heq : e.lhs.eval σ = e.rhs.eval σ) : ∀ p ∈ parts, p.HoldsAt σ := by
  cases h with
  | pairs he =>
    subst he
    obtain ⟨h₁, h₂⟩ := Term.pair.inj heq
    intro p hp
    rcases List.mem_pair.1 hp with rfl | rfl
    · exact h₁
    · exact h₂
  | ctor hlhead hrhead hc =>
    intro p hp
    rw [← List.map_uncurry_zip_eq_zipWith] at hp
    obtain ⟨⟨ty, l, r⟩, hmem, rfl⟩ := List.mem_map.1 hp
    rw [Term.eval_of_head hlhead, Term.eval_of_head hrhead] at heq
    exact (List.forall₂_iff_zip.1 (map_eval_eq_iff.1 (Term.apps_const_inj heq).2)).2
      (List.of_mem_zip hmem).2

lemma injectionAs_ofData (henv : k.env.TakesData) (hgoal : goal.OfData k.env) {names : List Name}
    {shown : Argument} (h : k.injectionAs goal x names shown = .ok gs) :
    ∃ g, gs = [g] ∧ g.OfData k.env ∧ (g.HoldsIn k.env ↔ goal.HoldsIn k.env) := by
  obtain ⟨e, parts, he, hsplits, hlen, hnodup, hnew, rfl⟩ := injectionAs_eq_ok h
  obtain ⟨-, hl, hr, ty, hmem⟩ := equation_ofData hgoal he
  have hparts := hsplits.ofData henv hl hr
  have hgrow : ∀ {t}, DataEquation k.env goal.hyps t →
      DataEquation k.env (goal.hyps ++ List.zipWith Binding.mk names parts) t :=
    fun ht => ht.mono fun b hb _ => List.mem_append_left _ hb
  refine ⟨_, rfl, ⟨?_, fun b hb => ?_, hgrow hgoal.target⟩, ?_⟩
  · rw [Goal.names, Binding.names, List.map_append, ← Binding.names,
      ← Binding.names, names_zipWith hlen]
    exact hgoal.distinct.append hnodup fun y hy hy' => hnew y hy' hy
  · rcases List.mem_append.1 hb with hb | hb
    · exact (hgoal.hyps b hb).imp_right hgrow
    · exact .inr (hgrow (hparts b.ty (mem_of_zipWith hb).2))
  · -- the new equations hold wherever the old ones do
    refine forall_congr' fun σ => imp_congr ?_ .rfl
    simp only [Satisfies, List.forall_mem_append, and_iff_left_iff_imp]
    intro hσ b hb
    have hpart := (mem_of_zipWith hb).2
    exact ⟨fun hdata => absurd hdata (hparts b.ty hpart).not_isDataType,
      hsplits.holdsAt (hσ _ hmem).2 b.ty hpart⟩

section Elimination

variable {env : Environment} {hyps : List Binding} {v A ty l r : Term}

/-- The hypotheses that remain when a variable `y` is eliminated by an equation `x` that gives it
the value `v`. -/
structure Eliminates (env : Environment) (goal : Goal) (x y : Name) (v A ty l r : Term)
    (hyps : List Binding) : Prop where
  var : ⟨y, A⟩ ∈ goal.hyps
  isDataType : A.isDataType env
  equation : ⟨x, .eq ty l r⟩ ∈ goal.hyps
  value : DataTerm env goal.hyps v [] A
  fresh : y ∉ v.freeVars
  sides : ∀ τ : Name → Term, l.eval τ = r.eval τ ↔ τ y = v.eval τ
  mem_iff : ∀ b', b' ∈ hyps ↔ ∃ b ∈ goal.hyps, (b.name ≠ y ∧ b.name ≠ x) ∧
    { b with ty := b.ty.subst y v } = b'

namespace Eliminates

lemma mem_of_isDataType (h : Eliminates env goal x y v A ty l r hyps) (hgoal : goal.OfData env)
    {b : Binding} (hb : b ∈ goal.hyps) (hby : b.name ≠ y) (hdata : b.ty.isDataType env) :
    b ∈ hyps := by
  refine (h.mem_iff b).2 ⟨b, hb, ⟨hby, fun hbx => ?_⟩, by rw [Term.subst_of_isDataType hdata]⟩
  obtain rfl := hgoal.eq_of_name hb h.equation hbx
  cases hdata

lemma value_over (h : Eliminates env goal x y v A ty l r hyps) (hgoal : goal.OfData env) :
    DataTerm env hyps v [] A :=
  h.value.mono fun _ hb hx hdata =>
    h.mem_of_isDataType hgoal hb (fun hby => h.fresh (hby ▸ hx)) hdata

/-- **An assignment to the other variables extends to the one eliminated**, in the way that its
equation says. -/
lemma satisfies_iff (h : Eliminates env goal x y v A ty l r hyps) (hgoal : goal.OfData env) :
    Satisfies env σ hyps ↔ Satisfies env (Function.update σ y (v.eval σ)) goal.hyps := by
  constructor
  · intro hσ b hb
    by_cases hby : b.name = y
    · obtain rfl := hgoal.eq_of_name hb h.var hby
      refine ⟨fun _ => ?_, Term.holdsAt_of_isDataType h.isDataType⟩
      rw [Function.update_self]
      exact (h.value_over hgoal).eval fun b' hb' _ => (hσ b' hb').1
    by_cases hbx : b.name = x
    · obtain rfl := hgoal.eq_of_name hb h.equation hbx
      refine ⟨nofun, (h.sides _).2 ?_⟩
      rw [Function.update_self]
      refine Term.eval_congr fun z hz => ?_
      have hzy : z ≠ y := fun hzy => h.fresh (hzy ▸ hz)
      rw [Function.update_of_ne hzy]
    · obtain ⟨hvalue, hholds⟩ := hσ _ ((h.mem_iff _).2 ⟨b, hb, ⟨hby, hbx⟩, rfl⟩)
      refine ⟨fun hdata => ?_, (hgoal.hyps b hb).holdsAt_subst.1 hholds⟩
      rw [Function.update_of_ne hby]
      rw [Term.subst_of_isDataType hdata] at hvalue
      exact hvalue hdata
  · intro hσ b' hb'
    obtain ⟨b, hb, ⟨hby, -⟩, rfl⟩ := (h.mem_iff b').1 hb'
    obtain ⟨hvalue, hholds⟩ := hσ b hb
    refine ⟨fun hdata => ?_, (hgoal.hyps b hb).holdsAt_subst.2 hholds⟩
    obtain ⟨hdata', hsame⟩ := (hgoal.hyps b hb).isDataType_subst hdata
    rw [Function.update_of_ne hby] at hvalue
    exact hsame.symm ▸ hvalue hdata'

end Eliminates

/-- What elimination has found, and what it leaves. -/
lemma eliminates_of_eliminate (hgoal : goal.OfData env) (h : k.eliminate goal x y = .ok gs) :
    ∃ v A ty l r hyps, Eliminates env goal x y v A ty l r hyps ∧ (Binding.names hyps).Nodup ∧
      gs = [⟨hyps, goal.target.subst y v⟩] := by
  obtain ⟨e, v, hyps, he, hsolved, -, -, hocc, -, -, hreorder, rfl⟩ := eliminate_eq_ok h
  obtain ⟨hA, hl, hr, ty, hmem⟩ := equation_ofData hgoal he
  obtain ⟨hperm, -⟩ := reorder_spec hreorder
  obtain ⟨hy, hv, hsides⟩ : ⟨y, e.ty⟩ ∈ goal.hyps ∧ DataTerm env goal.hyps v [] e.ty ∧
      ∀ τ : Name → Term, e.lhs.eval τ = e.rhs.eval τ ↔ τ y = v.eval τ := by
    rcases solvedFor_eq_some hsolved with ⟨hside, rfl⟩ | ⟨hside, rfl⟩
    · rw [hside] at hr
      cases hr with
      | var hy => exact ⟨hy, hl, fun τ => by rw [hside, eq_comm]; rfl⟩
    · rw [hside] at hl
      cases hl with
      | var hy => exact ⟨hy, hr, fun τ => by rw [hside]; rfl⟩
  refine ⟨v, e.ty, ty, e.lhs, e.rhs, hyps, ⟨hy, hA, hmem, hv, hocc, hsides, fun b' => ?_⟩, ?_, rfl⟩
  · rw [hperm.mem_iff, List.mem_map]
    simp [and_assoc]
  · have hnames := hperm.map Binding.name
    rw [List.map_map] at hnames
    exact hnames.nodup_iff.2 (hgoal.distinct.sublist (List.filter_sublist.map _))

lemma eliminate_ofData (hgoal : goal.OfData env) (h : k.eliminate goal x y = .ok gs) :
    ∃ g, gs = [g] ∧ g.OfData env ∧ (g.HoldsIn env ↔ goal.HoldsIn env) := by
  obtain ⟨v, A, ty, l, r, hyps, helim, hdistinct, rfl⟩ := eliminates_of_eliminate hgoal h
  have hvalue := helim.value_over hgoal
  have hunique : ∀ C, ⟨y, C⟩ ∈ goal.hyps → C = A :=
    fun C hC => congrArg Binding.ty (hgoal.eq_of_name hC helim.var rfl)
  have hsub : ∀ b ∈ goal.hyps, b.name ≠ y → b.ty.isDataType env → b ∈ hyps :=
    fun b hb hby hdata => helim.mem_of_isDataType hgoal hb hby hdata
  refine ⟨_, rfl, ⟨hdistinct, fun b' hb' => ?_, hgoal.target.subst hvalue hunique hsub⟩,
    fun hg σ hσ => ?_, fun hg σ hσ => ?_⟩
  · obtain ⟨b, hb, -, rfl⟩ := (helim.mem_iff b').1 hb'
    exact (hgoal.hyps b hb).subst hvalue hunique hsub
  · -- the assignment gives the variable this value already
    have hself : Function.update σ y (v.eval σ) = σ := by
      rw [← (helim.sides σ).1 (hσ _ helim.equation).2, Function.update_eq_self]
    have hholds :=
      (hgoal.target.holdsAt_subst y v).1 (hg σ ((helim.satisfies_iff hgoal).2 (by rwa [hself])))
    rwa [hself] at hholds
  · exact (hgoal.target.holdsAt_subst y v).2 (hg _ ((helim.satisfies_iff hgoal).1 hσ))

end Elimination

/-! ### Rules that close a goal, or forget -/

lemma clear_ofData {env : Environment} (hgoal : goal.OfData env) (h : clear goal x = .ok gs) :
    ∃ g, gs = [g] ∧ g.OfData env ∧ (g.HoldsIn env → goal.HoldsIn env) := by
  obtain ⟨htarget, hunused, rfl⟩ := clear_eq_ok h
  have hshrink : ∀ {t : Term}, x ∉ t.freeVars → ∀ b ∈ goal.hyps, b.name ∈ t.freeVars →
      b ∈ without goal x :=
    fun ht b hb hx => List.mem_filter.2 ⟨hb, by simpa using fun hbx : b.name = x => ht (hbx ▸ hx)⟩
  refine ⟨_, rfl,
    ⟨hgoal.distinct.sublist (List.filter_sublist.map _), fun b hb => ?_,
    hgoal.target.mono (hshrink htarget)⟩,
    fun hg σ hσ => hg σ fun b hb => hσ b (List.mem_of_mem_filter hb)⟩
  obtain ⟨hmem, hbx⟩ := List.mem_filter.1 hb
  exact (hgoal.hyps b hmem).imp_right fun heq =>
    heq.mono (hshrink (hunused b hmem (by simpa using hbx)))

/-- Values built by different constructors differ, so the hypotheses cannot be satisfied. -/
lemma discriminate_ofData {env : Environment} (hgoal : goal.OfData env)
    (h : k.discriminate goal x = .ok gs) : gs = [] ∧ goal.HoldsIn env := by
  obtain ⟨e, c, d, he, hc, hd, hne, rfl⟩ := discriminate_eq_ok h
  obtain ⟨-, -, -, ty, hmem⟩ := equation_ofData hgoal he
  refine ⟨rfl, fun σ hσ => absurd (hσ _ hmem).2 fun heq => hne ?_⟩
  change e.lhs.eval σ = e.rhs.eval σ at heq
  rw [Term.eval_of_head hc, Term.eval_of_head hd] at heq
  exact (Term.apps_const_inj heq).1

lemma reflexivity_ofData {env : Environment} (hgoal : goal.OfData env)
    (h : k.reflexivity goal = .ok gs) : gs = [] ∧ goal.HoldsIn env := by
  obtain ⟨e, he, hconv, rfl⟩ := reflexivity_eq_ok h
  obtain ⟨-, hl, hr, ty, htarget⟩ := targetEquation_ofData hgoal he
  have hsides : e.lhs = e.rhs := hr.isFlat.eq_of_conv hl.isFlat ((convertible_iff hconv).1 rfl)
  refine ⟨rfl, fun σ _ => ?_⟩
  rw [htarget, Term.HoldsAt, hsides]

lemma assumption_ofData {env : Environment} (hgoal : goal.OfData env)
    (h : k.assumption goal x = .ok gs) : gs = [] ∧ goal.HoldsIn env := by
  obtain ⟨ty, hlookup, hconv, rfl⟩ := assumption_eq_ok h
  have hmem : ⟨x, ty⟩ ∈ goal.hyps := Context.mem_of_lookup? hlookup
  have hconv := (convertible_iff hconv).1 rfl
  refine ⟨rfl, fun σ hσ => ?_⟩
  have hholds := (hσ _ hmem).2
  generalize htarget : goal.target = target at hconv
  have hequation := hgoal.target
  rw [htarget] at hequation
  cases hequation with
  | intro _ _ hl hr =>
    rcases hgoal.hyps _ hmem with hdata | heq
    · -- a type of data is not convertible with an equation
      cases ty with
      | const | unit | prod => cases hconv.head_eq rfl rfl
      | _ => cases hdata
    · dsimp only at heq hholds
      cases heq with
      | intro _ _ hl' hr' =>
        obtain ⟨-, hcl, hcr⟩ := hconv.eq_inj
        rw [hl.isFlat.eq_of_conv hl'.isFlat hcl, hr.isFlat.eq_of_conv hr'.isFlat hcr] at hholds
        exact hholds

/-- **Values that a decider finds equal are equal**, whatever it has looked at. -/
lemma eval_eq_of_decides {env : Environment} {registry : Registry} (hregistry : registry.Plain)
    {Γ : List Binding} (hσ : ∀ b ∈ Γ, b.ty.isDataType env → DataTerm env [] (σ b.name) [] b.ty)
    {A l r : Term} {d : Decider} (h : registry.find? A = some d) (hl : DataTerm env Γ l [] A)
    (hr : DataTerm env Γ r [] A) (hdecides : d.decides l r = true) : l.eval σ = r.eval σ := by
  have hunit : ∀ {t}, DataTerm env Γ t [] .unit → t.eval σ = .tt :=
    fun ht => (ht.eval fun b hb _ => hσ b hb).eq_tt rfl
  induction A generalizing d l r with
  | prod A B ihA ihB =>
    rcases hregistry.find?_eq_some h with (hunit' | halpha) |
      ⟨A', B', left, right, heq, hleft, hright, rfl⟩
    · cases hunit'
    · rw [halpha, Term.alphaEq_iff] at hdecides
      rw [hr.isFlat.eq_of_nameless hdecides]
    · obtain ⟨rfl, rfl⟩ := Term.prod.inj heq
      simp only [Decider.both] at hdecides
      split at hdecides
      · rw [Bool.and_eq_true] at hdecides
        cases hl with
        | pair hl₁ hl₂ =>
          cases hr with
          | pair hr₁ hr₂ =>
            rw [Term.eval, Term.eval, ihA hleft hl₁ hr₁ hdecides.1, ihB hright hl₂ hr₂ hdecides.2]
      · cases hdecides
  | _ =>
    rcases hregistry.find?_eq_some h with (hunit' | halpha) | ⟨_, _, _, _, heq, -⟩
    · rw [hunit'] at hl hr
      rw [hunit hl, hunit hr]
    · rw [halpha, Term.alphaEq_iff] at hdecides
      rw [hr.isFlat.eq_of_nameless hdecides]
    · cases heq

lemma decide_ofData {env : Environment} (hregistry : k.registry.Plain) (hgoal : goal.OfData env)
    (h : k.decide goal = .ok gs) : gs = [] ∧ goal.HoldsIn env := by
  obtain ⟨e, d, he, -, hd, hdecides, rfl⟩ := decide_eq_ok h
  obtain ⟨hA, hl, hr, ty, htarget⟩ := targetEquation_ofData hgoal he
  obtain ⟨A, hn, hfind⟩ := Option.map_eq_some_iff.1 (withinDepth_eq_ok.1 hd)
  obtain rfl : A = e.ty := (Term.isFlat_of_isDataType hA).eq_of_normalize (withinDepth_eq_ok.2 hn)
  refine ⟨rfl, fun σ hσ => ?_⟩
  rw [htarget]
  exact eval_eq_of_decides hregistry (fun b hb => (hσ b hb).1) hfind hl hr hdecides

lemma congruence_ofData (henv : k.env.TakesData) (hgoal : goal.OfData k.env)
    (h : k.congruence goal = .ok gs) :
    (∀ g ∈ gs, g.OfData k.env) ∧ ((∀ g ∈ gs, g.HoldsIn k.env) → goal.HoldsIn k.env) := by
  obtain ⟨e, c, he, hlhead, hrhead, -, hllen, hrlen, -, rfl⟩ := congruence_eq_ok h
  obtain ⟨-, hl, hr, ty, htarget⟩ := targetEquation_ofData hgoal he
  obtain ⟨d, ctor, -, hc, -⟩ := hl.of_head hlhead
  have htypes := ctorBinders_of_dataCtor? hc
  constructor
  · intro g hg
    obtain ⟨⟨b, l, r⟩, hmem, rfl⟩ := List.mem_map.1 hg
    obtain ⟨hml, hmr⟩ := mem_zip_zip hmem
    have htyped : ∀ {as : List Term} {a : Term}, (b, a) ∈ (ctorBinders k.env c).zip as →
        (b.ty, a) ∈ ctor.argTypes.zip as := by
      intro as a hab
      rw [← htypes, List.zip_map_left]
      exact List.mem_map_of_mem hab
    have hl' := argument_ofData hl hlhead hc (htyped hml)
    exact ⟨hgoal.distinct, hgoal.hyps,
      .intro (hl'.isDataType henv).2 .rfl hl' (argument_ofData hr hrhead hc (htyped hmr))⟩
  · intro hgs σ hσ
    rw [htarget, Term.HoldsAt, Term.eval_of_head hlhead, Term.eval_of_head hrhead]
    congr 1
    refine map_eval_eq_iff.2 (List.forall₂_iff_zip.2 ⟨hllen.trans hrlen.symm, fun {l r} hlr => ?_⟩)
    -- every pair of arguments has a binder, and so a subgoal
    obtain ⟨b, hmem⟩ : ∃ b, (b, l, r) ∈ (ctorBinders k.env c).zip (e.lhs.args.zip e.rhs.args) := by
      have hlong : (e.lhs.args.zip e.rhs.args).length ≤ (ctorBinders k.env c).length := by
        rw [List.length_zip]
        omega
      rw [← List.map_snd_zip hlong] at hlr
      obtain ⟨⟨b, l', r'⟩, hmem, heq⟩ := List.mem_map.1 hlr
      obtain ⟨rfl, rfl⟩ := Prod.mk.inj heq
      exact ⟨b, hmem⟩
    exact hgs _ (List.mem_map_of_mem hmem) σ hσ

/-! ### Certificates -/

/-- The rules that keep to first-order terms. -/
def firstOrderRules : List Atom :=
  ["symmetry", "clear", "injection", "discriminate", "subst", "reflexivity", "assumption", "decide",
    "congruence"].map .text

/-- Those of them that can be taken back. -/
def invertibleRules : List Atom :=
  ["symmetry", "injection", "subst"].map .text

section Calls

variable {call : Call} (henv : k.env.TakesData) (hgoal : goal.OfData k.env)
include henv hgoal

/-- **A rule that can be taken back** leaves one goal, which holds exactly if its own does. -/
lemma apply_invertible (hrule : call.rule ∈ invertibleRules) (h : k.apply goal call = .ok gs) :
    ∃ g, gs = [g] ∧ g.OfData k.env ∧ (g.HoldsIn k.env ↔ goal.HoldsIn k.env) := by
  rcases apply_eq_ok h with ⟨rule, rfl, hrun⟩ | ⟨x, letters, rfl, hinjection⟩ |
    ⟨t, n, shown, motive, rfl, -⟩
  · cases rule with
    | symmetry => exact symmetry_ofData hgoal hrun
    | injection x names => exact injectionAs_ofData henv hgoal hrun
    | subst x y => exact eliminate_ofData hgoal hrun
    | _ => simp [Rule.call, invertibleRules] at hrule
  · exact injectionAs_ofData henv hgoal hinjection
  · simp [invertibleRules] at hrule

/-- **What a first-order rule leaves is about data**, and brings its own goal with it. -/
lemma apply_ofData (hregistry : k.registry.Plain) (hrule : call.rule ∈ firstOrderRules)
    (h : k.apply goal call = .ok gs) :
    (∀ g ∈ gs, g.OfData k.env) ∧ ((∀ g ∈ gs, g.HoldsIn k.env) → goal.HoldsIn k.env) := by
  have hone : (∃ g, gs = [g] ∧ g.OfData k.env ∧ (g.HoldsIn k.env → goal.HoldsIn k.env)) →
      (∀ g ∈ gs, g.OfData k.env) ∧ ((∀ g ∈ gs, g.HoldsIn k.env) → goal.HoldsIn k.env) := by
    rintro ⟨g, rfl, hdata, hholds⟩
    exact ⟨by simpa using hdata, fun hgs => hholds (hgs g (List.mem_singleton_self g))⟩
  have hnone : gs = [] ∧ goal.HoldsIn k.env →
      (∀ g ∈ gs, g.OfData k.env) ∧ ((∀ g ∈ gs, g.HoldsIn k.env) → goal.HoldsIn k.env) := by
    rintro ⟨rfl, hholds⟩
    exact ⟨by simp, fun _ => hholds⟩
  by_cases hinvertible : call.rule ∈ invertibleRules
  · obtain ⟨g, hgs, hdata, hiff⟩ := apply_invertible henv hgoal hinvertible h
    exact hone ⟨g, hgs, hdata, hiff.1⟩
  rcases apply_eq_ok h with ⟨rule, rfl, hrun⟩ | ⟨x, letters, rfl, -⟩ |
    ⟨t, n, shown, motive, rfl, -⟩
  · cases rule with
    | clear x => exact hone (clear_ofData hgoal hrun)
    | discriminate x => exact hnone (discriminate_ofData hgoal hrun)
    | reflexivity => exact hnone (reflexivity_ofData hgoal hrun)
    | assumption x => exact hnone (assumption_ofData hgoal hrun)
    | decide => exact hnone (decide_ofData hregistry hgoal hrun)
    | congruence => exact congruence_ofData henv hgoal hrun
    | symmetry | injection x names | subst x y => simp [Rule.call, invertibleRules] at hinvertible
    | _ => simp [Rule.call, firstOrderRules] at hrule
  · simp [invertibleRules] at hinvertible
  · simp [firstOrderRules] at hrule

end Calls

/-- **A goal about data that a certificate of first-order rules closes holds in the model of closed
values**: the declarations of data take only data, the deciders are those for data types, the goal
is well typed, its hypotheses are variables of data and equations between first-order terms, and its
target is such an equation.  At every goal that the certificate comes to, a rule that can be taken
back leaves a goal that holds exactly if that one does. -/
theorem holdsIn_of_replay (k : Kernel) (henv : k.env.TakesData) (hregistry : k.registry.OfDataTypes)
    (goal : Goal) (hgoal : k.WellTyped IsSort goal) (hform : goal.isFirstOrder k.env)
    (cert : Certificate) (hcert : cert.trace ⊆ firstOrderRules.map some) :
    ((k.replay goal cert).worded = .ok [] → goal.HoldsIn k.env) ∧
    ∀ g call children subgoals, k.Visits goal cert g (.step call children) →
      call.rule ∈ invertibleRules →
      k.apply g call = .ok subgoals → ∃ subgoal, subgoals = [subgoal] ∧
        (subgoal.HoldsIn k.env ↔ g.HoldsIn k.env) := by
  have hrule : ∀ {g call children}, k.Visits goal cert g (.step call children) →
      call.rule ∈ firstOrderRules := by
    intro g call children hvisits
    simpa using hcert hvisits.mem_trace
  have hdata : ∀ {g rest}, k.Visits goal cert g rest → g.OfData k.env := by
    intro g rest hvisits
    exact hvisits.invariant (A := fun _ call => call.rule ∈ firstOrderRules)
      (fun hg hcall happly => (apply_ofData henv hg hregistry.plain hcall happly).1)
        (hgoal.ofData henv hform)
      fun _ _ _ hvisits' => hrule hvisits'
  constructor
  · intro hreplay
    refine holds_of_replay (fun g call children subgoals hvisits happly => ?_)
      (Logged.outcome_of_worded hreplay) (by simp)
    exact (apply_ofData henv (hdata hvisits) hregistry.plain (hrule hvisits) happly).2
  · intro g call children subgoals hvisits hinvertible happly
    obtain ⟨subgoal, hsub, -, hiff⟩ := apply_invertible henv (hdata hvisits) hinvertible happly
    exact ⟨subgoal, hsub, hiff⟩

end Kernel

namespace Sample

/-- From `spair x y = spair y z` it follows that `x = z`. -/
def linked : Goal where
  hyps := [⟨"x", .const "shape"⟩, ⟨"y", .const "shape"⟩, ⟨"z", .const "shape"⟩,
    ⟨"e", .eq (.const "shape") (Term.apps (.const "spair") [.var "x", .var "y"])
      (Term.apps (.const "spair") [.var "y", .var "z"])⟩]
  target := .eq (.const "shape") (.var "x") (.var "z")

/-- The same with the components equated. -/
def linkedParts : Goal where
  hyps := linked.hyps ++ [⟨"p", .eq (.const "shape") (.var "x") (.var "y")⟩,
    ⟨"q", .eq (.const "shape") (.var "y") (.var "z")⟩]
  target := linked.target

/-- The equation is split, and `y` eliminated. -/
def linkedProof : Certificate :=
  .chain [Rule.call (.injection "e" ["p", "q"]), Rule.call (.subst "p" "y")]
    (.leaf (.assumption "q"))

end Sample

/-- The certificate closes the goal, which therefore holds of all trees, as does the goal with the
components equated. -/
theorem Kernel.holdsIn_of_replay_sample :
    ((Sample.kernel Sample.registry).replay Sample.linked Sample.linkedProof).worded = .ok [] ∧
    Sample.linked.HoldsIn Sample.env ∧ Sample.linkedParts.HoldsIn Sample.env := by
  have hgoal : (Sample.kernel Sample.registry).WellTyped IsSort Sample.linked :=
    ⟨by decide +kernel, by decide +kernel, by decide +kernel, by decide +kernel, by decide +kernel⟩
  have hreplay :
      ((Sample.kernel Sample.registry).replay Sample.linked Sample.linkedProof).worded = .ok [] :=
    Except.toOption_eq_some.1 (by decide +kernel)
  have hsplit : (Sample.kernel Sample.registry).apply Sample.linked
      (Rule.call (.injection "e" ["p", "q"])) =
      .ok [Sample.linkedParts] := Except.toOption_eq_some.1 (by decide +kernel)
  have henv : Sample.env.TakesData := by decide
  obtain ⟨hholds, hback⟩ := holdsIn_of_replay (Sample.kernel Sample.registry) henv
    (.register .default rfl) Sample.linked hgoal (by decide) Sample.linkedProof (by decide)
  obtain ⟨subgoal, hsub, hiff⟩ := hback _ _ _ _ (.here ..) (by decide) hsplit
  obtain rfl := List.singleton_inj.1 hsub
  exact ⟨hreplay, hholds hreplay, hiff.2 (hholds hreplay)⟩

end UniqueEvidence
