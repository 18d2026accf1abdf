/-
Simplifying the index equation is first-order unification.

* `Goal.Unifying`: what the goal and the pending equations satisfy throughout, if these are between
  first-order terms.  `Goal.Unifying.exists_reorder`: the hypotheses can always be put in order;
  `Goal.Unifying.isCyclic`: **an equation that is of no use is between a variable and a larger term
  that contains it**;
* `Goal.Unifying.solutions`: **the assignments that unify what is pending before and after a step
  correspond**;
* `Goal.burden`, `Goal.Unifying.burden_lt`: each step uses up a variable, or shrinks what is
  pending, so that there are only finitely many;
* `Goal.Verdict`, `Goal.Unifying.isDecided`: **simplification finds out whether the pending
  equations have a unifier**;
* `Kernel.destructure_unifies`: the same for an equation between two index tuples.
-/
import Mathlib.Data.Finset.Card
import UniqueEvidence.Proofs.FirstOrderEquations
import UniqueEvidence.Proofs.Sample

namespace UniqueEvidence

open Nameless

section

variable {k : Kernel} {env : Environment} {Γ : List Binding} {e : Equation} {σ : Name → Term}

/-! ### What is used up -/

/-- The size of the equation that a hypothesis is. -/
def Goal.sidesAt (g : Goal) (x : Name) : Nat :=
  ((g.lookup? x).map Term.sidesSize).getD 0

/-- What simplification uses up: the hypotheses that are neither kept nor pending, and then the size
of what is pending. -/
def Goal.burden (g : Goal) (pf : Name) (pending : List Name) : Nat × Nat :=
  ((g.names.toFinset \ (pf :: pending).toFinset).card, (pending.map g.sidesAt).sum)

lemma Goal.Scoped.sidesAt {g : Goal} (hgoal : g.Scoped) {b : Binding} (hb : b ∈ g.hyps) :
    g.sidesAt b.name = b.ty.sidesSize := by
  have hlookup : g.lookup? b.name = some b.ty := Context.lookup?_of_mem hgoal.arranged.distinct hb
  simp [Goal.sidesAt, hlookup]

/-- Hypotheses that are left as they are keep their size. -/
lemma Goal.Scoped.sum_sidesAt {g g' : Goal} (hgoal : g.Scoped) (hgoal' : g'.Scoped)
    {names : List Name} (hlisted : names ⊆ g.names)
    (hkept : ∀ b ∈ g.hyps, b.name ∈ names → b ∈ g'.hyps) :
    (names.map g'.sidesAt).sum = (names.map g.sidesAt).sum := by
  congr 1
  refine List.map_congr_left fun z hz => ?_
  obtain ⟨b, hb, rfl⟩ := List.mem_map.1 (hlisted hz)
  rw [hgoal.sidesAt hb, hgoal'.sidesAt (hkept b hb hz)]

/-- Hypotheses that are added have the sizes of their types. -/
lemma Goal.Scoped.sum_sidesAt_new {g : Goal} (hgoal : g.Scoped) {names : List Name}
    {types : List Term} (hlen : names.length = types.length)
    (hmem : ∀ b ∈ List.zipWith Binding.mk names types, b ∈ g.hyps) :
    (names.map g.sidesAt).sum = (types.map Term.sidesSize).sum := by
  congr 1
  refine List.ext_getElem (by simp [hlen]) fun i hi hi' => ?_
  rw [List.length_map] at hi hi'
  rw [List.getElem_map, List.getElem_map]
  exact hgoal.sidesAt (b := ⟨names[i], types[i]⟩)
    (hmem _ (List.mem_iff_getElem.2 ⟨i, by simp [hi, hi'], by simp⟩))

/-! ### The invariant -/

/-- The goal while first-order equations are simplified.  Variables of closed types that are left
are hypotheses, unless their names have been taken for equations; the pending equations are
first-order over them, and at closed types once the one that is kept has been split. -/
structure Goal.Unifying (env : Environment) (Γ : List Binding) (g : Goal) (pf : Name)
    (pending : List Name) : Prop
    extends g.Resolves pf pending where
  present : ∀ b ∈ Γ, b.ty.freeVars = [] → b.name ∈ g.names → b.name ∉ pf :: pending → b ∈ g.hyps
  firstOrder : ∀ e, g.States pending e → e.IsFirstOrder env Γ
  closed : pf ∉ pending → ∀ e, g.States pending e → e.ty.freeVars = []

/-- The assignment unifies the sides of each of the named equations. -/
def Goal.UnifiedBy (g : Goal) (σ : Name → Term) (names : List Name) : Prop :=
  ∀ e, g.States names e → e.UnifiedBy σ

namespace Goal.Unifying

variable {g g' : Goal} {pf x y : Name} {rest names : List Name}

section

variable (henv : k.env.TakesClosed) (h : g.Unifying k.env Γ pf (x :: rest))
  (he : k.equation g x = .ok e)
include henv h he

/-- The first pending equation, as it is read. -/
lemma equation :
    e.IsFirstOrder k.env Γ ∧ e.ty.nameless.IsNormal ∧ e.ty.freeVars = [] ∧
      ∃ ty, ⟨x, .eq ty e.lhs e.rhs⟩ ∈ g.hyps := by
  obtain ⟨ty, hty, hn⟩ := Kernel.equation_eq_ok he
  have hmem : (⟨x, ty⟩ : Binding) ∈ g.hyps := Context.mem_of_lookup? hty
  obtain ⟨e₀, rfl⟩ := h.equates _ hmem (List.mem_cons_of_mem _ List.mem_cons_self)
  have hfirst := h.firstOrder e₀ (Goal.states_cons.2 (.inl hmem))
  obtain ⟨hl, hr, hfirst, hnormal, hclosed⟩ := hfirst.of_normalize henv hn
  refine ⟨hfirst, hnormal, hclosed, e₀.ty, ?_⟩
  rw [hl, hr]
  exact hmem

/-- The first pending equation is unified where what is read of it is. -/
lemma unifiedBy_cons : g.UnifiedBy σ (x :: rest) ↔ e.UnifiedBy σ ∧ g.UnifiedBy σ rest := by
  obtain ⟨-, -, -, ty, hmem⟩ := h.equation henv he
  constructor
  · exact fun hσ =>
      ⟨hσ ⟨ty, e.lhs, e.rhs⟩ (Goal.states_cons.2 (.inl hmem)),
        fun e₀ he₀ => hσ e₀ (Goal.states_cons.2 (.inr he₀))⟩
  · rintro ⟨hx, hrest⟩ e₀ he₀
    rcases Goal.states_cons.1 he₀ with he₀ | he₀
    · obtain ⟨-, hl, hr⟩ :=
        Term.eq.inj (congrArg Binding.ty (h.isScoped.arranged.eq_of_name he₀ hmem rfl))
      rwa [Equation.UnifiedBy, hl, hr]
    · exact hrest e₀ he₀

/-- What occurs in the first pending equation is a hypothesis of a closed type. -/
lemma exists_mem (hy : y ∈ e.lhs.freeVars ∨ y ∈ e.rhs.freeVars) :
    ∃ B, ⟨y, B⟩ ∈ g.hyps ∧ B.freeVars = [] := by
  obtain ⟨hfirst, -⟩ := h.equation henv he
  have hmem : y ∈ e.toTerm.freeVars := by
    rcases hy with hy | hy <;> simp [Equation.toTerm, Term.freeVars, hy]
  obtain ⟨B, hB, hclosed⟩ : ∃ B, ⟨y, B⟩ ∈ Γ ∧ B.freeVars = [] := by
    rcases hy with hy | hy
    · obtain ⟨_, hl, -⟩ := hfirst.lhs
      exact hl.exists_mem hy
    · obtain ⟨_, hr, -⟩ := hfirst.rhs
      exact hr.exists_mem hy
  refine ⟨B, h.present ⟨y, B⟩ hB hclosed (h.isScoped.equation he y hmem).1 fun hpending => ?_,
    hclosed⟩
  exact h.toQueues.equation he y hpending hmem

/-- **An equation that is of no use is cyclic.** -/
lemma isCyclic (hopen : e.IsOpen k.env) (hnone : g.eliminable? e = none) : e.IsCyclic := by
  obtain ⟨hfirst, hnormal, -⟩ := h.equation henv he
  obtain ⟨hl, hr⟩ : g.solves? e.lhs e.rhs = none ∧ g.solves? e.rhs e.lhs = none := by
    rw [Goal.eliminable?] at hnone
    split at hnone
    · split at hnone <;> cases hnone
    · cases hnone
    · exact ⟨‹_›, hnone⟩
  have hoccurs : ∀ {s t : Term} {y : Name}, g.solves? s t = none → s = .var y →
      (∃ B, ⟨y, B⟩ ∈ g.hyps ∧ B.freeVars = []) → y ∈ t.freeVars := by
    rintro s t y hs rfl ⟨B, hB, -⟩
    have hlookup : g.lookup? y = some B := Context.lookup?_of_mem h.isScoped.arranged.distinct hB
    simpa [Goal.solves?, hlookup, Term.occurs] using hs
  by_cases hlvar : ∃ y, e.lhs = .var y
  · obtain ⟨y, hy⟩ := hlvar
    refine ⟨y, e.rhs, .inl ⟨hy, rfl⟩, fun heq => hopen.differs (by rw [hy, heq]; exact .rfl), ?_⟩
    exact hoccurs hl hy (h.exists_mem henv he (.inl (by simp [hy, Term.freeVars])))
  by_cases hrvar : ∃ y, e.rhs = .var y
  · obtain ⟨y, hy⟩ := hrvar
    refine ⟨y, e.lhs, .inr ⟨hy, rfl⟩, fun heq => hopen.differs (by rw [hy, heq]; exact .rfl), ?_⟩
    exact hoccurs hr hy (h.exists_mem henv he (.inr (by simp [hy, Term.freeVars])))
  · exact absurd hopen (hfirst.not_isOpen hnormal (not_exists.1 hlvar) (not_exists.1 hrvar))

/-- **The hypotheses can be put in order** whenever a variable is eliminated: those of closed types
first, then the others as they stand. -/
lemma exists_reorder (hy : g.eliminable? e = some y) {v : Term}
    (hv : Kernel.solvedFor e y = some v) : ∃ hyps, reorder (replaced g.hyps x y v) = some hyps := by
  obtain ⟨-, v', hv', hocc⟩ := Goal.eliminable?_eq_some hy
  obtain rfl : v' = v := Option.some.inj (hv'.symm.trans hv)
  have hside : ∀ z ∈ v'.freeVars, z ∈ e.lhs.freeVars ∨ z ∈ e.rhs.freeVars := by
    obtain ⟨-, rfl⟩ | ⟨-, rfl⟩ := Kernel.solvedFor_eq_some hv
    · exact fun z hz => .inl hz
    · exact fun z hz => .inr hz
  have hfirst :
      OrderedFrom [] ((replaced g.hyps x y v').filter fun b => b.ty.freeVars.isEmpty) := by
    refine .of_forall fun b hb z hz => ?_
    rw [List.isEmpty_iff.1 (List.mem_filter.1 hb).2] at hz
    exact hz
  refine UniqueEvidence.exists_reorder (List.filter_append_perm (fun b => b.ty.freeVars.isEmpty) _)
    (hfirst.append ?_)
  refine orderedFrom_replaced h.isScoped.arranged.ordered ?_ (by simp) (fun z hz => ?_)
    fun b hb hclosed => ?_
  · exact fun b hb => h.unmentioned b hb x (List.mem_cons_of_mem _ List.mem_cons_self)
  · obtain ⟨B, hB, hclosed⟩ := h.exists_mem henv he (hside z hz)
    have hzy : z ≠ y := fun heq => hocc (heq ▸ hz)
    have hzx : z ≠ x := fun heq => by
      refine h.toQueues.equation he x (List.mem_cons_of_mem _ List.mem_cons_self) ?_
      rcases hside z hz with hz | hz <;> simp [Equation.toTerm, Term.freeVars, ← heq, hz]
    have hmem := mem_replaced (v := v') hB hzy hzx
    rw [Term.subst_of_not_mem (by simp [hclosed])] at hmem
    exact List.mem_append_left _
      (List.mem_map.2 ⟨_, List.mem_filter.2 ⟨hmem, by simp [hclosed]⟩, rfl⟩)
  · exact List.mem_append_left _
      (List.mem_map.2 ⟨b, List.mem_filter.2 ⟨hb, by simp [hclosed]⟩, rfl⟩)

end

/-! What a step that ends well keeps, and how the assignments before and after it correspond. -/

section

variable (henv : k.env.TakesClosed) (hΓ : (Binding.names Γ).Nodup)
  (h : g.Unifying k.env Γ pf (x :: rest)) (he : k.equation g x = .ok e)
  (hfate : Simplifies k.env pf x g e (.ok (.parts names)) g')
include henv hΓ h he hfate

/-- **A step that ends well keeps the invariant.** -/
theorem simplifies : g'.Unifying k.env Γ pf (rest ++ names) := by
  obtain ⟨hfirst, -, hclosed, -⟩ := h.equation henv he
  have hresolves := h.toResolves.simplifies henv he hfate
  have hrest : rest ⊆ pf :: rest := List.subset_cons_self pf rest
  -- the other pending equations are at closed types, as the one that is kept is not among them
  have hothers : ∀ e₀, g.States rest e₀ → e₀.IsFirstOrder k.env Γ ∧ e₀.ty.freeVars = [] := by
    rintro e₀ ⟨z, hz, he₀⟩
    have hstates : g.States (x :: rest) e₀ := ⟨z, List.mem_cons_of_mem _ hz, he₀⟩
    refine ⟨h.firstOrder e₀ hstates, h.closed (fun hpf => ?_) e₀ hstates⟩
    rw [(List.cons.inj (h.tuples hpf).1).2] at hz
    cases hz
  have hpending : ∀ e₀, g'.States (rest ++ names) e₀ → e₀.IsFirstOrder k.env Γ ∧
      e₀.ty.freeVars = [] := by
    intro e₀ he₀
    cases hfate with
    | drop hc =>
      rw [List.append_nil] at he₀
      exact hothers e₀ ((h.states_dropped hrest).1 he₀)
    | split hc hparts =>
      rcases Goal.states_append.1 he₀ with he₀ | he₀
      · exact hothers e₀ ((h.states_split hrest).1 he₀)
      · exact hparts.isFirstOrder henv hfirst hclosed (h.states_split_new.1 he₀)
    | @eliminate y v hyps hopen hy hv hreorder =>
      rw [List.append_nil] at he₀
      obtain ⟨e₁, he₁, rfl⟩ := (h.states_eliminated he hopen hy hreorder hrest _).1 he₀
      obtain ⟨hfirst₁, hclosed₁⟩ := hothers e₁ he₁
      refine ⟨hfirst₁.replace hclosed₁ (hfirst.value hΓ hv).2, ?_⟩
      rw [Equation.replace, Term.subst_of_not_mem (by simp [hclosed₁])]
      exact hclosed₁
  refine ⟨hresolves, fun b hb hty hname hnew => ?_, fun e₀ he₀ => (hpending e₀ he₀).1,
    fun _ e₀ he₀ => (hpending e₀ he₀).2⟩
  obtain ⟨hold, hnew'⟩ := Goal.Resolves.mem_names_of_simplifies hfate hname hnew
  have hb' := h.present b hb hty hold hnew'
  have hbx : b.name ≠ x := fun heq => hnew' (heq ▸ List.mem_cons_of_mem _ List.mem_cons_self)
  cases hfate with
  | drop hc => exact Goal.mem_dropped.2 ⟨hb', .inr hbx⟩
  | split hc hparts => exact Goal.mem_dropped.2 ⟨List.mem_append_left _ hb', .inr hbx⟩
  | @eliminate y v hyps hopen hy hv hreorder =>
    obtain ⟨b₁, hb₁, hname₁⟩ := List.mem_map.1 hname
    obtain ⟨b₀, -, ⟨hb₀y, -⟩, rfl⟩ := (mem_reordered hreorder).1 hb₁
    refine (mem_reordered hreorder).2 ⟨b, hb', ⟨hname₁ ▸ hb₀y, hbx⟩, ?_⟩
    rw [Term.subst_of_not_mem (by simp [hty])]

/-- **Assignments correspond**: those that unify what is pending after a step become, with a value
put for an eliminated variable, those that unify what was pending before. -/
theorem solutions :
    ∃ φ : (Name → Term) → Name → Term, (∀ σ, g'.UnifiedBy σ (rest ++ names) ↔
      g.UnifiedBy (φ σ) (x :: rest)) ∧
    (∀ σ, g.UnifiedBy σ (x :: rest) → φ σ = σ) ∧ ∀ σ, Assigns k.env Γ σ →
      Assigns k.env Γ (φ σ) := by
  obtain ⟨hfirst, -, hclosed, -⟩ := h.equation henv he
  have hrest : rest ⊆ pf :: rest := List.subset_cons_self pf rest
  cases hfate with
  | drop hc =>
    refine ⟨id, fun σ => ?_, fun σ _ => rfl, fun σ hσ => hσ⟩
    have hx : e.UnifiedBy σ :=
      congrArg (Term.eval σ) (hfirst.isFlat.2.eq_of_conv hfirst.isFlat.1 hc)
    rw [List.append_nil, id, h.unifiedBy_cons henv he, and_iff_right hx]
    exact forall_congr' fun e₀ => imp_congr_left (h.states_dropped hrest)
  | split hc hparts =>
    refine ⟨id, fun σ => ?_, fun σ _ => rfl, fun σ hσ => hσ⟩
    rw [id, h.unifiedBy_cons henv he, hparts.unifiedBy_iff, and_comm]
    simp only [Goal.UnifiedBy, Goal.states_append, or_imp, forall_and,
      h.states_split hrest, h.states_split_new]
  | @eliminate y v hyps hopen hy hv hreorder =>
    obtain ⟨-, v', hv', hocc⟩ := Goal.eliminable?_eq_some hy
    obtain rfl : v' = v := Option.some.inj (hv'.symm.trans hv)
    obtain ⟨-, hvalue⟩ := hfirst.value hΓ hv
    refine ⟨fun σ => Function.update σ y (v'.eval σ), fun σ => ?_, fun σ hσ => ?_,
      fun σ hσ => hσ.update hvalue⟩
    · -- the value does not mention the variable, so the equation itself is unified
      have hx : e.UnifiedBy (Function.update σ y (v'.eval σ)) := by
        rw [Equation.unifiedBy_iff_of_solvedFor hv, Function.update_self]
        refine Term.eval_congr fun z hz => ?_
        have hzy : z ≠ y := fun heq => hocc (heq ▸ hz)
        rw [Function.update_of_ne hzy]
      rw [List.append_nil, h.unifiedBy_cons henv he, and_iff_right hx]
      constructor
      · intro hσ e₀ he₀
        have hflat := (h.firstOrder e₀ (Goal.states_cons.2 (.inr he₀))).isFlat
        rw [← Equation.unifiedBy_replace hflat]
        exact hσ _ ((h.states_eliminated he hopen hy hreorder hrest _).2 ⟨e₀, he₀, rfl⟩)
      · intro hσ e₁ he₁
        obtain ⟨e₀, he₀, rfl⟩ := (h.states_eliminated he hopen hy hreorder hrest _).1 he₁
        have hflat := (h.firstOrder e₀ (Goal.states_cons.2 (.inr he₀))).isFlat
        rw [Equation.unifiedBy_replace hflat]
        exact hσ e₀ he₀
    · have hx := ((h.unifiedBy_cons henv he).1 hσ).1
      rw [Equation.unifiedBy_iff_of_solvedFor hv] at hx
      change Function.update σ y (v'.eval σ) = σ
      rw [← hx, Function.update_eq_self]

omit hΓ in
/-- **Each step uses something up.** -/
theorem burden_lt :
    Prod.Lex (· < ·) (· < ·) (g'.burden pf (rest ++ names)) (g.burden pf (x :: rest)) := by
  obtain ⟨-, -, -, ty, hmem⟩ := h.equation henv he
  have hgoal' := (h.toResolves.simplifies henv he hfate).isScoped
  have hothers : g'.names.toFinset \ (pf :: (rest ++ names)).toFinset ⊆ g.names.toFinset \
      (pf :: x :: rest).toFinset := by
    intro z hz
    rw [Finset.mem_sdiff, List.mem_toFinset, List.mem_toFinset] at hz ⊢
    exact Goal.Resolves.mem_names_of_simplifies hfate hz.1 hz.2
  have hlisted : rest ⊆ g.names := fun z hz => h.listed (List.mem_cons_of_mem _ hz)
  have hx : g.sidesAt x = e.lhs.size + e.rhs.size := h.isScoped.sidesAt hmem
  cases hfate with
  | drop hc =>
    refine Prod.Lex.right' _ (Finset.card_le_card hothers) ?_
    have hrest := h.isScoped.sum_sidesAt hgoal' hlisted fun b hb hname =>
      Goal.mem_dropped.2 ⟨hb, .inr (h.toQueues.ne_of_mem hname)⟩
    have hpos := e.lhs.size_pos
    rw [List.append_nil, List.map_cons, List.sum_cons, hrest, hx]
    omega
  | @split parts hc hparts =>
    refine Prod.Lex.right' _ (Finset.card_le_card hothers) ?_
    have hrest := h.isScoped.sum_sidesAt hgoal' hlisted fun b hb hname =>
      Goal.mem_dropped.2 ⟨List.mem_append_left _ hb, .inr (h.toQueues.ne_of_mem hname)⟩
    have hnew := hgoal'.sum_sidesAt_new (length_freshNames ..) fun b hb =>
      Goal.mem_dropped.2 ⟨List.mem_append_right _ hb, .inr ?_⟩
    · have hlt := hparts.sum_sidesSize_lt
      rw [List.map_append, List.sum_append, List.map_cons, List.sum_cons, hrest, hnew, hx]
      omega
    · rintro rfl
      exact not_mem_of_mem_freshNames (mem_of_zipWith hb).1 (h.listed List.mem_cons_self)
  | @eliminate y v hyps hopen hy hv hreorder =>
    -- the variable itself is gone
    obtain ⟨hlookup, -⟩ := Goal.eliminable?_eq_some hy
    obtain ⟨A, hA⟩ := Option.isSome_iff_exists.1 hlookup
    have hold : y ∈ g.names := List.mem_map.2 ⟨_, Context.mem_of_lookup? hA, rfl⟩
    refine Prod.Lex.left _ _
      (Finset.card_lt_card ((Finset.ssubset_iff_of_subset hothers).2 ⟨y, ?_, ?_⟩))
    · rw [Finset.mem_sdiff, List.mem_toFinset, List.mem_toFinset]
      exact ⟨hold, h.toQueues.not_pending he hy⟩
    · rw [Finset.mem_sdiff, List.mem_toFinset]
      rintro ⟨hz, -⟩
      obtain ⟨b, hb, hname⟩ := List.mem_map.1 hz
      obtain ⟨b₀, -, ⟨hb₀y, -⟩, rfl⟩ := (mem_reordered hreorder).1 hb
      exact hb₀y hname

end

/-- The first pending equation is read in one way, at every depth that suffices. -/
lemma exists_equation (h : g.Unifying k.env Γ pf (x :: rest)) : ∃ D e, ∀ depth,
    (depth < D ∧ Kernel.equation { k with depth } g x = .error .exhausted) ∨
      Kernel.equation { k with depth } g x = .ok e := by
  obtain ⟨ty, hty⟩ := Option.isSome_iff_exists.1 h.toQueues.isSome_lookup?
  have hmem : (⟨x, ty⟩ : Binding) ∈ g.hyps := Context.mem_of_lookup? hty
  obtain ⟨e₀, rfl⟩ := h.equates _ hmem (List.mem_cons_of_mem _ List.mem_cons_self)
  have hfirst := h.firstOrder e₀ (Goal.states_cons.2 (.inl hmem))
  obtain ⟨D, u, hu⟩ := hfirst.normalises.eq hfirst.isFlat.1 hfirst.isFlat.2
  obtain ⟨-, ty', l', r', -, rfl⟩ := Term.normalize_eq hu
  refine ⟨D, ⟨ty', l', r'⟩, fun depth => ?_⟩
  cases hn : e₀.toTerm.normalize depth with
  | none =>
    refine .inl ⟨not_le.1 fun hle => ?_, ?_⟩
    · cases (Term.normalize_mono hle hu).symm.trans hn
    · simp [Kernel.equation, hty, Kernel.normalize, hn, withinDepth]
  | some u =>
    have hmax := Term.normalize_mono (Nat.le_max_left D depth) hu
    obtain rfl :=
      Option.some.inj (hmax.symm.trans (Term.normalize_mono (Nat.le_max_right D depth) hn))
    exact .inr (by simp [Kernel.equation, hty, Kernel.normalize, hn, withinDepth,
      Equation.ofTerm?, pure, Except.pure])

end Goal.Unifying

/-! ### The verdict -/

/-- What simplification finds out about the pending equations, and how it ends. -/
inductive Goal.Verdict (env : Environment) (Γ : List Binding) (g : Goal) (pending : List Name) :
    Except Fault (Option Name) → Goal → Prop where
  /-- They have a unifier. -/
  | unified {σ : Name → Term} {g' : Goal} : Assigns env Γ σ → g.UnifiedBy σ pending →
    Verdict env Γ g pending (.ok none) g'
  /-- They lead to an equation between distinct constructors. -/
  | clash {x : Name} {e : Equation} {g' : Goal} : ⟨x, e.toTerm⟩ ∈ g'.hyps → e.Clashes env →
      (∀ σ, ¬ g.UnifiedBy σ pending) → Verdict env Γ g pending (.ok (some x)) g'
  /-- They lead to an equation between a variable and a larger term that contains it. -/
  | cyclic {x : Name} {e : Equation} {g' : Goal} : e.IsCyclic → (∀ σ, ¬ g.UnifiedBy σ pending) →
      Verdict env Γ g pending (.error (.stuck (.irreducible x e.toTerm))) g'

/-- In enough steps, and at every depth that suffices, simplification reaches its verdict. -/
def Goal.IsDecided (k : Kernel) (Γ : List Binding) (g : Goal) (pf : Name) (pending : List Name) :
    Prop :=
  ∃ N D, ∀ steps ≥ N, ∀ (depth : Nat) (limit : Int),
    (depth < D ∧
      ∃ g', Attempt.EndsAt g (Attempt.destructure { k with depth } pf limit steps pending)
      (.error .exhausted) g') ∨
    ∃ o g', Attempt.EndsAt g (Attempt.destructure { k with depth } pf limit steps pending) o g' ∧
      g.Verdict k.env Γ pending o g'

section

variable {g g₁ : Goal} {pf x : Name} {pending pending₁ rest names : List Name}
  {o : Except Fault (Option Name)} {r : Except Fault Simplified} {D : Nat}

/-- A verdict on what is pending after a step is one on what was pending before. -/
lemma Goal.Verdict.of_solutions {g' : Goal} {φ : (Name → Term) → Name → Term}
    (hφ : ∀ σ, g₁.UnifiedBy σ pending₁ ↔ g.UnifiedBy (φ σ) pending)
    (hself : ∀ σ, g.UnifiedBy σ pending → φ σ = σ)
    (hassigns : ∀ σ, Assigns env Γ σ → Assigns env Γ (φ σ)) (h : g₁.Verdict env Γ pending₁ o g') :
    g.Verdict env Γ pending o g' := by
  have hnone : (∀ σ, ¬ g₁.UnifiedBy σ pending₁) → ∀ σ, ¬ g.UnifiedBy σ pending :=
      fun hnone σ hσ => by
    refine hnone σ ((hφ σ).2 ?_)
    rwa [hself σ hσ]
  cases h with
  | unified hσ hunified => exact .unified (hassigns _ hσ) ((hφ _).1 hunified)
  | clash hmem hclash hno => exact .clash hmem hclash (hnone hno)
  | cyclic hcyclic hno => exact .cyclic hcyclic (hnone hno)

namespace Goal.IsDecided

variable (hlisted : x :: rest ⊆ g.names) (hstep : ∀ depth,
  (depth < D ∧ Attempt.EndsAt g (Attempt.simplify { k with depth } pf x) (.error .exhausted) g) ∨
    Attempt.EndsAt g (Attempt.simplify { k with depth } pf x) r g₁)
include hlisted hstep

/-- A step that ends the loop. -/
lemma of_end
    (hend : ∀ (k : Kernel) (limit : Int) (steps : Nat), Attempt.EndsAt g (Attempt.simplify k pf x) r
      g₁ → Attempt.EndsAt g (Attempt.destructure k pf limit (steps + 1) (x :: rest)) o g₁)
    (hverdict : g.Verdict k.env Γ (x :: rest) o g₁) : g.IsDecided k Γ pf (x :: rest) := by
  refine ⟨1, D, fun steps hsteps depth limit => ?_⟩
  obtain ⟨steps, rfl⟩ := Nat.exists_eq_add_of_le' hsteps
  rcases hstep depth with ⟨hlt, hdeep⟩ | hstep
  · exact .inl ⟨hlt, g, Attempt.endsAt_destructure_error hlisted hdeep⟩
  · exact .inr ⟨o, g₁, hend _ limit steps hstep, hverdict⟩

/-- A step that leaves equations which are decided. -/
lemma of_parts (hr : r = .ok (.parts names)) (hnext : g₁.IsDecided k Γ pf (rest ++ names))
    (hback : ∀ o g', g₁.Verdict k.env Γ (rest ++ names) o g' → g.Verdict k.env Γ (x :: rest) o g') :
    g.IsDecided k Γ pf (x :: rest) := by
  subst hr
  obtain ⟨N, D₁, hnext⟩ := hnext
  refine ⟨N + 1, max D D₁, fun steps hsteps depth limit => ?_⟩
  obtain ⟨steps, rfl⟩ := Nat.exists_eq_add_of_le' (Nat.le_of_add_left_le hsteps)
  rcases hstep depth with ⟨hlt, hdeep⟩ | hstep
  · exact .inl ⟨lt_max_of_lt_left hlt, g, Attempt.endsAt_destructure_error hlisted hdeep⟩
  rcases hnext steps (Nat.le_of_succ_le_succ hsteps) depth limit with ⟨hlt, g', hdeep⟩ |
    ⟨o, g', hrun, hverdict⟩
  · exact .inl ⟨lt_max_of_lt_right hlt, g', Attempt.endsAt_destructure_parts hlisted hstep hdeep⟩
  · exact .inr ⟨o, g', Attempt.endsAt_destructure_parts hlisted hstep hrun, hback o g' hverdict⟩

end Goal.IsDecided

/-- **First-order equations are unified**: simplification decides whether they have a unifier. -/
theorem Goal.Unifying.isDecided (henv : k.env.TakesClosed) (hΓ : (Binding.names Γ).Nodup)
    (h : g.Unifying k.env Γ pf pending) : g.IsDecided k Γ pf pending := by
  have hwf : WellFounded (Prod.Lex (· < ·) (· < ·) : Nat × Nat → Nat × Nat → Prop) :=
    wellFounded_lt.prod_lex wellFounded_lt
  induction hb : g.burden pf pending using hwf.induction generalizing g pending with
  | _ b ih =>
    subst hb
    cases pending with
    | nil =>
      have hnone : g.UnifiedBy .var [] := by simp [Goal.UnifiedBy, Goal.States]
      exact ⟨0, 0, fun steps _ depth limit =>
        .inr ⟨_, g, Attempt.endsAt_destructure_nil steps, .unified (assigns_var k.env Γ) hnone⟩⟩
    | cons x rest =>
      obtain ⟨D, e, hread⟩ := h.exists_equation
      have he : Kernel.equation { k with depth := D } g x = .ok e :=
        (hread D).resolve_left fun hlt => lt_irrefl D hlt.1
      have henv₀ : ({ k with depth := D } : Kernel).env.TakesClosed := henv
      obtain ⟨hfirst, -, -, ty, hmem⟩ := h.equation henv₀ he
      have hcons : ∀ {σ}, g.UnifiedBy σ (x :: rest) → e.UnifiedBy σ :=
        fun hσ => ((h.unifiedBy_cons henv₀ he).1 hσ).1
      obtain ⟨r, g₁, hfate⟩ := exists_simplifies k.env pf x g e
      have hstep : ∀ depth,
          (depth < D ∧
          Attempt.EndsAt g (Attempt.simplify { k with depth } pf x) (.error .exhausted) g) ∨
          Attempt.EndsAt g (Attempt.simplify { k with depth } pf x) r g₁ := fun depth =>
        (hread depth).imp (fun hdeep => ⟨hdeep.1, h.toResolves.endsAt_simplify_exhausted hdeep.2⟩)
          fun he => h.toResolves.endsAt_simplify henv he hfate
      have hparts : ∀ names, r = .ok (.parts names) → g.IsDecided k Γ pf (x :: rest) := by
        rintro names rfl
        obtain ⟨φ, hφ, hself, hassigns⟩ := h.solutions henv₀ hΓ he hfate
        have hkeep := h.simplifies henv₀ hΓ he hfate
        refine .of_parts h.listed hstep rfl (ih _ (h.burden_lt henv₀ he hfate) hkeep rfl)
          fun o g' => ?_
        exact .of_solutions hφ hself hassigns
      cases hfate with
      | drop => exact hparts _ rfl
      | split => exact hparts _ rfl
      | eliminate => exact hparts _ rfl
      | clash _ _ hclash =>
        refine .of_end h.listed hstep
          (fun _ _ _ => Attempt.endsAt_destructure_contradiction h.listed) ?_
        exact .clash (e := ⟨ty, e.lhs, e.rhs⟩) hmem hclash fun σ hσ =>
          hclash.not_unifiedBy (hcons hσ)
      | unordered _ hy hv hreorder =>
        obtain ⟨hyps, hsome⟩ := h.exists_reorder henv₀ he hy hv
        cases hsome.symm.trans hreorder
      | irreducible hopen hnone =>
        have hcyclic := h.isCyclic henv₀ he hopen hnone
        refine .of_end h.listed hstep (fun _ _ _ => Attempt.endsAt_destructure_error h.listed) ?_
        exact .cyclic hcyclic fun σ hσ => hcyclic.not_unifiedBy hfirst.isFlat (hcons hσ)

/-! ### Index tuples -/

/-- The hypotheses of closed types. -/
def Goal.closedNames (g : Goal) : List Name :=
  Binding.names (g.hyps.filter fun b => b.ty.freeVars.isEmpty)

/-- An equation between tuples of first-order terms can be unified. -/
lemma Goal.Unifying.start (henv : k.env.TakesClosed) (hgoal : g.Scoped) {hyps : List Binding}
    {l r : Tuple} (htypes : Tuple.types l = Tuple.types r)
    (hhyps : g.hyps = hyps ++ [⟨pf, .eq (Tuple.ty l) (Tuple.toTerm l) (Tuple.toTerm r)⟩])
    (hform : ∀ s ∈ l ++ r, s.value.isFirstOrder k.env.dataArity? g.closedNames 0)
    (htyped : ∀ s ∈ l ++ r, k.check g.context s.value s.ty = .ok ()) :
    g.Unifying k.env g.hyps pf [pf] := by
  have hlen : l.length = r.length := by simpa [Tuple.types] using congrArg List.length htypes
  have hctx : ∀ x ty, x ∈ g.closedNames → Context.lookup? g.context x = some ty → ⟨x, ty⟩ ∈ g.hyps ∧
      ty.freeVars = [] := by
    intro x ty hx hlookup
    rw [hgoal.context_eq] at hlookup
    have hmem := Context.mem_of_lookup? hlookup
    obtain ⟨b, hb, rfl⟩ := List.mem_map.1 hx
    obtain ⟨hb, hclosed⟩ := List.mem_filter.1 hb
    have hty : b.ty = ty := congrArg Binding.ty (hgoal.arranged.eq_of_name hb hmem rfl)
    exact ⟨hmem, hty ▸ List.isEmpty_iff.1 hclosed⟩
  have hslots : ∀ s ∈ l ++ r, s.value.IsFirstOrderAt k.env g.hyps s.ty ∧
      s.ty.Normalises := fun s hs =>
    Kernel.isFirstOrderAt_of_check henv hctx (hform s hs) (htyped s hs)
  have hr : (Tuple.toTerm r).IsFirstOrderAt k.env g.hyps (Tuple.ty l) := by
    rw [Tuple.ty, htypes]
    exact Tuple.isFirstOrderAt fun s hs => (hslots s (List.mem_append_right _ hs)).1
  refine ⟨.start hgoal hlen hhyps, fun b hb _ _ _ => hb, fun e he => ?_,
    fun hpf => absurd List.mem_cons_self hpf⟩
  have hlast :
      (⟨pf, Equation.toTerm ⟨Tuple.ty l, Tuple.toTerm l, Tuple.toTerm r⟩⟩ : Binding) ∈ g.hyps := by
    simp [hhyps, Equation.toTerm]
  obtain rfl := (hgoal.states_singleton hlast).1 he
  exact ⟨Tuple.isFirstOrderAt fun s hs => (hslots s (List.mem_append_left _ hs)).1, hr,
    Tuple.normalises fun s hs => (hslots s (List.mem_append_left _ hs)).2⟩

end

end

/-- **Simplifying an index equation is first-order unification.**  Let the last hypothesis equate
two tuples of one type, whose components are well typed first-order terms over the hypotheses of
closed types.  In enough steps, and at every depth that suffices, nothing is left exactly if some
assignment to the variables gives the tuples one value, and then one that respects their types does.
Otherwise an equation between distinct constructors is found, or one between a variable and a
larger term that contains it. -/
theorem Kernel.destructure_unifies {k : Kernel} (henv : k.env.TakesClosed) {goal : Goal}
    (hgoal : goal.Scoped) {hyps : List Binding} {pf : Name} {l r : Tuple}
    (htypes : Tuple.types l = Tuple.types r)
    (hhyps : goal.hyps = hyps ++ [⟨pf, .eq (Tuple.ty l) (Tuple.toTerm l) (Tuple.toTerm r)⟩])
    (hform : ∀ s ∈ l ++ r, s.value.isFirstOrder k.env.dataArity? goal.closedNames 0)
    (htyped : ∀ s ∈ l ++ r, k.check goal.context s.value s.ty = .ok ()) :
    ∃ N D : Nat, ∀ (limit : Int) (depth : Nat) (t : Trail), N ≤ limit → t.goal = goal →
      ∀ result t', Attempt.destructure { k with depth } pf limit limit.toNat [pf] t = (result, t') →
        (depth < D ∧ result.outcome = .error .exhausted) ∨
        ((result.outcome = .ok none ↔
          ∃ σ : Name → Term, (Tuple.toTerm l).eval σ = (Tuple.toTerm r).eval σ) ∧
          (result.outcome = .ok none → ∃ σ, Assigns k.env goal.hyps σ ∧
            (Tuple.toTerm l).eval σ = (Tuple.toTerm r).eval σ) ∧
          (result.outcome ≠ .ok none →
            (∃ x, ∃ e : Equation, result.outcome = .ok (some x) ∧
              ⟨x, e.toTerm⟩ ∈ t'.goal.hyps ∧ e.Clashes k.env) ∨
            ∃ x, ∃ e : Equation, result.outcome = .error (.stuck (.irreducible x e.toTerm)) ∧
              e.IsCyclic)) := by
  obtain ⟨N, D, hdecided⟩ := (Goal.Unifying.start henv hgoal htypes hhyps hform htyped).isDecided
    henv hgoal.arranged.distinct
  refine ⟨N, D, fun limit depth t hlimit ht result t' hrun => ?_⟩
  have hunified : ∀ σ, goal.UnifiedBy σ [pf] ↔
      (Tuple.toTerm l).eval σ = (Tuple.toTerm r).eval σ := by
    intro σ
    have hlast :
        (⟨pf, Equation.toTerm ⟨Tuple.ty l, Tuple.toTerm l, Tuple.toTerm r⟩⟩ : Binding) ∈
        goal.hyps := by
      simp [hhyps, Equation.toTerm]
    simp only [Goal.UnifiedBy, hgoal.states_singleton hlast, forall_eq]
    exact .rfl
  rcases hdecided limit.toNat (by omega) depth limit with ⟨hlt, g', hdeep⟩ |
    ⟨o, g', hends, hverdict⟩
  · have hout := (hdeep t ht).1
    rw [hrun] at hout
    exact .inl ⟨hlt, hout⟩
  · right
    obtain ⟨hout, hgoal'⟩ := hends t ht
    rw [hrun] at hout hgoal'
    subst hout
    subst hgoal'
    have hnone : (∀ σ, ¬ goal.UnifiedBy σ [pf]) →
        ¬ ∃ σ : Name → Term, (Tuple.toTerm l).eval σ = (Tuple.toTerm r).eval σ :=
      fun hno hσ => hσ.elim fun σ hσ => hno σ ((hunified σ).2 hσ)
    generalize result.outcome = o at hverdict ⊢
    cases hverdict with
    | @unified σ _ hσ hunifies =>
      have hsides := (hunified σ).1 hunifies
      exact ⟨iff_of_true rfl ⟨σ, hsides⟩, fun _ => ⟨σ, hσ, hsides⟩, fun hne => absurd rfl hne⟩
    | clash hmem hclash hno =>
      exact ⟨iff_of_false (by simp) (hnone hno), by simp, fun _ => .inl ⟨_, _, rfl, hmem, hclash⟩⟩
    | cyclic hcyclic hno =>
      exact ⟨iff_of_false (by simp) (hnone hno), by simp, fun _ => .inr ⟨_, _, rfl, hcyclic⟩⟩

/-- The equation `spair x x = spair y sunit` has a unifier, so nothing is left of it. -/
theorem Kernel.destructure_unifies_indexed :
    ∃ N D : Nat, ∀ (limit : Int) (depth : Nat), N ≤ limit → D ≤ depth →
    (Attempt.destructure { Sample.kernel Sample.registry with depth } "pf" limit limit.toNat ["pf"]
      ⟨Sample.indexed, [], false⟩).1.outcome = .ok none := by
  have hgoal : Sample.indexed.Scoped := ⟨⟨by decide, by decide⟩, by decide⟩
  have hhyps : Sample.indexed.hyps = [⟨"x", .const "shape"⟩, ⟨"y", .const "shape"⟩] ++
      [⟨"pf", .eq (Tuple.ty Sample.doubled) (Tuple.toTerm Sample.doubled)
        (Tuple.toTerm Sample.grafted)⟩] := rfl
  have htyped : ∀ s ∈ Sample.doubled ++ Sample.grafted,
      (Sample.kernel Sample.registry).check Sample.indexed.context s.value s.ty = .ok () := by
    intro s hs
    rcases List.mem_pair.1 hs with rfl | rfl <;> exact Except.toOption_eq_some.1 (by decide +kernel)
  obtain ⟨N, D, hunifies⟩ := Kernel.destructure_unifies (k := Sample.kernel Sample.registry)
    (by decide) hgoal (by decide) hhyps (by decide) htyped
  refine ⟨N, D, fun limit depth hlimit hdepth => ?_⟩
  rcases hunifies limit depth ⟨Sample.indexed, [], false⟩ hlimit rfl _ _
    rfl with ⟨hlt, -⟩ | ⟨hiff, -⟩
  · omega
  · exact hiff.2 ⟨fun _ => .const "sunit", by decide⟩

end UniqueEvidence
