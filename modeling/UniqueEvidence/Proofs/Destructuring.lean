/-
Simplifying the index equation ends in reflexivity.

The equation that is kept is split and otherwise left alone, so it becomes reflexive only because
other equations are used up.  What carries this through is that the pending equations imply it:
whatever is put for the variables, if the sides of each pending equation become convertible, then so
do the sides of the one that is kept.

* `Equation.SolvedBy`, `Goal.Entails`: a substitution makes the sides of an equation convertible;
  the pending equations imply the one that is kept;
* `Goal.Entails.simplifies`: **each step keeps the implication**;
* `Settled`: the five ways in which simplification can end, with `Attempt.endsAt_destructure`: **it
  ends in one of them**;
* `Kernel.destructure_settles`: so no step but the elimination of a variable is refused, what is
  reported as a contradiction is discriminated, and where nothing is left the equation that is kept
  is reflexive.
-/
import UniqueEvidence.Proofs.Sample
import UniqueEvidence.Proofs.Simplification

namespace UniqueEvidence

open Nameless

variable {k : Kernel} {g g' : Goal} {pf x : Name} {pending rest : List Name} {e : Equation}
  {σ : Ref → Nameless}

/-! ### Equations that a substitution solves -/

/-- The substitution makes the sides of the equation convertible. -/
def Equation.SolvedBy (σ : Ref → Nameless) (e : Equation) : Prop :=
  (e.lhs.nameless.subst σ).Conv (e.rhs.nameless.subst σ)

lemma Equation.SolvedBy.of_conv (h : e.lhs.nameless.Conv e.rhs.nameless) (σ : Ref → Nameless) :
    e.SolvedBy σ :=
  h.subst σ

/-- An equation is solved where those that it splits into are. -/
lemma Kernel.Splits.solvedBy {env : Environment} {parts : List Term} (h : Splits env e parts)
    (hparts : ∀ e' : Equation, e'.toTerm ∈ parts → e'.SolvedBy σ) : e.SolvedBy σ := by
  cases h with
  | @pairs a b l₁ l₂ r₁ r₂ heq =>
    subst heq
    exact (hparts ⟨a, l₁, r₁⟩ (by simp [Equation.toTerm])).pair
      (hparts ⟨b, l₂, r₂⟩ (by simp [Equation.toTerm]))
  | @ctor c d ctor hl hr _ hllen hrlen =>
    have hargs : List.Forall₂ Conv ((e.lhs.args.map Term.nameless).map (Nameless.subst σ))
        ((e.rhs.args.map Term.nameless).map (Nameless.subst σ)) := by
      rw [List.forall₂_map_left_iff, List.forall₂_map_right_iff, List.forall₂_map_left_iff,
        List.forall₂_map_right_iff]
      exact Equation.forall₂_of_zipWith hllen hrlen hparts
    rw [Equation.SolvedBy, ← Term.apps_head_args e.lhs, ← Term.apps_head_args e.rhs, hl, hr,
      Term.nameless_apps, Term.nameless_apps, Nameless.subst_apps, Nameless.subst_apps]
    exact Conv.apps .rfl hargs

/-- What a substitution solves after a variable has been replaced, it solves before, once it also
puts the value for it. -/
lemma Equation.solvedBy_replace (e : Equation) (y : Name) (v : Term) :
    (e.replace y v).SolvedBy σ ↔ e.SolvedBy fun r => (single y v.nameless r).subst σ := by
  simp only [Equation.SolvedBy, Equation.replace, Term.nameless_subst, Nameless.subst_subst]

/-- An equation for a variable is solved by the substitutions that also put the value for it. -/
lemma Equation.solvedBy_of_solvedFor {y : Name} {v : Term} (hv : Kernel.solvedFor e y = some v)
    (hocc : y ∉ v.freeVars) : e.SolvedBy fun r => (single y v.nameless r).subst σ := by
  -- the value does not mention the variable, so both sides become the value
  have hvalue : (v.nameless.subst fun r => (single y v.nameless r).subst σ) =
      v.nameless.subst σ := by
    rw [← Nameless.subst_subst,
      Nameless.subst_single_of_not_occurs (mt Term.occurs_nameless.1 hocc)]
  rw [Equation.SolvedBy]
  obtain ⟨hr, hl⟩ | ⟨hl, hr⟩ := Kernel.solvedFor_eq_some hv
  · rw [hl, hr, hvalue, Term.nameless, Nameless.subst, single_self]
    exact .rfl
  · rw [hl, hr, hvalue, Term.nameless, Nameless.subst, single_self]
    exact .rfl

/-- The equation that a hypothesis states is solved with its normal form. -/
lemma Kernel.solvedBy_of_equation (hgoal : g.Scoped) (he : k.equation g x = .ok e)
    (hsolved : e.SolvedBy σ) {e₀ : Equation} (he₀ : ⟨x, e₀.toTerm⟩ ∈ g.hyps) : e₀.SolvedBy σ := by
  obtain ⟨ty, hty, hn⟩ := Kernel.equation_eq_ok he
  obtain rfl : ty = e₀.toTerm :=
    congrArg Binding.ty (hgoal.arranged.eq_of_name (Context.mem_of_lookup? hty) he₀ rfl)
  obtain ⟨-, hl, hr⟩ := (Conv.of_reduces (Kernel.normalize_spec hn).1).eq_inj
  exact ((hl.subst σ).trans hsolved).trans (hr.subst σ).symm

/-! ### The pending equations imply the one that is kept -/

/-- What solves the pending equations solves the one that is kept. -/
def Goal.Entails (g : Goal) (pf : Name) (pending : List Name) : Prop :=
  ∀ σ : Ref → Nameless, (∀ e, g.States pending e → e.SolvedBy σ) →
    ∀ e, g.States [pf] e → e.SolvedBy σ

/-- **Each step keeps the implication.** -/
theorem Goal.Entails.simplifies (h : g.Resolves pf (x :: rest)) (hpf : g.Entails pf (x :: rest))
    (he : k.equation g x = .ok e) {names : List Name}
    (hfate : Simplifies k.env pf x g e (.ok (.parts names)) g') :
    g'.Entails pf (rest ++ names) := by
  have hkept : [pf] ⊆ pf :: rest := List.cons_subset_cons _ (List.nil_subset rest)
  have hrest : rest ⊆ pf :: rest := List.subset_cons_self pf rest
  -- it is enough to solve the first equation as it is read
  have hsolved : ∀ {σ : Ref → Nameless}, e.SolvedBy σ → (∀ e₀, g.States rest e₀ → e₀.SolvedBy σ) →
      ∀ e₀, g.States [pf] e₀ → e₀.SolvedBy σ := fun hx hothers =>
    hpf _ fun e₀ he₀ =>
      (Goal.states_cons.1 he₀).elim (Kernel.solvedBy_of_equation h.isScoped he hx) (hothers e₀)
  intro σ hσ e₀ he₀
  cases hfate with
  | drop hc =>
    rw [List.append_nil] at hσ
    exact hsolved (.of_conv hc σ) (fun e₁ he₁ => hσ e₁ ((h.states_dropped hrest).2 he₁)) e₀
      ((h.states_dropped hkept).1 he₀)
  | split hc hparts =>
    refine hsolved (hparts.solvedBy fun e₁ he₁ => hσ e₁ ?_) (fun e₁ he₁ => hσ e₁ ?_) e₀
      ((h.states_split hkept).1 he₀)
    · exact Goal.states_append.2 (.inr (h.states_split_new.2 he₁))
    · exact Goal.states_append.2 (.inl ((h.states_split hrest).2 he₁))
  | @eliminate y v hyps hopen hy hv hreorder =>
    rw [List.append_nil] at hσ
    obtain ⟨-, v', hv', hocc⟩ := Goal.eliminable?_eq_some hy
    obtain rfl : v' = v := Option.some.inj (hv'.symm.trans hv)
    obtain ⟨e₁, he₁, rfl⟩ := (h.states_eliminated he hopen hy hreorder hkept _).1 he₀
    rw [Equation.solvedBy_replace]
    refine hsolved (Equation.solvedBy_of_solvedFor hv hocc) (fun e₂ he₂ => ?_) e₁ he₁
    rw [← Equation.solvedBy_replace]
    exact hσ _ ((h.states_eliminated he hopen hy hreorder hrest _).2 ⟨e₂, he₂, rfl⟩)

/-! ### How simplification ends -/

/-- The ways in which simplification can end, each with the goal that it leaves. -/
inductive Settled (k : Kernel) (pf : Name) : Except Fault (Option Name) → Goal → Prop where
  /-- An equation is too deep to be read. -/
  | exhausted {g : Goal} : Settled k pf (.error .exhausted) g
  /-- The steps run out, or an equation is of no use. -/
  | stuck {why : Stuck} {g : Goal} : Settled k pf (.error (.stuck why)) g
  /-- A variable cannot be eliminated. -/
  | unordered {x y : Name} {g : Goal} : x ≠ pf → k.run g (.subst x y) = .error (.refused .noOrder) →
      Settled k pf (.error (.refused .noOrder)) g
  /-- An equation contradicts itself. -/
  | contradiction {x : Name} {g : Goal} : k.run g (.discriminate x) = .ok [] →
    Settled k pf (.ok (some x)) g
  /-- Nothing is left. -/
  | reflexive {g : Goal} : g.Resolves pf [] → (∀ e, g.States [pf] e → e.SolvedBy ref) →
    Settled k pf (.ok none) g

lemma Kernel.run_discriminate (he : k.equation g x = .ok e) (hclash : e.Clashes k.env) :
    k.run g (.discriminate x) = .ok [] := by
  obtain ⟨c, d, hc, hd, hne, hdata⟩ := hclash
  simp [Kernel.run, Kernel.discriminate, he, hc, hd, hne, hdata, pure, Except.pure]

/-- **Simplification ends in one of these ways.** -/
theorem Attempt.endsAt_destructure (henv : k.env.TakesClosed) (limit : Int) (steps : Nat)
    (h : g.Resolves pf pending) (hpf : g.Entails pf pending) :
    ∃ o g', Attempt.EndsAt g (Attempt.destructure k pf limit steps pending) o g' ∧
      Settled k pf o g' := by
  induction steps generalizing g pending with
  | zero =>
    cases pending with
    | nil => exact ⟨_, g, endsAt_destructure_nil 0, .reflexive h (hpf ref (by simp [Goal.States]))⟩
    | cons x rest => exact ⟨_, g, endsAt_destructure_zero h.listed, .stuck⟩
  | succ steps ih =>
    cases pending with
    | nil => exact ⟨_, g, endsAt_destructure_nil _, .reflexive h (hpf ref (by simp [Goal.States]))⟩
    | cons x rest =>
      rcases h.equation_cases k with he | ⟨e, he⟩
      · exact ⟨_, g, endsAt_destructure_error h.listed (h.endsAt_simplify_exhausted he), .exhausted⟩
      obtain ⟨r, g₁, hfate⟩ := exists_simplifies k.env pf x g e
      have hstep := h.endsAt_simplify henv he hfate
      -- what is left of the equation is pending next; everything else ends the loop
      have hparts : ∀ names, r = .ok (.parts names) →
          ∃ o g', EndsAt g (destructure k pf limit (steps + 1) (x :: rest)) o g' ∧
            Settled k pf o g' := by
        rintro names rfl
        obtain ⟨o, g', hrun, hsettled⟩ :=
          ih (h.simplifies henv he hfate) (hpf.simplifies h he hfate)
        exact ⟨o, g', endsAt_destructure_parts h.listed hstep hrun, hsettled⟩
      cases hfate with
      | drop => exact hparts _ rfl
      | split => exact hparts _ rfl
      | eliminate => exact hparts _ rfl
      | clash _ _ hclash =>
        exact ⟨_, g, endsAt_destructure_contradiction h.listed hstep,
          .contradiction (Kernel.run_discriminate he hclash)⟩
      | unordered hopen hy hv hreorder =>
        have hne : x ≠ pf := h.ne_of_isOpen he hopen
        have hrefused :=
          (h.toQueues.run_subst (h.unused x List.mem_cons_self hne) he hy hv).2 hreorder
        exact ⟨_, g, endsAt_destructure_error h.listed hstep, .unordered hne hrefused⟩
      | irreducible => exact ⟨_, g, endsAt_destructure_error h.listed hstep, .stuck⟩

/-- A reflexive equation that no hypothesis mentions can be given up, if its type has a decider. -/
lemma Kernel.ends_uip_of_conv {ty l r : Term} (hlookup : g.lookup? pf = some (.eq ty l r))
    (hconv : l.nameless.Conv r.nameless)
    (hunused : ∀ b ∈ g.hyps, b.name ≠ pf → pf ∉ b.ty.freeVars) :
    Ends (k.run g (.uip pf)) (fun gs => ∃ g', gs = [g'])
      fun f => f = .exhausted ∨ ∃ ty, f = .refused (.missingDecider ty) := by
  have hread : Ends (k.equation g pf) (fun e => e.lhs.nameless.Conv e.rhs.nameless)
      fun f => f = .exhausted ∨ ∃ ty, f = .refused (.missingDecider ty) := by
    cases hn : k.normalize (.eq ty l r) with
    | error f =>
      obtain rfl := Kernel.withinDepth_eq_error hn
      have hdeep : k.equation g pf = .error .exhausted := by simp [Kernel.equation, hlookup, hn]
      exact hdeep ▸ .error (.inl rfl)
    | ok u =>
      obtain ⟨-, ty', l', r', -, rfl⟩ := Term.normalize_eq (Kernel.withinDepth_eq_ok.1 hn)
      have he : k.equation g pf = .ok ⟨ty', l', r'⟩ := by
        simp [Kernel.equation, hlookup, hn, Equation.ofTerm?, pure, Except.pure]
      obtain ⟨-, hl, hr⟩ := (Conv.of_reduces (Kernel.normalize_spec hn).1).eq_inj
      exact he ▸ .ok ((hl.symm.trans hconv).trans hr)
  refine hread.bind fun e he => ?_
  cases hsame : k.convertible e.lhs e.rhs with
  | error f =>
    obtain rfl := Kernel.withinDepth_eq_error hsame
    exact .error (.inl rfl)
  | ok same =>
    obtain rfl := (Kernel.convertible_iff hsame).2 he
    simp only [Except.ok_bind, if_true]
    cases hd : k.decider? e.ty with
    | error f =>
      obtain rfl := Kernel.withinDepth_eq_error hd
      exact .error (.inl rfl)
    | ok d? =>
      cases d? with
      | none => exact .refuse (.inr ⟨_, rfl⟩)
      | some d =>
        simp only [Except.ok_bind, Kernel.unusedInHyps_of hunused]
        exact .ok ⟨_, rfl⟩

/-- **Simplifying the index equation ends in reflexivity, and is refused only for want of an
order.**  No rule but the elimination of a variable is refused on the way, and that only where the
hypotheses cannot be put in order; what is reported as a contradiction is discriminated; and where
nothing is left, the sides of the equation that is kept are convertible, so that it can be given up
wherever its type has a decider. -/
theorem Kernel.destructure_settles (henv : k.env.TakesClosed) {t t' : Trail} (hgoal : t.goal.Scoped)
    {hyps : List Binding} {l r : Tuple} (hlen : l.length = r.length)
    (hhyps : t.goal.hyps = hyps ++ [⟨pf, .eq (Tuple.ty l) (Tuple.toTerm l) (Tuple.toTerm r)⟩])
    (limit : Int) {result : Logged (Option Name)}
    (hrun : Attempt.destructure k pf limit limit.toNat [pf] t = (result, t')) :
    (∀ f, result.outcome = .error f → f = .exhausted ∨ (∃ why, f = .stuck why) ∨
      f = .refused .noOrder ∧ ∃ x y, x ≠ pf ∧ k.run t'.goal (.subst x y) = .error f) ∧
    (∀ x, result.outcome = .ok (some x) → k.run t'.goal (.discriminate x) = .ok []) ∧
    (result.outcome = .ok none → ∃ ty l' r', t'.goal.lookup? pf = some (.eq ty l' r') ∧
      (∀ depth same, Term.convertible depth l' r' = some same → same = true) ∧
      Ends (k.run t'.goal (.uip pf)) (fun gs => ∃ g', gs = [g'])
        fun f => f = .exhausted ∨ ∃ ty, f = .refused (.missingDecider ty)) := by
  obtain ⟨o, g', hends, hsettled⟩ := Attempt.endsAt_destructure (k := k) henv limit limit.toNat
    (.start hgoal hlen hhyps) fun σ hσ => hσ
  obtain ⟨rfl, rfl⟩ := hends t rfl
  rw [hrun] at hsettled
  generalize result.outcome = o at hsettled
  refine ⟨?_, ?_, ?_⟩
  · rintro f rfl
    cases hsettled with
    | exhausted => exact .inl rfl
    | stuck => exact .inr (.inl ⟨_, rfl⟩)
    | unordered hne hrefused => exact .inr (.inr ⟨rfl, _, _, hne, hrefused⟩)
  · rintro x rfl
    cases hsettled with
    | contradiction hclash => exact hclash
  · rintro rfl
    cases hsettled with
    | reflexive h hsolved =>
      obtain ⟨b, hb, rfl⟩ := List.mem_map.1 h.kept
      obtain ⟨e, he⟩ := h.equates b hb List.mem_cons_self
      have hlookup := Context.lookup?_of_mem h.isScoped.arranged.distinct hb
      rw [he] at hlookup
      have hconv : e.lhs.nameless.Conv e.rhs.nameless := by
        have hsides := hsolved e ⟨b.name, List.mem_cons_self, he ▸ hb⟩
        rwa [Equation.SolvedBy, Nameless.subst_ref, Nameless.subst_ref] at hsides
      refine ⟨e.ty, e.lhs, e.rhs, hlookup,
        fun depth same hsame => (Term.convertible_iff hsame).2 hconv, ?_⟩
      exact Kernel.ends_uip_of_conv hlookup hconv fun b' hb' _ =>
        h.unmentioned b' hb' _ List.mem_cons_self

/-- The equation `spair x x = spair y sunit` replaces both variables by `sunit`, and can be given up
then. -/
theorem Kernel.destructure_settles_indexed :
    ∃ result t', Attempt.destructure (Sample.kernel Sample.registry) "pf" 9 9 ["pf"]
      ⟨Sample.indexed, [], false⟩ = (result, t') ∧
      result.outcome = .ok none ∧ ∃ ty l r, t'.goal.lookup? "pf" = some (.eq ty l r) ∧
        (∀ depth same, Term.convertible depth l r = some same → same = true) ∧
        Ends ((Sample.kernel Sample.registry).run t'.goal (.uip "pf")) (fun gs => ∃ g', gs = [g'])
          fun f => f = .exhausted ∨ ∃ ty, f = .refused (.missingDecider ty) := by
  have hgoal : Sample.indexed.Scoped := ⟨⟨by decide, by decide⟩, by decide⟩
  have hhyps : Sample.indexed.hyps = [⟨"x", .const "shape"⟩, ⟨"y", .const "shape"⟩] ++
      [⟨"pf", .eq (Tuple.ty Sample.doubled) (Tuple.toTerm Sample.doubled)
        (Tuple.toTerm Sample.grafted)⟩] := rfl
  have hnone :
      (Attempt.destructure (Sample.kernel Sample.registry) "pf" 9 9 ["pf"] ⟨Sample.indexed,
      [], false⟩).1.outcome = .ok none := Except.toOption_eq_some.1 (by decide +kernel)
  obtain ⟨-, -, hreflexive⟩ := Kernel.destructure_settles
    (k := Sample.kernel Sample.registry) (by decide)
    (t := ⟨Sample.indexed, [], false⟩) hgoal (by decide) hhyps 9 rfl
  exact ⟨_, _, rfl, hnone, hreflexive hnone⟩

end UniqueEvidence
