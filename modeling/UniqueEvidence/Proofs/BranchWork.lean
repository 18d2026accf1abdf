/-
How the work on a branch can fail.

* `Spares`: a computation that fails only by running out of depth, or by a refusal that is not for
  want of a decider; `Kernel.spares_inferAt`, `Kernel.spares_change` and so on say it of inference
  and of the rules, one by one;
* `Kernel.upToDepth_search`: the search, which takes refusals as answers, only runs out of depth;
* `Attempt.Endures`: an invariant of goals that the steps of a branch keep;
* `Goal.Equates`: hypotheses that are equations by their form, such as those that wait to be
  simplified;
* `Attempt.steady_destructure`: **such an invariant survives the simplification of the index
  equation**, and what is taken for an equation on the way is one;
* `Attempt.yields_discharge`: what closes a branch and how it can fail, once this is known of the
  two steps around that, the one that introduces the index equation and the one that eliminates it.
-/
import UniqueEvidence.Proofs.Endings
import UniqueEvidence.Proofs.Preconditions
import UniqueEvidence.Proofs.Telescope
import UniqueEvidence.Uniqueness.Branch

namespace UniqueEvidence

/-! ### Failures of inference, rules and search -/

/-- The depth is spent, or something is refused. -/
def Fault.IsRefusal (f : Fault) : Prop :=
  f = .exhausted ∨ ∃ why, f = .refused why

/-- The depth is spent, or something is refused, though not for want of a decider. -/
def Fault.IsPlain (f : Fault) : Prop :=
  f = .exhausted ∨ ∃ why, f = .refused why ∧ (Obstacle.refused why).isMissingDecider = false

lemma Fault.IsPlain.isRefusal {f : Fault} (h : f.IsPlain) : f.IsRefusal :=
  h.imp_right fun ⟨why, hwhy, _⟩ => ⟨why, hwhy⟩

/-- The computation fails only by running out of depth, or by a refusal that is not for want of a
decider. -/
def Spares {α : Type} (x : Except Fault α) : Prop :=
  ∀ f, x = .error f → f.IsPlain

section Spares

variable {α β : Type} {k : Kernel} {infer : Kernel.Inference}

lemma spares_ok (a : α) : Spares (.ok a) :=
  nofun

lemma spares_refuse {why : Refusal} (h : (Obstacle.refused why).isMissingDecider = false) :
    Spares (refuse why : Except Fault α) := by
  intro f hf
  cases hf
  exact .inr ⟨why, rfl, h⟩

lemma Spares.ends {x : Except Fault α} {Q : α → Prop} {E : Fault → Prop} (hx : Spares x)
    (hE : ∀ f, f.IsPlain → E f) (hQ : ∀ a, x = .ok a → Q a) : Ends x Q E :=
  ⟨hQ, fun f hf => hE f (hx f hf)⟩

/-- The computation is refused at worst. -/
lemma Spares.ends_isRefusal {x : Except Fault α} (hx : Spares x) :
    Ends x (fun _ => True) Fault.IsRefusal :=
  hx.ends (fun _ => Fault.IsPlain.isRefusal) fun _ _ => trivial

lemma Spares.bind {x : Except Fault α} {f : α → Except Fault β} (hx : Spares x)
    (hf : ∀ a, Spares (f a)) : Spares (x >>= f) := by
  cases x with
  | ok a => exact hf a
  | error e =>
    intro f' hf'
    cases hf'
    exact hx e rfl

lemma spares_mapM {f : α → Except Fault β} (hf : ∀ a, Spares (f a)) (as : List α) :
    Spares (as.mapM f) := by
  induction as with
  | nil => exact spares_ok _
  | cons a as ih =>
    rw [List.mapM_cons]
    exact (hf a).bind fun _ => ih.bind fun _ => spares_ok _

lemma spares_withinDepth (o : Option α) : Spares (withinDepth o) :=
  fun _ hf => .inl (Kernel.withinDepth_eq_error hf)

namespace Kernel

lemma spares_checkBy (hinfer : ∀ ctx t, Spares (infer ctx t)) (ctx : Context) (t ty : Term) :
    Spares (k.checkBy infer ctx t ty) := by
  refine (hinfer ctx t).bind fun actual => (spares_withinDepth _).bind fun same => ?_
  split
  · exact spares_ok _
  · exact spares_refuse rfl

lemma spares_expectTypeBy (hinfer : ∀ ctx t, Spares (infer ctx t)) (ctx : Context) (t : Term) :
    Spares (expectTypeBy infer ctx t) := by
  refine (hinfer ctx t).bind fun ty => ?_
  split
  · exact spares_ok _
  · exact spares_refuse rfl

lemma spares_typeOfTransport (hinfer : ∀ ctx t, Spares (infer ctx t)) (ctx : Context)
    (head src dst proof value : Term) :
    Spares (k.typeOfTransport infer ctx head src dst proof value) := by
  refine (spares_withinDepth _).bind fun src' => (spares_withinDepth _).bind fun dst' => ?_
  split
  · split
    · refine (spares_mapM (hinfer ctx) _).bind fun types => ?_
      refine (spares_checkBy hinfer _ _ _).bind fun _ =>
        (spares_checkBy hinfer _ _ _).bind fun _ => ?_
      exact (spares_withinDepth _).bind fun _ => (spares_checkBy hinfer _ _ _).bind fun _ =>
        spares_withinDepth _
    · exact spares_refuse rfl
  · exact spares_refuse rfl

lemma spares_typeOf (hinfer : ∀ ctx t, Spares (infer ctx t)) (ctx : Context) (t : Term) :
    Spares (k.typeOf infer ctx t) := by
  cases t with
  | var | const =>
    rw [typeOf]
    split
    · exact spares_ok _
    · exact spares_refuse rfl
  | sort | unit | tt => exact spares_ok _
  | prod a b =>
    exact (spares_expectTypeBy hinfer _ _).bind fun _ =>
      (spares_expectTypeBy hinfer _ _).bind fun _ => spares_ok _
  | pair a b => exact (hinfer _ _).bind fun _ => (hinfer _ _).bind fun _ => spares_ok _
  | app fn arg =>
    refine (hinfer ctx fn).bind fun ty => ?_
    split
    · exact (spares_checkBy hinfer _ _ _).bind fun _ => spares_ok _
    · exact spares_refuse rfl
  | pi x ty body =>
    exact (spares_expectTypeBy hinfer _ _).bind fun _ =>
      (spares_expectTypeBy hinfer _ _).bind fun _ => spares_ok _
  | lam x ty body =>
    exact (spares_expectTypeBy hinfer _ _).bind fun _ => (hinfer _ _).bind fun _ => spares_ok _
  | eq ty lhs rhs =>
    exact (spares_expectTypeBy hinfer _ _).bind fun _ => (spares_checkBy hinfer _ _ _).bind fun _ =>
      (spares_checkBy hinfer _ _ _).bind fun _ => spares_ok _
  | refl ty value =>
    exact (spares_expectTypeBy hinfer _ _).bind fun _ =>
      (spares_checkBy hinfer _ _ _).bind fun _ => spares_ok _
  | transport head src dst proof value =>
    exact spares_typeOfTransport hinfer ctx head src dst proof value

lemma spares_inferAt (depth : Nat) (ctx : Context) (t : Term) : Spares (k.inferAt depth ctx t) := by
  induction depth generalizing ctx t with
  | zero =>
    intro f hf
    cases hf
    exact .inl rfl
  | succ depth ih => exact (spares_typeOf ih ctx t).bind fun _ => spares_withinDepth _

/-! The rules that a branch uses on its way, one by one. -/

variable {goal : Goal}

lemma spares_equation (x : Name) : Spares (k.equation goal x) := by
  rw [equation]
  split
  · exact spares_refuse rfl
  · refine (spares_withinDepth _).bind fun _ => ?_
    split
    · exact spares_ok _
    · exact spares_refuse rfl

lemma spares_freshFor (names : List Name) (count : Nat) (shown : Argument) :
    Spares (freshFor goal names count shown) := by
  rw [freshFor]
  split
  · split
    · exact spares_refuse rfl
    · exact spares_ok _
  · exact spares_refuse rfl

lemma spares_unusedInHyps (x : Name) : Spares (unusedInHyps goal x) := by
  rw [unusedInHyps]
  split
  · exact spares_refuse rfl
  · exact spares_ok _

lemma spares_unused (x : Name) : Spares (unused goal x) := by
  rw [unused]
  split
  · exact spares_refuse rfl
  · exact spares_unusedInHyps x

lemma spares_change (target : Term) : Spares (k.change goal target) := by
  refine (spares_expectTypeBy (spares_inferAt k.depth) _ _).bind fun _ =>
    (spares_withinDepth _).bind fun _ => ?_
  split
  · exact spares_ok _
  · exact spares_refuse rfl

lemma spares_intro (x : Name) : Spares (k.intro goal x) := by
  refine (spares_withinDepth _).bind fun _ => ?_
  split
  · exact (spares_freshFor _ _ _).bind fun _ => spares_ok _
  · exact spares_refuse rfl

lemma spares_clear (x : Name) : Spares (clear goal x) := by
  rw [clear]
  split
  · exact spares_refuse rfl
  · exact (spares_unused x).bind fun _ => spares_ok _

lemma spares_componentEquations (x : Name) (e : Equation) : Spares (k.componentEquations x e) := by
  rw [componentEquations]
  split
  · exact spares_ok _
  · split
    · exact spares_refuse rfl
    · split
      · exact spares_refuse rfl
      · split
        · split
          · exact spares_ok _
          · exact spares_refuse rfl
        · exact spares_refuse rfl

lemma spares_injection (x : Name) (names : List Name) : Spares (k.injection goal x names) :=
  (spares_equation x).bind fun _ => (spares_componentEquations x _).bind fun _ =>
      (spares_freshFor _ _ _).bind fun _ =>
    spares_ok _

lemma spares_eliminate (x y : Name) : Spares (k.eliminate goal x y) := by
  refine (spares_equation x).bind fun e => ?_
  split
  · exact spares_refuse rfl
  · split
    · exact spares_refuse rfl
    · split
      · exact spares_refuse rfl
      · refine (spares_unused x).bind fun _ => ?_
        dsimp only
        split
        · exact spares_ok _
        · exact spares_refuse rfl

/-! The search takes refusals as answers, so it only runs out. -/

lemma spares_targetEquation : Spares (k.targetEquation goal) := by
  refine (spares_withinDepth _).bind fun _ => ?_
  split
  · exact spares_ok _
  · exact spares_refuse rfl

lemma spares_symmetry : Spares (k.symmetry goal) :=
  spares_targetEquation.bind fun _ => spares_ok _

lemma spares_reflexivity : Spares (k.reflexivity goal) := by
  refine spares_targetEquation.bind fun _ => (spares_withinDepth _).bind fun _ => ?_
  split
  · exact spares_ok _
  · exact spares_refuse rfl

lemma spares_assumption (x : Name) : Spares (k.assumption goal x) := by
  rw [assumption]
  split
  · exact spares_refuse rfl
  · refine (spares_withinDepth _).bind fun _ => ?_
    split
    · exact spares_ok _
    · exact spares_refuse rfl

lemma spares_argumentEquations (c : Name) (bound determined : List Name)
    (triples : List (Binding × Term × Term)) :
    Spares (k.argumentEquations c bound determined triples) := by
  induction triples with
  | nil => exact spares_ok _
  | cons t rest ih =>
    obtain ⟨b, l, r⟩ := t
    rw [argumentEquations]
    split
    · exact spares_refuse rfl
    · have hrest : ∀ agree : Bool, Spares (if agree = true then do
          let parts ← k.argumentEquations c bound determined rest
          pure (Term.eq b.ty l r :: parts)
        else refuse (.determinesIndex b.name c)) := by
        intro agree
        split
        · exact ih.bind fun _ => spares_ok _
        · exact spares_refuse rfl
      dsimp only
      split
      · exact (spares_withinDepth _).bind hrest
      · exact (spares_ok true).bind hrest

lemma spares_congruence : Spares (k.congruence goal) := by
  refine spares_targetEquation.bind fun _ => ?_
  split
  · exact spares_refuse rfl
  · split
    · dsimp only
      split
      · exact (spares_argumentEquations _ _ _ _).bind fun _ => spares_ok _
      · exact spares_refuse rfl
    · exact spares_refuse rfl

/-! A decider is looked up by two rules only. -/

lemma ends_decide : Ends (k.decide goal) (fun _ => True) Fault.IsRefusal := by
  refine spares_targetEquation.ends_isRefusal.bind fun e _ => ?_
  split
  · refine (spares_withinDepth _).ends_isRefusal.bind fun d? _ => ?_
    split
    · exact .refuse (.inr ⟨_, rfl⟩)
    · split
      · exact .ok trivial
      · exact .refuse (.inr ⟨_, rfl⟩)
  · exact .refuse (.inr ⟨_, rfl⟩)

lemma ends_uip (x : Name) : Ends (k.uip goal x) (fun _ => True) Fault.IsRefusal := by
  refine (spares_equation x).ends_isRefusal.bind fun e _ =>
    (spares_withinDepth _).ends_isRefusal.bind fun same _ => ?_
  split
  · refine (spares_withinDepth _).ends_isRefusal.bind fun d? _ => ?_
    split
    · exact .refuse (.inr ⟨_, rfl⟩)
    · exact (spares_unusedInHyps x).ends_isRefusal.bind fun _ _ => .ok trivial
  · exact .refuse (.inr ⟨_, rfl⟩)

lemma ends_closer {rule : Rule} (hrule : rule ∈ goal.closers) :
    Ends (k.run goal rule) (fun _ => True) Fault.IsRefusal := by
  simp only [Goal.closers, List.cons_append, List.mem_cons, List.mem_append, List.mem_map,
    List.not_mem_nil, or_false] at hrule
  rcases hrule with rfl | ⟨h, -, rfl⟩ | rfl
  · exact spares_reflexivity.ends_isRefusal
  · exact (spares_assumption h.name).ends_isRefusal
  · exact ends_decide

/-! The search takes a refusal as an answer. -/

lemma upToDepth_attempt (rule : Rule) (h : Ends (k.run goal rule) (fun _ => True) Fault.IsRefusal) :
    UpToDepth (k.perform goal rule).attempt.outcome fun _ => True := by
  rw [Logged.attempt]
  split
  · exact .ok trivial
  · exact .ok trivial
  · rename_i f hf hrun
    rw [outcome_perform] at hrun
    obtain rfl := (h.2 f hrun).resolve_right fun ⟨why, hwhy⟩ => hf why hwhy
    exact .inl rfl

lemma upToDepth_firstClosing {rules : List Rule}
    (h : ∀ rule ∈ rules, Ends (k.run goal rule) (fun _ => True) Fault.IsRefusal) :
    UpToDepth (k.firstClosing goal rules).outcome fun _ => True := by
  induction rules with
  | nil => exact .ok trivial
  | cons rule rest ih =>
    rw [firstClosing, Logged.outcome_bind]
    refine (upToDepth_attempt rule (h rule List.mem_cons_self)).bind fun result _ _ => ?_
    split
    · exact .ok trivial
    · exact ih fun rule' hrule' => h rule' (List.mem_cons_of_mem _ hrule')

lemma upToDepth_closeDirectly : UpToDepth (k.closeDirectly goal).outcome fun _ => True := by
  rw [closeDirectly, Logged.outcome_bind]
  refine (upToDepth_firstClosing fun _ => ends_closer).bind fun found _ _ => ?_
  split
  · exact .ok trivial
  · rw [closeFlipped, Logged.outcome_bind]
    refine (upToDepth_attempt .symmetry spares_symmetry.ends_isRefusal).bind fun result _ _ => ?_
    split
    · rw [Logged.outcome_bind]
      refine (upToDepth_firstClosing fun rule hrule => ?_).bind fun _ _ _ => .ok trivial
      obtain ⟨h, -, rfl⟩ := List.mem_map.1 hrule
      exact (spares_assumption h.name).ends_isRefusal
    · exact .ok trivial

lemma upToDepth_closeAll {close : Goal → Logged (Option Certificate)}
    (hclose : ∀ g, UpToDepth (close g).outcome fun _ => True) (depth : Nat) (goals : List Goal) :
    UpToDepth (closeAll close depth goals).outcome fun _ => True := by
  induction goals with
  | nil => exact .ok trivial
  | cons g rest ih =>
    rw [closeAll, Logged.outcome_bind]
    refine (hclose g).bind fun found _ _ => ?_
    split
    · rw [Logged.outcome_bind]
      exact ih.bind fun _ _ _ => .ok trivial
    · exact .ok trivial

/-- The search ends, unless it runs out of depth. -/
lemma upToDepth_search (depth : Int) : UpToDepth (k.search goal depth).outcome fun _ => True := by
  have hwithin : ∀ (depth : Nat) (goal : Goal),
      UpToDepth (k.searchWithin depth goal).outcome fun _ => True := by
    intro depth
    induction depth with
    | zero => exact fun goal => upToDepth_closeDirectly
    | succ depth ih =>
      intro goal
      rw [searchWithin, Logged.outcome_bind]
      refine upToDepth_closeDirectly.bind fun found _ _ => ?_
      split
      · exact .ok trivial
      · rw [closeByCongruence, Logged.outcome_bind]
        refine (upToDepth_attempt .congruence spares_congruence.ends_isRefusal).bind
          fun result _ _ => ?_
        split
        · rw [Logged.outcome_bind]
          exact (upToDepth_closeAll ih _ _).bind fun _ _ _ => .ok trivial
        · exact .ok trivial
  rw [search]
  split
  · exact .ok trivial
  · exact hwithin _ goal

lemma spares_search (depth : Int) : Spares (k.search goal depth).outcome := by
  intro f hf
  have hends : UpToDepth (k.search goal depth).outcome fun _ => True := upToDepth_search depth
  obtain hexhausted | ⟨found, hfound, -⟩ := hends
  · exact .inl (Except.error.inj (hf.symm.trans hexhausted))
  · cases hf.symm.trans hfound

end Kernel

end Spares

/-! ### Invariants of the work on a branch -/

/-- The property holds of the faults that the work on any branch may meet. -/
structure Fault.Allows (E : Fault → Prop) : Prop where
  plain : ∀ f : Fault, f.IsPlain → E f
  stuck : ∀ why, E (.stuck why)

/-- The hypotheses of these names are equations. -/
def Goal.Equates (goal : Goal) (names : List Name) : Prop :=
  ∀ b ∈ goal.hyps, b.name ∈ names → ∃ e : Equation, b.ty = e.toTerm

lemma Goal.Equates.mono {goal : Goal} {names names' : List Name} (h : goal.Equates names)
    (hsub : names' ⊆ names) : goal.Equates names' :=
  fun b hb hname => h b hb (hsub hname)

/-- Among the pending equations, the first one that is still a hypothesis. -/
lemma Goal.remaining_eq_cons {g : Goal} {pending rest : List Name} {x : Name}
    (h : g.remaining pending = x :: rest) : (g.lookup? x).isSome ∧ x :: rest ⊆ pending := by
  refine ⟨?_, h ▸ (List.dropWhile_sublist _).subset⟩
  have hhead := List.head?_dropWhile_not (fun x => (g.lookup? x).isNone) pending
  rw [← Goal.remaining, h] at hhead
  simpa using hhead

/-- An equation splits into equations. -/
lemma Kernel.Splits.isEquation {env : Environment} {e : Equation} {parts : List Term}
    (h : Splits env e parts) {part : Term} (hpart : part ∈ parts) :
    ∃ e' : Equation, part = e'.toTerm := by
  cases h with
  | pairs _ =>
    rcases List.mem_pair.1 hpart with rfl | rfl <;> exact ⟨⟨_, _, _⟩, rfl⟩
  | ctor _ _ _ _ _ =>
    obtain ⟨i, hi, rfl⟩ := List.mem_iff_getElem.1 hpart
    rw [List.getElem_zipWith]
    exact ⟨⟨_, _, _⟩, rfl⟩

namespace Attempt

/-- The rules that simplify an index equation keep the invariant; the names of new equations are of
one kind. -/
structure Endures (k : Kernel) (I : Goal → Prop) : Prop where
  change : ∀ {g g' target}, I g → k.run g (.change target) = .ok [g'] → I g'
  clear : ∀ {g g' x}, I g → k.run g (.clear x) = .ok [g'] → I g'
  injection : ∀ {g g' x avoid n}, I g →
    k.run g (.injection x (freshNames "H" avoid n)) = .ok [g'] → I g'
  subst : ∀ {g g' x y}, I g → k.run g (.subst x y) = .ok [g'] → I g'

variable {α : Type} {k : Kernel} {I : Goal → Prop} {E : Fault → Prop}

lemma Endures.and {J : Goal → Prop} (hI : Endures k I) (hJ : Endures k J) :
    Endures k fun g => I g ∧ J g where
  change hg h := ⟨hI.change hg.1 h, hJ.change hg.2 h⟩
  clear hg h := ⟨hI.clear hg.1 h, hJ.clear hg.2 h⟩
  injection hg h := ⟨hI.injection hg.1 h, hJ.injection hg.2 h⟩
  subst hg h := ⟨hI.subst hg.1 h, hJ.subst hg.2 h⟩

/-- Equations stay equations, and new hypotheses are equations. -/
lemma endures_equates (names : List Name) : Endures k fun g => g.Equates names where
  change hg h := by
    obtain ⟨-, -, heq⟩ := Kernel.change_eq_ok h
    cases heq
    exact hg
  clear hg h := by
    obtain ⟨-, -, heq⟩ := Kernel.clear_eq_ok h
    cases heq
    exact fun b hb => hg b (List.mem_filter.1 hb).1
  injection hg h := by
    obtain ⟨e, parts, -, hsplits, -, -, -, heq⟩ := Kernel.injectionAs_eq_ok h
    cases heq
    intro b hb hname
    rcases List.mem_append.1 hb with hb | hb
    · exact hg b hb hname
    · exact hsplits.isEquation (mem_of_zipWith hb).2
  subst {g g' x y} hg h := by
    obtain ⟨e, v, hyps, -, -, -, -, -, -, -, hreorder, heq⟩ := Kernel.eliminate_eq_ok h
    cases heq
    intro b hb hname
    obtain ⟨b', hb', rfl⟩ := List.mem_map.1 ((reorder_spec hreorder).1.mem_iff.1 hb)
    obtain ⟨e', he'⟩ := hg b' (List.mem_filter.1 hb').1 hname
    refine ⟨⟨e'.ty.subst y v, e'.lhs.subst y v, e'.rhs.subst y v⟩, ?_⟩
    rw [he', Equation.toTerm, Term.subst_eq]
    rfl

/-- The work keeps the invariant, and fails by some of the faults only. -/
def Steady (I : Goal → Prop) (E : Fault → Prop) (x : Attempt α) : Prop :=
  Yields I x (fun _ => I) E

lemma steady_pure (a : α) : Steady I E (pure a) :=
  yields_pure a fun _ => I

lemma steady_goal : Steady I E goal :=
  (yields_goal I).post fun _ _ h => h.1

lemma Steady.bind {β : Type} {x : Attempt α} {f : α → Attempt β} (hx : Steady I E x)
    (hf : ∀ a, Steady I E (f a)) : Steady I E (x >>= f) :=
  yields_bind hx hf

section Rules

variable (hE : Fault.Allows E)
include hE

/-- A computation that leaves the trail alone and needs no decider. -/
lemma steady_liftM {x : Logged α} (hx : Spares x.outcome) : Steady I E (liftM x) :=
  (yields_liftM fun _ _ => hx.ends hE.plain fun _ _ => trivial).post fun _ _ h => h.1

/-- A rule that leaves one subgoal, needs no decider and keeps the invariant. -/
lemma steady_step {rule : Rule} (hspares : ∀ g, Spares (k.run g rule))
    (hone : ∀ g gs, k.run g rule = .ok gs → ∃ g', gs = [g'])
    (hkeeps : ∀ g g', I g → k.run g rule = .ok [g'] → I g') : Steady I E (step k rule) := by
  refine yields_step fun g hg => (hspares g).ends hE.plain fun gs hgs => ?_
  obtain ⟨g', rfl⟩ := hone g gs hgs
  exact ⟨g', rfl, hkeeps g g' hg hgs⟩

/-- A hypothesis that is an equation by its form is read as one. -/
lemma yields_equation {x : Name} (hx : ∀ g, I g → g.Equates [x]) :
    Yields (fun g => I g ∧ (g.lookup? x).isSome) (equation k x) (fun _ => I) E := by
  refine yields_bind (yields_goal _) fun g => ?_
  cases hty : g.lookup? x with
  | none =>
    rintro t ⟨⟨-, hsome⟩, rfl⟩
    rw [hty] at hsome
    cases hsome
  | some ty =>
    refine yields_bind (R := fun nf g' => I g' ∧ ∃ e, Equation.ofTerm? nf = some e) ?_ fun nf => ?_
    · rintro t ⟨⟨hI, -⟩, rfl⟩
      refine (spares_withinDepth (ty.normalize k.depth)).ends hE.plain fun nf hnf => ⟨hI, ?_⟩
      obtain ⟨e, rfl⟩ := hx _ hI ⟨x, ty⟩ (Context.mem_of_lookup? hty) List.mem_cons_self
      obtain ⟨-, ty', lhs', rhs', -, rfl⟩ := Term.normalize_eq (Kernel.withinDepth_eq_ok.1 hnf)
      exact ⟨⟨ty', lhs', rhs'⟩, rfl⟩
    · cases he : Equation.ofTerm? nf with
      | none =>
        rintro t ⟨-, e, hsome⟩
        cases hsome
      | some e => exact (yields_pure e fun _ => I).pre fun _ h => h.1

variable (hI : Endures k I)
include hI

lemma steady_change (target : Term) : Steady I E (step k (.change target)) := by
  refine steady_step hE (fun _ => Kernel.spares_change target) (fun g gs hgs => ?_) fun _ _ =>
    hI.change
  obtain ⟨-, -, rfl⟩ := Kernel.change_eq_ok hgs
  exact ⟨_, rfl⟩

lemma steady_stepNormalize : Steady I E (stepNormalize k) :=
  steady_goal.bind fun _ => (steady_liftM hE (spares_withinDepth _)).bind fun target =>
    steady_change hE hI target

lemma steady_dropUnless (pf x : Name) : Steady I E (dropUnless k pf x) := by
  rw [dropUnless]
  split
  · exact steady_pure ()
  · refine steady_step hE (fun _ => Kernel.spares_clear x) (fun g gs hgs => ?_) fun _ _ => hI.clear
    obtain ⟨-, -, rfl⟩ := Kernel.clear_eq_ok hgs
    exact ⟨_, rfl⟩

lemma steady_eliminate (x y : Name) : Steady I E (step k (.subst x y)) := by
  refine steady_step hE (fun _ => Kernel.spares_eliminate x y) (fun g gs hgs => ?_) fun _ _ =>
    hI.subst
  obtain ⟨-, -, -, -, -, -, -, -, -, -, -, rfl⟩ := Kernel.eliminate_eq_ok hgs
  exact ⟨_, rfl⟩

/-- The equations that a split leaves are equations by their form. -/
lemma yields_injection (x : Name) {pending : List Name} (hpending : ∀ g, I g → g.Equates pending)
    (n : Nat) (g : Goal) :
    Yields (fun g' => I g' ∧ g = g') (step k (.injection x (freshNames "H" g.names n)))
      (fun _ g' => I g' ∧ g'.Equates (pending ++ freshNames "H" g.names n)) E := by
  refine yields_step ?_
  rintro _ ⟨hg, rfl⟩
  refine (Kernel.spares_injection x _).ends hE.plain fun gs hgs => ?_
  obtain ⟨e, parts, -, hsplits, -, -, hnew, rfl⟩ := Kernel.injectionAs_eq_ok hgs
  have hI' := hI.injection hg hgs
  refine ⟨_, rfl, hI', fun b hb hname => ?_⟩
  rcases List.mem_append.1 hname with hname | hname
  · exact hpending _ hI' b hb hname
  rcases List.mem_append.1 hb with hb | hb
  · exact absurd (List.mem_map_of_mem hb) (hnew _ hname)
  · exact hsplits.isEquation (mem_of_zipWith hb).2

/-- The names of the equations that are left of one. -/
lemma yields_simplify (pf x : Name) {pending : List Name} (hpending : ∀ g, I g → g.Equates pending)
    (hx : x ∈ pending) : Yields (fun g => I g ∧ (g.lookup? x).isSome) (simplify k pf x)
      (fun r g => I g ∧ ∀ names, r = .parts names → g.Equates (pending ++ names)) E := by
  have hparts : ∀ g, I g → I g ∧ ∀ names, Simplified.parts [] = .parts names →
      g.Equates (pending ++ names) := by
    refine fun g hg => ⟨hg, ?_⟩
    rintro _ ⟨⟩
    simpa using hpending g hg
  refine yields_bind
      (yields_equation hE fun g hg => (hpending g hg).mono (by simpa using hx)) fun e =>
    yields_bind (steady_liftM hE (spares_withinDepth _)) fun same => ?_
  split
  · exact yields_bind (steady_dropUnless hE hI pf x) fun _ => (yields_pure _ _).pre hparts
  split
  · rename_i width _
    refine yields_bind (yields_goal I) fun g =>
        yields_bind (yields_injection hE hI x hpending width g) fun _ =>
      yields_bind (steady_dropUnless hE (hI.and (endures_equates _)) pf x) fun _ =>
        (yields_pure _ _).pre ?_
    rintro g' ⟨hg', hequates⟩
    exact ⟨hg', fun names hnames => by cases hnames; exact hequates⟩
  split
  · exact yields_bind (steady_liftM hE (spares_ok ())) fun _ =>
      (yields_pure _ _).pre fun g hg => ⟨hg, nofun⟩
  · refine yields_bind steady_goal fun g => ?_
    split
    · exact yields_bind (steady_eliminate hE hI x _) fun _ => (yields_pure _ _).pre hparts
    · exact yields_fail (hE.stuck _) _

/-- **The simplification of the index equation** keeps the invariant. -/
lemma steady_destructure (pf : Name) (limit : Int) (steps : Nat) (pending : List Name) :
    Yields (fun g => I g ∧ g.Equates pending) (destructure k pf limit steps pending)
      (fun _ => I) E := by
  induction steps generalizing pending with
  | zero =>
    refine yields_bind (yields_goal _) fun g => ?_
    split
    · exact (yields_pure _ _).pre fun _ h => h.1.1
    · exact yields_fail (hE.stuck _) _
  | succ steps ih =>
    refine yields_bind (yields_goal _) fun g => ?_
    split
    · exact (yields_pure _ _).pre fun _ h => h.1.1
    · rename_i x rest hremaining
      obtain ⟨hsome, hsub⟩ := Goal.remaining_eq_cons hremaining
      refine yields_bind
        ((yields_simplify hE (hI.and (endures_equates pending)) pf x (fun _ h => h.2)
        (hsub List.mem_cons_self)).pre ?_) fun r => ?_
      · rintro _ ⟨h, rfl⟩
        exact ⟨h, hsome⟩
      cases r with
      | contradiction => exact (yields_pure _ _).pre fun _ h => h.1.1
      | parts names =>
        refine (ih _).pre fun g' h => ⟨h.1.1, (h.2 names rfl).mono ?_⟩
        exact List.append_subset.2
          ⟨fun y hy => List.mem_append_left _ (hsub (List.mem_cons_of_mem _ hy)),
          List.subset_append_right _ _⟩

end Rules

/-- What is known of a branch once it is discharged, and what of the fault if it is not. -/
theorem yields_discharge {P : Goal → Prop} {C : Prop} {I : Name → Goal → Prop} (hE : Fault.Allows E)
    (hI : ∀ avoid, Endures k (I (fresh "pf" avoid)))
    (hintro : ∀ pf, Yields P (step k (.intro pf)) (fun _ => I pf) E)
    (hpf : ∀ pf g, I pf g → g.Equates [pf])
    (huip : ∀ pf, Yields (I pf) (step k (.uip pf)) (fun _ g => I pf g ∧ C) E) (bounds : Bounds) :
    Yields P (discharge k bounds) (fun r _ => r.1 = .discharged → C) E := by
  refine yields_bind (yields_goal P) fun g =>
    yields_bind ((hintro _).pre fun _ h => h.1) fun _ => ?_
  refine yields_bind (steady_stepNormalize hE (hI _)) fun _ => ?_
  refine yields_bind ((steady_destructure hE (hI _) _ _ _ _).pre fun g hg => ⟨hg, hpf _ g hg⟩)
    fun found => yields_bind yields_markDestructed fun _ => ?_
  split
  · exact (yields_pure _ _).pre fun _ _ h => by cases h
  · refine yields_bind (huip _) fun _ => Yields.of_and fun hC =>
      yields_bind (steady_stepNormalize hE (hI _)) fun _ => ?_
    refine yields_bind steady_goal fun g' =>
      yields_bind (steady_liftM hE (Kernel.spares_search _)) fun proof => ?_
    split
    · exact (yields_pure _ _).pre fun _ _ _ => hC
    · exact yields_bind steady_goal fun _ => yields_fail (hE.stuck _) _

end Attempt

end UniqueEvidence
