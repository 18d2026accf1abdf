/-
What the goal of a branch asks for.

The motive of a split is a function of indices and evidence whose values are products over an
equation between tuples of indices.  The goal of a branch is the motive at the indices of a
constructor, so that a product in it is over such an equation still; this is why the first
hypothesis that a branch introduces is its index equation.

* `Term.Persists`: a property of types that substitution and normalisation keep;
* `Term.Demands`: a function that ends in a product over equations at types with the property;
  `Term.Demands.normalize_apps`: **applied to any arguments it stays one, or computes to a neutral
  term**;
* `Goal.Awaits`: the target is such a function, if it is not neutral;
  `Kernel.awaits_of_caseBranches`: the goals of the branches are so;
* `Attempt.yields_intro`: what is introduced there is an equation at a type with the property;
* `Kernel.upToDepth_workOn`: so **the work on the branches gives a result**, as far as the depth
  goes: a branch that cannot be closed is left open.
-/
import UniqueEvidence.Proofs.BranchWork
import UniqueEvidence.Proofs.CaseAnalysis
import UniqueEvidence.Proofs.Course

namespace UniqueEvidence

namespace Term

variable {Q : Term → Prop} {t u : Term} {n depth : Nat}

/-- A property that substitution and normalisation keep. -/
structure Persists (Q : Term → Prop) : Prop where
  subst : ∀ {U : Term} (y : Name) (v : Term), Q U → Q (U.subst y v)
  normalize : ∀ {depth : Nat} {U U' : Term}, Q U → U.normalize depth = some U' → Q U'

/-- A function of that many arguments, whose values are products over equations at types with the
property. -/
def Demands (Q : Term → Prop) : Nat → Term → Prop
  | 0, t => ∃ x U lhs rhs body, Q U ∧ t = pi x (eq U lhs rhs) body
  | n + 1, t => ∃ x ty body, t = lam x ty body ∧ Demands Q n body

lemma Demands.lams {body : Term} (h : Demands Q n body) (bs : List Binding) :
    ∃ m, Demands Q m (Term.lams bs body) := by
  induction bs with
  | nil => exact ⟨n, h⟩
  | cons b bs ih =>
    obtain ⟨m, hm⟩ := ih
    exact ⟨m + 1, b.name, b.ty, _, rfl, hm⟩

section Persists

variable (hQ : Persists Q)
include hQ

lemma Demands.subst (h : Demands Q n t) (y : Name) (v : Term) : Demands Q n (t.subst y v) := by
  induction n generalizing t y v with
  | zero =>
    obtain ⟨x, U, l, r, body, hU, rfl⟩ := h
    rw [subst_pi, subst_eq]
    split_ifs <;> exact ⟨_, _, _, _, _, hQ.subst y v hU, rfl⟩
  | succ n ih =>
    obtain ⟨x, ty, body, rfl, hbody⟩ := h
    rw [subst_lam]
    split_ifs
    · exact ⟨_, _, _, rfl, hbody⟩
    · exact ⟨_, _, _, rfl, ih hbody y v⟩
    · exact ⟨_, _, _, rfl, ih (ih hbody _ _) y v⟩

lemma Demands.normalize (h : Demands Q n t) (hu : t.normalize depth = some u) : Demands Q n u := by
  induction n generalizing depth t u with
  | zero =>
    obtain ⟨x, U, l, r, body, hU, rfl⟩ := h
    cases depth with
    | zero => cases hu
    | succ depth =>
      simp only [Term.normalize, Option.bind_eq_bind, Option.bind_eq_some_iff, Option.pure_def,
        Option.some.injEq] at hu
      obtain ⟨dom, hdom, body', -, rfl⟩ := hu
      obtain ⟨_, U', l', r', hU', rfl⟩ := normalize_eq hdom
      exact ⟨x, U', l', r', body', hQ.normalize hU hU', rfl⟩
  | succ n ih =>
    obtain ⟨x, ty, body, rfl, hbody⟩ := h
    cases depth with
    | zero => cases hu
    | succ depth =>
      simp only [Term.normalize, Option.bind_eq_bind, Option.bind_eq_some_iff, Option.pure_def,
        Option.some.injEq] at hu
      obtain ⟨ty', -, body', hbody', rfl⟩ := hu
      exact ⟨x, ty', body', rfl, ih hbody hbody'⟩

/-- **Applied to any arguments**, such a function computes to another, or to an application that is
stuck. -/
theorem Demands.normalize_apps (h : Demands Q n t) (args : List Term)
    (hu : (t.apps args).normalize depth = some u) :
    (∃ m, Demands Q m u) ∨ ∃ fn arg, u = app fn arg := by
  induction args using List.reverseRecOn generalizing depth u with
  | nil => exact .inl ⟨n, h.normalize hQ hu⟩
  | append_singleton args arg ih =>
    cases depth with
    | zero => cases hu
    | succ depth =>
      rw [apps_append] at hu
      obtain ⟨fn', hfn, arg', -, hu⟩ := normalize_app hu
      rcases hu with ⟨x, ty, body, rfl, hu⟩ | ⟨-, rfl⟩
      · -- only a function is unfolded, so there was one argument too few before this one
        rcases ih hfn with ⟨m, hm⟩ | ⟨fn, arg, happ⟩
        · cases m with
          | zero =>
            obtain ⟨_, _, _, _, _, -, hpi⟩ := hm
            cases hpi
          | succ m =>
            obtain ⟨_, _, _, hlam, hbody⟩ := hm
            cases hlam
            exact .inl ⟨m, (hbody.subst hQ x arg').normalize hQ hu⟩
        · cases happ
      · exact .inr ⟨fn', arg', rfl⟩

end Persists

end Term

/-- The target is in normal form, and if it is a product then one over an equation at a type with
the property. -/
structure Goal.Awaits (goal : Goal) (Q : Term → Prop) : Prop where
  normal : goal.target.nameless.IsNormal
  demands : (∃ m, Term.Demands Q m goal.target) ∨ ∃ fn arg, goal.target = .app fn arg

/-- The hypothesis that is introduced first is an equation at a type with the property. -/
lemma Attempt.yields_intro {k : Kernel} {Q : Term → Prop} {E : Fault → Prop}
    (hE : ∀ f : Fault, f.IsPlain → E f) (pf : Name) :
    Yields (fun g => g.Awaits Q) (step k (.intro pf))
      (fun _ g => ∀ b ∈ g.hyps, b.name = pf → ∃ U lhs rhs, Q U ∧ b.ty = .eq U lhs rhs) E := by
  refine yields_step fun g hg => (Kernel.spares_intro pf).ends hE fun gs hgs => ?_
  obtain ⟨z, dom, cod, hnormal, hnew, rfl⟩ := Kernel.intro_eq_ok hgs
  have htarget : .pi z dom cod = g.target :=
    Term.eq_of_normalize_normal hg.normal (Kernel.withinDepth_eq_ok.1 hnormal)
  refine ⟨_, rfl, fun b hb hname => ?_⟩
  rcases List.mem_append.1 hb with hb | hb
  · exact absurd (List.mem_map.2 ⟨b, hb, hname⟩) hnew
  · obtain rfl := List.mem_singleton.1 hb
    rcases hg.demands with ⟨m, hm⟩ | ⟨fn, arg, happ⟩
    · cases m with
      | zero =>
        obtain ⟨x, U, l, r, body, hU, hpi⟩ := hm
        rw [← htarget] at hpi
        cases hpi
        exact ⟨U, l, r, hU, rfl⟩
      | succ m =>
        obtain ⟨x, ty, body, hlam, -⟩ := hm
        rw [← htarget] at hlam
        cases hlam
    · rw [← htarget] at happ
      cases happ

namespace Kernel

variable {k : Kernel} {goal : Goal} {icount : Int} {Q : Term → Prop}

lemma demands_curried {m : Motive} {depth : Nat} {curried : Term} (hQ : Q m.tupleTy)
    (h : m.curried depth = .ok curried) : ∃ n, Term.Demands Q n curried := by
  rw [Motive.curried] at h
  obtain ⟨body, hbody, h⟩ := Except.bind_eq_ok.1 h
  rw [Motive.statement] at hbody
  obtain ⟨family, -, hbody⟩ := Except.bind_eq_ok.1 hbody
  obtain rfl := Except.ok.inj hbody
  obtain rfl := Except.ok.inj h
  exact Term.Demands.lams (n := 1) ⟨_, _, _, rfl, _, _, _, _, _, hQ, rfl⟩ _

/-- The goals of the branches ask for an equation at the type of the index tuple. -/
lemma awaits_of_caseBranches (hQ : Term.Persists Q) {n : Nat} {curried scrutinee : Term}
    (hcurried : Term.Demands Q n curried) {cases : List (FamilyCtor × Option Goal)}
    (h : k.caseBranches goal scrutinee icount curried = .ok cases) {case : FamilyCtor × Option Goal}
    (hcase : case ∈ cases) {g : Goal} (hg : case.2 = some g) : g.Awaits Q := by
  obtain ⟨f, ty, lead, -, -, -, -, -, -, -, -, hgoals⟩ := caseBranchesAs_eq_ok h
  obtain ⟨ctor, -, -, taken, -, hbranch⟩ := exists_of_forall₂ (branchGoals_eq_ok hgoals).flip hcase
  rw [hg] at hbranch
  obtain ⟨target, htarget, rfl⟩ := branchGoal_eq_some hbranch
  exact ⟨(normalize_spec htarget).2, hcurried.normalize_apps hQ _ (withinDepth_eq_ok.1 htarget)⟩

lemma awaits_of_prepare (hQ : Term.Persists Q) {c : Comparison} {m : Motive} {curried : Term}
    (htuple : Q m.tupleTy) (hcurried : m.curried k.depth = .ok curried)
    {work : Logged (List (FamilyCtor × Option Goal))} {trail : Trail}
    (h : k.prepare c m curried { goal } = (work, trail)) {cases : List (FamilyCtor × Option Goal)}
    (hcases : work.outcome = .ok cases) : ∀ case ∈ cases, ∀ g, case.2 = some g → g.Awaits Q := by
  obtain ⟨n, hdemands⟩ := demands_curried htuple hcurried
  obtain ⟨g, -, hsplit⟩ := caseBranches_of_prepare h hcases
  exact fun case hcase g' hg' => awaits_of_caseBranches hQ hdemands hsplit hcase hg'

/-! ### The work on the branches -/

lemma persists_true : Term.Persists fun _ => True :=
  ⟨fun _ _ _ => trivial, fun _ _ => trivial⟩

/-- A branch that cannot be closed is left open. -/
lemma upToDepth_branch (hgoal : goal.Awaits fun _ => True) (bounds : Bounds) (ctor : Name) :
    UpToDepth (k.branch bounds ctor goal).outcome fun _ => True := by
  have hallows : Fault.Allows fun f => f.IsRefusal ∨ ∃ why, f = .stuck why :=
    ⟨fun f hf => .inl hf.isRefusal, fun why => .inr ⟨why, rfl⟩⟩
  have hintro : ∀ pf, Attempt.Yields (fun g => g.Awaits fun _ => True) (Attempt.step k (.intro pf))
      (fun _ g => g.Equates [pf]) fun f => f.IsRefusal ∨ ∃ why, f = .stuck why := by
    refine fun pf => (Attempt.yields_intro hallows.plain pf).post fun _ g hg b hb hname => ?_
    obtain ⟨U, lhs, rhs, -, hty⟩ := hg b hb (List.mem_singleton.1 hname)
    exact ⟨⟨U, lhs, rhs⟩, hty⟩
  have huip : ∀ pf, Attempt.Yields (fun g => g.Equates [pf]) (Attempt.step k (.uip pf))
      (fun _ g => g.Equates [pf] ∧ True) fun f => f.IsRefusal ∨ ∃ why, f = .stuck why := by
    refine fun pf => Attempt.yields_step fun g hg =>
      ⟨fun gs hgs => ?_, fun f hf => .inl ((ends_uip pf).2 f hf)⟩
    obtain ⟨_, _, -, -, -, -, rfl⟩ := uip_eq_ok hgs
    exact ⟨_, rfl, fun b hb => hg b (List.mem_filter.1 hb).1, trivial⟩
  have hdischarge := Attempt.yields_discharge (I := fun pf g => g.Equates [pf]) hallows
    (fun _ => Attempt.endures_equates _) hintro (fun _ _ h => h) huip bounds
  obtain ⟨-, herror⟩ := hdischarge { goal } hgoal
  rcases hwork : Attempt.discharge k bounds { goal } with ⟨⟨outcome, log⟩, trail⟩
  rw [hwork] at herror
  simp only [branch, hwork]
  cases outcome with
  | ok r => exact .ok trivial
  | error f =>
    -- what is refused or stuck concerns the branch alone
    rcases herror f rfl with (rfl | ⟨why, rfl⟩) | ⟨why, rfl⟩
    · exact .inl rfl
    · exact .ok trivial
    · exact .ok trivial

/-- **The work on the branches gives a result**, as far as the depth goes. -/
theorem upToDepth_workOn (bounds : Bounds) {cases : List (FamilyCtor × Option Goal)}
    (hcases : ∀ case ∈ cases, ∀ g, case.2 = some g → g.Awaits fun _ => True) :
    UpToDepth (k.workOn bounds cases).outcome fun _ => True := by
  induction cases with
  | nil => exact .ok trivial
  | cons case cases ih =>
    have hrest := ih fun case' hcase' => hcases case' (List.mem_cons_of_mem _ hcase')
    obtain ⟨ctor, _ | goal⟩ := case
    · simp only [workOn, Logged.outcome_bind]
      exact hrest.bind fun _ _ _ => .ok trivial
    · simp only [workOn, Logged.outcome_bind]
      have hbranch :=
        upToDepth_branch (k := k) (hcases _ List.mem_cons_self goal rfl) bounds ctor.name
      exact hbranch.bind fun _ _ _ => hrest.bind fun _ _ _ => .ok trivial

end Kernel

end UniqueEvidence
