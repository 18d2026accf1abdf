/-
How a run can fail.

Whatever the goal is, an error inside a run is an answer somewhere: a refusal in the work on a
branch leaves that branch open, and a refusal before the split is a mismatch between the goal and
the task.  Here nothing is asked of the goal: its terms need not be typed, and its hypotheses may
share names.

* `Kernel.ends_comparison`: the sides are compared, or the goal is a mismatch;
* `Kernel.yields_prepare`: the goal is brought into the form of the motive and split, or something
  is refused;
* `Kernel.contained_of_solve`: **a run gives a result or ends in a mismatch**, as far as the depth
  goes.
-/
import UniqueEvidence.Proofs.Opening

namespace UniqueEvidence

/-- The goal does not fit the task, or the depth is spent. -/
def Fault.IsContained (f : Fault) : Prop :=
  f = .exhausted ∨ ∃ why, f = .mismatch why

/-- A refusal that is reported as a mismatch. -/
lemma ends_refusalAs {α : Type} {why : Refusal → Mismatch} {x : Except Fault α} {Q : α → Prop}
    (h : Ends x Q Fault.IsRefusal) : Ends (refusalAs why x) Q Fault.IsContained := by
  cases x with
  | ok a => exact .ok (h.1 a rfl)
  | error f =>
    rcases h.2 f rfl with rfl | ⟨w, rfl⟩
    · exact .error (.inl rfl)
    · exact .error (.inr ⟨why w, rfl⟩)

namespace Kernel

variable {k : Kernel} {goal : Goal}

/-! ### Before the split -/

lemma ends_peel (ctx : Context) (scrutinee : Term) (icount : Int) (found count : Nat) (ty : Term) :
    Ends (k.peel ctx scrutinee icount found count ty) (fun _ => True) Fault.IsContained := by
  induction count generalizing found ty with
  | zero => exact .ok trivial
  | succ count ih =>
    cases ty with
    | app fn arg =>
      rw [peel]
      refine (ends_refusalAs (spares_inferAt k.depth ctx arg).ends_isRefusal).bind fun _ _ => ?_
      exact (ih (found + 1) fn).bind fun _ _ => .ok trivial
    | _ => exact .error (.inr ⟨_, rfl⟩)

lemma ends_orient (target : Term) :
    Ends (k.orient target).outcome (fun _ => True) Fault.IsContained := by
  rw [orient, Logged.outcome_bind, Logged.outcome_liftM]
  refine ((upToDepth_normalize k target).ends (.inl rfl)).bind fun t _ => ?_
  split
  · exact .error (.inr ⟨_, rfl⟩)
  · split
    · rw [Logged.outcome_bind, Logged.outcome_note]
      exact .ok trivial
    · exact .ok trivial

/-- The sides of the goal are compared, or the goal does not fit. -/
lemma ends_comparison (goal : Goal) (icount : Int) :
    Ends (k.comparison goal icount).outcome (fun _ => True) Fault.IsContained := by
  rw [comparison]
  split
  · exact .error (.inr ⟨_, rfl⟩)
  · rw [Logged.outcome_bind]
    refine (ends_orient goal.target).bind fun p _ => ?_
    rw [Logged.outcome_bind, Logged.outcome_liftM]
    refine (ends_refusalAs (spares_inferAt k.depth _ _).ends_isRefusal).bind fun ty _ => ?_
    rw [Logged.outcome_bind, Logged.outcome_liftM]
    refine (ends_peel _ _ _ _ _ _).bind fun q _ => ?_
    rw [Logged.outcome_bind, Logged.outcome_note]
    exact .ok trivial

/-! ### The split -/

lemma spares_generalize (target witness : Term) : Spares (k.generalize goal target witness) := by
  have hquantified : Spares (k.quantified goal target) := by
    refine (spares_expectTypeBy (spares_inferAt k.depth) _ _).bind fun _ =>
      (spares_withinDepth _).bind fun _ => ?_
    split
    · exact spares_ok _
    · exact spares_refuse rfl
  refine hquantified.bind fun p => (spares_checkBy (spares_inferAt k.depth) _ _ _).bind fun _ =>
    (spares_withinDepth _).bind fun _ => ?_
  split
  · exact spares_ok _
  · exact spares_refuse rfl

lemma spares_peelIndices (indexTypes : List Term) (mty : Term) :
    Spares (k.peelIndices indexTypes mty) := by
  induction indexTypes generalizing mty with
  | nil => exact spares_ok _
  | cons ity rest ih =>
    cases mty with
    | pi x dom cod =>
      rw [peelIndices]
      refine (spares_withinDepth _).bind fun _ => ?_
      split
      · exact (ih _).bind fun _ => spares_ok _
      · exact spares_refuse rfl
    | _ => exact spares_refuse rfl

lemma spares_checkMotive (ctx : Context) (motive : Term) (family : Name)
    (indexTypes fixed : List Term) : Spares (k.checkMotive ctx motive family indexTypes fixed) := by
  refine (spares_inferAt k.depth ctx motive).bind fun _ => (spares_peelIndices _ _).bind fun p => ?_
  dsimp only
  split
  · refine (spares_withinDepth _).bind fun _ => ?_
    split
    · refine (spares_withinDepth _).bind fun _ => ?_
      split
      · exact spares_ok _
      · exact spares_refuse rfl
    · exact spares_refuse rfl
  · exact spares_refuse rfl

/-- A split is of evidence of a declared family. -/
lemma ends_evidenceOf (ctx : Context) (scrutinee : Term) :
    Ends (k.evidenceOf ctx scrutinee) (fun p => p.1 ∈ k.env.families) Fault.IsRefusal := by
  refine Spares.ends ?_ (fun _ => Fault.IsPlain.isRefusal) fun p hp => ?_
  · refine (spares_inferAt k.depth ctx scrutinee).bind fun ty => ?_
    split
    · split
      · exact spares_ok _
      · exact spares_refuse rfl
    · exact spares_refuse rfl
  · obtain ⟨-, -, -, hf, -⟩ := evidenceOf_eq_ok hp
    exact hf

lemma ends_leadCount (family : Family) (args : List Term) (icount : Int) (shown : Argument) :
    Ends (leadCount family args icount shown) (fun lead => (args.take lead).length ≤ family.arity)
      Fault.IsRefusal := by
  rw [leadCount]
  split
  · rename_i h
    refine .ok ?_
    rw [List.length_take]
    omega
  · exact .refuse (.inr ⟨_, rfl⟩)

section Runs

variable (hindices : ∀ f ∈ k.env.families, ∀ ctor ∈ f.ctors, f.arity ≤ ctor.indices.length)
include hindices

/-- **A split is refused at worst**, if each constructor gives all its indices. -/
lemma ends_caseBranches (goal : Goal) (scrutinee : Term) (icount : Int) (motive : Term) :
    Ends (k.caseBranches goal scrutinee icount motive) (fun _ => True) Fault.IsRefusal := by
  rw [caseBranches, caseBranchesAs]
  refine (ends_evidenceOf _ _).bind ?_
  rintro ⟨f, args⟩ hf
  refine (ends_leadCount f args icount _).bind fun lead hlead => ?_
  refine (spares_checkMotive _ _ _ _ _).ends_isRefusal.bind fun _ _ =>
    (spares_withinDepth _).ends_isRefusal.bind fun _ _ => ?_
  split
  · refine (ends_branchGoals (fun ctor hctor => Nat.le_trans hlead (hindices f hf ctor hctor))
      (List.nil_subset _)).imp (fun _ _ => trivial) fun fault hfault => ?_
    rcases hfault with rfl | ⟨ctor, -, rfl, -⟩
    · exact .inl rfl
    · exact .inr ⟨_, rfl⟩
  · exact .refuse (.inr ⟨_, rfl⟩)

omit hindices in
/-- A step is refused if its rule is, or if it does not leave one subgoal. -/
lemma yields_step_isRefusal {rule : Rule} (h : ∀ g, Spares (k.run g rule)) :
    Attempt.Yields (fun _ => True) (Attempt.step k rule) (fun _ _ => True) Fault.IsRefusal := by
  refine Attempt.yields_bind (Attempt.yields_goal _) fun g =>
    Attempt.yields_bind ((Attempt.yields_liftM (R := fun _ => True) fun _ _ => ?_).post fun _ _ _ =>
      trivial) fun gs => ?_
  · rw [outcome_perform]
    exact (h g).ends_isRefusal
  · split
    · exact fun _ _ => .ok trivial
    · exact Attempt.yields_fail (.inr ⟨_, rfl⟩) _

/-- What comes before the work on the branches is refused at worst. -/
lemma yields_prepare (c : Comparison) (m : Motive) (curried : Term) :
    Attempt.Yields (fun _ => True) (k.prepare c m curried) (fun _ _ => True) Fault.IsRefusal := by
  have hrest : Attempt.Yields (fun _ => True) (do
      Attempt.step k (.change (.eq c.evidenceType m.reflexiveLhs c.rhs))
      let target ← (m.target k.depth c.indices c.rhs : Logged Term)
      Attempt.step k (.generalize target m.reflWitness)
      (k.caseBranches (← Attempt.goal) c.rhs c.icount curried :
        Logged (List (FamilyCtor × Option Goal))))
      (fun _ _ => True) Fault.IsRefusal := by
    refine Attempt.yields_bind (yields_step_isRefusal fun _ => spares_change _) fun _ => ?_
    have htarget : Ends (m.target k.depth c.indices c.rhs) (fun _ => True) Fault.IsRefusal :=
      (m.upToDepth_target k.depth c.indices c.rhs).ends (.inl rfl)
    refine Attempt.yields_bind ((Attempt.yields_liftM fun _ _ => htarget).post fun _ _ _ => trivial)
      fun target => ?_
    refine Attempt.yields_bind (yields_step_isRefusal fun _ => spares_generalize _ _) fun _ => ?_
    refine Attempt.yields_bind ((Attempt.yields_goal _).post fun _ _ _ => trivial) fun g => ?_
    exact (Attempt.yields_liftM fun _ _ => ends_caseBranches hindices g _ _ _).post fun _ _ _ =>
      trivial
  unfold prepare
  split
  · exact Attempt.yields_bind (yields_step_isRefusal fun _ => spares_symmetry) fun _ => hrest
  · exact hrest

/-! ### Whole runs -/

lemma ends_solve_isContained (goal : Goal) (icount : Int) (bounds : Bounds) :
    Ends (k.solve goal icount bounds).outcome (fun _ => True) Fault.IsContained := by
  rw [solve, Logged.outcome_bind]
  refine (ends_comparison goal icount).bind fun c _ => ?_
  rw [Logged.outcome_bind]
  refine ((upToDepth_motive c goal.names).ends (.inl rfl)).bind ?_
  rintro ⟨motive, curried⟩ ⟨rfl, hcurried⟩
  dsimp only at hcurried ⊢
  have hprepare := yields_prepare hindices c (c.motive goal.names) curried { goal } trivial
  rcases hwork : k.prepare c (c.motive goal.names) curried { goal } with ⟨work, trail⟩
  rw [hwork] at hprepare
  rw [Logged.outcome_bind]
  have hsplit : Ends (work.mapOutcome (refusalAs (.unsplittable c.rhs))).outcome
      (fun cases => work.outcome = .ok cases)
      Fault.IsContained := ends_refusalAs ⟨fun _ h => h, hprepare.2⟩
  refine hsplit.bind fun cases hcases => ?_
  have hawaits := awaits_of_prepare persists_true trivial hcurried hwork hcases
  simp only [Logged.outcome_bind, Logged.outcome_note, Except.ok_bind]
  exact ((upToDepth_workOn bounds hawaits).ends (.inl rfl)).bind fun _ _ => .ok trivial

end Runs

/-- **Errors are contained.**  Let each constructor of a family give as many indices as the family
has.  Then, whatever the registry is, a run on any goal, at any number of indices and within any
bounds, gives a result or ends in a mismatch, unless a normal form is not found within the depth.
So it does not end in the refusal of a rule, for want of a decider, because an equation cannot be
simplified, at a hypothesis that is not an index equation or at an index that is missing. -/
theorem contained_of_solve (k : Kernel)
    (hindices : ∀ f ∈ k.env.families, ∀ ctor ∈ f.ctors, f.arity ≤ ctor.indices.length) (goal : Goal)
    (icount : Int) (bounds : Bounds) :
    (∃ s, (k.solve goal icount bounds).outcome = .ok s) ∨
      (∃ why, (k.solve goal icount bounds).outcome = .error (.mismatch why)) ∨
      (k.solve goal icount bounds).outcome = .error .exhausted := by
  obtain ⟨-, herror⟩ := ends_solve_isContained hindices goal icount bounds
  cases h : (k.solve goal icount bounds).outcome with
  | ok s => exact .inl ⟨s, rfl⟩
  | error f =>
    rcases herror f h with rfl | ⟨why, rfl⟩
    · exact .inr (.inr rfl)
    · exact .inr (.inl ⟨why, rfl⟩)

end Kernel

/-- A goal that makes no sense: two hypotheses share a name, and the target is of no type. -/
def Sample.senseless : Goal where
  hyps := [⟨"h", .var "h"⟩, ⟨"h", Sample.nodeType⟩]
  target := .eq (.var "z") (.app (.var "h") .tt) (.var "h")

/-- The constructors of the sample give their indices, so a run on a goal that makes no sense ends
in a mismatch at worst; at this one it does. -/
theorem Kernel.contained_of_solve_sample :
    (∀ f ∈ Sample.env.families, ∀ ctor ∈ f.ctors, f.arity ≤ ctor.indices.length) ∧
    (∀ icount bounds,
      (∃ s, ((Sample.kernel .default).solve Sample.senseless icount bounds).outcome = .ok s) ∨
      (∃ why, ((Sample.kernel .default).solve Sample.senseless icount bounds).outcome =
        .error (.mismatch why)) ∨
      ((Sample.kernel .default).solve Sample.senseless icount bounds).outcome = .error .exhausted) ∧
    (Sample.mismatch? ((Sample.kernel .default).solve Sample.senseless 1 {}).outcome).isSome := by
  have hindices : ∀ f ∈ (Sample.kernel .default).env.families, ∀ ctor ∈ f.ctors,
    f.arity ≤ ctor.indices.length := by decide
  exact ⟨hindices, contained_of_solve (Sample.kernel .default) hindices Sample.senseless,
    by decide +kernel⟩

end UniqueEvidence
