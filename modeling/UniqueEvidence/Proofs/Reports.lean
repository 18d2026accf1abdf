/-
Reports agree with certificates.

* `Kernel.holes_of_search`: what the search finds has no holes;
* `Kernel.holes_of_branch`: **the holes of a branch's proof are its residual**, if it has one, and
  nothing else;
* `Kernel.ctors_of_branchGoals`: a split has one case for each constructor, in order;
* `Kernel.reports_of_solve`: so **the goals that a run leaves open are the residuals of its open
  branches**, in order.
-/
import UniqueEvidence.Proofs.CaseAnalysis
import UniqueEvidence.Proofs.Course
import UniqueEvidence.Proofs.Endings
import UniqueEvidence.Proofs.Sample

namespace UniqueEvidence

/-! ### Holes of certificates -/

namespace Certificate

@[simp] lemma holes_leaf (rule : Rule) : (leaf rule).holes = [] := by
  simp [leaf, holes, holesAll]

@[simp] lemma holes_chain (calls : List Call) (tail : Certificate) :
    (chain calls tail).holes = tail.holes := by
  induction calls with
  | nil => rfl
  | cons call calls ih =>
    rw [← ih]
    simp [chain, holes, holesAll]

end Certificate

namespace Kernel

variable {k : Kernel} {goal : Goal}

/-! ### What the search finds -/

lemma holes_of_closeDirectly {c : Certificate} (h : (k.closeDirectly goal).outcome = .ok (some c)) :
    c.holes = [] := by
  rw [closeDirectly] at h
  obtain ⟨found, -, h⟩ := Logged.outcome_bind_eq_ok.1 h
  cases found with
  | some rule =>
    obtain rfl : Certificate.leaf rule = c := by simpa using h
    exact Certificate.holes_leaf rule
  | none =>
    rw [closeFlipped] at h
    obtain ⟨result, -, h⟩ := Logged.outcome_bind_eq_ok.1 h
    split at h
    · obtain ⟨found, -, h⟩ := Logged.outcome_bind_eq_ok.1 h
      obtain ⟨rule, rfl, rfl⟩ : ∃ rule, found = some rule ∧
          Certificate.step Rule.symmetry.call [.leaf rule] = c := by simpa using h
      simp [Certificate.holes, Certificate.holesAll]
    · simp at h

lemma holes_of_closeAll {close : Goal → Logged (Option Certificate)} {depth : Nat}
    (hclose : ∀ {g c}, (close g).outcome = .ok (some c) → c.holes = []) {goals : List Goal}
    {cs : List Certificate} (h : (closeAll close depth goals).outcome = .ok (some cs)) :
    Certificate.holesAll cs = [] := by
  induction goals generalizing cs with
  | nil =>
    obtain rfl : [] = cs := by simpa [closeAll] using h
    simp [Certificate.holesAll]
  | cons g rest ih =>
    rw [closeAll] at h
    obtain ⟨found, hfound, h⟩ := Logged.outcome_bind_eq_ok.1 h
    cases found with
    | none => simp at h
    | some c =>
      obtain ⟨others, hothers, h⟩ := Logged.outcome_bind_eq_ok.1 h
      obtain ⟨cs', rfl, rfl⟩ : ∃ cs', others = some cs' ∧ c :: cs' = cs := by simpa using h
      simp [Certificate.holesAll, hclose hfound, ih hothers]

lemma holes_of_searchWithin (depth : Nat) {goal : Goal} {c : Certificate}
    (h : (k.searchWithin depth goal).outcome = .ok (some c)) : c.holes = [] := by
  induction depth generalizing goal c with
  | zero => exact holes_of_closeDirectly h
  | succ depth ih =>
    rw [searchWithin] at h
    obtain ⟨found, hfound, h⟩ := Logged.outcome_bind_eq_ok.1 h
    cases found with
    | some c' =>
      obtain rfl : c' = c := by simpa using h
      exact holes_of_closeDirectly hfound
    | none =>
      rw [closeByCongruence] at h
      obtain ⟨result, -, h⟩ := Logged.outcome_bind_eq_ok.1 h
      cases result with
      | error _ => simp at h
      | ok subgoals =>
        obtain ⟨children, hchildren, h⟩ := Logged.outcome_bind_eq_ok.1 h
        obtain ⟨cs, rfl, rfl⟩ : ∃ cs, children = some cs ∧
          .step Rule.congruence.call cs = c := by simpa using h
        rw [Certificate.holes]
        exact holes_of_closeAll ih hchildren

/-- What the search finds has no holes. -/
lemma holes_of_search {depth : Int} {c : Certificate}
    (h : (k.search goal depth).outcome = .ok (some c)) : c.holes = [] := by
  rw [search] at h
  split at h
  · simp at h
  · exact holes_of_searchWithin _ h

end Kernel

/-! ### Branches -/

namespace Attempt

variable {α : Type} {k : Kernel}

/-- What closes a branch has no holes: it is a contradiction, or found by the search. -/
lemma yields_discharge_holes (bounds : Bounds) :
    Yields (fun _ => True) (discharge k bounds) (fun r _ => r.2.holes = []) fun _ => True := by
  refine yields_bind (yields_trivial _ _) fun _ => yields_bind (yields_trivial _ _) fun _ =>
    yields_bind (yields_trivial _ _) fun _ => yields_bind (yields_trivial _ _) fun found =>
    yields_bind (yields_trivial _ _) fun _ => ?_
  cases found with
  | some x => exact (yields_pure _ _).pre fun _ _ => Certificate.holes_leaf _
  | none =>
    refine yields_bind (yields_trivial _ _) fun _ => yields_bind (yields_trivial _ _) fun _ =>
      yields_bind (yields_trivial _ _) fun g => ?_
    refine yields_bind
      (yields_liftM (R := fun found => (k.search g bounds.searchDepth).outcome = .ok found)
      fun _ _ => ⟨fun _ ha => ha, fun _ _ => trivial⟩) fun found => ?_
    cases found with
    | some proof => exact (yields_pure _ _).pre fun _ h => Kernel.holes_of_search h.2
    | none => exact yields_bind (yields_trivial _ _) fun _ => yields_fail trivial _

end Attempt

namespace Kernel

variable {k : Kernel} {goal : Goal}

/-- **The holes of a branch's proof are its residual**, if it has one: a closed branch has
neither. -/
lemma holes_of_branch {bounds : Bounds} {ctor : Name} {b : Branch}
    (h : (k.branch bounds ctor goal).outcome = .ok b) :
    b.ctor = ctor ∧ ∃ proof, b.outcome.proof? = some proof ∧
      proof.holes = b.outcome.residual?.toList := by
  obtain ⟨hok, -⟩ := Attempt.yields_discharge_holes (k := k) bounds { goal } trivial
  rcases hwork : Attempt.discharge k bounds { goal } with ⟨⟨outcome, log⟩, trail⟩
  rw [hwork] at hok
  simp only [branch, hwork] at h
  cases outcome with
  | ok r =>
    obtain ⟨how, tail⟩ := r
    obtain rfl : Branch.mk ctor (.closed how (trail.finish tail)) trail.destructed = b := by
      simpa [conclude] using h
    refine ⟨rfl, _, rfl, ?_⟩
    rw [Trail.finish, Certificate.holes_chain]
    exact hok _ rfl
  | error f =>
    simp only [conclude] at h
    split at h
    · simp at h
    · rename_i why _
      obtain rfl : Branch.mk ctor (.leftOpen why trail.goal (trail.finish (.hole trail.goal)))
          trail.destructed = b := by
        simpa using h
      refine ⟨rfl, _, rfl, ?_⟩
      rw [Trail.finish, Certificate.holes_chain, Certificate.holes]
      rfl

/-- A branch that the split ruled out has neither proof nor residual; any other has a proof whose
holes are its residual. -/
lemma holes_of_workOn {bounds : Bounds} {cases : List (FamilyCtor × Option Goal)} {bs : List Branch}
    (h : (k.workOn bounds cases).outcome = .ok bs) :
    bs.map Branch.ctor = cases.map (·.1.name) ∧
      ∀ b ∈ bs, (b.outcome.proof?.map Certificate.holes).getD [] = b.outcome.residual?.toList := by
  have hbranches := workOn_eq_ok h
  clear h
  induction hbranches with
  | nil => simp
  | cons hfirst _ ih =>
    rcases hfirst with ⟨-, rfl⟩ | ⟨g, -, hb⟩
    · exact ⟨by simp [ih.1], List.forall_mem_cons.2 ⟨rfl, ih.2⟩⟩
    · obtain ⟨hctor, proof, hproof, hholes⟩ := holes_of_branch hb
      refine ⟨by simp [ih.1, hctor], List.forall_mem_cons.2 ⟨?_, ih.2⟩⟩
      rw [hproof, Option.map_some, Option.getD_some, hholes]

end Kernel

lemma Outcome.residual?_isSome (o : Outcome) :
    o.residual?.isSome = true ↔ o.status = .leftOpen := by
  rcases o with _ | ⟨_ | _, _⟩ | _ <;> simp [Outcome.residual?, Outcome.status, Closing.status]

/-- The residuals of the open branches are all residuals that there are. -/
lemma Branch.residuals_eq (bs : List Branch) :
    (bs.filter (·.status = .leftOpen)).map (·.outcome.residual?) =
    (bs.flatMap fun b => b.outcome.residual?.toList).map some := by
  induction bs with
  | nil => rfl
  | cons b bs ih =>
    have hb := b.outcome.residual?_isSome
    cases hres : b.outcome.residual? with
    | none =>
      rw [hres] at hb
      have hstatus : b.status ≠ .leftOpen := fun hstatus => by simpa using hb.2 hstatus
      simp [hstatus, hres, ih]
    | some g =>
      rw [hres] at hb
      have hstatus : b.status = .leftOpen := hb.1 rfl
      simp [hstatus, hres, ih]

/-- If the holes of each proof are the residual of its branch, then those of all proofs are the
residuals in order. -/
lemma holesAll_proofs {bs : List Branch}
    (h : ∀ b ∈ bs, (b.outcome.proof?.map Certificate.holes).getD [] = b.outcome.residual?.toList) :
    Certificate.holesAll (bs.filterMap (·.outcome.proof?)) = bs.flatMap fun b =>
      b.outcome.residual?.toList := by
  induction bs with
  | nil => simp [Certificate.holesAll]
  | cons b bs ih =>
    obtain ⟨hb, hbs⟩ := List.forall_mem_cons.1 h
    rw [List.flatMap_cons, ← hb, ← ih hbs]
    cases hproof : b.outcome.proof? <;> simp [hproof, Certificate.holesAll]

namespace Kernel

variable {k : Kernel} {goal : Goal}

/-! ### Whole runs -/

/-- A split has one case for each constructor, in order. -/
lemma ctors_of_branchGoals {motive : Term} {fixed : List Term} {taken : List Name}
    {ctors : List FamilyCtor} {branches : List (FamilyCtor × Option Goal)}
    (h : k.branchGoals goal motive fixed taken ctors = .ok branches) :
    branches.map Prod.fst = ctors := by
  have hsame : List.Forall₂ (fun p ctor => Prod.fst p = ctor) branches ctors :=
    ((branchGoals_eq_ok h).imp fun _ _ hp => hp.1).flip
  rwa [← List.forall₂_map_left_iff, List.forall₂_eq_eq_eq] at hsame

/-- **Reports agree with the certificate.**  A run that returns has one branch for each constructor
of the family of its scrutinee, in order of declaration.  The proof of a branch that is discharged
or contradicted has no hole, and the proof of an open one has one hole, which is its residual.  So
the goals left open are the residuals of the open branches, in order, and the run is closed if and
only if no branch is open. -/
theorem reports_of_solve (k : Kernel) (goal : Goal) (icount : Int) (bounds : Bounds) (s : Solution)
    (h : (k.solve goal icount bounds).outcome = .ok s) :
    (∃ f ∈ k.env.families, ∃ ty, k.infer goal.context s.comparison.rhs = .ok ty ∧
      ty.head = .const f.name ∧
      s.branches.map Branch.ctor = f.ctors.map FamilyCtor.name) ∧
    (∀ b ∈ s.branches, b.status = .discharged ∨ b.status = .contradicted →
      ∀ proof, b.outcome.proof? = some proof → proof.holes = []) ∧
    (∀ b ∈ s.branches, b.status = .leftOpen →
      ∃ proof residual, b.outcome.proof? = some proof ∧ b.outcome.residual? = some residual ∧
        proof.holes = [residual]) ∧
    s.openGoals.map some = (s.withStatus .leftOpen).map (·.outcome.residual?) ∧
    (s.isClosed = true ↔ ∀ b ∈ s.branches, b.status ≠ .leftOpen) := by
  obtain ⟨-, -, -, work, trail, cases, hprepare, hcases, hbranches, hproof⟩ := solve_eq_ok h
  obtain ⟨hctors, hholes⟩ := holes_of_workOn hbranches
  have hopen : s.openGoals = s.branches.flatMap fun b => b.outcome.residual?.toList := by
    rw [Solution.openGoals, hproof, Trail.finish, Certificate.holes_chain, Certificate.holes,
      holesAll_proofs hholes]
  refine ⟨?_, fun b hb hstatus proof hproof => ?_, fun b hb hstatus => ?_, ?_, ?_⟩
  · obtain ⟨g, hhyps, hsplit⟩ := caseBranches_of_prepare hprepare hcases
    obtain ⟨f, ty, lead, hty, hhead, hf, -, -, -, -, -, hgoals⟩ := caseBranchesAs_eq_ok hsplit
    refine ⟨f, hf, ty, ?_, hhead, ?_⟩
    · rwa [Goal.context, hhyps] at hty
    · rw [hctors, ← ctors_of_branchGoals hgoals, List.map_map]
      rfl
  · have hb' := hholes b hb
    have hnone : b.outcome.residual? = none := by
      rw [← Option.not_isSome_iff_eq_none, Outcome.residual?_isSome]
      intro hopen'
      rcases hstatus with hstatus | hstatus <;>
        rw [Branch.status, hopen'] at hstatus <;> cases hstatus
    rw [hproof, hnone] at hb'
    exact hb'
  · obtain ⟨g, hg⟩ := Option.isSome_iff_exists.1 ((Outcome.residual?_isSome _).2 hstatus)
    have hb' := hholes b hb
    rw [hg] at hb'
    cases hproof : b.outcome.proof? with
    | none =>
      rw [hproof] at hb'
      cases hb'
    | some proof =>
      rw [hproof] at hb'
      exact ⟨proof, g, rfl, hg, hb'⟩
  · rw [hopen, Solution.withStatus, Branch.residuals_eq]
  · rw [Solution.isClosed, List.isEmpty_iff, hopen, List.flatMap_eq_nil_iff]
    refine forall₂_congr fun b _ => ?_
    rw [Option.toList_eq_nil_iff, ← Option.not_isSome_iff_eq_none, Outcome.residual?_isSome]
    rfl

/-- Without a decider for trees, the run on the sample goal reports on its two constructors, of
which the second stays open. -/
theorem reports_of_solve_sample :
    ∃ s, ((Sample.kernel .default).solve Sample.goal 1 {}).outcome = .ok s ∧
    s.branches.map (fun b => (b.ctor, b.status)) =
      [(.text "s_leaf", .contradicted), (.text "s_node", .leftOpen)] ∧
    s.openGoals.map some = (s.withStatus .leftOpen).map (·.outcome.residual?) ∧
    (s.isClosed = true ↔ ∀ b ∈ s.branches, b.status ≠ .leftOpen) := by
  have hrun : ((Sample.kernel .default).solve Sample.goal 1 {}).outcome.toOption.map
      (fun s => s.branches.map fun b => (b.ctor, b.status)) =
        some [(.text "s_leaf", .contradicted), (.text "s_node", .leftOpen)] := by decide +kernel
  cases hs : ((Sample.kernel .default).solve Sample.goal 1 {}).outcome with
  | error f =>
    rw [hs] at hrun
    cases hrun
  | ok s =>
    rw [hs] at hrun
    exact ⟨s, rfl, Option.some.inj hrun, (reports_of_solve _ _ _ _ s hs).2.2.2⟩

end Kernel

end UniqueEvidence
