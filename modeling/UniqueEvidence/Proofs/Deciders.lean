/-
Which deciders a run needs.

The only decider that a branch cannot do without is the one for the type of the index tuple.  Where
the types of the indices are closed, that type goes through the whole run as it is: the motive asks
for an equation at it, and substitution and normalisation of the motive leave it alone.

* `Goal.KeepsAt`: the hypothesis `pf` is an equation at the type; `Attempt.endures_keepsAt`: the
  steps of a branch leave it so;
* `Registry.ExtendsDefault.find?_tupleType`: a type of tuples has a decider if its components have;
* `Kernel.decided_of_solve`: **without that decider no branch is discharged, and with it none is
  left open for want of one**.
-/
import UniqueEvidence.Proofs.Demands
import UniqueEvidence.Proofs.FirstOrder
import UniqueEvidence.Proofs.Sample
import UniqueEvidence.Proofs.Scoping

namespace UniqueEvidence

/-! ### The index equation of a branch -/

/-- Substitution does not reach a closed type, and normalisation does not change a normal one. -/
lemma Term.persists_eq {U : Term} (hclosed : U.freeVars = []) (hU : U.nameless.IsNormal) :
    Persists (· = U) where
  subst y v h := by rw [h, subst_of_not_mem (by simp [hclosed])]
  normalize h hU' := by
    rw [h] at hU'
    exact eq_of_normalize_normal hU hU'

/-- If there is a hypothesis of the name, it is an equation at the type. -/
def Goal.KeepsAt (goal : Goal) (x : Name) (U : Term) : Prop :=
  ∀ b ∈ goal.hyps, b.name = x → ∃ lhs rhs, b.ty = .eq U lhs rhs

/-- If the fault is that a decider is missing, then one is. -/
def Fault.Excused (missing : Prop) (f : Fault) : Prop :=
  ∀ why, f = .refused why → (Obstacle.refused why).isMissingDecider = true → missing

lemma Fault.Excused.of_isPlain {missing : Prop} {f : Fault} (hf : f.IsPlain) :
    f.Excused missing := by
  rintro why rfl hmissing
  obtain hf | ⟨why', hwhy', hf⟩ := hf
  · cases hf
  · cases hwhy'
    rw [hf] at hmissing
    cases hmissing

lemma Fault.allows_excused (missing : Prop) : Fault.Allows (Fault.Excused missing) where
  plain _ := .of_isPlain
  stuck _ _ h := by cases h

/-- The computation does not need a decider. -/
lemma Spares.excused {α : Type} {x : Except Fault α} {Q : α → Prop} {missing : Prop} (hx : Spares x)
    (hQ : ∀ a, x = .ok a → Q a) : Ends x Q (Fault.Excused missing) :=
  hx.ends (fun _ => .of_isPlain) hQ

namespace Attempt

variable {k : Kernel} {U : Term} {pf : Name} {missing : Prop}

/-- **The index equation stays an equation at a closed type**, whatever is split, dropped and
eliminated, if the equations that a split leaves are not named as it. -/
lemma endures_keepsAt (hclosed : U.freeVars = []) (hpf : ∀ avoid n, pf ∉ freshNames "H" avoid n) :
    Endures k fun g => g.KeepsAt pf U where
  change hg h := by
    obtain ⟨-, -, heq⟩ := Kernel.change_eq_ok h
    cases heq
    exact hg
  clear hg h := by
    obtain ⟨-, -, heq⟩ := Kernel.clear_eq_ok h
    cases heq
    exact fun b hb => hg b (List.mem_filter.1 hb).1
  injection hg h := by
    obtain ⟨e, parts, -, -, -, -, -, heq⟩ := Kernel.injectionAs_eq_ok h
    cases heq
    intro b hb hname
    rcases List.mem_append.1 hb with hb | hb
    · exact hg b hb hname
    · exact absurd (hname ▸ (mem_of_zipWith hb).1) (hpf _ _)
  subst {g g' x y} hg h := by
    obtain ⟨e, v, hyps, -, -, -, -, -, -, -, hreorder, heq⟩ := Kernel.eliminate_eq_ok h
    cases heq
    intro b hb hname
    obtain ⟨b', hb', rfl⟩ := List.mem_map.1 ((reorder_spec hreorder).1.mem_iff.1 hb)
    obtain ⟨l, r, hty⟩ := hg b' (List.mem_filter.1 hb').1 hname
    refine ⟨l.subst y v, r.subst y v, ?_⟩
    rw [hty, Term.subst_eq, Term.subst_of_not_mem (by simp [hclosed])]

/-- The decider that is looked up is the one for the type of the index tuple. -/
lemma yields_uip (hU : U.nameless.IsNormal) :
    Yields (fun g => g.KeepsAt pf U) (step k (.uip pf)) (fun _ g => g.KeepsAt pf U ∧
      (k.registry.find? U).isSome)
      (Fault.Excused (k.registry.find? U = none)) := by
  refine yields_step fun g hg => ?_
  have hequation :
      Ends (k.equation g pf) (fun e => e.ty = U) (Fault.Excused (k.registry.find? U = none)) := by
    refine (Kernel.spares_equation pf).excused fun e he => ?_
    obtain ⟨ty, hty, hnormal⟩ := Kernel.equation_eq_ok he
    obtain ⟨l, r, rfl⟩ := hg ⟨pf, ty⟩ (Context.mem_of_lookup? hty) rfl
    obtain ⟨_, U', l', r', hU', heq⟩ := Term.normalize_eq (Kernel.withinDepth_eq_ok.1 hnormal)
    cases heq
    exact Term.eq_of_normalize_normal hU hU'
  have hdecider : Ends (k.decider? U) (fun d? => d? = k.registry.find? U)
      (Fault.Excused (k.registry.find? U = none)) := by
    refine (spares_withinDepth _).excused fun d? hd => ?_
    obtain ⟨U', hU', rfl⟩ := Option.map_eq_some_iff.1 (Kernel.withinDepth_eq_ok.1 hd)
    rw [Term.eq_of_normalize_normal hU hU']
  refine hequation.bind fun e he =>
    ((spares_withinDepth _).excused fun _ _ => trivial).bind fun same _ => ?_
  split
  · subst he
    refine hdecider.bind fun d? hd => ?_
    split
    · exact .refuse fun _ _ _ => hd.symm
    · refine ((Kernel.spares_unusedInHyps pf).excused fun _ _ => trivial).bind fun _ _ =>
        .ok ⟨_, rfl, fun b hb hname => ?_, ?_⟩
      · exact absurd hname (by simpa using (List.mem_filter.1 hb).2)
      · simp [← hd]
  · exact .refuse fun why hwhy hmissing => by cases hwhy; cases hmissing

/-- What is needed to close a branch, and what may be missing if it stays open. -/
theorem yields_discharge_of_awaits (hclosed : U.freeVars = []) (hU : U.nameless.IsNormal)
    (bounds : Bounds) :
    Yields (fun g => g.Awaits (· = U)) (discharge k bounds) (fun r _ => r.1 = .discharged →
      (k.registry.find? U).isSome)
      (Fault.Excused (k.registry.find? U = none)) := by
  refine yields_discharge (I := fun pf g => g.KeepsAt pf U) (Fault.allows_excused _)
    (fun avoid => endures_keepsAt hclosed ?_)
    (fun pf => (yields_intro (fun _ => .of_isPlain) pf).post fun _ g hg b hb hname => ?_)
      (fun pf g hg b hb hname => ?_)
    (fun _ => yields_uip hU) bounds
  -- the two kinds of names start with different letters
  case refine_2 =>
    obtain ⟨U', l, r, rfl, hty⟩ := hg b hb hname
    exact ⟨l, r, hty⟩
  case refine_3 =>
    obtain ⟨l, r, hty⟩ := hg b hb (List.mem_singleton.1 hname)
    exact ⟨⟨U, l, r⟩, hty⟩
  intro avoid' n hmem
  have hp : (fresh "pf" avoid).plain.toList.head? = some 'p' := head?_fresh rfl avoid
  have hH : (fresh "pf" avoid).plain.toList.head? = some 'H' := head?_of_mem_freshNames rfl hmem
  rw [hp] at hH
  cases hH

end Attempt

/-! ### Deciders for tuples -/

section Tuples

variable {types : List Term} {r : Registry}

lemma isNormal_tupleType (h : ∀ ty ∈ types, ty.nameless.IsNormal) :
    (tupleType types).nameless.IsNormal := by
  induction types with
  | nil => trivial
  | cons ty types ih =>
    exact ⟨h ty List.mem_cons_self, ih fun ty' hty' => h ty' (List.mem_cons_of_mem _ hty')⟩

lemma freeVars_tupleType (h : ∀ ty ∈ types, ty.freeVars = []) :
    (tupleType types).freeVars = [] := by
  refine List.eq_nil_iff_forall_not_mem.2 fun x hx => ?_
  obtain ⟨ty, hty, hx⟩ := mem_freeVars_tupleType.1 hx
  rw [h ty hty] at hx
  cases hx

namespace Registry

/-- What is looked up for a type in normal form. -/
lemma find?_of_lookup? {ty : Term} (hty : ty.nameless.IsNormal) {depth : Nat} {d? : Option Decider}
    (h : r.lookup? depth ty = some d?) : r.find? ty = d? := by
  obtain ⟨ty', hty', rfl⟩ := Option.map_eq_some_iff.1 h
  rw [Term.eq_of_normalize_normal hty hty']

/-- The facts and the rule of the default registry are among those of the registry. -/
structure ExtendsDefault (r : Registry) : Prop where
  facts : default.facts ⊆ r.facts
  rules : default.rules ⊆ r.rules

lemma ExtendsDefault.find?_unit (hr : r.ExtendsDefault) : (r.find? .unit).isSome := by
  obtain ⟨d, hd⟩ := Option.isSome_iff_exists.1 (isSome_fact?_of_mem (hr.facts List.mem_cons_self))
  exact Option.isSome_iff_exists.2 ⟨d, find?_of_fact? hd⟩

lemma ExtendsDefault.find?_prod (hr : r.ExtendsDefault) {a b : Term} (ha : (r.find? a).isSome)
    (hb : (r.find? b).isSome) : (r.find? (.prod a b)).isSome :=
  isSome_find?_prod (hr.rules List.mem_cons_self) ha hb

/-- **A type of tuples has a decider if all its components have.** -/
theorem ExtendsDefault.find?_tupleType (hr : r.ExtendsDefault)
    (h : ∀ ty ∈ types, (r.find? ty).isSome) : (r.find? (tupleType types)).isSome := by
  induction types with
  | nil => exact hr.find?_unit
  | cons ty types ih =>
    exact hr.find?_prod (h ty List.mem_cons_self)
      (ih fun ty' hty' => h ty' (List.mem_cons_of_mem _ hty'))

end Registry

end Tuples

/-! ### Whole runs -/

namespace Kernel

variable {k : Kernel} {goal : Goal} {icount : Int} {bounds : Bounds} {U : Term}

/-- What a branch that is closed or left open says about the decider. -/
structure DecidedBy (decider? : Option Decider) (b : Branch) : Prop where
  discharged : b.status = .discharged → decider?.isSome
  missing : ∀ why, b.outcome.obstacle? = some why → why.isMissingDecider = true → decider? = none

lemma decided_branch (hclosed : U.freeVars = []) (hU : U.nameless.IsNormal)
    (hgoal : goal.Awaits (· = U)) {ctor : Name} {b : Branch}
    (h : (k.branch bounds ctor goal).outcome = .ok b) : DecidedBy (k.registry.find? U) b := by
  obtain ⟨hok, herror⟩ :=
    Attempt.yields_discharge_of_awaits (k := k) hclosed hU bounds { goal } hgoal
  rcases hwork : Attempt.discharge k bounds { goal } with ⟨⟨outcome, log⟩, trail⟩
  rw [hwork] at hok herror
  simp only [branch, hwork] at h
  cases outcome with
  | ok r =>
    obtain ⟨how, tail⟩ := r
    obtain rfl : Branch.mk ctor (.closed how (trail.finish tail)) trail.destructed = b := by
      simpa [conclude] using h
    refine ⟨fun hstatus => hok _ rfl ?_, fun _ hwhy => by cases hwhy⟩
    cases how with
    | discharged => rfl
    | contradicted => cases hstatus
  | error f =>
    simp only [conclude] at h
    split at h
    · simp at h
    · rename_i why hwhy
      obtain rfl : Branch.mk ctor (.leftOpen why trail.goal (trail.finish (.hole trail.goal)))
          trail.destructed = b := by
        simpa using h
      refine ⟨fun hstatus => ?_, fun why' hwhy' hmissing => ?_⟩
      · cases hstatus
      obtain rfl : why = why' := Option.some.inj hwhy'
      cases f with
      | refused w =>
        obtain rfl : Obstacle.refused w = why := Option.some.inj hwhy
        exact herror _ rfl w rfl hmissing
      | stuck w =>
        obtain rfl : Obstacle.stuck w = why := Option.some.inj hwhy
        cases hmissing
      | _ => cases hwhy

lemma isNormal_of_comparison {c : Comparison} (h : (k.comparison goal icount).outcome = .ok c) :
    ∀ ty ∈ Tuple.types c.reversed, ty.nameless.IsNormal := by
  intro ty hty
  obtain ⟨s, hs, rfl⟩ := List.mem_map.1 hty
  exact isNormal_of_inferAt ((comparison_eq_ok h).2.2.2 s hs)

/-- Each branch of a run is decided by the decider for the index tuple. -/
lemma decidedBy_of_solve {s : Solution} (h : (k.solve goal icount bounds).outcome = .ok s)
    (hclosed : ∀ ty ∈ Tuple.types s.comparison.reversed, ty.freeVars = []) :
    ∀ b ∈ s.branches,
      DecidedBy (k.registry.find? (tupleType (Tuple.types s.comparison.reversed))) b := by
  obtain ⟨hc, hmotive, hcurried, work, trail, cases, hprepare, hcases, hbranches, -⟩ :=
    solve_eq_ok h
  have hU := isNormal_tupleType (isNormal_of_comparison hc)
  have hclosed := freeVars_tupleType hclosed
  rw [hmotive] at hcurried hprepare
  have hawaits := awaits_of_prepare (Term.persists_eq hclosed hU) rfl hcurried hprepare hcases
  intro b hb
  obtain ⟨case, hcase, ⟨-, rfl⟩ | ⟨g', hg', hbranch⟩⟩ :=
    exists_of_forall₂ (workOn_eq_ok hbranches).flip hb
  · constructor
    · intro hstatus
      cases hstatus
    · intro why hwhy
      cases hwhy
  · exact decided_branch hclosed hU (hawaits case hcase g' hg') hbranch

/-- **A run needs the decider for its index tuple, and no other.**  Let the types of the indices be
closed.  If the lookup for the type of the index tuple finds nothing, then every branch is
contradicted or stays open; if it finds a decider, then no branch stays open for want of one.  If
the registry extends the default one and finds a decider for the type of each index, then it finds
one for their tuple. -/
theorem decided_of_solve (k : Kernel) (goal : Goal) (icount : Int) (bounds : Bounds) (s : Solution)
    (h : (k.solve goal icount bounds).outcome = .ok s)
    (hclosed : ∀ ty ∈ Tuple.types s.comparison.reversed, ty.freeVars = []) :
    (∀ depth, k.registry.lookup? depth (tupleType (Tuple.types s.comparison.reversed)) = some none →
      ∀ b ∈ s.branches, b.status = .contradicted ∨ b.status = .leftOpen) ∧
    (∀ depth d, k.registry.lookup? depth (tupleType (Tuple.types s.comparison.reversed)) =
      some (some d) →
      ∀ b ∈ s.branches, ∀ why, b.outcome.obstacle? = some why → why.isMissingDecider = false) ∧
    (k.registry.ExtendsDefault →
      (∀ ty ∈ Tuple.types s.comparison.reversed, ∃ depth d,
        k.registry.lookup? depth ty = some (some d)) →
      ∃ n, ∀ depth ≥ n, ∃ d,
        k.registry.lookup? depth (tupleType (Tuple.types s.comparison.reversed)) =
        some (some d)) := by
  have hdecided := decidedBy_of_solve h hclosed
  have hnormal := isNormal_of_comparison (solve_eq_ok h).1
  have htuple := isNormal_tupleType hnormal
  refine ⟨fun depth hnone b hb => ?_, fun depth d hsome b hb why hwhy => ?_, fun hr hdeciders => ?_⟩
  · have hstatus := (hdecided b hb).discharged
    rw [Registry.find?_of_lookup? htuple hnone] at hstatus
    cases hb' : b.status with
    | discharged => cases hstatus hb'
    | contradicted => exact .inl rfl
    | leftOpen => exact .inr rfl
  · have hmissing := (hdecided b hb).missing why hwhy
    rw [Registry.find?_of_lookup? htuple hsome] at hmissing
    exact Bool.eq_false_iff.2 fun hw => nomatch hmissing hw
  · have hfind : (k.registry.find? (tupleType (Tuple.types s.comparison.reversed))).isSome := by
      refine hr.find?_tupleType fun ty hty => ?_
      obtain ⟨depth, d, hd⟩ := hdeciders ty hty
      rw [Registry.find?_of_lookup? (hnormal ty hty) hd]
      rfl
    obtain ⟨d, hd⟩ := Option.isSome_iff_exists.1 hfind
    refine ⟨(tupleType (Tuple.types s.comparison.reversed)).size, fun depth hdepth => ⟨d, ?_⟩⟩
    rw [Registry.lookup?, Term.normalize_of_isNormal htuple hdepth, Option.map_some, hd]

/-- Without a decider for trees, one branch of the sample goal is contradicted and the other one
stays open. -/
theorem decided_of_solve_sample :
    ∃ s, ((Sample.kernel .default).solve Sample.goal 1 {}).outcome = .ok s ∧
    Tuple.types s.comparison.reversed = [.const "shape"] ∧
    Registry.default.lookup? 40 (tupleType (Tuple.types s.comparison.reversed)) = some none ∧
    ∀ b ∈ s.branches, b.status = .contradicted ∨ b.status = .leftOpen := by
  have hrun : ((Sample.kernel .default).solve Sample.goal 1 {}).outcome.toOption.map
      (fun s => Tuple.types s.comparison.reversed) = some [.const "shape"] := by decide +kernel
  cases hs : ((Sample.kernel .default).solve Sample.goal 1 {}).outcome with
  | error f =>
    rw [hs] at hrun
    cases hrun
  | ok s =>
    rw [hs] at hrun
    have htypes : Tuple.types s.comparison.reversed = [.const "shape"] := Option.some.inj hrun
    have hlookup : Registry.default.lookup? 40 (tupleType (Tuple.types s.comparison.reversed)) =
        some none := by
      rw [htypes]
      rfl
    refine ⟨s, rfl, htypes, hlookup, ?_⟩
    exact (decided_of_solve (Sample.kernel .default) Sample.goal 1 {} s hs
      (by rw [htypes]; decide)).1 40 hlookup

end Kernel

end UniqueEvidence
