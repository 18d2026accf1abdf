/-
Goals stay scoped through whole runs.

* `Call.IsOver`: the terms of a call mention only given names;
* `Motive.IsOver`, `Motive.curried_over`, `Motive.target_over`: what the engine builds mentions only
  hypotheses;
* `Kernel.opens_scoped`: so the calls with which a run opens have terms over the hypotheses;
* `Kernel.scoped_of_run`: **goals stay scoped** under every call, all through the replay of a
  certificate, and up to the goals that a run of the engine leaves open.
-/
import UniqueEvidence.Proofs.Course
import UniqueEvidence.Proofs.Sample
import UniqueEvidence.Proofs.Scoping
import UniqueEvidence.Proofs.Visits

namespace UniqueEvidence

/-! ### What the engine builds -/

/-- The terms of the call mention only the given names. -/
def Call.IsOver (call : Call) (names : List Name) : Prop :=
  ∀ t, .term t ∈ call.args → t.freeVars ⊆ names

namespace Motive

/-- The parts of the motive mention only the given names. -/
structure IsOver (m : Motive) (names : List Name) : Prop where
  head : m.head.freeVars ⊆ names
  types : ∀ s ∈ m.reversed, s.ty.freeVars ⊆ names
  values : ∀ s ∈ m.reversed, s.value.freeVars ⊆ names
  lhs : m.lhs.freeVars ⊆ names

variable {k : Kernel} {m : Motive} {names : List Name}

lemma IsOver.mono {names' : List Name} (h : m.IsOver names) (hsub : names ⊆ names') :
    m.IsOver names' :=
  ⟨fun _ hx => hsub (h.head hx), fun s hs _ hx => hsub (h.types s hs hx),
    fun s hs _ hx => hsub (h.values s hs hx), fun _ hx => hsub (h.lhs hx)⟩

lemma IsOver.tupleTy (h : m.IsOver names) : m.tupleTy.freeVars ⊆ names := by
  intro x hx
  obtain ⟨ty, hty, hx⟩ := mem_freeVars_tupleType.1 hx
  obtain ⟨s, hs, rfl⟩ := List.mem_map.1 hty
  exact h.types s hs hx

lemma toTerm_over {t : Tuple} (h : ∀ s ∈ t, s.value.freeVars ⊆ names) :
    (Tuple.toTerm t).freeVars ⊆ names := by
  intro x hx
  obtain ⟨s, hs, hx⟩ := mem_freeVars_toTerm.1 hx
  exact h s hs hx

lemma applyTuple_over {f : Term} {t : Tuple} (hf : f.freeVars ⊆ names)
    (h : ∀ s ∈ t, s.value.freeVars ⊆ names) : (f.applyTuple t).freeVars ⊆ names := by
  intro x hx
  rcases mem_freeVars_apps.1 hx with hx | ⟨v, hv, hx⟩
  · exact hf hx
  · obtain ⟨s, hs, rfl⟩ := List.mem_map.1 hv
    exact h s hs hx

lemma IsOver.transport (h : m.IsOver names) {ainds : Tuple} {proof : Term}
    (hainds : ∀ s ∈ ainds, s.value.freeVars ⊆ names) (hproof : proof.freeVars ⊆ names) :
    (m.transport ainds proof).freeVars ⊆ names := by
  simp only [Motive.transport, Term.freeVars, List.append_subset]
  exact ⟨⟨⟨⟨h.head, toTerm_over h.values⟩, toTerm_over hainds⟩, hproof⟩, h.lhs⟩

/-- The motive at indices and evidence over the names is over the names: the proof that it takes is
bound. -/
lemma IsOver.statement (h : m.IsOver names) {ainds : Tuple} {evidence T : Term}
    (hainds : ∀ s ∈ ainds, s.value.freeVars ⊆ names) (hevidence : evidence.freeVars ⊆ names)
    (hT : m.statement k.depth ainds evidence = .ok T) : T.freeVars ⊆ names := by
  rw [Motive.statement, Except.bind_eq_ok] at hT
  obtain ⟨family, hfamily, hT⟩ := hT
  obtain rfl := Except.ok.inj hT
  set pf := fresh "pf" (m.avoid ++ evidence.freeVars ++ (Tuple.toTerm ainds).freeVars)
  have hbelow : names ⊆ pf :: names := List.subset_cons_self ..
  have hfamily' : family.freeVars ⊆ names := fun x hx =>
    applyTuple_over h.head (by simpa using hainds)
      (Kernel.mem_freeVars_of_normalize (k := k) hfamily hx)
  have htransport : (m.transport ainds (.var pf)).freeVars ⊆ pf :: names :=
    (h.mono hbelow).transport (fun s hs _ hx => hbelow (hainds s hs hx)) (by simp [Term.freeVars])
  simp only [Term.freeVars, List.append_subset]
  refine ⟨⟨⟨h.tupleTy, toTerm_over h.values⟩, toTerm_over hainds⟩, fun x hx => ?_⟩
  obtain ⟨hx, hne⟩ := List.mem_filter.1 hx
  simp only [List.mem_append] at hx
  rcases hx with (hx | hx) | hx
  · exact hfamily' hx
  · exact (List.mem_cons.1 (htransport hx)).resolve_left (by simpa using hne)
  · exact hevidence hx

lemma IsOver.target (h : m.IsOver names) {indices : Tuple} {evidence T : Term}
    (hindices : ∀ s ∈ indices, s.value.freeVars ⊆ names) (hevidence : evidence.freeVars ⊆ names)
    (hT : m.target k.depth indices evidence = .ok T) : T.freeVars ⊆ names := by
  rw [Motive.target, Except.bind_eq_ok] at hT
  obtain ⟨U, hU, hT⟩ := hT
  exact fun x hx =>
    h.statement (by simpa using hindices) hevidence hU
      (Kernel.mem_freeVars_of_normalize (k := k) hT hx)

/-- The motive as a function binds its indices and the evidence. -/
lemma IsOver.curried (h : m.IsOver names) {T : Term} (hT : m.curried k.depth = .ok T) :
    T.freeVars ⊆ names := by
  rw [Motive.curried, Except.bind_eq_ok] at hT
  obtain ⟨body, hbody, hT⟩ := hT
  obtain rfl := Except.ok.inj hT
  set e := fresh "e" m.avoid
  set bs := freshBindings (Tuple.types m.reversed).reverse (e :: m.avoid) "i"
  have hindices : ∀ s ∈ Tuple.ofBindings bs, s.value.freeVars ⊆ Binding.names bs ++ names := by
    intro s hs x hx
    obtain ⟨b, hb, rfl⟩ := List.mem_map.1 hs
    obtain rfl := List.mem_singleton.1 hx
    exact List.mem_append_left _ (List.mem_map_of_mem hb)
  have hm : m.IsOver (Binding.names bs ++ names) := h.mono (List.subset_append_right ..)
  have hbelow : Binding.names bs ++ names ⊆ e :: (Binding.names bs ++ names) :=
    List.subset_cons_self ..
  have hfunction : (Term.lam e (m.head.applyTuple (Tuple.ofBindings bs)) body).freeVars ⊆
      Binding.names bs ++ names := by
    simp only [Term.freeVars, List.append_subset]
    refine ⟨applyTuple_over hm.head hindices, fun x hx => ?_⟩
    obtain ⟨hx, hne⟩ := List.mem_filter.1 hx
    have hx' := (hm.mono hbelow).statement
      (fun s hs _ hx => hbelow (hindices s (by simpa using hs) hx))
      (by simp [Term.freeVars]) hbody hx
    exact (List.mem_cons.1 hx').resolve_left (by simpa using hne)
  intro x hx
  rcases mem_freeVars_lams hx with ⟨b, hb, hx⟩ | ⟨hx, hbound⟩
  · obtain ⟨s, hs, hty⟩ := List.mem_map.1 (List.mem_reverse.1 (mem_of_zipWith hb).2)
    exact h.types s hs (hty ▸ hx)
  · exact (List.mem_append.1 (hfunction hx)).resolve_left hbound

end Motive

/-! ### Whole runs -/

namespace Kernel

variable {k : Kernel} {goal : Goal}

/-- Calls with terms over the hypotheses keep goals scoped. -/
lemma maintains_scoped (henv : k.env.Scoped) :
    k.Maintains Goal.Scoped fun g call => call.IsOver g.names where
  kept h hover hcall _ hg := scoped_of_apply h henv hover hcall hg
  termless _ _ h t ht := absurd ht (h.not_mem t)
  normal h ht u hu := by
    obtain rfl : u = _ := by simpa [Rule.call] using hu
    exact h.normalize ht

/-- What the engine compares, and the motive for it, is over the hypotheses. -/
lemma comparison_over (hclosed : k.env.Closed) (h : goal.SelfContained) {icount : Int}
    {c : Comparison} (hc : (k.comparison goal icount).outcome = .ok c) (avoid : List Name) :
    c.rhs.freeVars ⊆ goal.names ∧ (c.motive avoid).IsOver goal.names := by
  obtain ⟨-, ⟨e, he, hsides⟩, hty, hslots⟩ := comparison_eq_ok hc
  have hequation := h.normalize he
  simp only [Equation.toTerm, Term.freeVars, List.append_subset] at hequation
  have hlhs : c.lhs.freeVars ⊆ goal.names ∧ c.rhs.freeVars ⊆ goal.names := by
    rcases hsides with ⟨hl, hr⟩ | ⟨hl, hr⟩
    · exact ⟨hl ▸ hequation.1.2, hr ▸ hequation.2⟩
    · exact ⟨hl ▸ hequation.2, hr ▸ hequation.1.2⟩
  have htype : c.evidenceType.freeVars ⊆ goal.names := h.infer hclosed hlhs.2 hty
  have hvalues : ∀ s ∈ c.reversed, s.value.freeVars ⊆ goal.names := fun s hs x hx =>
    htype (mem_freeVars_apps.2 (.inr ⟨s.value, List.mem_map_of_mem (List.mem_reverse.2 hs), hx⟩))
  exact ⟨hlhs.2, fun x hx => htype (mem_freeVars_apps.2 (.inl hx)),
    fun s hs => h.infer hclosed (hvalues s hs) (hslots s hs), hvalues, hlhs.1⟩

/-- A run opens with calls whose terms are over the hypotheses. -/
lemma opens_scoped (henv : k.env.Scoped) (h : goal.Scoped) {icount : Int} {c : Comparison}
    {curried : Term} (hc : (k.comparison goal icount).outcome = .ok c)
    (hcurried : (c.motive goal.names).curried k.depth = .ok curried) :
    k.Opens Goal.Scoped (fun g call => call.IsOver g.names) goal c
      (c.motive goal.names) curried := by
  obtain ⟨hrhs, hm⟩ := comparison_over henv.closed h.selfContained hc goal.names
  have hindices : ∀ s ∈ c.indices, s.value.freeVars ⊆ goal.names :=
    fun s hs => hm.values s (List.mem_reverse.1 hs)
  have hwitness : (c.motive goal.names).reflWitness.freeVars ⊆ goal.names := by
    simp only [Motive.reflWitness, Term.freeVars, List.append_subset]
    exact ⟨hm.tupleTy, Motive.toTerm_over hm.values⟩
  have hnames : ∀ {g : Goal}, g.hyps = goal.hyps → g.names = goal.names :=
    fun hg => by rw [Goal.names, hg, Goal.names]
  refine ⟨fun g _ hg t ht => ?_, fun g _ hg target htarget t ht => ?_, fun g _ hg t ht => ?_⟩ <;>
    rw [hnames hg]
  · obtain rfl : t = _ := by simpa [Rule.call] using ht
    simp only [Term.freeVars, List.append_subset]
    exact ⟨⟨Motive.applyTuple_over hm.head hindices, hm.transport hm.values hwitness⟩, hrhs⟩
  · have hcases : t = target ∨
      t = (c.motive goal.names).reflWitness := by simpa [Rule.call] using ht
    rcases hcases with rfl | rfl
    · exact hm.target hindices hrhs htarget
    · exact hwitness
  · have hcases : t = c.rhs ∨ t = curried := by simpa [Rule.call] using ht
    rcases hcases with rfl | rfl
    · exact hrhs
    · exact hm.curried hcurried

/-- **Goals stay scoped.**  Over scoped declarations, and from a scoped goal: every call whose terms
mention only hypotheses leaves scoped goals; replaying a certificate whose calls are such comes to
scoped goals only, and returns scoped goals; and a run of the engine leaves only scoped goals
open. -/
theorem scoped_of_run (k : Kernel) (henv : k.env.Scoped) (goal : Goal) (h : goal.Scoped) :
    (∀ call, call.IsOver goal.names → ∀ subgoals, k.apply goal call = .ok subgoals →
      ∀ g ∈ subgoals, g.Scoped) ∧
    (∀ c, (∀ g call children, k.Visits goal c g (.step call children) → call.IsOver g.names) →
      (∀ g rest, k.Visits goal c g rest → g.Scoped) ∧
      ∀ goals, (k.replay goal c).outcome = .ok goals → ∀ g ∈ goals, g.Scoped) ∧
    ∀ icount bounds s, (k.solve goal icount bounds).outcome = .ok s →
      ∀ g ∈ s.openGoals, g.Scoped := by
  have hk := maintains_scoped henv
  refine ⟨fun call hover subgoals hcall => hk.kept h hover hcall, fun c hover => ?_,
    fun icount bounds s hs => ?_⟩
  · have hvisits : ∀ g rest, k.Visits goal c g rest → g.Scoped :=
      fun g rest hg => hg.invariant hk.kept h hover
    refine ⟨hvisits, fun goals hreplay g hg => ?_⟩
    obtain ⟨rest, hrest⟩ := visits_of_replay hreplay hg
    exact hvisits g rest hrest
  · exact (fits_solve hk h (fun c curried hc hcurried => opens_scoped henv h hc hcurried)
      hs).holes hk h

/-- Without a decider for trees a run on the sample goal leaves one goal open: the binders of the
node were introduced and eliminated again, and the proof of the index equation is still there. -/
theorem scoped_of_run_sample : Sample.env.Scoped ∧ Sample.goal.Scoped ∧
    ∃ s, ((Sample.kernel .default).solve Sample.goal 1 {}).outcome = .ok s ∧
      s.openGoals.map Goal.names = [["x", "y", "h", "pf"].map Name.text] ∧
        ∀ g ∈ s.openGoals, g.Scoped := by
  have henv : (Sample.kernel .default).env.Scoped :=
    ⟨by decide, by decide, by decide, by decide, by decide⟩
  have hgoal : Sample.goal.Scoped := ⟨⟨by decide, by decide⟩, by decide⟩
  have hrun :
      (((Sample.kernel .default).solve Sample.goal 1 {}).outcome.toOption.map
      (·.openGoals.map Goal.names)) =
      some [["x", "y", "h", "pf"].map Name.text] := by decide +kernel
  refine ⟨henv, hgoal, ?_⟩
  cases hs : ((Sample.kernel .default).solve Sample.goal 1 {}).outcome with
  | error f =>
    rw [hs] at hrun
    cases hrun
  | ok s =>
    rw [hs] at hrun
    exact ⟨s, rfl, Option.some.inj hrun, (scoped_of_run _ henv _ hgoal).2.2 _ _ s hs⟩

end Kernel

end UniqueEvidence
