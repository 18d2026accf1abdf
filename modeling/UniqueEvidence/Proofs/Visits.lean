/-
The goals that replaying a certificate comes to.

* `Kernel.Visits`: such a goal, with what is left of the certificate there;
* `Kernel.Visits.invariant`: an invariant goes down, from the goal of the certificate to every goal
  that is visited;
* `Kernel.replay_hole_eq_ok`, `Kernel.replay_step_eq_ok`, `Kernel.replayAll_cons_eq_ok`: when a
  replay returns, and what;
* `Kernel.visits_hole_of_replay`: the goals that a replay returns are among those visited, where the
  certificate has holes;
* `Kernel.holds_of_replay`: **what a call brings up from its subgoals comes up through the whole
  replay**, from the goals it returns to the goal of the certificate.
-/
import UniqueEvidence.Proofs.Outcome

namespace UniqueEvidence

namespace Kernel

variable {k : Kernel} {goal reached : Goal} {c rest : Certificate}

/-- Replaying a certificate on a goal comes to another goal, with the rest of the certificate. -/
inductive Visits (k : Kernel) : Goal → Certificate → Goal → Certificate → Prop where
  | here (goal : Goal) (c : Certificate) : Visits k goal c goal c
  | child {goal next reached : Goal} {call : Call} {subgoals : List Goal}
      {children : List Certificate}
      {child rest : Certificate} : k.apply goal call = .ok subgoals →
        (next, child) ∈ subgoals.zip children →
      Visits k next child reached rest → Visits k goal (.step call children) reached rest

/-- An invariant that the calls of a certificate keep holds wherever the replay comes. -/
lemma Visits.invariant {I : Goal → Prop} {A : Goal → Call → Prop}
    (hkept : ∀ {goal call subgoals}, I goal → A goal call → k.apply goal call = .ok subgoals →
      ∀ g ∈ subgoals, I g) (h : k.Visits goal c reached rest) (hI : I goal)
    (hA : ∀ g call children, k.Visits goal c g (.step call children) → A g call) : I reached := by
  induction h with
  | here => exact hI
  | child hcall hmem _ ih =>
    refine ih (hkept hI (hA _ _ _ (.here ..)) hcall _ (List.of_mem_zip hmem).1)
      fun g call' children' hvisits => ?_
    exact hA g call' children' (.child hcall hmem hvisits)

/-- The rules that a replay comes to are those of the certificate. -/
lemma Visits.mem_trace {call : Call} {children : List Certificate}
    (h : k.Visits goal c reached (.step call children)) : some call.rule ∈ c.trace := by
  have hall : ∀ {c : Certificate} {cs : List Certificate}, c ∈ cs →
      c.trace ⊆ Certificate.traceAll cs := by
    intro c cs hc r hr
    induction cs with
    | nil => cases hc
    | cons c' cs ih =>
      rw [Certificate.traceAll, List.mem_append]
      rcases List.mem_cons.1 hc with rfl | hc
      · exact .inl hr
      · exact .inr (ih hc)
  generalize hrest : Certificate.step call children = rest at h
  induction h with
  | here =>
    subst hrest
    simp [Certificate.trace]
  | child _ hmem _ ih =>
    rw [Certificate.trace]
    exact List.mem_cons_of_mem _ (hall (List.of_mem_zip hmem).2 (ih hrest))

/-! ### When a replay returns -/

lemma replay_hole_eq_ok {expected : Goal} {goals : List Goal} :
    (k.replay goal (.hole expected)).outcome = .ok goals ↔ expected = goal ∧ goals = [goal] := by
  rw [replay]
  split_ifs with h <;> simp [h, eq_comm]

lemma replay_step_eq_ok {call : Call} {children : List Certificate} {goals : List Goal} :
    (k.replay goal (.step call children)).outcome = .ok goals ↔
      ∃ subgoals, k.apply goal call = .ok subgoals ∧
      subgoals.length = children.length ∧ (k.replayAll subgoals children).outcome = .ok goals := by
  rw [replay, Logged.outcome_bind_eq_ok, outcome_performCall]
  refine exists_congr fun subgoals => and_congr_right fun _ => ?_
  split_ifs with hlen <;> simp [hlen]

@[simp]
lemma replayAll_nil_eq_ok {goals : List Goal} :
    (k.replayAll [] []).outcome = .ok goals ↔ goals = [] := by
  simp [replayAll, eq_comm]

lemma replayAll_cons_eq_ok {subgoals goals : List Goal} {children : List Certificate} :
    (k.replayAll (goal :: subgoals) (c :: children)).outcome = .ok goals ↔ ∃ first others,
      (k.replay goal c).outcome = .ok first ∧ (k.replayAll subgoals children).outcome = .ok others ∧
        goals = first ++ others := by
  simp only [replayAll, Logged.outcome_bind_eq_ok, Logged.outcome_pure, Except.ok.injEq,
    exists_and_left, eq_comm (a := goals)]

/-! ### From the goals that a replay returns -/

mutual

/-- A replay returns only goals that it comes to, where the certificate leaves them open. -/
theorem visits_hole_of_replay {goal g : Goal} : ∀ {c : Certificate} {goals : List Goal},
    (k.replay goal c).outcome = .ok goals → g ∈ goals → k.Visits goal c g (.hole g)
  | .hole expected, goals, h, hg => by
    obtain ⟨rfl, rfl⟩ := replay_hole_eq_ok.1 h
    obtain rfl := List.mem_singleton.1 hg
    exact .here _ _
  | .step call children, goals, h, hg => by
    obtain ⟨subgoals, hcall, hlen, h⟩ := replay_step_eq_ok.1 h
    obtain ⟨next, child, hmem, hvisits⟩ := visits_hole_of_replayAll hlen h hg
    exact .child hcall hmem hvisits

theorem visits_hole_of_replayAll {subgoals : List Goal} {g : Goal} :
    ∀ {children : List Certificate} {goals : List Goal},
    subgoals.length = children.length →
      (k.replayAll subgoals children).outcome = .ok goals → g ∈ goals →
      ∃ next child, (next, child) ∈ subgoals.zip children ∧ k.Visits next child g (.hole g)
  | [], goals, hlen, h, hg => by
    obtain rfl := List.length_eq_zero_iff.1 hlen
    obtain rfl := replayAll_nil_eq_ok.1 h
    cases hg
  | c :: children, goals, hlen, h, hg => by
    obtain ⟨goal, subgoals, rfl⟩ := List.exists_cons_of_length_eq_add_one hlen
    obtain ⟨first, others, hfirst, hothers, rfl⟩ := replayAll_cons_eq_ok.1 h
    rcases List.mem_append.1 hg with hg | hg
    · exact ⟨goal, c, List.mem_cons_self, visits_hole_of_replay hfirst hg⟩
    · obtain ⟨next, child, hmem, hvisits⟩ :=
        visits_hole_of_replayAll (by simpa using hlen) hothers hg
      exact ⟨next, child, List.mem_cons_of_mem _ hmem, hvisits⟩

end

/-- A replay returns only goals that it comes to. -/
lemma visits_of_replay {g : Goal} {goals : List Goal} (h : (k.replay goal c).outcome = .ok goals)
    (hg : g ∈ goals) : ∃ rest, k.Visits goal c g rest :=
  ⟨_, visits_hole_of_replay h hg⟩

mutual

/-- **What every call brings up from its subgoals comes up through the replay**, from the goals it
returns. -/
theorem holds_of_replay {V : Goal → Prop} {goal : Goal} : ∀ {c : Certificate} {goals : List Goal},
    (∀ g call children gs, k.Visits goal c g (.step call children) → k.apply g call = .ok gs →
      (∀ g' ∈ gs, V g') → V g) →
      (k.replay goal c).outcome = .ok goals → (∀ g ∈ goals, V g) → V goal
  | .hole expected, goals, _, h, hgoals => by
    obtain ⟨rfl, rfl⟩ := replay_hole_eq_ok.1 h
    exact hgoals _ (List.mem_singleton_self _)
  | .step call children, goals, hup, h, hgoals => by
    obtain ⟨subgoals, hcall, hlen, h⟩ := replay_step_eq_ok.1 h
    refine hup goal call children subgoals (.here ..) hcall
      (holds_of_replayAll hlen (fun hmem g => ?_) h hgoals)
    exact fun call' children' gs hvisits => hup g call' children' gs (.child hcall hmem hvisits)

theorem holds_of_replayAll {V : Goal → Prop} {subgoals : List Goal} :
    ∀ {children : List Certificate} {goals : List Goal},
    subgoals.length = children.length →
      (∀ {next child}, (next, child) ∈ subgoals.zip children → ∀ g call cs gs,
      k.Visits next child g (.step call cs) → k.apply g call = .ok gs → (∀ g' ∈ gs, V g') → V g) →
      (k.replayAll subgoals children).outcome = .ok goals → (∀ g ∈ goals, V g) → ∀ g ∈ subgoals, V g
  | [], goals, hlen, _, _, _ => by
    obtain rfl := List.length_eq_zero_iff.1 hlen
    simp
  | c :: children, goals, hlen, hup, h, hgoals => by
    obtain ⟨goal, subgoals, rfl⟩ := List.exists_cons_of_length_eq_add_one hlen
    obtain ⟨first, others, hfirst, hothers, rfl⟩ := replayAll_cons_eq_ok.1 h
    intro g hg
    rcases List.mem_cons.1 hg with rfl | hg
    · exact holds_of_replay (hup List.mem_cons_self) hfirst fun g hg =>
        hgoals g (List.mem_append_left _ hg)
    · exact holds_of_replayAll (by simpa using hlen)
        (fun hmem => hup (List.mem_cons_of_mem _ hmem)) hothers
        (fun g hg => hgoals g (List.mem_append_right _ hg)) g hg

end

end Kernel

end UniqueEvidence
