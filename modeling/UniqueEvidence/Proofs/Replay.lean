/-
What the engine records can be replayed.

* `Kernel.Covers`: replaying the certificate leaves exactly its holes;
* `Kernel.covers_of_fits`: so does a certificate that fits its goal;
* `Kernel.replay_solve`: **the certificate of a run replays to the goals that the run left open**.
-/
import UniqueEvidence.Proofs.Course
import UniqueEvidence.Proofs.Sample

namespace UniqueEvidence

namespace Kernel

variable {k : Kernel} {goal : Goal}

/-! ### Certificates that replay to their holes -/

/-- Replaying the certificate leaves exactly its holes. -/
def Covers (k : Kernel) (goal : Goal) (c : Certificate) : Prop :=
  (k.replay goal c).outcome = .ok c.holes

mutual

/-- A certificate that fits its goal covers it. -/
theorem covers_of_fits {A : Goal → Call → Prop} {goal : Goal} :
    ∀ {c : Certificate}, k.Fits A goal c → k.Covers goal c
  | .hole expected, h => by
    rw [Fits] at h
    simp [Covers, replay, Certificate.holes, h]
  | .step call children, h => by
    rw [Fits] at h
    obtain ⟨-, subgoals, hcall, hchildren⟩ := h
    have hlen : subgoals.length = children.length := (fitsAll_iff.1 hchildren).length_eq
    have hall := replayAll_of_fitsAll hchildren
    simp [Covers, replay, Certificate.holes, hcall, hlen, hall]

theorem replayAll_of_fitsAll {A : Goal → Call → Prop} {goals : List Goal} :
    ∀ {cs : List Certificate}, k.FitsAll A goals cs →
      (k.replayAll goals cs).outcome = .ok (Certificate.holesAll cs)
  | [], _ => by simp [replayAll, Certificate.holesAll]
  | c :: rest, h => by
    rw [FitsAll] at h
    obtain ⟨goal, others, rfl, hc, hrest⟩ := h
    have hfirst := covers_of_fits hc
    have hothers := replayAll_of_fitsAll hrest
    rw [Covers] at hfirst
    simp [replayAll, Certificate.holesAll, hfirst, hothers]

end

/-- A run that ends well leaves a certificate that covers its goal. -/
lemma covers_solve {icount : Int} {bounds : Bounds} {s : Solution}
    (h : (k.solve goal icount bounds).outcome = .ok s) : k.Covers goal s.proof := by
  have hk : k.Maintains (fun _ => True) fun _ _ => True :=
    ⟨fun _ _ _ _ _ => trivial, fun _ _ _ => trivial, fun _ _ => trivial⟩
  exact covers_of_fits (fits_solve hk trivial
    (fun _ _ _ _ => ⟨fun _ _ _ => trivial, fun _ _ _ _ _ => trivial, fun _ _ _ => trivial⟩) h)

/-! ### Replaying reports nothing that cannot be worded -/

lemma log_bind {α β : Type} {x : Logged α} {f : α → Logged β} {p : Event → Prop}
    (hx : ∀ e ∈ x.log, p e) (hf : ∀ a, ∀ e ∈ (f a).log, p e) : ∀ e ∈ (x >>= f).log, p e := by
  intro e he
  change e ∈ (Logged.bind x f).log at he
  unfold Logged.bind at he
  split at he
  · rename_i a _
    rcases List.mem_append.1 he with he | he
    · exact hx e he
    · exact hf a e he
  · exact hx e he

lemma log_performCall (k : Kernel) (goal : Goal) (call : Call) :
    ∀ e ∈ (k.performCall goal call).log, e.isReadable := by
  refine log_bind (by simp [liftM, monadLift, MonadLift.monadLift, Logged.lift]) fun subgoals =>
    log_bind ?_ fun _ => by simp [pure]
  intro e he
  obtain rfl : e = .ruleApplied call.rule subgoals.length := by simpa [Logged.note] using he
  rfl

mutual

lemma log_replay (k : Kernel) (goal : Goal) :
    ∀ c : Certificate, ∀ e ∈ (k.replay goal c).log, e.isReadable
  | .hole expected => by
    rw [replay]
    split <;> simp [Logged.fail, pure]
  | .step call children => by
    rw [replay]
    refine log_bind (log_performCall k goal call) fun subgoals => ?_
    split
    · exact log_replayAll k subgoals children
    · simp [Logged.fail]

lemma log_replayAll (k : Kernel) (goals : List Goal) :
    ∀ cs : List Certificate, ∀ e ∈ (k.replayAll goals cs).log, e.isReadable
  | [] => by simp [replayAll, pure]
  | c :: rest => by
    cases goals with
    | nil => simp [replayAll, pure]
    | cons goal goals =>
      rw [replayAll]
      exact log_bind (log_replay k goal c) fun _ =>
        log_bind (log_replayAll k goals rest) fun _ => by simp [pure]

end

/-- A replay that ends well ends well in words. -/
lemma worded_replay {c : Certificate} {goals : List Goal}
    (h : (k.replay goal c).outcome = .ok goals) : (k.replay goal c).worded = .ok goals := by
  have hlog : (k.replay goal c).log.all Event.isReadable = true :=
    List.all_eq_true.2 (log_replay k goal c)
  rw [Logged.worded, if_pos hlog, h]
  rfl

/-- **Certificates of the engine replay.**  Whatever the kernel, the goal, the number of indices and
the bounds: if a run ends well, replaying its certificate on the original goal leaves exactly the
goals that the run left open, and so leaves none if and only if the run closed the goal. -/
theorem replay_solve (k : Kernel) (goal : Goal) (icount : Int) (bounds : Bounds) (s : Solution)
    (h : (k.solve goal icount bounds).outcome = .ok s) :
    (k.replay goal s.proof).worded = .ok s.openGoals ∧
      ((k.replay goal s.proof).worded = .ok [] ↔ s.isClosed = true) := by
  have hreplay : (k.replay goal s.proof).worded = .ok s.openGoals := worded_replay (covers_solve h)
  refine ⟨hreplay, ?_⟩
  rw [hreplay, Solution.isClosed, List.isEmpty_iff, Except.ok.injEq]

/-- Without a decider for trees the run on the sample goal closes the branch of the leaf by a
contradiction and leaves the branch of the node open; its certificate replays to that one goal. -/
theorem replay_solve_sample :
    ∃ s, ((Sample.kernel .default).solve Sample.goal 1 {}).outcome = .ok s ∧
    s.openGoals.length = 1 ∧
      ((Sample.kernel .default).replay Sample.goal s.proof).worded = .ok s.openGoals ∧
    (((Sample.kernel .default).replay Sample.goal s.proof).worded = .ok [] ↔
      s.isClosed = true) := by
  have hrun :
      (((Sample.kernel .default).solve Sample.goal 1 {}).outcome.toOption.map
      (·.openGoals.length)) = some 1 := by decide +kernel
  cases hs : ((Sample.kernel .default).solve Sample.goal 1 {}).outcome with
  | error f =>
    rw [hs] at hrun
    cases hrun
  | ok s =>
    rw [hs] at hrun
    exact ⟨s, rfl, Option.some.inj hrun, replay_solve _ _ _ _ s hs⟩

end Kernel

end UniqueEvidence
