/-
What a replay returns, whatever the certificate and wherever it comes from.

* `Kernel.holes_of_replay`: **a replay returns exactly the holes** of the certificate, in their
  order;
* `Kernel.Leads.replay_chain`, `Kernel.leads_of_replay_chain`: a chain replays as its tail does on
  the goal to which its calls lead;
* `Kernel.replay_exact`: so **the open goals that a certificate declares are those that it leaves**,
  each derived from the original goal by the calls above it.
-/
import UniqueEvidence.Proofs.Replay
import UniqueEvidence.Proofs.Visits

namespace UniqueEvidence

namespace Certificate

@[simp]
lemma size_chain (calls : List Call) (tail : Certificate) :
    (chain calls tail).size = calls.length + tail.size := by
  induction calls with
  | nil => exact (Nat.zero_add _).symm
  | cons call calls ih =>
    calc (chain (call :: calls) tail).size
        = 1 + ((chain calls tail).size + 0) := by
          rw [chain, List.foldr_cons, size, sizeAll, sizeAll, chain]
      _ = (call :: calls).length + tail.size := by rw [ih, List.length_cons]; omega

end Certificate

namespace Kernel

variable {k : Kernel} {goal reached : Goal} {calls : List Call} {tail : Certificate}
  {gs : List Goal}

/-! ### The holes -/

mutual

/-- **A replay returns exactly the holes.**  They are only compared with the goals that the calls
leave, so a certificate cannot declare others. -/
theorem holes_of_replay {goal : Goal} : ∀ {c : Certificate} {gs : List Goal},
    (k.replay goal c).outcome = .ok gs → gs = c.holes
  | .hole expected, gs, h => by
    obtain ⟨rfl, rfl⟩ := replay_hole_eq_ok.1 h
    rw [Certificate.holes]
  | .step call children, gs, h => by
    obtain ⟨subgoals, -, hlen, h⟩ := replay_step_eq_ok.1 h
    rw [Certificate.holes]
    exact holesAll_of_replayAll hlen h

theorem holesAll_of_replayAll {subgoals : List Goal} :
    ∀ {children : List Certificate} {gs : List Goal},
    subgoals.length = children.length → (k.replayAll subgoals children).outcome = .ok gs →
      gs = Certificate.holesAll children
  | [], gs, hlen, h => by
    obtain rfl := List.length_eq_zero_iff.1 hlen
    rw [Certificate.holesAll, replayAll_nil_eq_ok.1 h]
  | c :: children, gs, hlen, h => by
    obtain ⟨goal, subgoals, rfl⟩ := List.exists_cons_of_length_eq_add_one hlen
    obtain ⟨first, others, hfirst, hothers, rfl⟩ := replayAll_cons_eq_ok.1 h
    rw [Certificate.holesAll, holes_of_replay hfirst,
      holesAll_of_replayAll (by simpa using hlen) hothers]

end

/-! ### Chains -/

/-- A call with one child replays if it leaves one subgoal, on which the child replays. -/
lemma replay_single_eq_ok {call : Call} {c : Certificate} :
    (k.replay goal (.step call [c])).outcome = .ok gs ↔
    ∃ next, k.apply goal call = .ok [next] ∧ (k.replay next c).outcome = .ok gs := by
  have hone : ∀ next, (k.replayAll [next] [c]).outcome = .ok gs ↔
      (k.replay next c).outcome = .ok gs := by
    intro next
    simp [replayAll_cons_eq_ok]
  rw [replay_step_eq_ok]
  constructor
  · rintro ⟨subgoals, hcall, hlen, h⟩
    obtain ⟨next, rfl⟩ := List.length_eq_one_iff.1 hlen
    exact ⟨next, hcall, (hone next).1 h⟩
  · rintro ⟨next, hcall, h⟩
    exact ⟨[next], hcall, rfl, (hone next).2 h⟩

lemma Leads.replay_chain {A : Goal → Call → Prop} (h : k.Leads A goal calls reached)
    (htail : (k.replay reached tail).outcome = .ok gs) :
    (k.replay goal (.chain calls tail)).outcome = .ok gs := by
  induction h with
  | refl goal => exact htail
  | head _ hcall _ ih => exact replay_single_eq_ok.2 ⟨_, hcall, ih htail⟩

lemma leads_of_replay_chain (h : (k.replay goal (.chain calls tail)).outcome = .ok gs) :
    ∃ reached, k.Leads (fun _ _ => True) goal calls reached ∧
      (k.replay reached tail).outcome = .ok gs := by
  induction calls generalizing goal with
  | nil => exact ⟨goal, .refl goal, h⟩
  | cons call calls ih =>
    obtain ⟨next, hcall, h⟩ := replay_single_eq_ok.1 h
    obtain ⟨reached, hleads, htail⟩ := ih h
    exact ⟨reached, .head trivial hcall hleads, htail⟩

lemma worded_replay_eq_ok {c : Certificate} :
    (k.replay goal c).worded = .ok gs ↔ (k.replay goal c).outcome = .ok gs :=
  ⟨Logged.outcome_of_worded, worded_replay⟩

/-- **A replay returns exactly the open goals that the certificate declares.**  Whatever the kernel,
the goal and the certificate: if the replay returns, it returns the holes in their order, and each
of them is the goal that the calls above the hole leave there, starting from the original goal.  A
chain of calls around a tail replays exactly if each call in turn leaves one subgoal and the tail
replays on the last of them; it then leaves the same goals, and it has as many steps as there are
calls and steps of the tail. -/
theorem replay_exact (k : Kernel) (goal : Goal) :
    (∀ c gs, (k.replay goal c).worded = .ok gs → gs = c.holes ∧
      ∀ g ∈ gs, k.Visits goal c g (.hole g)) ∧
    ∀ calls tail,
      (∀ gs, (k.replay goal (.chain calls tail)).worded = .ok gs ↔
        ∃ reached, k.Leads (fun _ _ => True) goal calls reached ∧
          (k.replay reached tail).worded = .ok gs) ∧
      (Certificate.chain calls tail).size = calls.length + tail.size := by
  refine ⟨fun c gs h => ?_, fun calls tail => ⟨fun gs => ?_, Certificate.size_chain calls tail⟩⟩
  · rw [worded_replay_eq_ok] at h
    exact ⟨holes_of_replay h, fun g hg => visits_hole_of_replay h hg⟩
  · simp only [worded_replay_eq_ok]
    exact ⟨leads_of_replay_chain, fun ⟨_, hleads, htail⟩ => hleads.replay_chain htail⟩

end Kernel

namespace Sample

/-- An equation about two trees. -/
def equation (lhs rhs : Term) : Goal where
  hyps := [⟨"x", .const "shape"⟩, ⟨"y", .const "shape"⟩]
  target := .eq (.const "shape") lhs rhs

/-- The equation `spair x y = spair y x`. -/
def crossed : Goal :=
  equation (Term.apps (.const "spair") [.var "x", .var "y"])
    (Term.apps (.const "spair") [.var "y", .var "x"])

/-- The sides change places, and the components are left to be equated. -/
def crossedProof : Certificate :=
  .chain [Rule.symmetry.call] (.step Rule.congruence.call
    [.hole (equation (.var "y") (.var "x")), .hole (equation (.var "x") (.var "y"))])

end Sample

/-- A certificate that leaves two goals open: they are its holes, the calls lead to them, and they
are what the tail leaves on the equation with its sides exchanged. -/
theorem Kernel.replay_exact_sample :
    ((Sample.kernel .default).replay Sample.crossed Sample.crossedProof).worded =
      .ok Sample.crossedProof.holes ∧
    Sample.crossedProof.holes.length = 2 ∧ Sample.crossedProof.size = 2 ∧
    (∀ g ∈ Sample.crossedProof.holes, (Sample.kernel .default).Visits Sample.crossed
      Sample.crossedProof g (.hole g)) ∧
    ∃ reached, (Sample.kernel .default).Leads (fun _ _ => True) Sample.crossed
      [Rule.symmetry.call] reached := by
  have hreplay : ((Sample.kernel .default).replay Sample.crossed Sample.crossedProof).worded =
      .ok Sample.crossedProof.holes :=
    Except.toOption_eq_some.1 (by decide +kernel)
  obtain ⟨hholes, hchain⟩ := replay_exact (Sample.kernel .default) Sample.crossed
  obtain ⟨hreplays, hsize⟩ := hchain [Rule.symmetry.call] (.step Rule.congruence.call
    [.hole (Sample.equation (.var "y") (.var "x")), .hole (Sample.equation (.var "x") (.var "y"))])
  obtain ⟨reached, hleads, -⟩ := (hreplays _).1 hreplay
  exact ⟨hreplay, rfl, hsize, (hholes _ _ hreplay).2, reached, hleads⟩

end UniqueEvidence
