/-
The search is complete for its five rules.

A proof may exchange the sides of its goal at any point, while the search does so only before it
tries the hypotheses.  Nothing is lost: whatever a proof reaches by exchanging sides is the goal
itself or its mirror image, and every rule that closes the one closes the other, except that a
hypothesis proves one of the two only.

* `Certificate.congruences`: how often congruence is nested;
* `Certificate.IsSearchProof`: no holes, no rules but the five, and congruence nested at most so
  many times;
* `Kernel.Proves`: the same as a judgement on goals, with `Kernel.proves_iff`: it holds of the
  certificates that are search proofs and replay to nothing;
* `Kernel.proves_searchWithin`: **what the search finds is a proof**;
* `Kernel.Mirrors`: two goals that differ by exchanging the sides of the target, in normal form;
* `Kernel.isSome_searchWithin`: **if there is a proof of a mirror image, the search finds one**;
* `Kernel.search_finds_iff`: so the search finds a proof if and only if there is one.
-/
import Mathlib.Data.List.Zip
import UniqueEvidence.Proofs.Normalisation
import UniqueEvidence.Proofs.RenamedRuns
import UniqueEvidence.Proofs.Sample
import UniqueEvidence.Proofs.Visits

namespace UniqueEvidence

/-! ### Symmetric deciders -/

/-- The answers do not depend on the order of the two values. -/
def Decider.IsSymmetric (d : Decider) : Prop :=
  ∀ a b : Term, d.decides a b = true → d.decides b a = true

lemma Decider.IsSymmetric.both {left right : Decider} (hleft : left.IsSymmetric)
    (hright : right.IsSymmetric) : (left.both right).IsSymmetric := by
  intro a b h
  obtain ⟨a₁, a₂, b₁, b₂, rfl, rfl, h₁, h₂⟩ := both_decides.1 h
  exact both_decides.2 ⟨_, _, _, _, rfl, rfl, hleft _ _ h₁, hright _ _ h₂⟩

/-- The registered deciders and those given by type are symmetric. -/
structure Registry.IsSymmetric (r : Registry) : Prop where
  facts : ∀ p ∈ r.facts, p.2.IsSymmetric
  rules : ∀ decider?, .byType decider? ∈ r.rules → ∀ key d, decider? key = some d → d.IsSymmetric

/-- With symmetric facts and rules every decider that is found is symmetric. -/
theorem Registry.IsSymmetric.find? {r : Registry} (hr : r.IsSymmetric) {key : Term} {d : Decider}
    (h : r.find? key = some d) : d.IsSymmetric := by
  exact find?_induction (P := fun _ d => d.IsSymmetric)
    (fun hfact => hr.facts _ (mem_of_fact? hfact))
    (fun hrule hd => hr.rules _ hrule _ _ hd) (fun _ hleft hright => hleft.both hright) h

lemma Registry.isSymmetric_sample : Sample.registry.IsSymmetric where
  facts := by
    intro p hp a b h
    obtain rfl | rfl : p = (.unit, .always "unit") ∨ p = (.const "shape", .structural "shape") := by
      simpa [Sample.registry, Registry.default] using hp
    · exact h
    · exact Term.alphaEq_symm h
  rules := by simp [Sample.registry, Registry.default]

/-! ### Search proofs -/

/-- The rules of the search. -/
def searchRules : List Atom :=
  ["reflexivity", "assumption", "decide", "symmetry", "congruence"]

namespace Certificate

mutual

/-- The largest number of congruence steps on a path. -/
def congruences : Certificate → Nat
  | hole _ => 0
  | step call children => (if call.rule = "congruence" then 1 else 0) + congruencesAll children

/-- The largest number of congruence steps on a path of one of several certificates. -/
def congruencesAll : List Certificate → Nat
  | [] => 0
  | c :: rest => max c.congruences (congruencesAll rest)

end

lemma congruencesAll_le {cs : List Certificate} {n : Nat} :
    congruencesAll cs ≤ n ↔ ∀ c ∈ cs, c.congruences ≤ n := by
  induction cs with
  | nil => simp [congruencesAll]
  | cons c cs ih => rw [congruencesAll, Nat.max_le, ih, List.forall_mem_cons]

lemma mem_traceAll {cs : List Certificate} {rule : Option Atom} :
    rule ∈ traceAll cs ↔ ∃ c ∈ cs, rule ∈ c.trace := by
  induction cs with
  | nil => simp [traceAll]
  | cons c cs ih => simp [traceAll, ih]

lemma holesAll_eq_nil {cs : List Certificate} : holesAll cs = [] ↔ ∀ c ∈ cs, c.holes = [] := by
  induction cs with
  | nil => simp [holesAll]
  | cons c cs ih => simp [holesAll, ih]

/-- A certificate without holes, built from the rules of the search, with congruence nested at most
so many times. -/
structure IsSearchProof (bound : Int) (c : Certificate) : Prop where
  complete : c.holes = []
  rules : ∀ rule, some rule ∈ c.trace → rule ∈ searchRules
  nested : (c.congruences : Int) ≤ bound

lemma isSearchProof_step {n : Nat} {call : Call} {cs : List Certificate} :
    IsSearchProof n (step call cs) ↔ call.rule ∈ searchRules ∧
      ∃ m : Nat, m + (if call.rule = "congruence" then 1 else 0) = n ∧
        ∀ c ∈ cs, IsSearchProof m c := by
  constructor
  · rintro ⟨hholes, hrules, hnested⟩
    rw [holes, holesAll_eq_nil] at hholes
    rw [congruences] at hnested
    refine ⟨hrules _ (by simp [trace]), n - (if call.rule = "congruence" then 1 else 0),
      by omega, fun c hc => ?_⟩
    have hall : congruencesAll cs ≤ n - (if call.rule = "congruence" then 1 else 0) := by omega
    refine ⟨hholes c hc, fun rule hrule => hrules rule ?_, ?_⟩
    · rw [trace]
      exact List.mem_cons_of_mem _ (mem_traceAll.2 ⟨c, hc, hrule⟩)
    · exact Int.ofNat_le.2 (congruencesAll_le.1 hall c hc)
  · rintro ⟨hrule, m, rfl, hcs⟩
    refine ⟨by rw [holes, holesAll_eq_nil]; exact fun c hc => (hcs c hc).complete,
      fun rule h => ?_, ?_⟩
    · rw [trace, List.mem_cons] at h
      rcases h with h | h
      · rwa [Option.some.inj h]
      · obtain ⟨c, hc, h⟩ := mem_traceAll.1 h
        exact (hcs c hc).rules rule h
    · have hall : congruencesAll cs ≤ m :=
        congruencesAll_le.2 fun c hc => Int.ofNat_le.1 (hcs c hc).nested
      rw [congruences]
      omega

end Certificate

namespace Kernel

open Certificate

variable {k : Kernel} {g g' : Goal}

/-- The certificate proves the goal by the rules of the search, with congruence nested at most so
many times. -/
inductive Proves (k : Kernel) : Nat → Goal → Certificate → Prop where
  | close {n : Nat} {g : Goal} {rule : Rule} : rule.IsCloser → k.run g rule = .ok [] →
    Proves k n g (.leaf rule)
  | symmetry {n : Nat} {g g' : Goal} {c : Certificate} : k.run g .symmetry = .ok [g'] →
      Proves k n g' c → Proves k n g (.step Rule.symmetry.call [c])
  | congruence {n : Nat} {g : Goal} {gs : List Goal} {cs : List Certificate} :
      k.run g .congruence = .ok gs →
      gs.length = cs.length → (∀ p ∈ gs.zip cs, Proves k n p.1 p.2) →
        Proves k (n + 1) g (.step Rule.congruence.call cs)

lemma replayAll_eq_nil {gs : List Goal} {cs : List Certificate} (hlen : gs.length = cs.length) :
    (k.replayAll gs cs).outcome = .ok [] ↔
      ∀ p ∈ gs.zip cs, (k.replay p.1 p.2).outcome = .ok [] := by
  induction cs generalizing gs with
  | nil => simp [replayAll]
  | cons c cs ih =>
    cases gs with
    | nil => cases hlen
    | cons g gs =>
      rw [List.zip_cons_cons, List.forall_mem_cons,
        ← ih (by simpa using hlen), replayAll_cons_eq_ok]
      constructor
      · rintro ⟨first, others, hfirst, hothers, h⟩
        obtain ⟨rfl, rfl⟩ := List.append_eq_nil_iff.1 h.symm
        exact ⟨hfirst, hothers⟩
      · rintro ⟨hfirst, hothers⟩
        exact ⟨[], [], hfirst, hothers, rfl⟩

lemma replay_step {call : Call} {cs : List Certificate} :
    (k.replay g (.step call cs)).outcome = .ok [] ↔
    ∃ gs, k.apply g call = .ok gs ∧ gs.length = cs.length ∧
      ∀ p ∈ gs.zip cs, (k.replay p.1 p.2).outcome = .ok [] := by
  rw [replay_step_eq_ok]
  exact exists_congr fun gs => and_congr_right fun _ => and_congr_right replayAll_eq_nil

/-- A call of the search that returns is the form of one of its five rules. -/
lemma rule_of_mem_searchRules {call : Call} {gs : List Goal} (hmem : call.rule ∈ searchRules)
    (h : k.apply g call = .ok gs) : ∃ rule : Rule, call = rule.call ∧ k.run g rule = .ok gs ∧
      (rule.IsCloser ∨ rule = .symmetry ∨ rule = .congruence) := by
  obtain ⟨rule, rfl, hrun⟩ | ⟨x, letters, rfl, -⟩ | ⟨t, n, shown, motive, rfl, -⟩ := apply_eq_ok h
  · refine ⟨rule, rfl, hrun, ?_⟩
    cases rule with
    | reflexivity => exact .inl (.inl rfl)
    | assumption x => exact .inl (.inr (.inl ⟨x, rfl⟩))
    | decide => exact .inl (.inr (.inr rfl))
    | symmetry => exact .inr (.inl rfl)
    | congruence => exact .inr (.inr rfl)
    | _ => simp [searchRules, Rule.call] at hmem
  · simp [searchRules] at hmem
  · simp [searchRules] at hmem

end Kernel

/-- A closing rule leaves no subgoals. -/
lemma Rule.IsCloser.run_eq_nil {k : Kernel} {g : Goal} {rule : Rule} (hrule : rule.IsCloser)
    {gs : List Goal} (h : k.run g rule = .ok gs) : gs = [] := by
  obtain rfl | ⟨x, rfl⟩ | rfl := hrule
  · obtain ⟨-, -, -, hgs⟩ := Kernel.reflexivity_eq_ok h
    exact hgs
  · obtain ⟨-, -, -, hgs⟩ := Kernel.assumption_eq_ok h
    exact hgs
  · obtain ⟨-, -, -, -, -, -, hgs⟩ := Kernel.decide_eq_ok h
    exact hgs

lemma Rule.IsCloser.call_ne_congruence {rule : Rule} (hrule : rule.IsCloser) :
    rule.call.rule ∈ searchRules ∧ rule.call.rule ≠ "congruence" := by
  obtain rfl | ⟨x, rfl⟩ | rfl :=
    hrule <;> exact ⟨by simp [searchRules, Rule.call], by simp [Rule.call]⟩

namespace Kernel

open Certificate

variable {k : Kernel} {g g' : Goal}

/-- What proves a goal is a search proof and replays to nothing. -/
lemma Proves.replays {n : Nat} {c : Certificate} (h : k.Proves n g c) :
    IsSearchProof n c ∧ (k.replay g c).outcome = .ok [] := by
  induction h with
  | close hrule hrun =>
    obtain ⟨hmem, hne⟩ := hrule.call_ne_congruence
    exact ⟨isSearchProof_step.2 ⟨hmem, _, by rw [if_neg hne, Nat.add_zero], by simp⟩,
      replay_step.2 ⟨[], by rw [apply_call, hrun], rfl, by simp⟩⟩
  | symmetry hrun _ ih =>
    refine ⟨isSearchProof_step.2 ⟨by simp [searchRules, Rule.call], _, rfl, ?_⟩,
      replay_step.2 ⟨_, by rw [apply_call, hrun], rfl, ?_⟩⟩
    · simpa using ih.1
    · simpa using ih.2
  | @congruence n g gs cs hrun hlen _ ih =>
    refine ⟨isSearchProof_step.2 ⟨by simp [searchRules, Rule.call], n, rfl, fun c hc => ?_⟩,
      replay_step.2 ⟨gs, by rw [apply_call, hrun], hlen, fun p hp => (ih p hp).2⟩⟩
    -- every certificate stands beside a subgoal
    have hsnd : (gs.zip cs).map Prod.snd = cs := List.map_snd_zip (Nat.le_of_eq hlen.symm)
    rw [← hsnd] at hc
    obtain ⟨p, hp, rfl⟩ := List.mem_map.1 hc
    exact (ih p hp).1

mutual

lemma proves_of_replay {n : Nat} {g : Goal} :
    ∀ c : Certificate, IsSearchProof n c → (k.replay g c).outcome = .ok [] →
    k.Proves n g c
  | .hole expected, h, _ => by
    have hholes := h.complete
    simp [holes] at hholes
  | .step call cs, h, hreplay => by
    obtain ⟨hmem, m, hm, hcs⟩ := isSearchProof_step.1 h
    obtain ⟨gs, hcall, hlen, hall⟩ := replay_step.1 hreplay
    have hproofs := proves_of_replayAll cs hcs hall
    obtain ⟨rule, rfl, hrun, hrule | rfl | rfl⟩ := rule_of_mem_searchRules hmem hcall
    · obtain rfl := hrule.run_eq_nil hrun
      obtain rfl := List.length_eq_zero_iff.1 hlen.symm
      exact .close hrule hrun
    · obtain rfl : m = n := hm
      obtain ⟨e, -, rfl⟩ := symmetry_eq_ok hrun
      obtain ⟨c, rfl⟩ := List.length_eq_one_iff.1 hlen.symm
      exact .symmetry hrun (hproofs _ List.mem_cons_self)
    · obtain rfl : m + 1 = n := hm
      exact .congruence hrun hlen hproofs

lemma proves_of_replayAll {n : Nat} {gs : List Goal} :
    ∀ cs : List Certificate, (∀ c ∈ cs, IsSearchProof n c) →
    (∀ p ∈ gs.zip cs, (k.replay p.1 p.2).outcome = .ok []) → ∀ p ∈ gs.zip cs, k.Proves n p.1 p.2
  | [], _, _ => by simp
  | c :: cs, h, hreplay => by
    cases gs with
    | nil => simp
    | cons g gs =>
      rw [List.zip_cons_cons, List.forall_mem_cons] at hreplay ⊢
      rw [List.forall_mem_cons] at h
      exact ⟨proves_of_replay c h.1 hreplay.1, proves_of_replayAll cs h.2 hreplay.2⟩

end

/-- The proofs of a goal are the search proofs that replay to nothing. -/
lemma proves_iff {n : Nat} {c : Certificate} :
    k.Proves n g c ↔ IsSearchProof n c ∧ (k.replay g c).outcome = .ok [] :=
  ⟨Proves.replays, fun h => proves_of_replay c h.1 h.2⟩

/-! ### What the search finds -/

lemma proves_closeDirectly {n : Nat} {c : Certificate}
    (h : (k.closeDirectly g).outcome = .ok (some c)) : k.Proves n g c := by
  rw [closeDirectly] at h
  obtain ⟨found, hfound, h⟩ := Logged.outcome_bind_eq_ok.1 h
  cases found with
  | some rule =>
    obtain rfl : Certificate.leaf rule = c := by simpa using h
    obtain ⟨hmem, hrun⟩ := run_of_firstClosing hfound
    exact .close (.of_mem hmem) hrun
  | none =>
    rw [closeFlipped] at h
    obtain ⟨result, hr, h⟩ := Logged.outcome_bind_eq_ok.1 h
    split at h
    · rename_i flipped
      obtain ⟨found, hfound, h⟩ := Logged.outcome_bind_eq_ok.1 h
      obtain ⟨rule, rfl, rfl⟩ : ∃ rule, found = some rule ∧
          Certificate.step Rule.symmetry.call [.leaf rule] = c := by simpa using h
      obtain ⟨hmem, hrun⟩ := run_of_firstClosing hfound
      obtain ⟨b, -, rfl⟩ := List.mem_map.1 hmem
      have hflip : k.run g .symmetry = .ok [flipped] := by simpa using Logged.outcome_of_attempt hr
      exact .symmetry hflip (.close (.inr (.inl ⟨b.name, rfl⟩)) hrun)
    · simp at h

lemma proves_closeAll {n depth : Nat} {close : Goal → Logged (Option Certificate)}
    (hclose : ∀ {g c}, (close g).outcome = .ok (some c) → k.Proves n g c) {gs : List Goal}
    {cs : List Certificate} (h : (closeAll close depth gs).outcome = .ok (some cs)) :
    gs.length = cs.length ∧ ∀ p ∈ gs.zip cs, k.Proves n p.1 p.2 := by
  induction gs generalizing cs with
  | nil =>
    obtain rfl : [] = cs := by simpa [closeAll] using h
    simp
  | cons g rest ih =>
    rw [closeAll] at h
    obtain ⟨found, hfound, h⟩ := Logged.outcome_bind_eq_ok.1 h
    cases found with
    | none => simp at h
    | some c =>
      obtain ⟨others, hothers, h⟩ := Logged.outcome_bind_eq_ok.1 h
      obtain ⟨cs', rfl, rfl⟩ : ∃ cs', others = some cs' ∧ c :: cs' = cs := by simpa using h
      obtain ⟨hlen, hall⟩ := ih hothers
      exact ⟨by simpa using hlen, List.forall_mem_cons.2 ⟨hclose hfound, hall⟩⟩

/-- **What the search finds is a proof.** -/
theorem proves_searchWithin (n : Nat) {g : Goal} {c : Certificate}
    (h : (k.searchWithin n g).outcome = .ok (some c)) : k.Proves n g c := by
  induction n generalizing g c with
  | zero => exact proves_closeDirectly h
  | succ n ih =>
    rw [searchWithin] at h
    obtain ⟨found, hfound, h⟩ := Logged.outcome_bind_eq_ok.1 h
    cases found with
    | some c' =>
      obtain rfl : c' = c := by simpa using h
      exact proves_closeDirectly hfound
    | none =>
      rw [closeByCongruence] at h
      obtain ⟨result, hr, h⟩ := Logged.outcome_bind_eq_ok.1 h
      cases result with
      | error _ => simp at h
      | ok gs =>
        obtain ⟨children, hchildren, h⟩ := Logged.outcome_bind_eq_ok.1 h
        obtain ⟨cs, rfl, rfl⟩ : ∃ cs, children = some cs ∧
          .step Rule.congruence.call cs = c := by simpa using h
        obtain ⟨hlen, hall⟩ := proves_closeAll ih hchildren
        exact .congruence (by simpa using Logged.outcome_of_attempt hr) hlen hall

/-! ### Mirror images -/

lemma targetEquation_iff {e : Equation} :
    k.targetEquation g = .ok e ↔ k.normalize g.target = .ok e.toTerm := by
  refine ⟨targetEquation_eq_ok, fun h => ?_⟩
  rw [targetEquation, h]
  rfl

/-- Read from right to left, an equation in normal form is in normal form. -/
lemma normalize_swap {t : Term} {e : Equation} (h : k.normalize t = .ok e.toTerm) :
    k.normalize e.swap.toTerm = .ok e.swap.toTerm := by
  obtain ⟨n, hn, hty, hlhs, hrhs⟩ := Term.normalize_parts (withinDepth_eq_ok.1 h)
  exact withinDepth_eq_ok.2 (Term.normalize_eq_iff.2 ⟨n, _, _, _, hn, hty, hrhs, hlhs, rfl⟩)

lemma convertible_comm {a b : Term} (h : k.convertible a b = .ok true) :
    k.convertible b a = .ok true := by
  have h := withinDepth_eq_ok.1 h
  simp only [Term.convertible, Option.bind_eq_bind, Option.bind_eq_some_iff, Option.pure_def,
    Option.some.injEq] at h
  obtain ⟨a', ha, b', hb, hab⟩ := h
  simp [convertible, Term.convertible, ha, hb, Term.alphaEq_symm hab, withinDepth]

lemma run_assumption {x : Name} {ty : Term} (hty : g.lookup? x = some ty)
    (hconv : k.convertible ty g.target = .ok true) : k.run g (.assumption x) = .ok [] := by
  simp [run, assumption, hty, hconv, pure, Except.pure]

/-- The hypotheses are the same, and the targets have the same normal form, or are equations with
exchanged sides. -/
structure Mirrors (k : Kernel) (g g' : Goal) : Prop where
  hyps : g'.hyps = g.hyps
  target : ∀ {u u'}, k.normalize g.target = .ok u → k.normalize g'.target = .ok u' →
    u' = u ∨ ∃ e : Equation, u = e.toTerm ∧ u' = e.swap.toTerm

namespace Mirrors

lemma rfl : k.Mirrors g g where
  hyps := Eq.refl _
  target hu hu' := .inl (Except.ok.inj (hu'.symm.trans hu))

variable (h : k.Mirrors g g')
include h

lemma equation {u : Term} (hu : k.normalize g.target = .ok u) {e : Equation}
    (he : k.targetEquation g' = .ok e) :
    k.targetEquation g = .ok e ∨ k.targetEquation g = .ok e.swap := by
  obtain rfl | ⟨e', rfl, he'⟩ := h.target hu (targetEquation_eq_ok he)
  · exact .inl (targetEquation_iff.2 hu)
  · obtain rfl : e = e'.swap := by
      obtain ⟨_, _, _⟩ := e
      simpa [Equation.toTerm, Equation.swap] using he'
    exact .inr (targetEquation_iff.2 hu)

/-- Exchanging the sides of a mirror image gives a mirror image. -/
lemma symmetry {g'' : Goal} (hrun : k.run g' .symmetry = .ok [g'']) : k.Mirrors g g'' := by
  obtain ⟨e, he, hg⟩ := symmetry_eq_ok hrun
  obtain rfl := List.singleton_inj.1 hg
  have hself := normalize_swap (targetEquation_eq_ok he)
  refine ⟨h.hyps, fun hu hu' => ?_⟩
  obtain rfl := Except.ok.inj (hu'.symm.trans hself)
  rcases h.equation hu he with he | he
  · exact .inr ⟨e, Except.ok.inj (hu.symm.trans (targetEquation_eq_ok he)), Eq.refl _⟩
  · exact .inl (Except.ok.inj ((targetEquation_eq_ok he).symm.trans hu))

lemma lookup? (x : Name) : g'.lookup? x = g.lookup? x := by
  rw [Goal.lookup?, Goal.lookup?, h.hyps]

/-- A rule that closes a mirror image closes the goal, or it is a hypothesis that closes the goal
with its sides exchanged. -/
lemma closes (hk : k.registry.IsSymmetric) {u : Term} (hu : k.normalize g.target = .ok u)
    {rule : Rule} (hrule : rule.IsCloser) (hrun : k.run g' rule = .ok []) :
    rule ∈ g.closers ∧ k.run g rule = .ok [] ∨
      ∃ g'', k.run g .symmetry = .ok [g''] ∧ rule ∈ (g''.hyps.map fun b => Rule.assumption b.name) ∧
        k.run g'' rule = .ok [] := by
  obtain rfl | ⟨x, rfl⟩ | rfl := hrule
  · obtain ⟨e, he, hconv, -⟩ := reflexivity_eq_ok hrun
    refine .inl ⟨by simp [Goal.closers], ?_⟩
    rcases h.equation hu he with he | he
    · simp [run, reflexivity, he, hconv, pure, Except.pure]
    · simp [run, reflexivity, he, Equation.swap, convertible_comm hconv, pure, Except.pure]
  · obtain ⟨ty, hty, hconv, -⟩ := assumption_eq_ok hrun
    have hmem : .assumption x ∈ g.hyps.map fun b => Rule.assumption b.name := by
      rw [h.lookup?] at hty
      exact List.mem_map.2 ⟨_, Context.mem_of_lookup? hty, Eq.refl _⟩
    have hsame : ∀ {t v}, k.normalize t = .ok v → k.normalize g'.target = .ok v →
        k.convertible ty t = .ok true := by
      intro t v ht hv
      have ht := withinDepth_eq_ok.1 ht
      have hv := withinDepth_eq_ok.1 hv
      rw [← hconv, convertible, convertible, Term.convertible, Term.convertible, ht, hv]
    obtain ⟨u', hu'⟩ : ∃ u', k.normalize g'.target = .ok u' := by
      have hconv := withinDepth_eq_ok.1 hconv
      simp only [Term.convertible, Option.bind_eq_bind, Option.bind_eq_some_iff] at hconv
      obtain ⟨-, -, u', hu', -⟩ := hconv
      exact ⟨u', withinDepth_eq_ok.2 hu'⟩
    obtain rfl | ⟨e, rfl, rfl⟩ := h.target hu hu'
    · refine .inl ⟨?_, ?_⟩
      · rw [Goal.closers]
        exact List.mem_append_left _ (List.mem_cons_of_mem _ hmem)
      · exact run_assumption (h.lookup? x ▸ hty) (hsame hu hu')
    · refine .inr ⟨g.withTarget e.swap.toTerm, ?_, hmem, ?_⟩
      · simp [run, Kernel.symmetry, targetEquation_iff.2 hu, pure, Except.pure]
      · have hty' : (g.withTarget e.swap.toTerm).lookup? x = some ty := h.lookup? x ▸ hty
        exact run_assumption hty' (hsame (normalize_swap hu) hu')
  · obtain ⟨e, d, he, ⟨hl, hr⟩, hd, hdecides, -⟩ := decide_eq_ok hrun
    refine .inl ⟨by simp [Goal.closers], ?_⟩
    have hsymm : d.IsSymmetric := by
      obtain ⟨ty, -, hfind⟩ := Option.map_eq_some_iff.1 (withinDepth_eq_ok.1 hd)
      exact hk.find? hfind
    rcases h.equation hu he with he | he
    · simp [run, Kernel.decide, he, hl, hr, hd, hdecides, pure, Except.pure]
    · simp [run, Kernel.decide, he, Equation.swap, hl, hr, hd,
        hsymm _ _ hdecides, pure, Except.pure]

end Mirrors

/-- What the equations between arguments are, and when they are given. -/
lemma argumentEquations_iff {c : Name} {bound determined : List Name}
    {triples : List (Binding × Term × Term)} {parts : List Term} :
    k.argumentEquations c bound determined triples = .ok parts ↔
      parts = triples.map (fun t => Term.eq t.1.ty t.2.1 t.2.2) ∧ ∀ t ∈ triples,
        (∀ x ∈ t.1.ty.freeVars, x ∉ bound) ∧
          (t.1.name ∈ determined → k.convertible t.2.1 t.2.2 = .ok true) := by
  induction triples generalizing parts with
  | nil => simp [argumentEquations, pure, Except.pure, eq_comm]
  | cons t rest ih =>
    obtain ⟨b, l, r⟩ := t
    rw [argumentEquations, List.map_cons, List.forall_mem_cons]
    by_cases hdep : b.ty.freeVars.any (· ∈ bound) = true
    · rw [if_pos hdep]
      obtain ⟨x, hx, hbound⟩ := List.any_eq_true.1 hdep
      constructor
      · intro h
        cases h
      · intro h
        exact absurd (of_decide_eq_true hbound) (h.2.1.1 x hx)
    · rw [if_neg hdep]
      have hfree : ∀ x ∈ b.ty.freeVars, x ∉ bound := by simpa using hdep
      have hrest : (do
            let parts ← k.argumentEquations c bound determined rest
            pure (Term.eq b.ty l r :: parts)) = .ok parts ↔
          parts = Term.eq b.ty l r :: rest.map (fun t => Term.eq t.1.ty t.2.1 t.2.2) ∧ ∀ t ∈ rest,
            (∀ x ∈ t.1.ty.freeVars, x ∉ bound) ∧
              (t.1.name ∈ determined → k.convertible t.2.1 t.2.2 = .ok true) := by
        rw [Except.bind_eq_ok]
        constructor
        · rintro ⟨others, hothers, h⟩
          obtain ⟨rfl, hall⟩ := ih.1 hothers
          exact ⟨(Except.ok.inj h).symm, hall⟩
        · rintro ⟨rfl, hall⟩
          exact ⟨_, ih.2 ⟨Eq.refl _, hall⟩, Eq.refl _⟩
      by_cases hdetermined : b.name ∈ determined
      · simp only [hdetermined, if_true, true_implies]
        constructor
        · intro h
          obtain ⟨agree, hagree, h⟩ := Except.bind_eq_ok.1 h
          cases agree with
          | false => cases h
          | true =>
            obtain ⟨hparts, hall⟩ := hrest.1 h
            exact ⟨hparts, ⟨hfree, hagree⟩, hall⟩
        · rintro ⟨hparts, ⟨-, hagree⟩, hall⟩
          rw [hagree]
          exact hrest.2 ⟨hparts, hall⟩
      · simp only [hdetermined, if_false, false_implies, and_true]
        constructor
        · intro h
          obtain ⟨hparts, hall⟩ := hrest.1 h
          exact ⟨hparts, hfree, hall⟩
        · rintro ⟨hparts, -, hall⟩
          exact hrest.2 ⟨hparts, hall⟩

/-- What congruence checks of an equation, and the subgoals it leaves. -/
lemma congruence_iff {e : Equation} (he : k.targetEquation g = .ok e) {gs : List Goal} :
    k.congruence g = .ok gs ↔
    ∃ c, k.env.constructorHead? e.lhs = some c ∧ k.env.constructorHead? e.rhs = some c ∧
      e.lhs.args.length = (ctorBinders k.env c).length ∧
        e.rhs.args.length = (ctorBinders k.env c).length ∧
      ∃ parts, k.argumentEquations c (Binding.names (ctorBinders k.env c)) (indexVars k.env c)
        ((ctorBinders k.env c).zip (e.lhs.args.zip e.rhs.args)) = .ok parts ∧
          gs = parts.map g.withTarget := by
  rw [congruence, he, Except.ok_bind]
  constructor
  · intro h
    split at h
    · cases h
    · rename_i c hl
      split at h
      · rename_i hr
        dsimp only at h
        split at h
        · rename_i hlen
          obtain ⟨parts, hparts, h⟩ := Except.bind_eq_ok.1 h
          exact ⟨c, hl, hr, hlen.1, hlen.2, parts, hparts, (Except.ok.inj h).symm⟩
        · cases h
      · cases h
  · rintro ⟨c, hl, hr, hllen, hrlen, parts, hparts, rfl⟩
    simp [hl, hr, hllen, hrlen, hparts, pure, Except.pure]

lemma mirrors_swap {ty l r : Term} (hhyps : g'.hyps = g.hyps) :
    k.Mirrors (g.withTarget (.eq ty l r)) (g'.withTarget (.eq ty r l)) := by
  refine ⟨hhyps, fun {u u'} hu hu' => .inr ?_⟩
  obtain ⟨n, ty₁, l₁, r₁, hn, hty, hl, hr, rfl⟩ := Term.normalize_eq_iff.1 (withinDepth_eq_ok.1 hu)
  obtain ⟨n', ty₂, r₂, l₂, hn', hty', hr', hl', rfl⟩ :=
    Term.normalize_eq_iff.1 (withinDepth_eq_ok.1 hu')
  obtain rfl : n = n' := Nat.succ.inj (hn.symm.trans hn')
  cases hty.symm.trans hty'
  cases hl.symm.trans hl'
  cases hr.symm.trans hr'
  exact ⟨⟨ty₁, l₁, r₁⟩, Eq.refl _, Eq.refl _⟩

/-- Where congruence applies to a mirror image, it applies to the goal, and the subgoals are mirror
images. -/
lemma Mirrors.congruence (h : k.Mirrors g g') {u : Term} (hu : k.normalize g.target = .ok u)
    {gs' : List Goal} (hrun : k.run g' .congruence = .ok gs') :
    ∃ gs, k.run g .congruence = .ok gs ∧ List.Forall₂ k.Mirrors gs gs' := by
  obtain ⟨e, -, he, -⟩ := congruence_eq_ok hrun
  obtain ⟨c, hl, hr, hllen, hrlen, parts, hparts, rfl⟩ := (congruence_iff he).1 hrun
  rcases h.equation hu he with he | he
  · refine ⟨_, (congruence_iff he).2 ⟨c, hl, hr, hllen, hrlen, parts, hparts, Eq.refl _⟩, ?_⟩
    rw [List.forall₂_map_left_iff, List.forall₂_map_right_iff]
    exact List.forall₂_same.2 fun t _ =>
      ⟨h.hyps, fun hu hu' => .inl (Except.ok.inj (hu'.symm.trans hu))⟩
  · obtain ⟨rfl, hall⟩ := argumentEquations_iff.1 hparts
    -- the arguments are paired the other way round
    have hzip : (ctorBinders k.env c).zip (e.rhs.args.zip e.lhs.args) =
        ((ctorBinders k.env c).zip (e.lhs.args.zip e.rhs.args)).map fun t => (t.1, t.2.swap) := by
      rw [← List.zip_swap e.lhs.args, List.zip_map_right]
      rfl
    have hswap : ∀ t ∈ (ctorBinders k.env c).zip (e.rhs.args.zip e.lhs.args),
        (∀ x ∈ t.1.ty.freeVars, x ∉ Binding.names (ctorBinders k.env c)) ∧
          (t.1.name ∈ indexVars k.env c → k.convertible t.2.1 t.2.2 = .ok true) := by
      rw [hzip, List.forall_mem_map]
      exact fun t ht => ⟨(hall t ht).1, fun hdet => convertible_comm ((hall t ht).2 hdet)⟩
    have hparts' := (argumentEquations_iff (c := c)).2 ⟨Eq.refl _, hswap⟩
    refine ⟨_, (congruence_iff he).2 ⟨c, hr, hl, hrlen, hllen, _, hparts', Eq.refl _⟩, ?_⟩
    rw [hzip, List.map_map, List.map_map, List.map_map, List.forall₂_map_left_iff,
      List.forall₂_map_right_iff]
    exact List.forall₂_same.2 fun t _ => mirrors_swap h.hyps

/-! ### Completeness -/

/-- Among rules of which one closes the goal, the search finds one. -/
lemma isSome_firstClosing {rules : List Rule} {rule : Rule} (hmem : rule ∈ rules)
    (hrun : k.run g rule = .ok []) {found : Option Rule}
    (h : (k.firstClosing g rules).outcome = .ok found) : found.isSome := by
  induction rules with
  | nil => cases hmem
  | cons r rest ih =>
    rw [firstClosing] at h
    obtain ⟨result, hr, h⟩ := Logged.outcome_bind_eq_ok.1 h
    split at h
    · obtain rfl := Except.ok.inj h
      rfl
    · rename_i hne
      rcases List.mem_cons.1 hmem with rfl | hmem
      · rw [Logged.attempt, outcome_perform, hrun] at hr
        exact absurd (Except.ok.inj hr).symm hne
      · exact ih hmem h

/-- Where the search without congruence ends, the target has been normalised. -/
lemma exists_normalize_of_closeDirectly {found : Option Certificate}
    (h : (k.closeDirectly g).outcome = .ok found) : ∃ u, k.normalize g.target = .ok u := by
  rw [closeDirectly, Goal.closers, List.cons_append, firstClosing] at h
  obtain ⟨_, h, -⟩ := Logged.outcome_bind_eq_ok.1 h
  obtain ⟨_, h, -⟩ := Logged.outcome_bind_eq_ok.1 h
  cases hu : k.normalize g.target with
  | ok u => exact ⟨u, rfl⟩
  | error f =>
    obtain rfl := withinDepth_eq_error hu
    have hrun : k.run g .reflexivity = .error .exhausted := by
      simp [run, reflexivity, targetEquation, hu]
    rw [Logged.attempt, outcome_perform, hrun] at h
    cases h

/-- Where a closing rule proves a mirror image, the search succeeds without congruence. -/
lemma isSome_closeDirectly (hk : k.registry.IsSymmetric) (hg : k.Mirrors g g') {rule : Rule}
    (hrule : rule.IsCloser) (hrun : k.run g' rule = .ok []) {found : Option Certificate}
    (h : (k.closeDirectly g).outcome = .ok found) : found.isSome := by
  obtain ⟨u, hu⟩ := exists_normalize_of_closeDirectly h
  rw [closeDirectly] at h
  obtain ⟨direct, hdirect, h⟩ := Logged.outcome_bind_eq_ok.1 h
  cases direct with
  | some rule' =>
    obtain rfl := Except.ok.inj h
    rfl
  | none =>
    obtain ⟨hmem, hrun⟩ | ⟨g'', hflip, hmem, hrun⟩ := hg.closes hk hu hrule hrun
    · have := isSome_firstClosing hmem hrun hdirect
      cases this
    · rw [closeFlipped] at h
      obtain ⟨result, hresult, h⟩ := Logged.outcome_bind_eq_ok.1 h
      rw [Logged.attempt, outcome_perform, hflip] at hresult
      obtain rfl := Except.ok.inj hresult
      obtain ⟨flipped, hflipped, h⟩ := Logged.outcome_bind_eq_ok.1 h
      obtain rfl := Except.ok.inj h
      rw [Option.isSome_map]
      exact isSome_firstClosing hmem hrun hflipped

/-- The search begins without congruence, and keeps what it finds so. -/
lemma closeDirectly_of_searchWithin {n : Nat} {found : Option Certificate}
    (h : (k.searchWithin n g).outcome = .ok found) :
    ∃ direct, (k.closeDirectly g).outcome = .ok direct ∧ (direct.isSome → found.isSome) := by
  cases n with
  | zero => exact ⟨found, h, id⟩
  | succ n =>
    rw [searchWithin] at h
    obtain ⟨direct, hdirect, h⟩ := Logged.outcome_bind_eq_ok.1 h
    refine ⟨direct, hdirect, fun hsome => ?_⟩
    obtain ⟨c, rfl⟩ := Option.isSome_iff_exists.1 hsome
    obtain rfl := Except.ok.inj h
    rfl

lemma isSome_closeAll {close : Goal → Logged (Option Certificate)} {depth : Nat} {gs : List Goal}
    (hclose : ∀ g ∈ gs, ∀ {found}, (close g).outcome = .ok found → found.isSome)
    {found : Option (List Certificate)} (h : (closeAll close depth gs).outcome = .ok found) :
    found.isSome := by
  induction gs generalizing found with
  | nil =>
    obtain rfl := Except.ok.inj h
    rfl
  | cons g rest ih =>
    rw [closeAll] at h
    obtain ⟨first, hfirst, h⟩ := Logged.outcome_bind_eq_ok.1 h
    obtain ⟨c, rfl⟩ := Option.isSome_iff_exists.1 (hclose g List.mem_cons_self hfirst)
    obtain ⟨others, hothers, h⟩ := Logged.outcome_bind_eq_ok.1 h
    obtain rfl := Except.ok.inj h
    rw [Option.isSome_map]
    exact ih (fun g hg => hclose g (List.mem_cons_of_mem _ hg)) hothers

/-- **If there is a proof of a mirror image, the search finds one.**  The induction is on the proof:
a step of symmetry leads to another mirror image, so only closing rules and congruence are left for
the search to do. -/
theorem isSome_searchWithin (hk : k.registry.IsSymmetric) {n : Nat} {c : Certificate}
    (hproof : k.Proves n g' c) (hg : k.Mirrors g g') {found : Option Certificate}
    (h : (k.searchWithin n g).outcome = .ok found) : found.isSome := by
  induction hproof generalizing g found with
  | close hrule hrun =>
    obtain ⟨direct, hdirect, hkeep⟩ := closeDirectly_of_searchWithin h
    exact hkeep (isSome_closeDirectly hk hg hrule hrun hdirect)
  | symmetry hrun _ ih => exact ih (hg.symmetry hrun) h
  | @congruence n g' gs' cs hrun hlen _ ih =>
    rw [searchWithin] at h
    obtain ⟨direct, hdirect, h⟩ := Logged.outcome_bind_eq_ok.1 h
    cases direct with
    | some c =>
      obtain rfl := Except.ok.inj h
      rfl
    | none =>
      obtain ⟨u, hu⟩ := exists_normalize_of_closeDirectly hdirect
      obtain ⟨gs, hgs, hmirrors⟩ := hg.congruence hu hrun
      rw [closeByCongruence] at h
      obtain ⟨result, hresult, h⟩ := Logged.outcome_bind_eq_ok.1 h
      rw [Logged.attempt, outcome_perform, hgs] at hresult
      obtain rfl := Except.ok.inj hresult
      obtain ⟨children, hchildren, h⟩ := Logged.outcome_bind_eq_ok.1 h
      obtain rfl := Except.ok.inj h
      rw [Option.isSome_map]
      refine isSome_closeAll (fun g hmem found hfound => ?_) hchildren
      -- the certificate of the subgoal's mirror image is the one in its place
      obtain ⟨i, hi, rfl⟩ := List.getElem_of_mem hmem
      have hi' : i < gs'.length := hmirrors.length_eq ▸ hi
      have hmirror : k.Mirrors gs[i] gs'[i] := hmirrors.get hi hi'
      have hzip : (gs'[i], cs[i]) ∈ gs'.zip cs := by
        rw [← List.getElem_zip (h := by simp; omega)]
        exact List.getElem_mem _
      exact ih _ hzip hmirror hfound

/-- **The search finds a proof if and only if there is one.**  With symmetric deciders, unless it
runs out of depth, the search finds a certificate exactly if the bound is not negative and the goal
has a complete certificate from the five rules of the search that nests congruence within the bound
and replays to nothing; and what it finds is such a certificate. -/
theorem search_finds_iff (k : Kernel) (hk : k.registry.IsSymmetric) (goal : Goal) (bound : Int) :
    UpToDepth (k.search goal bound).outcome fun found =>
      (found.isSome ↔ 0 ≤ bound ∧ ∃ c, IsSearchProof bound c ∧ (k.replay goal c).outcome = .ok []) ∧
        ∀ c, found = some c → IsSearchProof bound c ∧ (k.replay goal c).outcome = .ok [] := by
  have hsound : ∀ {c}, (k.search goal bound).outcome = .ok (some c) → 0 ≤ bound ∧
      IsSearchProof bound c ∧ (k.replay goal c).outcome = .ok [] := by
    intro c h
    rw [search] at h
    split at h
    · simp at h
    · rename_i hbound
      have hproof := (proves_searchWithin _ h).replays
      rw [Int.toNat_of_nonneg (by omega)] at hproof
      exact ⟨by omega, hproof⟩
  refine (upToDepth_search bound).imp fun found hfound _ => ⟨⟨fun hsome => ?_, ?_⟩, ?_⟩
  · obtain ⟨c, rfl⟩ := Option.isSome_iff_exists.1 hsome
    exact ⟨(hsound hfound).1, c, (hsound hfound).2⟩
  · rintro ⟨hbound, c, hc, hreplay⟩
    rw [search, if_neg (by omega)] at hfound
    rw [← Int.toNat_of_nonneg hbound] at hc
    exact isSome_searchWithin hk (proves_iff.2 ⟨hc, hreplay⟩) .rfl hfound
  · rintro c rfl
    exact (hsound hfound).2

/-- From `x = y` the search proves `spair y sunit = spair x sunit` with one congruence, and so there
is no proof without. -/
theorem search_finds_iff_sample : Sample.registry.IsSymmetric ∧ ∃ t : Term,
    (∃ c, IsSearchProof 1 c ∧
      ((Sample.kernel Sample.registry).replay (Sample.equated.withTarget t) c).outcome = .ok []) ∧
      ¬ ∃ c, IsSearchProof 0 c ∧
        ((Sample.kernel Sample.registry).replay (Sample.equated.withTarget t) c).outcome =
        .ok [] := by
  have hsymm := Registry.isSymmetric_sample
  let t : Term := .eq (.const "shape") (.apps (.const "spair") [.var "y", .const "sunit"])
    (.apps (.const "spair") [.var "x", .const "sunit"])
  have hsearch : ∀ bound found,
      ((Sample.kernel Sample.registry).search (Sample.equated.withTarget t) bound).outcome =
      .ok found → (found.isSome ↔ 0 ≤ bound ∧ ∃ c, IsSearchProof bound c ∧
        ((Sample.kernel Sample.registry).replay (Sample.equated.withTarget t) c).outcome =
          .ok []) := fun bound found h =>
    ((search_finds_iff (Sample.kernel Sample.registry) hsymm
      (Sample.equated.withTarget t) bound).of_eq_ok h).1
  have hone :
      (((Sample.kernel Sample.registry).search (Sample.equated.withTarget t) 1).outcome.toOption.map
      Option.isSome) = some true := by decide +kernel
  have hzero :
      (((Sample.kernel Sample.registry).search (Sample.equated.withTarget t) 0).outcome.toOption.map
      Option.isSome) = some false := by decide +kernel
  obtain ⟨found, hfound, hsome⟩ := Option.map_eq_some_iff.1 hone
  obtain ⟨found', hfound', hnone⟩ := Option.map_eq_some_iff.1 hzero
  refine ⟨hsymm, t, ((hsearch 1 found (Except.toOption_eq_some.1 hfound)).1 hsome).2,
    fun hproof => ?_⟩
  have hsome' := (hsearch 0 found' (Except.toOption_eq_some.1 hfound')).2 ⟨Int.le_refl 0, hproof⟩
  rw [hnone] at hsome'
  cases hsome'

end Kernel

end UniqueEvidence
