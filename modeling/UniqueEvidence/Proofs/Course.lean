/-
What the engine records: certificates that fit their goals, made of calls that are allowed at the
goals where they stand.

Which calls are allowed is left open here; with every call allowed this is what makes certificates
replay, and with a condition on the terms of a call it carries an invariant of goals through whole
runs.

* `Kernel.Fits`: the calls of the certificate are allowed, each leaves a subgoal for each of its
  children, and the holes are the goals found there;
* `Kernel.Maintains`: an invariant of goals that allowed calls keep, where the calls without terms
  and the normalisation of a target are allowed;
* `Kernel.Fits.holes`: then **the holes of a certificate that fits satisfy the invariant**;
* `Kernel.Leads`: allowed calls that lead from one goal to another, each leaving one subgoal;
* `Attempt.Keeps`: work that only moves along trails whose calls lead to the goal reached, with what
  it knows of that goal when it ends.  A failure keeps the trail too, which is why an open branch
  still has a certificate;
* `Kernel.fits_searchWithin`, `Attempt.keeps_discharge`, `Kernel.fits_branch`: certificates of the
  search, of closed branches and of all branches;
* `Kernel.workOn_eq_ok`, `Kernel.solve_eq_ok`: what work on branches and a whole run have done if
  they return;
* `Kernel.fits_solve`: **the certificate of a run fits its goal**, if the three calls with which the
  run opens are allowed.
-/
import Mathlib.Data.List.Forall2
import UniqueEvidence.Proofs.Preconditions
import UniqueEvidence.Uniqueness.Solution

namespace UniqueEvidence

/-- The rule takes no terms. -/
def Rule.IsTermless : Rule → Prop
  | change _ | generalize _ _ | case _ _ _ => False
  | _ => True

lemma Argument.ofName_ne_term (x : Name) (t : Term) : Argument.ofName x ≠ .term t := by
  cases x <;> simp [Argument.ofName]

/-- The call of a rule that takes no terms has none. -/
lemma Rule.IsTermless.not_mem {rule : Rule} (h : rule.IsTermless) (t : Term) :
    .term t ∉ rule.call.args := by
  cases rule <;>
    simp_all [Rule.IsTermless, Rule.call, Argument.ofNames, (Argument.ofName_ne_term _ t).symm]

namespace Kernel

variable {k : Kernel} {I : Goal → Prop} {A : Goal → Call → Prop} {goal reached : Goal}

/-! ### Certificates that fit their goals -/

mutual

/-- The calls of the certificate are allowed where they stand, each leaves a subgoal for each of its
children, and each hole is the goal found there. -/
def Fits (k : Kernel) (A : Goal → Call → Prop) (goal : Goal) : Certificate → Prop
  | .hole expected => expected = goal
  | .step call children => A goal call ∧ ∃ subgoals, k.apply goal call = .ok subgoals ∧
    k.FitsAll A subgoals children

/-- Certificates that fit goals one by one. -/
def FitsAll (k : Kernel) (A : Goal → Call → Prop) (goals : List Goal) : List Certificate → Prop
  | [] => goals = []
  | c :: rest => ∃ goal others, goals = goal :: others ∧ k.Fits A goal c ∧ k.FitsAll A others rest

end

lemma fitsAll_iff {goals : List Goal} {cs : List Certificate} :
    k.FitsAll A goals cs ↔ List.Forall₂ (k.Fits A) goals cs := by
  induction cs generalizing goals with
  | nil => simp [FitsAll]
  | cons c rest ih =>
    simp only [FitsAll, ih, List.forall₂_cons_right_iff]
    constructor
    · rintro ⟨goal, others, rfl, hc, hrest⟩
      exact ⟨goal, others, hc, hrest, rfl⟩
    · rintro ⟨goal, others, hc, hrest, rfl⟩
      exact ⟨goal, others, rfl, hc, hrest⟩

lemma fits_hole (k : Kernel) (A : Goal → Call → Prop) (goal : Goal) :
    k.Fits A goal (.hole goal) := by
  rw [Fits]

lemma fits_step {call : Call} {subgoals : List Goal} {children : List Certificate}
    (hA : A goal call) (hcall : k.apply goal call = .ok subgoals)
    (hchildren : List.Forall₂ (k.Fits A) subgoals children) :
    k.Fits A goal (.step call children) := by
  rw [Fits]
  exact ⟨hA, subgoals, hcall, fitsAll_iff.2 hchildren⟩

lemma fits_leaf {rule : Rule} (hA : A goal rule.call) (h : k.run goal rule = .ok []) :
    k.Fits A goal (.leaf rule) :=
  fits_step hA (by rw [apply_call, h]) .nil

/-- An invariant that allowed calls keep.  Calls without terms are allowed, and so is the
normalisation of a target. -/
structure Maintains (k : Kernel) (I : Goal → Prop) (A : Goal → Call → Prop) : Prop where
  kept : ∀ {goal call subgoals}, I goal → A goal call → k.apply goal call = .ok subgoals →
    ∀ g ∈ subgoals, I g
  termless : ∀ (goal : Goal) (rule : Rule), rule.IsTermless → A goal rule.call
  normal : ∀ {goal t}, I goal → k.normalize goal.target = .ok t → A goal (Rule.change t).call

mutual

/-- **The holes of a certificate that fits satisfy the invariant.** -/
theorem Fits.holes (hk : k.Maintains I A) {goal : Goal} (hI : I goal) :
    ∀ {c : Certificate}, k.Fits A goal c → ∀ g ∈ c.holes, I g
  | .hole expected, h => by
    rw [Fits] at h
    subst h
    simpa [Certificate.holes] using hI
  | .step call children, h => by
    rw [Fits] at h
    obtain ⟨hA, subgoals, hcall, hchildren⟩ := h
    rw [Certificate.holes]
    exact FitsAll.holesAll hk (hk.kept hI hA hcall) hchildren

theorem FitsAll.holesAll (hk : k.Maintains I A) {goals : List Goal} (hI : ∀ g ∈ goals, I g) :
    ∀ {cs : List Certificate}, k.FitsAll A goals cs → ∀ g ∈ Certificate.holesAll cs, I g
  | [], _ => by simp [Certificate.holesAll]
  | c :: rest, h => by
    rw [FitsAll] at h
    obtain ⟨goal, others, rfl, hc, hrest⟩ := h
    intro g hg
    rw [Certificate.holesAll, List.mem_append] at hg
    rcases hg with hg | hg
    · exact Fits.holes hk (hI goal List.mem_cons_self) hc g hg
    · exact FitsAll.holesAll hk (fun g hg => hI g (List.mem_cons_of_mem _ hg)) hrest g hg

end

/-- Allowed calls lead from the first goal to the last, each leaving one subgoal. -/
inductive Leads (k : Kernel) (A : Goal → Call → Prop) : Goal → List Call → Goal → Prop where
  | refl (goal : Goal) : Leads k A goal [] goal
  | head {goal next reached : Goal} {call : Call} {calls : List Call} :
      A goal call → k.apply goal call = .ok [next] → Leads k A next calls reached →
        Leads k A goal (call :: calls) reached

lemma Leads.snoc {next : Goal} {call : Call} {calls : List Call} (h : k.Leads A goal calls reached)
    (hA : A reached call) (hcall : k.apply reached call = .ok [next]) :
    k.Leads A goal (calls ++ [call]) next := by
  induction h with
  | refl goal => exact .head hA hcall (.refl next)
  | head hfirst hstep _ ih => exact .head hfirst hstep (ih hA hcall)

/-- Calls that lead to a goal can be put before a certificate that fits it. -/
lemma Leads.fits_chain {calls : List Call} {tail : Certificate} (h : k.Leads A goal calls reached)
    (htail : k.Fits A reached tail) : k.Fits A goal (.chain calls tail) := by
  induction h with
  | refl goal => exact htail
  | head hA hcall _ ih => exact fits_step hA hcall (.cons (ih htail) .nil)

/-! ### The search -/

/-- A rule that was found by trying is one of those tried, and closes the goal. -/
lemma run_of_firstClosing {rules : List Rule} {rule : Rule}
    (h : (k.firstClosing goal rules).outcome = .ok (some rule)) :
    rule ∈ rules ∧ k.run goal rule = .ok [] := by
  induction rules with
  | nil => simp [firstClosing] at h
  | cons r rest ih =>
    rw [firstClosing] at h
    obtain ⟨result, hr, h⟩ := Logged.outcome_bind_eq_ok.1 h
    split at h
    · obtain rfl : r = rule := by simpa using h
      exact ⟨List.mem_cons_self, by simpa using Logged.outcome_of_attempt hr⟩
    · exact ⟨List.mem_cons_of_mem _ (ih h).1, (ih h).2⟩

/-- Goals closed one by one by a method whose certificates fit them. -/
lemma fits_closeAll {close : Goal → Logged (Option Certificate)} {depth : Nat}
    (hclose : ∀ {g c}, I g → (close g).outcome = .ok (some c) → k.Fits A g c) {goals : List Goal}
    (hgoals : ∀ g ∈ goals, I g) {cs : List Certificate}
    (h : (closeAll close depth goals).outcome = .ok (some cs)) :
    List.Forall₂ (k.Fits A) goals cs := by
  induction goals generalizing cs with
  | nil =>
    obtain rfl : [] = cs := by simpa [closeAll] using h
    exact .nil
  | cons g rest ih =>
    rw [closeAll] at h
    obtain ⟨found, hfound, h⟩ := Logged.outcome_bind_eq_ok.1 h
    cases found with
    | none => simp at h
    | some c =>
      obtain ⟨others, hothers, h⟩ := Logged.outcome_bind_eq_ok.1 h
      obtain ⟨cs', rfl, rfl⟩ : ∃ cs', others = some cs' ∧ c :: cs' = cs := by simpa using h
      exact .cons (hclose (hgoals g List.mem_cons_self) hfound)
        (ih (fun g hg => hgoals g (List.mem_cons_of_mem _ hg)) hothers)

section Search

variable (hk : k.Maintains I A)
include hk

lemma fits_closeFlipped {c : Certificate} (h : (k.closeFlipped goal).outcome = .ok (some c)) :
    k.Fits A goal c := by
  rw [closeFlipped] at h
  obtain ⟨result, hr, h⟩ := Logged.outcome_bind_eq_ok.1 h
  split at h
  · rename_i flipped
    obtain ⟨found, hfound, h⟩ := Logged.outcome_bind_eq_ok.1 h
    obtain ⟨rule, rfl, rfl⟩ : ∃ rule, found = some rule ∧
        Certificate.step Rule.symmetry.call [.leaf rule] = c := by simpa using h
    have hflip : k.run goal .symmetry = .ok [flipped] := by simpa using Logged.outcome_of_attempt hr
    obtain ⟨hmem, hclosed⟩ := run_of_firstClosing hfound
    obtain ⟨b, -, rfl⟩ := List.mem_map.1 hmem
    exact fits_step (hk.termless goal _ trivial) (by rw [apply_call, hflip])
      (.cons (fits_leaf (hk.termless flipped _ trivial) hclosed) .nil)
  · simp at h

lemma fits_closeDirectly {c : Certificate} (h : (k.closeDirectly goal).outcome = .ok (some c)) :
    k.Fits A goal c := by
  rw [closeDirectly] at h
  obtain ⟨found, hfound, h⟩ := Logged.outcome_bind_eq_ok.1 h
  cases found with
  | some rule =>
    obtain rfl : Certificate.leaf rule = c := by simpa using h
    obtain ⟨hmem, hclosed⟩ := run_of_firstClosing hfound
    have htermless : rule.IsTermless := by
      simp only [Goal.closers, List.cons_append, List.mem_cons, List.mem_append, List.mem_map,
        List.not_mem_nil, or_false] at hmem
      rcases hmem with rfl | ⟨b, -, rfl⟩ | rfl <;> trivial
    exact fits_leaf (hk.termless goal rule htermless) hclosed
  | none => exact fits_closeFlipped hk h

/-- Certificates found by the search fit the goal. -/
lemma fits_searchWithin (depth : Nat) {goal : Goal} (hI : I goal) {c : Certificate}
    (h : (k.searchWithin depth goal).outcome = .ok (some c)) : k.Fits A goal c := by
  induction depth generalizing goal c with
  | zero => exact fits_closeDirectly hk h
  | succ depth ih =>
    rw [searchWithin] at h
    obtain ⟨found, hfound, h⟩ := Logged.outcome_bind_eq_ok.1 h
    cases found with
    | some c' =>
      obtain rfl : c' = c := by simpa using h
      exact fits_closeDirectly hk hfound
    | none =>
      rw [closeByCongruence] at h
      obtain ⟨result, hr, h⟩ := Logged.outcome_bind_eq_ok.1 h
      cases result with
      | error _ => simp at h
      | ok subgoals =>
        obtain ⟨children, hchildren, h⟩ := Logged.outcome_bind_eq_ok.1 h
        obtain ⟨cs, rfl, rfl⟩ : ∃ cs, children = some cs ∧
          .step Rule.congruence.call cs = c := by simpa using h
        have hrun : k.apply goal Rule.congruence.call = .ok subgoals := by
          rw [apply_call]
          simpa using Logged.outcome_of_attempt hr
        have hA : A goal Rule.congruence.call := hk.termless goal _ trivial
        exact fits_step hA hrun (fits_closeAll (fun hI h => ih hI h) (hk.kept hI hA hrun) hchildren)

lemma fits_search (hI : I goal) {depth : Int} {c : Certificate}
    (h : (k.search goal depth).outcome = .ok (some c)) : k.Fits A goal c := by
  rw [search] at h
  split at h
  · simp at h
  · exact fits_searchWithin hk _ hI h

end Search

end Kernel

/-! ### Work along a trail -/

/-- A contradictory equation has distinct constructors on its sides, the left one of a data type. -/
lemma Kernel.contradictory?_eq_some {k : Kernel} {e : Equation} {left right : Name}
    (h : k.contradictory? e = some (left, right)) :
    k.env.constructorHead? e.lhs = some left ∧ k.env.constructorHead? e.rhs = some right ∧
      left ≠ right ∧ (k.env.dataCtor? left).isSome := by
  rw [contradictory?] at h
  obtain ⟨c, hl, h⟩ := Option.bind_eq_some_iff.1 h
  obtain ⟨d, hr, h⟩ := Option.bind_eq_some_iff.1 h
  obtain ⟨_, hguard, hpair⟩ := Option.bind_eq_some_iff.1 h
  obtain ⟨rfl, rfl⟩ : c = left ∧ d = right := by simpa using hpair
  rw [guard] at hguard
  split at hguard
  · rename_i hcond
    exact ⟨hl, hr, hcond⟩
  · cases hguard

namespace Attempt

variable {k : Kernel} {I : Goal → Prop} {A : Goal → Call → Prop} {α β : Type}

/-- Started at a trail whose calls lead to its goal, the work ends at such a trail, whether it fails
or not, and keeps the invariant.  If the goal at the start satisfies `P` and the work gives a
result, then `Q` holds of the result and the goal reached. -/
def Keeps (k : Kernel) (I : Goal → Prop) (A : Goal → Call → Prop) (P : Goal → Prop) (x : Attempt α)
    (Q : α → Goal → Prop) : Prop :=
  ∀ start t, k.Leads A start t.calls t.goal → I t.goal → P t.goal →
    k.Leads A start (x t).2.calls (x t).2.goal ∧ I (x t).2.goal ∧
      ∀ a, (x t).1.outcome = .ok a → Q a (x t).2.goal

lemma Keeps.pre {P P' : Goal → Prop} {x : Attempt α} {Q : α → Goal → Prop} (h : Keeps k I A P x Q)
    (hP : ∀ g, I g → P' g → P g) : Keeps k I A P' x Q :=
  fun start t ht hI hp => h start t ht hI (hP _ hI hp)

lemma Keeps.post {P : Goal → Prop} {x : Attempt α} {Q R : α → Goal → Prop} (h : Keeps k I A P x Q)
    (hQ : ∀ a g, Q a g → R a g) : Keeps k I A P x R := by
  intro start t ht hI hp
  obtain ⟨hlead, hI', hres⟩ := h start t ht hI hp
  exact ⟨hlead, hI', fun a ha => hQ a _ (hres a ha)⟩

lemma keeps_pure (a : α) (Q : α → Goal → Prop) : Keeps k I A (Q a) (pure a) Q := by
  intro start t ht hI hp
  refine ⟨ht, hI, fun b hb => ?_⟩
  obtain rfl : a = b := by simpa [pure] using hb
  exact hp

lemma keeps_fail (P : Goal → Prop) (f : Fault) (Q : α → Goal → Prop) : Keeps k I A P (fail f) Q :=
  fun _ _ ht hI _ => ⟨ht, hI, fun _ hb => by simp [fail] at hb⟩

/-- A failure of the first piece of work ends the sequence where that piece ended. -/
lemma keeps_bind {P : Goal → Prop} {x : Attempt α} {R : α → Goal → Prop} {f : α → Attempt β}
    {Q : β → Goal → Prop} (hx : Keeps k I A P x R) (hf : ∀ a, Keeps k I A (R a) (f a) Q) :
    Keeps k I A P (x >>= f) Q := by
  intro start t ht hI hp
  obtain ⟨hlead, hI', hres⟩ := hx start t ht hI hp
  change k.Leads A start (Attempt.bind x f t).2.calls (Attempt.bind x f t).2.goal ∧
    I (Attempt.bind x f t).2.goal ∧ _
  unfold Attempt.bind
  rcases hxt : x t with ⟨⟨outcome, log⟩, t'⟩
  rw [hxt] at hlead hI' hres
  cases outcome with
  | error e => exact ⟨hlead, hI', fun b hb => by simp [bind, Attempt.bind, hxt] at hb⟩
  | ok a =>
    obtain ⟨hlead', hI'', hres'⟩ := hf a start t' hlead hI' (hres a rfl)
    refine ⟨hlead', hI'', fun b hb => ?_⟩
    simp only [bind, Attempt.bind, hxt] at hb ⊢
    exact hres' b hb

/-- A computation that leaves the trail alone. -/
lemma keeps_liftM (P : Goal → Prop) (x : Logged α) :
    Keeps k I A P (liftM x) fun a g => P g ∧ x.outcome = .ok a :=
  fun _ _ ht hI hp => ⟨ht, hI, fun _ ha => ⟨hp, ha⟩⟩

lemma keeps_goal (P : Goal → Prop) : Keeps k I A P goal fun a g => P g ∧ a = g := by
  intro start t ht hI hp
  refine ⟨ht, hI, fun a ha => ⟨hp, ?_⟩⟩
  simpa [goal, pure] using ha.symm

lemma keeps_markDestructed (P : Goal → Prop) : Keeps k I A P markDestructed fun _ => P :=
  fun _ _ ht hI hp => ⟨ht, hI, fun _ _ => hp⟩

/-- The equation read off a hypothesis is the one that the rules see. -/
lemma keeps_equation (P : Goal → Prop) (x : Name) :
    Keeps k I A P (equation k x) fun e g => P g ∧ k.equation g x = .ok e := by
  refine keeps_bind (keeps_goal P) fun g => ?_
  cases hty : g.lookup? x with
  | none => exact keeps_fail _ _ _
  | some ty =>
    refine keeps_bind (keeps_liftM _ _) fun nf => ?_
    cases he : Equation.ofTerm? nf with
    | none => exact keeps_fail _ _ _
    | some e =>
      refine (keeps_pure e _).pre ?_
      rintro _ - ⟨⟨hp, rfl⟩, hnf⟩
      have hnf' : k.normalize ty = .ok nf := hnf
      refine ⟨hp, ?_⟩
      simp [Kernel.equation, hty, hnf', he, pure, Except.pure]

section Steps

variable (hk : k.Maintains I A)
include hk

/-- Every step that is recorded was made, by a call that is allowed. -/
lemma keeps_step {P : Goal → Prop} {rule : Rule} (hA : ∀ g, I g → P g → A g rule.call) :
    Keeps k I A P (step k rule) fun _ g => ∃ g₀, P g₀ ∧ k.run g₀ rule = .ok [g] := by
  refine keeps_bind (keeps_goal P) fun g => keeps_bind (keeps_liftM _ _) fun subgoals => ?_
  split
  · rename_i subgoal
    rintro start t ht hI ⟨⟨hp, rfl⟩, hrun⟩
    rw [Kernel.outcome_perform] at hrun
    have hcall : k.apply t.goal rule.call = .ok [subgoal] := by rw [Kernel.apply_call, hrun]
    have hA' : A t.goal rule.call := hA _ hI hp
    exact ⟨ht.snoc hA' hcall, hk.kept hI hA' hcall subgoal List.mem_cons_self,
      fun _ _ => ⟨_, hp, hrun⟩⟩
  · exact keeps_fail _ _ _

/-- A step without terms is allowed. -/
lemma keeps_step_termless (P : Goal → Prop) {rule : Rule} (h : rule.IsTermless) :
    Keeps k I A P (step k rule) fun _ _ => True :=
  (keeps_step hk fun g _ _ => hk.termless g rule h).post fun _ _ _ => trivial

lemma keeps_stepNormalize (P : Goal → Prop) : Keeps k I A P (stepNormalize k) fun _ _ => True := by
  refine keeps_bind (keeps_goal P) fun g => keeps_bind (keeps_liftM _ _) fun t =>
    (keeps_step hk ?_).post fun _ _ _ => trivial
  rintro _ hI ⟨⟨-, rfl⟩, ht⟩
  exact hk.normal hI ht

lemma keeps_dropUnless (P : Goal → Prop) (pf x : Name) :
    Keeps k I A P (dropUnless k pf x) fun _ _ => True := by
  unfold dropUnless
  split
  · exact (keeps_pure () _).pre fun _ _ _ => trivial
  · exact keeps_step_termless hk P trivial

/-- An equation found contradictory closes the goal. -/
lemma keeps_simplify (pf x : Name) :
    Keeps k I A (fun _ => True) (simplify k pf x) fun r g =>
      r = .contradiction → k.run g (.discriminate x) = .ok [] := by
  refine keeps_bind (keeps_equation _ x) fun e => keeps_bind (keeps_liftM _ _) fun same => ?_
  split
  · exact keeps_bind (keeps_dropUnless hk _ pf x) fun _ =>
      (keeps_pure _ _).pre fun _ _ _ h => by cases h
  split
  · exact keeps_bind (keeps_goal _) fun _ => keeps_bind (keeps_step_termless hk _ trivial) fun _ =>
      keeps_bind (keeps_dropUnless hk _ pf x) fun _ =>
        (keeps_pure _ _).pre fun _ _ _ h => by cases h
  split
  · rename_i left right hc
    refine keeps_bind (keeps_liftM _ _) fun _ => (keeps_pure _ _).pre ?_
    rintro g - ⟨⟨⟨-, he⟩, -⟩, -⟩ -
    obtain ⟨hl, hr, hne, hdata⟩ := Kernel.contradictory?_eq_some hc
    simp [Kernel.run, Kernel.discriminate, he, hl, hr, hne, hdata, pure, Except.pure]
  · refine keeps_bind (keeps_goal _) fun g => ?_
    split
    · exact keeps_bind (keeps_step_termless hk _ trivial) fun _ =>
        (keeps_pure _ _).pre fun _ _ _ h => by cases h
    · exact keeps_fail _ _ _

lemma keeps_destructure (pf : Name) (limit : Int) (steps : Nat) (pending : List Name) :
    Keeps k I A (fun _ => True) (destructure k pf limit steps pending) fun r g =>
      ∀ x, r = some x → k.run g (.discriminate x) = .ok [] := by
  induction steps generalizing pending with
  | zero =>
    refine keeps_bind (keeps_goal _) fun g => ?_
    split
    · exact (keeps_pure _ _).pre fun _ _ _ _ h => by cases h
    · exact keeps_fail _ _ _
  | succ steps ih =>
    refine keeps_bind (keeps_goal _) fun g => ?_
    split
    · exact (keeps_pure _ _).pre fun _ _ _ _ h => by cases h
    · rename_i x rest _
      refine keeps_bind ((keeps_simplify hk pf x).pre fun _ _ _ => trivial) fun r => ?_
      cases r with
      | contradiction =>
        refine (keeps_pure _ _).pre fun g _ hg y hy => ?_
        obtain rfl : x = y := by simpa using hy
        exact hg rfl
      | parts names => exact (ih _).pre fun _ _ _ => trivial

/-- What closes a branch fits the goal that is left of it. -/
lemma keeps_discharge (bounds : Bounds) :
    Keeps k I A (fun _ => True) (discharge k bounds) fun r g => k.Fits A g r.2 := by
  refine keeps_bind (keeps_goal _) fun _ => keeps_bind (keeps_step_termless hk _ trivial) fun _ =>
    keeps_bind (keeps_stepNormalize hk _) fun _ =>
      keeps_bind (keeps_destructure hk _ _ _ _) fun found =>
    keeps_bind (keeps_markDestructed _) fun _ => ?_
  cases found with
  | some x =>
    exact (keeps_pure _ _).pre fun g _ hg =>
      Kernel.fits_leaf (hk.termless g (.discriminate x) trivial) (hg x rfl)
  | none =>
    refine keeps_bind (keeps_step_termless hk _ trivial) fun _ =>
        keeps_bind (keeps_stepNormalize hk _) fun _ =>
      keeps_bind (keeps_goal _) fun _ => keeps_bind (keeps_liftM _ _) fun proof => ?_
    cases proof with
    | some proof =>
      refine (keeps_pure _ _).pre ?_
      rintro g hI ⟨⟨-, rfl⟩, hsearch⟩
      exact Kernel.fits_search hk hI hsearch
    | none => exact keeps_bind (keeps_goal _) fun _ => keeps_fail _ _ _

end Steps

end Attempt

/-! ### Branches and whole runs -/

namespace Kernel

variable {k : Kernel} {I : Goal → Prop} {A : Goal → Call → Prop} {goal : Goal}

/-- Each case gets a branch: an impossible one if the split ruled it out, and otherwise what becomes
of its goal. -/
lemma workOn_eq_ok {bounds : Bounds} {cases : List (FamilyCtor × Option Goal)} {bs : List Branch}
    (h : (k.workOn bounds cases).outcome = .ok bs) :
    List.Forall₂ (fun case b => case.2 = none ∧
      b = { ctor := case.1.name, outcome := .impossible } ∨
      ∃ g, case.2 = some g ∧ (k.branch bounds case.1.name g).outcome = .ok b) cases bs := by
  induction cases generalizing bs with
  | nil =>
    obtain rfl : [] = bs := by simpa [workOn] using h
    exact .nil
  | cons first rest ih =>
    obtain ⟨c, branch⟩ := first
    cases branch with
    | none =>
      rw [workOn] at h
      obtain ⟨_, -, h⟩ := Logged.outcome_bind_eq_ok.1 h
      obtain ⟨others, hothers, h⟩ := Logged.outcome_bind_eq_ok.1 h
      obtain rfl : Branch.mk c.name .impossible false :: others = bs := by simpa using h
      exact .cons (.inl ⟨rfl, rfl⟩) (ih hothers)
    | some goal =>
      rw [workOn] at h
      obtain ⟨b, hb, h⟩ := Logged.outcome_bind_eq_ok.1 h
      obtain ⟨others, hothers, h⟩ := Logged.outcome_bind_eq_ok.1 h
      obtain rfl : b :: others = bs := by simpa using h
      exact .cons (.inr ⟨goal, rfl, hb⟩) (ih hothers)

section Branches

variable (hk : k.Maintains I A)
include hk

/-- The certificate of a branch fits its goal, whether the branch was closed or not. -/
lemma fits_branch (hI : I goal) {bounds : Bounds} {ctor : Name} {b : Branch}
    (h : (k.branch bounds ctor goal).outcome = .ok b) :
    ∃ c, b.outcome.proof? = some c ∧ k.Fits A goal c := by
  obtain ⟨hlead, -, hres⟩ := Attempt.keeps_discharge hk bounds goal { goal } (.refl goal) hI trivial
  rcases hwork : Attempt.discharge k bounds { goal } with ⟨⟨outcome, log⟩, trail⟩
  rw [hwork] at hlead hres
  simp only [branch, hwork] at h
  cases outcome with
  | ok r =>
    obtain ⟨how, tail⟩ := r
    obtain rfl : Branch.mk ctor (.closed how (trail.finish tail)) trail.destructed = b := by
      simpa [conclude] using h
    exact ⟨_, rfl, hlead.fits_chain (hres _ rfl)⟩
  | error f =>
    simp only [conclude] at h
    split at h
    · simp at h
    · rename_i why _
      obtain rfl : Branch.mk ctor (.leftOpen why trail.goal (trail.finish (.hole trail.goal)))
          trail.destructed = b := by simpa using h
      exact ⟨_, rfl, hlead.fits_chain (fits_hole k A _)⟩

/-- The certificates of the branches fit the goals that the split leaves, in order. -/
lemma fits_workOn {bounds : Bounds} {cases : List (FamilyCtor × Option Goal)}
    (hI : ∀ g ∈ cases.filterMap Prod.snd, I g) {bs : List Branch}
    (h : (k.workOn bounds cases).outcome = .ok bs) :
    List.Forall₂ (k.Fits A) (cases.filterMap Prod.snd) (bs.filterMap (·.outcome.proof?)) := by
  have hbranches := workOn_eq_ok h
  clear h
  induction hbranches with
  | nil => exact .nil
  | @cons case b rest bs hfirst _ ih =>
    obtain ⟨c, branch⟩ := case
    rcases hfirst with ⟨rfl, rfl⟩ | ⟨g, rfl, hb⟩
    · simpa [Outcome.proof?] using ih (by simpa using hI)
    · have hI' : I g ∧ ∀ g ∈ rest.filterMap Prod.snd, I g := by simpa using hI
      obtain ⟨proof, hproof, hfits⟩ := fits_branch hk hI'.1 hb
      simpa [hproof] using List.Forall₂.cons hfits (ih hI'.2)

end Branches

/-- The calls with which a run opens are allowed at every goal with the invariant and the same
hypotheses. -/
structure Opens (k : Kernel) (I : Goal → Prop) (A : Goal → Call → Prop) (goal : Goal)
    (c : Comparison) (m : Motive) (curried : Term) : Prop where
  change : ∀ g, I g → g.hyps = goal.hyps →
    A g (Rule.change (.eq c.evidenceType m.reflexiveLhs c.rhs)).call
  generalize : ∀ g, I g → g.hyps = goal.hyps →
    ∀ target, m.target k.depth c.indices c.rhs = .ok target →
    A g (Rule.generalize target m.reflWitness).call
  case : ∀ g, I g → g.hyps = goal.hyps → A g (Rule.case c.rhs c.icount curried).call

/-- The steps before the split are recorded, and the split is made at the goal they lead to. -/
lemma keeps_prepare (hk : k.Maintains I A) {c : Comparison} {m : Motive} {curried : Term}
    (hopens : k.Opens I A goal c m curried) :
    Attempt.Keeps k I A (fun g => g.hyps = goal.hyps) (k.prepare c m curried) fun cases g =>
      g.hyps = goal.hyps ∧ k.caseBranches g c.rhs c.icount curried = .ok cases := by
  have hrest : Attempt.Keeps k I A (fun g => g.hyps = goal.hyps) (do
      Attempt.step k (.change (.eq c.evidenceType m.reflexiveLhs c.rhs))
      let target ← (m.target k.depth c.indices c.rhs : Logged Term)
      Attempt.step k (.generalize target m.reflWitness)
      (k.caseBranches (← Attempt.goal) c.rhs c.icount curried :
        Logged (List (FamilyCtor × Option Goal))))
      fun cases g => g.hyps = goal.hyps ∧ k.caseBranches g c.rhs c.icount curried = .ok cases := by
    refine Attempt.keeps_bind
      ((Attempt.keeps_step hk hopens.change).post (R := fun _ g => g.hyps = goal.hyps) ?_)
      fun _ => Attempt.keeps_bind (Attempt.keeps_liftM _ _) fun target => Attempt.keeps_bind
      ((Attempt.keeps_step hk ?_).post (R := fun _ g => g.hyps = goal.hyps) ?_) fun _ =>
      Attempt.keeps_bind (Attempt.keeps_goal _) fun g => (Attempt.keeps_liftM _ _).post ?_
    · rintro _ g ⟨g₀, hg₀, hrun⟩
      obtain ⟨-, -, hgs⟩ := change_eq_ok hrun
      obtain rfl := List.singleton_inj.1 hgs
      exact hg₀
    · rintro g hI ⟨hg, htarget⟩
      exact hopens.generalize g hI hg target htarget
    · rintro _ g ⟨g₀, ⟨hg₀, -⟩, hrun⟩
      obtain ⟨-, -, -, -, -, -, -, hgs⟩ := generalize_eq_ok hrun
      obtain rfl := List.singleton_inj.1 hgs
      exact hg₀
    · rintro cases _ ⟨⟨hg, rfl⟩, h⟩
      exact ⟨hg, h⟩
  unfold prepare
  split
  · refine Attempt.keeps_bind
      ((Attempt.keeps_step hk fun g _ _ => hk.termless g .symmetry trivial).post ?_) fun _ => hrest
    rintro _ g ⟨g₀, hg₀, hrun⟩
    obtain ⟨e, -, hgs⟩ := symmetry_eq_ok hrun
    obtain rfl := List.singleton_inj.1 hgs
    exact hg₀
  · exact hrest

/-- The split of a run that returns is made on a goal with the same hypotheses. -/
lemma caseBranches_of_prepare {c : Comparison} {m : Motive} {curried : Term}
    {work : Logged (List (FamilyCtor × Option Goal))} {trail : Trail}
    (h : k.prepare c m curried { goal } = (work, trail)) {cases : List (FamilyCtor × Option Goal)}
    (hcases : work.outcome = .ok cases) :
    ∃ g, g.hyps = goal.hyps ∧ k.caseBranches g c.rhs c.icount curried = .ok cases := by
  have hmaintains : k.Maintains (fun _ => True) fun _ _ => True :=
    ⟨fun _ _ _ _ _ => trivial, fun _ _ _ => trivial, fun _ _ => trivial⟩
  have hopens : k.Opens (fun _ => True) (fun _ _ => True) goal c m curried :=
    ⟨fun _ _ _ => trivial, fun _ _ _ _ _ => trivial, fun _ _ _ => trivial⟩
  obtain ⟨-, -, hres⟩ := keeps_prepare hmaintains hopens goal { goal } (.refl goal) trivial rfl
  rw [h] at hres
  exact ⟨trail.goal, hres cases hcases⟩

lemma refusalAs_eq_ok {α : Type} {f : Refusal → Mismatch} {x : Except Fault α} {a : α} :
    refusalAs f x = .ok a ↔ x = .ok a := by
  unfold refusalAs
  split <;> simp

/-- Peeling takes a type apart into a head and its last arguments, with the types that inference
gives these. -/
lemma peel_eq_ok {ctx : Context} {scrutinee : Term} {icount : Int} {found count : Nat}
    {ty head : Term} {t : Tuple} (h : k.peel ctx scrutinee icount found count ty = .ok (head, t)) :
    t.length = count ∧ ty = head.applyTuple t.reverse ∧
      ∀ s ∈ t, k.infer ctx s.value = .ok s.ty := by
  induction count generalizing found ty head t with
  | zero =>
    obtain ⟨rfl, rfl⟩ : ty = head ∧ [] = t := by simpa [peel, pure, Except.pure] using h
    exact ⟨rfl, rfl, nofun⟩
  | succ count ih =>
    cases ty with
    | app fn arg =>
      rw [peel] at h
      obtain ⟨argTy, harg, h⟩ := Except.bind_eq_ok.1 h
      obtain ⟨⟨head', rest⟩, hrest, h⟩ := Except.bind_eq_ok.1 h
      obtain ⟨rfl, rfl⟩ : head' = head ∧
        ⟨argTy, arg⟩ :: rest = t := by simpa [pure, Except.pure] using h
      obtain ⟨hlen, rfl, hslots⟩ := ih hrest
      refine ⟨by simp [hlen], ?_, List.forall_mem_cons.2 ⟨refusalAs_eq_ok.1 harg, hslots⟩⟩
      simp [Term.applyTuple, Tuple.values, Term.apps_append]
    | _ => simp [peel] at h

/-- A comparison is of the sides of the target, in either order, at the last arguments of the type
of one of them. -/
lemma comparison_eq_ok {icount : Int} {c : Comparison}
    (h : (k.comparison goal icount).outcome = .ok c) : (c.icount : Int) = icount ∧
    (∃ e : Equation, k.normalize goal.target = .ok e.toTerm ∧
      (c.lhs = e.lhs ∧ c.rhs = e.rhs ∨ c.lhs = e.rhs ∧ c.rhs = e.lhs)) ∧
    k.infer goal.context c.rhs = .ok c.evidenceType ∧
      ∀ s ∈ c.reversed, k.infer goal.context s.value = .ok s.ty := by
  rw [comparison] at h
  split at h
  · simp at h
  · rename_i hneg
    obtain ⟨⟨e, swapped⟩, he, h⟩ := Logged.outcome_bind_eq_ok.1 h
    obtain ⟨ty, hty, h⟩ := Logged.outcome_bind_eq_ok.1 h
    obtain ⟨⟨head, reversed⟩, hpeel, h⟩ := Logged.outcome_bind_eq_ok.1 h
    obtain ⟨_, -, h⟩ := Logged.outcome_bind_eq_ok.1 h
    obtain rfl : Comparison.mk head reversed e.lhs e.rhs swapped = c := by simpa using h
    obtain ⟨hlen, rfl, hslots⟩ := peel_eq_ok (k := k) hpeel
    refine ⟨?_, ?_, refusalAs_eq_ok.1 hty, hslots⟩
    · simp only [Comparison.icount, hlen]
      omega
    · rw [orient] at he
      obtain ⟨target, htarget, he⟩ := Logged.outcome_bind_eq_ok.1 he
      split at he
      · simp at he
      · rename_i e' he'
        refine ⟨e', Equation.ofTerm?_eq_some he' ▸ htarget, ?_⟩
        split at he
        · obtain ⟨_, -, he⟩ := Logged.outcome_bind_eq_ok.1 he
          obtain ⟨rfl, -⟩ : e'.swap = e ∧ true = swapped := by simpa using he
          exact .inr ⟨rfl, rfl⟩
        · obtain ⟨rfl, -⟩ : e' = e ∧ false = swapped := by simpa using he
          exact .inl ⟨rfl, rfl⟩

/-- What a run that returns has done: it compares, builds the motive, prepares the split and works
on its branches. -/
lemma solve_eq_ok {icount : Int} {bounds : Bounds} {s : Solution}
    (h : (k.solve goal icount bounds).outcome = .ok s) :
    (k.comparison goal icount).outcome = .ok s.comparison ∧
      s.motive = s.comparison.motive goal.names ∧
    s.motive.curried k.depth = .ok s.curried ∧ ∃ work trail cases,
      k.prepare s.comparison s.motive s.curried { goal } = (work, trail) ∧
        work.outcome = .ok cases ∧
      (k.workOn bounds cases).outcome = .ok s.branches ∧
      s.proof = trail.finish (.step (Rule.case s.comparison.rhs icount s.curried).call
        (s.branches.filterMap (·.outcome.proof?))) := by
  rw [solve] at h
  obtain ⟨c, hc, h⟩ := Logged.outcome_bind_eq_ok.1 h
  obtain ⟨⟨motive, curried⟩, hmotive, h⟩ := Logged.outcome_bind_eq_ok.1 h
  rw [Kernel.motive] at hmotive
  obtain ⟨curried', hcurried, hmotive⟩ := Logged.outcome_bind_eq_ok.1 hmotive
  obtain ⟨_, -, hmotive⟩ := Logged.outcome_bind_eq_ok.1 hmotive
  obtain ⟨rfl, rfl⟩ : c.motive goal.names = motive ∧ curried' = curried := by simpa using hmotive
  rcases hprepare : k.prepare c (c.motive goal.names) curried' { goal } with ⟨work, trail⟩
  simp only [hprepare] at h
  obtain ⟨cases, hcases, h⟩ := Logged.outcome_bind_eq_ok.1 h
  obtain ⟨_, -, h⟩ := Logged.outcome_bind_eq_ok.1 h
  obtain ⟨bs, hbs, h⟩ := Logged.outcome_bind_eq_ok.1 h
  obtain ⟨_, -, h⟩ := Logged.outcome_bind_eq_ok.1 h
  obtain rfl : Solution.mk goal c (c.motive goal.names) curried' (trail.finish
      (.step (Rule.case c.rhs icount curried').call (bs.filterMap (·.outcome.proof?))))
        bs = s := by simpa using h
  exact ⟨hc, rfl, hcurried, work, trail, cases, hprepare, refusalAs_eq_ok.1 hcases, hbs, rfl⟩

/-- **The certificate of a run fits its goal**, if the calls with which the run opens are
allowed. -/
theorem fits_solve (hk : k.Maintains I A) (hI : I goal) {icount : Int}
    (hopens : ∀ c curried, (k.comparison goal icount).outcome = .ok c →
      (c.motive goal.names).curried k.depth = .ok curried →
      k.Opens I A goal c (c.motive goal.names) curried) {bounds : Bounds} {s : Solution}
    (h : (k.solve goal icount bounds).outcome = .ok s) : k.Fits A goal s.proof := by
  obtain ⟨hc, hmotive, hcurried, work, trail, cases, hprepare, hcases, hbs, hproof⟩ := solve_eq_ok h
  rw [hmotive] at hcurried hprepare
  have hopens := hopens _ _ hc hcurried
  obtain ⟨hlead, hI', hres⟩ := keeps_prepare hk hopens goal { goal } (.refl goal) hI rfl
  rw [hprepare] at hlead hI' hres
  -- the split that is recorded is the one that gave the branches, less the impossible ones
  obtain ⟨hhyps, hbranches⟩ := hres cases hcases
  have hA : A trail.goal (Rule.case s.comparison.rhs icount s.curried).call := by
    rw [← (comparison_eq_ok hc).1]
    exact hopens.case _ hI' hhyps
  rw [(comparison_eq_ok hc).1] at hbranches
  have hsplit : k.apply trail.goal (Rule.case s.comparison.rhs icount s.curried).call =
      .ok (cases.filterMap Prod.snd) := by
    rw [apply_call]
    simp [run, case_eq, hbranches, pure, Except.pure]
  rw [hproof]
  exact hlead.fits_chain (fits_step hA hsplit (fits_workOn hk (hk.kept hI' hA hsplit) hbs))

end Kernel

end UniqueEvidence
