/-
Looser bounds and more deciders never hurt.

* `Kernel.run_withRegistry`, `Kernel.prepare_withRegistry`: only two rules ask for a decider, and
  nothing before the split does;
* `Supersedes`: the same result, unless it was refused for want of a decider;
  `Kernel.supersedes_run`: rules with more deciders;
* `Refinds`: what was found is found again; `Kernel.refinds_searchWithin`: **a deeper search with
  more deciders finds what was found**;
* `Attempt.Follows`: work that succeeds wherever other work does, and ends at the same trail;
  `Attempt.follows_destructure`, `Attempt.follows_discharge`: simplifying equations in more steps,
  and closing a branch;
* `Kernel.upToDepth_solve_keptAs`: so a run gives a result again, and **its closed branches stay
  closed in the same way**;
* `Registry.includedIn_of_register?`: a registered fact takes no decider away;
* `Kernel.kept_of_looser_bounds`, `Kernel.kept_of_register`: the two cases, other bounds and another
  decider.
-/
import UniqueEvidence.Proofs.Agreement
import UniqueEvidence.Proofs.Demands
import UniqueEvidence.Proofs.Renaming
import UniqueEvidence.Proofs.Reports

namespace UniqueEvidence

/-! ### What does not depend on the deciders -/

/-- The kernel with other deciders. -/
def Kernel.withRegistry (k : Kernel) (r : Registry) : Kernel :=
  { k with registry := r }

/-- The rule never asks for a decider. -/
def Rule.IsDeciderless : Rule → Prop
  | uip _ | decide => False
  | _ => True

namespace Kernel

variable {k : Kernel} (r : Registry) {g : Goal}

/-- Types do not depend on the deciders. -/
lemma agrees_withRegistry : k.Agrees (k.withRegistry r) where
  depth := rfl
  constType? _ := rfl
  isConstructor _ := rfl

lemma allConvertible_withRegistry (pairs : List (Term × Term)) :
    (k.withRegistry r).allConvertible pairs = k.allConvertible pairs := by
  induction pairs with
  | nil => rfl
  | cons p rest ih =>
    rw [allConvertible, allConvertible, ih]
    rfl

lemma branchGoals_withRegistry (motive : Term) (fixed : List Term) (taken : List Name)
    (ctors : List FamilyCtor) :
    (k.withRegistry r).branchGoals g motive fixed taken ctors =
      k.branchGoals g motive fixed taken ctors := by
  induction ctors generalizing taken with
  | nil => rfl
  | cons c rest ih =>
    rw [branchGoals, branchGoals, ih, branchGoal, branchGoal]
    simp only [allConvertible_withRegistry]
    rfl

lemma caseBranches_withRegistry (scrutinee : Term) (icount : Int) (motive : Term) :
    (k.withRegistry r).caseBranches g scrutinee icount motive =
      k.caseBranches g scrutinee icount motive := by
  simp only [caseBranches, caseBranchesAs, evidenceOf, (agrees_withRegistry r).infer_eq,
    (agrees_withRegistry r).checkMotive_eq, branchGoals_withRegistry]
  rfl

lemma argumentEquations_withRegistry (c : Name) (bound determined : List Name)
    (args : List (Binding × Term × Term)) :
    (k.withRegistry r).argumentEquations c bound determined args =
      k.argumentEquations c bound determined args := by
  induction args with
  | nil => rfl
  | cons arg rest ih =>
    rw [argumentEquations, argumentEquations, ih]
    rfl

/-- Rules that ask for no decider do not depend on the deciders. -/
lemma run_withRegistry (rule : Rule) (h : rule.IsDeciderless) :
    (k.withRegistry r).run g rule = k.run g rule := by
  cases rule with
  | uip | decide => exact h.elim
  | change | generalize =>
    refine (agrees_withRegistry r).run_eq ?_ g
    trivial
  | case scrutinee icount motive => simp only [run, case_eq, caseBranches_withRegistry]
  | congruence =>
    simp only [run, congruence, argumentEquations_withRegistry]
    rfl
  | _ => rfl

lemma perform_withRegistry (rule : Rule) (h : rule.IsDeciderless) :
    (k.withRegistry r).perform g rule = k.perform g rule := by
  rw [perform, perform, run_withRegistry r rule h]

end Kernel

namespace Attempt

variable {k : Kernel} (r : Registry)

lemma step_withRegistry (rule : Rule) (h : rule.IsDeciderless) :
    step (k.withRegistry r) rule = step k rule := by
  simp only [step, Kernel.perform_withRegistry r rule h]

lemma stepNormalize_withRegistry : stepNormalize (k.withRegistry r) = stepNormalize k := by
  simp only [stepNormalize, step_withRegistry r (.change _) trivial]
  rfl

lemma destructure_withRegistry (pf : Name) (limit : Int) (steps : Nat) (pending : List Name) :
    destructure (k.withRegistry r) pf limit steps pending =
      destructure k pf limit steps pending := by
  induction steps generalizing pending with
  | zero => rfl
  | succ steps ih =>
    simp only [destructure, ih]
    rfl

end Attempt

lemma Kernel.prepare_withRegistry {k : Kernel} (r : Registry) (c : Comparison) (m : Motive)
    (curried : Term) : (k.withRegistry r).prepare c m curried = k.prepare c m curried := by
  simp only [prepare, caseBranches_withRegistry, Attempt.step_withRegistry r .symmetry trivial,
    Attempt.step_withRegistry r (.change _) trivial,
    Attempt.step_withRegistry r (.generalize _ _) trivial]
  rfl

/-! ### Rules with more deciders -/

/-- Every decider that the first registry finds is found by the second. -/
def Registry.IncludedIn (r r' : Registry) : Prop :=
  ∀ key d, r.find? key = some d → r'.find? key = some d

/-- The second computation gives what the first gives, unless that is refused for want of a decider:
then the second is refused at worst. -/
def Supersedes {α : Type} (x y : Except Fault α) : Prop :=
  y = x ∨ (∃ ty, x = .error (.refused (.missingDecider ty))) ∧ ∀ f, y = .error f →
    ∃ why, f = .refused why

namespace Supersedes

variable {α β : Type} {x y : Except Fault α}

lemma refl (x : Except Fault α) : Supersedes x x :=
  .inl rfl

lemma bind (x : Except Fault α) {f f' : α → Except Fault β} (h : ∀ a, Supersedes (f a) (f' a)) :
    Supersedes (x >>= f) (x >>= f') := by
  cases x with
  | error e => exact .refl _
  | ok a => exact h a

lemma eq_ok (h : Supersedes x y) {a : α} (hx : x = .ok a) : y = .ok a := by
  rcases h with rfl | ⟨⟨ty, rfl⟩, -⟩
  · exact hx
  · cases hx

end Supersedes

/-- What the first computation finds, the second finds too; it is the same thing under the
condition. -/
def Refinds {α : Type} (same : Prop) (x y : Except Fault (Option α)) : Prop :=
  ∀ a, x = .ok (some a) → ∃ b, y = .ok (some b) ∧ (same → b = a)

namespace Kernel

variable {k : Kernel} {r : Registry} {g : Goal}

section Deciders

variable (hr : k.registry.IncludedIn r)
include hr

/-- A type that has a decider keeps it, and another type may get one. -/
lemma supersedes_decider? {α : Type} (ty : Term) {f : Option Decider → Except Fault α}
    (hnone : f none = .error (.refused (.missingDecider ty)))
    (hsome : ∀ d err, f (some d) = .error err → ∃ why, err = .refused why) :
    Supersedes (k.decider? ty >>= f) ((k.withRegistry r).decider? ty >>= f) := by
  cases hkey : ty.normalize k.depth with
  | none =>
    have hspent : ∀ r : Registry, (k.withRegistry r).decider? ty = .error .exhausted := by
      intro r
      rw [decider?, Registry.lookup?, withRegistry, hkey]
      rfl
    exact .inl (congrArg (· >>= f) ((hspent r).trans (hspent k.registry).symm))
  | some key =>
    have hfound : ∀ r : Registry, (k.withRegistry r).decider? ty = .ok (r.find? key) :=
      fun r => withinDepth_eq_ok.2 (Option.map_eq_some_iff.2 ⟨key, hkey, rfl⟩)
    rw [show k.decider? ty = .ok (k.registry.find? key) from hfound k.registry, hfound r,
      Except.ok_bind, Except.ok_bind]
    cases hd : k.registry.find? key with
    | some d => exact .inl (congrArg f (hr key d hd))
    | none =>
      refine .inr ⟨⟨ty, hnone⟩, fun err herr => ?_⟩
      cases hd' : r.find? key with
      | none =>
        rw [hd', hnone] at herr
        exact ⟨_, (Except.error.inj herr).symm⟩
      | some d => exact hsome d err (hd' ▸ herr)

/-- **More deciders change only what was refused for want of one.** -/
lemma supersedes_run (rule : Rule) : Supersedes (k.run g rule) ((k.withRegistry r).run g rule) := by
  cases rule with
  | uip x =>
    refine .bind (k.equation g x) fun e => .bind (k.convertible e.lhs e.rhs) fun same => ?_
    split
    · refine supersedes_decider? hr e.ty rfl fun d err herr => ?_
      dsimp only at herr
      rw [unusedInHyps] at herr
      split at herr
      · cases herr
        exact ⟨_, rfl⟩
      · cases herr
    · exact .refl _
  | decide =>
    refine .bind (k.targetEquation g) fun e => ?_
    split
    · refine supersedes_decider? hr e.ty rfl fun d err herr => ?_
      dsimp only at herr
      split at herr
      · cases herr
      · cases herr
        exact ⟨_, rfl⟩
    · exact .refl _
  | _ => exact .inl (run_withRegistry r _ trivial)

/-- A rule that is tried still gives an answer, and leaves the subgoals that it left. -/
lemma attempt_withRegistry {rule : Rule} {result : Except Refusal (List Goal)}
    (h : (k.perform g rule).attempt.outcome = .ok result) :
    ∃ result', ((k.withRegistry r).perform g rule).attempt.outcome = .ok result' ∧
      ∀ gs, result = .ok gs → result' = .ok gs := by
  have hrun := supersedes_run hr (g := g) rule
  rw [← outcome_perform, ← outcome_perform] at hrun
  generalize k.perform g rule = x at h hrun
  generalize (k.withRegistry r).perform g rule = y at hrun ⊢
  obtain ⟨x, log⟩ := x
  obtain ⟨y, log'⟩ := y
  rcases hrun with hrun | ⟨⟨ty, hmissing⟩, hrefused⟩
  · obtain rfl : y = x := hrun
    refine ⟨result, ?_, fun _ h => h⟩
    cases y with
    | ok gs => exact h
    | error f => cases f <;> exact h
  · obtain rfl : x = _ := hmissing
    obtain rfl : result = .error (.missingDecider ty) := (Except.ok.inj h).symm
    cases y with
    | ok gs => exact ⟨.ok gs, rfl, fun gs hgs => by cases hgs⟩
    | error f =>
      obtain ⟨why, rfl⟩ := hrefused f rfl
      exact ⟨.error why, rfl, fun gs hgs => by cases hgs⟩

/-! ### Search -/

lemma firstClosing_withRegistry {rules : List Rule} {found : Option Rule}
    (h : (k.firstClosing g rules).outcome = .ok found) :
    ∃ found', ((k.withRegistry r).firstClosing g rules).outcome = .ok found' ∧
      (found.isSome → found'.isSome) := by
  induction rules generalizing found with
  | nil => exact ⟨found, h, fun h => h⟩
  | cons rule rest ih =>
    rw [firstClosing] at h ⊢
    obtain ⟨result, hresult, h⟩ := Logged.outcome_bind_eq_ok.1 h
    obtain ⟨result', hresult', hkept⟩ := attempt_withRegistry hr hresult
    rw [Logged.outcome_bind, hresult', Except.ok_bind]
    split at h
    · rw [hkept [] rfl]
      exact ⟨some rule, rfl, fun _ => rfl⟩
    · -- the rule may close the goal now, before one that closed it
      obtain ⟨found', hfound', hsome⟩ := ih h
      split
      · exact ⟨some rule, rfl, fun _ => rfl⟩
      · exact ⟨found', hfound', hsome⟩

lemma closeFlipped_withRegistry {found : Option Certificate}
    (h : (k.closeFlipped g).outcome = .ok found) :
    ∃ found', ((k.withRegistry r).closeFlipped g).outcome = .ok found' ∧
      (found.isSome → found'.isSome) := by
  rw [closeFlipped] at h ⊢
  obtain ⟨result, hresult, h⟩ := Logged.outcome_bind_eq_ok.1 h
  rw [perform_withRegistry r .symmetry trivial, Logged.outcome_bind, hresult, Except.ok_bind]
  split at h
  · obtain ⟨rule, hrule, h⟩ := Logged.outcome_bind_eq_ok.1 h
    obtain ⟨rule', hrule', hsome⟩ := firstClosing_withRegistry hr hrule
    obtain rfl := Except.ok.inj h
    rw [Logged.outcome_bind, hrule']
    exact ⟨_, rfl, by simpa using hsome⟩
  · exact ⟨found, h, fun h => h⟩

lemma closeDirectly_withRegistry {found : Option Certificate}
    (h : (k.closeDirectly g).outcome = .ok found) :
    ∃ found', ((k.withRegistry r).closeDirectly g).outcome = .ok found' ∧
      (found.isSome → found'.isSome) := by
  rw [closeDirectly] at h ⊢
  obtain ⟨rule, hrule, h⟩ := Logged.outcome_bind_eq_ok.1 h
  obtain ⟨rule', hrule', hsome⟩ := firstClosing_withRegistry hr hrule
  rw [Logged.outcome_bind, hrule', Except.ok_bind]
  cases rule' with
  | some rule' => exact ⟨some (.leaf rule'), rfl, fun _ => rfl⟩
  | none =>
    cases rule with
    | some rule => cases hsome rfl
    | none => exact closeFlipped_withRegistry hr h

lemma refinds_closeDirectly (g : Goal) :
    Refinds (r = k.registry) (k.closeDirectly g).outcome
      ((k.withRegistry r).closeDirectly g).outcome := by
  intro c h
  obtain ⟨found', hfound', hsome⟩ := closeDirectly_withRegistry hr h
  obtain ⟨c', rfl⟩ := Option.isSome_iff_exists.1 (hsome rfl)
  refine ⟨c', hfound', ?_⟩
  rintro rfl
  exact Option.some.inj (Except.ok.inj (hfound'.symm.trans h))

omit hr in
lemma refinds_closeAll {same : Prop} {close close' : Goal → Logged (Option Certificate)}
    (hclose : ∀ g, Refinds same (close g).outcome (close' g).outcome) (depth depth' : Nat)
    (goals : List Goal) :
    Refinds same (closeAll close depth goals).outcome (closeAll close' depth' goals).outcome := by
  induction goals with
  | nil => exact fun cs h => ⟨cs, h, fun _ => rfl⟩
  | cons goal rest ih =>
    intro cs h
    rw [closeAll] at h ⊢
    obtain ⟨found, hfound, h⟩ := Logged.outcome_bind_eq_ok.1 h
    cases found with
    | none => simp at h
    | some c =>
      obtain ⟨others, hothers, h⟩ := Logged.outcome_bind_eq_ok.1 h
      obtain ⟨cs₀, rfl, rfl⟩ := Option.map_eq_some_iff.1 (Except.ok.inj h)
      obtain ⟨c', hc', hsame⟩ := hclose goal c hfound
      obtain ⟨cs', hcs', hsames⟩ := ih cs₀ hothers
      refine ⟨c' :: cs', ?_, fun h => by rw [hsame h, hsames h]⟩
      simp [Logged.outcome_bind, hc', hcs']

omit hr in
lemma refinds_closeByCongruence {same : Prop} {close close' : Goal → Logged (Option Certificate)}
    (hclose : ∀ g, Refinds same (close g).outcome (close' g).outcome) (depth depth' : Nat) :
    Refinds same
      (k.closeByCongruence close depth g).outcome
        ((k.withRegistry r).closeByCongruence close' depth' g).outcome := by
  intro c h
  rw [closeByCongruence] at h ⊢
  rw [perform_withRegistry r .congruence trivial]
  obtain ⟨result, hresult, h⟩ := Logged.outcome_bind_eq_ok.1 h
  rw [Logged.outcome_bind, hresult, Except.ok_bind]
  cases result with
  | error why => simp at h
  | ok subgoals =>
    obtain ⟨children, hchildren, h⟩ := Logged.outcome_bind_eq_ok.1 h
    obtain ⟨cs, rfl, rfl⟩ := Option.map_eq_some_iff.1 (Except.ok.inj h)
    obtain ⟨cs', hcs', hsame⟩ := refinds_closeAll hclose depth depth' subgoals cs hchildren
    refine ⟨.step Rule.congruence.call cs', ?_, fun h => by rw [hsame h]⟩
    simp [Logged.outcome_bind, hcs']

/-- **A deeper search with more deciders finds what was found**, and with the same deciders it finds
the same. -/
theorem refinds_searchWithin {n m : Nat} (hnm : n ≤ m) (g : Goal) :
    Refinds (r = k.registry) (k.searchWithin n g).outcome
      ((k.withRegistry r).searchWithin m g).outcome := by
  induction n generalizing m g with
  | zero =>
    intro c h
    obtain ⟨c', hc', hsame⟩ := refinds_closeDirectly hr g c h
    refine ⟨c', ?_, hsame⟩
    cases m with
    | zero => exact hc'
    | succ m =>
      rw [searchWithin, Logged.outcome_bind, hc']
      rfl
  | succ n ih =>
    intro c h
    obtain ⟨m, rfl⟩ : ∃ m', m = m' + 1 := ⟨m - 1, by omega⟩
    rw [searchWithin, Logged.outcome_bind]
    rw [searchWithin] at h
    obtain ⟨found, hfound, h⟩ := Logged.outcome_bind_eq_ok.1 h
    cases found with
    | some c₀ =>
      obtain rfl : c₀ = c := by simpa using h
      obtain ⟨c', hc', hsame⟩ := refinds_closeDirectly hr g c₀ hfound
      rw [hc']
      exact ⟨c', rfl, hsame⟩
    | none =>
      obtain ⟨found', hfound', -⟩ := closeDirectly_withRegistry hr hfound
      rw [hfound', Except.ok_bind]
      cases found' with
      | none => exact refinds_closeByCongruence (ih (Nat.le_of_succ_le_succ hnm)) _ _ c h
      | some c' =>
        -- congruence is not needed any more, as the goal is decided
        refine ⟨c', rfl, ?_⟩
        rintro rfl
        cases hfound'.symm.trans hfound

/-- A search of negative depth finds nothing, so the depths need no sign. -/
lemma refinds_search {depth depth' : Int} (hdepth : depth ≤ depth') (g : Goal) :
    Refinds (r = k.registry) (k.search g depth).outcome
      ((k.withRegistry r).search g depth').outcome := by
  intro c h
  rw [search] at h ⊢
  split at h
  · simp at h
  · rw [if_neg (by omega)]
    exact refinds_searchWithin hr (Int.toNat_le_toNat hdepth) g c h

end Deciders

end Kernel

/-! ### The work on a branch -/

namespace Attempt

variable {α β γ δ : Type} {k : Kernel} {r : Registry}

/-- Wherever the first piece of work succeeds, so does the second, with a related result and at the
same trail. -/
def Follows (R : α → β → Prop) (x : Attempt α) (y : Attempt β) : Prop :=
  ∀ t a, (x t).1.outcome = .ok a → ∃ b, (y t).1.outcome = .ok b ∧ (y t).2 = (x t).2 ∧ R a b

lemma follows_refl (x : Attempt α) : Follows Eq x x :=
  fun _ a h => ⟨a, h, rfl, rfl⟩

lemma follows_fail (R : α → β → Prop) (f : Fault) (y : Attempt β) : Follows R (fail f) y :=
  nofun

lemma follows_bind {R : α → β → Prop} {Q : γ → δ → Prop} {x : Attempt α} {y : Attempt β}
    {f : α → Attempt γ} {f' : β → Attempt δ} (hx : Follows R x y)
    (hf : ∀ a b, R a b → Follows Q (f a) (f' b)) : Follows Q (x >>= f) (y >>= f') := by
  intro t c hc
  have hxt := hx t
  change ∃ d, (Attempt.bind y f' t).1.outcome = .ok d ∧
    (Attempt.bind y f' t).2 = (Attempt.bind x f t).2 ∧ Q c d
  change (Attempt.bind x f t).1.outcome = .ok c at hc
  unfold Attempt.bind at hc ⊢
  generalize x t = p at hxt hc ⊢
  generalize y t = q at hxt ⊢
  obtain ⟨⟨outcome, log⟩, t'⟩ := p
  obtain ⟨⟨outcome', log'⟩, t''⟩ := q
  cases outcome with
  | error e => cases hc
  | ok a =>
    obtain ⟨b, hb, htrail, hR⟩ := hxt a rfl
    cases hb
    cases htrail
    exact hf a b hR t' c hc

/-- The same work first. -/
lemma follows_bind_same {Q : β → γ → Prop} (x : Attempt α) {f : α → Attempt β} {f' : α → Attempt γ}
    (hf : ∀ a, Follows Q (f a) (f' a)) : Follows Q (x >>= f) (x >>= f') :=
  follows_bind (follows_refl x) fun a _ h => h ▸ hf a

lemma follows_step (hr : k.registry.IncludedIn r) (rule : Rule) :
    Follows Eq (step k rule) (step (k.withRegistry r) rule) := by
  refine follows_bind_same goal fun g => follows_bind (R := Eq) ?_ fun gs _ h => h ▸ follows_refl _
  intro t gs hgs
  refine ⟨gs, ?_, rfl, rfl⟩
  change ((k.withRegistry r).perform g rule).outcome = .ok gs
  change (k.perform g rule).outcome = .ok gs at hgs
  rw [Kernel.outcome_perform] at hgs ⊢
  exact (Kernel.supersedes_run hr rule).eq_ok hgs

/-- **More steps simplify what fewer simplify**, and in the same way. -/
lemma follows_destructure (pf : Name) (limit limit' : Int) {steps steps' : Nat}
    (hsteps : steps ≤ steps') (pending : List Name) :
    Follows Eq (destructure k pf limit steps pending) (destructure k pf limit' steps' pending) := by
  induction steps generalizing steps' pending with
  | zero =>
    -- with no step left, all equations are gone
    cases steps' <;> rw [destructure, destructure] <;> refine follows_bind_same goal fun g => ?_ <;>
      cases g.remaining pending with
      | nil => exact follows_refl _
      | cons => exact follows_fail _ _ _
  | succ steps ih =>
    obtain ⟨steps', rfl⟩ : ∃ n, steps' = n + 1 := ⟨steps' - 1, by omega⟩
    rw [destructure, destructure]
    refine follows_bind_same goal fun g => ?_
    split
    · exact follows_refl _
    · refine follows_bind_same (simplify k pf _) fun result => ?_
      split
      · exact follows_refl _
      · exact ih (by omega) _

/-- **A branch that is closed is closed in the same way** within looser bounds and with more
deciders. -/
theorem follows_discharge (hr : k.registry.IncludedIn r) {bounds bounds' : Bounds}
    (hdepth : bounds.searchDepth ≤ bounds'.searchDepth)
    (hsteps : bounds.destructSteps ≤ bounds'.destructSteps) :
    Follows (fun a b => b.1 = a.1 ∧ (r = k.registry → b = a)) (discharge k bounds)
      (discharge (k.withRegistry r) bounds') := by
  rw [discharge, discharge, stepNormalize_withRegistry]
  refine follows_bind_same goal fun g => ?_
  dsimp only
  rw [destructure_withRegistry]
  refine follows_bind (follows_step hr _) fun _ _ _ => follows_bind_same _ fun _ => ?_
  refine follows_bind (follows_destructure _ _ _ (Int.toNat_le_toNat hsteps) _) ?_
  rintro contradiction _ rfl
  refine follows_bind_same _ fun _ => ?_
  cases contradiction with
  | some x => exact fun _ a ha => ⟨a, ha, rfl, rfl, fun _ => rfl⟩
  | none =>
    refine follows_bind (follows_step hr _) fun _ _ _ => follows_bind_same _ fun _ =>
      follows_bind_same goal fun g' => ?_
    intro t a ha
    have hsearch := Kernel.refinds_search hr hdepth g'
    generalize k.search g' bounds.searchDepth = x at ha hsearch
    generalize (k.withRegistry r).search g' bounds'.searchDepth = y at hsearch ⊢
    obtain ⟨_ | _ | proof, log⟩ := x
    · cases ha
    · cases ha
    · obtain rfl := Except.ok.inj ha
      obtain ⟨proof', hproof', hsame⟩ := hsearch proof rfl
      obtain ⟨_, log'⟩ := y
      cases hproof'
      exact ⟨(.discharged, proof'), rfl, rfl, rfl, fun h => by rw [hsame h]⟩

end Attempt

/-! ### Runs -/

/-- The second branch is of the same constructor.  If the first is not open, the second has its
status, and is the same branch under the condition. -/
structure Branch.KeptAs (same : Prop) (b b' : Branch) : Prop where
  ctor : b'.ctor = b.ctor
  status : b.status ≠ .leftOpen → b'.status = b.status
  eq : b.status ≠ .leftOpen → same → b' = b

namespace Kernel

variable {k : Kernel} {r : Registry} {goal : Goal} {bounds bounds' : Bounds}

/-- A run gives a result once the work on its branches does. -/
lemma upToDepth_solve_of_workOn {icount : Int} {c : Comparison} {curried : Term}
    {work : Logged (List (FamilyCtor × Option Goal))} {trail : Trail}
    {cases : List (FamilyCtor × Option Goal)} {P : List Branch → Prop}
    (hc : (k.comparison goal icount).outcome = .ok c)
    (hcurried : (c.motive goal.names).curried k.depth = .ok curried)
    (hprepare : k.prepare c (c.motive goal.names) curried { goal } = (work, trail))
    (hcases : work.outcome = .ok cases) (hwork : UpToDepth (k.workOn bounds cases).outcome P) :
    UpToDepth (k.solve goal icount bounds).outcome fun s => P s.branches := by
  simp only [solve, Kernel.motive, Logged.outcome_bind, Logged.outcome_liftM, Logged.outcome_note,
    Logged.outcome_pure, Logged.mapOutcome, Except.ok_bind, hc, hcurried,
    hprepare, hcases, refusalAs]
  exact hwork.bind fun bs _ hbs => .ok hbs

section Runs

variable (hr : k.registry.IncludedIn r) (hdepth : bounds.searchDepth ≤ bounds'.searchDepth)
  (hsteps : bounds.destructSteps ≤ bounds'.destructSteps)
include hr hdepth hsteps

lemma keptAs_of_branch {ctor : Name} {b b' : Branch}
    (h : (k.branch bounds ctor goal).outcome = .ok b)
    (h' : ((k.withRegistry r).branch bounds' ctor goal).outcome = .ok b') :
    b.KeptAs (r = k.registry) b' := by
  have hctor : b'.ctor = b.ctor := (holes_of_branch h').1.trans (holes_of_branch h).1.symm
  suffices hclosed : b.status ≠ .leftOpen → b'.status = b.status ∧ (r = k.registry → b' = b) from
    ⟨hctor, fun hb => (hclosed hb).1, fun hb => (hclosed hb).2⟩
  intro hb
  have hfollows := Attempt.follows_discharge hr hdepth hsteps { goal }
  rcases hwork : Attempt.discharge k bounds { goal } with ⟨⟨outcome, log⟩, trail⟩
  rcases hwork' :
    Attempt.discharge (k.withRegistry r) bounds' { goal } with ⟨⟨outcome', log'⟩, trail'⟩
  rw [hwork, hwork'] at hfollows
  simp only [branch, hwork] at h
  simp only [branch, hwork'] at h'
  cases outcome with
  | ok p =>
    obtain ⟨how, tail⟩ := p
    obtain ⟨⟨how', tail'⟩, houtcome, htrail, hhow, hsame⟩ := hfollows _ rfl
    obtain rfl : Branch.mk ctor (.closed how (trail.finish tail)) trail.destructed = b := by
      simpa [conclude] using h
    cases houtcome
    cases htrail
    cases hhow
    obtain rfl : Branch.mk ctor (.closed how (trail.finish tail')) trail.destructed = b' := by
      simpa [conclude] using h'
    refine ⟨rfl, fun hregistry => ?_⟩
    cases hsame hregistry
    rfl
  | error f =>
    -- work that fails leaves the branch open
    simp only [conclude] at h
    split at h
    · simp at h
    · obtain rfl := Except.ok.inj h
      exact absurd rfl hb

lemma keptAs_of_workOn {cases : List (FamilyCtor × Option Goal)} {bs bs' : List Branch}
    (h : (k.workOn bounds cases).outcome = .ok bs)
    (h' : ((k.withRegistry r).workOn bounds' cases).outcome = .ok bs') :
    List.Forall₂ (Branch.KeptAs (r = k.registry)) bs bs' := by
  have hbs := workOn_eq_ok h
  have hbs' := workOn_eq_ok h'
  clear h h'
  induction hbs generalizing bs' with
  | nil =>
    cases hbs'
    exact .nil
  | cons hb _ ih =>
    cases hbs' with
    | cons hb' hrest' =>
      refine .cons ?_ (ih hrest')
      rcases hb with ⟨hnone, rfl⟩ | ⟨g, hg, hb⟩
      · rcases hb' with ⟨-, rfl⟩ | ⟨g', hg', -⟩
        · exact ⟨rfl, fun _ => rfl, fun _ _ => rfl⟩
        · cases hnone.symm.trans hg'
      · rcases hb' with ⟨hnone', -⟩ | ⟨g', hg', hb'⟩
        · cases hnone'.symm.trans hg
        · cases hg.symm.trans hg'
          exact keptAs_of_branch hr hdepth hsteps hb hb'

/-- **A run that gives a result gives one again** within looser bounds and with more deciders, as
far as the depth goes, and its closed branches stay closed in the same way. -/
theorem upToDepth_solve_keptAs {icount : Int} {s : Solution}
    (h : (k.solve goal icount bounds).outcome = .ok s) :
    UpToDepth ((k.withRegistry r).solve goal icount bounds').outcome fun s' =>
      List.Forall₂ (Branch.KeptAs (r = k.registry)) s.branches s'.branches := by
  obtain ⟨hc, hmotive, hcurried, work, trail, cases, hprepare, hcases, hbs, -⟩ := solve_eq_ok h
  rw [hmotive] at hcurried hprepare
  have hawaits := awaits_of_prepare persists_true trivial hcurried hprepare hcases
  have hwork := upToDepth_workOn (k := k.withRegistry r) bounds' hawaits
  rw [← (agrees_withRegistry r).comparison_eq] at hc
  rw [← prepare_withRegistry r] at hprepare
  refine upToDepth_solve_of_workOn hc hcurried hprepare hcases (hwork.imp fun bs' hbs' _ => ?_)
  exact keptAs_of_workOn hr hdepth hsteps hbs hbs'

end Runs

/-- **Looser bounds never hurt.**  Whatever the declarations, the deciders and the goal are, a run
that gives a result gives one again if the search may go deeper and more equations may be
simplified, unless a normal form is not found within the depth.  There is a branch for each of its
branches, of the same constructor, and a branch that was discharged or contradicted is the same,
with its status, its certificate and what is said of its index equation. -/
theorem kept_of_looser_bounds (k : Kernel) (goal : Goal) (icount : Int) (bounds bounds' : Bounds)
    (hdepth : bounds.searchDepth ≤ bounds'.searchDepth)
    (hsteps : bounds.destructSteps ≤ bounds'.destructSteps) (s : Solution)
    (h : (k.solve goal icount bounds).outcome = .ok s) :
    UpToDepth (k.solve goal icount bounds').outcome fun s' =>
      List.Forall₂ (fun b b' => b'.ctor = b.ctor ∧ (b.status ≠ .leftOpen → b' = b))
        s.branches s'.branches := by
  refine (upToDepth_solve_keptAs (r := k.registry) (fun _ _ h => h) hdepth hsteps h).imp
    fun s' _ hkept => ?_
  exact hkept.imp fun b b' hb => ⟨hb.ctor, fun hclosed => hb.eq hclosed rfl⟩

/-- Two steps are enough for the contradiction in the first branch of the sample goal, and not for
the second branch.  With more steps the first branch is the same. -/
theorem kept_of_looser_bounds_sample :
    ∃ s, ((Sample.kernel Sample.registry).solve Sample.goal 1 ⟨0, 2⟩).outcome = .ok s ∧
      s.branches.map Branch.status = [.contradicted, .leftOpen] ∧
      UpToDepth ((Sample.kernel Sample.registry).solve Sample.goal 1 ⟨1, 64⟩).outcome fun s' =>
        List.Forall₂ (fun b b' => b'.ctor = b.ctor ∧ (b.status ≠ .leftOpen → b' = b))
          s.branches s'.branches := by
  have hrun : ((Sample.kernel Sample.registry).solve Sample.goal 1 ⟨0, 2⟩).outcome.toOption.map
      (fun s => s.branches.map Branch.status) = some [.contradicted, .leftOpen] := by decide +kernel
  obtain ⟨s, hs, hstatus⟩ := Option.map_eq_some_iff.1 hrun
  rw [Except.toOption_eq_some] at hs
  exact ⟨s, hs, hstatus, kept_of_looser_bounds _ _ _ _ _ (by decide) (by decide) s hs⟩

end Kernel

/-! ### Registered deciders -/

namespace Registry

variable {r r' : Registry} {key : Term} {d : Decider}

/-- A type without a decider can be registered. -/
lemma register?_of_find? (h : r.find? key = none) :
    r.register? key d = some { r with facts := r.facts ++ [(key, d)] } := by
  rw [find?.eq_def, Option.orElse_eq_orElse, Option.orElse_eq_or, Option.or_eq_none_iff] at h
  rw [register?, h.1]
  rfl

lemma fact?_append (ty : Term) :
    fact? { r with facts := r.facts ++ [(key, d)] } ty = (r.fact? ty).or (if key = ty then
      some d else none) := by
  rw [fact?, List.findSome?_append]
  simp [fact?]

/-- The registered type has the decider. -/
lemma find?_of_register? (h : r.register? key d = some r') : r'.find? key = some d := by
  rw [register?] at h
  split at h
  · cases h
  · rename_i hfact
    obtain rfl := Option.some.inj h
    rw [find?.eq_def, fact?_append, Option.not_isSome_iff_eq_none.1 hfact, if_pos rfl]
    rfl

/-- **A registered fact takes no decider away.**  Facts come before the rules, but the type of this
one had no decider. -/
theorem includedIn_of_register? (hrules : ∀ rule ∈ r.rules, rule = .pairs)
    (hnone : r.find? key = none) (h : r.register? key d = some r') : r.IncludedIn r' := by
  obtain rfl := Option.some.inj ((register?_of_find? hnone).symm.trans h)
  set r' : Registry := { r with facts := r.facts ++ [(key, d)] } with hr'
  have hkept : ∀ ty d', (∀ c, r.componentwise? ty = some c → r'.componentwise? ty = some c) →
      r.find? ty = some d' → r'.find? ty = some d' := by
    intro ty d' hcomponents hd'
    have hne : key ≠ ty := by
      rintro rfl
      cases hnone.symm.trans hd'
    rw [find?_eq_or hrules, Option.or_eq_some_iff] at hd'
    rw [find?_eq_or (r := r') hrules, hr', fact?_append, if_neg hne, Option.or_none,
      Option.or_eq_some_iff]
    refine hd'.imp_right fun ⟨hfact, hrule⟩ => ⟨hfact, ?_⟩
    split at hrule
    · cases hrule
    · rename_i hrules
      rw [if_neg hrules]
      exact hcomponents d' hrule
  intro ty
  induction ty with
  | prod a b iha ihb =>
    refine fun d' => hkept _ d' fun c hc => ?_
    simp only [componentwise?, bind, Option.bind_eq_some_iff, pure, Option.some.injEq] at hc ⊢
    obtain ⟨left, hleft, right, hright, rfl⟩ := hc
    exact ⟨left, iha left hleft, right, ihb right hright, rfl⟩
  | _ => exact fun d' => hkept _ d' fun c hc => by cases hc

end Registry

namespace Kernel

/-- **A new decider never undoes a proof.**  Let a registry have no rule but the one for pairs, and
let it have no decider for a type.  Then one can be registered for this type.  Every type that had a
decider keeps it, and whatever the declarations, the goal and the bounds are, a run that gives a
result gives one again, unless a normal form is not found within the depth: its discharged branches
stay discharged, and its contradicted ones contradicted. -/
theorem kept_of_register (r : Registry) (hrules : ∀ rule ∈ r.rules, rule = .pairs) (ty key : Term)
    (n : Nat) (hkey : ty.normalize n = some key) (hnone : r.lookup? n ty = some none)
    (d : Decider) : ∃ r', r.register? key d = some r' ∧ r'.lookup? n ty = some (some d) ∧
      (∀ depth ty' d', r.lookup? depth ty' = some (some d') →
        r'.lookup? depth ty' = some (some d')) ∧
      ∀ (env : Environment) (depth : Nat) (goal : Goal) (icount : Int)
        (bounds : Bounds) (s : Solution),
        (solve ⟨env, r, depth⟩ goal icount bounds).outcome = .ok s →
        UpToDepth (solve ⟨env, r', depth⟩ goal icount bounds).outcome fun s' =>
          List.Forall₂ (fun b b' => b'.ctor = b.ctor ∧
            (b.status = .discharged → b'.status = .discharged) ∧
            (b.status = .contradicted → b'.status = .contradicted)) s.branches s'.branches := by
  have hfind : r.find? key = none := by simpa [Registry.lookup?, hkey] using hnone
  have hregister := Registry.register?_of_find? (d := d) hfind
  have hincluded := Registry.includedIn_of_register? hrules hfind hregister
  refine ⟨_, hregister, ?_, fun depth ty' d' hd' => ?_, fun env depth goal icount bounds s hs => ?_⟩
  · exact Option.map_eq_some_iff.2 ⟨key, hkey, Registry.find?_of_register? hregister⟩
  · obtain ⟨key', hkey', hd'⟩ := Option.map_eq_some_iff.1 hd'
    exact Option.map_eq_some_iff.2 ⟨key', hkey', hincluded key' d' hd'⟩
  · refine (upToDepth_solve_keptAs hincluded (Int.le_refl _) (Int.le_refl _) hs).imp
      fun s' _ hkept => ?_
    refine hkept.imp fun b b' hb => ⟨hb.ctor, fun hstatus => ?_, fun hstatus => ?_⟩
    · rw [hb.status (by simp [hstatus]), hstatus]
    · rw [hb.status (by simp [hstatus]), hstatus]

/-- The sample goal is proved with a decider for trees.  A decider for the evidence of a leaf leaves
both branches closed. -/
theorem kept_of_register_sample :
    ∃ r' s, Sample.registry.register? (.app (.const "S") (.const "sunit"))
      (.structural "S") = some r' ∧
      ((Sample.kernel Sample.registry).solve Sample.goal 1 {}).outcome = .ok s ∧
      s.branches.map Branch.status = [.contradicted, .discharged] ∧
      UpToDepth ((Sample.kernel r').solve Sample.goal 1 {}).outcome fun s' =>
        List.Forall₂ (fun b b' => b'.ctor = b.ctor ∧
          (b.status = .discharged → b'.status = .discharged) ∧
          (b.status = .contradicted → b'.status = .contradicted)) s.branches s'.branches := by
  have hrun : ((Sample.kernel Sample.registry).solve Sample.goal 1 {}).outcome.toOption.map
      (fun s => s.branches.map Branch.status) = some [.contradicted, .discharged] := by
        decide +kernel
  have hkey : (Term.app (.const "S") (.const "sunit")).normalize 40 =
      some (.app (.const "S") (.const "sunit")) := by
    decide +kernel
  have hnone : Sample.registry.lookup? 40 (.app (.const "S") (.const "sunit")) = some none := by
    rw [Registry.lookup?, hkey]
    rfl
  obtain ⟨r', hregister, -, -, hkept⟩ := kept_of_register Sample.registry
    (fun _ h => List.mem_singleton.1 h)
    (.app (.const "S") (.const "sunit")) _ 40 hkey hnone (.structural "S")
  obtain ⟨s, hs, hstatus⟩ := Option.map_eq_some_iff.1 hrun
  rw [Except.toOption_eq_some] at hs
  exact ⟨r', s, hregister, hs, hstatus, hkept _ _ _ _ _ s hs⟩

end Kernel

end UniqueEvidence
