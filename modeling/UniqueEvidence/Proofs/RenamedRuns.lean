/-
Work on branches whose goals are alike.

* `Kernel.concur_search`: **the search finds a proof of both goals or of neither**;
* `Attempt.Concurs`: work along two trails ends alike, and agrees on whether the index equation is
  simplified;
* `InStep`: what the simplification of the index equation maintains: the goals are alike under a
  renaming that takes the pending equations of one to those of the other, and no hypothesis mentions
  them;
* `Attempt.concurs_simplify`, `Attempt.concurs_destructure`: **index equations are simplified in
  step**;
* `Branch.verdict`, `Kernel.concur_branch`: **the verdict on a branch does not depend on the names
  of its hypotheses**.
-/
import UniqueEvidence.Proofs.RenamedRules

namespace UniqueEvidence

open Nameless

variable {σ : Equiv.Perm Name} {k k' : Kernel} {g g' : Goal}

/-! ### Search -/

/-- A rule that the search closes a goal with. -/
def Rule.IsCloser (rule : Rule) : Prop :=
  rule = .reflexivity ∨ (∃ x, rule = .assumption x) ∨ rule = .decide

namespace Rule.IsCloser

lemma of_mem {rule : Rule} (h : rule ∈ g.closers) : rule.IsCloser := by
  simp only [Goal.closers, List.cons_append, List.mem_cons, List.mem_append, List.mem_map,
    List.not_mem_nil, or_false] at h
  obtain h | ⟨b, -, rfl⟩ | h := h
  · exact .inl h
  · exact .inr (.inl ⟨b.name, rfl⟩)
  · exact .inr (.inr h)

variable {rule : Rule} (h : rule.IsCloser)
include h

lemma isTermless : rule.IsTermless := by
  obtain rfl | ⟨x, rfl⟩ | rfl := h <;> trivial

lemma rename (σ : Equiv.Perm Name) : (rule.rename σ).IsCloser := by
  obtain rfl | ⟨x, rfl⟩ | rfl := h
  · exact .inl rfl
  · exact .inr (.inl ⟨σ x, rfl⟩)
  · exact .inr (.inr rfl)

lemma ends : Ends (k.run g rule) (fun _ => True) Fault.IsRefusal := by
  obtain rfl | ⟨x, rfl⟩ | rfl := h
  · exact Kernel.spares_reflexivity.ends_isRefusal
  · exact (Kernel.spares_assumption x).ends_isRefusal
  · exact Kernel.ends_decide

end Rule.IsCloser

namespace Kernel

lemma concur_closeAll {close close' : Goal → Logged (Option Certificate)}
    (hclose : ∀ {g g' : Goal}, g.Alike σ g' →
      Concur (fun c c' => c.isSome = c'.isSome) (close g).outcome (close' g').outcome) (depth : Nat)
    {gs gs' : List Goal} (hgs : List.Forall₂ (Goal.Alike σ) gs gs') :
    Concur (fun c c' => c.isSome = c'.isSome) (closeAll close depth gs).outcome
      (closeAll close' depth gs').outcome := by
  induction hgs with
  | nil => exact .ok rfl
  | cons hg _ ih =>
    rw [closeAll, closeAll, Logged.outcome_bind, Logged.outcome_bind]
    refine (hclose hg).bind fun c c' hc => ?_
    cases c <;> cases c' <;> cases hc
    · exact .ok rfl
    · dsimp only
      rw [Logged.outcome_bind, Logged.outcome_bind]
      exact ih.bind fun cs cs' hcs => .ok (by rw [Option.isSome_map, Option.isSome_map, hcs])

section Search

variable (hk : k.Matches k')
include hk

/-- Rules that are tried give alike subgoals, or are both refused. -/
lemma concur_attempt (h : g.Alike σ g') (rule : Rule) (hrule : rule.IsTermless)
    (hends : Ends (k.run g rule) (fun _ => True) Fault.IsRefusal)
    (hends' : Ends (k'.run g' (rule.rename σ)) (fun _ => True) Fault.IsRefusal) :
    Concur (fun r r' => (∃ gs gs', r = .ok gs ∧ r' = .ok gs' ∧ List.Forall₂ (Goal.Alike σ) gs gs') ∨
        ∃ why why', r = .error why ∧ r' = .error why')
      (k.perform g rule).attempt.outcome (k'.perform g' (rule.rename σ)).attempt.outcome := by
  have hok := fun gs (hgs : k.run g rule = .ok gs) => upToDepth_run_of_alike hk h hrule hgs
  have hok' := fun gs' (hgs' : k'.run g' (rule.rename σ) = .ok gs') =>
    upToDepth_run_of_rename hk h hrule hgs'
  rw [← outcome_perform] at hends hends'
  simp only [← outcome_perform] at hok hok'
  generalize k.perform g rule = x at *
  generalize k'.perform g' (rule.rename σ) = y at *
  obtain ⟨f | gs, log⟩ := x
  · obtain rfl | ⟨why, rfl⟩ := hends.2 f rfl
    · exact .left
    · obtain ⟨f' | gs', log'⟩ := y
      · obtain rfl | ⟨why', rfl⟩ := hends'.2 f' rfl
        · exact .right
        · exact .ok (.inr ⟨why, why', rfl, rfl⟩)
      · obtain hback | ⟨_, hback, -⟩ := hok' gs' rfl <;> cases hback
  · obtain hy | ⟨gs', hy, hgs⟩ := hok gs rfl
    · obtain ⟨_, log'⟩ := y
      cases hy
      exact .right
    · obtain ⟨_, log'⟩ := y
      cases hy
      exact .ok (.inl ⟨gs, gs', rfl, rfl, hgs⟩)

lemma concur_firstClosing (h : g.Alike σ g') {rules : List Rule}
    (hrules : ∀ rule ∈ rules, rule.IsCloser) :
    Concur (fun c c' => c.isSome = c'.isSome) (k.firstClosing g rules).outcome
      (k'.firstClosing g' (rules.map (Rule.rename σ))).outcome := by
  induction rules with
  | nil => exact .ok rfl
  | cons rule rest ih =>
    have hrule := hrules rule List.mem_cons_self
    rw [List.map_cons, firstClosing, firstClosing, Logged.outcome_bind, Logged.outcome_bind]
    refine (concur_attempt hk h rule hrule.isTermless hrule.ends (hrule.rename σ).ends).bind ?_
    have hrest := ih fun rule' hrule' => hrules rule' (List.mem_cons_of_mem _ hrule')
    rintro _ _ (⟨gs, gs', rfl, rfl, hgs⟩ | ⟨why, why', rfl, rfl⟩)
    · cases hgs with
      | nil => exact .ok rfl
      | cons => exact hrest
    · exact hrest

lemma concur_closeDirectly (h : g.Alike σ g') :
    Concur (fun c c' => c.isSome = c'.isSome) (k.closeDirectly g).outcome
      (k'.closeDirectly g').outcome := by
  have hassumptions : ∀ {g g' : Goal}, g.Alike σ g' →
      (g'.hyps.map fun b => Rule.assumption b.name) =
      (g.hyps.map fun b => Rule.assumption b.name).map (Rule.rename σ) := by
    intro g g' h
    have hnames := congrArg (List.map Rule.assumption) h.names
    simpa [Goal.names, Binding.names, Function.comp_def, Rule.rename] using hnames
  have hclosers : g'.closers = g.closers.map (Rule.rename σ) := by
    rw [Goal.closers, Goal.closers, hassumptions h]
    simp [Rule.rename]
  rw [closeDirectly, closeDirectly, Logged.outcome_bind, Logged.outcome_bind, hclosers]
  refine (concur_firstClosing hk h fun rule => Rule.IsCloser.of_mem).bind fun c c' hc => ?_
  cases c <;> cases c' <;> cases hc
  · rw [closeFlipped, closeFlipped, Logged.outcome_bind, Logged.outcome_bind]
    refine (concur_attempt hk h .symmetry trivial spares_symmetry.ends_isRefusal
      spares_symmetry.ends_isRefusal).bind ?_
    rintro _ _ (⟨gs, gs', rfl, rfl, hgs⟩ | ⟨why, why', rfl, rfl⟩)
    · cases hgs with
      | nil => exact .ok rfl
      | cons hflipped hrest =>
        cases hrest with
        | cons => exact .ok rfl
        | nil =>
          dsimp only
          rw [Logged.outcome_bind, Logged.outcome_bind, hassumptions hflipped]
          refine (concur_firstClosing hk hflipped fun rule hrule => ?_).bind fun c c' hc => .ok ?_
          · obtain ⟨b, -, rfl⟩ := List.mem_map.1 hrule
            exact .inr (.inl ⟨b.name, rfl⟩)
          · rw [Option.isSome_map, Option.isSome_map, hc]
    · exact .ok rfl
  · exact .ok rfl

lemma concur_searchWithin (h : g.Alike σ g') (depth : Nat) :
    Concur (fun c c' => c.isSome = c'.isSome) (k.searchWithin depth g).outcome
      (k'.searchWithin depth g').outcome := by
  induction depth generalizing g g' with
  | zero => exact concur_closeDirectly hk h
  | succ depth ih =>
    rw [searchWithin, searchWithin, Logged.outcome_bind, Logged.outcome_bind]
    refine (concur_closeDirectly hk h).bind fun c c' hc => ?_
    cases c <;> cases c' <;> cases hc
    · rw [closeByCongruence, closeByCongruence, Logged.outcome_bind, Logged.outcome_bind]
      refine (concur_attempt hk h .congruence trivial spares_congruence.ends_isRefusal
        spares_congruence.ends_isRefusal).bind ?_
      rintro _ _ (⟨gs, gs', rfl, rfl, hgs⟩ | ⟨why, why', rfl, rfl⟩)
      · dsimp only
        rw [Logged.outcome_bind, Logged.outcome_bind]
        exact (concur_closeAll ih _ hgs).bind fun cs cs' hcs =>
          .ok (by rw [Option.isSome_map, Option.isSome_map, hcs])
      · exact .ok rfl
    · exact .ok rfl

/-- **The search finds a proof of both goals or of neither.** -/
theorem concur_search (h : g.Alike σ g') (depth : Int) :
    Concur (fun c c' => c.isSome = c'.isSome) (k.search g depth).outcome
      (k'.search g' depth).outcome := by
  rw [search, search]
  split
  · exact .ok rfl
  · exact concur_searchWithin hk h _

end Search

end Kernel

/-! ### Work along two trails -/

namespace Attempt

variable {α β γ δ : Type}

/-- Started at the two goals, the work on either ends alike, and marks the index equation as
simplified on both trails or on neither. -/
def Concurs (g g' : Goal) (x : Attempt α) (y : Attempt β) (Q : α → β → Goal → Goal → Prop) : Prop :=
  ∀ t t' : Trail, t.goal = g → t'.goal = g' → t.destructed = t'.destructed →
    Concur (fun a b => Q a b (x t).2.goal (y t').2.goal) (x t).1.outcome (y t').1.outcome ∧
      ((x t).1.outcome = .error .exhausted ∨ (y t').1.outcome = .error .exhausted ∨
        (x t).2.destructed = (y t').2.destructed)

variable {Q : α → β → Goal → Goal → Prop}

lemma concurs_pure {a : α} {b : β} (h : Q a b g g') : Concurs g g' (pure a) (pure b) Q := by
  rintro t t' rfl rfl hdestructed
  exact ⟨.ok h, .inr (.inr hdestructed)⟩

lemma concurs_fail {f f' : Fault} (h : f.reason? = f'.reason?) :
    Concurs g g' (fail f) (fail f') Q := by
  rintro t t' - - hdestructed
  exact ⟨.error h, .inr (.inr hdestructed)⟩

lemma concurs_bind {x : Attempt α} {y : Attempt β} {R : α → β → Goal → Goal → Prop}
    {f : α → Attempt γ} {f' : β → Attempt δ} {Q : γ → δ → Goal → Goal → Prop}
    (hxy : Concurs g g' x y R) (hf : ∀ a b h h', R a b h h' → Concurs h h' (f a) (f' b) Q) :
    Concurs g g' (x >>= f) (y >>= f') Q := by
  intro t t' ht ht' hdestructed
  obtain ⟨hconcur, hmarks⟩ := hxy t t' ht ht' hdestructed
  change Concur (fun c d => Q c d (Attempt.bind x f t).2.goal (Attempt.bind y f' t').2.goal)
    (Attempt.bind x f t).1.outcome
    (Attempt.bind y f' t').1.outcome ∧
      ((Attempt.bind x f t).1.outcome = _ ∨ (Attempt.bind y f' t').1.outcome = _ ∨
    (Attempt.bind x f t).2.destructed = (Attempt.bind y f' t').2.destructed)
  unfold Attempt.bind
  rcases hx : x t with ⟨⟨outcome, log⟩, u⟩
  rcases hy : y t' with ⟨⟨outcome', log'⟩, u'⟩
  rw [hx, hy] at hconcur hmarks
  cases hconcur with
  | ok hR =>
    have hmarked : u.destructed = u'.destructed := by simpa using hmarks
    exact hf _ _ _ _ hR u u' rfl rfl hmarked
  | error hreason =>
    refine ⟨.error hreason, ?_⟩
    obtain h | h | h := hmarks
    · cases h
      exact .inl rfl
    · cases h
      exact .inr (.inl rfl)
    · exact .inr (.inr h)
  | left => exact ⟨.left, .inl rfl⟩
  | right => exact ⟨.right, .inr (.inl rfl)⟩

lemma concurs_mono {x : Attempt α} {y : Attempt β} {R : α → β → Goal → Goal → Prop}
    (hxy : Concurs g g' x y R) (hRQ : ∀ a b h h', R a b h h' → Q a b h h') :
    Concurs g g' x y Q := by
  intro t t' ht ht' hdestructed
  obtain ⟨hconcur, hmarks⟩ := hxy t t' ht ht' hdestructed
  exact ⟨hconcur.imp fun a b _ _ => hRQ a b _ _, hmarks⟩

lemma concurs_goal {f : Goal → Attempt α} {f' : Goal → Attempt β}
    (h : Concurs g g' (f g) (f' g') Q) : Concurs g g' (goal >>= f) (goal >>= f') Q := by
  refine concurs_bind (R := fun a b h h' => a = g ∧ b = g' ∧ h = g ∧ h' = g') ?_ ?_
  · rintro t t' rfl rfl hdestructed
    exact ⟨.ok ⟨rfl, rfl, rfl, rfl⟩, .inr (.inr hdestructed)⟩
  · rintro _ _ _ _ ⟨rfl, rfl, rfl, rfl⟩
    exact h

/-- A computation that leaves the trails alone. -/
lemma concurs_liftM {x : Logged α} {y : Logged β} {R : α → β → Prop}
    (h : Concur R x.outcome y.outcome) :
    Concurs g g' (liftM x) (liftM y) fun a b h h' => (h = g ∧ h' = g') ∧ R a b := by
  rintro t t' rfl rfl hdestructed
  exact ⟨h.imp fun _ _ _ _ hR => ⟨⟨rfl, rfl⟩, hR⟩, .inr (.inr hdestructed)⟩

lemma concurs_markDestructed {f : Attempt α} {f' : Attempt β} (h : Concurs g g' f f' Q) :
    Concurs g g' (markDestructed >>= fun _ => f) (markDestructed >>= fun _ => f') Q := by
  refine concurs_bind (R := fun _ _ h h' => h = g ∧ h' = g') ?_ ?_
  · rintro t t' rfl rfl -
    exact ⟨.ok ⟨rfl, rfl⟩, .inr (.inr rfl)⟩
  · rintro _ _ _ _ ⟨rfl, rfl⟩
    exact h

/-- A step on both sides, by rules that concur. -/
lemma concurs_step {rule rule' : Rule} {R : Goal → Goal → Prop}
    (h : Concur (List.Forall₂ R) (k.run g rule) (k'.run g' rule')) :
    Concurs g g' (step k rule) (step k' rule') fun _ _ => R := by
  refine concurs_goal (concurs_bind (concurs_liftM (R := List.Forall₂ R) ?_) ?_)
  · rwa [Kernel.outcome_perform, Kernel.outcome_perform]
  · rintro gs gs' _ _ ⟨⟨rfl, rfl⟩, hgs⟩
    cases hgs with
    | nil => exact concurs_fail rfl
    | cons hg hrest =>
      cases hrest with
      | nil =>
        rintro t t' - - hdestructed
        exact ⟨.ok hg, .inr (.inr hdestructed)⟩
      | cons => exact concurs_fail rfl

end Attempt

/-! ### Pending equations -/

/-- The pending equations are hypotheses, and no hypothesis mentions them or the proof that is kept.
So none of them is ever eliminated as a variable. -/
structure Goal.Queues (g : Goal) (pf : Name) (pending : List Name) : Prop where
  isScoped : g.Scoped
  listed : pending ⊆ g.names
  distinct : pending.Nodup
  unmentioned : ∀ b ∈ g.hyps, ∀ x ∈ pf :: pending, x ∉ b.ty.freeVars

namespace Goal.Queues

variable {g₁ : Goal} {gs : List Goal} {pf x y : Name} {rest : List Name}

/-- The equation that a hypothesis states mentions no pending one. -/
lemma equation {pending : List Name} (h : g.Queues pf pending) {e : Equation}
    (he : k.equation g x = .ok e) : ∀ y ∈ pf :: pending, y ∉ e.toTerm.freeVars := by
  intro y hy hmem
  obtain ⟨ty, hty, hnormal⟩ := Kernel.equation_eq_ok he
  exact h.unmentioned ⟨x, ty⟩ (Context.mem_of_lookup? hty) y hy
    (Kernel.mem_freeVars_of_normalize hnormal hmem)

/-- A pending equation may be left out. -/
lemma of_subset {pending pending' : List Name} (h : g.Queues pf pending) (hg₁ : g₁.Scoped)
    (hhyps : g₁.hyps ⊆ g.hyps) (hpending : pending'.Sublist pending)
    (hlisted : pending' ⊆ g₁.names) : g₁.Queues pf pending' :=
  ⟨hg₁, hlisted, h.distinct.sublist hpending, fun b hb y hy => h.unmentioned b (hhyps hb) y
    (List.cons_subset_cons _ hpending.subset hy)⟩

lemma tail (h : g.Queues pf (x :: rest)) : g.Queues pf rest :=
  h.of_subset h.isScoped (List.Subset.refl _) (List.sublist_cons_self x rest) fun _ hy =>
    h.listed (List.mem_cons_of_mem _ hy)

variable (h : g.Queues pf (x :: rest))
include h

lemma ne_of_mem (hy : y ∈ rest) : y ≠ x :=
  fun heq => (List.nodup_cons.1 h.distinct).1 (heq ▸ hy)

lemma clear (hgs : Kernel.clear g x = .ok gs) (hg₁ : g₁ ∈ gs) : g₁.Queues pf rest := by
  have hscoped := Kernel.clear_scoped h.isScoped hgs hg₁
  obtain ⟨-, -, rfl⟩ := Kernel.clear_eq_ok hgs
  obtain rfl := List.mem_singleton.1 hg₁
  refine h.of_subset hscoped (List.filter_subset_self _)
    (List.sublist_cons_self x rest) fun y hy => ?_
  exact Goal.Scoped.mem_without (h.listed (List.mem_cons_of_mem _ hy)) (h.ne_of_mem hy)

/-- The equations that one splits into are pending after the others. -/
lemma injection (henv : k.env.TakesClosed) {names : List Name}
    (hgs : k.injection g x names = .ok gs) (hg₁ : g₁ ∈ gs) :
    g₁.Queues pf (x :: (rest ++ names)) := by
  have hscoped := Kernel.injectionAs_scoped h.isScoped henv hgs hg₁
  obtain ⟨e, parts, he, hsplits, hlen, hnodup, hnew, rfl⟩ := Kernel.injectionAs_eq_ok hgs
  obtain rfl := List.mem_singleton.1 hg₁
  have hover := h.isScoped.equation he
  refine ⟨hscoped, fun y hy => ?_, ?_, fun b hb y hy => ?_⟩
  · rw [Goal.names, Binding.names, List.map_append, ← Binding.names, ← Binding.names,
      names_zipWith hlen, List.mem_append]
    rw [← List.cons_append] at hy
    exact (List.mem_append.1 hy).imp (fun hy => h.listed hy) id
  · rw [← List.cons_append]
    refine List.nodup_append.2 ⟨h.distinct, hnodup, ?_⟩
    rintro y hy z hz rfl
    exact hnew y hz (h.listed hy)
  · -- the types are over the hypotheses there were, and mention none that was pending
    have hty : b.ty.freeVars ⊆ g.names ∧ ∀ y ∈ pf :: x :: rest, y ∉ b.ty.freeVars := by
      rcases List.mem_append.1 hb with hb | hb
      · exact ⟨fun _ hz => h.isScoped.arranged.mem_names hb hz, h.unmentioned b hb⟩
      · have hpart := hsplits.mem_freeVars henv (mem_of_zipWith hb).2
        exact ⟨fun z hz => (hover z (hpart z hz)).1,
          fun z hz hzb => h.equation he z hz (hpart z hzb)⟩
    rw [← List.cons_append, ← List.cons_append] at hy
    rcases List.mem_append.1 hy with hy | hy
    · exact hty.2 y hy
    · exact fun hyb => hnew y hy (hty.1 hyb)

lemma subst (hgs : k.eliminate g x y = .ok gs) (hg₁ : g₁ ∈ gs) : g₁.Queues pf rest := by
  have hscoped := Kernel.eliminate_scoped h.isScoped hgs hg₁
  obtain ⟨e, v, hyps, he, hv, -, -, -, -, -, hreorder, rfl⟩ := Kernel.eliminate_eq_ok hgs
  obtain rfl := List.mem_singleton.1 hg₁
  have hperm := (reorder_spec hreorder).1
  -- the equation mentions both the variable and its value
  have hside : y ∈ e.toTerm.freeVars ∧ v.freeVars ⊆ e.toTerm.freeVars := by
    obtain ⟨hy, rfl⟩ | ⟨hy, rfl⟩ := Kernel.solvedFor_eq_some hv
    · exact ⟨by simp [Equation.toTerm, Term.freeVars, hy],
        fun z hz => by simp [Equation.toTerm, Term.freeVars, hz]⟩
    · exact ⟨by simp [Equation.toTerm, Term.freeVars, hy],
        fun z hz => by simp [Equation.toTerm, Term.freeVars, hz]⟩
  refine ⟨hscoped, fun z hz => ?_, h.tail.distinct, fun b hb z hz => ?_⟩
  · obtain ⟨b, hb, rfl⟩ := List.mem_map.1 (h.listed (List.mem_cons_of_mem _ hz))
    have hne : b.name ≠ y :=
      fun heq => h.equation he y (heq ▸ List.mem_cons_of_mem _ (List.mem_cons_of_mem _ hz)) hside.1
    exact List.mem_map.2 ⟨_, hperm.mem_iff.2 (mem_replaced hb hne (h.ne_of_mem hz)), rfl⟩
  · obtain ⟨b', hb', rfl⟩ := List.mem_map.1 (hperm.mem_iff.1 hb)
    have hz' : z ∈ pf :: x :: rest := List.cons_subset_cons _ (List.subset_cons_self x rest) hz
    intro hmem
    rcases mem_freeVars_subst hmem with ⟨hmem, -⟩ | hmem
    · exact h.unmentioned b' (List.mem_filter.1 hb').1 z hz' hmem
    · exact h.equation he z hz' (hside.2 hmem)

end Goal.Queues

/-! ### What becomes of an equation -/

/-- An equation splits into so many others. -/
lemma Kernel.injectionWidth?_eq_some {e : Equation} {n : Nat} :
    k.injectionWidth? e = some n ↔ ∃ parts, Splits k.env e parts ∧ parts.length = n := by
  constructor
  · intro h
    rw [injectionWidth?] at h
    split at h
    · rename_i a b l₁ l₂ r₁ r₂ hty hl hr
      cases h
      refine ⟨[.eq a l₁ r₁, .eq b l₂ r₂], .pairs ?_, rfl⟩
      rw [← hty, ← hl, ← hr]
    · obtain ⟨c, hl, h⟩ := Option.bind_eq_some_iff.1 h
      obtain ⟨_, hr, h⟩ := Option.bind_eq_some_iff.1 h
      obtain ⟨⟨d, ctor⟩, hctor, h⟩ := Option.bind_eq_some_iff.1 h
      obtain ⟨_, hlen, h⟩ := Option.bind_eq_some_iff.1 h
      obtain ⟨hllen, hrlen⟩ := (Option.guard_eq_some' _).1 hlen
      obtain rfl := Option.some.inj h
      have hrhead := (constructorHead?_eq_some ((Option.guard_eq_some' _).1 hr)).1
      refine ⟨_, .ctor (constructorHead?_eq_some hl).1 hrhead hctor hllen hrlen, ?_⟩
      simp [hllen, hrlen, DataCtor.arity]
  · rintro ⟨parts, h, rfl⟩
    cases h with
    | pairs heq =>
      subst heq
      rfl
    | @ctor c d ctor hl hr hctor hllen hrlen =>
      rw [injectionWidth?]
      split
      · rename_i hpair _
        rw [hpair] at hl
        cases hl
      · simp [constructorHead?_of_dataCtor? hl hctor, constructorHead?_of_dataCtor? hr hctor, hctor,
          hllen, hrlen, DataCtor.arity]

section Equations

variable (hk : k.Matches k') {e e' : Equation} (he : e.Alike σ e')
include hk he

lemma injectionWidth?_of_alike : k'.injectionWidth? e' = k.injectionWidth? e := by
  have hone : ∀ {σ : Equiv.Perm Name} {k k' : Kernel} {e e' : Equation} {n : Nat}, k.Matches k' →
      e.Alike σ e' → k.injectionWidth? e = some n → k'.injectionWidth? e' = some n := by
    intro σ k k' e e' n hk he h
    obtain ⟨parts, hsplits, hlen⟩ := Kernel.injectionWidth?_eq_some.1 h
    obtain ⟨parts', hsplits', hparts⟩ := hsplits.exists_of_alike hk he
    exact Kernel.injectionWidth?_eq_some.2 ⟨parts', hsplits', hparts.length_eq ▸ hlen⟩
  exact Option.ext fun n => ⟨hone hk.symm he.symm, hone hk he⟩

lemma contradictory?_of_alike : k'.contradictory? e' = k.contradictory? e := by
  rw [Kernel.contradictory?, Kernel.contradictory?, hk.constructorHead? he.lhs,
    hk.constructorHead? he.rhs]
  simp only [hk.dataCtor?]

end Equations

lemma Goal.Alike.solves? (h : g.Alike σ g') {t t' u u' : Term} (ht : t.Alike σ t')
    (hu : u.Alike σ u') : g'.solves? t' u' = (g.solves? t u).map σ := by
  cases t with
  | var x =>
    obtain rfl := Term.alike_var_iff.1 ht
    have hoccurs : u'.occurs (σ x) = u.occurs x := by simp [Term.occurs, hu.mem_freeVars]
    simp only [Goal.solves?, h.isSome_lookup?, hoccurs]
    split <;> rfl
  | _ =>
    -- the other side is no variable either
    cases t' with
    | var x' =>
      have hvar := Term.alike_var_iff.1 ht.symm
      cases hvar
    | _ => rfl

/-- The same variable is eliminated, by its new name. -/
lemma Goal.Alike.eliminable? (h : g.Alike σ g') {e e' : Equation} (he : e.Alike σ e') :
    g'.eliminable? e' = (g.eliminable? e).map σ := by
  rw [Goal.eliminable?, Goal.eliminable?, h.solves? he.lhs he.rhs, h.solves? he.rhs he.lhs]
  cases g.solves? e.lhs e.rhs with
  | none => cases g.solves? e.rhs e.lhs <;> rfl
  | some x =>
    cases g.solves? e.rhs e.lhs with
    | none => rfl
    | some y =>
      simp only [Option.map_some, h.position?]
      split <;> rfl

/-! ### Simplification in step -/

/-- The goals are alike under a renaming that takes the proof that is kept, and the pending
equations, to those of the other side. -/
structure InStep (σ : Equiv.Perm Name) (pf pf' : Name) (pending pending' : List Name)
    (g g' : Goal) : Prop where
  queues : g.Queues pf pending
  alike : g.Alike σ g'
  kept : pf' = σ pf
  renamed : pending' = pending.map σ

/-- Equations simplified in step: both are contradictory, or what is left of them joins the pending
ones. -/
inductive Simplified.InStep (pf pf' : Name) (rest rest' : List Name) (g g' : Goal) :
    Simplified → Simplified → Prop where
  | contradiction : Simplified.InStep pf pf' rest rest' g g' .contradiction .contradiction
  | parts (σ : Equiv.Perm Name) {names names' : List Name} :
      UniqueEvidence.InStep σ pf pf' (rest ++ names) (rest' ++ names') g g' →
      Simplified.InStep pf pf' rest rest' g g' (.parts names) (.parts names')

/-- The names that a split gives to the equations between components. -/
lemma InStep.exists_perm {pf pf' : Name} {pending pending' : List Name}
    (h : InStep σ pf pf' pending pending' g g') (hpf : pf.plain.toList.head? = some 'p')
    (hpf' : pf'.plain.toList.head? = some 'p') (width : Nat) :
    ∃ τ : Equiv.Perm Name, InStep τ pf pf' pending pending' g g' ∧
      (freshNames "H" g.names width).map τ = freshNames "H" g'.names width := by
  have hne : ∀ {pf : Name} {names : List Name}, pf.plain.toList.head? = some 'p' →
      ∀ y ∈ freshNames "H" names width, y ∉ pf :: names := by
    intro pf names hpf y hy hmem
    rcases List.mem_cons.1 hmem with rfl | hmem
    · have hhead := head?_of_mem_freshNames (c := 'H') rfl hy
      rw [hpf] at hhead
      cases hhead
    · exact not_mem_of_mem_freshNames hy hmem
  have hlen : (freshNames "H" g.names width).length = (freshNames "H" g'.names width).length := by
    rw [length_freshNames, length_freshNames]
  have hnew' : ∀ y ∈ freshNames "H" g'.names width, y ∉ (pf :: g.names).map σ := by
    rw [List.map_cons, ← h.alike.names, ← h.kept]
    exact hne hpf'
  obtain ⟨τ, hnames, hτ⟩ := exists_perm_of_fresh σ (pf :: g.names) hlen (freshNames_nodup _ _ _)
    (freshNames_nodup _ _ _) (hne hpf) hnew'
  have hgoal : ∀ y ∈ g.names, σ y = τ y := fun y hy => (hτ y (List.mem_cons_of_mem _ hy)).symm
  refine ⟨τ, ⟨h.queues, h.alike.congr h.queues.isScoped hgoal, ?_, ?_⟩, hnames⟩
  · rw [hτ pf List.mem_cons_self, h.kept]
  · rw [h.renamed]
    exact List.map_congr_left fun y hy => hgoal y (h.queues.listed hy)

lemma Goal.remaining_eq_self {pending : List Name} (h : pending ⊆ g.names) :
    g.remaining pending = pending := by
  cases pending with
  | nil => rfl
  | cons x rest =>
    obtain ⟨b, hb, rfl⟩ := List.mem_map.1 (h List.mem_cons_self)
    have hsome : (g.lookup? b.name).isSome := by
      simpa [Goal.lookup?, List.find?_isSome] using ⟨b, hb, rfl⟩
    exact List.dropWhile_cons_of_neg (by simpa [Option.isSome_iff_ne_none] using hsome)

/-- No pending equation is lost on either side. -/
lemma InStep.remaining {pf pf' : Name} {pending pending' : List Name}
    (h : InStep σ pf pf' pending pending' g g') :
    g.remaining pending = pending ∧ g'.remaining pending' = pending' := by
  refine ⟨Goal.remaining_eq_self h.queues.listed, Goal.remaining_eq_self ?_⟩
  rw [h.renamed, h.alike.names]
  exact List.map_subset σ h.queues.listed

namespace Attempt

lemma concurs_equation (h : g.Alike σ g') (x : Name) :
    Concurs g g' (equation k x) (equation k' (σ x)) fun e e' h h' =>
      (h = g ∧ h' = g') ∧ e.Alike σ e' ∧ k.equation g x = .ok e := by
  refine concurs_goal ?_
  have hsome := h.isSome_lookup? x
  cases hx : g.lookup? x with
  | none =>
    rw [hx, Option.isSome_none, Option.isSome_eq_false_iff, Option.isNone_iff_eq_none] at hsome
    rw [hsome]
    exact concurs_fail rfl
  | some ty =>
    obtain ⟨ty', hty', hty⟩ := h.lookup? hx
    rw [hty']
    refine concurs_bind
      (concurs_liftM ((hty.concur_normalize k k').imp fun u u' hu _ halike => And.intro hu halike))
      ?_
    rintro u u' _ _ ⟨⟨rfl, rfl⟩, hu, halike⟩
    cases he : Equation.ofTerm? u with
    | some e =>
      obtain rfl := Equation.ofTerm?_eq_some he
      obtain ⟨e', rfl, he'⟩ := halike.exists_equation
      refine concurs_pure ⟨⟨rfl, rfl⟩, he', ?_⟩
      simp only [Kernel.equation, hx, hu, Except.ok_bind, he]
      rfl
    | none =>
      cases he' : Equation.ofTerm? u' with
      | none => exact concurs_fail rfl
      | some e' =>
        obtain rfl := Equation.ofTerm?_eq_some he'
        obtain ⟨e, rfl, -⟩ := halike.symm.exists_equation
        cases he

section Steps

variable (hk : k.Matches k')
include hk

/-- A step by a rule that takes no terms. -/
lemma concurs_step_termless (h : g.Alike σ g') (rule : Rule) (hrule : rule.IsTermless)
    {P : Goal → Prop} (hP : ∀ gs, k.run g rule = .ok gs → ∀ g₁ ∈ gs, P g₁)
    (hspares : Spares (k.run g rule)) (hspares' : Spares (k'.run g' (rule.rename σ))) :
    Concurs g g' (step k rule) (step k' (rule.rename σ)) fun _ _ h h' => P h ∧ h.Alike σ h' := by
  refine concurs_step
    ((Kernel.concur_run hk h hrule hspares hspares').imp fun gs gs' hgs _ halike => ?_)
  exact (List.forall₂_and_left _ _).2 ⟨hP gs hgs, halike⟩

variable {pf pf' x x' : Name} {rest rest' : List Name}

/-- An equation is dropped on both sides or on neither. -/
lemma concurs_dropUnless (h : InStep σ pf pf' (x :: rest) (x' :: rest') g g') :
    Concurs g g' (dropUnless k pf x) (dropUnless k' pf' x') fun _ _ =>
      InStep σ pf pf' rest rest' := by
  obtain ⟨rfl, rfl⟩ := List.cons.inj h.renamed
  rw [dropUnless, dropUnless]
  by_cases heq : x = pf
  · rw [if_pos heq, if_pos (h.kept ▸ congrArg σ heq)]
    exact concurs_pure ⟨h.queues.tail, h.alike, h.kept, rfl⟩
  · rw [if_neg heq, if_neg (h.kept ▸ σ.injective.ne heq)]
    have hclear := concurs_step_termless hk h.alike (.clear x) trivial
      (fun gs hgs g₁ hg₁ => h.queues.clear hgs hg₁)
      (Kernel.spares_clear x) (Kernel.spares_clear (σ x))
    exact concurs_mono hclear fun _ _ g₁ g₁' hg₁ => ⟨hg₁.1, hg₁.2, h.kept, rfl⟩

/-- The equation is split; its parts get names of their own on either side. -/
lemma concurs_split (hpf : pf.plain.toList.head? = some 'p')
    (hpf' : pf'.plain.toList.head? = some 'p') (h : InStep σ pf pf' (x :: rest) (x' :: rest') g g')
    (width : Nat) :
    Concurs g g' (step k (.injection x (freshNames "H" g.names width)))
      (step k' (.injection x' (freshNames "H" g'.names width)))
      fun _ _ h h' => ∃ τ, InStep τ pf pf' (x :: (rest ++ freshNames "H" g.names width))
        (x' :: (rest' ++ freshNames "H" g'.names width)) h h' := by
  obtain ⟨τ, hτ, hnames⟩ := h.exists_perm hpf hpf' width
  have hinjection := concurs_step_termless hk hτ.alike
    (.injection x (freshNames "H" g.names width)) trivial
    (fun gs hgs g₁ hg₁ => hτ.queues.injection hk.isScoped.argTypes hgs hg₁)
      (Kernel.spares_injection _ _) (Kernel.spares_injection _ _)
  rw [Rule.rename, hnames, ← (List.cons.inj hτ.renamed).1] at hinjection
  refine concurs_mono hinjection fun _ _ g₁ g₁' hg₁ => ⟨τ, hg₁.1, hg₁.2, hτ.kept, ?_⟩
  rw [← hnames, ← List.cons_append, hτ.renamed, ← List.cons_append, List.map_append]

/-- The equation is used to eliminate the same variable. -/
lemma concurs_eliminate (h : InStep σ pf pf' (x :: rest) (x' :: rest') g g') (y : Name) :
    Concurs g g' (step k (.subst x y)) (step k' (.subst x' (σ y))) fun _ _ =>
      InStep σ pf pf' rest rest' := by
  obtain ⟨rfl, rfl⟩ := List.cons.inj h.renamed
  have hsubst := concurs_step_termless hk h.alike (.subst x y) trivial
    (fun gs hgs g₁ hg₁ => h.queues.subst hgs hg₁)
    (Kernel.spares_eliminate _ _) (Kernel.spares_eliminate _ _)
  exact concurs_mono hsubst fun _ _ g₁ g₁' hg₁ => ⟨hg₁.1, hg₁.2, h.kept, rfl⟩

/-- **One equation is simplified in step**: which of the four things becomes of it does not depend
on names. -/
lemma concurs_simplify (hpf : pf.plain.toList.head? = some 'p')
    (hpf' : pf'.plain.toList.head? = some 'p')
    (h : InStep σ pf pf' (x :: rest) (x' :: rest') g g') :
    Concurs g g' (simplify k pf x) (simplify k' pf' x') fun r r' h h' =>
      Simplified.InStep pf pf' rest rest' h h' r r' := by
  obtain rfl : x' = σ x := (List.cons.inj h.renamed).1
  have hnone : ∀ {σ : Equiv.Perm Name} {g g' : Goal}, InStep σ pf pf' rest rest' g g' →
      Simplified.InStep pf pf' rest rest' g g' (.parts []) (.parts []) := by
    intro σ g g' h
    refine .parts σ ?_
    rwa [List.append_nil, List.append_nil]
  refine concurs_bind (concurs_equation h.alike x) ?_
  rintro e e' g g' ⟨⟨rfl, rfl⟩, he, hstated⟩
  refine concurs_bind (concurs_liftM (he.lhs.concur_convertible he.rhs k k')) ?_
  rintro same _ g g' ⟨⟨rfl, rfl⟩, rfl⟩
  cases same
  · rw [injectionWidth?_of_alike hk he, contradictory?_of_alike hk he]
    cases hwidth : k.injectionWidth? e with
    | some width =>
      refine concurs_goal ?_
      refine concurs_bind (concurs_split hk hpf hpf' h width) ?_
      rintro _ _ g₁ g₁' ⟨τ, hg₁⟩
      refine concurs_bind (concurs_dropUnless hk hg₁) ?_
      intro _ _ g₂ g₂' hg₂
      exact concurs_pure (.parts τ hg₂)
    | none =>
      cases hclash : k.contradictory? e with
      | some clash =>
        refine concurs_bind (concurs_liftM (R := fun _ _ => True) (.ok trivial)) ?_
        intro _ _ _ _ _
        exact concurs_pure .contradiction
      | none =>
        refine concurs_goal ?_
        rw [h.alike.eliminable? he]
        cases hy : g.eliminable? e with
        | some y =>
          refine concurs_bind (concurs_eliminate hk h y) ?_
          intro _ _ g₁ g₁' hg₁
          exact concurs_pure (hnone hg₁)
        | none => exact concurs_fail rfl
  · refine concurs_bind (concurs_dropUnless hk h) ?_
    intro _ _ g₁ g₁' hg₁
    exact concurs_pure (hnone hg₁)

/-- **Index equations are simplified in step.** -/
theorem concurs_destructure (hpf : pf.plain.toList.head? = some 'p')
    (hpf' : pf'.plain.toList.head? = some 'p') (limit : Int) (steps : Nat)
    {pending pending' : List Name} (h : InStep σ pf pf' pending pending' g g') :
    Concurs g g' (destructure k pf limit steps pending)
      (destructure k' pf' limit steps pending') fun r r' h h' =>
      r.isSome = r'.isSome ∧ (r = none → ∃ τ, InStep τ pf pf' [] [] h h') := by
  induction steps generalizing σ pending pending' g g' with
  | zero =>
    refine concurs_goal ?_
    rw [h.remaining.1, h.remaining.2]
    cases pending with
    | nil =>
      obtain rfl : pending' = [] := h.renamed
      exact concurs_pure ⟨rfl, fun _ => ⟨σ, h⟩⟩
    | cons x rest =>
      obtain rfl : pending' = σ x :: rest.map σ := h.renamed
      exact concurs_fail rfl
  | succ steps ih =>
    refine concurs_goal ?_
    rw [h.remaining.1, h.remaining.2]
    cases pending with
    | nil =>
      obtain rfl : pending' = [] := h.renamed
      exact concurs_pure ⟨rfl, fun _ => ⟨σ, h⟩⟩
    | cons x rest =>
      obtain rfl : pending' = σ x :: rest.map σ := h.renamed
      refine concurs_bind (concurs_simplify hk hpf hpf' h) ?_
      intro r r' g₁ g₁' hr
      cases hr with
      | contradiction => exact concurs_pure ⟨rfl, nofun⟩
      | parts τ hparts => exact ih hparts

/-- Normalizing the target leaves the hypotheses. -/
lemma concurs_stepNormalize (hgoal : g.Scoped) (h : g.Alike σ g') :
    Concurs g g' (stepNormalize k) (stepNormalize k') fun _ _ h h' => (h.Scoped ∧ h.hyps = g.hyps) ∧
      h.Alike σ h' := by
  refine concurs_goal (concurs_bind (concurs_liftM
    ((h.target.concur_normalize k k').imp fun t t' ht _ halike => And.intro ht halike)) ?_)
  rintro t t' g g' ⟨⟨rfl, rfl⟩, ht, halike⟩
  have hover : t.freeVars ⊆ g.names :=
    fun y hy => hgoal.target (Kernel.mem_freeVars_of_normalize ht hy)
  refine concurs_step
    ((Kernel.concur_change hk h hgoal halike hover).imp fun gs gs' hgs _ hforall => ?_)
  refine (List.forall₂_and_left _ _).2 ⟨fun g₁ hg₁ => ?_, hforall⟩
  obtain ⟨-, -, rfl⟩ := Kernel.change_eq_ok hgs
  obtain rfl := List.mem_singleton.1 hg₁
  exact ⟨⟨hgoal.arranged, hover⟩, rfl⟩

/-- The index equation of a branch, introduced under a name of its own on either side. -/
lemma concurs_intro (hgoal : g.Scoped) (h : g.Alike σ g') (hpf : pf ∉ g.names)
    (hpf' : pf' ∉ g'.names) :
    Concurs g g' (step k (.intro pf)) (step k' (.intro pf')) fun _ _ h h' =>
      ∃ τ, InStep τ pf pf' [pf] [pf'] h h' := by
  obtain ⟨τ, rfl, hτ⟩ := exists_perm_of_not_mem σ hpf (h.names ▸ hpf')
  have hτalike : g.Alike τ g' := h.congr hgoal fun y hy => (hτ y hy).symm
  refine concurs_mono
    (concurs_step_termless hk hτalike (.intro pf) trivial (P := (Goal.Queues · pf [pf])) ?_
    (Kernel.spares_intro _) (Kernel.spares_intro _)) fun _ _ g₁ g₁' hg₁ =>
      ⟨τ, hg₁.1, hg₁.2, rfl, rfl⟩
  intro gs hgs g₁ hg₁
  have hscoped := Kernel.intro_scoped hgoal hgs hg₁
  obtain ⟨z, dom, cod, htarget, -, rfl⟩ := Kernel.intro_eq_ok hgs
  obtain rfl := List.mem_singleton.1 hg₁
  refine ⟨hscoped, by simp [Goal.names, Binding.names], List.nodup_singleton pf,
    fun b hb y hy hmem => ?_⟩
  obtain rfl : y = pf := by simpa using hy
  -- the hypotheses there were are over one another, and the equation is over them
  rcases List.mem_append.1 hb with hb | hb
  · exact hpf (hgoal.arranged.mem_names hb hmem)
  · obtain rfl := List.mem_singleton.1 hb
    refine hpf (hgoal.target (Kernel.mem_freeVars_of_normalize htarget ?_))
    simp [Term.freeVars, hmem]

/-- **Work on branches whose goals are alike ends alike.** -/
theorem concurs_discharge (hgoal : g.Scoped) (h : g.Alike σ g') (bounds : Bounds) :
    Concurs g g' (discharge k bounds) (discharge k' bounds) fun r r' _ _ => r.1 = r'.1 := by
  refine concurs_goal ?_
  have hpf : ∀ avoid, (fresh "pf" avoid).plain.toList.head? = some 'p' := head?_fresh rfl
  refine concurs_bind (concurs_intro hk hgoal h (fresh_not_mem _ _) (fresh_not_mem _ _)) ?_
  rintro _ _ g₁ g₁' ⟨τ, hstep⟩
  refine concurs_bind (concurs_stepNormalize hk hstep.queues.isScoped hstep.alike) ?_
  rintro _ _ g₂ g₂' ⟨⟨hscoped, hhyps⟩, halike⟩
  have hnames : g₂.names = g₁.names := congrArg Binding.names hhyps
  have hqueues := hstep.queues.of_subset hscoped (hhyps ▸ List.Subset.refl _) (List.Sublist.refl _)
    (hnames ▸ hstep.queues.listed)
  refine concurs_bind
    (concurs_destructure hk (hpf _) (hpf _) _ _ ⟨hqueues, halike, hstep.kept, hstep.renamed⟩) ?_
  rintro found found' g₃ g₃' ⟨hfound, hrest⟩
  refine concurs_markDestructed ?_
  cases found <;> cases found' <;> cases hfound
  · obtain ⟨ρ, hdone⟩ := hrest rfl
    have huip := Kernel.concur_uip hk hdone.alike (fresh "pf" g.names)
    rw [← hdone.kept] at huip
    refine concurs_bind
      (concurs_step (R := fun h h' => h.Scoped ∧ h.Alike ρ h')
      (huip.imp fun gs gs' hgs _ hforall => ?_)) ?_
    · exact (List.forall₂_and_left _ _).2
        ⟨fun g₄ => Kernel.uip_scoped hdone.queues.isScoped hgs, hforall⟩
    rintro _ _ g₄ g₄' ⟨hscoped₄, halike₄⟩
    refine concurs_bind (concurs_stepNormalize hk hscoped₄ halike₄) ?_
    rintro _ _ g₅ g₅' ⟨-, halike₅⟩
    refine concurs_goal (concurs_bind (concurs_liftM (Kernel.concur_search hk halike₅ _)) ?_)
    rintro proof proof' _ _ ⟨-, hproof⟩
    cases proof <;> cases proof' <;> cases hproof
    · exact concurs_goal (concurs_fail rfl)
    · exact concurs_pure rfl
  · exact concurs_pure rfl

end Steps

end Attempt

/-! ### The verdict on a branch -/

/-- What the report says of a branch: its constructor, its status, why it is open, and whether its
index equation was fully simplified. -/
def Branch.verdict (b : Branch) : Name × Status × Option String × Bool :=
  (b.ctor, b.status, b.outcome.obstacle?.map Obstacle.reason, b.destructed)

namespace Kernel

/-- Work that ends alike is concluded alike. -/
lemma concur_conclude {c : Name} {r r' : Except Fault (Closing × Certificate)}
    {trail trail' : Trail} (h : Concur (fun a b => a.1 = b.1) r r')
    (hmarks : r = .error .exhausted ∨ r' = .error .exhausted ∨
      trail.destructed = trail'.destructed) :
    Concur (fun b b' => b.verdict = b'.verdict) (conclude c r trail).outcome
      (conclude c r' trail').outcome := by
  cases h with
  | @ok a b hhow =>
    have hmarked : trail.destructed = trail'.destructed := by simpa using hmarks
    refine .ok ?_
    simp only [Branch.verdict, Branch.status, Outcome.status, hhow, hmarked]
    rfl
  | @error f f' hreason =>
    rw [conclude, conclude]
    dsimp only
    cases hf : Obstacle.ofFault? f with
    | none =>
      rw [Fault.reason?, hf, Option.map_none, eq_comm, Fault.reason?,
        Option.map_eq_none_iff] at hreason
      rw [hreason]
      exact .error (by rw [Fault.reason?, Fault.reason?, hf, hreason])
    | some why =>
      rw [Fault.reason?, hf, Option.map_some, eq_comm, Fault.reason?,
        Option.map_eq_some_iff] at hreason
      obtain ⟨why', hf', hreason⟩ := hreason
      rw [hf']
      have hmarked : trail.destructed = trail'.destructed := by
        refine (hmarks.resolve_left ?_).resolve_left ?_
        · rintro ⟨⟩
          cases hf
        · rintro ⟨⟩
          cases hf'
      refine .ok ?_
      simp only [Branch.verdict, Branch.status, Outcome.status, Outcome.obstacle?,
        Option.map_some, hreason, hmarked]
  | left => exact .left
  | right => exact .right

/-- **The verdict on a branch does not depend on the names of its hypotheses.** -/
theorem concur_branch (hk : k.Matches k') (hgoal : g.Scoped) (h : g.Alike σ g') (bounds : Bounds)
    (c : Name) :
    Concur (fun b b' => b.verdict = b'.verdict) (k.branch bounds c g).outcome
      (k'.branch bounds c g').outcome := by
  obtain ⟨hconcur, hmarks⟩ :=
    Attempt.concurs_discharge hk hgoal h bounds { goal := g } { goal := g' } rfl rfl rfl
  exact concur_conclude hconcur hmarks

end Kernel

end UniqueEvidence
