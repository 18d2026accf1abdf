/-
What one step of the simplification of an index equation does.

* `Attempt.EndsAt`: the outcome of work that starts at a goal, and the goal where it ends;
* `Goal.States`: the equations that given hypotheses of a goal state;
* `Simplifies`: the six things that can become of a pending equation, each with the goal that it
  leaves.  Nothing here depends on the depth to which the kernel computes;
* `Goal.Resolves`: what the goal and the pending equations satisfy throughout;
* `Goal.Resolves.endsAt_simplify`: **a step does what becomes of its equation**, once that is
  normalised.  No other rule is refused on the way than the elimination of a variable;
* `Goal.Resolves.simplifies`: **a step that ends well keeps the invariant**.
-/
import UniqueEvidence.Proofs.DependencyOrder
import UniqueEvidence.Proofs.Normalisation
import UniqueEvidence.Proofs.RenamedRuns

namespace UniqueEvidence

open Nameless

variable {k : Kernel} {g g' : Goal}

/-! ### Work that is followed to its end -/

namespace Attempt

variable {α β : Type}

/-- Started at the first goal, the work has this outcome and ends at the second goal. -/
def EndsAt (g : Goal) (x : Attempt α) (o : Except Fault α) (g' : Goal) : Prop :=
  ∀ t : Trail, t.goal = g → (x t).1.outcome = o ∧ (x t).2.goal = g'

lemma endsAt_pure (a : α) : EndsAt g (pure a) (.ok a) g := by
  rintro t rfl
  exact ⟨rfl, rfl⟩

lemma endsAt_fail (f : Fault) : EndsAt g (fail f : Attempt α) (.error f) g := by
  rintro t rfl
  exact ⟨rfl, rfl⟩

/-- A computation that leaves the trail alone. -/
lemma endsAt_liftM {x : Logged α} {o : Except Fault α} (h : x.outcome = o) :
    EndsAt g (liftM x) o g := by
  rintro t rfl
  exact ⟨h, rfl⟩

lemma EndsAt.bind {x : Attempt α} {a : α} {f : α → Attempt β} {o : Except Fault β} {g₁ : Goal}
    (hx : EndsAt g x (.ok a) g₁) (hf : EndsAt g₁ (f a) o g') : EndsAt g (x >>= f) o g' := by
  intro t ht
  obtain ⟨hout, hgoal⟩ := hx t ht
  change (Attempt.bind x f t).1.outcome = o ∧ (Attempt.bind x f t).2.goal = g'
  unfold Attempt.bind
  rcases hxt : x t with ⟨⟨outcome, log⟩, t'⟩
  rw [hxt] at hout hgoal
  cases hout
  exact hf t' hgoal

lemma EndsAt.bind_error {x : Attempt α} {f : Fault} (hx : EndsAt g x (.error f) g')
    (next : α → Attempt β) : EndsAt g (x >>= next) (.error f) g' := by
  intro t ht
  obtain ⟨hout, hgoal⟩ := hx t ht
  change (Attempt.bind x next t).1.outcome = .error f ∧ (Attempt.bind x next t).2.goal = g'
  unfold Attempt.bind
  rcases hxt : x t with ⟨⟨outcome, log⟩, t'⟩
  rw [hxt] at hout hgoal
  cases hout
  exact ⟨rfl, hgoal⟩

lemma endsAt_goal {f : Goal → Attempt α} {o : Except Fault α} (h : EndsAt g (f g) o g') :
    EndsAt g (goal >>= f) o g' := by
  have hgoal : EndsAt g goal (.ok g) g := by
    rintro t rfl
    exact ⟨rfl, rfl⟩
  exact hgoal.bind h

/-- A step by a rule that leaves one subgoal. -/
lemma endsAt_step {rule : Rule} (h : k.run g rule = .ok [g']) :
    EndsAt g (step k rule) (.ok ()) g' := by
  have hperform : (k.perform g rule).outcome = .ok [g'] := by rw [Kernel.outcome_perform, h]
  refine endsAt_goal ((endsAt_liftM hperform).bind ?_)
  rintro t -
  exact ⟨rfl, rfl⟩

/-- A step by a rule that is refused. -/
lemma endsAt_step_error {rule : Rule} {f : Fault} (h : k.run g rule = .error f) :
    EndsAt g (step k rule) (.error f) g := by
  have hperform : (k.perform g rule).outcome = .error f := by rw [Kernel.outcome_perform, h]
  exact endsAt_goal ((endsAt_liftM hperform).bind_error _)

/-! The loop: it ends where nothing is pending, and otherwise as its first step tells. -/

variable {pf x : Name} {rest names : List Name} {limit : Int} {steps : Nat}
  {o : Except Fault (Option Name)}

lemma endsAt_destructure_nil (steps : Nat) :
    EndsAt g (destructure k pf limit steps []) (.ok none) g := by
  cases steps <;> exact endsAt_goal (endsAt_pure none)

lemma endsAt_destructure_zero (hlisted : x :: rest ⊆ g.names) :
    EndsAt g (destructure k pf limit 0 (x :: rest)) (.error (.stuck (.stepLimit limit))) g := by
  refine endsAt_goal ?_
  rw [Goal.remaining_eq_self hlisted]
  exact endsAt_fail _

lemma endsAt_destructure_error {f : Fault} (hlisted : x :: rest ⊆ g.names)
    (hstep : EndsAt g (simplify k pf x) (.error f) g') :
    EndsAt g (destructure k pf limit (steps + 1) (x :: rest)) (.error f) g' := by
  refine endsAt_goal ?_
  rw [Goal.remaining_eq_self hlisted]
  exact hstep.bind_error _

lemma endsAt_destructure_contradiction (hlisted : x :: rest ⊆ g.names)
    (hstep : EndsAt g (simplify k pf x) (.ok .contradiction) g') :
    EndsAt g (destructure k pf limit (steps + 1) (x :: rest)) (.ok (some x)) g' := by
  refine endsAt_goal ?_
  rw [Goal.remaining_eq_self hlisted]
  exact hstep.bind (endsAt_pure _)

lemma endsAt_destructure_parts {g₁ : Goal} (hlisted : x :: rest ⊆ g.names)
    (hstep : EndsAt g (simplify k pf x) (.ok (.parts names)) g₁)
    (hrun : EndsAt g₁ (destructure k pf limit steps (rest ++ names)) o g') :
    EndsAt g (destructure k pf limit (steps + 1) (x :: rest)) o g' := by
  refine endsAt_goal ?_
  rw [Goal.remaining_eq_self hlisted]
  exact hstep.bind hrun

end Attempt

/-! ### Goals that grow and shrink -/

/-- The goal without an equation, unless it is the one that is kept. -/
def Goal.dropped (g : Goal) (pf x : Name) : Goal :=
  if x = pf then g else ⟨Kernel.without g x, g.target⟩

/-- The goal with further hypotheses. -/
def Goal.extended (g : Goal) (names : List Name) (types : List Term) : Goal :=
  ⟨g.hyps ++ List.zipWith Binding.mk names types, g.target⟩

lemma Goal.mem_dropped {pf x : Name} {b : Binding} :
    b ∈ (g.dropped pf x).hyps ↔ b ∈ g.hyps ∧ (x = pf ∨ b.name ≠ x) := by
  rw [Goal.dropped]
  split
  · simp [*]
  · simp [Kernel.without, *]

lemma Goal.target_dropped (pf x : Name) : (g.dropped pf x).target = g.target := by
  rw [Goal.dropped]
  split <;> rfl

lemma Goal.mem_names_dropped {pf x y : Name} :
    y ∈ (g.dropped pf x).names ↔ y ∈ g.names ∧ (x = pf ∨ y ≠ x) := by
  simp only [Goal.names, Binding.names, List.mem_map, Goal.mem_dropped]
  constructor
  · rintro ⟨b, ⟨hb, hx⟩, rfl⟩
    exact ⟨⟨b, hb, rfl⟩, hx⟩
  · rintro ⟨⟨b, hb, rfl⟩, hx⟩
    exact ⟨b, ⟨hb, hx⟩, rfl⟩

/-- The hypotheses that are left when a variable is eliminated. -/
lemma mem_reordered {bs hyps : List Binding} {x y : Name} {v : Term}
    (hreorder : reorder (replaced bs x y v) = some hyps) {b : Binding} :
    b ∈ hyps ↔ ∃ b₀ ∈ bs, (b₀.name ≠ y ∧ b₀.name ≠ x) ∧ { b₀ with ty := b₀.ty.subst y v } = b := by
  rw [(reorder_spec hreorder).1.mem_iff, replaced, List.mem_map]
  simp [and_assoc]

/-! ### Equations that hypotheses state -/

/-- One of the named hypotheses is the equation. -/
def Goal.States (g : Goal) (names : List Name) (e : Equation) : Prop :=
  ∃ x ∈ names, ⟨x, e.toTerm⟩ ∈ g.hyps

/-- The equation with a value put for a variable. -/
def Equation.replace (e : Equation) (y : Name) (v : Term) : Equation :=
  ⟨e.ty.subst y v, e.lhs.subst y v, e.rhs.subst y v⟩

lemma Equation.toTerm_replace (e : Equation) (y : Name) (v : Term) :
    (e.replace y v).toTerm = e.toTerm.subst y v :=
  (Term.subst_eq ..).symm

lemma Equation.toTerm_inj {e e' : Equation} (h : e.toTerm = e'.toTerm) : e = e' := by
  obtain ⟨hty, hl, hr⟩ := Term.eq.inj h
  cases e
  cases e'
  simp_all

lemma Goal.states_append {names others : List Name} {e : Equation} :
    g.States (names ++ others) e ↔ g.States names e ∨ g.States others e := by
  simp [Goal.States, or_and_right, exists_or]

lemma Goal.states_cons {x : Name} {names : List Name} {e : Equation} :
    g.States (x :: names) e ↔ ⟨x, e.toTerm⟩ ∈ g.hyps ∨ g.States names e := by
  simp [Goal.States]

/-- A name stands for one equation. -/
lemma Goal.Scoped.states_singleton (hgoal : g.Scoped) {x : Name} {e e₀ : Equation}
    (hmem : ⟨x, e₀.toTerm⟩ ∈ g.hyps) : g.States [x] e ↔ e = e₀ := by
  constructor
  · rintro ⟨z, hz, he⟩
    obtain rfl : z = x := List.mem_singleton.1 hz
    exact Equation.toTerm_inj (congrArg Binding.ty (hgoal.arranged.eq_of_name he hmem rfl))
  · rintro rfl
    exact ⟨x, List.mem_cons_self, hmem⟩

/-- What relates the sides of the equations between arguments relates the arguments one by one. -/
lemma Equation.forall₂_of_zipWith {R : Term → Term → Prop} {types ls rs : List Term}
    (hl : ls.length = types.length) (hr : rs.length = types.length)
    (h : ∀ e : Equation, e.toTerm ∈ List.zipWith (fun ty (p : Term × Term) => .eq ty p.1 p.2) types
      (ls.zip rs) → R e.lhs e.rhs) : List.Forall₂ R ls rs := by
  induction types generalizing ls rs with
  | nil =>
    obtain rfl := List.length_eq_zero_iff.1 hl
    obtain rfl := List.length_eq_zero_iff.1 hr
    exact .nil
  | cons ty types ih =>
    obtain ⟨l, ls, rfl⟩ := List.exists_cons_of_length_eq_add_one hl
    obtain ⟨r, rs, rfl⟩ := List.exists_cons_of_length_eq_add_one hr
    refine .cons (h ⟨ty, l, r⟩ List.mem_cons_self)
      (ih (by simpa using hl) (by simpa using hr) fun e he => ?_)
    exact h e (List.mem_cons_of_mem _ he)

/-! ### What becomes of an equation -/

/-- The sides of an equation are distinct constructors, the left one of a data type. -/
def Equation.Clashes (env : Environment) (e : Equation) : Prop :=
  ∃ c d, env.constructorHead? e.lhs = some c ∧ env.constructorHead? e.rhs = some d ∧ c ≠ d ∧
    (env.dataCtor? c).isSome

/-- An equation that neither holds, nor splits, nor contradicts itself. -/
structure Equation.IsOpen (env : Environment) (e : Equation) : Prop where
  differs : ¬ e.lhs.nameless.Conv e.rhs.nameless
  whole : ∀ parts, ¬ Kernel.Splits env e parts
  agrees : ¬ e.Clashes env

/-- What becomes of the equation `e` that the hypothesis `x` states, and of the goal. -/
inductive Simplifies (env : Environment) (pf x : Name) (g : Goal) (e : Equation) :
    Except Fault Simplified → Goal → Prop where
  /-- Its sides agree. -/
  | drop : e.lhs.nameless.Conv e.rhs.nameless →
    Simplifies env pf x g e (.ok (.parts [])) (g.dropped pf x)
  /-- Its sides are built alike. -/
  | split {parts : List Term} : ¬ e.lhs.nameless.Conv e.rhs.nameless → Kernel.Splits env e parts →
      Simplifies env pf x g e (.ok (.parts (freshNames "H" g.names parts.length)))
        ((g.extended (freshNames "H" g.names parts.length) parts).dropped pf x)
  /-- Its sides are distinct constructors. -/
  | clash : ¬ e.lhs.nameless.Conv e.rhs.nameless → (∀ parts, ¬ Kernel.Splits env e parts) →
      e.Clashes env → Simplifies env pf x g e (.ok .contradiction) g
  /-- It eliminates a variable. -/
  | eliminate {y : Name} {v : Term} {hyps : List Binding} : e.IsOpen env →
      g.eliminable? e = some y →
      Kernel.solvedFor e y = some v → reorder (replaced g.hyps x y v) = some hyps →
      Simplifies env pf x g e (.ok (.parts [])) ⟨hyps, g.target.subst y v⟩
  /-- It would eliminate a variable, but the hypotheses cannot be put in order then. -/
  | unordered {y : Name} {v : Term} : e.IsOpen env → g.eliminable? e = some y →
      Kernel.solvedFor e y = some v →
      reorder (replaced g.hyps x y v) = none →
        Simplifies env pf x g e (.error (.refused .noOrder)) g
  /-- It is of no use. -/
  | irreducible : e.IsOpen env → g.eliminable? e = none →
      Simplifies env pf x g e (.error (.stuck (.irreducible x e.toTerm))) g

/-- The variable that an equation eliminates is a hypothesis on one side of it, and does not occur
in the other. -/
lemma Goal.eliminable?_eq_some {e : Equation} {y : Name} (h : g.eliminable? e = some y) :
    (g.lookup? y).isSome ∧ ∃ v, Kernel.solvedFor e y = some v ∧ y ∉ v.freeVars := by
  have hsolves : ∀ {s t : Term}, g.solves? s t = some y → s = .var y ∧
      (g.lookup? y).isSome ∧ y ∉ t.freeVars := by
    intro s t hs
    cases s with
    | var z =>
      simp only [Goal.solves?] at hs
      split at hs
      · rename_i hz
        obtain rfl := Option.some.inj hs
        simpa [Term.occurs] using hz
      · cases hs
    | _ => cases hs
  have hside : g.solves? e.lhs e.rhs = some y ∨ g.solves? e.rhs e.lhs = some y := by
    rw [Goal.eliminable?] at h
    split at h
    · split at h
      · exact .inr (h ▸ ‹_›)
      · exact .inl (h ▸ ‹_›)
    · exact .inl (h ▸ ‹_›)
    · exact .inr h
  rcases hside with hs | hs
  · obtain ⟨hl, hy, hr⟩ := hsolves hs
    have hne : e.rhs ≠ .var y := fun heq => hr (by simp [heq, Term.freeVars])
    exact ⟨hy, e.rhs, by simp [Kernel.solvedFor, hl, hne], hr⟩
  · obtain ⟨hr, hy, hl⟩ := hsolves hs
    exact ⟨hy, e.lhs, by simp [Kernel.solvedFor, hr], hl⟩

/-- Something becomes of every equation. -/
theorem exists_simplifies (env : Environment) (pf x : Name) (g : Goal) (e : Equation) :
    ∃ r g', Simplifies env pf x g e r g' := by
  by_cases hc : e.lhs.nameless.Conv e.rhs.nameless
  · exact ⟨_, _, .drop hc⟩
  by_cases hsplits : ∃ parts, Kernel.Splits env e parts
  · obtain ⟨parts, hparts⟩ := hsplits
    exact ⟨_, _, .split hc hparts⟩
  have hwhole : ∀ parts, ¬ Kernel.Splits env e parts := fun parts hparts => hsplits ⟨parts, hparts⟩
  by_cases hclash : e.Clashes env
  · exact ⟨_, _, .clash hc hwhole hclash⟩
  cases hy : g.eliminable? e with
  | none => exact ⟨_, _, .irreducible ⟨hc, hwhole, hclash⟩ hy⟩
  | some y =>
    obtain ⟨-, v, hv, -⟩ := Goal.eliminable?_eq_some hy
    cases hreorder : reorder (replaced g.hyps x y v) with
    | none => exact ⟨_, _, .unordered ⟨hc, hwhole, hclash⟩ hy hv hreorder⟩
    | some hyps => exact ⟨_, _, .eliminate ⟨hc, hwhole, hclash⟩ hy hv hreorder⟩

/-! ### Rules that are not refused -/

namespace Kernel

variable {x : Name} {e : Equation}

/-- The sides of an equation that is read are in normal form, so comparing them needs no more
depth. -/
lemma exists_convertible_of_equation (he : k.equation g x = .ok e) :
    ∃ same, k.convertible e.lhs e.rhs = .ok same := by
  obtain ⟨ty, -, hn⟩ := equation_eq_ok he
  obtain ⟨n, hdepth, -, hl, hr⟩ := Term.normalize_parts (withinDepth_eq_ok.1 hn)
  have hmono : ∀ {t : Term}, t.normalize n = some t → t.normalize k.depth = some t :=
    Term.normalize_mono (by omega)
  exact ⟨e.lhs.alphaEq e.rhs,
    by simp [convertible, Term.convertible, hmono hl, hmono hr, withinDepth]⟩

lemma injectionWidth?_eq_none (hwhole : ∀ parts, ¬ Splits k.env e parts) :
    k.injectionWidth? e = none := by
  refine Option.eq_none_iff_forall_not_mem.2 fun n hn => ?_
  obtain ⟨parts, hparts, -⟩ := injectionWidth?_eq_some.1 hn
  exact hwhole parts hparts

lemma contradictory?_eq_none (hagrees : ¬ e.Clashes k.env) : k.contradictory? e = none :=
  Option.eq_none_iff_forall_not_mem.2 fun p hp => hagrees ⟨p.1, p.2, contradictory?_eq_some hp⟩

end Kernel

lemma Attempt.endsAt_equation {x : Name} {e : Equation} (he : k.equation g x = .ok e) :
    EndsAt g (equation k x) (.ok e) g := by
  obtain ⟨ty, hty, hn⟩ := Kernel.equation_eq_ok he
  refine endsAt_goal ?_
  rw [hty]
  exact (endsAt_liftM hn).bind (endsAt_pure e)

namespace Goal.Queues

variable {pf x y : Name} {rest : List Name} {e : Equation} (h : g.Queues pf (x :: rest))
include h

lemma isSome_lookup? : (g.lookup? x).isSome := by
  obtain ⟨b, hb, rfl⟩ := List.mem_map.1 (h.listed List.mem_cons_self)
  exact Option.isSome_of_eq_some (Context.lookup?_of_mem h.isScoped.arranged.distinct hb)

lemma unmentioned_first : ∀ b ∈ g.hyps, b.name ≠ x → x ∉ b.ty.freeVars :=
  fun b hb _ => h.unmentioned b hb x (List.mem_cons_of_mem _ List.mem_cons_self)

lemma clear_eq (htarget : x ∉ g.target.freeVars) :
    Kernel.clear g x = .ok [⟨Kernel.without g x, g.target⟩] := by
  obtain ⟨ty, hty⟩ := Option.isSome_iff_exists.1 h.isSome_lookup?
  simp [Kernel.clear, hty, Kernel.unused_of htarget h.unmentioned_first, pure, Except.pure]

/-- The first pending equation is dropped, unless it is the one that is kept. -/
lemma endsAt_dropUnless (htarget : x ≠ pf → x ∉ g.target.freeVars) :
    Attempt.EndsAt g (Attempt.dropUnless k pf x) (.ok ()) (g.dropped pf x) := by
  rw [Attempt.dropUnless, Goal.dropped]
  split
  · exact Attempt.endsAt_pure ()
  · rename_i hx
    exact Attempt.endsAt_step (h.clear_eq (htarget hx))

/-- Dropping the first pending equation leaves the others. -/
lemma dropped (htarget : x ≠ pf → x ∉ g.target.freeVars) : (g.dropped pf x).Queues pf rest := by
  rw [Goal.dropped]
  split
  · exact h.tail
  · rename_i hx
    exact h.clear (h.clear_eq (htarget hx)) List.mem_cons_self

omit h in
lemma run_injection {parts : List Term} (he : k.equation g x = .ok e)
    (hparts : Kernel.Splits k.env e parts) :
    k.run g (.injection x (freshNames "H" g.names parts.length)) =
      .ok [g.extended (freshNames "H" g.names parts.length) parts] := by
  have hfresh := Kernel.freshFor_of (freshNames_nodup "H" g.names parts.length)
    (fun _ => not_mem_of_mem_freshNames) (.ofNames (freshNames "H" g.names parts.length))
  rw [length_freshNames] at hfresh
  simp [Kernel.run, Kernel.injection, Kernel.injectionAs, he, hparts.componentEquations x, hfresh,
    Goal.extended, pure, Except.pure]

/-- A variable that is eliminated is not pending. -/
lemma not_pending (he : k.equation g x = .ok e) (hy : g.eliminable? e = some y) :
    y ∉ pf :: x :: rest := by
  intro hmem
  obtain ⟨-, v, hv, -⟩ := Goal.eliminable?_eq_some hy
  refine h.equation he y hmem ?_
  obtain ⟨hside, -⟩ | ⟨hside, -⟩ :=
    Kernel.solvedFor_eq_some hv <;> simp [Equation.toTerm, Term.freeVars, hside]

/-- Eliminating a variable is refused only where the hypotheses cannot be put in order. -/
lemma run_subst (htarget : x ∉ g.target.freeVars) (he : k.equation g x = .ok e)
    (hy : g.eliminable? e = some y) {v : Term} (hv : Kernel.solvedFor e y = some v) :
    (∀ hyps, reorder (replaced g.hyps x y v) = some hyps →
      k.run g (.subst x y) = .ok [⟨hyps, g.target.subst y v⟩]) ∧
      (reorder (replaced g.hyps x y v) = none →
        k.run g (.subst x y) = .error (.refused .noOrder)) := by
  obtain ⟨hlookup, v', hv', hocc⟩ := Goal.eliminable?_eq_some hy
  obtain rfl : v' = v := Option.some.inj (hv'.symm.trans hv)
  have hyx : y ≠ x := fun heq => h.not_pending he hy (by simp [heq])
  have hsolves : k.Solves g x y v' :=
    { solved := ⟨e, he, hv⟩
      distinct := hyx
      listed := hlookup
      absent := hocc
      unused := Kernel.unused_of htarget h.unmentioned_first }
  rw [hsolves.run_subst]
  constructor
  · intro hyps hreorder
    rw [hreorder, Option.elim_some]
  · intro hreorder
    rw [hreorder, Option.elim_none]

end Goal.Queues

/-! ### The invariant -/

/-- The goal while pending equations are simplified.  They are equations by their form, and so is
the one that is kept; the target mentions at most that one; and as long as it is pending itself, it
is alone, and between tuples of one length. -/
structure Goal.Resolves (g : Goal) (pf : Name) (pending : List Name) :
    Prop extends g.Queues pf pending where
  kept : pf ∈ g.names
  unused : ∀ x ∈ pending, x ≠ pf → x ∉ g.target.freeVars
  equates : g.Equates (pf :: pending)
  tuples : pf ∈ pending → pending = [pf] ∧ ∃ l r : Tuple, l.length = r.length ∧
    g.lookup? pf = some (.eq (Tuple.ty l) (Tuple.toTerm l) (Tuple.toTerm r))

namespace Goal.Resolves

variable {pf x : Name} {pending rest : List Name} {e : Equation} {r : Except Fault Simplified}

/-- A pending equation is read, unless its normal form is too deep. -/
lemma equation_cases (h : g.Resolves pf (x :: rest)) (k : Kernel) :
    k.equation g x = .error .exhausted ∨ ∃ e, k.equation g x = .ok e := by
  obtain ⟨ty, hty⟩ := Option.isSome_iff_exists.1 h.toQueues.isSome_lookup?
  obtain ⟨e, rfl⟩ :=
    h.equates ⟨x, ty⟩ (Context.mem_of_lookup? hty) (List.mem_cons_of_mem _ List.mem_cons_self)
  cases hn : k.normalize e.toTerm with
  | error f =>
    obtain rfl := Kernel.withinDepth_eq_error hn
    exact .inl (by simp [Kernel.equation, hty, hn])
  | ok u =>
    obtain ⟨-, ty', lhs', rhs', -, rfl⟩ := Term.normalize_eq (Kernel.withinDepth_eq_ok.1 hn)
    exact .inr ⟨⟨ty', lhs', rhs'⟩,
      by simp [Kernel.equation, hty, hn, Equation.ofTerm?, pure, Except.pure]⟩

/-- A step whose equation is too deep comes to nothing. -/
lemma endsAt_simplify_exhausted (h : g.Resolves pf (x :: rest))
    (he : k.equation g x = .error .exhausted) :
    Attempt.EndsAt g (Attempt.simplify k pf x) (.error .exhausted) g := by
  obtain ⟨ty, hty⟩ := Option.isSome_iff_exists.1 h.toQueues.isSome_lookup?
  have hn : k.normalize ty = .error .exhausted := by
    cases hn : k.normalize ty with
    | error f => rw [Kernel.withinDepth_eq_error hn]
    | ok u =>
      rw [Kernel.equation, hty] at he
      simp only [hn, Except.ok_bind] at he
      split at he <;> cases he
  have hread : Attempt.EndsAt g (Attempt.equation k x) (.error .exhausted) g := by
    refine Attempt.endsAt_goal ?_
    rw [hty]
    exact (Attempt.endsAt_liftM hn).bind_error _
  exact hread.bind_error _

/-- The equation between tuples holds or splits. -/
lemma not_isOpen (h : g.Resolves pf (pf :: rest)) (he : k.equation g pf = .ok e) :
    ¬ e.IsOpen k.env := by
  intro hopen
  obtain ⟨-, l, r, hlen, hty⟩ := h.tuples List.mem_cons_self
  obtain ⟨ty, hty', hn⟩ := Kernel.equation_eq_ok he
  obtain rfl : ty = _ := Option.some.inj (hty'.symm.trans hty)
  obtain ⟨A, a, b⟩ := e
  obtain ⟨n, A', a', b', -, hA, ha, hb, heq⟩ :=
    Term.normalize_eq_iff.1 (Kernel.withinDepth_eq_ok.1 hn)
  obtain ⟨rfl, rfl, rfl⟩ := Term.eq.inj heq
  cases n with
  | zero => cases hA
  | succ n =>
    cases l with
    | nil =>
      obtain rfl := List.length_eq_zero_iff.1 hlen.symm
      obtain rfl := Option.some.inj ha
      obtain rfl := Option.some.inj hb
      exact hopen.differs .rfl
    | cons s l =>
      cases r with
      | nil => cases hlen
      | cons s' r =>
        simp only [Tuple.ty, Tuple.types, tupleType, Tuple.toTerm, List.map_cons, List.foldr_cons,
          Term.normalize, Option.bind_eq_bind, Option.bind_eq_some_iff, Option.pure_def,
          Option.some.injEq] at hA ha hb
        obtain ⟨A₁, -, A₂, -, rfl⟩ := hA
        obtain ⟨a₁, -, a₂, -, rfl⟩ := ha
        obtain ⟨b₁, -, b₂, -, rfl⟩ := hb
        exact hopen.whole _ (.pairs rfl)

lemma ne_of_isOpen (h : g.Resolves pf (x :: rest)) (he : k.equation g x = .ok e)
    (hopen : e.IsOpen k.env) : x ≠ pf := by
  rintro rfl
  exact h.not_isOpen he hopen

section

variable {names : List Name} {parts : List Term} {e' : Equation}

/-- Dropping the first pending equation changes no other. -/
lemma states_dropped (h : g.Resolves pf (x :: rest)) (hnames : names ⊆ pf :: rest) :
    (g.dropped pf x).States names e' ↔ g.States names e' := by
  refine exists_congr fun z => and_congr_right fun hz => Goal.mem_dropped.trans (and_iff_left ?_)
  rcases List.mem_cons.1 (hnames hz) with rfl | hz
  · exact (em (x = z)).imp_right Ne.symm
  · exact .inr (h.toQueues.ne_of_mem hz)

/-- Splitting the first pending equation changes no other. -/
lemma states_split (h : g.Resolves pf (x :: rest)) (hnames : names ⊆ pf :: rest) :
    ((g.extended (freshNames "H" g.names parts.length) parts).dropped pf x).States names e' ↔
      g.States names e' := by
  refine (exists_congr fun z => and_congr_right fun hz => ?_).trans (h.states_dropped hnames)
  have hold : z ∈ g.names := by
    rcases List.mem_cons.1 (hnames hz) with rfl | hz
    · exact h.kept
    · exact h.listed (List.mem_cons_of_mem _ hz)
  rw [Goal.mem_dropped, Goal.mem_dropped, Goal.extended, List.mem_append]
  exact and_congr_left fun _ => or_iff_left fun hmem =>
    not_mem_of_mem_freshNames (mem_of_zipWith hmem).1 hold

/-- What it splits into is pending next. -/
lemma states_split_new (h : g.Resolves pf (x :: rest)) :
    ((g.extended (freshNames "H" g.names parts.length) parts).dropped pf x).States
      (freshNames "H" g.names parts.length) e' ↔
      e'.toTerm ∈ parts := by
  have hnew : ∀ z ∈ freshNames "H" g.names parts.length, z ∉ g.names :=
    fun _ => not_mem_of_mem_freshNames
  have hlen : (freshNames "H" g.names parts.length).length = parts.length := length_freshNames ..
  generalize freshNames "H" g.names parts.length = new at hnew hlen ⊢
  constructor
  · rintro ⟨z, hz, hmem⟩
    rcases List.mem_append.1 (Goal.mem_dropped.1 hmem).1 with hmem | hmem
    · exact absurd (List.mem_map_of_mem hmem) (hnew z hz)
    · exact (mem_of_zipWith hmem).2
  · intro hmem
    obtain ⟨i, hi, heq⟩ := List.mem_iff_getElem.1 hmem
    have hi' : i < new.length := hlen ▸ hi
    have hzip : (⟨new[i], e'.toTerm⟩ : Binding) ∈ List.zipWith Binding.mk new parts :=
      List.mem_iff_getElem.2 ⟨i, by simp [hlen, hi], by simp [heq]⟩
    refine ⟨new[i], List.getElem_mem hi',
      Goal.mem_dropped.2 ⟨List.mem_append_right _ hzip, .inr fun (hx : new[i] = x) => ?_⟩⟩
    exact hnew _ (List.getElem_mem hi') (hx ▸ h.listed List.mem_cons_self)

/-- Eliminating a variable replaces it in the other equations. -/
lemma states_eliminated (h : g.Resolves pf (x :: rest)) (he : k.equation g x = .ok e)
    (hopen : e.IsOpen k.env) {y : Name} {v : Term} (hy : g.eliminable? e = some y)
    {hyps : List Binding} (hreorder : reorder (replaced g.hyps x y v) = some hyps)
    (hnames : names ⊆ pf :: rest) (target : Term) :
    (⟨hyps, target⟩ : Goal).States names e' ↔ ∃ e₀, g.States names e₀ ∧ e₀.replace y v = e' := by
  have hsub : names ⊆ pf :: x :: rest :=
    fun z hz => List.cons_subset_cons _ (List.subset_cons_self x rest) (hnames hz)
  constructor
  · rintro ⟨z, hz, he⟩
    obtain ⟨⟨z', ty⟩, hz', -, heq⟩ := (mem_reordered hreorder).1 he
    obtain ⟨rfl, hty⟩ := Binding.mk.inj heq
    obtain ⟨e₀, rfl⟩ := h.equates _ hz' (hsub hz)
    exact ⟨e₀, ⟨_, hz, hz'⟩, Equation.toTerm_inj ((Equation.toTerm_replace ..).trans hty)⟩
  · rintro ⟨e₀, ⟨z, hz, he₀⟩, rfl⟩
    have hzx : z ≠ x := by
      rcases List.mem_cons.1 (hnames hz) with rfl | hz
      · exact (h.ne_of_isOpen he hopen).symm
      · exact h.toQueues.ne_of_mem hz
    have hzy : z ≠ y := fun heq => h.toQueues.not_pending he hy (heq ▸ hsub hz)
    rw [Goal.States, Equation.toTerm_replace]
    exact ⟨z, hz, (mem_reordered hreorder).2 ⟨_, he₀, ⟨hzy, hzx⟩, rfl⟩⟩

end

/-- **A step does what becomes of its equation.** -/
theorem endsAt_simplify (henv : k.env.TakesClosed) (h : g.Resolves pf (x :: rest))
    (he : k.equation g x = .ok e) (hfate : Simplifies k.env pf x g e r g') :
    Attempt.EndsAt g (Attempt.simplify k pf x) r g' := by
  obtain ⟨same, hsame⟩ := Kernel.exists_convertible_of_equation he
  have hconv := Kernel.convertible_iff hsame
  have htarget : x ≠ pf → x ∉ g.target.freeVars := h.unused x List.mem_cons_self
  refine (Attempt.endsAt_equation he).bind ((Attempt.endsAt_liftM hsame).bind ?_)
  cases hfate with
  | drop hc =>
    obtain rfl := hconv.2 hc
    exact (h.toQueues.endsAt_dropUnless htarget).bind (Attempt.endsAt_pure _)
  | split hc hparts =>
    obtain rfl : same = false := by simpa using mt hconv.1 hc
    rw [Kernel.injectionWidth?_eq_some.2 ⟨_, hparts, rfl⟩]
    have hinjection := Goal.Queues.run_injection he hparts
    have hqueues := h.toQueues.injection henv hinjection List.mem_cons_self
    exact Attempt.endsAt_goal
      ((Attempt.endsAt_step hinjection).bind
        ((hqueues.endsAt_dropUnless htarget).bind (Attempt.endsAt_pure _)))
  | clash hc hwhole hclash =>
    obtain rfl : same = false := by simpa using mt hconv.1 hc
    obtain ⟨c, d, hl, hr, hne, hdata⟩ := hclash
    have hclash : k.contradictory? e = some (c, d) := by
      simp [Kernel.contradictory?, hl, hr, hne, hdata]
    rw [Kernel.injectionWidth?_eq_none hwhole, hclash]
    exact (Attempt.endsAt_liftM rfl).bind (Attempt.endsAt_pure _)
  | eliminate hopen hy hv hreorder =>
    obtain rfl : same = false := by simpa using mt hconv.1 hopen.differs
    rw [Kernel.injectionWidth?_eq_none hopen.whole, Kernel.contradictory?_eq_none hopen.agrees]
    have hstep := (h.toQueues.run_subst (htarget (h.ne_of_isOpen he hopen)) he hy hv).1 _ hreorder
    refine Attempt.endsAt_goal ?_
    rw [hy]
    exact (Attempt.endsAt_step hstep).bind (Attempt.endsAt_pure _)
  | unordered hopen hy hv hreorder =>
    obtain rfl : same = false := by simpa using mt hconv.1 hopen.differs
    rw [Kernel.injectionWidth?_eq_none hopen.whole, Kernel.contradictory?_eq_none hopen.agrees]
    have hstep := (h.toQueues.run_subst (htarget (h.ne_of_isOpen he hopen)) he hy hv).2 hreorder
    refine Attempt.endsAt_goal ?_
    rw [hy]
    exact (Attempt.endsAt_step_error hstep).bind_error _
  | irreducible hopen hy =>
    obtain rfl : same = false := by simpa using mt hconv.1 hopen.differs
    rw [Kernel.injectionWidth?_eq_none hopen.whole, Kernel.contradictory?_eq_none hopen.agrees]
    refine Attempt.endsAt_goal ?_
    rw [hy]
    exact Attempt.endsAt_fail _

/-- The equation that is kept is pending alone or not at all. -/
lemma not_mem_rest (h : g.Resolves pf (x :: rest)) : pf ∉ rest := by
  intro hmem
  obtain ⟨halone, -⟩ := h.tuples (List.mem_cons_of_mem _ hmem)
  rw [(List.cons.inj halone).2] at hmem
  cases hmem

/-- What is neither kept nor pending after a step was neither before it. -/
lemma mem_names_of_simplifies {names : List Name}
    (hfate : Simplifies k.env pf x g e (.ok (.parts names)) g') {z : Name} (hz : z ∈ g'.names)
    (hnew : z ∉ pf :: (rest ++ names)) : z ∈ g.names ∧ z ∉ pf :: x :: rest := by
  simp only [List.mem_cons, List.mem_append, not_or] at hnew ⊢
  have hx : x = pf ∨ z ≠ x → z ≠ x := fun hx => hx.elim (fun hx => hx ▸ hnew.1) id
  cases hfate with
  | drop hc =>
    obtain ⟨hz, hdrop⟩ := Goal.mem_names_dropped.1 hz
    exact ⟨hz, hnew.1, hx hdrop, hnew.2.1⟩
  | split hc hparts =>
    obtain ⟨hz, hdrop⟩ := Goal.mem_names_dropped.1 hz
    rw [Goal.extended, Goal.names, Binding.names, List.map_append, ← Binding.names, ← Binding.names,
      names_zipWith (length_freshNames ..), List.mem_append] at hz
    exact ⟨hz.resolve_right hnew.2.2, hnew.1, hx hdrop, hnew.2.1⟩
  | eliminate hopen hy hv hreorder =>
    obtain ⟨b, hb, rfl⟩ := List.mem_map.1 hz
    obtain ⟨b₀, hb₀, ⟨-, hb₀x⟩, rfl⟩ := (mem_reordered hreorder).1 hb
    exact ⟨List.mem_map.2 ⟨b₀, hb₀, rfl⟩, hnew.1, hb₀x, hnew.2.1⟩

/-- **A step that ends well keeps the invariant.** -/
theorem simplifies (henv : k.env.TakesClosed) (h : g.Resolves pf (x :: rest))
    (he : k.equation g x = .ok e) {names : List Name}
    (hfate : Simplifies k.env pf x g e (.ok (.parts names)) g') :
    g'.Resolves pf (rest ++ names) := by
  have hrest := h.not_mem_rest
  have htarget : x ≠ pf → x ∉ g.target.freeVars := h.unused x List.mem_cons_self
  have hpf : x = pf ∨ pf ≠ x := (em (x = pf)).imp_right fun hx heq => hx heq.symm
  cases hfate with
  | drop hc =>
    rw [List.append_nil]
    refine ⟨h.toQueues.dropped htarget, Goal.mem_names_dropped.2 ⟨h.kept, hpf⟩,
      fun z hz hne => ?_, fun b hb hname => ?_, fun hmem => absurd hmem hrest⟩
    · rw [Goal.target_dropped]
      exact h.unused z (List.mem_cons_of_mem _ hz) hne
    · exact h.equates b (Goal.mem_dropped.1 hb).1
        (List.cons_subset_cons _ (List.subset_cons_self x rest) hname)
  | @split parts hc hparts =>
    have hinjection := Goal.Queues.run_injection he hparts
    have hqueues := h.toQueues.injection henv hinjection List.mem_cons_self
    have hnew : ∀ z ∈ freshNames "H" g.names parts.length, z ∉ g.names :=
      fun _ => not_mem_of_mem_freshNames
    refine ⟨hqueues.dropped htarget, Goal.mem_names_dropped.2 ⟨?_, hpf⟩, fun z hz hne => ?_,
      fun b hb hname => ?_, fun hmem => ?_⟩
    · rw [Goal.extended, Goal.names, Binding.names, List.map_append]
      exact List.mem_append_left _ h.kept
    · rw [Goal.target_dropped]
      rcases List.mem_append.1 hz with hz | hz
      · exact h.unused z (List.mem_cons_of_mem _ hz) hne
      · exact fun hmem => hnew z hz (h.isScoped.target hmem)
    · rcases List.mem_append.1 (Goal.mem_dropped.1 hb).1 with hb | hb
      · refine h.equates b hb ?_
        rw [← List.cons_append] at hname
        rcases List.mem_append.1 hname with hname | hname
        · exact List.cons_subset_cons _ (List.subset_cons_self x rest) hname
        · exact absurd (List.mem_map_of_mem hb) (hnew _ hname)
      · exact hparts.isEquation (mem_of_zipWith hb).2
    · rcases List.mem_append.1 hmem with hmem | hmem
      · exact absurd hmem hrest
      · exact absurd h.kept (hnew pf hmem)
  | @eliminate y v hyps hopen hy hv hreorder =>
    rw [List.append_nil]
    have hne : x ≠ pf := h.ne_of_isOpen he hopen
    have hstep := (h.toQueues.run_subst (htarget hne) he hy hv).1 hyps hreorder
    have hvalue : v.freeVars ⊆ e.toTerm.freeVars := by
      obtain ⟨-, rfl⟩ | ⟨-, rfl⟩ := Kernel.solvedFor_eq_some hv <;>
      · intro z hz
        simp [Equation.toTerm, Term.freeVars, hz]
    refine ⟨h.toQueues.subst hstep List.mem_cons_self, ?_,
      fun z hz hne' hz' => ?_, fun b hb hname => ?_, fun hmem => absurd hmem hrest⟩
    · obtain ⟨b, hb, hname⟩ := List.mem_map.1 h.kept
      have hby : b.name ≠ y := fun heq => h.toQueues.not_pending he hy (by simp [← heq, hname])
      have hbx : b.name ≠ x := hname ▸ hne.symm
      exact List.mem_map.2 ⟨_, (mem_reordered hreorder).2 ⟨b, hb, ⟨hby, hbx⟩, rfl⟩, hname⟩
    · rcases mem_freeVars_subst hz' with ⟨hz', -⟩ | hz'
      · exact h.unused z (List.mem_cons_of_mem _ hz) hne' hz'
      · exact h.toQueues.equation he z
          (List.mem_cons_of_mem _ (List.mem_cons_of_mem _ hz)) (hvalue hz')
    · obtain ⟨b', hb', -, rfl⟩ := (mem_reordered hreorder).1 hb
      obtain ⟨e', he'⟩ :=
        h.equates b' hb' (List.cons_subset_cons _ (List.subset_cons_self x rest) hname)
      refine ⟨e'.replace y v, ?_⟩
      rw [he', Equation.toTerm_replace]

/-- Where the last hypothesis is an equation between tuples of one length, it can be simplified. -/
lemma start {hyps : List Binding} {l r : Tuple} (hgoal : g.Scoped) (hlen : l.length = r.length)
    (hhyps : g.hyps = hyps ++ [⟨pf, .eq (Tuple.ty l) (Tuple.toTerm l) (Tuple.toTerm r)⟩]) :
    g.Resolves pf [pf] := by
  have hlast : (⟨pf, .eq (Tuple.ty l) (Tuple.toTerm l) (Tuple.toTerm r)⟩ : Binding) ∈
    g.hyps := by simp [hhyps]
  have hkept : pf ∈ g.names := List.mem_map_of_mem hlast
  have hlookup := Context.lookup?_of_mem hgoal.arranged.distinct hlast
  refine ⟨⟨hgoal, by simpa using hkept, List.nodup_singleton pf, fun b hb y hy hmem => ?_⟩, hkept,
    by simp, fun b hb hname => ?_, fun _ => ⟨rfl, l, r, hlen, hlookup⟩⟩
  · -- what a hypothesis mentions comes before it, and so before the last one
    obtain rfl : y = pf := by simpa using hy
    obtain ⟨pre, post, hsplit⟩ := List.append_of_mem hb
    have hpre := (hgoal.arranged.ordered.of_split hsplit y hmem).resolve_right List.not_mem_nil
    have hdistinct := hgoal.arranged.distinct
    rw [hsplit, Binding.names, List.map_append, List.nodup_append] at hdistinct
    have hpost : y ∈ (b :: post).map Binding.name := by
      have hend :
          (b :: post).getLast? = some ⟨y, .eq (Tuple.ty l) (Tuple.toTerm l) (Tuple.toTerm r)⟩ := by
        have heq := congrArg List.getLast? (hhyps.symm.trans hsplit)
        rw [List.getLast?_append, List.getLast?_append] at heq
        simpa using heq.symm
      exact List.mem_map.2 ⟨_, List.mem_of_getLast? hend, rfl⟩
    exact hdistinct.2.2 y hpre y hpost rfl
  · obtain rfl := hgoal.arranged.eq_of_name hb hlast (by simpa using hname)
    exact ⟨⟨_, _, _⟩, rfl⟩

end Goal.Resolves

end UniqueEvidence
