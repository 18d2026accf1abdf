/-
Rules on goals with renamed hypotheses.

* `Concur`: two computations end alike: in related results, or in faults that leave a branch open
  for the same reason, as far as the depth goes;
* `Kernel.Matches`: two kernels with the same deciders, whose declarations give constants the same
  types and constructors the same arguments;
* `Kernel.upToDepth_expectType_of_alike`: **typing respects renaming**.  Inference opens binders
  with names of its own, so this goes by way of what it infers;
* `Rule.rename`, `Kernel.upToDepth_run_of_alike`: **what a rule makes of a goal, it makes of an
  alike goal**, once the names it is given are renamed too;
* `Kernel.concur_run`, `Kernel.concur_change`, `Kernel.concur_uip`: **alike goals are treated
  alike**, also where a rule is refused.
-/
import UniqueEvidence.Proofs.BranchWork
import UniqueEvidence.Proofs.Course
import UniqueEvidence.Proofs.Renaming

namespace UniqueEvidence

open Nameless

/-! ### Two computations -/

/-- Why a branch stays open on account of a fault, if the fault concerns the branch alone. -/
def Fault.reason? (f : Fault) : Option String :=
  (Obstacle.ofFault? f).map Obstacle.reason

/-- The computations give related results, or faults with the same reason, unless one of them runs
out of depth. -/
inductive Concur {α β : Type} (R : α → β → Prop) : Except Fault α → Except Fault β → Prop where
  | ok {a : α} {b : β} : R a b → Concur R (.ok a) (.ok b)
  | error {f f' : Fault} : f.reason? = f'.reason? → Concur R (.error f) (.error f')
  | left {y : Except Fault β} : Concur R (.error .exhausted) y
  | right {x : Except Fault α} : Concur R x (.error .exhausted)

namespace Concur

variable {α β γ δ : Type} {R S : α → β → Prop} {x : Except Fault α} {y : Except Fault β}

lemma imp (h : Concur R x y) (hRS : ∀ a b, x = .ok a → y = .ok b → R a b → S a b) :
    Concur S x y := by
  cases h with
  | ok h => exact .ok (hRS _ _ rfl rfl h)
  | error h => exact .error h
  | left => exact .left
  | right => exact .right

lemma bind {f : α → Except Fault γ} {f' : β → Except Fault δ} {T : γ → δ → Prop} (h : Concur R x y)
    (hf : ∀ a b, R a b → Concur T (f a) (f' b)) : Concur T (x >>= f) (y >>= f') := by
  cases h with
  | ok h => exact hf _ _ h
  | error h => exact .error h
  | left => exact .left
  | right => exact .right

/-- Computations of which either gives a result where the other does. -/
lemma of_upToDepth (hok : ∀ a, x = .ok a → UpToDepth y (R a))
    (hok' : ∀ b, y = .ok b → UpToDepth x fun _ => True)
    (hfault : ∀ f f', x = .error f → y = .error f' → f = .exhausted ∨ f' = .exhausted ∨
      f.reason? = f'.reason?) : Concur R x y := by
  rcases x with f | a
  · rcases y with f' | b
    · rcases hfault f f' rfl rfl with rfl | rfl | h
      · exact .left
      · exact .right
      · exact .error h
    · rcases hok' b rfl with h | ⟨a, h, -⟩
      · exact h ▸ .left
      · cases h
  · rcases hok a rfl with rfl | ⟨b, rfl, h⟩
    · exact .right
    · exact .ok h

/-- The same for computations that are refused for no want of a decider. -/
lemma of_spares (hx : Spares x) (hy : Spares y) (hok : ∀ a, x = .ok a → UpToDepth y (R a))
    (hok' : ∀ b, y = .ok b → UpToDepth x fun _ => True) : Concur R x y := by
  refine of_upToDepth hok hok' fun f f' hf hf' => ?_
  rcases hx f hf with rfl | ⟨why, rfl, hwhy⟩
  · exact .inl rfl
  · rcases hy f' hf' with rfl | ⟨why', rfl, hwhy'⟩
    · exact .inr (.inl rfl)
    · exact .inr (.inr (by simp [Fault.reason?, Obstacle.ofFault?, Obstacle.reason, hwhy, hwhy']))

/-- The second computation gives a result where the first does. -/
lemma upToDepth {a : α} (h : Concur R x y) (hx : x = .ok a) : UpToDepth y (R a) := by
  cases h with
  | ok h =>
    cases hx
    exact .ok h
  | error | left => cases hx
  | right => exact .inl rfl

lemma refuse {why why' : Refusal}
    (h : (Obstacle.refused why).isMissingDecider = (Obstacle.refused why').isMissingDecider) :
    Concur R (UniqueEvidence.refuse why) (UniqueEvidence.refuse why') :=
  .error (by simp [Fault.reason?, Obstacle.ofFault?, Obstacle.reason, h])

/-- A computation concurs with itself. -/
lemma self (x : Except Fault α) : Concur (fun a b => b = a ∧ x = .ok a) x x := by
  cases x with
  | ok a => exact .ok ⟨rfl, rfl⟩
  | error f => exact .error rfl

lemma mapM {f : α → Except Fault γ} {f' : β → Except Fault δ} {T : γ → δ → Prop}
    (hf : ∀ a b, R a b → Concur T (f a) (f' b)) {as : List α} {bs : List β}
    (h : List.Forall₂ R as bs) : Concur (List.Forall₂ T) (as.mapM f) (bs.mapM f') := by
  induction h with
  | nil => exact .ok .nil
  | cons hab _ ih =>
    rw [List.mapM_cons, List.mapM_cons]
    exact (hf _ _ hab).bind fun _ _ hcd => ih.bind fun _ _ hrest => .ok (.cons hcd hrest)

/-- Refusals of both are mismatches of both. -/
lemma refusalAs (h : Concur R x y) (why : Refusal → Mismatch) (hx : ∀ f, x = .error f → f.IsRefusal)
    (hy : ∀ f, y = .error f → f.IsRefusal) :
    Concur R (UniqueEvidence.refusalAs why x) (UniqueEvidence.refusalAs why y) := by
  cases h with
  | ok h => exact .ok h
  | @error f f' _ =>
    obtain rfl | ⟨_, rfl⟩ := hx f rfl
    · exact .left
    · obtain rfl | ⟨_, rfl⟩ := hy f' rfl
      · exact .right
      · exact .error rfl
  | left => exact .left
  | right => exact .right

end Concur

variable {σ : Equiv.Perm Name}

lemma Term.Alike.concur_normalize {t t' : Term} (h : t.Alike σ t') (k k' : Kernel) :
    Concur (Term.Alike σ) (k.normalize t) (k'.normalize t') :=
  .of_spares (spares_withinDepth _) (spares_withinDepth _) (fun _ hu => h.upToDepth_normalize hu k')
    fun _ _ => Kernel.upToDepth_normalize k t

lemma Term.Alike.concur_convertible {t t' u u' : Term} (h : t.Alike σ t') (hu : u.Alike σ u')
    (k k' : Kernel) : Concur Eq (k.convertible t u) (k'.convertible t' u') :=
  .of_spares (spares_withinDepth _) (spares_withinDepth _)
    (fun _ hanswer => (h.upToDepth_convertible hu hanswer k').imp fun _ _ => Eq.symm) fun _ _ =>
      Kernel.upToDepth_withinDepth _

/-! ### Kernels -/

/-- The kernels have the same deciders, which do not depend on names, and their declarations, over
nothing but themselves, give constants the same types and constructors the same arguments. -/
structure Kernel.Matches (k k' : Kernel) : Prop where
  registry : k'.registry = k.registry
  uniform : k.registry.IsUniform
  isScoped : k.env.Scoped
  isScoped' : k'.env.Scoped
  constType? : ∀ c, k'.env.constType? c = k.env.constType? c
  dataCtor? : ∀ c, k'.env.dataCtor? c = k.env.dataCtor? c
  familyCtor? : ∀ c, (k'.env.familyCtor? c).map Prod.snd = (k.env.familyCtor? c).map Prod.snd

namespace Kernel.Matches

variable {k k' : Kernel} (hk : k.Matches k')
include hk

lemma symm : k'.Matches k where
  registry := hk.registry.symm
  uniform := hk.registry ▸ hk.uniform
  isScoped := hk.isScoped'
  isScoped' := hk.isScoped
  constType? c := (hk.constType? c).symm
  dataCtor? c := (hk.dataCtor? c).symm
  familyCtor? c := (hk.familyCtor? c).symm

lemma isConstructor (c : Name) : k'.env.isConstructor c = k.env.isConstructor c := by
  have hfamily := congrArg Option.isSome (hk.familyCtor? c)
  rw [Option.isSome_map, Option.isSome_map] at hfamily
  rw [Environment.isConstructor, Environment.isConstructor, hk.dataCtor?, hfamily]

/-- Terms that are alike are headed by the same constructor. -/
lemma constructorHead? {t t' : Term} (h : t.Alike σ t') :
    k'.env.constructorHead? t' = k.env.constructorHead? t := by
  have hone : ∀ {σ : Equiv.Perm Name} {k k' : Kernel} {t t' : Term} {c : Name}, k.Matches k' →
      t.Alike σ t' → k.env.constructorHead? t = some c → k'.env.constructorHead? t' = some c := by
    intro σ k k' t t' c hk h hc
    obtain ⟨hhead, hctor⟩ := constructorHead?_eq_some hc
    have hhead' := h.spine.1
    rw [hhead, Term.alike_const_iff] at hhead'
    simp only [Environment.constructorHead?, hhead', hk.isConstructor, hctor, if_true]
  exact Option.ext fun c => ⟨hone hk.symm h.symm, hone hk h⟩

lemma ctorBinders (c : Name) : Kernel.ctorBinders k'.env c = Kernel.ctorBinders k.env c := by
  have hfamily := hk.familyCtor? c
  rw [Kernel.ctorBinders, Kernel.ctorBinders, hk.dataCtor?]
  cases k.env.dataCtor? c with
  | some => rfl
  | none =>
    cases hc : k.env.familyCtor? c <;> cases hc' : k'.env.familyCtor? c <;> simp_all

lemma indexVars (c : Name) : Kernel.indexVars k'.env c = Kernel.indexVars k.env c := by
  have hfamily := hk.familyCtor? c
  rw [Kernel.indexVars, Kernel.indexVars]
  cases hc : k.env.familyCtor? c <;> cases hc' : k'.env.familyCtor? c <;> simp_all

lemma signature :
    k'.env.signature hk.isScoped'.closed .strict = k.env.signature hk.isScoped.closed .strict := by
  simp only [Environment.signature, hk.constType?]

/-- The types of a constructor's arguments mention only arguments. -/
lemma ctorBinders_over (c : Name) {b : Binding} (hb : b ∈ Kernel.ctorBinders k.env c) :
    b.ty.freeVars ⊆ Binding.names (Kernel.ctorBinders k.env c) := by
  rw [Kernel.ctorBinders] at hb ⊢
  cases hdata : k.env.dataCtor? c with
  | some p =>
    obtain ⟨d, ctor⟩ := p
    rw [hdata] at hb
    obtain ⟨hd, hctor, -⟩ := Environment.mem_of_dataCtor? hdata
    obtain ⟨⟨ty, i⟩, hty, rfl⟩ := List.mem_map.1 hb
    rw [hk.isScoped.argTypes d hd ctor hctor ty (List.fst_mem_of_mem_zipIdx hty)]
    exact List.nil_subset _
  | none =>
    cases hfamily : k.env.familyCtor? c with
    | some p =>
      obtain ⟨f, ctor⟩ := p
      rw [hdata, hfamily] at hb
      obtain ⟨hf, hctor, -⟩ := Environment.mem_of_familyCtor? hfamily
      intro x hx
      obtain ⟨pre, post, hsplit⟩ := List.append_of_mem hb
      rcases (hk.isScoped.binders f hf ctor hctor).of_split hsplit x hx with hx | hx
      · simp only [hsplit, Binding.names, List.map_append, List.mem_append]
        exact .inl hx
      · cases hx
    | none =>
      rw [hdata, hfamily] at hb
      cases hb

lemma concur_decider? {ty ty' : Term} (h : ty.Alike σ ty') :
    Concur Eq (k.decider? ty) (k'.decider? ty') := by
  refine .of_spares (spares_withinDepth _) (spares_withinDepth _) (fun d? hd => ?_) fun _ _ =>
    upToDepth_withinDepth _
  refine (upToDepth_withinDepth _).imp fun d?' hd' _ => ?_
  obtain ⟨u, hu, rfl⟩ := Option.map_eq_some_iff.1 (withinDepth_eq_ok.1 hd)
  obtain ⟨u', hu', rfl⟩ := Option.map_eq_some_iff.1 (withinDepth_eq_ok.1 hd')
  have halike : u.Alike σ u' :=
    (h.upToDepth_normalize (withinDepth_eq_ok.2 hu) k').of_eq_ok (withinDepth_eq_ok.2 hu')
  rw [hk.registry]
  exact (hk.uniform.find?_of_alike halike).symm

end Kernel.Matches

namespace Equation.Alike

variable {e e' : Equation} (he : e.Alike σ e')
include he

/-- An equation is solved for the new name of a variable where it was solved for the old one. -/
lemma exists_solvedFor {y : Name} {v : Term} (hv : Kernel.solvedFor e y = some v) :
    ∃ v', Kernel.solvedFor e' (σ y) = some v' ∧ v.Alike σ v' := by
  have hvar : ∀ {t t' : Term}, t.Alike σ t' → (t' = .var (σ y) ↔ t = .var y) := by
    refine fun h => ⟨fun heq => ?_, fun heq => Term.alike_var_iff.1 (heq ▸ h)⟩
    simpa [heq, Term.alike_var_iff] using h.symm
  simp only [Kernel.solvedFor, hvar he.rhs, hvar he.lhs] at hv ⊢
  split at hv
  · obtain rfl := Option.some.inj hv
    exact ⟨e'.lhs, by simp_all, he.lhs⟩
  · split at hv
    · obtain rfl := Option.some.inj hv
      exact ⟨e'.rhs, by simp_all, he.rhs⟩
    · cases hv

end Equation.Alike

/-! ### Lists -/

lemma forall₂_zipWith {α α' β β' γ γ' : Type} {R : α → α' → Prop} {S : β → β' → Prop}
    {T : γ → γ' → Prop} {f : α → β → γ} {f' : α' → β' → γ'}
    (hf : ∀ {a a' b b'}, R a a' → S b b' → T (f a b) (f' a' b')) {as : List α} {as' : List α'}
    {bs : List β} {bs' : List β'} (has : List.Forall₂ R as as') (hbs : List.Forall₂ S bs bs') :
    List.Forall₂ T (List.zipWith f as bs) (List.zipWith f' as' bs') := by
  induction has generalizing bs bs' with
  | nil => exact .nil
  | cons ha _ ih =>
    cases hbs with
    | nil => exact .nil
    | cons hb hbs => exact .cons (hf ha hb) (ih hbs)

/-! ### Typing -/

namespace Kernel

variable {k k' : Kernel} {g g' : Goal} {gs : List Goal} {x y : Name}

/-- **Typing respects renaming.** -/
theorem upToDepth_expectType_of_alike (hk : k.Matches k') (hgoal : g.Scoped) (h : g.Alike σ g')
    {t t' : Term} (ht : t.Alike σ t') (hover : t.freeVars ⊆ g.names)
    (htype : k.expectType g.context t = .ok ()) :
    UpToDepth (k'.expectType g'.context t') fun _ => True := by
  have hgoal' := h.isScoped hgoal
  rw [hgoal.context_eq] at htype
  rw [hgoal'.context_eq]
  have hscoped : ∀ {g : Goal}, g.Scoped → Context.Scoped g.hyps .strict :=
    fun hgoal b hb x hx => hgoal.arranged.mem_names hb (Term.occurs_nameless.1 hx)
  have htyped : HasType .strict (k.env.signature hk.isScoped.closed .strict)
      (Context.scope g.hyps .strict) t.nameless sort :=
    Sound.expectType (inferAt_sound k hk.isScoped.closed .strict k.depth) (hscoped hgoal)
      (fun x hx => hover (Term.occurs_nameless.1 hx)) htype
  refine Complete.expectType (inferAt_complete k' hk.isScoped'.closed k'.depth)
    (hscoped hgoal') (fun y hy => ?_) ?_
  · obtain ⟨x, hx, rfl⟩ := ht.exists_of_mem (Term.occurs_nameless.1 hy)
    exact h.mem_names.2 (hover hx)
  · rw [hk.signature, ht]
    refine htyped.rename fun r A _ hA => ?_
    obtain ⟨b, hb, rfl, rfl⟩ := Context.exists_of_scope hA
    obtain ⟨b', hb', hbb'⟩ := exists_of_forall₂ h.hyps hb
    have hscope := Context.scope_of_mem (m := .strict) hgoal'.arranged.distinct hb'
    rw [hbb'.name] at hscope
    exact hscope.trans (congrArg some hbb'.ty)

/-! ### Changing the target -/

lemma upToDepth_change_of_alike (hk : k.Matches k') (hgoal : g.Scoped) (h : g.Alike σ g')
    {t t' : Term} (ht : t.Alike σ t') (hover : t.freeVars ⊆ g.names) (hgs : k.change g t = .ok gs) :
    UpToDepth (k'.change g' t') (List.Forall₂ (Goal.Alike σ) gs) := by
  obtain ⟨htype, hconv, rfl⟩ := change_eq_ok hgs
  refine (upToDepth_expectType_of_alike hk hgoal h ht hover htype).bind fun _ _ _ => ?_
  refine (h.target.upToDepth_convertible ht hconv k').bind fun answer _ hanswer => ?_
  rw [hanswer, if_pos rfl]
  exact .ok (.cons (h.withTarget ht) .nil)

section Preconditions

lemma freshFor_of {names : List Name} (hnodup : names.Nodup) (hnew : ∀ x ∈ names, x ∉ g.names)
    (shown : Argument) : freshFor g names names.length shown = .ok () := by
  have hfind : names.find? (· ∈ g.names) = none :=
    List.find?_eq_none.2 fun x hx => by simpa using hnew x hx
  rw [freshFor, if_pos ⟨rfl, hnodup⟩, hfind]
  rfl

lemma unusedInHyps_of (hhyps : ∀ b ∈ g.hyps, b.name ≠ x → x ∉ b.ty.freeVars) :
    unusedInHyps g x = .ok () := by
  have hfind : (g.hyps.find? fun b => b.name != x && b.ty.occurs x) = none :=
    List.find?_eq_none.2 fun b hb => by simpa [Term.occurs] using hhyps b hb
  rw [unusedInHyps, hfind]
  rfl

lemma unused_of (htarget : x ∉ g.target.freeVars)
    (hhyps : ∀ b ∈ g.hyps, b.name ≠ x → x ∉ b.ty.freeVars) : unused g x = .ok () := by
  rw [unused, if_neg (by simpa [Term.occurs] using htarget), unusedInHyps_of hhyps]

variable (h : g.Alike σ g')
include h

lemma unmentioned_of_alike (hhyps : ∀ b ∈ g.hyps, b.name ≠ x → x ∉ b.ty.freeVars) :
    ∀ b ∈ g'.hyps, b.name ≠ σ x → σ x ∉ b.ty.freeVars := by
  intro b' hb' hname
  obtain ⟨b, hb, hbb'⟩ := exists_of_forall₂ (List.Forall₂.flip h.hyps) hb'
  rw [hbb'.ty.mem_freeVars]
  exact hhyps b hb fun heq => hname (hbb'.name.trans (congrArg σ heq))

lemma without_of_alike (x : Name) :
    List.Forall₂ (Binding.Alike σ) (without g x) (without g' (σ x)) :=
  List.rel_filter (fun _ _ hb => by simp [bne, hb.name_beq]) h.hyps

lemma upToDepth_equation_of_alike {e : Equation} (he : k.equation g x = .ok e) (k' : Kernel) :
    UpToDepth (k'.equation g' (σ x)) (e.Alike σ) := by
  obtain ⟨ty, hty, hu⟩ := equation_eq_ok he
  obtain ⟨ty', hty', halike⟩ := h.lookup? hty
  simp only [equation, hty']
  refine (halike.upToDepth_normalize hu k').bind fun u' _ hu' => ?_
  obtain ⟨e', rfl, he'⟩ := hu'.exists_equation
  exact .ok he'

lemma concur_equation (x : Name) (k k' : Kernel) :
    Concur (Equation.Alike σ) (k.equation g x) (k'.equation g' (σ x)) := by
  refine .of_spares (spares_equation x) (spares_equation _)
    (fun e he => upToDepth_equation_of_alike h he k') fun e' he' => ?_
  have hback := upToDepth_equation_of_alike h.symm he' k
  rw [Equiv.symm_apply_apply] at hback
  exact hback.imp fun _ _ _ => trivial

lemma concur_unusedInHyps (x : Name) :
    Concur (fun _ _ => True) (unusedInHyps g x) (unusedInHyps g' (σ x)) := by
  refine .of_spares (spares_unusedInHyps x) (spares_unusedInHyps _)
    (fun _ hunused => ?_) fun _ hunused => ?_
  · rw [unusedInHyps_of (unmentioned_of_alike h (unusedInHyps_eq_ok hunused))]
    exact .ok trivial
  · have hback := unmentioned_of_alike h.symm (unusedInHyps_eq_ok hunused)
    rw [Equiv.symm_apply_apply] at hback
    rw [unusedInHyps_of hback]
    exact .ok trivial

lemma upToDepth_targetEquation_of_alike {e : Equation} (he : k.targetEquation g = .ok e)
    (k' : Kernel) : UpToDepth (k'.targetEquation g') (e.Alike σ) := by
  refine (h.target.upToDepth_normalize (targetEquation_eq_ok he) k').bind fun u' _ hu' => ?_
  obtain ⟨e', rfl, he'⟩ := hu'.exists_equation
  exact .ok he'

end Preconditions

section Rules

variable (h : g.Alike σ g')
include h

lemma upToDepth_intro_of_alike (hgs : k.intro g x = .ok gs) (k' : Kernel) :
    UpToDepth (k'.intro g' (σ x)) (List.Forall₂ (Goal.Alike σ) gs) := by
  obtain ⟨z, dom, cod, hpi, hx, rfl⟩ := intro_eq_ok hgs
  refine (h.target.upToDepth_normalize hpi k').bind fun u' _ hu' => ?_
  obtain ⟨z', dom', cod', rfl, hdom⟩ := hu'.exists_pi
  have hnew : ∀ y ∈ [σ x], y ∉ g'.names := by
    intro y hy
    rw [List.mem_singleton.1 hy, h.mem_names]
    exact hx
  have hfresh : freshFor g' [σ x] 1 (.ofNames [σ x]) = .ok () :=
    freshFor_of (List.nodup_singleton _) hnew _
  dsimp only
  rw [hfresh, Except.ok_bind]
  refine .ok (.cons ⟨List.rel_append h.hyps (.cons ⟨rfl, hdom⟩ .nil), ?_⟩ .nil)
  exact hu'.contract (Term.alike_var_iff.2 rfl)

lemma upToDepth_clear_of_alike (hgs : clear g x = .ok gs) :
    UpToDepth (clear g' (σ x)) (List.Forall₂ (Goal.Alike σ) gs) := by
  rw [clear] at hgs
  split at hgs
  · cases hgs
  · rename_i ty hty
    obtain ⟨⟨⟩, hunused, hgs⟩ := Except.bind_eq_ok.1 hgs
    obtain rfl := Except.ok.inj hgs
    obtain ⟨htarget, hhyps⟩ := unused_eq_ok hunused
    obtain ⟨ty', hty', -⟩ := h.lookup? hty
    have hunused' :=
      unused_of (fun hx => htarget (h.target.mem_freeVars.1 hx)) (unmentioned_of_alike h hhyps)
    simp only [clear, hty', hunused', Except.ok_bind]
    exact .ok (.cons ⟨without_of_alike h x, h.target⟩ .nil)

lemma upToDepth_symmetry_of_alike (hgs : k.symmetry g = .ok gs) (k' : Kernel) :
    UpToDepth (k'.symmetry g') (List.Forall₂ (Goal.Alike σ) gs) := by
  obtain ⟨e, he, rfl⟩ := symmetry_eq_ok hgs
  refine (upToDepth_targetEquation_of_alike h he k').bind fun e' _ he' => ?_
  exact .ok (.cons (h.withTarget (he'.ty.eq he'.rhs he'.lhs)) .nil)

lemma upToDepth_reflexivity_of_alike (hgs : k.reflexivity g = .ok gs) (k' : Kernel) :
    UpToDepth (k'.reflexivity g') (List.Forall₂ (Goal.Alike σ) gs) := by
  obtain ⟨e, he, hconv, rfl⟩ := reflexivity_eq_ok hgs
  refine (upToDepth_targetEquation_of_alike h he k').bind fun e' _ he' => ?_
  refine (he'.lhs.upToDepth_convertible he'.rhs hconv k').bind fun answer _ hanswer => ?_
  rw [hanswer, if_pos rfl]
  exact .ok .nil

lemma upToDepth_assumption_of_alike (hgs : k.assumption g x = .ok gs) (k' : Kernel) :
    UpToDepth (k'.assumption g' (σ x)) (List.Forall₂ (Goal.Alike σ) gs) := by
  obtain ⟨ty, hty, hconv, rfl⟩ := assumption_eq_ok hgs
  obtain ⟨ty', hty', halike⟩ := h.lookup? hty
  simp only [assumption, hty']
  refine (halike.upToDepth_convertible h.target hconv k').bind fun answer _ hanswer => ?_
  rw [hanswer, if_pos rfl]
  exact .ok .nil

lemma upToDepth_eliminate_of_alike (hgs : k.eliminate g x y = .ok gs) (k' : Kernel) :
    UpToDepth (k'.eliminate g' (σ x) (σ y)) (List.Forall₂ (Goal.Alike σ) gs) := by
  obtain ⟨e, v, hyps, he, hv, hyx, hy, hocc, htarget, hhyps, hreorder, rfl⟩ := eliminate_eq_ok hgs
  refine (upToDepth_equation_of_alike h he k').bind fun e' _ he' => ?_
  obtain ⟨v', hv', hvv'⟩ := he'.exists_solvedFor hv
  have hkept : ¬ (σ y = σ x ∨ (g'.lookup? (σ y)).isNone = true) := by
    rw [σ.injective.eq_iff, Option.isNone_iff_eq_none,
      ← Option.not_isSome_iff_eq_none, h.isSome_lookup?]
    exact not_or.2 ⟨hyx, not_not.2 hy⟩
  have hocc' : v'.occurs (σ y) = false := by simpa [Term.occurs, hvv'.mem_freeVars] using hocc
  have hunused' :=
    unused_of (fun hx => htarget (h.target.mem_freeVars.1 hx)) (unmentioned_of_alike h hhyps)
  have hrest : List.Forall₂ (Binding.Alike σ)
      ((g.hyps.filter fun b => b.name != y && b.name != x).map fun b =>
        { b with ty := b.ty.subst y v })
      ((g'.hyps.filter fun b => b.name != σ y && b.name != σ x).map fun b =>
        { b with ty := b.ty.subst (σ y) v' }) := by
    refine List.rel_map (fun b b' hb => ⟨hb.name, hb.ty.subst hvv' y⟩)
      (List.rel_filter (fun b b' hb => ?_) h.hyps)
    simp [bne, hb.name_beq]
  obtain ⟨hyps', hreorder', hhyps'⟩ := reorder_of_alike hrest hreorder
  simp only [hv', hkept, hocc', hunused', hreorder', Except.ok_bind, if_false, Bool.false_eq_true]
  exact .ok (.cons ⟨hhyps', h.target.subst hvv' y⟩ .nil)

end Rules

/-- The equations between the arguments of a constructor are alike: their types mention no argument,
so nothing at all. -/
lemma upToDepth_argumentEquations_of_alike {c : Name} {bound determined : List Name}
    {triples triples' : List (Binding × Term × Term)}
    (hbound : ∀ t ∈ triples, t.1.ty.freeVars ⊆ bound)
    (htriples : List.Forall₂ (fun t t' => t'.1 = t.1 ∧ t.2.1.Alike σ t'.2.1 ∧
      t.2.2.Alike σ t'.2.2) triples triples') {parts : List Term}
    (hparts : k.argumentEquations c bound determined triples = .ok parts) :
    UpToDepth (k'.argumentEquations c bound determined triples')
      (List.Forall₂ (Term.Alike σ) parts) := by
  induction htriples generalizing parts with
  | nil =>
    obtain rfl : [] = parts := by simpa [argumentEquations, pure, Except.pure] using hparts
    exact .ok .nil
  | @cons t t' rest rest' ht _ ih =>
    obtain ⟨b, l, r⟩ := t
    obtain ⟨b', l', r'⟩ := t'
    obtain ⟨rfl, hl, hr⟩ : b' = b ∧ l.Alike σ l' ∧ r.Alike σ r' := ht
    rw [argumentEquations] at hparts ⊢
    split at hparts
    · cases hparts
    · rename_i hdep
      rw [if_neg hdep]
      have hclosed : b'.ty.freeVars = [] := by
        refine List.eq_nil_iff_forall_not_mem.2 fun x hx => hdep (List.any_eq_true.2 ⟨x, hx, ?_⟩)
        simpa using hbound _ List.mem_cons_self hx
      have hrest : ∀ {parts}, (do
            let rest ← k.argumentEquations c bound determined rest
            pure (Term.eq b'.ty l r :: rest)) = .ok parts →
          UpToDepth (do
            let rest ← k'.argumentEquations c bound determined rest'
            pure (Term.eq b'.ty l' r' :: rest)) (List.Forall₂ (Term.Alike σ) parts) := by
        intro parts hparts
        obtain ⟨others, hothers, hparts⟩ := Except.bind_eq_ok.1 hparts
        obtain rfl := Except.ok.inj hparts
        refine (ih (fun t ht => hbound t (List.mem_cons_of_mem _ ht)) hothers).bind
          fun others' _ hothers' => ?_
        exact .ok (.cons ((Term.alike_of_closed hclosed).eq hl hr) hothers')
      by_cases hdetermined : b'.name ∈ determined
      · simp only [hdetermined, if_true] at hparts ⊢
        obtain ⟨agree, hagree, hparts⟩ := Except.bind_eq_ok.1 hparts
        refine (hl.upToDepth_convertible hr hagree k').bind fun agree' _ hagree' => ?_
        rw [hagree']
        cases agree with
        | true => exact hrest hparts
        | false => cases hparts
      · simp only [hdetermined, if_false] at hparts ⊢
        exact hrest hparts

section Declarations

variable (hk : k.Matches k')
include hk

/-- Equations between components are alike: the types of components are closed. -/
lemma Splits.exists_of_alike {e e' : Equation} {parts : List Term} (h : Splits k.env e parts)
    (he : e.Alike σ e') :
    ∃ parts', Splits k'.env e' parts' ∧ List.Forall₂ (Term.Alike σ) parts parts' := by
  cases h with
  | pairs heq =>
    subst heq
    obtain ⟨ty', lhs', rhs'⟩ := e'
    obtain ⟨a', b', rfl, ha, hb⟩ := Term.alike_prod_iff.1 he.ty
    obtain ⟨l₁', l₂', rfl, hl₁, hl₂⟩ := Term.alike_pair_iff.1 he.lhs
    obtain ⟨r₁', r₂', rfl, hr₁, hr₂⟩ := Term.alike_pair_iff.1 he.rhs
    exact ⟨_, .pairs rfl, .cons (ha.eq hl₁ hr₁) (.cons (hb.eq hl₂ hr₂) .nil)⟩
  | @ctor c d ctor hl hr hctor hllen hrlen =>
    obtain ⟨hlhead, hlargs⟩ := he.lhs.spine
    obtain ⟨hrhead, hrargs⟩ := he.rhs.spine
    rw [hl, Term.alike_const_iff] at hlhead
    rw [hr, Term.alike_const_iff] at hrhead
    obtain ⟨hd, hmem, -⟩ := Environment.mem_of_dataCtor? hctor
    have hclosed := hk.isScoped.argTypes d hd ctor hmem
    refine ⟨_, .ctor hlhead hrhead ((hk.dataCtor? c).trans hctor) (hlargs.length_eq ▸ hllen)
      (hrargs.length_eq ▸ hrlen), ?_⟩
    have hsides : List.Forall₂ (fun (p p' : Term × Term) => p.1.Alike σ p'.1 ∧ p.2.Alike σ p'.2)
        (e.lhs.args.zip e.rhs.args) (e'.lhs.args.zip e'.rhs.args) :=
          forall₂_zipWith (fun hl hr => ⟨hl, hr⟩) hlargs hrargs
    have htypes : List.Forall₂ (Term.Alike σ) ctor.argTypes ctor.argTypes :=
      List.forall₂_same.2 fun ty hty => Term.alike_of_closed (hclosed ty hty)
    exact forall₂_zipWith (fun hty hlr => hty.eq hlr.1 hlr.2) htypes hsides

omit hk in
lemma constructorHead?_of_dataCtor? {env : Environment} {t : Term} {c : Name}
    {d : DataType × DataCtor} (ht : t.head = .const c) (hc : env.dataCtor? c = some d) :
    env.constructorHead? t = some c := by
  simp [Environment.constructorHead?, ht, Environment.isConstructor, hc]

omit hk in
/-- Equations between components, found. -/
lemma Splits.componentEquations {e : Equation} {parts : List Term} (h : Splits k.env e parts)
    (x : Name) : k.componentEquations x e = .ok parts := by
  cases h with
  | pairs heq =>
    subst heq
    rfl
  | @ctor c d ctor hl hr hctor hllen hrlen =>
    rw [Kernel.componentEquations]
    split
    · rename_i hpair _
      rw [hpair] at hl
      cases hl
    · simp only [constructorHead?_of_dataCtor? hl hctor, hctor,
        constructorHead?_of_dataCtor? hr hctor, hllen, hrlen, and_self, if_true]
      rfl

variable (h : g.Alike σ g')
include h

lemma upToDepth_injection_of_alike {names : List Name} (hgs : k.injection g x names = .ok gs) :
    UpToDepth (k'.injection g' (σ x) (names.map σ)) (List.Forall₂ (Goal.Alike σ) gs) := by
  obtain ⟨e, parts, he, hsplits, hlen, hnodup, hnew, rfl⟩ := injectionAs_eq_ok hgs
  refine (upToDepth_equation_of_alike h he k').bind fun e' _ he' => ?_
  obtain ⟨parts', hsplits', hparts⟩ := hsplits.exists_of_alike hk he'
  have hnew' : ∀ y ∈ names.map σ, y ∉ g'.names := by
    intro y' hy'
    obtain ⟨y, hy, rfl⟩ := List.mem_map.1 hy'
    rw [h.mem_names]
    exact hnew y hy
  have hfresh := freshFor_of (hnodup.map σ.injective) hnew' (.ofNames (names.map σ))
  rw [List.length_map, hlen, hparts.length_eq] at hfresh
  rw [hsplits'.componentEquations, Except.ok_bind, hfresh, Except.ok_bind]
  refine .ok (.cons ⟨List.rel_append h.hyps ?_, h.target⟩ .nil)
  refine forall₂_zipWith (R := fun y y' => y' = σ y) (fun hname hty => ⟨hname, hty⟩) ?_ hparts
  exact List.forall₂_map_right_iff.2 (List.forall₂_same.2 fun _ _ => rfl)

lemma upToDepth_discriminate_of_alike (hgs : k.discriminate g x = .ok gs) :
    UpToDepth (k'.discriminate g' (σ x)) (List.Forall₂ (Goal.Alike σ) gs) := by
  rw [discriminate, Except.bind_eq_ok] at hgs
  obtain ⟨e, he, hgs⟩ := hgs
  refine (upToDepth_equation_of_alike h he k').bind fun e' _ he' => ?_
  rw [hk.constructorHead? he'.lhs, hk.constructorHead? he'.rhs]
  split at hgs
  · split at hgs
    · rename_i hdistinct
      obtain rfl := Except.ok.inj hgs
      rw [hk.dataCtor?, if_pos hdistinct]
      exact .ok .nil
    · cases hgs
  · cases hgs

/-- A decider is missing for both equations or for neither. -/
lemma concur_uip (x : Name) :
    Concur (List.Forall₂ (Goal.Alike σ)) (k.uip g x) (k'.uip g' (σ x)) := by
  refine (concur_equation h x k k').bind fun e e' he =>
    (he.lhs.concur_convertible he.rhs k k').bind ?_
  rintro answer _ rfl
  cases answer with
  | false => exact .refuse rfl
  | true =>
    refine (hk.concur_decider? he.ty).bind ?_
    rintro d? _ rfl
    cases d? with
    | none => exact .refuse rfl
    | some d =>
      refine (concur_unusedInHyps h x).bind fun _ _ _ => .ok (.cons ⟨without_of_alike h x, ?_⟩ .nil)
      exact h.target.subst (he.ty.refl he.lhs) x

lemma upToDepth_decide_of_alike (hgs : k.decide g = .ok gs) :
    UpToDepth (k'.decide g') (List.Forall₂ (Goal.Alike σ) gs) := by
  obtain ⟨e, d, he, ⟨hl, hr⟩, hd, hdecides, rfl⟩ := decide_eq_ok hgs
  refine (upToDepth_targetEquation_of_alike h he k').bind fun e' _ he' => ?_
  have hclosed : ∀ {t t' : Term}, t.Alike σ t' → t.freeVars = [] → t'.freeVars = [] := by
    refine fun ht hempty => List.eq_nil_iff_forall_not_mem.2 fun y hy => ?_
    obtain ⟨x, hx, -⟩ := ht.exists_of_mem hy
    rw [hempty] at hx
    cases hx
  simp only [hclosed he'.lhs hl, hclosed he'.rhs hr, List.isEmpty_nil, Bool.and_self, if_true]
  refine ((hk.concur_decider? he'.ty).upToDepth hd).bind fun d? _ hd? => ?_
  obtain ⟨key, -, hfind⟩ := Option.map_eq_some_iff.1 (withinDepth_eq_ok.1 hd)
  have hsame :=
    hk.uniform.decides_congr hfind (he'.lhs.alphaEq_of_closed hl) (he'.rhs.alphaEq_of_closed hr)
  simp only [← hd?, hsame, hdecides, if_true]
  exact .ok .nil

lemma upToDepth_congruence_of_alike (hgs : k.congruence g = .ok gs) :
    UpToDepth (k'.congruence g') (List.Forall₂ (Goal.Alike σ) gs) := by
  rw [congruence, Except.bind_eq_ok] at hgs
  obtain ⟨e, he, hgs⟩ := hgs
  refine (upToDepth_targetEquation_of_alike h he k').bind fun e' _ he' => ?_
  obtain ⟨-, hlargs⟩ := he'.lhs.spine
  obtain ⟨-, hrargs⟩ := he'.rhs.spine
  rw [hk.constructorHead? he'.lhs, hk.constructorHead? he'.rhs]
  split at hgs
  · cases hgs
  · rename_i c hc
    split at hgs
    · rename_i hc'
      dsimp only at hgs
      split at hgs
      · rename_i hlen
        obtain ⟨parts, hparts, hgs⟩ := Except.bind_eq_ok.1 hgs
        obtain rfl := Except.ok.inj hgs
        have htriples : List.Forall₂ (fun (t t' : Binding × Term × Term) => t'.1 = t.1 ∧
            t.2.1.Alike σ t'.2.1 ∧ t.2.2.Alike σ t'.2.2)
            ((ctorBinders k.env c).zip (e.lhs.args.zip e.rhs.args))
              ((ctorBinders k.env c).zip (e'.lhs.args.zip e'.rhs.args)) :=
          forall₂_zipWith (R := fun b b' => b' = b) (S := fun p p' => p.1.Alike σ p'.1 ∧
            p.2.Alike σ p'.2) (fun hb hlr => ⟨hb, hlr⟩) (List.forall₂_same.2 fun _ _ => rfl)
            (forall₂_zipWith (fun hl hr => ⟨hl, hr⟩) hlargs hrargs)
        dsimp only
        rw [if_pos hc', hk.ctorBinders, hk.indexVars,
          if_pos (by rwa [← hlargs.length_eq, ← hrargs.length_eq])]
        refine (upToDepth_argumentEquations_of_alike (fun t ht => ?_) htriples hparts).bind
          fun parts' _ hparts' => ?_
        · exact hk.ctorBinders_over c (List.of_mem_zip ht).1
        · exact .ok (List.rel_map (fun _ _ hpart => h.withTarget hpart) hparts')
      · cases hgs
    · cases hgs

end Declarations

end Kernel

/-! ### Rules as data -/

/-- The rule with its names renamed.  Terms among the arguments stay. -/
def Rule.rename (σ : Equiv.Perm Name) : Rule → Rule
  | intro x => intro (σ x)
  | clear x => clear (σ x)
  | injection x parts => injection (σ x) (parts.map σ)
  | discriminate x => discriminate (σ x)
  | subst x y => subst (σ x) (σ y)
  | uip x => uip (σ x)
  | assumption x => assumption (σ x)
  | rule => rule

lemma Rule.rename_symm (σ : Equiv.Perm Name) (rule : Rule) :
    (rule.rename σ).rename σ.symm = rule := by
  cases rule <;> simp [Rule.rename]

/-- **What a rule makes of a goal, it makes of an alike goal.** -/
theorem Kernel.upToDepth_run_of_alike {k k' : Kernel} {g g' : Goal} {gs : List Goal}
    (hk : k.Matches k') (h : g.Alike σ g') {rule : Rule} (hrule : rule.IsTermless)
    (hgs : k.run g rule = .ok gs) :
    UpToDepth (k'.run g' (rule.rename σ)) (List.Forall₂ (Goal.Alike σ) gs) := by
  cases rule with
  | change | generalize | case => exact hrule.elim
  | symmetry => exact upToDepth_symmetry_of_alike h hgs k'
  | intro x => exact upToDepth_intro_of_alike h hgs k'
  | clear x => exact upToDepth_clear_of_alike h hgs
  | injection x parts => exact upToDepth_injection_of_alike hk h hgs
  | discriminate x => exact upToDepth_discriminate_of_alike hk h hgs
  | subst x y => exact upToDepth_eliminate_of_alike h hgs k'
  | uip x => exact (concur_uip hk h x).upToDepth hgs
  | reflexivity => exact upToDepth_reflexivity_of_alike h hgs k'
  | assumption x => exact upToDepth_assumption_of_alike h hgs k'
  | decide => exact upToDepth_decide_of_alike hk h hgs
  | congruence => exact upToDepth_congruence_of_alike hk h hgs

namespace Kernel

variable {k k' : Kernel} {g g' : Goal} (hk : k.Matches k') (h : g.Alike σ g')
include hk h

/-- A rule leaves alike subgoals where it applies to either goal. -/
lemma upToDepth_run_of_rename {rule : Rule} (hrule : rule.IsTermless) {gs' : List Goal}
    (hgs' : k'.run g' (rule.rename σ) = .ok gs') : UpToDepth (k.run g rule) fun _ => True := by
  have hrule' : (rule.rename σ).IsTermless := by
    cases rule <;> trivial
  have hback := upToDepth_run_of_alike hk.symm h.symm hrule' hgs'
  rw [Rule.rename_symm] at hback
  exact hback.imp fun _ _ _ => trivial

/-- **Alike goals are treated alike** by a rule that needs no decider. -/
theorem concur_run {rule : Rule} (hrule : rule.IsTermless) (hspares : Spares (k.run g rule))
    (hspares' : Spares (k'.run g' (rule.rename σ))) :
    Concur (List.Forall₂ (Goal.Alike σ)) (k.run g rule) (k'.run g' (rule.rename σ)) :=
  .of_spares hspares hspares' (fun _ => upToDepth_run_of_alike hk h hrule) fun _ =>
    upToDepth_run_of_rename hk h hrule

lemma concur_change (hgoal : g.Scoped) {t t' : Term} (ht : t.Alike σ t')
    (hover : t.freeVars ⊆ g.names) :
    Concur (List.Forall₂ (Goal.Alike σ)) (k.change g t) (k'.change g' t') := by
  refine .of_spares (spares_change t) (spares_change t')
    (fun _ => upToDepth_change_of_alike hk hgoal h ht hover) fun _ hgs => ?_
  refine (upToDepth_change_of_alike hk.symm (h.isScoped hgoal) h.symm ht.symm (fun y hy => ?_)
    hgs).imp fun _ _ _ => trivial
  obtain ⟨x, hx, rfl⟩ := ht.exists_of_mem hy
  exact h.mem_names.2 (hover hx)

end Kernel

end UniqueEvidence
