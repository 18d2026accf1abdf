/-
The opening of a run: everything before the work on the branches.

* `Kernel.upToDepth_checkMotive`: a function that takes indices and evidence and gives types
  **passes as a motive**, whatever names its type binds;
* `Kernel.Evident`: the right side of the oriented equation is evidence of a declared family;
* `Kernel.Compares`: a comparison of the two sides; `Kernel.upToDepth_comparison`: there is one, and
  `Kernel.Compares.typed`: its motive is typed;
* `Kernel.Misfits`: no fixed index of a constructor clashes with that of the evidence, but one is
  another; `Kernel.Compares.yields_prepare`: **the split is refused for such a constructor only**;
* `Kernel.motive_accepted`: so **a run never builds a motive that is refused**, and ends in a
  mismatch for such a constructor only.
-/
import UniqueEvidence.Proofs.Demands
import UniqueEvidence.Proofs.FirstOrder
import UniqueEvidence.Proofs.Motives

namespace UniqueEvidence

open Nameless

/-- The types of the hypotheses. -/
abbrev Goal.scope (goal : Goal) : Scope :=
  Context.scope goal.hyps .strict

namespace Kernel

variable {k : Kernel} {goal : Goal}

/-! ### Motives pass -/

/-- Products over closed types are peeled off a type in normal form.  The names that it binds stand
for the indices, whatever they are. -/
lemma upToDepth_peelIndices {bs : List Binding} {indexTypes : List Term}
    (hbs : List.Forall₂ (fun (b : Binding) ty => b.ty.freeVars = [] ∧
      Conv b.ty.nameless ty.nameless) bs indexTypes) {U R : Term} {σ : Ref → Nameless}
    (hU : Conv U.nameless ((Term.pis bs R).nameless.subst σ)) (hnormal : U.nameless.IsNormal) :
    UpToDepth (k.peelIndices indexTypes U) fun p => p.1.length = bs.length ∧ p.2.nameless.IsNormal ∧
      Conv p.2.nameless (R.nameless.subst (assignAll σ bs (p.1.map fun x => ref (.free x)))) := by
  induction hbs generalizing U σ with
  | nil => exact .ok ⟨rfl, hnormal, hU⟩
  | @cons b ty bs indexTypes hb _ ih =>
    obtain ⟨x, dom, cod, rfl, hdom, hcod⟩ := eq_pi_of_conv hU hnormal
    rw [subst_of_closed (Term.closed_nameless hb.1)] at hdom
    -- the name that is bound is put in for the index
    have hcod' := hcod.inst (.rfl (t := ref (.free x)))
    rw [Context.inst_captured, inst_subst_captured] at hcod'
    have hnormal' : cod.nameless.IsNormal := isNormal_rename.1 hnormal.2
    refine (upToDepth_convertible (hdom.trans hb.2)).bind fun answer _ hanswer => ?_
    subst hanswer
    refine (ih hcod' hnormal').bind fun p _ hp => .ok ?_
    exact ⟨by simpa using hp.1, hp.2⟩

/-- **A function of indices and evidence passes as a motive**, if inference gives it the products
over these as a type. -/
theorem upToDepth_checkMotive {ctx : Context} {motive : Term} {bs : List Binding} {e family : Name}
    {indexTypes fixed : List Term}
    (hinfer : UpToDepth (k.infer ctx motive) fun U =>
      Conv U.nameless
        (Term.pis bs
        (.pi e (.apps (.const family) (fixed ++ (Binding.names bs).map .var)) .sort)).nameless ∧
        U.nameless.IsNormal)
    (hbs : List.Forall₂ (fun (b : Binding) ty => b.ty.freeVars = [] ∧
      Conv b.ty.nameless ty.nameless) bs indexTypes) (hnames : (Binding.names bs).Nodup)
    (hfixed : ∀ a ∈ fixed, ∀ b ∈ bs, b.name ∉ a.freeVars) :
    UpToDepth (k.checkMotive ctx motive family indexTypes fixed) fun _ => True := by
  refine hinfer.bind fun U _ hU =>
    (upToDepth_peelIndices (σ := ref) hbs (by simpa using hU.1) hU.2).bind ?_
  rintro ⟨names, rest⟩ - ⟨hlen, hnormal, hconv⟩
  obtain ⟨x, dom, cod, rfl, hdom, hcod⟩ := eq_pi_of_conv hconv hnormal
  set τ := assignAll ref bs (names.map fun x => ref (.free x)) with hτ
  have hevidence :
      (Term.apps (.const family) (fixed ++ (Binding.names bs).map .var)).nameless.subst τ =
      (Term.apps (.const family) (fixed ++ names.map .var)).nameless := by
    have hlen' : (names.map fun x => ref (.free x)).length = bs.length := by simpa using hlen
    have hvalues := map_assignAll (γ := ref) hnames hlen'
    rw [← hτ] at hvalues
    simp only [Term.nameless_apps, subst_apps, List.map_append, List.map_map,
      Term.nameless, Nameless.subst]
    congr 2
    · refine List.map_congr_left fun a ha => Term.nameless_subst_of_fixed fun y hy => ?_
      refine assignAll_of_not_mem fun hmem => ?_
      obtain ⟨b, hb, rfl⟩ := List.mem_map.1 hmem
      exact hfixed a ha b hb hy
    · rw [Binding.names, List.map_map]
      exact hvalues
  rw [hevidence] at hdom
  have hsort : Conv cod.nameless sort := by
    have hcod' := hcod.inst (.rfl (t := ref (.free x)))
    rwa [Context.inst_captured, inst_subst_captured] at hcod'
  refine (upToDepth_convertible hdom).bind fun answer _ hanswer => ?_
  subst hanswer
  refine (upToDepth_normalize k cod).bind fun cod' hcod' _ => ?_
  obtain ⟨hred, hcodNormal⟩ := normalize_spec hcod'
  rw [eq_sort_of_conv ((Conv.of_reduces hred).symm.trans hsort) hcodNormal]
  exact .ok trivial

/-! ### Comparisons -/

/-- Declarations are well formed, index types are closed, and each constructor of a family gives all
indices. -/
structure IndexesFormed (k : Kernel) : Prop extends k.WellFormed where
  indexTypes : ∀ f ∈ k.env.families, ∀ ty ∈ f.indexTypes, ty.freeVars = []
  indices : ∀ f ∈ k.env.families, ∀ ctor ∈ f.ctors, ctor.indices.length = f.arity

/-- The types of the declared symbols. -/
abbrev IndexesFormed.signature (hk : k.IndexesFormed) : Signature :=
  k.env.signature hk.typed.closed .strict

/-- The target computes to an equation, and its right side, once the equation is oriented, is
evidence of a declared family at all its indices. -/
structure Evident (k : Kernel) (goal : Goal) (e : Equation) (swapped : Bool) (ty : Term)
    (f : Family) : Prop where
  oriented : (k.orient goal.target).outcome = .ok (e, swapped)
  type : k.infer goal.context e.rhs = .ok ty
  family : f ∈ k.env.families
  head : ty.head = .const f.name
  arity : ty.args.length = f.arity

/-- The comparison is of the sides of the equation, at the last arguments of the type. -/
structure Compares (k : Kernel) (goal : Goal) (e : Equation) (swapped : Bool) (ty : Term)
    (icount : Int) (c : Comparison) : Prop where
  lhs : c.lhs = e.lhs
  rhs : c.rhs = e.rhs
  swapped : c.swapped = swapped
  evidence : c.evidenceType = ty
  count : c.icount = icount.toNat
  slots : ∀ s ∈ c.reversed, k.infer goal.context s.value = .ok s.ty

lemma orient_eq_ok {target : Term} {e : Equation} {swapped : Bool}
    (h : (k.orient target).outcome = .ok (e, swapped)) :
    ∃ e' : Equation, k.normalize target = .ok e'.toTerm ∧ e = if swapped then e'.swap else e' := by
  rw [orient] at h
  obtain ⟨target', htarget, h⟩ := Logged.outcome_bind_eq_ok.1 h
  split at h
  · simp at h
  · rename_i e' he'
    refine ⟨e', Equation.ofTerm?_eq_some he' ▸ htarget, ?_⟩
    split at h
    · obtain ⟨_, -, h⟩ := Logged.outcome_bind_eq_ok.1 h
      obtain ⟨rfl, rfl⟩ : e'.swap = e ∧ true = swapped := by simpa using h
      rfl
    · obtain ⟨rfl, rfl⟩ : e' = e ∧ false = swapped := by simpa using h
      rfl

lemma upToDepth_refusalAs {α : Type} {why : Refusal → Mismatch} {x : Except Fault α} {P : α → Prop}
    (h : UpToDepth x P) : UpToDepth (refusalAs why x) P := by
  rcases h with rfl | ⟨a, rfl, ha⟩
  · exact .inl rfl
  · exact .ok ha

/-- The last arguments of a type are peeled off, if they have types. -/
lemma upToDepth_peel {ctx : Context} {scrutinee ty : Term} {icount : Int} {found count : Nat}
    (hcount : count ≤ ty.args.length)
    (hargs : ∀ a ∈ ty.args, UpToDepth (k.infer ctx a) fun _ => True) :
    UpToDepth (k.peel ctx scrutinee icount found count ty) fun _ => True := by
  induction count generalizing found ty with
  | zero => exact .ok trivial
  | succ count ih =>
    cases ty with
    | app fn arg =>
      rw [Term.args] at hcount hargs
      refine (upToDepth_refusalAs (hargs arg (by simp))).bind fun argTy _ _ => ?_
      refine (ih (by simpa using hcount) fun a ha => hargs a (List.mem_append_left _ ha)).bind
        fun _ _ _ => .ok trivial
    | _ => simp [Term.args] at hcount

/-! ### Branches -/

/-- No leading index of the constructor clashes with the fixed index in its place, but one is not
convertible with it.  The binders of the constructor are renamed away from the names. -/
def Misfits (k : Kernel) (names : List Name) (fixed : List Term) (ctor : FamilyCtor) : Prop :=
  ∃ taken lead, names ⊆ taken ∧
    ((ctor.freshen taken).indices.take fixed.length).mapM k.normalize = .ok lead ∧
    (∀ p ∈ lead.zip fixed, k.clash p.1 p.2 = false) ∧
      ∃ p ∈ lead.zip fixed, k.convertible p.1 p.2 = .ok false

/-- The depth is spent, or the split is refused for a misfit among the constructors. -/
def RefusesMisfit (k : Kernel) (names : List Name) (fixed : List Term) (ctors : List FamilyCtor)
    (fault : Fault) : Prop :=
  fault = .exhausted ∨ ∃ ctor ∈ ctors, fault = .refused (.fixedIndex ctor.name) ∧
    k.Misfits names fixed ctor

/-- If not all pairs are convertible, one is not. -/
lemma ends_allConvertible (pairs : List (Term × Term)) : Ends (k.allConvertible pairs)
    (fun answer => answer = false → ∃ p ∈ pairs, k.convertible p.1 p.2 = .ok false)
      (· = .exhausted) := by
  induction pairs with
  | nil => exact .ok nofun
  | cons p pairs ih =>
    obtain ⟨a, b⟩ := p
    have hfirst :
        Ends (k.convertible a b) (fun answer => k.convertible a b = .ok answer) (· = .exhausted) :=
      ⟨fun _ h => h, fun _ => withinDepth_eq_error⟩
    refine hfirst.bind fun answer hanswer => ?_
    split
    · refine ⟨fun answer' h hfalse => ?_, ih.2⟩
      obtain ⟨p, hp, hconv⟩ := ih.1 answer' h hfalse
      exact ⟨p, List.mem_cons_of_mem _ hp, hconv⟩
    · rename_i hne
      obtain rfl : answer = false := by simpa using hne
      exact .ok fun _ => ⟨(a, b), List.mem_cons_self, hanswer⟩

/-- The branch of a constructor with all its indices is refused only for a misfit. -/
lemma ends_branchGoal {motive : Term} {fixed : List Term} {names taken : List Name}
    {ctor : FamilyCtor} (hlen : fixed.length ≤ ctor.indices.length) (htaken : names ⊆ taken) :
    Ends (k.branchGoal goal motive fixed (ctor.freshen taken)) (fun _ => True) fun fault =>
      fault = .exhausted ∨ fault = .refused (.fixedIndex ctor.name) ∧
        k.Misfits names fixed ctor := by
  have hnormal : Ends (((ctor.freshen taken).indices.take fixed.length).mapM k.normalize)
      (fun lead => ((ctor.freshen taken).indices.take fixed.length).mapM k.normalize = .ok lead)
        (· = .exhausted) :=
    ((UpToDepth.mapM fun a _ => upToDepth_normalize k a).imp fun _ h _ => h).ends rfl
  refine (hnormal.imp (fun _ h => h) fun _ => .inl).bind fun lead hlead => ?_
  dsimp only
  split
  · exact .ok trivial
  · rename_i hclash
    have hlength : ¬ lead.length < fixed.length := by
      have hsame := (Except.mapM_eq_ok.1 hlead).length_eq
      simp only [FamilyCtor.freshen, List.length_take, List.length_map] at hsame
      omega
    rw [if_neg hlength]
    refine ((ends_allConvertible _).imp (fun _ h => h) fun _ h => .inl h).bind
      fun answer hanswer => ?_
    split
    · exact ((upToDepth_normalize k _).ends (.inl rfl)).bind fun _ _ => .ok trivial
    · rename_i hne
      refine .refuse
        (.inr ⟨rfl, taken, lead, htaken, hlead, fun p hp => ?_, hanswer (by simpa using hne)⟩)
      exact Bool.eq_false_iff.2 fun h => hclash (List.any_eq_true.2 ⟨p, hp, h⟩)

/-- **The branches of constructors with all their indices** are refused only for a misfit among
them. -/
lemma ends_branchGoals {motive : Term} {fixed : List Term} {names taken : List Name}
    {ctors : List FamilyCtor} (hlen : ∀ ctor ∈ ctors, fixed.length ≤ ctor.indices.length)
    (htaken : names ⊆ taken) :
    Ends (k.branchGoals goal motive fixed taken ctors) (fun cases => cases.map Prod.fst = ctors)
      (k.RefusesMisfit names fixed ctors) := by
  induction ctors generalizing taken with
  | nil => exact .ok rfl
  | cons ctor ctors ih =>
    have hrest := @ih (Binding.names (ctor.freshen taken).binders ++ taken)
      (fun ctor' hctor' => hlen ctor' (List.mem_cons_of_mem _ hctor')) fun _ hx =>
        List.mem_append_right _ (htaken hx)
    refine ((ends_branchGoal (hlen ctor List.mem_cons_self) htaken).imp (fun _ h => h) ?_).bind
        fun branch _ =>
      (hrest.imp (fun _ h => h) ?_).bind fun rest hcases => .ok (by simp [hcases])
    · rintro fault (h | h)
      · exact .inl h
      · exact .inr ⟨ctor, List.mem_cons_self, h⟩
    · rintro fault (h | ⟨ctor', hctor', h⟩)
      · exact .inl h
      · exact .inr ⟨ctor', List.mem_cons_of_mem _ hctor', h⟩

/-! ### Typed comparisons -/

lemma freeVars_arrows {doms : List Term} {cod : Term} (hdoms : ∀ ty ∈ doms, ty.freeVars = [])
    (hcod : cod.freeVars = []) : (Term.arrows doms cod).freeVars = [] := by
  induction doms with
  | nil => exact hcod
  | cons ty doms ih =>
    have hrest := ih fun ty' hty' => hdoms ty' (List.mem_cons_of_mem _ hty')
    change (Term.pi Term.anonymous ty (Term.arrows doms cod)).freeVars = []
    simp [Term.freeVars, hdoms ty List.mem_cons_self, hrest]

lemma conv_arrows {doms doms' : List Term}
    (h : List.Forall₂ (fun a b => Conv a.nameless b.nameless) doms doms') (cod : Term) :
    Conv (Term.arrows doms cod).nameless (Term.arrows doms' cod).nameless := by
  induction h with
  | nil => exact .rfl
  | cons hab _ ih => exact .pi hab (ih.rename _)

/-- The types of the declared indices are types. -/
lemma IndexesFormed.hasType_indexType (hk : k.IndexesFormed) {f : Family} (hf : f ∈ k.env.families)
    {Γ : Scope} {ity : Term} (hity : ity ∈ f.indexTypes) :
    HasType .strict hk.signature Γ ity.nameless sort := by
  have hfamily := Environment.constType?_of_family? (Environment.family?_of_mem hf)
  rw [arrows_eq_pis] at hfamily
  have htype := hk.typed.types _ _ hfamily
  exact hasType_of_pis (m := .strict) (R := .sort) (ρ := id)
    (by simpa [Discipline.view, rename_id] using htype)
    (List.mem_map_of_mem hity) (hk.indexTypes f hf ity hity)

section Typed

variable {e : Equation} {swapped : Bool} {ty : Term} {f : Family} {icount : Int} {c : Comparison}
  (hk : k.IndexesFormed) (hgoal : goal.Typed hk.signature)
  (he : k.Evident goal e swapped ty f)
include hgoal he

/-- Both sides of the equation are over the hypotheses. -/
lemma Evident.mentions : e.lhs.freeVars ⊆ goal.names ∧ e.rhs.freeVars ⊆ goal.names := by
  obtain ⟨e', he', hswap⟩ := orient_eq_ok he.oriented
  have hmem := (hgoal.normalize he').1
  simp only [Equation.toTerm, Term.freeVars, List.mem_append] at hmem
  have hlhs : e'.lhs.freeVars ⊆ goal.names := fun x hx => hmem x (.inl (.inr hx))
  have hrhs : e'.rhs.freeVars ⊆ goal.names := fun x hx => hmem x (.inr hx)
  cases swapped with
  | false => exact hswap ▸ ⟨hlhs, hrhs⟩
  | true => exact hswap ▸ ⟨hrhs, hlhs⟩

/-- The equation is typed, whichever way it is oriented. -/
lemma Evident.equation :
    HasType .strict hk.signature goal.scope e.toTerm.nameless sort ∧ e.ty.nameless.IsNormal := by
  obtain ⟨e', he', hswap⟩ := orient_eq_ok he.oriented
  have hequation := (hgoal.normalize he').2
  obtain ⟨htype, hlhs, hrhs⟩ := hequation.eq_inv
  have hnormal : e'.ty.nameless.IsNormal := (normalize_spec he').2.1
  cases swapped with
  | false => exact hswap ▸ ⟨hequation, hnormal⟩
  | true => exact hswap ▸ ⟨.eq htype hrhs hlhs .rfl, hnormal⟩

/-- The inferred type is the type of the equation: both are in normal form. -/
lemma Evident.nameless_ty : e.ty.nameless = ty.nameless := by
  obtain ⟨hequation, hnormal⟩ := he.equation hk hgoal
  have hinfer := he.type
  rw [hgoal.context_eq] at hinfer
  have hsound := inferAt_sound k hk.typed.closed .strict k.depth hgoal.telescope.isScoped
    (fun x hx => (he.mentions hk hgoal).2 (Term.occurs_nameless.1 hx)) hinfer
  exact (hequation.eq_inv.2.2.unique hsound).eq_of_normal hnormal (isNormal_of_inferAt hinfer)

/-- **Both sides are evidence of the inferred type**, and so this is a type. -/
theorem Evident.typed : HasType .strict hk.signature goal.scope ty.nameless sort ∧
    HasType .strict hk.signature goal.scope e.lhs.nameless ty.nameless ∧
    HasType .strict hk.signature goal.scope e.rhs.nameless ty.nameless := by
  rw [← he.nameless_ty hk hgoal]
  exact (he.equation hk hgoal).1.eq_inv

/-- The arguments of the type have the index types of the family. -/
lemma Evident.args : List.Forall₂ (HasType .strict hk.signature goal.scope)
    (ty.args.map Term.nameless) (f.indexTypes.map Term.nameless) := by
  have htype := (he.typed hk hgoal).1
  rw [nameless_of_head he.head] at htype
  have hfamily := Environment.constType?_of_family? (Environment.family?_of_mem he.family)
  rw [arrows_eq_pis] at hfamily
  have hclosed : ∀ b ∈ f.indexTypes.map (Binding.mk Term.anonymous), b.ty.freeVars = [] := by
    intro b hb
    obtain ⟨ity, hity, rfl⟩ := List.mem_map.1 hb
    exact hk.indexTypes f he.family ity hity
  have hargs := htype.args_of_closed (congrArg (Option.map _) hfamily) hclosed
    (by simpa [Family.arity] using he.arity)
  rw [List.forall₂_map_left_iff] at hargs
  rw [List.forall₂_map_right_iff]
  exact hargs.flip

/-- The inferred type is over the hypotheses. -/
lemma Evident.type_mentions : ty.freeVars ⊆ goal.names :=
  Goal.Scoped.infer ⟨hgoal.telescope.toArranged, hgoal.mentions⟩ hk.typed.closed
    (he.mentions hk hgoal).2 he.type

/-- **The sides can be compared**, at any number of the last indices. -/
theorem upToDepth_comparison (hcount : 0 ≤ icount) (hle : icount ≤ f.arity) :
    UpToDepth (k.comparison goal icount).outcome (k.Compares goal e swapped ty icount) := by
  have hargs : ∀ a ∈ ty.args, UpToDepth (k.infer goal.context a) fun _ => True := by
    intro a ha
    obtain ⟨A, -, hA⟩ := exists_of_forall₂ (he.args hk hgoal) (List.mem_map_of_mem ha)
    rw [hgoal.context_eq]
    refine (inferAt_complete k hk.typed.closed k.depth hgoal.telescope.isScoped (fun x hx => ?_)
      hA).imp fun _ _ _ => trivial
    exact he.type_mentions hk hgoal (mem_freeVars_of_mem_args ha (Term.occurs_nameless.1 hx))
  have hpeel : UpToDepth (k.peel goal.context e.rhs icount 0 icount.toNat ty) fun _ => True :=
    upToDepth_peel (by rw [he.arity]; omega) hargs
  simp only [comparison, if_neg (Int.not_lt.2 hcount), Logged.outcome_bind, Logged.outcome_pure,
    Except.ok_bind, he.oriented, Logged.outcome_liftM, he.type, refusalAs, Logged.outcome_note]
  refine hpeel.bind fun p hp _ => .ok ?_
  obtain ⟨head, reversed⟩ := p
  obtain ⟨hlen, hty, hslots⟩ := peel_eq_ok hp
  exact ⟨rfl, rfl, rfl, hty.symm, hlen, hslots⟩

variable (hc : k.Compares goal e swapped ty icount c)
include hc

omit hgoal he in
lemma Compares.args_eq : ty.args = c.head.args ++ Tuple.values c.indices := by
  rw [← hc.evidence, Comparison.evidenceType, Term.applyTuple, Term.args_apps]

omit hgoal in
lemma Compares.head_eq : c.head.head = .const f.name := by
  have hhead := he.head
  rwa [← hc.evidence, Comparison.evidenceType, Term.applyTuple, Term.head_apps] at hhead

omit hgoal in
/-- The indices that stay fixed, and those that are compared. -/
lemma Compares.length_fixed : c.head.args.length + c.icount = f.arity := by
  have hlen := congrArg List.length hc.args_eq
  rw [he.arity, List.length_append, Tuple.values, List.length_map, Comparison.indices,
    List.length_reverse] at hlen
  exact hlen.symm

omit hgoal in
lemma Compares.fixed_eq : ty.args.take (f.arity - icount.toNat) = c.head.args := by
  have hlength := hc.length_fixed he
  have hcount := hc.count
  rw [hc.args_eq, List.take_left' (by omega)]

/-- The compared indices have their inferred types, which are those of the declaration, computed. -/
lemma Compares.slots_typed :
    List.Forall₂
      (fun s ity => HasType .strict hk.signature goal.scope s.value.nameless s.ty.nameless ∧
      Reduces ity.nameless s.ty.nameless) c.reversed
        (f.indexTypes.drop c.head.args.length).reverse := by
  have hargs := List.forall₂_drop c.head.args.length (he.args hk hgoal)
  rw [hc.args_eq, List.map_append, List.drop_left' (by simp), ← List.map_drop, Comparison.indices,
    Tuple.values, List.map_reverse, List.map_reverse, ← List.forall₂_reverse_iff,
    List.reverse_reverse, ← List.map_reverse, List.forall₂_map_right_iff, List.map_map,
    List.forall₂_map_left_iff] at hargs
  have hslots : ∀ s ∈ c.reversed,
      HasType .strict hk.signature goal.scope s.value.nameless s.ty.nameless ∧
      s.ty.nameless.IsNormal := by
    intro s hs
    have hinfer := hc.slots s hs
    have hmem : s.value ∈ ty.args := by
      rw [hc.args_eq]
      exact List.mem_append_right _ (List.mem_map_of_mem (List.mem_reverse.2 hs))
    rw [hgoal.context_eq] at hinfer
    refine ⟨?_, isNormal_of_inferAt hinfer⟩
    exact inferAt_sound k hk.typed.closed .strict k.depth hgoal.telescope.isScoped
      (fun x hx =>
        he.type_mentions hk hgoal
          (mem_freeVars_of_mem_args hmem (Term.occurs_nameless.1 hx))) hinfer
  refine ((List.forall₂_and_left _ _).2 ⟨hslots, hargs⟩).imp fun s ity hs => ⟨hs.1.1, ?_⟩
  exact (HasType.unique hs.2 hs.1.1).reduces_normal hs.1.2

omit hgoal he in
/-- The type that is taken apart. -/
lemma Compares.nameless_type :
    ty.nameless = (c.motive goal.names).head.nameless.apps
      (c.motive goal.names).sources.reverse := by
  rw [← hc.evidence, Comparison.evidenceType, Term.applyTuple, Term.nameless_apps, Motive.sources,
    Comparison.motive, Comparison.indices, Tuple.values, List.map_reverse,
    List.map_reverse, ← Tuple.values]

/-- The inferred types of the indices, in natural order. -/
lemma Compares.conv_types : List.Forall₂ (fun ity ty => Conv (Term.nameless ity) (Term.nameless ty))
    (f.indexTypes.drop c.head.args.length) (Tuple.types c.reversed).reverse := by
  rw [← List.forall₂_reverse_iff, List.reverse_reverse, Tuple.types, List.forall₂_map_right_iff]
  exact (hc.slots_typed hk hgoal he).flip.imp fun _ _ h => .of_reduces h.2

/-- **The motive of the comparison is typed.** -/
theorem Compares.typed : (c.motive goal.names).Typed hk.signature goal.scope := by
  have hslots := hc.slots_typed hk hgoal he
  have hdeclared : ∀ ty ∈ Tuple.types c.reversed, ∃ ity ∈ f.indexTypes,
      Reduces ity.nameless ty.nameless := by
    intro ty' hty'
    obtain ⟨s, hs, rfl⟩ := List.mem_map.1 hty'
    obtain ⟨ity, hity, -, hred⟩ := exists_of_forall₂ hslots hs
    exact ⟨ity, List.mem_of_mem_drop (List.mem_reverse.1 hity), hred⟩
  refine ⟨?_, fun ty' hty' => ?_, fun ty' hty' => ?_, ?_, ?_⟩
  · have hconst : HasType .strict hk.signature goal.scope (const f.name)
        (Term.arrows f.indexTypes .sort).nameless :=
      .const (congrArg (Option.map _)
        (Environment.constType?_of_family? (Environment.family?_of_mem he.family))) .rfl
    rw [← List.take_append_drop c.head.args.length f.indexTypes, Term.arrows, List.foldr_append,
      ← Term.arrows, ← Term.arrows] at hconst
    have hfixed := List.forall₂_take c.head.args.length (he.args hk hgoal)
    rw [hc.args_eq, List.map_append, List.take_left' (by simp), ← List.map_take] at hfixed
    have happlied := hconst.arrows_apps
      (fun ity hity => hk.indexTypes f he.family ity (List.mem_of_mem_take hity))
      (freeVars_arrows
        (fun ity hity => hk.indexTypes f he.family ity (List.mem_of_mem_drop hity)) rfl) hfixed
    rw [← nameless_of_head (hc.head_eq he)] at happlied
    exact happlied.conv (conv_arrows (hc.conv_types hk hgoal he) .sort)
  · obtain ⟨ity, hity, hred⟩ := hdeclared ty' hty'
    refine List.eq_nil_iff_forall_not_mem.2 fun x hx => ?_
    have hx' := Term.occurs_nameless.1 (hred.occurs (Term.occurs_nameless.2 hx))
    rw [hk.indexTypes f he.family ity hity] at hx'
    cases hx'
  · obtain ⟨ity, hity, hred⟩ := hdeclared ty' hty'
    exact (hk.hasType_indexType he.family hity).reduces hred (Discipline.admits_strict _)
  · rw [Motive.sources, Comparison.motive, Tuple.values, Tuple.types, List.map_map, List.map_map,
      List.forall₂_map_left_iff, List.forall₂_map_right_iff, List.forall₂_same]
    intro s hs
    obtain ⟨_, -, hs', -⟩ := exists_of_forall₂ hslots hs
    exact hs'
  · have hlhs := (he.typed hk hgoal).2.1
    rw [← hc.lhs, hc.nameless_type] at hlhs
    exact hlhs

/-- The motive is over the hypotheses. -/
lemma Compares.over : (c.motive goal.names).IsOver goal.names := by
  have hty : ∀ {t : Term}, t.freeVars ⊆ ty.freeVars → t.freeVars ⊆ goal.names :=
    fun ht _ hx => he.type_mentions hk hgoal (ht hx)
  refine ⟨hty fun x hx => ?_, fun s hs x hx => ?_, fun s hs => hty fun x hx => ?_, ?_⟩
  · rw [← hc.evidence]
    exact mem_freeVars_apps.2 (.inl hx)
  · rw [(hc.typed hk hgoal he).closed _ (List.mem_map_of_mem hs)] at hx
    cases hx
  · refine mem_freeVars_of_mem_args ?_ hx
    rw [hc.args_eq]
    exact List.mem_append_right _ (List.mem_map_of_mem (List.mem_reverse.2 hs))
  · have hlhs := (he.mentions hk hgoal).1
    rw [← hc.lhs] at hlhs
    exact hlhs

/-! ### The steps up to the split -/

omit hgoal he hc in
lemma subset_avoid {names : List Name} : names ⊆ (c.motive names).avoid := by
  rw [Comparison.motive, List.append_assoc]
  exact List.subset_append_left ..

omit hgoal he hc in
/-- The indices of the comparison are those that the motive starts from. -/
lemma sources_motive (avoid : List Name) :
    ((Tuple.values c.indices).map Term.nameless).reverse = (c.motive avoid).sources := by
  simp [Motive.sources, Comparison.motive, Comparison.indices, Tuple.values, List.map_reverse]

omit he hc in
/-- A type over the hypotheses is found to be one. -/
lemma upToDepth_expectType {t : Term} (hmem : t.freeVars ⊆ goal.names)
    (ht : HasType .strict hk.signature goal.scope t.nameless sort) :
    UpToDepth (k.expectType goal.context t) fun _ => True := by
  rw [hgoal.context_eq]
  refine Complete.expectType ?_ hgoal.telescope.isScoped
    (fun _ hx => hmem (Term.occurs_nameless.1 hx)) ht
  exact inferAt_complete k hk.typed.closed k.depth

omit he hc in
/-- A term over the hypotheses is found to have its type. -/
lemma upToDepth_check {t T : Term} (hmem : t.freeVars ⊆ goal.names)
    (ht : HasType .strict hk.signature goal.scope t.nameless T.nameless) :
    UpToDepth (k.check goal.context t T) fun _ => True := by
  rw [hgoal.context_eq]
  refine Complete.check ?_ hgoal.telescope.isScoped
    (fun _ hx => hmem (Term.occurs_nameless.1 hx)) ht
  exact inferAt_complete k hk.typed.closed k.depth

omit hgoal he hc in
/-- The left side carried along reflexivity. -/
lemma nameless_reflexiveLhs {m : Motive} : m.reflexiveLhs.nameless =
    .transport m.head.nameless (tuple m.sources) (tuple m.sources)
      (refl m.tupleTy.nameless (tuple m.sources))
      m.lhs.nameless := by
  simp only [Motive.reflexiveLhs, Motive.transport, Motive.reflWitness, Term.nameless,
    Tuple.nameless_toTerm, Motive.sources]

omit hgoal he hc in
lemma nameless_reflWitness {m : Motive} :
    m.reflWitness.nameless = refl m.tupleTy.nameless (tuple m.sources) := by
  simp only [Motive.reflWitness, Term.nameless, Tuple.nameless_toTerm, Motive.sources]

/-- The proof that the indices equal themselves. -/
lemma Compares.reflWitness : (c.motive goal.names).reflWitness.freeVars ⊆ goal.names ∧
    HasType .strict hk.signature goal.scope (c.motive goal.names).reflWitness.nameless
      ((c.motive goal.names).premise (c.motive goal.names).sources) := by
  have hm := hc.typed hk hgoal he
  have hover := hc.over hk hgoal he
  refine ⟨List.append_subset.2 ⟨hover.tupleTy, Motive.toTerm_over hover.values⟩, ?_⟩
  rw [nameless_reflWitness]
  exact .refl rfl hm.tupleTy (Motive.Typed.tuple hm.values) .rfl

/-- **The equation is changed** into one whose left side is carried along reflexivity. -/
lemma Compares.upToDepth_change {t : Term}
    (ht : Conv t.nameless (.eq ty.nameless c.lhs.nameless c.rhs.nameless)) :
    UpToDepth (k.change (goal.withTarget t)
      (.eq c.evidenceType (c.motive goal.names).reflexiveLhs c.rhs)) fun gs =>
      gs = [goal.withTarget (.eq c.evidenceType (c.motive goal.names).reflexiveLhs c.rhs)] := by
  have hm := hc.typed hk hgoal he
  have hover := hc.over hk hgoal he
  obtain ⟨hrefl, hreflTyped⟩ := hc.reflWitness hk hgoal he
  obtain ⟨htype, -, hrhs⟩ := he.typed hk hgoal
  rw [hc.evidence]
  have hcarried : HasType .strict hk.signature goal.scope
      (c.motive goal.names).reflexiveLhs.nameless ty.nameless := by
    rw [nameless_reflWitness] at hreflTyped
    rw [hc.nameless_type, nameless_reflexiveLhs]
    exact hm.carried hm.values hreflTyped
  have hsort : HasType .strict hk.signature goal.scope
      (Term.eq ty (c.motive goal.names).reflexiveLhs c.rhs).nameless sort := by
    rw [← hc.rhs] at hrhs
    exact .eq htype hcarried hrhs .rfl
  have hmem : (Term.eq ty (c.motive goal.names).reflexiveLhs c.rhs).freeVars ⊆ goal.names := by
    simp only [Term.freeVars, List.append_subset]
    exact ⟨⟨he.type_mentions hk hgoal, hover.transport hover.values hrefl⟩,
      hc.rhs ▸ (he.mentions hk hgoal).2⟩
  have hconv : Conv t.nameless (Term.eq ty (c.motive goal.names).reflexiveLhs c.rhs).nameless := by
    refine ht.trans ?_
    rw [Term.nameless, nameless_reflexiveLhs]
    exact .eq .rfl (Conv.cancel ..).symm .rfl
  refine (upToDepth_expectType hk hgoal hmem hsort).bind fun _ _ _ => ?_
  refine (upToDepth_convertible hconv).bind fun answer _ hanswer => ?_
  subst hanswer
  exact .ok rfl

omit he hc in
/-- A type that computes to a product is taken apart. -/
lemma upToDepth_quantified {t : Term} (hmem : t.freeVars ⊆ goal.names)
    (ht : HasType .strict hk.signature goal.scope t.nameless sort) {A B : Nameless}
    (hconv : Conv t.nameless (pi A B)) : UpToDepth (k.quantified goal t) fun p =>
      Conv p.1.ty.nameless A ∧ Conv (p.2.nameless.rename (Ref.capture p.1.name)) B := by
  refine (upToDepth_expectType hk hgoal hmem ht).bind fun _ _ _ =>
    (upToDepth_normalize k t).bind fun u hu _ => ?_
  obtain ⟨hred, hnormal⟩ := normalize_spec hu
  obtain ⟨x, dom, cod, rfl, hdom, hcod⟩ :=
    eq_pi_of_conv ((Conv.of_reduces hred).symm.trans hconv) hnormal
  exact .ok ⟨hdom, hcod⟩

section Target

variable {target : Term}
  (htarget : (c.motive goal.names).target k.depth c.indices c.rhs = .ok target)
include htarget

/-- The generalised target is what the motive says at the indices of the right side, computed. -/
lemma Compares.reduces_target :
    Reduces ((c.motive goal.names).meaning (c.motive goal.names).sources c.rhs.nameless)
    target.nameless ∧ target.nameless.IsNormal := by
  rw [← sources_motive]
  exact (hc.over hk hgoal he).reduces_target subset_avoid htarget

/-- **The equation is generalised** to the motive at the indices of the right side. -/
lemma Compares.upToDepth_generalize :
    UpToDepth (k.generalize
      (goal.withTarget (.eq c.evidenceType (c.motive goal.names).reflexiveLhs c.rhs)) target
      (c.motive goal.names).reflWitness) fun gs => gs = [goal.withTarget target] := by
  have hm := hc.typed hk hgoal he
  have hover := hc.over hk hgoal he
  obtain ⟨hrefl, hreflTyped⟩ := hc.reflWitness hk hgoal he
  obtain ⟨hred, hnormal⟩ := hc.reduces_target hk hgoal he htarget
  have hmem : target.freeVars ⊆ goal.names := by
    refine hover.target (fun s hs => hover.values s (List.mem_reverse.1 hs)) ?_ htarget
    exact hc.rhs ▸ (he.mentions hk hgoal).2
  have hsort : HasType .strict hk.signature goal.scope target.nameless sort := by
    have hrhs := (he.typed hk hgoal).2.2
    rw [← hc.rhs, hc.nameless_type] at hrhs
    exact (hm.meaning hm.values hrhs).reduces hred (Discipline.admits_strict _)
  refine (upToDepth_quantified hk hgoal hmem hsort (Conv.of_reduces hred).symm).bind ?_
  rintro ⟨binder, cod⟩ - ⟨hdom, hcod⟩
  refine (upToDepth_check hk hgoal hrefl (hreflTyped.conv hdom.symm)).bind fun _ _ _ => ?_
  have hinstance : Conv (cod.subst binder.name (c.motive goal.names).reflWitness).nameless
      (Term.eq c.evidenceType (c.motive goal.names).reflexiveLhs c.rhs).nameless := by
    have hinst := hcod.inst (.rfl (t := (c.motive goal.names).reflWitness.nameless))
    rw [Motive.conclusion_inst, ← hc.nameless_type, nameless_reflWitness,
      ← nameless_reflexiveLhs] at hinst
    rwa [Term.nameless_contract, hc.evidence, Term.nameless, nameless_reflWitness]
  refine (upToDepth_convertible hinstance).bind fun answer _ hanswer => ?_
  subst hanswer
  exact .ok rfl

variable {curried : Term} (hcurried : (c.motive goal.names).curried k.depth = .ok curried)
include hcurried

omit htarget in
/-- **The motive as a function passes** the check of motives. -/
theorem Compares.upToDepth_checkMotive :
    UpToDepth (k.checkMotive goal.context curried f.name
      (f.indexTypes.drop c.head.args.length) c.head.args)
      fun _ => True := by
  have hm := hc.typed hk hgoal he
  have hover := hc.over hk hgoal he
  -- the evidence that the motive binds is evidence of the family at the fixed indices and the
  -- variables before it
  have hevidence : c.head.applyTuple (Tuple.ofBindings (c.motive goal.names).indexBindings) =
      .apps (.const f.name)
        (c.head.args ++ (Binding.names (c.motive goal.names).indexBindings).map .var) := by
    have hvalues : Tuple.values (Tuple.ofBindings (c.motive goal.names).indexBindings) =
        (Binding.names (c.motive goal.names).indexBindings).map .var := by
      simp [Tuple.values, Tuple.ofBindings, Binding.names]
    rw [Term.applyTuple, hvalues, Term.apps_append, ← hc.head_eq he, Term.apps_head_args]
  have hinfer : UpToDepth (k.infer goal.context curried) fun U => Conv U.nameless
      (Term.pis (c.motive goal.names).indexBindings
        (.pi (c.motive goal.names).evidenceName (.apps (.const f.name)
        (c.head.args ++ (Binding.names (c.motive goal.names).indexBindings).map .var))
          .sort)).nameless ∧
      U.nameless.IsNormal := by
    have htyped := hm.curried hgoal.telescope hover subset_avoid hcurried
    rw [Motive.bindings, Term.pis, List.foldr_append] at htyped
    rw [← hevidence, hgoal.context_eq]
    exact inferAt_complete k hk.typed.closed k.depth hgoal.telescope.isScoped
      (fun x hx => hover.curried hcurried (Term.occurs_nameless.1 hx)) htyped
  refine Kernel.upToDepth_checkMotive hinfer ?_ (Motive.nodup_indexBindings _)
    fun a ha b hb hmem => ?_
  · have hconv := hc.conv_types hk hgoal he
    have htypes : (Tuple.types c.reversed).reverse =
        (c.motive goal.names).indexBindings.map Binding.ty :=
      (Motive.types_indexBindings (c.motive goal.names)).symm
    rw [htypes, List.forall₂_map_right_iff] at hconv
    refine ((List.forall₂_and_left _ _).2 ⟨fun b hb => ?_, hconv.flip.imp fun _ _ h => Conv.symm h⟩)
    refine hm.closed _ (List.mem_reverse.1 ?_)
    rw [← Motive.types_indexBindings]
    exact List.mem_map_of_mem hb
  · have hnew := Motive.not_mem_avoid (List.mem_append_left _ hb)
    exact hnew (subset_avoid (hover.head (mem_freeVars_of_mem_args ha hmem)))

/-- The motive gives the generalised target at the indices and the right side. -/
lemma Compares.conv_target :
    Conv (curried.apps (Tuple.values c.indices ++ [c.rhs])).nameless target.nameless := by
  have hover := hc.over hk hgoal he
  have hlen : ((Tuple.values c.indices).map Term.nameless).length =
      (c.motive goal.names).reversed.length := by
    simp [Tuple.values, Comparison.indices, Comparison.motive]
  have happlied := hover.conv_curried subset_avoid hcurried hlen c.rhs.nameless
  rw [sources_motive] at happlied
  rw [Term.nameless_apps, List.map_append]
  exact happlied.trans (.of_reduces (hc.reduces_target hk hgoal he htarget).1)

/-- **The split is refused only for a misfit.** -/
theorem Compares.ends_caseBranches :
    Ends (k.caseBranches (goal.withTarget target) c.rhs c.icount curried)
      (fun cases => cases.map Prod.fst = f.ctors)
      (k.RefusesMisfit goal.names c.head.args f.ctors) := by
  have hlength := hc.length_fixed he
  have hevidence : k.evidenceOf goal.context c.rhs = .ok (f, ty.args) := by
    simp only [evidenceOf, hc.rhs, he.type, Except.ok_bind, he.head,
      Environment.family?_of_mem he.family]
    rfl
  have hlead : leadCount f ty.args c.icount (.number c.icount) = .ok c.head.args.length := by
    rw [leadCount, if_pos ⟨he.arity, by omega, by omega⟩]
    exact congrArg Except.ok (by omega)
  have htake : ty.args.take c.head.args.length = c.head.args := by rw [hc.args_eq, List.take_left]
  have hdrop : ty.args.drop c.head.args.length = Tuple.values c.indices := by
    rw [hc.args_eq, List.drop_left]
  change Ends (k.evidenceOf goal.context c.rhs >>= _) _ _
  rw [hevidence, Except.ok_bind]
  dsimp only
  rw [hlead, Except.ok_bind, htake, hdrop]
  refine ((hc.upToDepth_checkMotive hk hgoal he hcurried).ends (.inl rfl)).bind fun _ _ => ?_
  have hconv := hc.conv_target hk hgoal he htarget hcurried
  refine ((upToDepth_convertible hconv).ends (.inl rfl)).bind fun answer hanswer => ?_
  subst hanswer
  refine ends_branchGoals (fun ctor hctor => ?_) (List.subset_append_left ..)
  rw [hk.indices f he.family ctor hctor]
  omega

end Target

/-! ### Whole runs -/

/-- The steps from a target that is convertible with the oriented equation. -/
lemma Compares.yields_steps {curried : Term}
    (hcurried : (c.motive goal.names).curried k.depth = .ok curried) :
    Attempt.Yields (fun g => ∃ t, g = goal.withTarget t ∧
      Conv t.nameless (.eq ty.nameless c.lhs.nameless c.rhs.nameless))
      (do
        Attempt.step k (.change (.eq c.evidenceType (c.motive goal.names).reflexiveLhs c.rhs))
        let target ← ((c.motive goal.names).target k.depth c.indices c.rhs : Logged Term)
        Attempt.step k (.generalize target (c.motive goal.names).reflWitness)
        (k.caseBranches (← Attempt.goal) c.rhs c.icount curried :
          Logged (List (FamilyCtor × Option Goal))))
      (fun cases _ => cases.map Prod.fst = f.ctors)
        (k.RefusesMisfit goal.names c.head.args f.ctors) := by
  have hchange : Attempt.Yields
      (fun g => ∃ t, g = goal.withTarget t ∧
        Conv t.nameless (.eq ty.nameless c.lhs.nameless c.rhs.nameless))
      (Attempt.step k (.change (.eq c.evidenceType (c.motive goal.names).reflexiveLhs c.rhs)))
      (fun _ g => g = goal.withTarget (.eq c.evidenceType (c.motive goal.names).reflexiveLhs c.rhs))
      (k.RefusesMisfit goal.names c.head.args f.ctors) := by
    refine Attempt.yields_step ?_
    rintro _ ⟨t, rfl, ht⟩
    exact ((hc.upToDepth_change hk hgoal he ht).imp fun gs _ hgs => ⟨_, hgs, rfl⟩).ends (.inl rfl)
  have htarget : Ends ((c.motive goal.names).target k.depth c.indices c.rhs)
      (fun target => (c.motive goal.names).target k.depth c.indices c.rhs = .ok target)
      (k.RefusesMisfit goal.names c.head.args f.ctors) :=
    ((Motive.upToDepth_target ..).imp fun _ h _ => h).ends (.inl rfl)
  refine Attempt.yields_bind hchange fun _ =>
      Attempt.yields_bind (Attempt.yields_liftM fun _ _ => htarget) fun target =>
    Attempt.Yields.of_and fun ht => ?_
  have hgeneralize :
      Attempt.Yields
      (· = goal.withTarget (.eq c.evidenceType (c.motive goal.names).reflexiveLhs c.rhs))
      (Attempt.step k (.generalize target (c.motive goal.names).reflWitness))
        (fun _ g => g = goal.withTarget target)
      (k.RefusesMisfit goal.names c.head.args f.ctors) := by
    refine Attempt.yields_step ?_
    rintro _ rfl
    exact ((hc.upToDepth_generalize hk hgoal he ht).imp fun gs _ hgs =>
      ⟨_, hgs, rfl⟩).ends (.inl rfl)
  refine Attempt.yields_bind hgeneralize fun _ =>
    Attempt.yields_bind (Attempt.yields_goal _) fun g => ?_
  refine (Attempt.yields_liftM ?_).post fun _ _ h => h.2
  rintro g' ⟨rfl, rfl⟩
  exact hc.ends_caseBranches hk hgoal he ht hcurried

/-- **The opening of a run** is refused only for a misfit. -/
theorem Compares.yields_prepare {curried : Term}
    (hcurried : (c.motive goal.names).curried k.depth = .ok curried) :
    Attempt.Yields (· = goal) (k.prepare c (c.motive goal.names) curried)
      (fun cases _ => cases.map Prod.fst = f.ctors)
      (k.RefusesMisfit goal.names c.head.args f.ctors) := by
  have hsteps := hc.yields_steps hk hgoal he hcurried
  have hequation : e.toTerm.nameless = .eq ty.nameless c.lhs.nameless c.rhs.nameless := by
    rw [hc.lhs, hc.rhs, ← he.nameless_ty hk hgoal]
    rfl
  obtain ⟨e', he', hswap⟩ := orient_eq_ok he.oriented
  unfold prepare
  split
  · rename_i hswapped
    obtain rfl : swapped = true := hc.swapped.symm.trans hswapped
    refine Attempt.yields_bind (Attempt.yields_step ?_) fun _ => hsteps
    rintro g rfl
    have hrun : k.run g .symmetry = .ok [g.withTarget e.toTerm] := by
      simp only [run, symmetry, targetEquation, he', Except.ok_bind, hswap]
      rfl
    rw [hrun]
    exact .ok ⟨_, rfl, _, rfl, hequation ▸ .rfl⟩
  · rename_i hswapped
    obtain rfl : swapped = false := hc.swapped.symm.trans (by simpa using hswapped)
    refine hsteps.pre ?_
    rintro g rfl
    exact ⟨_, rfl, hequation ▸ hswap ▸ .of_reduces (normalize_spec he').1⟩

end Typed

/-- A motive is built with its curried form. -/
lemma upToDepth_motive (c : Comparison) (avoid : List Name) :
    UpToDepth (k.motive c avoid).outcome fun p =>
    p.1 = c.motive avoid ∧ (c.motive avoid).curried k.depth = .ok p.2 := by
  simp only [Kernel.motive, Logged.outcome_bind, Logged.outcome_liftM,
    Logged.outcome_note, Except.ok_bind]
  exact (Motive.upToDepth_curried ..).bind fun curried hcurried _ => .ok ⟨rfl, hcurried⟩

section Runs

variable {e : Equation} {swapped : Bool} {ty : Term} {f : Family} {icount : Int}
  (hk : k.IndexesFormed) (hgoal : goal.Typed hk.signature) (he : k.Evident goal e swapped ty f)
  (hcount : 0 ≤ icount) (hle : icount ≤ f.arity)
include hgoal he hcount hle

/-- **A run ends in a mismatch only for a misfit.** -/
theorem ends_solve (bounds : Bounds) :
    Ends (k.solve goal icount bounds).outcome (fun _ => True) fun fault =>
    ∀ why, fault = .mismatch why →
      ∃ ctor ∈ f.ctors, why = .unsplittable e.rhs (.fixedIndex ctor.name) ∧
      k.Misfits goal.names (ty.args.take (f.arity - icount.toNat)) ctor := by
  rw [solve, Logged.outcome_bind]
  refine ((upToDepth_comparison hk hgoal he hcount hle).ends (by simp)).bind fun c hc => ?_
  rw [Logged.outcome_bind]
  refine ((upToDepth_motive c goal.names).ends (by simp)).bind ?_
  rintro ⟨motive, curried⟩ ⟨rfl, hcurried⟩
  dsimp only at hcurried ⊢
  rw [Logged.outcome_bind]
  have hprepare := hc.yields_prepare hk hgoal he hcurried { goal } rfl
  rcases hwork : k.prepare c (c.motive goal.names) curried { goal } with ⟨⟨outcome, log⟩, trail⟩
  rw [hwork] at hprepare
  cases outcome with
  | error fault =>
    rcases hprepare.2 fault rfl with rfl | ⟨ctor, hctor, rfl, hmisfits⟩
    · exact .error (by simp)
    · refine .error fun why hwhy => ⟨ctor, hctor, ?_, hc.fixed_eq he ▸ hmisfits⟩
      rw [← Fault.mismatch.inj hwhy, hc.rhs]
  | ok cases =>
    simp only [Logged.mapOutcome, refusalAs, Except.ok_bind,
      Logged.outcome_bind, Logged.outcome_note]
    have hawaits := awaits_of_prepare persists_true trivial hcurried hwork rfl
    exact ((upToDepth_workOn bounds hawaits).ends (by simp)).bind fun _ _ => .ok trivial

end Runs

/-- **A run never builds a motive that is refused.**  Let the declarations be well formed, the goal
well typed, and the right side of its oriented equation evidence of a declared family at all its
indices.  Then the sides are compared at any number of the last indices, the motive is built, and
the goal is brought into its form and split on the right side, unless a leading index of a
constructor neither clashes nor agrees with the fixed index in its place; and a run ends in a
mismatch only for such a constructor.  All this is as far as the depth goes. -/
theorem motive_accepted (k : Kernel) (hk : k.IndexesFormed) (goal : Goal)
    (hgoal : k.WellTyped IsSort goal) (e : Equation) (swapped : Bool) (ty : Term) (f : Family)
    (he : k.Evident goal e swapped ty f) (icount : Int) (hcount : 0 ≤ icount)
    (hle : icount ≤ f.arity) :
    (UpToDepth (k.comparison goal icount).outcome fun c => c.rhs = e.rhs ∧ c.evidenceType = ty ∧
      UpToDepth ((c.motive goal.names).curried k.depth) fun curried =>
        Ends (k.prepare c (c.motive goal.names) curried { goal }).1.outcome
          (fun cases => cases.map Prod.fst = f.ctors)
          (k.RefusesMisfit goal.names (ty.args.take (f.arity - icount.toNat)) f.ctors)) ∧
    ∀ bounds why, (k.solve goal icount bounds).outcome = .error (.mismatch why) →
      ∃ ctor ∈ f.ctors, why = .unsplittable e.rhs (.fixedIndex ctor.name) ∧
        k.Misfits goal.names (ty.args.take (f.arity - icount.toNat)) ctor := by
  have htyped := hgoal.typed hk.typed
  refine ⟨?_, fun bounds why h => (ends_solve hk htyped he hcount hle bounds).2 _ h why rfl⟩
  refine (upToDepth_comparison hk htyped he hcount hle).imp fun c _ hc => ⟨hc.rhs, hc.evidence, ?_⟩
  refine (Motive.upToDepth_curried ..).imp fun curried hcurried _ => ?_
  rw [hc.fixed_eq he]
  exact hc.yields_prepare hk htyped he hcurried { goal } rfl

end Kernel

namespace Sample

/-- The mismatch that a run ends in. -/
def mismatch? {α : Type} : Except Fault α → Option Mismatch
  | .error (.mismatch why) => some why
  | _ => none

lemma eq_error_of_mismatch? {α : Type} {x : Except Fault α} {why : Mismatch}
    (h : mismatch? x = some why) : x = .error (.mismatch why) := by
  unfold mismatch? at h
  split at h
  · rw [Option.some.inj h]
  · cases h

/-- Any two trees are related in one way. -/
def relatedOnce : Goal where
  hyps := [⟨"h", Term.apps (.const "R") [.const "sunit", .const "sunit"]⟩]
  target := .eq (Term.apps (.const "R") [.const "sunit", .const "sunit"]) (.var "h") (.var "h")

end Sample

/-- With all indices generalised the sample goal is never a mismatch.  With the first index fixed
the relation is: its constructor gives a variable there. -/
theorem Kernel.motive_accepted_sample :
    (∀ bounds why, ((Sample.kernel .default).solve Sample.goal 1 bounds).outcome ≠
      .error (.mismatch why)) ∧
    ∃ ctor why, (Sample.related.solve Sample.relatedOnce 1 {}).outcome = .error (.mismatch why) ∧
      why = .unsplittable (.var "h") (.fixedIndex ctor.name) ∧
        Sample.related.Misfits ["h"] [.const "sunit"] ctor := by
  constructor
  · have hformed : (Sample.kernel .default).IndexesFormed :=
      ⟨⟨by decide +kernel, by decide +kernel, by decide +kernel⟩, by decide, by decide⟩
    have hgoal : (Sample.kernel .default).WellTyped IsSort Sample.goal :=
      ⟨by decide +kernel, by decide +kernel, by decide +kernel,
        by decide +kernel, by decide +kernel⟩
    have hevident : (Sample.kernel .default).Evident Sample.goal
        ⟨Sample.nodeType, Term.apps (.const "s_node") [.var "x", .var "y"], .var "h"⟩ true
          Sample.nodeType Sample.family :=
      ⟨Except.toOption_eq_some.1 (by decide +kernel), Except.toOption_eq_some.1 (by decide +kernel),
        by decide, by decide, by decide⟩
    intro bounds why h
    obtain ⟨ctor, -, -, taken, lead, -, -, -, p, hp, -⟩ :=
      (motive_accepted _ hformed _ hgoal _ _ _ _ hevident 1 (by decide) (by decide)).2 bounds why h
    simp [Sample.family, Family.arity] at hp
  · have hformed : Sample.related.IndexesFormed :=
      ⟨⟨by decide +kernel, by decide +kernel, by decide +kernel⟩, by decide, by decide⟩
    have hgoal : Sample.related.WellTyped IsSort Sample.relatedOnce :=
      ⟨by decide +kernel, by decide +kernel, by decide +kernel,
        by decide +kernel, by decide +kernel⟩
    have hevident : Sample.related.Evident Sample.relatedOnce
        ⟨Term.apps (.const "R") [.const "sunit", .const "sunit"], .var "h", .var "h"⟩ false
        (Term.apps (.const "R") [.const "sunit", .const "sunit"])
          (Sample.related.env.families.head (by decide)) :=
      ⟨Except.toOption_eq_some.1 (by decide +kernel), Except.toOption_eq_some.1 (by decide +kernel),
        by decide, by decide, by decide⟩
    have hmismatch :
        (Sample.mismatch? (Sample.related.solve Sample.relatedOnce 1 {}).outcome).isSome := by
      decide +kernel
    obtain ⟨why, hwhy⟩ := Option.isSome_iff_exists.1 hmismatch
    have hrun := Sample.eq_error_of_mismatch? hwhy
    obtain ⟨ctor, -, hctor, hmisfits⟩ :=
      (motive_accepted _ hformed _ hgoal _ _ _ _ hevident 1 (by decide) (by decide)).2 _ _ hrun
    exact ⟨ctor, why, hrun, hctor, hmisfits⟩

namespace Sample

/-- Evidence of a tree that is carried along `p`, in a family over a variable `i` that is no
hypothesis. -/
def strayType : Term :=
  .app (.const "S") (.transport (.lam "x" (.var "i") (.const "shape")) (.pair (.const "sunit") .tt)
    (.pair (.const "sunit") .tt) (.var "p") (.const "sunit"))

/-- A goal that inference accepts, although it mentions `i`. -/
def stray : Goal where
  hyps := [⟨"p",
    .eq (.prod (.const "shape") .unit) (.pair (.const "sunit") .tt) (.pair (.const "sunit") .tt)⟩,
    ⟨"h", strayType⟩]
  target := .eq strayType (.var "h") (.var "h")

end Sample

/-- The motive binds `i`, which captures the variable, and is refused. -/
example :
    Kernel.IsSort ((Sample.kernel .default).infer (Sample.stray.hyps.take 1) Sample.strayType) ∧
    Kernel.IsSort ((Sample.kernel .default).infer Sample.stray.context Sample.stray.target) ∧
    (Sample.mismatch? ((Sample.kernel .default).solve Sample.stray 1 {}).outcome).map
      Mismatch.message =
      some "cannot split h: motive does not match the goal" := by
  decide +kernel

end UniqueEvidence
