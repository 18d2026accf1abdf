/-
The rules other than case analysis keep goals well typed.

* `Goal.Typed`: a goal over a telescope, whose target is a type;
* `Kernel.intro_typed`, `Kernel.eliminate_typed`, …: each rule leaves typed goals of a typed goal;
* `Kernel.WellFormed`, `Kernel.WellTyped`: the same notions by inference, and
  `Kernel.WellTyped.typed`, `Kernel.wellTyped_of_typed`, which lead there and back;
* `Kernel.wellTyped_of_apply`: **a call that returns leaves well typed goals of a well typed goal**.
-/
import UniqueEvidence.Proofs.Constructors
import UniqueEvidence.Proofs.Sample
import UniqueEvidence.Proofs.Substitution
import UniqueEvidence.Proofs.Telescope

namespace UniqueEvidence

open Nameless

/-! ### Free variables of what the rules build -/

lemma mem_freeVars_subst {t v : Term} {x y : Name} (h : x ∈ (t.subst y v).freeVars) :
    x ∈ t.freeVars ∧ x ≠ y ∨ x ∈ v.freeVars :=
  (Term.mem_freeVars_subst_iff.1 h).imp_right And.right

lemma Kernel.mem_freeVars_of_normalize {k : Kernel} {t u : Term} (h : k.normalize t = .ok u)
    {x : Name} (hx : x ∈ u.freeVars) : x ∈ t.freeVars :=
  Term.occurs_nameless.1 ((normalize_spec h).1.occurs (Term.occurs_nameless.2 hx))

/-- Substitution for the hypotheses that a term mentions. -/
lemma Context.hasType_subst {hyps hyps' : List Binding} {S : Signature} {t T : Nameless}
    {σ : Ref → Nameless} (h : HasType .strict S (scope hyps .strict) t T)
    (hσ : ∀ b ∈ hyps, t.Occurs (.free b.name) →
      HasType .strict S (scope hyps' .strict) (σ (.free b.name)) (b.ty.nameless.subst σ)) :
    HasType .strict S (scope hyps' .strict) (t.subst σ) (T.subst σ) := by
  refine h.subst (fun r A hr hA => ?_) fun _ => nofun
  obtain ⟨b, hb, rfl, rfl⟩ := exists_of_scope hA
  exact hσ b hb hr

/-! ### Replacing a variable -/

/-- The hypotheses without two names, with a value put in for the second. -/
def replaced (hyps : List Binding) (x y : Name) (v : Term) : List Binding :=
  (hyps.filter fun b => b.name != y && b.name != x).map fun b => { b with ty := b.ty.subst y v }

/-- The second name may be replaced by the value, and the first be left out. -/
structure Replaces (S : Signature) (hyps : List Binding) (x y : Name) (v : Term) : Prop where
  telescope : Telescope S hyps
  typed : ∃ ty, ⟨y, ty⟩ ∈ hyps ∧
    HasType .strict S (Context.scope hyps .strict) v.nameless ty.nameless
  mentions : ∀ z ∈ v.freeVars, z ∈ Binding.names hyps ∧ z ≠ x ∧ z ≠ y

lemma mem_replaced {hyps : List Binding} {x y : Name} {v : Term} {b : Binding} (hb : b ∈ hyps)
    (hby : b.name ≠ y) (hbx : b.name ≠ x) : { b with ty := b.ty.subst y v } ∈ replaced hyps x y v :=
  List.mem_map.2 ⟨b, List.mem_filter.2 ⟨hb, by simp [hby, hbx]⟩, rfl⟩

namespace Replaces

variable {S : Signature} {hyps hyps' : List Binding} {x y : Name} {v : Term}

lemma distinct (h : Replaces S hyps x y v) : (Binding.names (replaced hyps x y v)).Nodup := by
  rw [replaced, Binding.names, List.map_map]
  exact h.telescope.distinct.sublist (List.filter_sublist.map _)

/-- Terms without the first name stay typed, if the value is. -/
lemma hasType_of_value (h : Replaces S hyps x y v) {ty : Term} (hy : ⟨y, ty⟩ ∈ hyps)
    {t T : Nameless} (ht : HasType .strict S (Context.scope hyps .strict) t T)
    (hx : ¬ t.Occurs (.free x))
    (hv : t.Occurs (.free y) →
      HasType .strict S (Context.scope (replaced hyps x y v) .strict) v.nameless
      (ty.nameless.subst (single y v.nameless))) :
    HasType .strict S (Context.scope (replaced hyps x y v) .strict) (t.subst (single y v.nameless))
      (T.subst (single y v.nameless)) := by
  refine Context.hasType_subst ht fun b hb hocc => ?_
  by_cases hby : b.name = y
  · obtain rfl : b = ⟨y, ty⟩ := h.telescope.eq_of_name hb hy hby
    simpa [single] using hv hocc
  · have hbx : b.name ≠ x := fun hbx => hx (hbx ▸ hocc)
    simp only [single, Ref.free.injEq, hby, if_false]
    have hscope := Context.scope_of_mem (m := .strict) h.distinct (mem_replaced (v := v) hb hby hbx)
    rw [Discipline.view, Term.nameless_subst] at hscope
    exact .ref hscope .rfl

/-- Terms without the first name stay typed. -/
lemma hasType (h : Replaces S hyps x y v) {t : Term}
    (ht : HasType .strict S (Context.scope hyps .strict) t.nameless sort) (hx : x ∉ t.freeVars) :
    HasType .strict S (Context.scope (replaced hyps x y v) .strict)
      (t.subst y v).nameless sort := by
  obtain ⟨ty, hy, hv⟩ := h.typed
  have hyv : ¬ v.nameless.Occurs (.free y) :=
    fun hocc => (h.mentions y (Term.occurs_nameless.1 hocc)).2.2 rfl
  have hxv : ¬ v.nameless.Occurs (.free x) :=
    fun hocc => (h.mentions x (Term.occurs_nameless.1 hocc)).2.1 rfl
  -- the value does not mention the variable, so it comes first
  have hvalue := h.hasType_of_value hy hv hxv fun hocc => absurd hocc hyv
  rw [subst_single_of_not_occurs hyv] at hvalue
  rw [Term.nameless_subst]
  exact h.hasType_of_value hy ht (fun hocc => hx (Term.occurs_nameless.1 hocc)) fun _ => hvalue

lemma mem_names (h : Replaces S hyps x y v) {t : Term}
    (ht : ∀ z ∈ t.freeVars, z ∈ Binding.names hyps) (hx : x ∉ t.freeVars) :
    ∀ z ∈ (t.subst y v).freeVars, z ∈ Binding.names (replaced hyps x y v) := by
  have hnames : ∀ z ∈ Binding.names hyps, z ≠ y → z ≠ x →
      z ∈ Binding.names (replaced hyps x y v) := by
    intro z hz hzy hzx
    obtain ⟨b, hb, rfl⟩ := List.mem_map.1 hz
    exact List.mem_map.2 ⟨_, mem_replaced hb hzy hzx, rfl⟩
  intro z hz
  rcases mem_freeVars_subst hz with ⟨hz, hzy⟩ | hz
  · exact hnames z (ht z hz) hzy fun hzx => hx (hzx ▸ hz)
  · obtain ⟨hz, hzx, hzy⟩ := h.mentions z hz
    exact hnames z hz hzy hzx

/-- **The hypotheses in a new order are a telescope again**, over which terms without the first name
stay typed. -/
theorem reorder (h : Replaces S hyps x y v) (hunused : ∀ b ∈ hyps, b.name ≠ x → x ∉ b.ty.freeVars)
    (hreorder : UniqueEvidence.reorder (replaced hyps x y v) = some hyps') :
    Telescope S hyps' ∧
      ∀ {t : Term}, HasType .strict S (Context.scope hyps .strict) t.nameless sort →
      (∀ z ∈ t.freeVars, z ∈ Binding.names hyps) → x ∉ t.freeVars →
      HasType .strict S (Context.scope hyps' .strict) (t.subst y v).nameless sort ∧
        ∀ z ∈ (t.subst y v).freeVars, z ∈ Binding.names hyps' := by
  have hall : ∀ b ∈ replaced hyps x y v, ∃ b' ∈ hyps, x ∉ b'.ty.freeVars ∧
      b.ty = b'.ty.subst y v := by
    intro b hb
    obtain ⟨b', hb', rfl⟩ := List.mem_map.1 hb
    obtain ⟨hmem, hne⟩ := List.mem_filter.1 hb'
    simp only [Bool.and_eq_true, bne_iff_ne] at hne
    exact ⟨b', hmem, hunused b' hmem hne.2, rfl⟩
  obtain ⟨hperm, hready⟩ := reorder_spec hreorder
  have hordered : OrderedFrom [] hyps' := by
    refine hready.ordered fun b hb => ?_
    obtain ⟨b', hb', hx, hty⟩ := hall b (hperm.mem_iff.1 hb)
    rw [hty]
    exact h.mem_names (fun z hz => h.telescope.mem_names hb' hz) hx
  have hdistinct : (Binding.names hyps').Nodup := (hperm.map _).nodup_iff.2 h.distinct
  have hmove : ∀ {t T : Nameless},
      HasType .strict S (Context.scope (replaced hyps x y v) .strict) t T →
      HasType .strict S (Context.scope hyps' .strict) t T :=
    fun ht => Context.hasType_of_mem ht hdistinct fun b hb _ => hperm.mem_iff.2 hb
  refine ⟨⟨⟨hdistinct, hordered⟩, fun b hb => ?_⟩,
    fun ht hmem hx => ⟨hmove (h.hasType ht hx), fun z hz => ?_⟩⟩
  · obtain ⟨b', hb', hx, hty⟩ := hall b (hperm.mem_iff.1 hb)
    rw [hty]
    exact hmove (h.hasType (h.telescope.typed b' hb') hx)
  · exact (hperm.map _).mem_iff.2 (h.mem_names hmem hx z hz)

end Replaces

/-! ### Typed goals -/

/-- A goal over a telescope, whose target is a type. -/
structure Goal.Typed (S : Signature) (goal : Goal) : Prop where
  telescope : Telescope S goal.hyps
  mentions : ∀ x ∈ goal.target.freeVars, x ∈ goal.names
  target : HasType .strict S (Context.scope goal.hyps .strict) goal.target.nameless sort

namespace Goal.Typed

variable {S : Signature} {k : Kernel} {goal : Goal} {x : Name} {e : Equation}

lemma context_eq (h : goal.Typed S) : goal.context = goal.hyps :=
  keepLast_of_nodup h.telescope.distinct

lemma withTarget (h : goal.Typed S) {t : Term} (hmem : ∀ x ∈ t.freeVars, x ∈ goal.names)
    (ht : HasType .strict S (Context.scope goal.hyps .strict) t.nameless sort) :
    (goal.withTarget t).Typed S :=
  ⟨h.telescope, hmem, ht⟩

/-- A target in normal form is a type over the hypotheses. -/
lemma normalize (h : goal.Typed S) {t : Term} (ht : k.normalize goal.target = .ok t) :
    (∀ x ∈ t.freeVars, x ∈ goal.names) ∧
      HasType .strict S (Context.scope goal.hyps .strict) t.nameless sort :=
  ⟨fun x hx => h.mentions x (Kernel.mem_freeVars_of_normalize ht hx),
    h.target.reduces (Kernel.normalize_spec ht).1 (Discipline.admits_strict _)⟩

/-- The equation of a hypothesis is typed, and the hypothesis mentions all that it mentions. -/
lemma equation (h : goal.Typed S) (he : k.equation goal x = .ok e) :
    ∃ ty, ⟨x, ty⟩ ∈ goal.hyps ∧ Reduces ty.nameless e.toTerm.nameless ∧
      (∀ y ∈ e.toTerm.freeVars, y ∈ ty.freeVars) ∧
      HasType .strict S (Context.scope goal.hyps .strict) e.toTerm.nameless sort := by
  obtain ⟨ty, hty, hnormal⟩ := Kernel.equation_eq_ok he
  have hmem : (⟨x, ty⟩ : Binding) ∈ goal.hyps := Context.mem_of_lookup? hty
  obtain ⟨hred, -⟩ := Kernel.normalize_spec hnormal
  exact ⟨ty, hmem, hred, fun y hy => Kernel.mem_freeVars_of_normalize hnormal hy,
    (h.telescope.typed _ hmem).reduces hred (Discipline.admits_strict _)⟩

/-- An equation among the hypotheses does not mention its own name. -/
lemma mentions_equation (h : goal.Typed S) {ty : Term} (hty : ⟨x, ty⟩ ∈ goal.hyps)
    (hmem : ∀ y ∈ e.toTerm.freeVars, y ∈ ty.freeVars) :
    ∀ z ∈ e.toTerm.freeVars, z ∈ goal.names ∧ z ≠ x := by
  intro z hz
  refine ⟨h.telescope.mem_names hty (hmem z hz), ?_⟩
  rintro rfl
  exact h.telescope.not_mem_self hty (hmem z hz)

/-- An equation for a variable gives it a value. -/
lemma replaces (h : goal.Typed S) {y : Name} {v : Term} (he : k.equation goal x = .ok e)
    (hv : Kernel.solvedFor e y = some v) (hyv : y ∉ v.freeVars) : Replaces S goal.hyps x y v := by
  obtain ⟨ty, hty, -, hmem, htyped⟩ := h.equation he
  obtain ⟨-, hl, hr⟩ := htyped.eq_inv
  have hself := h.mentions_equation hty hmem
  have htype : ∀ {T : Nameless}, HasType .strict S (Context.scope goal.hyps .strict)
      (Term.var y).nameless T → ∃ ty, ⟨y, ty⟩ ∈ goal.hyps ∧ Conv ty.nameless T := by
    intro T hT
    cases hT with
    | ref hA hc =>
      obtain ⟨b, hb, hname, rfl⟩ := Context.exists_of_scope hA
      obtain rfl : y = b.name := by simpa using hname
      exact ⟨b.ty, hb, hc⟩
  have hmentions : (∀ z ∈ v.freeVars, z ∈ e.toTerm.freeVars) →
      ∀ z ∈ v.freeVars, z ∈ Binding.names goal.hyps ∧ z ≠ x ∧ z ≠ y :=
    fun hsub z hz => ⟨(hself z (hsub z hz)).1, (hself z (hsub z hz)).2, fun hzy => hyv (hzy ▸ hz)⟩
  rcases Kernel.solvedFor_eq_some hv with ⟨hy, rfl⟩ | ⟨hy, rfl⟩
  · obtain ⟨tyy, hmemy, hc⟩ := htype (hy ▸ hr)
    exact ⟨h.telescope, ⟨tyy, hmemy, hl.conv hc.symm⟩,
      hmentions fun z hz => by simp [Equation.toTerm, Term.freeVars, hz]⟩
  · obtain ⟨tyy, hmemy, hc⟩ := htype (hy ▸ hl)
    exact ⟨h.telescope, ⟨tyy, hmemy, hr.conv hc.symm⟩,
      hmentions fun z hz => by simp [Equation.toTerm, Term.freeVars, hz]⟩

end Goal.Typed

namespace Kernel

variable {k : Kernel} {goal subgoal : Goal} {gs : List Goal} {x y : Name}

/-! ### Each rule keeps goals typed -/

section Rules

variable (henv : k.env.Typed) (h : goal.Typed (k.env.signature henv.closed .strict))
include h

lemma expectType_typed {t : Term} (hmem : ∀ x ∈ t.freeVars, x ∈ goal.names)
    (ht : k.expectType goal.context t = .ok ()) :
    HasType .strict (k.env.signature henv.closed .strict) (Context.scope goal.hyps .strict)
      t.nameless sort := by
  rw [h.context_eq] at ht
  exact Sound.expectType (inferAt_sound k henv.closed .strict k.depth) h.telescope.isScoped
    (fun x hx => hmem x (Term.occurs_nameless.1 hx)) ht

lemma symmetry_typed (hgs : k.symmetry goal = .ok gs) (hsub : subgoal ∈ gs) :
    subgoal.Typed (k.env.signature henv.closed .strict) := by
  obtain ⟨e, he, rfl⟩ := symmetry_eq_ok hgs
  obtain rfl := List.mem_singleton.1 hsub
  obtain ⟨hmem, ht⟩ := h.normalize (targetEquation_eq_ok he)
  obtain ⟨hty, hl, hr⟩ := ht.eq_inv
  refine h.withTarget (fun x hx => hmem x ?_) (.eq hty hr hl .rfl)
  simp only [Equation.toTerm, Equation.swap, Term.freeVars, List.mem_append] at hx ⊢
  tauto

lemma intro_typed (hgs : k.intro goal x = .ok gs) (hsub : subgoal ∈ gs) :
    subgoal.Typed (k.env.signature henv.closed .strict) := by
  obtain ⟨z, dom, cod, ht, hx, rfl⟩ := intro_eq_ok hgs
  obtain rfl := List.mem_singleton.1 hsub
  obtain ⟨hmem, htype⟩ := h.normalize ht
  cases htype with
  | pi hdom hcod =>
    have htelescope :
        Telescope (k.env.signature henv.closed .strict) (goal.hyps ++ [⟨x, dom⟩]) := by
      refine h.telescope.append (List.nodup_singleton x) (by simpa [Goal.names] using hx)
        ?_ (by simpa using hdom)
      intro b hb y hy
      obtain rfl := List.mem_singleton.1 hb
      exact hmem y (by simp [Term.freeVars, hy])
    refine ⟨htelescope, fun y hy => ?_, ?_⟩
    · simp only [Goal.names, Binding.names, List.map_append, List.map_cons, List.map_nil,
        List.mem_append, List.mem_singleton]
      rcases mem_freeVars_subst hy with ⟨hy, hyz⟩ | hy
      · exact .inl (hmem y (by simp [Term.freeVars, hy, hyz]))
      · exact .inr (by simpa [Term.freeVars] using hy)
    · rw [Term.nameless_contract]
      have hopened : HasType .strict _ (Context.scope (⟨x, dom⟩ :: goal.hyps) .strict) _ _ :=
        Context.hasType_opened hx hcod
      refine Context.hasType_of_mem hopened htelescope.distinct fun b hb _ => ?_
      simpa [or_comm] using hb

lemma clear_typed (hgs : clear goal x = .ok gs) (hsub : subgoal ∈ gs) :
    subgoal.Typed (k.env.signature henv.closed .strict) := by
  obtain ⟨htarget, hhyps, rfl⟩ := clear_eq_ok hgs
  obtain rfl := List.mem_singleton.1 hsub
  have htelescope := h.telescope.without hhyps
  -- the target mentions only hypotheses that stay
  have hstay : ∀ b ∈ goal.hyps, b.name ∈ goal.target.freeVars → b ∈ without goal x := by
    intro b hb hocc
    have hbx : b.name ≠ x := fun hbx => htarget (hbx ▸ hocc)
    exact List.mem_filter.2 ⟨hb, by simpa using hbx⟩
  refine ⟨htelescope, fun y hy => ?_, ?_⟩
  · obtain ⟨b, hb, rfl⟩ := List.mem_map.1 (h.mentions y hy)
    exact List.mem_map_of_mem (hstay b hb hy)
  · exact Context.hasType_of_mem h.target htelescope.distinct fun b hb hocc =>
      hstay b hb (Term.occurs_nameless.1 hocc)

lemma injectionAs_typed {names : List Name} {shown : Argument}
    (hgs : k.injectionAs goal x names shown = .ok gs) (hsub : subgoal ∈ gs) :
    subgoal.Typed (k.env.signature henv.closed .strict) := by
  obtain ⟨e, parts, he, hsplits, hlen, hnodup, hnew, rfl⟩ := injectionAs_eq_ok hgs
  obtain rfl := List.mem_singleton.1 hsub
  obtain ⟨ty, hty, -, hmem, htyped⟩ := h.equation he
  have hparts : ∀ b ∈ List.zipWith Binding.mk names parts, b.name ∈ names ∧ b.ty ∈ parts :=
    fun b hb => mem_of_zipWith hb
  have htelescope : Telescope (k.env.signature henv.closed .strict)
      (goal.hyps ++ List.zipWith Binding.mk names parts) := by
    refine h.telescope.append (by rwa [names_zipWith hlen])
      (fun b hb => hnew b.name (hparts b hb).1) (fun b hb y hy => ?_) fun b hb => ?_
    · exact h.telescope.mem_names hty (hmem y ((hsplits.typed henv htyped (hparts b hb).2).2 y hy))
    · exact (hsplits.typed henv htyped (hparts b hb).2).1
  refine ⟨htelescope, fun y hy => ?_, ?_⟩
  · obtain ⟨b, hb, rfl⟩ := List.mem_map.1 (h.mentions y hy)
    exact List.mem_map_of_mem (List.mem_append_left _ hb)
  · exact Context.hasType_of_mem h.target htelescope.distinct fun b hb _ =>
      List.mem_append_left _ hb

lemma eliminate_typed (hgs : k.eliminate goal x y = .ok gs) (hsub : subgoal ∈ gs) :
    subgoal.Typed (k.env.signature henv.closed .strict) := by
  obtain ⟨e, v, hyps, he, hv, hyx, -, hyv, hxtarget, hunused, hreorder, rfl⟩ := eliminate_eq_ok hgs
  obtain rfl := List.mem_singleton.1 hsub
  have hreplaces : Replaces (k.env.signature henv.closed .strict) goal.hyps x y v :=
    h.replaces he hv hyv
  obtain ⟨htelescope, hterm⟩ := hreplaces.reorder hunused hreorder
  exact ⟨htelescope, (hterm h.target h.mentions hxtarget).2, (hterm h.target h.mentions hxtarget).1⟩

lemma uip_typed (hgs : k.uip goal x = .ok gs) (hsub : subgoal ∈ gs) :
    subgoal.Typed (k.env.signature henv.closed .strict) := by
  obtain ⟨e, d, he, hconv, -, hunused, rfl⟩ := uip_eq_ok hgs
  obtain rfl := List.mem_singleton.1 hsub
  obtain ⟨ty, hty, hred, hmem, htyped⟩ := h.equation he
  obtain ⟨hA, hl, -⟩ := htyped.eq_inv
  have htelescope := h.telescope.without hunused
  have hself : ∀ z ∈ e.toTerm.freeVars, z ∈ goal.names ∧ z ≠ x := h.mentions_equation hty hmem
  have hmentions : ∀ z ∈ (Term.refl e.ty e.lhs).freeVars, z ∈ e.toTerm.freeVars := by
    intro z hz
    simp only [Equation.toTerm, Term.freeVars, List.mem_append] at hz ⊢
    exact .inl hz
  have hstay : ∀ b ∈ goal.hyps, b.name ≠ x → b ∈ without goal x :=
    fun b hb hbx => List.mem_filter.2 ⟨hb, by simpa using hbx⟩
  have hnames : ∀ z ∈ goal.names, z ≠ x → z ∈ Binding.names (without goal x) := by
    intro z hz hzx
    obtain ⟨b, hb, rfl⟩ := List.mem_map.1 hz
    exact List.mem_map_of_mem (hstay b hb hzx)
  -- the type of the proof is reflexive, and does not mention the proof
  have hrefl : HasType .strict (k.env.signature henv.closed .strict)
      (Context.scope (without goal x) .strict) (Term.refl e.ty e.lhs).nameless ty.nameless := by
    have hsides : Conv e.lhs.nameless e.rhs.nameless := (convertible_iff hconv).1 rfl
    have hthere : HasType .strict (k.env.signature henv.closed .strict)
        (Context.scope goal.hyps .strict) (Term.refl e.ty e.lhs).nameless ty.nameless :=
      .refl rfl hA hl ((Conv.eq .rfl .rfl hsides).trans (Conv.of_reduces hred).symm)
    refine Context.hasType_of_mem hthere htelescope.distinct fun b hb hocc => hstay b hb ?_
    exact (hself b.name (hmentions b.name (Term.occurs_nameless.1 hocc))).2
  refine ⟨htelescope, fun z hz => ?_, ?_⟩
  · rcases mem_freeVars_subst hz with ⟨hz, hzx⟩ | hz
    · exact hnames z (h.mentions z hz) hzx
    · exact hnames z (hself z (hmentions z hz)).1 (hself z (hmentions z hz)).2
  · rw [Term.nameless_subst]
    refine Context.hasType_subst h.target fun b hb _ => ?_
    have hbself : b.ty.nameless.subst (single x (Term.refl e.ty e.lhs).nameless) =
        b.ty.nameless := by
      refine subst_single_of_not_occurs fun hocc => ?_
      by_cases hbx : b.name = x
      · exact h.telescope.not_mem_self hb (hbx ▸ Term.occurs_nameless.1 hocc)
      · exact hunused b hb hbx (Term.occurs_nameless.1 hocc)
    rw [hbself]
    by_cases hbx : b.name = x
    · obtain rfl : b = ⟨x, ty⟩ := h.telescope.eq_of_name hb hty hbx
      simpa [single] using hrefl
    · simp only [single, Ref.free.injEq, hbx, if_false]
      exact .ref (Context.scope_of_mem htelescope.distinct (hstay b hb hbx)) .rfl

lemma congruence_typed (hgs : k.congruence goal = .ok gs) (hsub : subgoal ∈ gs) :
    subgoal.Typed (k.env.signature henv.closed .strict) := by
  obtain ⟨e, c, he, hl, hr, hctor, hllen, hrlen, hindependent, rfl⟩ := congruence_eq_ok hgs
  obtain ⟨⟨b, l, r⟩, hmem, rfl⟩ := List.mem_map.1 hsub
  obtain ⟨hmentions, htyped⟩ := h.normalize (targetEquation_eq_ok he)
  obtain ⟨bs, R, hdeclared, htypes, hclosed⟩ :=
    ctorBinders_closed henv.closed henv.closed_args hctor hindependent
  have hlen : bs.length = (ctorBinders k.env c).length := by simpa using congrArg List.length htypes
  have hmem' : (b.ty, l, r) ∈ (bs.map Binding.ty).zip (e.lhs.args.zip e.rhs.args) := by
    rw [htypes, List.zip_map_left]
    exact List.mem_map.2 ⟨_, hmem, rfl⟩
  obtain ⟨hpart, hsame⟩ := htyped.components (congrArg (Option.map _) hdeclared)
    (henv.types _ _ hdeclared) hclosed hl hr (hllen.trans hlen.symm) (hrlen.trans hlen.symm) hmem'
  exact h.withTarget (fun x hx => hmentions x (hsame x hx)) hpart

/-- **Every rule but case analysis** leaves typed goals. -/
theorem run_typed {rule : Rule} (hcase : ∀ t n motive, rule ≠ .case t n motive)
    (hargs : ∀ t, .term t ∈ rule.call.args → ∀ x ∈ t.freeVars, x ∈ goal.names)
    (hgs : k.run goal rule = .ok gs) (hsub : subgoal ∈ gs) :
    subgoal.Typed (k.env.signature henv.closed .strict) := by
  cases rule with
  | change t =>
    obtain ⟨hty, -, rfl⟩ := change_eq_ok hgs
    obtain rfl := List.mem_singleton.1 hsub
    have hmem := hargs t (by simp [Rule.call])
    exact h.withTarget hmem (expectType_typed henv h hmem hty)
  | symmetry => exact symmetry_typed henv h hgs hsub
  | generalize t w =>
    obtain ⟨z, dom, cod, hty, -, -, -, rfl⟩ := generalize_eq_ok hgs
    obtain rfl := List.mem_singleton.1 hsub
    have hmem := hargs t (by simp [Rule.call])
    exact h.withTarget hmem (expectType_typed henv h hmem hty)
  | intro x => exact intro_typed henv h hgs hsub
  | clear x => exact clear_typed henv h hgs hsub
  | case t n motive => exact absurd rfl (hcase t n motive)
  | injection x parts => exact injectionAs_typed henv h hgs hsub
  | discriminate x =>
    obtain ⟨-, -, -, -, -, -, -, rfl⟩ := discriminate_eq_ok hgs
    cases hsub
  | subst x y => exact eliminate_typed henv h hgs hsub
  | uip x => exact uip_typed henv h hgs hsub
  | reflexivity =>
    obtain ⟨-, -, -, rfl⟩ := reflexivity_eq_ok hgs
    cases hsub
  | assumption x =>
    obtain ⟨-, -, -, rfl⟩ := assumption_eq_ok hgs
    cases hsub
  | decide =>
    obtain ⟨-, -, -, -, -, -, rfl⟩ := decide_eq_ok hgs
    cases hsub
  | congruence => exact congruence_typed henv h hgs hsub

end Rules

/-! ### Well typed by inference -/

/-- Inference gives the universe. -/
def IsSort (outcome : Except Fault Term) : Prop :=
  outcome = .ok .sort

instance : DecidablePred IsSort := fun _ => decidable_of_iff _ Except.toOption_eq_some

/-- All declared types are closed and infer to the universe. -/
structure WellFormed (k : Kernel) : Prop where
  closed : ∀ c ∈ declaredNames k.env.datatypes k.env.families k.env.constants,
    ∀ ty ∈ k.env.constType? c, ty.freeVars = []
  closed_args : ∀ d ∈ k.env.datatypes, ∀ ctor ∈ d.ctors, ∀ ty ∈ ctor.argTypes, ty.freeVars = []
  types : ∀ c ∈ declaredNames k.env.datatypes k.env.families k.env.constants,
    ∀ ty ∈ k.env.constType? c, IsSort (k.infer [] ty)

/-- The names are distinct; each hypothesis mentions only those before it, in which inference finds
it to be a type; and the target is a type over the hypotheses.  `accepts` says which outcomes of
inference count. -/
structure WellTyped (k : Kernel) (accepts : Except Fault Term → Prop) (goal : Goal) : Prop where
  distinct : goal.names.Nodup
  hyps_mention : ∀ i : Fin goal.hyps.length, ∀ x ∈ goal.hyps[i].ty.freeVars,
    x ∈ Binding.names (goal.hyps.take i)
  hyps : ∀ i : Fin goal.hyps.length, accepts (k.infer (goal.hyps.take i) goal.hyps[i].ty)
  target_mentions : ∀ x ∈ goal.target.freeVars, x ∈ goal.names
  target : accepts (k.infer goal.context goal.target)

/-- Inference gives the universe, or runs out of depth. -/
def IsSortUpToDepth (outcome : Except Fault Term) : Prop :=
  UpToDepth outcome (· = .sort)

lemma WellFormed.typed (h : k.WellFormed) : k.env.Typed := by
  have hclosed : k.env.Closed :=
    fun c ty hty => h.closed c (Environment.mem_declaredNames hty) ty hty
  refine ⟨hclosed, h.closed_args, fun c ty hty => ?_⟩
  have hinfer := h.types c (Environment.mem_declaredNames hty) ty hty
  refine inferAt_sound k hclosed .strict k.depth (fun b hb => by cases hb) (fun x hx => ?_) hinfer
  have hfree := Term.occurs_nameless.1 hx
  rw [hclosed c ty hty] at hfree
  cases hfree

/-- The hypotheses before one of a list. -/
lemma split_at (hyps : List Binding) (i : Fin hyps.length) :
    hyps = hyps.take i ++ hyps[i] :: hyps.drop (i + 1) := by
  simp

lemma scoped_take {hyps : List Binding} (h : OrderedFrom [] hyps) (n : Nat) {m : Discipline} :
    Context.Scoped (hyps.take n) m := by
  intro b hb x hx
  obtain ⟨pre, post, hsplit⟩ := List.append_of_mem hb
  have hhyps : hyps = pre ++ b :: (post ++ hyps.drop n) := by
    rw [← List.cons_append, ← List.append_assoc, ← hsplit, List.take_append_drop]
  rcases h.of_split hhyps x (Term.occurs_nameless.1 (Discipline.occurs_of_view hx)) with hpre | hnil
  · rw [hsplit, Binding.names, List.map_append]
    exact List.mem_append_left _ hpre
  · cases hnil

/-- The hypotheses of a well typed goal are arranged. -/
lemma WellTyped.arranged {accepts : Except Fault Term → Prop} (h : k.WellTyped accepts goal) :
    Arranged goal.hyps := by
  refine ⟨h.distinct, .of_forall_split fun pre b post hsplit x hx => .inl ?_⟩
  have hlt : pre.length < goal.hyps.length := by simp [hsplit]
  have hmention := h.hyps_mention ⟨pre.length, hlt⟩
  simp only [Fin.getElem_fin, hsplit, List.getElem_append_right (Nat.le_refl _), Nat.sub_self,
    List.getElem_cons_zero, List.take_left] at hmention
  exact hmention x hx

/-- A goal that inference finds well typed is typed, if the declared types are closed. -/
theorem WellTyped.typed_of_closed (hclosed : k.env.Closed) (h : k.WellTyped IsSort goal) :
    goal.Typed (k.env.signature hclosed .strict) := by
  have htelescope : Telescope (k.env.signature hclosed .strict) goal.hyps := by
    refine ⟨h.arranged, fun b hb => ?_⟩
    obtain ⟨i, hi, rfl⟩ := List.mem_iff_getElem.1 hb
    have hthere := inferAt_sound k hclosed .strict k.depth (scoped_take h.arranged.ordered i)
      (fun x hx => h.hyps_mention ⟨i, hi⟩ x (Term.occurs_nameless.1 hx)) (h.hyps ⟨i, hi⟩)
    exact Context.hasType_of_mem hthere h.distinct fun b hb _ => List.mem_of_mem_take hb
  refine ⟨htelescope, h.target_mentions, ?_⟩
  have hcontext : goal.context = goal.hyps := keepLast_of_nodup h.distinct
  have htarget := h.target
  rw [hcontext] at htarget
  exact inferAt_sound k hclosed .strict k.depth htelescope.isScoped
    (fun x hx => h.target_mentions x (Term.occurs_nameless.1 hx)) htarget

theorem WellTyped.typed (henv : k.env.Typed) (h : k.WellTyped IsSort goal) :
    goal.Typed (k.env.signature henv.closed .strict) :=
  h.typed_of_closed henv.closed

/-- Inference finds a type over a context to be one, as far as the depth goes. -/
lemma isSortUpToDepth_of_hasType {ctx : Context} {t : Term} (hclosed : k.env.Closed)
    (hctx : ctx.Scoped .strict) (ht : t.freeVars ⊆ Binding.names ctx)
    (h : HasType .strict (k.env.signature hclosed .strict) (ctx.scope .strict) t.nameless sort) :
    IsSortUpToDepth (k.infer ctx t) :=
  (inferAt_complete k hclosed k.depth hctx (fun _ hx => ht (Term.occurs_nameless.1 hx)) h).imp
    fun _ _ hU => eq_sort_of_conv hU.1 hU.2

/-- Inference finds a typed goal well typed, as far as the depth goes. -/
theorem wellTyped_of_typed (henv : k.env.Typed)
    (h : goal.Typed (k.env.signature henv.closed .strict)) : k.WellTyped IsSortUpToDepth goal := by
  have hmention : ∀ i : Fin goal.hyps.length, ∀ x ∈ goal.hyps[i].ty.freeVars,
      x ∈ Binding.names (goal.hyps.take i) :=
    fun i x hx => (h.telescope.ordered.of_split (split_at goal.hyps i) x hx).resolve_right nofun
  refine ⟨h.telescope.distinct, hmention, fun i => ?_, h.mentions, ?_⟩
  · refine isSortUpToDepth_of_hasType henv.closed (scoped_take h.telescope.ordered i)
      (hmention i) ?_
    have hdistinct : (Binding.names (goal.hyps.take i)).Nodup :=
      h.telescope.distinct.sublist ((List.take_sublist ..).map _)
    refine Context.hasType_of_mem (h.telescope.typed _ (List.getElem_mem i.2))
      hdistinct fun b hb hocc => ?_
    obtain ⟨b', hb', hname⟩ := List.mem_map.1 (hmention i b.name (Term.occurs_nameless.1 hocc))
    obtain rfl := h.telescope.eq_of_name (List.mem_of_mem_take hb') hb hname
    exact hb'
  · rw [h.context_eq]
    exact isSortUpToDepth_of_hasType henv.closed h.telescope.isScoped h.mentions h.target

/-- **A call other than case analysis leaves well typed goals of a well typed goal**, over
declarations that are well formed, if its arguments mention only hypotheses: whatever the depth,
inference finds the types of each subgoal to be types, or runs out. -/
theorem wellTyped_of_apply (k : Kernel) (hk : k.WellFormed) (goal : Goal)
    (hgoal : k.WellTyped IsSort goal) (call : Call) (hcase : call.rule ≠ .text "case")
    (hargs : ∀ t, .term t ∈ call.args → ∀ x ∈ t.freeVars, x ∈ goal.names) (subgoals : List Goal)
    (h : k.apply goal call = .ok subgoals) (subgoal : Goal) (hsub : subgoal ∈ subgoals)
    (depth : Nat) : { k with depth }.WellTyped IsSortUpToDepth subgoal := by
  have henv := hk.typed
  have htyped := hgoal.typed henv
  have hsubgoal : subgoal.Typed (k.env.signature henv.closed .strict) := by
    rcases apply_eq_ok h with ⟨rule, rfl, hrun⟩ | ⟨x, letters, rfl, hinjection⟩ |
      ⟨t, n, shown, motive, rfl, -⟩
    · refine run_typed henv htyped (fun t n motive hrule => hcase ?_) hargs hrun hsub
      rw [hrule, Rule.call]
    · exact injectionAs_typed henv htyped hinjection hsub
    · exact absurd rfl hcase
  exact wellTyped_of_typed (k := { k with depth }) henv hsubgoal

/-- Elimination of `x` by `x = y` moves the evidence `h : S x` behind `y`, of which it then is
evidence. -/
theorem wellTyped_of_apply_sample :
    (Sample.kernel Sample.registry).apply Sample.equated ⟨.text "subst", [.text "e", .text "x"]⟩ =
      .ok [Sample.replaced] ∧
    (Sample.kernel Sample.registry).WellTyped IsSortUpToDepth Sample.replaced := by
  have hformed : (Sample.kernel Sample.registry).WellFormed :=
    ⟨by decide +kernel, by decide +kernel, by decide +kernel⟩
  have hgoal : (Sample.kernel Sample.registry).WellTyped IsSort Sample.equated :=
    ⟨by decide +kernel, by decide +kernel, by decide +kernel, by decide +kernel, by decide +kernel⟩
  have happly : (Sample.kernel Sample.registry).apply Sample.equated
      ⟨.text "subst", [.text "e", .text "x"]⟩ =
      .ok [Sample.replaced] := Except.toOption_eq_some.1 (by decide +kernel)
  refine ⟨happly, wellTyped_of_apply (Sample.kernel Sample.registry) hformed Sample.equated hgoal _
    (by decide) ?_ _ happly Sample.replaced (by simp) 40⟩
  intro t ht
  simp at ht

end Kernel

end UniqueEvidence
