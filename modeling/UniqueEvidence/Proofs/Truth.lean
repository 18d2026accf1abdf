/-
When a goal is true.

* `Holds S T`: every equation that closed arguments lead to from `T` has convertible sides;
  `Proper S T`: its sides are closed terms of its type, up to conversion;
* `holds_of_inhabits`: **a type with a closed term holds**; `proper_of_type`: a closed type is
  proper;
* `Models S hyps γ`: closed terms for hypotheses, each of the type of its hypothesis;
* `Goal.Grounded`: the goals considered, which mention only their hypotheses;
* `Goal.Valid`: the target holds under all such terms, if it is proper.
-/
import UniqueEvidence.Goal
import UniqueEvidence.Proofs.Adequacy

namespace UniqueEvidence

open Nameless

variable {S : Signature}

/-! ### Equations that a type leads to -/

/-- The first type is the second, or a function type whose result at a closed argument leads
there. -/
inductive Reaches (S : Signature) : Nameless → Nameless → Prop where
  | here {T T'} : Conv T T' → Reaches S T T'
  | apply {T A B a T'} : Conv T (pi A B) → Inhabits S a A → Reaches S (B.inst a) T' → Reaches S T T'

lemma Reaches.conv {T T' U : Nameless} (h : Reaches S T U) (hc : Conv T' T) : Reaches S T' U := by
  cases h with
  | here hT => exact here (hc.trans hT)
  | apply hT ha hrest => exact apply (hc.trans hT) ha hrest

/-- The property holds of every equation that the type leads to. -/
def AtEquations (S : Signature) (φ : Nameless → Nameless → Nameless → Prop) (T : Nameless) : Prop :=
  ∀ A l r, Reaches S T (eq A l r) → φ A l r

namespace AtEquations

variable {φ : Nameless → Nameless → Nameless → Prop} {T A B l r : Nameless}

lemma conv (h : AtEquations S φ T) {T' : Nameless} (hc : Conv T' T) : AtEquations S φ T' :=
  fun A l r hr => h A l r (hr.conv hc.symm)

lemma of_eq (h : AtEquations S φ (eq A l r)) : φ A l r :=
  h A l r (.here .rfl)

lemma inst (h : AtEquations S φ (pi A B)) {a : Nameless} (ha : Inhabits S a A) :
    AtEquations S φ (B.inst a) :=
  fun A' l r hr => h A' l r (.apply .rfl ha hr)

/-- An equation leads to itself only. -/
lemma eq_intro (h : ∀ A' l' r', Conv A A' → Conv l l' → Conv r r' → φ A' l' r') :
    AtEquations S φ (eq A l r) := by
  intro A' l' r' hr
  cases hr with
  | here hc =>
    obtain ⟨hA, hl, hr⟩ := hc.eq_inj
    exact h A' l' r' hA hl hr
  | apply hc => cases hc.head_eq rfl rfl

/-- A function type leads where its results lead. -/
lemma pi_intro (h : ∀ a, Inhabits S a A → AtEquations S φ (B.inst a)) :
    AtEquations S φ (pi A B) := by
  intro A' l r hr
  cases hr with
  | here hc => cases hc.head_eq rfl rfl
  | apply hc ha hrest =>
    obtain ⟨hA, hB⟩ := hc.pi_inj
    exact h _ (ha.conv hA.symm) A' l r (hrest.conv (hB.inst .rfl))

end AtEquations

/-! ### Truth -/

/-- The equations that the type leads to have convertible sides. -/
def Holds (S : Signature) : Nameless → Prop :=
  AtEquations S fun _ l r => Conv l r

/-- The sides of the equations that the type leads to are closed terms, up to conversion. -/
def Proper (S : Signature) : Nameless → Prop :=
  AtEquations S fun A l r => (∃ u, Inhabits S u A ∧ Conv u l) ∧ ∃ u, Inhabits S u A ∧ Conv u r

lemma holds_eq {A l r : Nameless} (h : Conv l r) : Holds S (eq A l r) :=
  .eq_intro fun _ _ _ _ hl hr => hl.symm.trans (h.trans hr)

lemma proper_eq {A l r u v : Nameless} (hu : Inhabits S u A) (hul : Conv u l) (hv : Inhabits S v A)
    (hvr : Conv v r) : Proper S (eq A l r) :=
  .eq_intro fun _ _ _ hA hl hr => ⟨⟨u, hu.conv hA, hul.trans hl⟩, v, hv.conv hA, hvr.trans hr⟩

/-- **A type with a closed term holds.** -/
theorem holds_of_inhabits (hS : S.Telescopic) {p T : Nameless} (h : Inhabits S p T) :
    Holds S T := by
  intro A l r hr
  generalize hU : eq A l r = U at hr
  induction hr generalizing p with
  | here hc =>
    subst hU
    exact (h.of_eq hS hc).1
  | @apply T A B a U hc ha _ ih =>
    have happ : Inhabits S (app p a) (B.inst a) :=
      ⟨⟨h.sortFree, ha.sortFree⟩, .app (h.hasType.conv hc) ha.hasType .rfl⟩
    exact ih happ hU

/-- What a closed type leads to is a closed type, up to conversion. -/
lemma Reaches.type {T U : Nameless} (h : Reaches S T U) {T' : Nameless} (hc : Conv T T')
    (hT' : Inhabits S T' sort) : ∃ U', Conv U U' ∧ Inhabits S U' sort := by
  induction h generalizing T' with
  | here hT => exact ⟨T', hT.symm.trans hc, hT'⟩
  | @apply T A B a U hT ha _ ih =>
    -- the type computes to a function type, whose result at the argument is a type
    obtain ⟨w, hw, hpi⟩ := hc.symm.trans hT
    obtain ⟨A', B', rfl, hA, hB⟩ := inert_pi.reduces hpi
    have htype := hT'.reduces hw
    cases htype.hasType with
    | pi _ hB' =>
      have harg := ha.conv (Conv.of_reduces hA)
      exact ih ((Conv.of_reduces hB).inst .rfl)
        ⟨htype.sortFree.2.inst ha.sortFree, hB'.inst harg.hasType fun _ => harg.sortFree⟩

/-- A closed type is proper. -/
theorem proper_of_type {T : Nameless} (h : Inhabits S T sort) : Proper S T := by
  intro A l r hr
  obtain ⟨U, ⟨w, hw, hUw⟩, hU⟩ := hr.type .rfl h
  obtain ⟨A', l', r', rfl, hA, hl, hr⟩ := hw.eq_inv
  have htype := hU.reduces hUw
  obtain ⟨-, hl', hr'⟩ := htype.hasType.eq_inv
  exact ⟨⟨l', ⟨htype.sortFree.2.1, hl'.conv (Conv.of_reduces hA).symm⟩, (Conv.of_reduces hl).symm⟩,
    r', ⟨htype.sortFree.2.2, hr'.conv (Conv.of_reduces hA).symm⟩, (Conv.of_reduces hr).symm⟩

/-! ### Terms under an assignment -/

/-- The term with closed terms for its variables. -/
def Term.under (t : Term) (γ : Ref → Nameless) : Nameless :=
  (Discipline.erased.view t).subst γ

/-- The name occurs in the term outside of what no rule looks at. -/
def Term.Mentions (t : Term) (x : Name) : Prop :=
  (Discipline.erased.view t).Occurs (.free x)

namespace Term

variable {t u v : Term} {x : Name} {γ γ' : Ref → Nameless}

lemma mem_freeVars_of_mentions (h : t.Mentions x) : x ∈ t.freeVars :=
  occurs_nameless.1 (Discipline.occurs_of_view h)

lemma under_conv (h : t.nameless.Conv u.nameless) (γ : Ref → Nameless) :
    Conv (t.under γ) (u.under γ) :=
  (Discipline.view_conv h).subst γ

/-- Only the names that are mentioned matter. -/
lemma under_congr (h : ∀ x, t.Mentions x → γ (.free x) = γ' (.free x)) :
    t.under γ = t.under γ' := by
  refine subst_congr fun r hr => ?_
  rcases r with n | x
  · exact (not_occurs_bound t n (Discipline.occurs_of_view hr)).elim
  · exact h x hr

/-- A substituted value may be assigned instead. -/
lemma under_subst (h : Conv (γ (.free x)) (v.under γ)) :
    Conv ((t.subst x v).under γ) (t.under γ) := by
  rw [under, Discipline.view_subst, subst_subst]
  refine Conv.subst_conv _ fun r _ => ?_
  by_cases hr : r = .free x
  · rw [hr, single_self]
    exact h.symm
  · rw [single_of_ne hr]
    exact .rfl

lemma mentions_subst (h : (t.subst y v).Mentions x) : t.Mentions x ∧ x ≠ y ∨ v.Mentions x := by
  rw [Mentions, Discipline.view_subst, occurs_subst] at h
  obtain ⟨r, hr, hx⟩ := h
  by_cases hry : r = .free y
  · rw [hry, single_self] at hx
    exact .inr hx
  · rw [single_of_ne hry] at hx
    obtain rfl : r = Ref.free x := hx
    exact .inl ⟨hr, fun hxy => hry (hxy ▸ rfl)⟩

lemma under_apps (f : Term) (as : List Term) (γ : Ref → Nameless) :
    (f.apps as).under γ = (f.under γ).apps (as.map fun a => a.under γ) := by
  rw [under, Discipline.view_apps, subst_apps, List.map_map]
  rfl

lemma under_of_head {c : Name} (h : t.head = .const c) :
    t.under γ = (Nameless.const c).apps (t.args.map fun a => a.under γ) := by
  conv_lhs => rw [← apps_head_args t, h, under_apps]
  rw [under, Discipline.view_const]
  rfl

lemma mentions_apps {f : Term} {as : List Term} :
    (f.apps as).Mentions x ↔ f.Mentions x ∨ ∃ a ∈ as, a.Mentions x := by
  induction as generalizing f with
  | nil => simp [apps]
  | cons a as ih =>
    change ((Term.app f a).apps as).Mentions x ↔ _
    rw [ih]
    simp [Mentions, Nameless.Occurs, or_assoc]

lemma mentions_of_mem_args {a : Term} (ha : a ∈ t.args) (hx : a.Mentions x) : t.Mentions x := by
  rw [← apps_head_args t, mentions_apps]
  exact .inr ⟨a, ha, hx⟩

@[simp] lemma under_eq (A l r : Term) :
    (Term.eq A l r).under γ = .eq (A.under γ) (l.under γ) (r.under γ) := by
  simp [under, Nameless.subst]

@[simp] lemma under_var (x : Name) : (Term.var x).under γ = γ (.free x) := by
  simp [under, Nameless.subst]

@[simp] lemma under_prod (A B : Term) :
    (Term.prod A B).under γ = .prod (A.under γ) (B.under γ) := by
  simp [under, Nameless.subst]

@[simp] lemma under_pair (a b : Term) :
    (Term.pair a b).under γ = .pair (a.under γ) (b.under γ) := by
  simp [under, Nameless.subst]

@[simp] lemma under_refl (A a : Term) : (Term.refl A a).under γ = .refl .tt (a.under γ) := by
  simp [under, Nameless.subst]

lemma under_pi (y : Name) (A B : Term) :
    (Term.pi y A B).under γ =
      .pi (A.under γ) (((Discipline.erased.view B).rename (Ref.capture y)).subst (up γ)) := by
  rw [under, Discipline.view_pi]
  rfl

lemma mentions_pi {y : Name} {A B : Term} :
    (Term.pi y A B).Mentions x ↔ A.Mentions x ∨ B.Mentions x ∧ x ≠ y := by
  rw [Mentions, Discipline.view_pi, Nameless.Occurs, Ref.succ_free, occurs_capture]
  rfl

/-- The codomain of a function type at a term. -/
lemma under_instance (cod : Term) (z : Name) (w : Term) (γ : Ref → Nameless) :
    (((Discipline.erased.view cod).rename (Ref.capture z)).subst (up γ)).inst (w.under γ) =
      (cod.subst z w).under γ := by
  rw [inst_subst_captured, under, under, Discipline.view_subst, subst_subst]
  congr 1
  funext r
  by_cases hr : r = .free z
  · rw [hr, assign_self, single_self]
  · rw [assign_of_ne hr, single_of_ne hr]
    rfl

end Term

/-! ### Goals under assignments -/

/-- Closed terms for the hypotheses, each of the type of its hypothesis. -/
structure Models (S : Signature) (hyps : List Binding) (γ : Ref → Nameless) : Prop where
  sortFree : ∀ r, (γ r).SortFree
  typed : ∀ b ∈ hyps, HasType .erased S Scope.empty (γ (.free b.name)) (b.ty.under γ)

lemma Models.inhabits {hyps : List Binding} {γ : Ref → Nameless} (h : Models S hyps γ) {b : Binding}
    (hb : b ∈ hyps) : Inhabits S (γ (.free b.name)) (b.ty.under γ) :=
  ⟨h.sortFree _, h.typed b hb⟩

/-- A goal over its hypotheses, none of which mentions itself. -/
structure Goal.Grounded (goal : Goal) : Prop where
  distinct : goal.names.Nodup
  mentions : ∀ b ∈ goal.hyps, ∀ x, b.ty.Mentions x → x ∈ goal.names
  irreflexive : ∀ b ∈ goal.hyps, ¬ b.ty.Mentions b.name
  target_mentions : ∀ x, goal.target.Mentions x → x ∈ goal.names

/-- The target holds under all closed terms for the hypotheses under which it is proper. -/
def Goal.Valid (S : Signature) (goal : Goal) : Prop :=
  ∀ γ, Models S goal.hyps γ → Proper S (goal.target.under γ) → Holds S (goal.target.under γ)

/-- The sides of a valid equation are convertible wherever they are closed terms of its type. -/
lemma Goal.Valid.conv {hyps : List Binding} {A l r : Term} (h : Goal.Valid S ⟨hyps, .eq A l r⟩)
    {γ : Ref → Nameless} (hγ : Models S hyps γ) (hl : Inhabits S (l.under γ) (A.under γ))
    (hr : Inhabits S (r.under γ) (A.under γ)) : Conv (l.under γ) (r.under γ) := by
  have hproper : Proper S ((Term.eq A l r).under γ) :=
    Term.under_eq A l r ▸ proper_eq hl .rfl hr .rfl
  have hholds := h γ hγ hproper
  rw [Term.under_eq] at hholds
  exact hholds.of_eq

end UniqueEvidence
