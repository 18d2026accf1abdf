/-
Typed applications of constants.

* `Spine`: the arguments of a function of a given type, with the type of the whole;
* `HasType.spine`: **a typed application of a constant is a spine** over the constant's declared
  type;
* `TypedArgs`, `Spine.telescope`: the arguments of a constant that is declared by a telescope have
  the types of its bindings, each with the arguments before it put in;
* `TypedArgs.spine`: the converse.
-/
import UniqueEvidence.Proofs.Inference

namespace UniqueEvidence

open Nameless

/-- Arguments of a function of the first type, which give a result of the second. -/
inductive Spine (m : Discipline) (S : Signature) (Γ : Scope) :
    Nameless → List Nameless → Nameless → Prop where
  | nil {U T} : Conv U T → Spine m S Γ U [] T
  | cons {U A B a as T} : Conv U (pi A B) → HasType m S Γ a A → Spine m S Γ (B.inst a) as T →
    Spine m S Γ U (a :: as) T

variable {m : Discipline} {S : Signature} {Γ : Scope}

namespace Spine

lemma conv_left {U U' T : Nameless} {as : List Nameless} (h : Spine m S Γ U as T) (hU : Conv U' U) :
    Spine m S Γ U' as T := by
  cases h with
  | nil hc => exact .nil (hU.trans hc)
  | cons hc ha has => exact .cons (hU.trans hc) ha has

lemma concat {U A B a T : Nameless} {as : List Nameless} (h : Spine m S Γ U as (pi A B))
    (ha : HasType m S Γ a A) (hT : Conv (B.inst a) T) : Spine m S Γ U (as ++ [a]) T := by
  generalize hP : pi A B = P at h
  induction h with
  | nil hc =>
    subst hP
    exact .cons hc ha (.nil hT)
  | cons hc hb _ ih => exact .cons hc hb (ih hP)

end Spine

/-- **A typed application of a constant is a spine** over the constant's type. -/
theorem HasType.spine {c : Name} {as : List Nameless} {T : Nameless}
    (h : HasType m S Γ ((Nameless.const c).apps as) T) :
    ∃ U, S.type? c = some U ∧ Spine m S Γ U as T := by
  induction as using List.reverseRecOn generalizing T with
  | nil =>
    cases h with
    | const hU hc => exact ⟨_, hU, .nil hc⟩
  | append_singleton as a ih =>
    rw [apps_concat] at h
    cases h with
    | app hf ha hc =>
      obtain ⟨U, hU, hspine⟩ := ih hf
      exact ⟨U, hU, hspine.concat ha hc⟩

/-- Arguments along a spine make an application of the result type. -/
lemma Spine.hasType {f U T : Nameless} {as : List Nameless} (h : Spine m S Γ U as T)
    (hf : HasType m S Γ f U) : HasType m S Γ (f.apps as) T := by
  induction h generalizing f with
  | nil hc => exact hf.conv hc
  | cons hc ha _ ih => exact ih (.app (hf.conv hc) ha .rfl)

/-! ### Telescopes -/

/-- A substitution with one more name assigned. -/
def assign (σ : Ref → Nameless) (x : Name) (a : Nameless) (r : Ref) : Nameless :=
  if r = .free x then a else σ r

@[simp] lemma assign_self (σ : Ref → Nameless) (x : Name) (a : Nameless) :
    assign σ x a (.free x) = a :=
  if_pos rfl

lemma assign_of_ne {σ : Ref → Nameless} {x : Name} {a : Nameless} {r : Ref} (h : r ≠ .free x) :
    assign σ x a r = σ r :=
  if_neg h

/-- A substitution with the names of bindings assigned in order. -/
def assignAll (σ : Ref → Nameless) : List Binding → List Nameless → Ref → Nameless
  | b :: bs, a :: as => assignAll (assign σ b.name a) bs as
  | _, _ => σ

/-- Each argument has the type of its binding, with the arguments before it put in. -/
def TypedArgs (m : Discipline) (S : Signature) (Γ : Scope) (σ : Ref → Nameless) :
    List Binding → List Nameless → Prop
  | [], [] => True
  | b :: bs, a :: as => HasType m S Γ a ((m.view b.ty).subst σ) ∧
    TypedArgs m S Γ (assign σ b.name a) bs as
  | _, _ => False

/-- A captured body with an argument put in. -/
lemma inst_subst_captured (b a : Nameless) (x : Name) (σ : Ref → Nameless) :
    ((b.rename (Ref.capture x)).subst (up σ)).inst a = b.subst (assign σ x a) := by
  rw [inst_up, subst_rename]
  congr 1
  funext r
  by_cases hr : r = .free x
  · simp [hr]
  · simp [Ref.capture_of_ne hr, assign_of_ne hr]

namespace Spine

variable {σ : Ref → Nameless} {b : Binding} {bs : List Binding} {R : Term} {as : List Nameless}
  {T : Nameless}

/-- The first argument of a function that is typed by a telescope. -/
lemma pis_cons {a : Nameless} (h : Spine m S Γ ((m.view (.pis (b :: bs) R)).subst σ) (a :: as) T) :
    HasType m S Γ a ((m.view b.ty).subst σ) ∧
      Spine m S Γ ((m.view (.pis bs R)).subst (assign σ b.name a)) as T := by
  change Spine m S Γ ((m.view (.pi b.name b.ty (.pis bs R))).subst σ) (a :: as) T at h
  rw [Discipline.view_pi, subst] at h
  cases h with
  | cons hc ha has =>
    obtain ⟨hdom, hcod⟩ := hc.pi_inj
    refine ⟨ha.conv hdom.symm, has.conv_left ?_⟩
    rw [← inst_subst_captured]
    exact hcod.inst .rfl

/-- **The arguments of a constant that is declared by a telescope** are typed by it, if there are
enough of them. -/
theorem telescope (h : Spine m S Γ ((m.view (.pis bs R)).subst σ) as T)
    (hlen : as.length = bs.length) :
    TypedArgs m S Γ σ bs as ∧ Conv ((m.view R).subst (assignAll σ bs as)) T := by
  induction bs generalizing σ as with
  | nil =>
    obtain rfl := List.length_eq_zero_iff.1 hlen
    cases h with
    | nil hc => exact ⟨trivial, hc⟩
  | cons b bs ih =>
    cases as with
    | nil => cases hlen
    | cons a as =>
      obtain ⟨ha, has⟩ := h.pis_cons
      obtain ⟨hargs, hc⟩ := ih has (by simpa using hlen)
      exact ⟨⟨ha, hargs⟩, hc⟩

end Spine

/-- Typed arguments go along a spine over their telescope. -/
lemma TypedArgs.spine {σ : Ref → Nameless} {bs : List Binding} {as : List Nameless}
    (h : TypedArgs m S Γ σ bs as) (R : Term) :
    Spine m S Γ ((m.view (.pis bs R)).subst σ) as ((m.view R).subst (assignAll σ bs as)) := by
  induction bs generalizing σ as with
  | nil =>
    cases as with
    | nil => exact .nil .rfl
    | cons => exact h.elim
  | cons b bs ih =>
    cases as with
    | nil => exact h.elim
    | cons a as =>
      change Spine m S Γ ((m.view (.pi b.name b.ty (.pis bs R))).subst σ) (a :: as) _
      rw [Discipline.view_pi, subst]
      refine .cons .rfl h.1 ?_
      rw [inst_subst_captured]
      exact ih h.2

/-- Arguments of the types of a telescope whose bindings do not mention one another. -/
lemma TypedArgs.of_independent {σ : Ref → Nameless} {bs : List Binding} {as : List Nameless}
    (h : List.Forall₂ (fun b a => HasType m S Γ a (m.view b.ty)) bs as)
    (hσ : ∀ b ∈ bs, ∀ r, (m.view b.ty).Occurs r → σ r = ref r)
    (hbs : ∀ b ∈ bs, ∀ x ∈ b.ty.freeVars, x ∉ Binding.names bs) : TypedArgs m S Γ σ bs as := by
  induction h generalizing σ with
  | nil => trivial
  | @cons b a bs as hb _ ih =>
    refine ⟨?_, ih (fun b' hb' r hr => ?_) fun b' hb' x hx hmem => ?_⟩
    · rwa [subst_congr (hσ b List.mem_cons_self), subst_ref]
    · have hne : r ≠ .free b.name := by
        rintro rfl
        exact hbs b' (List.mem_cons_of_mem _ hb') _
          (Term.occurs_nameless.1 (Discipline.occurs_of_view hr)) List.mem_cons_self
      rw [assign_of_ne hne, hσ b' (List.mem_cons_of_mem _ hb') r hr]
    · exact hbs b' (List.mem_cons_of_mem _ hb') x hx (List.mem_cons_of_mem _ hmem)

/-! ### Arguments of closed types -/

lemma arrows_eq_pis (doms : List Term) (cod : Term) :
    Term.arrows doms cod = .pis (doms.map fun ty => ⟨Term.anonymous, ty⟩) cod := by
  induction doms with
  | nil => rfl
  | cons ty doms ih => exact congrArg (Term.pi Term.anonymous ty) ih

lemma closed_view {t : Term} (h : t.freeVars = []) : (m.view t).Closed :=
  fun r hr => Term.closed_nameless h r (Discipline.occurs_of_view hr)

lemma TypedArgs.of_closed {σ : Ref → Nameless} {bs : List Binding} {as : List Nameless}
    (h : TypedArgs m S Γ σ bs as) (hclosed : ∀ b ∈ bs, b.ty.freeVars = []) :
    List.Forall₂ (fun b a => HasType m S Γ a (m.view b.ty)) bs as := by
  induction bs generalizing σ as with
  | nil =>
    cases as with
    | nil => exact .nil
    | cons => exact h.elim
  | cons b bs ih =>
    cases as with
    | nil => exact h.elim
    | cons a as =>
      have hb : (m.view b.ty).Closed := closed_view (hclosed b List.mem_cons_self)
      exact .cons (subst_of_closed hb σ ▸ h.1)
        (ih h.2 fun b' hb' => hclosed b' (List.mem_cons_of_mem _ hb'))

/-- The arguments of a constant that is declared with closed argument types. -/
lemma HasType.args_of_closed {c : Name} {bs : List Binding} {R : Term} {as : List Nameless}
    {T : Nameless} (h : HasType m S Γ ((Nameless.const c).apps as) T)
    (hc : S.type? c = some (m.view (.pis bs R))) (hclosed : ∀ b ∈ bs, b.ty.freeVars = [])
    (hlen : as.length = bs.length) :
    List.Forall₂ (fun b a => HasType m S Γ a (m.view b.ty)) bs as := by
  obtain ⟨U, hU, hspine⟩ := h.spine
  obtain rfl : m.view (.pis bs R) = U := Option.some.inj (hc.symm.trans hU)
  have htelescope := Spine.telescope (σ := Nameless.ref) (by simpa using hspine) hlen
  exact htelescope.1.of_closed hclosed

/-- A closed type among the bindings of a telescope that is a type is one in every scope. -/
lemma hasType_of_pis {bs : List Binding} {R : Term} {ρ : Ref → Ref} {Γ Δ : Scope} {b : Binding}
    (h : HasType m S Γ ((m.view (.pis bs R)).rename ρ) sort) (hb : b ∈ bs)
    (hclosed : b.ty.freeVars = []) : HasType m S Δ (m.view b.ty) sort := by
  induction bs generalizing ρ Γ with
  | nil => cases hb
  | cons a bs ih =>
    change HasType m S Γ ((m.view (.pi a.name a.ty (.pis bs R))).rename ρ) sort at h
    rw [Discipline.view_pi, Nameless.rename] at h
    cases h with
    | pi hdom hcod =>
      rcases List.mem_cons.1 hb with rfl | hb
      · have hcl : (m.view b.ty).Closed := closed_view hclosed
        rw [rename_of_closed hcl ρ] at hdom
        exact hdom.of_conv_scope fun r _ hr => absurd hr (hcl r)
      · rw [rename_rename] at hcod
        exact ih hcod hb

end UniqueEvidence
