/-
The types of first-order terms.

* `Nameless.IsFirstOrder`: first-order terms over given references; `Nameless.IsSimple`: constants
  at first-order arguments, the unit type and products.  `Nameless.IsSimplePi`: a simple type, after
  as many simple types as counted;
* `HasType.isSimplePi`: **a first-order term has a simple type**, up to conversion, if its
  references have one and its constructors take simple types to one;
* `HasType.of_isFlat`: a flat term is typed alike in both disciplines, if its constants and
  references are;
* `Environment.FirstOrder.isSimplePi`, `Environment.FirstOrder.signature_type?`: first-order
  declarations meet both conditions.
-/
import UniqueEvidence.Proofs.Trees

namespace UniqueEvidence

namespace Nameless

/-! ### First-order terms and simple types -/

/-- A first-order term over the given references and constructors, once it is given as many
arguments as counted. -/
def IsFirstOrder (arity? : Name → Option Nat) (R : Ref → Prop) : Nat → Nameless → Prop
  | n, app f a => f.IsFirstOrder arity? R (n + 1) ∧ a.IsFirstOrder arity? R 0
  | n, const c => arity? c = some n
  | 0, ref r => R r
  | 0, tt => True
  | 0, pair a b => a.IsFirstOrder arity? R 0 ∧ b.IsFirstOrder arity? R 0
  | _, _ => False

/-- A type built from constants at first-order arguments, the unit type and products. -/
def IsSimple (arity? : Name → Option Nat) (R : Ref → Prop) : Nameless → Prop
  | const _ | unit => True
  | app F a => F.IsSimple arity? R ∧ a.IsFirstOrder arity? R 0
  | prod A B => A.IsSimple arity? R ∧ B.IsSimple arity? R
  | _ => False

/-- A simple type that depends on as many arguments of simple types as counted. -/
def IsSimplePi (arity? : Name → Option Nat) : Nat → (Ref → Prop) → Nameless → Prop
  | 0, R, T => T.IsSimple arity? R
  | n + 1, R, pi A B => A.IsSimple arity? R ∧ B.IsSimplePi arity? n (Ref.extend True R)
  | _ + 1, _, _ => False

variable {arity? : Name → Option Nat} {R R' : Ref → Prop} {n : Nat} {σ : Ref → Nameless}
  {t T : Nameless}

lemma IsFirstOrder.isFlat (h : t.IsFirstOrder arity? R n) : t.IsFlat := by
  induction t generalizing n with
  | app f a ihf iha => exact ⟨ihf h.1, iha h.2⟩
  | pair a b iha ihb =>
    cases n with
    | zero => exact ⟨iha h.1, ihb h.2⟩
    | succ n => exact h.elim
  | ref | const | tt => trivial
  | _ => cases n <;> exact h.elim

lemma IsFirstOrder.of_occurs (h : t.IsFirstOrder arity? R n) {r : Ref} (hr : t.Occurs r) : R r := by
  induction t generalizing n with
  | app f a ihf iha => exact hr.elim (ihf h.1) (iha h.2)
  | pair a b iha ihb =>
    cases n with
    | zero => exact hr.elim (iha h.1) (ihb h.2)
    | succ n => exact h.elim
  | ref r' =>
    cases n with
    | zero => exact (show r' = r from hr) ▸ h
    | succ n => exact h.elim
  | const | tt => exact hr.elim
  | _ => cases n <;> exact h.elim

lemma IsSimple.isFlat (h : T.IsSimple arity? R) : T.IsFlat := by
  induction T with
  | app F a ihF _ => exact ⟨ihF h.1, h.2.isFlat⟩
  | prod A B ihA ihB => exact ⟨ihA h.1, ihB h.2⟩
  | const | unit => trivial
  | _ => exact h.elim

lemma IsSimple.of_occurs (h : T.IsSimple arity? R) {r : Ref} (hr : T.Occurs r) : R r := by
  induction T with
  | app F a ihF _ => exact hr.elim (ihF h.1) h.2.of_occurs
  | prod A B ihA ihB => exact hr.elim (ihA h.1) (ihB h.2)
  | const | unit => exact hr.elim
  | _ => exact h.elim

/-- The parts of an application that is a simple type. -/
lemma IsSimple.of_apps {F : Nameless} {as : List Nameless} (h : (F.apps as).IsSimple arity? R) :
    F.IsSimple arity? R ∧ ∀ a ∈ as, a.IsFirstOrder arity? R 0 := by
  induction as using List.reverseRecOn with
  | nil => exact ⟨h, nofun⟩
  | append_singleton as a ih =>
    rw [apps_concat] at h
    obtain ⟨hF, has⟩ := ih h.1
    exact ⟨hF, by simpa [or_imp, forall_and] using ⟨has, h.2⟩⟩

/-! ### Substitution -/

/-- First-order terms may be put for references. -/
lemma IsFirstOrder.subst (h : t.IsFirstOrder arity? R n)
    (hσ : ∀ r, R r → (σ r).IsFirstOrder arity? R' 0) : (t.subst σ).IsFirstOrder arity? R' n := by
  induction t generalizing n with
  | app f a ihf iha => exact ⟨ihf h.1, iha h.2⟩
  | pair a b iha ihb =>
    cases n with
    | zero => exact ⟨iha h.1, ihb h.2⟩
    | succ n => exact h.elim
  | ref r =>
    cases n with
    | zero => exact hσ r h
    | succ n => exact h.elim
  | tt =>
    cases n with
    | zero => trivial
    | succ n => exact h.elim
  | const => exact h
  | _ => cases n <;> exact h.elim

lemma IsSimple.subst (h : T.IsSimple arity? R) (hσ : ∀ r, R r → (σ r).IsFirstOrder arity? R' 0) :
    (T.subst σ).IsSimple arity? R' := by
  induction T with
  | app F a ihF _ => exact ⟨ihF h.1, h.2.subst hσ⟩
  | prod A B ihA ihB => exact ⟨ihA h.1, ihB h.2⟩
  | const | unit => trivial
  | _ => exact h.elim

/-- First-order terms may be put for references below a binder. -/
lemma isFirstOrder_up (hσ : ∀ r, R r → (σ r).IsFirstOrder arity? R' 0) (r : Ref)
    (hr : Ref.extend True R r) : (up σ r).IsFirstOrder arity? (Ref.extend True R') 0 := by
  rcases r.eq_top_or_succ with rfl | ⟨r, rfl⟩
  · trivial
  · rw [Ref.extend_succ] at hr
    rw [up_succ, shift, rename_eq_subst]
    refine (hσ r hr).subst fun r' hr' => ?_
    change Ref.extend True R' r'.succ
    rwa [Ref.extend_succ]

lemma IsSimplePi.subst (h : T.IsSimplePi arity? n R)
    (hσ : ∀ r, R r → (σ r).IsFirstOrder arity? R' 0) : (T.subst σ).IsSimplePi arity? n R' := by
  induction n generalizing T R R' σ with
  | zero => exact IsSimple.subst h hσ
  | succ n ih =>
    cases T with
    | pi A B => exact ⟨h.1.subst hσ, ih h.2 (isFirstOrder_up hσ)⟩
    | _ => exact h.elim

lemma IsSimplePi.rename (h : T.IsSimplePi arity? n R) {ρ : Ref → Ref} (hρ : ∀ r, R r → R' (ρ r)) :
    (T.rename ρ).IsSimplePi arity? n R' := by
  rw [rename_eq_subst]
  exact h.subst hρ

lemma IsSimplePi.mono (h : T.IsSimplePi arity? n R) (hR : ∀ r, R r → R' r) :
    T.IsSimplePi arity? n R' := by
  simpa [rename_id] using h.rename (ρ := id) hR

lemma IsSimplePi.inst {B a : Nameless} (h : B.IsSimplePi arity? n (Ref.extend True R))
    (ha : a.IsFirstOrder arity? R 0) : (B.inst a).IsSimplePi arity? n R := by
  refine h.subst fun r hr => ?_
  rcases r.eq_top_or_succ with rfl | ⟨r, rfl⟩
  · exact ha
  · rw [Ref.extend_succ] at hr ⊢
    exact hr

end Nameless

open Nameless

/-! ### Typing -/

namespace HasType

variable {m m' : Discipline} {S S' : Signature} {Γ Γ' : Scope} {t T : Nameless}

/-- **A first-order term has a simple type**, up to conversion, once it is given the arguments that
are still to come. -/
theorem isSimplePi {arity? : Name → Option Nat} {R : Ref → Prop} {n : Nat} (h : HasType m S Γ t T)
    (hS : ∀ {c n U}, arity? c = some n → S.type? c = some U → U.IsSimplePi arity? n R)
    (hΓ : ∀ {r A}, R r → Γ r = some A → A.IsSimple arity? R) (ht : t.IsFirstOrder arity? R n) :
    ∃ U, U.IsSimplePi arity? n R ∧ Conv U T := by
  induction t generalizing n T with
  | app f a ihf iha =>
    cases h with
    | app hf ha hc =>
      obtain ⟨U, hU, hconv⟩ := ihf hf ht.1
      cases U with
      | pi A B =>
        obtain ⟨-, hcod⟩ := hconv.pi_inj
        exact ⟨B.inst a, hU.2.inst ht.2, (hcod.inst .rfl).trans hc⟩
      | _ => exact hU.elim
  | const c =>
    cases h with
    | const hc hconv => exact ⟨_, hS ht hc, hconv⟩
  | ref r =>
    cases n with
    | zero =>
      cases h with
      | ref hr hconv => exact ⟨_, hΓ ht hr, hconv⟩
    | succ n => exact ht.elim
  | tt =>
    cases n with
    | zero =>
      cases h with
      | tt hconv => exact ⟨Nameless.unit, trivial, hconv⟩
    | succ n => exact ht.elim
  | pair a b iha ihb =>
    cases n with
    | zero =>
      cases h with
      | pair ha hb hconv =>
        obtain ⟨A, hA, hcA⟩ := iha ha ht.1
        obtain ⟨B, hB, hcB⟩ := ihb hb ht.2
        exact ⟨Nameless.prod A B, ⟨hA, hB⟩, (Conv.prod hcA hcB).trans hconv⟩
    | succ n => exact ht.elim
  | _ => cases n <;> exact ht.elim

/-- A flat term is typed alike in both disciplines, and in all scopes that agree on what it
mentions. -/
lemma of_isFlat (h : HasType m S Γ t T) (ht : t.IsFlat)
    (hS : ∀ {c U}, S.type? c = some U → S'.type? c = some U)
    (hΓ : ∀ {r A}, t.Occurs r → Γ r = some A → Γ' r = some A) : HasType m' S' Γ' t T := by
  induction t generalizing T with
  | ref r =>
    cases h with
    | ref hr hc => exact .ref (hΓ rfl hr) hc
  | const c =>
    cases h with
    | const hU hc => exact .const (hS hU) hc
  | unit =>
    cases h with
    | unit hc => exact .unit hc
  | tt =>
    cases h with
    | tt hc => exact .tt hc
  | app f a ihf iha =>
    cases h with
    | app hf ha hc =>
      exact .app (ihf hf ht.1 fun hr => hΓ (.inl hr)) (iha ha ht.2 fun hr => hΓ (.inr hr)) hc
  | prod a b iha ihb =>
    cases h with
    | prod ha hb hc =>
      exact .prod (iha ha ht.1 fun hr => hΓ (.inl hr)) (ihb hb ht.2 fun hr => hΓ (.inr hr)) hc
  | pair a b iha ihb =>
    cases h with
    | pair ha hb hc =>
      exact .pair (iha ha ht.1 fun hr => hΓ (.inl hr)) (ihb hb ht.2 fun hr => hΓ (.inr hr)) hc
  | _ => exact ht.elim

end HasType

/-! ### First-order declarations -/

/-- The reference is to one of the names. -/
def Ref.IsAmong (vars : List Name) (r : Ref) : Prop :=
  ∃ x ∈ vars, r = .free x

/-- The number of arguments of a constructor, of data or of evidence. -/
def Environment.ctorArity? (env : Environment) (c : Name) : Option Nat :=
  (env.dataArity? c).or ((env.familyCtor? c).map fun p => p.2.binders.length)

namespace Term

variable {env : Environment} {arity? : Name → Option Nat} {vars : List Name} {n : Nat} {t A : Term}

lemma isFirstOrder_nameless (h : t.isFirstOrder arity? vars n) :
    t.nameless.IsFirstOrder arity? (Ref.IsAmong vars) n := by
  induction t generalizing n with
  | app f a ihf iha =>
    rw [isFirstOrder, Bool.and_eq_true] at h
    exact ⟨ihf h.1, iha h.2⟩
  | const c =>
    rw [isFirstOrder, beq_iff_eq] at h
    exact h
  | var x =>
    cases n with
    | zero => exact ⟨x, by simpa [isFirstOrder] using h, rfl⟩
    | succ n => cases h
  | tt =>
    cases n with
    | zero => trivial
    | succ n => cases h
  | pair a b iha ihb =>
    cases n with
    | zero =>
      rw [isFirstOrder, Bool.and_eq_true] at h
      exact ⟨iha h.1, ihb h.2⟩
    | succ n => cases h
  | _ => cases n <;> cases h

/-- First-order terms of data are first-order terms. -/
lemma isFirstOrder_ctorArity? (h : t.isFirstOrder env.dataArity? vars n) :
    t.isFirstOrder env.ctorArity? vars n := by
  induction t generalizing n with
  | app f a ihf iha =>
    rw [isFirstOrder, Bool.and_eq_true] at h ⊢
    exact ⟨ihf h.1, iha h.2⟩
  | const c =>
    simp only [isFirstOrder, beq_iff_eq] at h ⊢
    rw [Environment.ctorArity?, h]
    rfl
  | pair a b iha ihb =>
    cases n with
    | zero =>
      rw [isFirstOrder, Bool.and_eq_true] at h ⊢
      exact ⟨iha h.1, ihb h.2⟩
    | succ n => cases h
  | _ => cases n <;> exact h

lemma isSimple_of_isDataType {R : Ref → Prop} (h : A.isDataType env) :
    A.nameless.IsSimple arity? R := by
  induction A with
  | prod a b iha ihb =>
    rw [isDataType, Bool.and_eq_true] at h
    exact ⟨iha h.1, ihb h.2⟩
  | const | unit => trivial
  | _ => cases h

lemma isSimple_apps {f : Name} {as : List Term}
    (h : ∀ a ∈ as, a.isFirstOrder env.dataArity? vars 0) :
    ((const f).apps as).nameless.IsSimple env.ctorArity? (Ref.IsAmong vars) := by
  induction as using List.reverseRecOn with
  | nil => trivial
  | append_singleton as a ih =>
    rw [apps_append]
    refine ⟨ih fun a' ha' => h a' (List.mem_append_left _ ha'), ?_⟩
    exact isFirstOrder_nameless (isFirstOrder_ctorArity? (h a (by simp)))

/-- **Types of values are simple.** -/
lemma isSimple_of_isValueType (h : A.isValueType env vars) :
    A.nameless.IsSimple env.ctorArity? (Ref.IsAmong vars) := by
  rcases Bool.or_eq_true_iff.1 h with hdata | hevidence
  · exact isSimple_of_isDataType hdata
  · obtain ⟨f, heq, hargs⟩ := of_isEvidenceType hevidence
    rw [heq]
    exact isSimple_apps hargs

end Term

namespace Environment

variable {env : Environment} {placed : List Name} {bs : List Binding}

/-- A first-order telescope takes simple types to one. -/
lemma isSimplePi_of_telescope (h : env.isFirstOrderTelescope placed bs) {T : Term}
    (hT : T.nameless.IsSimple env.ctorArity? (Ref.IsAmong (Binding.names bs ++ placed))) :
    (Term.pis bs T).nameless.IsSimplePi env.ctorArity? bs.length (Ref.IsAmong placed) := by
  induction bs generalizing placed with
  | nil => exact hT
  | cons b bs ih =>
    rw [isFirstOrderTelescope, Bool.and_eq_true] at h
    refine ⟨Term.isSimple_of_isValueType h.1, (ih h.2 ?_).rename ?_⟩
    · refine IsSimplePi.mono (n := 0) hT ?_
      rintro r ⟨x, hx, rfl⟩
      refine ⟨x, ?_, rfl⟩
      simp only [Binding.names, List.map_cons, List.cons_append, List.mem_cons,
        List.mem_append] at hx ⊢
      tauto
    · -- the binder takes over its own name, and the others are seen from below it
      rintro r ⟨x, hx, rfl⟩
      by_cases hxb : x = b.name
      · subst hxb
        rw [Ref.capture_self]
        trivial
      · rw [Ref.capture_of_ne (by simpa using hxb), Ref.extend_succ]
        exact ⟨x, (List.mem_cons.1 hx).resolve_left hxb, rfl⟩

lemma telescope_of_isDataType {tys : List Term} (h : ∀ ty ∈ tys, ty.isDataType env) :
    env.isFirstOrderTelescope placed (tys.map (⟨Term.anonymous, ·⟩)) := by
  induction tys generalizing placed with
  | nil => rfl
  | cons ty tys ih =>
    rw [List.map_cons, isFirstOrderTelescope, Term.isValueType, h ty List.mem_cons_self,
      Bool.true_or, Bool.true_and]
    exact ih fun ty' hty' => h ty' (List.mem_cons_of_mem _ hty')

/-- The type of a telescope of flat types is seen as it is. -/
lemma view_pis {T : Term} (hbs : ∀ b ∈ bs, b.ty.IsFlat) (m : Discipline)
    (hT : m.view T = T.nameless) : m.view (.pis bs T) = (Term.pis bs T).nameless := by
  induction bs with
  | nil => exact hT
  | cons b bs ih =>
    change m.view (.pi b.name b.ty (.pis bs T)) = (Term.pi b.name b.ty (.pis bs T)).nameless
    rw [Discipline.view_pi, ih fun b' hb' => hbs b' (List.mem_cons_of_mem _ hb'),
      (hbs b List.mem_cons_self).view m]
    rfl

namespace FirstOrder

/-- **A constructor takes simple types to one.** -/
theorem isSimplePi (h : env.FirstOrder) {c : Name} {n : Nat} {U : Term} {R : Ref → Prop}
    (hc : env.ctorArity? c = some n) (hU : env.constType? c = some U) :
    U.nameless.IsSimplePi env.ctorArity? n R := by
  suffices hclosed : U.nameless.IsSimplePi env.ctorArity? n (Ref.IsAmong []) from
    hclosed.mono fun r ⟨x, hx, _⟩ => by cases hx
  rcases Option.or_eq_some_iff.1 hc with hdata | ⟨-, hfamily⟩
  · obtain ⟨⟨d, ctor⟩, hctor, rfl⟩ := Option.map_eq_some_iff.1 hdata
    obtain ⟨hd, hmem, -⟩ := mem_of_dataCtor? hctor
    rw [constType?_of_dataCtor? hctor, arrows_eq_pis] at hU
    obtain rfl := Option.some.inj hU
    simpa [DataCtor.arity] using
      isSimplePi_of_telescope (T := .const d.name)
        (telescope_of_isDataType (h.args d hd ctor hmem)) trivial
  · obtain ⟨⟨f, ctor⟩, hctor, rfl⟩ := Option.map_eq_some_iff.1 hfamily
    obtain ⟨hf, hmem, -⟩ := mem_of_familyCtor? hctor
    rw [constType?_of_familyCtor? hctor] at hU
    obtain rfl := Option.some.inj hU
    refine isSimplePi_of_telescope (h.binders f hf ctor hmem) (Term.isSimple_apps ?_)
    simpa using h.indices f hf ctor hmem

/-- **The declared types are the same in both disciplines.** -/
theorem signature_type? (h : env.FirstOrder) (m m' : Discipline) (c : Name) :
    (env.signature h.closed m).type? c = (env.signature h.closed m').type? c := by
  suffices hview : ∀ m : Discipline, ∀ U, env.constType? c = some U → m.view U = U.nameless by
    refine Option.map_congr fun U hU => ?_
    rw [hview m U hU, hview m' U hU]
  intro m U hU
  rcases constType?_cases hU with ⟨d, -, rfl⟩ | ⟨f, hf, rfl⟩ | ⟨d, ctor, hc, rfl⟩ |
    ⟨f, ctor, hc, rfl⟩ | ⟨k, hk, -⟩
  · rw [Discipline.view_sort]
    rfl
  · rw [arrows_eq_pis]
    refine view_pis (fun b hb => ?_) m (Discipline.view_sort ..)
    obtain ⟨ty, hty, rfl⟩ := List.mem_map.1 hb
    exact Term.isFlat_of_isDataType (h.indexTypes f (mem_of_family? hf).1 ty hty)
  · obtain ⟨hd, hctor, -⟩ := mem_of_dataCtor? hc
    rw [arrows_eq_pis]
    refine view_pis (fun b hb => ?_) m (Discipline.view_const ..)
    obtain ⟨ty, hty, rfl⟩ := List.mem_map.1 hb
    exact Term.isFlat_of_isDataType (h.args d hd ctor hctor ty hty)
  · obtain ⟨hf, hctor, -⟩ := mem_of_familyCtor? hc
    refine view_pis (fun b hb => isFlat_of_telescope (h.binders f hf ctor hctor) hb) m
      (Term.IsFlat.view ?_ m)
    exact Term.isFlat_apps.2
      ⟨trivial, fun t ht => Term.isFlat_of_isFirstOrder (h.indices f hf ctor hctor t ht)⟩
  · rw [h.no_constants] at hk
    cases hk

end FirstOrder

end Environment

end UniqueEvidence
