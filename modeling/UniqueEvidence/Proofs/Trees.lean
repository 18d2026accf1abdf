/-
Evidence as trees.

* `Term.isEvidenceType`: a family at first-order indices.  `Environment.FirstOrder`: declarations
  whose data constructors and families are about data, and whose family constructors take data and
  such evidence;
* `Environment.FirstOrder.plain`, `Environment.FirstOrder.predicative`: such declarations are plain
  and do not mention the universe, whether or not their indices are well typed;
* `EvidenceTree`, `Tree`: closed trees of constructors with their types.  The type of evidence has
  the indices that its constructor gives, evaluated at the arguments;
* `Tree.hasType`: **a tree has its type** in the declarative system too.
-/
import UniqueEvidence.Proofs.GroundModel
import UniqueEvidence.Proofs.Smallness

namespace UniqueEvidence

open Nameless

namespace Term

/-! ### Forms of types -/

variable {env : Environment} {arity? : Name → Option Nat} {vars : List Name} {n : Nat} {t : Term}

lemma isFlat_of_isFirstOrder (h : t.isFirstOrder arity? vars n) : t.IsFlat := by
  induction t generalizing n with
  | app f a ihf iha =>
    rw [isFirstOrder, Bool.and_eq_true] at h
    exact ⟨ihf h.1, iha h.2⟩
  | pair a b iha ihb =>
    cases n with
    | zero =>
      rw [isFirstOrder, Bool.and_eq_true] at h
      exact ⟨iha h.1, ihb h.2⟩
    | succ n => cases h
  | var | const | tt => trivial
  | _ => cases n <;> cases h

lemma freeVars_of_isFirstOrder (h : t.isFirstOrder arity? vars n) : t.freeVars ⊆ vars := by
  induction t generalizing n with
  | app f a ihf iha =>
    rw [isFirstOrder, Bool.and_eq_true] at h
    exact List.append_subset.2 ⟨ihf h.1, iha h.2⟩
  | pair a b iha ihb =>
    cases n with
    | zero =>
      rw [isFirstOrder, Bool.and_eq_true] at h
      exact List.append_subset.2 ⟨iha h.1, ihb h.2⟩
    | succ n => cases h
  | var x =>
    cases n with
    | zero => simpa [isFirstOrder, freeVars] using h
    | succ n => cases h
  | const | tt => exact List.nil_subset _
  | _ => cases n <;> cases h

/-- A family at first-order indices over the given variables. -/
def isEvidenceType (env : Environment) (vars : List Name) (t : Term) : Bool :=
  match t.head with
  | const f => (env.family? f).isSome && t.args.all (·.isFirstOrder env.dataArity? vars 0)
  | _ => false

/-- A type of data, or of evidence at indices over the given variables. -/
def isValueType (env : Environment) (vars : List Name) (t : Term) : Bool :=
  t.isDataType env || t.isEvidenceType env vars

lemma isFlat_apps {f : Term} {as : List Term} :
    (f.apps as).IsFlat ↔ f.IsFlat ∧ ∀ a ∈ as, a.IsFlat := by
  induction as generalizing f with
  | nil => simp
  | cons a as ih =>
    rw [apps_cons, ih, IsFlat]
    simp [and_assoc]

lemma of_isEvidenceType (h : t.isEvidenceType env vars) :
    ∃ f, t = (const f).apps t.args ∧ ∀ a ∈ t.args, a.isFirstOrder env.dataArity? vars 0 := by
  rw [isEvidenceType] at h
  split at h
  · rename_i f hhead
    rw [Bool.and_eq_true, List.all_eq_true] at h
    exact ⟨f, by rw [← hhead, apps_head_args], h.2⟩
  · cases h

lemma isFlat_of_isValueType (h : t.isValueType env vars) : t.IsFlat := by
  rcases Bool.or_eq_true_iff.1 h with hdata | hevidence
  · exact isFlat_of_isDataType hdata
  · obtain ⟨f, heq, hargs⟩ := of_isEvidenceType hevidence
    rw [heq, isFlat_apps]
    exact ⟨trivial, fun a ha => isFlat_of_isFirstOrder (hargs a ha)⟩

lemma freeVars_of_isValueType (h : t.isValueType env vars) : t.freeVars ⊆ vars := by
  rcases Bool.or_eq_true_iff.1 h with hdata | hevidence
  · rw [freeVars_of_isDataType hdata]
    exact List.nil_subset _
  · obtain ⟨f, heq, hargs⟩ := of_isEvidenceType hevidence
    intro x hx
    rw [heq] at hx
    rcases mem_freeVars_apps.1 hx with hx | ⟨a, ha, hx⟩
    · cases hx
    · exact freeVars_of_isFirstOrder (hargs a ha) hx

/-! ### Flat terms in the declarative system -/

/-- Flat terms are seen as they are. -/
lemma IsFlat.view (h : t.IsFlat) (m : Discipline) : m.view t = t.nameless := by
  cases m with
  | strict => rfl
  | erased => exact h.toNameless.erase

/-- The value of a flat term, as a substitution instance. -/
lemma view_eval (h : t.IsFlat) {m : Discipline} {σ : Name → Term} {γ : Ref → Nameless}
    (hγ : ∀ x ∈ t.freeVars, γ (.free x) = m.view (σ x)) :
    m.view (t.eval σ) = (m.view t).subst γ := by
  induction t with
  | var x => simpa [eval, Nameless.subst] using (hγ x List.mem_cons_self).symm
  | app a b iha ihb | prod a b iha ihb | pair a b iha ihb =>
    simp [eval, Nameless.subst, iha h.1 fun x hx => hγ x (List.mem_append_left _ hx),
      ihb h.2 fun x hx => hγ x (List.mem_append_right _ hx)]
  | const | unit | tt => simp [eval, Nameless.subst]
  | _ => exact h.elim

end Term

/-! ### First-order declarations -/

namespace Environment

/-- Each binder is of data, or of evidence at indices over the binders before it. -/
def isFirstOrderTelescope (env : Environment) (placed : List Name) : List Binding → Bool
  | [] => true
  | b :: rest => b.ty.isValueType env placed && env.isFirstOrderTelescope (b.name :: placed) rest

/-- Declarations about data and evidence: without constants, and with types that are first-order
throughout.  Binders have no name that is kept for renaming; how many indices a constructor gives is
left open. -/
structure FirstOrder (env : Environment) : Prop where
  no_constants : env.constants = []
  args : env.TakesData
  indexTypes : ∀ f ∈ env.families, ∀ ty ∈ f.indexTypes, ty.isDataType env
  binders : ∀ f ∈ env.families, ∀ ctor ∈ f.ctors, env.isFirstOrderTelescope [] ctor.binders
  indices : ∀ f ∈ env.families, ∀ ctor ∈ f.ctors, ∀ t ∈ ctor.indices,
    t.isFirstOrder env.dataArity? (Binding.names ctor.binders) 0
  names : ∀ f ∈ env.families, ∀ ctor ∈ f.ctors, ∀ b ∈ ctor.binders, ¬ b.name.StartsWithHash

variable {env : Environment} {placed : List Name} {bs : List Binding}

lemma isFlat_of_telescope (h : env.isFirstOrderTelescope placed bs) {b : Binding} (hb : b ∈ bs) :
    b.ty.IsFlat := by
  induction bs generalizing placed with
  | nil => cases hb
  | cons b' bs ih =>
    rw [isFirstOrderTelescope, Bool.and_eq_true] at h
    rcases List.mem_cons.1 hb with rfl | hb
    · exact Term.isFlat_of_isValueType h.1
    · exact ih h.2 hb

/-- A first-order telescope closes what is over its names. -/
lemma freeVars_pis_of_telescope (h : env.isFirstOrderTelescope placed bs) {R : Term}
    (hR : R.freeVars ⊆ Binding.names bs ++ placed) : (Term.pis bs R).freeVars ⊆ placed := by
  induction bs generalizing placed with
  | nil => exact hR
  | cons b bs ih =>
    rw [isFirstOrderTelescope, Bool.and_eq_true] at h
    have hrest := ih h.2 fun x hx => by
      have hx' := hR hx
      simp only [Binding.names, List.map_cons, List.cons_append, List.mem_cons,
        List.mem_append] at hx' ⊢
      tauto
    refine List.append_subset.2 ⟨Term.freeVars_of_isValueType h.1, fun x hx => ?_⟩
    obtain ⟨hx, hne⟩ := List.mem_filter.1 hx
    exact (List.mem_cons.1 (hrest hx)).resolve_left (by simpa using hne)

end Environment

namespace Environment

variable {env : Environment}

namespace FirstOrder

lemma predicative (h : env.FirstOrder) : env.Predicative where
  args d hd ctor hctor ty hty :=
    (Term.isFlat_of_isDataType (h.args d hd ctor hctor ty hty)).toNameless.sortFree
  binders f hf ctor hctor _ hb :=
    (isFlat_of_telescope (h.binders f hf ctor hctor) hb).toNameless.sortFree
  indices f hf ctor hctor t ht :=
    (Term.isFlat_of_isFirstOrder (h.indices f hf ctor hctor t ht)).toNameless.sortFree

lemma closed (h : env.FirstOrder) : env.Closed := by
  intro c U hU
  rcases constType?_cases hU with ⟨d, -, rfl⟩ | ⟨f, hf, rfl⟩ | ⟨d, ctor, hc, rfl⟩ |
    ⟨f, ctor, hc, rfl⟩ | ⟨k, hk, -⟩
  · rfl
  · exact Term.freeVars_arrows
      (fun ty hty => Term.freeVars_of_isDataType (h.indexTypes f (mem_of_family? hf).1 ty hty)) rfl
  · obtain ⟨hd, hctor, -⟩ := mem_of_dataCtor? hc
    exact Term.freeVars_arrows
      (fun ty hty => Term.freeVars_of_isDataType (h.args d hd ctor hctor ty hty)) rfl
  · obtain ⟨hf, hctor, -⟩ := mem_of_familyCtor? hc
    refine List.subset_nil.1 (freeVars_pis_of_telescope (h.binders f hf ctor hctor) fun x hx => ?_)
    rcases mem_freeVars_apps.1 hx with hx | ⟨t, ht, hx⟩
    · cases hx
    · exact List.mem_append_left _
        (Term.freeVars_of_isFirstOrder (h.indices f hf ctor hctor t ht) hx)
  · rw [h.no_constants] at hk
    cases hk

/-- **First-order declarations are plain.** -/
theorem plain (h : env.FirstOrder) : env.Plain where
  no_constants := h.no_constants
  closed := h.closed
  closed_args d hd ctor hctor ty hty := Term.freeVars_of_isDataType (h.args d hd ctor hctor ty hty)
  names := h.names

end FirstOrder

end Environment

/-! ### Trees of constructors -/

/-- A closed application of a family constructor, with the binders whose arguments are still to
come, the values of those that have come, and its type over the binders once all have come. -/
inductive EvidenceTree (env : Environment) : Term → List Binding → (Name → Term) → Term → Prop where
  | ctor {c : Name} {f : Family} {ctor : FamilyCtor} : env.familyCtor? c = some (f, ctor) →
      EvidenceTree env (.const c) ctor.binders .var (.apps (.const f.name) ctor.indices)
  | datum {t a : Term} {b : Binding} {bs : List Binding} {ρ : Name → Term} {R : Term} :
      EvidenceTree env t (b :: bs) ρ R →
      DataTerm env [] a [] b.ty → EvidenceTree env (.app t a) bs (Function.update ρ b.name a) R
  | evidence {t a : Term} {b : Binding} {bs : List Binding} {ρ ρ' : Name → Term} {R R' : Term} :
      EvidenceTree env t (b :: bs) ρ R → EvidenceTree env a [] ρ' R' → R'.eval ρ' = b.ty.eval ρ →
      EvidenceTree env (.app t a) bs (Function.update ρ b.name a) R

/-- A closed tree of constructors: a value of data, or evidence whose indices evaluate to those of
the type. -/
def Tree (env : Environment) (t T : Term) : Prop :=
  DataTerm env [] t [] T ∨ ∃ ρ R, EvidenceTree env t [] ρ R ∧ R.eval ρ = T

/-- Values of names, as a substitution. -/
def valuation (m : Discipline) (ρ : Name → Term) : Ref → Nameless
  | .free x => m.view (ρ x)
  | .bound n => ref (.bound n)

lemma valuation_var (m : Discipline) : valuation m .var = ref := by
  funext r
  cases r <;> simp [valuation]

lemma valuation_update (m : Discipline) (ρ : Name → Term) (x : Name) (a : Term) :
    valuation m (Function.update ρ x a) = assign (valuation m ρ) x (m.view a) := by
  funext r
  cases r with
  | free y => by_cases hy : y = x <;> simp [valuation, assign, hy]
  | bound n => rfl

/-- A function that is typed by a telescope, at its next argument. -/
lemma HasType.app_pis {m : Discipline} {S : Signature} {Γ : Scope} {f a : Nameless} {b : Binding}
    {bs : List Binding} {R : Term} {γ : Ref → Nameless}
    (hf : HasType m S Γ f ((m.view (.pis (b :: bs) R)).subst γ))
    (ha : HasType m S Γ a ((m.view b.ty).subst γ)) :
    HasType m S Γ (.app f a) ((m.view (.pis bs R)).subst (assign γ b.name a)) := by
  change HasType m S Γ f ((m.view (.pi b.name b.ty (.pis bs R))).subst γ) at hf
  rw [Discipline.view_pi] at hf
  refine .app hf ha ?_
  rw [inst_subst_captured]
  exact .rfl

section Typing

variable {env : Environment} (henv : env.FirstOrder) {m : Discipline} {t T : Term}
include henv

/-- A value of data is typed. -/
lemma DataTerm.hasType {As : List Term} {A : Term} (h : DataTerm env [] t As A) :
    HasType m (env.signature henv.closed m) Scope.empty (m.view t) (m.view (.arrows As A)) := by
  induction h with
  | var hx => cases hx
  | tt =>
    rw [Discipline.view_tt]
    exact .tt (by simpa [Term.arrows] using Conv.rfl)
  | pair _ _ iha ihb =>
    rw [Discipline.view_pair]
    exact .pair iha ihb (by simpa [Term.arrows] using Conv.rfl)
  | ctor hc =>
    rw [Discipline.view_const]
    exact .const (congrArg (Option.map _) (Environment.constType?_of_dataCtor? hc)) .rfl
  | @app f a A As B hf ha ihf iha =>
    obtain ⟨hAs, hB⟩ := (DataTerm.app hf ha).isDataType henv.args
    have hclosed : (Term.arrows As B).freeVars = [] :=
      Term.freeVars_arrows (fun A hA => Term.freeVars_of_isDataType (hAs A hA))
        (Term.freeVars_of_isDataType hB)
    change HasType m _ _ _ (m.view (.pi Term.anonymous A (.arrows As B))) at ihf
    rw [Discipline.view_pi] at ihf
    rw [Discipline.view_app]
    refine .app ihf iha ?_
    rw [← Discipline.view_contract, Term.subst_of_not_mem (by simp [hclosed])]
    exact .rfl

/-- The types in an application of a family constructor are flat. -/
lemma EvidenceTree.isFlat {bs : List Binding} {ρ : Name → Term} {R : Term}
    (h : EvidenceTree env t bs ρ R) : t.IsFlat ∧ (∀ b ∈ bs, b.ty.IsFlat) ∧ R.IsFlat := by
  induction h with
  | @ctor c f ctor hc =>
    obtain ⟨hf, hctor, -⟩ := Environment.mem_of_familyCtor? hc
    refine ⟨trivial,
      fun b hb => Environment.isFlat_of_telescope (henv.binders f hf ctor hctor) hb, ?_⟩
    exact Term.isFlat_apps.2
      ⟨trivial, fun t ht => Term.isFlat_of_isFirstOrder (henv.indices f hf ctor hctor t ht)⟩
  | datum _ ha ih =>
    exact ⟨⟨ih.1, ha.isFlat⟩, fun b hb => ih.2.1 b (List.mem_cons_of_mem _ hb), ih.2.2⟩
  | evidence _ _ _ ih iha =>
    exact ⟨⟨ih.1, iha.1⟩, fun b hb => ih.2.1 b (List.mem_cons_of_mem _ hb), ih.2.2⟩

/-- **A tree of evidence is typed by the binders that are left**, at the values of the others. -/
lemma EvidenceTree.hasType {bs : List Binding} {ρ : Name → Term} {R : Term}
    (h : EvidenceTree env t bs ρ R) :
    HasType m (env.signature henv.closed m) Scope.empty (m.view t)
      ((m.view (.pis bs R)).subst (valuation m ρ)) := by
  induction h with
  | ctor hc =>
    rw [valuation_var, subst_ref, Discipline.view_const]
    exact .const (congrArg (Option.map _) (Environment.constType?_of_familyCtor? hc)) .rfl
  | @datum t a b bs ρ R ht ha ih =>
    rw [Discipline.view_app, valuation_update]
    refine ih.app_pis ?_
    have hclosed : b.ty.freeVars = [] := Term.freeVars_of_isDataType (ha.isDataType henv.args).2
    rw [← Term.view_eval ((ht.isFlat henv).2.1 b List.mem_cons_self) (σ := ρ) fun _ _ => rfl,
      Term.eval_congr (τ := .var) (by simp [hclosed]), Term.eval_var_eq]
    exact ha.hasType henv
  | @evidence t a b bs ρ ρ' R R' ht ha hindices ih iha =>
    rw [Discipline.view_app, valuation_update]
    refine ih.app_pis ?_
    change HasType m _ _ _ ((m.view R').subst (valuation m ρ')) at iha
    rwa [← Term.view_eval (ha.isFlat henv).2.2 (σ := ρ') fun _ _ => rfl, hindices,
      Term.view_eval ((ht.isFlat henv).2.1 b List.mem_cons_self) (γ := valuation m ρ) fun _ _ =>
      rfl] at iha

lemma Tree.isFlat (h : Tree env t T) : t.IsFlat := by
  rcases h with hdata | ⟨ρ, R, hevidence, -⟩
  · exact hdata.isFlat
  · exact (hevidence.isFlat henv).1

/-- **A tree has its type.** -/
theorem Tree.hasType (h : Tree env t T) :
    HasType m (env.signature henv.closed m) Scope.empty (m.view t) (m.view T) := by
  rcases h with hdata | ⟨ρ, R, hevidence, rfl⟩
  · exact hdata.hasType henv
  · rw [Term.view_eval (hevidence.isFlat henv).2.2 (γ := valuation m ρ) fun _ _ => rfl]
    exact hevidence.hasType henv

end Typing

end UniqueEvidence
