/-
First-order terms: variables, constructors with all their arguments, `tt` and pairs.

* `Term.isDataType`, `Term.isFirstOrder`: types of data, and first-order terms over given variables
  and constructors;
* `Term.IsFlat`, `Nameless.IsFlat`: terms without the universe, binders, equations and transports.
  They are normal forms that the translation tells apart, so **conversion of flat terms is
  equality** (`Term.IsFlat.eq_of_conv`);
* `Term.eval`: the value of a flat term under an assignment, with substitution as a special case
  (`Term.eval_subst`);
* `DataTerm`: first-order terms of data with their types, and those of the arguments that are still
  to come.  They are kept by evaluation (`DataTerm.eval`), and an application of a constructor has
  arguments of the declared types (`DataTerm.of_head`);
* `Kernel.dataTerm_of_infer`, `Kernel.dataEquation_of_infer`: **inference types first-order terms in
  this way**.
-/
import UniqueEvidence.Proofs.Declarations
import UniqueEvidence.Proofs.Inference
import UniqueEvidence.Proofs.Substitution

namespace UniqueEvidence

namespace Nameless

/-! ### Flat nameless terms -/

/-- A term without the universe, binders, equations and transports. -/
def IsFlat : Nameless → Prop
  | ref _ | const _ | unit | tt => True
  | app a b | prod a b | pair a b => a.IsFlat ∧ b.IsFlat
  | _ => False

variable {t : Nameless}

lemma IsFlat.isNormal (h : t.IsFlat) : t.IsNormal := by
  induction t with
  | app f a ihf iha =>
    refine ⟨fun A b hf => ?_, ihf h.1, iha h.2⟩
    subst hf
    exact h.1
  | prod a b iha ihb | pair a b iha ihb => exact ⟨iha h.1, ihb h.2⟩
  | ref | const | unit | tt => trivial
  | _ => exact h.elim

lemma IsFlat.sortFree (h : t.IsFlat) : t.SortFree := by
  induction t with
  | app a b iha ihb | prod a b iha ihb | pair a b iha ihb => exact ⟨iha h.1, ihb h.2⟩
  | ref | const | unit | tt => trivial
  | _ => exact h.elim

/-- Erasure leaves flat terms as they are. -/
lemma IsFlat.erase (h : t.IsFlat) : t.erase = t := by
  induction t with
  | app a b iha ihb | prod a b iha ihb | pair a b iha ihb => rw [Nameless.erase, iha h.1, ihb h.2]
  | ref | const | unit | tt => rfl
  | _ => exact h.elim

end Nameless

namespace Term

/-! ### Forms of types and terms -/

/-- A type built from data types, the unit type and products. -/
def isDataType (env : Environment) : Term → Bool
  | const d => (env.datatype? d).isSome
  | unit => true
  | prod a b => a.isDataType env && b.isDataType env
  | _ => false

/-- A first-order term over the given variables and constructors, once it is given as many arguments
as counted. -/
def isFirstOrder (arity? : Name → Option Nat) (vars : List Name) : Nat → Term → Bool
  | n, app f a => f.isFirstOrder arity? vars (n + 1) && a.isFirstOrder arity? vars 0
  | n, const c => arity? c == some n
  | 0, var x => x ∈ vars
  | 0, tt => true
  | 0, pair a b => a.isFirstOrder arity? vars 0 && b.isFirstOrder arity? vars 0
  | _, _ => false

/-- A term without the universe, binders, equations and transports. -/
def IsFlat : Term → Prop
  | var _ | const _ | unit | tt => True
  | app a b | prod a b | pair a b => a.IsFlat ∧ b.IsFlat
  | _ => False

namespace IsFlat

variable {t u : Term}

lemma toNameless (h : t.IsFlat) : t.nameless.IsFlat := by
  induction t with
  | app a b iha ihb | prod a b iha ihb | pair a b iha ihb => exact ⟨iha h.1, ihb h.2⟩
  | var | const | unit | tt => trivial
  | _ => exact h.elim

/-- The translation tells flat terms apart from all others. -/
lemma eq_of_nameless (h : t.IsFlat) (heq : u.nameless = t.nameless) : u = t := by
  induction t generalizing u with
  | app f a ihf iha | prod f a ihf iha | pair f a ihf iha =>
    cases u <;> simp only [nameless, reduceCtorEq] at heq
    injection heq with hf ha
    rw [ihf h.1 hf, iha h.2 ha]
  | var | const | unit | tt => cases u <;> simp_all [nameless]
  | _ => exact h.elim

/-- A normal form that is convertible with a flat term is that term. -/
lemma eq_of_conv_normal (h : t.IsFlat) (hc : u.nameless.Conv t.nameless)
    (hu : u.nameless.IsNormal) : u = t :=
  h.eq_of_nameless (hc.eq_of_normal hu h.toNameless.isNormal)

/-- **Convertible flat terms are equal.** -/
lemma eq_of_conv (h : t.IsFlat) (hu : u.IsFlat) (hc : u.nameless.Conv t.nameless) : u = t :=
  h.eq_of_conv_normal hc hu.toNameless.isNormal

lemma eq_of_normalize {k : Kernel} (h : t.IsFlat) (hn : k.normalize t = .ok u) : u = t :=
  h.eq_of_conv_normal (Nameless.Conv.of_reduces (Kernel.normalize_spec hn).1).symm
    (Kernel.normalize_spec hn).2

/-- The normal form of an equation between flat terms has the same sides, and the normal form of its
type. -/
lemma of_normalize_eq {k : Kernel} {ty l r : Term} {e : Equation} (hl : l.IsFlat) (hr : r.IsFlat)
    (h : k.normalize (.eq ty l r) = .ok e.toTerm) :
    e.lhs = l ∧ e.rhs = r ∧ e.ty.nameless.Conv ty.nameless ∧ e.ty.nameless.IsNormal := by
  obtain ⟨hreduces, hnty, hnl, hnr⟩ := Kernel.normalize_spec h
  obtain ⟨hcty, hcl, hcr⟩ := (Nameless.Conv.of_reduces hreduces).eq_inj
  exact ⟨hl.eq_of_conv_normal hcl.symm hnl, hr.eq_of_conv_normal hcr.symm hnr, hcty.symm, hnty⟩

end IsFlat

lemma isFlat_of_isDataType {env : Environment} {A : Term} (h : A.isDataType env) : A.IsFlat := by
  induction A with
  | prod a b iha ihb =>
    rw [isDataType, Bool.and_eq_true] at h
    exact ⟨iha h.1, ihb h.2⟩
  | _ => trivial

lemma freeVars_of_isDataType {env : Environment} {A : Term} (h : A.isDataType env) :
    A.freeVars = [] := by
  induction A with
  | prod a b iha ihb =>
    rw [isDataType, Bool.and_eq_true] at h
    rw [freeVars, iha h.1, ihb h.2, List.append_nil]
  | _ => first | rfl | cases h

/-! ### Values under an assignment -/

/-- The value of a flat term under an assignment to its variables. -/
def eval (σ : Name → Term) : Term → Term
  | var x => σ x
  | app f a => app (f.eval σ) (a.eval σ)
  | prod a b => prod (a.eval σ) (b.eval σ)
  | pair a b => pair (a.eval σ) (b.eval σ)
  | t => t

variable {t : Term} {σ τ : Name → Term}

@[simp] lemma eval_apps (f : Term) (as : List Term) :
    (f.apps as).eval σ = (f.eval σ).apps (as.map (eval σ)) := by
  induction as generalizing f with
  | nil => rfl
  | cons a as ih => exact ih (.app f a)

lemma eval_of_head {c : Name} (h : t.head = .const c) :
    t.eval σ = (const c).apps (t.args.map (eval σ)) := by
  conv_lhs => rw [← apps_head_args t, h, eval_apps]
  rfl

lemma eval_congr (h : ∀ x ∈ t.freeVars, σ x = τ x) : t.eval σ = t.eval τ := by
  induction t with
  | var x => exact h x List.mem_cons_self
  | app a b iha ihb | prod a b iha ihb | pair a b iha ihb =>
    rw [eval, eval, iha fun x hx => h x (List.mem_append_left _ hx),
      ihb fun x hx => h x (List.mem_append_right _ hx)]
  | _ => rfl

/-- Substitution is evaluation with all other variables kept. -/
lemma subst_eq_eval (h : t.IsFlat) (y : Name) (v : Term) :
    t.subst y v = t.eval (Function.update var y v) := by
  induction t with
  | var x => simp [eval, Function.update_apply]
  | app a b iha ihb | prod a b iha ihb | pair a b iha ihb => simp [eval, iha h.1, ihb h.2]
  | _ => first | exact h.elim | simp [eval]

/-- **The value of a substituted term** is that of the term, with the variable assigned the value
put for it. -/
lemma eval_subst (h : t.IsFlat) (y : Name) (v : Term) :
    (t.subst y v).eval σ = t.eval (Function.update σ y (v.eval σ)) := by
  induction t with
  | var x => by_cases hx : x = y <;> simp [eval, hx]
  | app a b iha ihb | prod a b iha ihb | pair a b iha ihb => simp [eval, iha h.1, ihb h.2]
  | _ => first | exact h.elim | simp [eval]

lemma isFlat_eval (h : t.IsFlat) (hσ : ∀ x ∈ t.freeVars, (σ x).IsFlat) : (t.eval σ).IsFlat := by
  induction t with
  | var x => exact hσ x List.mem_cons_self
  | app a b iha ihb | prod a b iha ihb | pair a b iha ihb =>
    exact ⟨iha h.1 fun x hx => hσ x (List.mem_append_left _ hx),
      ihb h.2 fun x hx => hσ x (List.mem_append_right _ hx)⟩
  | const | unit | tt => trivial
  | _ => exact h.elim

lemma eval_var_eq (t : Term) : t.eval var = t := by
  induction t <;> simp_all [eval]

lemma head_apps (f : Term) (as : List Term) : (f.apps as).head = f.head := by
  induction as generalizing f with
  | nil => rfl
  | cons a as ih => simp [ih, head]

lemma args_apps (f : Term) (as : List Term) : (f.apps as).args = f.args ++ as := by
  induction as generalizing f with
  | nil => simp
  | cons a as ih => simp [ih, args]

/-- Constructors are free: an application tells the constructor and its arguments. -/
lemma apps_const_inj {c d : Name} {as bs : List Term} (h : (const c).apps as = (const d).apps bs) :
    c = d ∧ as = bs := by
  refine ⟨by simpa [head_apps, head] using congrArg head h, ?_⟩
  simpa [args_apps, args] using congrArg args h

end Term

/-! ### First-order terms of data -/

/-- The number of arguments of a data constructor. -/
def Environment.dataArity? (env : Environment) (c : Name) : Option Nat :=
  (env.dataCtor? c).map fun p => p.2.arity

/-- The data constructors take only data. -/
def Environment.TakesData (env : Environment) : Prop :=
  ∀ d ∈ env.datatypes, ∀ ctor ∈ d.ctors, ∀ ty ∈ ctor.argTypes, ty.isDataType env

instance (env : Environment) : Decidable env.TakesData :=
  inferInstanceAs
    (Decidable (∀ d ∈ env.datatypes, ∀ ctor ∈ d.ctors, ∀ ty ∈ ctor.argTypes, ty.isDataType env))

/-- A first-order term of data over the given variables, with the types of the arguments that are
still to come, and its type once they have come. -/
inductive DataTerm (env : Environment) (Γ : List Binding) : Term → List Term → Term → Prop where
  | var {x : Name} {A : Term} : ⟨x, A⟩ ∈ Γ → A.isDataType env → DataTerm env Γ (.var x) [] A
  | tt : DataTerm env Γ .tt [] .unit
  | pair {a b A B : Term} : DataTerm env Γ a [] A → DataTerm env Γ b [] B →
    DataTerm env Γ (.pair a b) [] (.prod A B)
  | ctor {c : Name} {d : DataType} {ctor : DataCtor} : env.dataCtor? c = some (d, ctor) →
      DataTerm env Γ (.const c) ctor.argTypes (.const d.name)
  | app {f a A : Term} {As : List Term} {B : Term} : DataTerm env Γ f (A :: As) B →
      DataTerm env Γ a [] A → DataTerm env Γ (.app f a) As B

namespace DataTerm

variable {env : Environment} {Γ Γ' : List Binding} {t : Term} {As : List Term} {A : Term}

lemma isFlat (h : DataTerm env Γ t As A) : t.IsFlat := by
  induction h with
  | var | tt | ctor => trivial
  | pair _ _ iha ihb | app _ _ iha ihb => exact ⟨iha, ihb⟩

lemma isDataType (henv : env.TakesData) (h : DataTerm env Γ t As A) :
    (∀ B ∈ As, B.isDataType env) ∧ A.isDataType env := by
  induction h with
  | var _ hA => exact ⟨by simp, hA⟩
  | tt => exact ⟨by simp, rfl⟩
  | pair _ _ iha ihb => exact ⟨by simp, by simp [Term.isDataType, iha.2, ihb.2]⟩
  | @ctor c d ctor hc =>
    obtain ⟨hd, hctor, -⟩ := Environment.mem_of_dataCtor? hc
    refine ⟨henv d hd ctor hctor, List.find?_isSome.2 ⟨d, hd, by simp⟩⟩
  | app _ _ ihf _ => exact ⟨fun B hB => ihf.1 B (List.mem_cons_of_mem _ hB), ihf.2⟩

/-- **Evaluation keeps the type**, if the variables that occur are assigned terms of their types. -/
lemma eval {σ : Name → Term} (h : DataTerm env Γ t As A)
    (hσ : ∀ b ∈ Γ, b.name ∈ t.freeVars → b.ty.isDataType env → DataTerm env Γ' (σ b.name) [] b.ty) :
    DataTerm env Γ' (t.eval σ) As A := by
  induction h with
  | var hx hA => exact hσ _ hx List.mem_cons_self hA
  | tt => exact .tt
  | ctor hc => exact .ctor hc
  | pair _ _ iha ihb =>
    exact .pair (iha fun b hb hx => hσ b hb (List.mem_append_left _ hx))
      (ihb fun b hb hx => hσ b hb (List.mem_append_right _ hx))
  | app _ _ ihf iha =>
    exact .app (ihf fun b hb hx => hσ b hb (List.mem_append_left _ hx))
      (iha fun b hb hx => hσ b hb (List.mem_append_right _ hx))

/-- A term is over any variables that include those that occur. -/
lemma mono (h : DataTerm env Γ t As A)
    (hsub : ∀ b ∈ Γ, b.name ∈ t.freeVars → b.ty.isDataType env → b ∈ Γ') :
    DataTerm env Γ' t As A := by
  have heval : DataTerm env Γ' (t.eval .var) As A :=
    h.eval fun b hb hx hA => .var (hsub b hb hx hA) hA
  rwa [Term.eval_var_eq] at heval

/-- **A value of the unit type** is `tt`. -/
lemma eq_tt (h : DataTerm env [] t As A) (hA : A = .unit) : t = .tt := by
  induction h with
  | var hx => cases hx
  | tt => rfl
  | pair | ctor => cases hA
  | app hf _ ihf _ =>
    obtain rfl := ihf hA
    cases hf

/-- **An application of a constructor** has the type that it is declared with, and arguments of the
declared types. -/
lemma of_head {c : Name} (h : DataTerm env Γ t As A) (hhead : t.head = .const c) :
    ∃ d ctor taken, env.dataCtor? c = some (d, ctor) ∧
      ctor.argTypes = taken ++ As ∧ A = .const d.name ∧
      List.Forall₂ (fun B a => DataTerm env Γ a [] B) taken t.args := by
  induction h with
  | var | tt | pair => cases hhead
  | ctor hc =>
    obtain rfl : _ = c := by simpa [Term.head] using hhead
    exact ⟨_, _, [], hc, rfl, rfl, .nil⟩
  | @app f a B Bs _ _ ha ihf _ =>
    obtain ⟨d, ctor, taken, hc, htypes, rfl, hargs⟩ := ihf hhead
    refine ⟨d, ctor, taken ++ [B], hc, by simpa using htypes, rfl, ?_⟩
    exact List.rel_append hargs (.cons ha .nil)

end DataTerm

/-- An equation between first-order terms of data, at a type that computes to theirs. -/
inductive DataEquation (env : Environment) (Γ : List Binding) : Term → Prop where
  | intro {ty l r A : Term} : A.isDataType env → ty.nameless.Conv A.nameless →
      DataTerm env Γ l [] A → DataTerm env Γ r [] A → DataEquation env Γ (.eq ty l r)

/-! ### Inference -/

namespace Term

lemma freeVars_arrows {As : List Term} {B : Term} (hAs : ∀ A ∈ As, A.freeVars = [])
    (hB : B.freeVars = []) : (arrows As B).freeVars = [] := by
  induction As with
  | nil => exact hB
  | cons A As ih =>
    change A.freeVars ++ (arrows As B).freeVars.filter (· ≠ anonymous) = []
    rw [hAs A List.mem_cons_self, ih fun A' hA' => hAs A' (List.mem_cons_of_mem _ hA')]
    rfl

/-- The type of a function between flat types is its own normal form. -/
lemma eq_of_normalize_arrows {depth : Nat} {As : List Term} {B u : Term} (hAs : ∀ A ∈ As, A.IsFlat)
    (hB : B.IsFlat) (h : (arrows As B).normalize depth = some u) : u = arrows As B := by
  have hflat : ∀ {t u : Term} {depth : Nat}, t.IsFlat →
      t.normalize depth = some u → u = t := fun ht hn =>
    ht.eq_of_conv_normal (Nameless.Conv.of_reduces (normalize_spec hn).1).symm (normalize_spec hn).2
  induction As generalizing depth u with
  | nil => exact hflat hB h
  | cons A As ih =>
    change (pi anonymous A (arrows As B)).normalize depth = some u at h
    cases depth with
    | zero => cases h
    | succ depth =>
      simp only [normalize, Option.bind_eq_bind, Option.bind_eq_some_iff, Option.pure_def,
        Option.some.injEq] at h
      obtain ⟨A', hA', body, hbody, rfl⟩ := h
      rw [hflat (hAs A List.mem_cons_self) hA',
        ih (fun A' hA' => hAs A' (List.mem_cons_of_mem _ hA')) hbody]
      rfl

end Term

namespace Kernel

variable {k : Kernel} {Γ : List Binding} {vars : List Name} {ctx : Context} {depth : Nat}

/-- What is checked has a convertible type. -/
lemma conv_of_checkBy {infer : Inference} {t ty : Term} (h : k.checkBy infer ctx t ty = .ok ()) :
    ∃ T, infer ctx t = .ok T ∧ T.nameless.Conv ty.nameless := by
  obtain ⟨T, hT, hconv⟩ := checkBy_eq_ok.1 h
  exact ⟨T, hT, (convertible_iff hconv).1 rfl⟩

section

variable (henv : k.env.TakesData)
  (hctx : ∀ x ty, x ∈ vars → ctx.lookup? x = some ty → ⟨x, ty⟩ ∈ Γ ∧ ty.isDataType k.env)
include henv hctx

/-- **A first-order term of data has the type that inference finds**, if its variables are of
data. -/
lemma dataTerm_of_infer {t T : Term} {n : Nat} (ht : t.isFirstOrder k.env.dataArity? vars n)
    (h : k.inferAt depth ctx t = .ok T) :
    ∃ As A, As.length = n ∧ DataTerm k.env Γ t As A ∧ T = .arrows As A := by
  induction depth generalizing t T n with
  | zero => cases h
  | succ depth ih =>
    obtain ⟨ty, hty, hn⟩ := Except.bind_eq_ok.1 h
    -- the types found are flat, or lead from flat types to one, so normalisation leaves them as
    -- they are
    have hnormal : ∀ {As A}, DataTerm k.env Γ t As A → ty = .arrows As A → T = .arrows As A := by
      rintro As A hterm rfl
      obtain ⟨hAs, hA⟩ := hterm.isDataType henv
      exact Term.eq_of_normalize_arrows (fun B hB => Term.isFlat_of_isDataType (hAs B hB))
        (Term.isFlat_of_isDataType hA) (withinDepth_eq_ok.1 hn)
    cases t with
    | var x =>
      cases n with
      | succ n => cases ht
      | zero =>
        rw [typeOf] at hty
        split at hty
        · rename_i A hlookup
          obtain rfl : A = ty := by simpa [pure, Except.pure] using hty
          obtain ⟨hmem, hA⟩ := hctx x A (by simpa [Term.isFirstOrder] using ht) hlookup
          exact ⟨[], A, rfl, .var hmem hA, hnormal (.var hmem hA) rfl⟩
        · cases hty
    | const c =>
      simp only [Term.isFirstOrder, Environment.dataArity?, beq_iff_eq,
        Option.map_eq_some_iff] at ht
      obtain ⟨⟨d, ctor⟩, hc, rfl⟩ := ht
      rw [typeOf, Environment.constType?_of_dataCtor? hc] at hty
      exact ⟨ctor.argTypes, .const d.name, rfl, .ctor hc,
        hnormal (.ctor hc) (Except.ok.inj hty).symm⟩
    | tt =>
      cases n with
      | succ n => cases ht
      | zero => exact ⟨[], .unit, rfl, .tt, hnormal .tt (Except.ok.inj hty).symm⟩
    | pair a b =>
      cases n with
      | succ n => cases ht
      | zero =>
        simp only [typeOf, Except.bind_eq_ok] at hty
        obtain ⟨Ta, hTa, Tb, hTb, hty⟩ := hty
        simp only [Term.isFirstOrder, Bool.and_eq_true] at ht
        obtain ⟨As, A, hlen, ha, rfl⟩ := ih ht.1 hTa
        obtain rfl := List.length_eq_zero_iff.1 hlen
        obtain ⟨Bs, B, hlen, hb, rfl⟩ := ih ht.2 hTb
        obtain rfl := List.length_eq_zero_iff.1 hlen
        exact ⟨[], .prod A B, rfl, .pair ha hb, hnormal (.pair ha hb) (Except.ok.inj hty).symm⟩
    | app f a =>
      rw [typeOf, Except.bind_eq_ok] at hty
      obtain ⟨Tf, hTf, hty⟩ := hty
      simp only [Term.isFirstOrder, Bool.and_eq_true] at ht
      obtain ⟨_ | ⟨A, As⟩, B, hlen, hf, rfl⟩ := ih ht.1 hTf
      · cases hlen
      · change (k.checkBy (k.inferAt depth) ctx a A >>= fun _ =>
          pure ((Term.arrows As B).subst _ a)) = .ok ty at hty
        obtain ⟨_, hcheck, hresult⟩ := Except.bind_eq_ok.1 hty
        obtain ⟨Ta, hTa, hconv⟩ := conv_of_checkBy hcheck
        obtain ⟨_, A', hlen', ha, rfl⟩ := ih ht.2 hTa
        obtain rfl := List.length_eq_zero_iff.1 hlen'
        have htypes := hf.isDataType henv
        obtain rfl :
          A' = A := (Term.isFlat_of_isDataType (htypes.1 A List.mem_cons_self)).eq_of_conv
          (Term.isFlat_of_isDataType (ha.isDataType henv).2) hconv
        have happ := DataTerm.app hf ha
        obtain ⟨hAs, hB⟩ := happ.isDataType henv
        have hclosed : (Term.arrows As B).freeVars = [] :=
          Term.freeVars_arrows (fun A hA => Term.freeVars_of_isDataType (hAs A hA))
            (Term.freeVars_of_isDataType hB)
        rw [Term.subst_of_not_mem (by simp [hclosed])] at hresult
        exact ⟨As, B, by simpa using hlen, happ, hnormal happ (Except.ok.inj hresult).symm⟩
    | _ => cases ht

/-- **An equation that inference accepts** between first-order terms of data is one at their
type. -/
lemma dataEquation_of_infer {ty l r T : Term} (hl : l.isFirstOrder k.env.dataArity? vars 0)
    (hr : r.isFirstOrder k.env.dataArity? vars 0) (h : k.inferAt depth ctx (.eq ty l r) = .ok T) :
    DataEquation k.env Γ (.eq ty l r) := by
  cases depth with
  | zero => cases h
  | succ depth =>
    obtain ⟨_, hty, -⟩ := Except.bind_eq_ok.1 h
    simp only [typeOf, Except.bind_eq_ok] at hty
    obtain ⟨⟨⟩, -, ⟨⟩, hcheckl, ⟨⟩, hcheckr, -⟩ := hty
    obtain ⟨Tl, hTl, hconvl⟩ := conv_of_checkBy hcheckl
    obtain ⟨Tr, hTr, hconvr⟩ := conv_of_checkBy hcheckr
    obtain ⟨_, A, hlen, hl, rfl⟩ := dataTerm_of_infer henv hctx hl hTl
    obtain rfl := List.length_eq_zero_iff.1 hlen
    obtain ⟨_, A', hlen, hr, rfl⟩ := dataTerm_of_infer henv hctx hr hTr
    obtain rfl := List.length_eq_zero_iff.1 hlen
    have hA := (hl.isDataType henv).2
    obtain rfl : A' = A := (Term.isFlat_of_isDataType hA).eq_of_conv
      (Term.isFlat_of_isDataType (hr.isDataType henv).2) (hconvr.trans hconvl.symm)
    exact .intro hA hconvl.symm hl hr

end

end Kernel

end UniqueEvidence
