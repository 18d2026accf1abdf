/-
First-order terms of closed types.

The variables of a first-order term may have any closed type, and a constructor may take arguments
of any closed type, so the types here are known only up to conversion.

* `Term.Normalises`: a term has a normal form that some depth suffices to find;
* `FirstOrderTerm`: first-order terms with their types, and those of the arguments that are still to
  come;
* `Term.IsFirstOrderAt`: a first-order term of a type, up to conversion.  This is kept by evaluation
  (`FirstOrderTerm.eval`), and an application of a constructor has arguments of the declared types
  (`FirstOrderTerm.of_head`);
* `Kernel.firstOrderTerm_of_infer`: **inference types first-order terms in this way**.
-/
import UniqueEvidence.Proofs.FirstOrder
import UniqueEvidence.Proofs.Normalisation
import UniqueEvidence.Proofs.Scoping

namespace UniqueEvidence

open Nameless

/-! ### Terms with a normal form -/

/-- The term has a normal form, which is found once the depth suffices. -/
def Term.Normalises (t : Term) : Prop :=
  ∃ depth u, t.normalize depth = some u

namespace Term

lemma IsFlat.normalises {t : Term} (h : t.IsFlat) : t.Normalises :=
  ⟨t.size, t, normalize_of_isNormal h.toNameless.isNormal le_rfl⟩

lemma Normalises.of_prod {a b : Term} (h : (prod a b).Normalises) :
    a.Normalises ∧ b.Normalises := by
  obtain ⟨_ | depth, u, h⟩ := h
  · cases h
  · simp only [normalize, Option.bind_eq_bind, Option.bind_eq_some_iff] at h
    obtain ⟨a', ha, b', hb, -⟩ := h
    exact ⟨⟨depth, a', ha⟩, depth, b', hb⟩

lemma Normalises.prod {a b : Term} (ha : a.Normalises) (hb : b.Normalises) :
    (Term.prod a b).Normalises := by
  obtain ⟨m, a', ha⟩ := ha
  obtain ⟨n, b', hb⟩ := hb
  have ha := normalize_mono (Nat.le_max_left m n) ha
  have hb := normalize_mono (Nat.le_max_right m n) hb
  exact ⟨max m n + 1, .prod a' b', by simp [normalize, ha, hb]⟩

lemma Normalises.of_arrows {As : List Term} {B : Term} (h : (arrows As B).Normalises) :
    ∀ A ∈ As, A.Normalises := by
  induction As with
  | nil => simp
  | cons A As ih =>
    obtain ⟨_ | depth, u, h⟩ := h
    · cases h
    · change (pi anonymous A (arrows As B)).normalize (depth + 1) = some u at h
      simp only [normalize, Option.bind_eq_bind, Option.bind_eq_some_iff] at h
      obtain ⟨A', hA, body, hbody, -⟩ := h
      exact List.forall_mem_cons.2 ⟨⟨depth, A', hA⟩, ih ⟨depth, body, hbody⟩⟩

/-- An equation between flat terms has a normal form if its type has. -/
lemma Normalises.eq {ty l r : Term} (hty : ty.Normalises) (hl : l.IsFlat) (hr : r.IsFlat) :
    (eq ty l r).Normalises := by
  obtain ⟨m, ty', hty⟩ := hty
  obtain ⟨n, l', hl⟩ := hl.normalises
  obtain ⟨p, r', hr⟩ := hr.normalises
  refine ⟨max m (max n p) + 1, _, normalize_eq_iff.2 ⟨_, ty', l', r', rfl, ?_, ?_, ?_, rfl⟩⟩
  · exact normalize_mono (by omega) hty
  · exact normalize_mono (by omega) hl
  · exact normalize_mono (by omega) hr

/-- A normal form of a closed term is closed. -/
lemma freeVars_of_conv {t u : Term} (h : t.nameless.Conv u.nameless) (ht : t.nameless.IsNormal)
    (hu : u.freeVars = []) : t.freeVars = [] := by
  refine List.eq_nil_iff_forall_not_mem.2 fun x hx => closed_nameless hu (.free x) ?_
  exact (h.symm.reduces_normal ht).occurs (occurs_nameless.2 hx)

/-- Nothing enters the body of a binder if that is closed. -/
lemma inst_captured_of_closed {t : Term} (h : t.freeVars = []) (x : Name) (a : Nameless) :
    (t.nameless.rename (Ref.capture x)).inst a = t.nameless := by
  rw [Nameless.rename_capture (closed_nameless h (.free x)), inst_shift]

end Term

/-! ### Terms with their types -/

/-- A first-order term over variables of closed types, with the types of the arguments that are
still to come, and its type once they have come. -/
inductive FirstOrderTerm (env : Environment) (Γ : List Binding) :
    Term → List Term → Term → Prop where
  | var {x : Name} {A : Term} : ⟨x, A⟩ ∈ Γ → A.freeVars = [] → FirstOrderTerm env Γ (.var x) [] A
  | tt : FirstOrderTerm env Γ .tt [] .unit
  | pair {a b A B : Term} : FirstOrderTerm env Γ a [] A → FirstOrderTerm env Γ b [] B →
      FirstOrderTerm env Γ (.pair a b) [] (.prod A B)
  | ctor {c : Name} {d : DataType} {ctor : DataCtor} : env.dataCtor? c = some (d, ctor) →
      (∀ A ∈ ctor.argTypes, A.Normalises) →
        FirstOrderTerm env Γ (.const c) ctor.argTypes (.const d.name)
  | app {f a A A' : Term} {As : List Term} {B : Term} : FirstOrderTerm env Γ f (A :: As) B →
      FirstOrderTerm env Γ a [] A' →
      A'.nameless.Conv A.nameless → FirstOrderTerm env Γ (.app f a) As B

/-- A first-order term of the type, up to conversion. -/
def Term.IsFirstOrderAt (env : Environment) (Γ : List Binding) (t ty : Term) : Prop :=
  ∃ A, FirstOrderTerm env Γ t [] A ∧ A.nameless.Conv ty.nameless

namespace FirstOrderTerm

variable {env : Environment} {Γ Γ' : List Binding} {t : Term} {As : List Term} {A : Term}

lemma isFlat (h : FirstOrderTerm env Γ t As A) : t.IsFlat := by
  induction h with
  | var | tt | ctor => trivial
  | pair _ _ iha ihb | app _ _ _ iha ihb => exact ⟨iha, ihb⟩

/-- The types are closed. -/
lemma freeVars_eq_nil (henv : env.TakesClosed) (h : FirstOrderTerm env Γ t As A) :
    (∀ B ∈ As, B.freeVars = []) ∧ A.freeVars = [] := by
  induction h with
  | var _ hA => exact ⟨by simp, hA⟩
  | tt => exact ⟨by simp, rfl⟩
  | pair _ _ iha ihb => exact ⟨by simp, by simp [Term.freeVars, iha.2, ihb.2]⟩
  | @ctor c d ctor hc =>
    obtain ⟨hd, hctor, -⟩ := Environment.mem_of_dataCtor? hc
    exact ⟨henv d hd ctor hctor, rfl⟩
  | app _ _ _ ihf _ => exact ⟨fun B hB => ihf.1 B (List.mem_cons_of_mem _ hB), ihf.2⟩

/-- What occurs is a variable of a closed type. -/
lemma exists_mem (h : FirstOrderTerm env Γ t As A) {x : Name} (hx : x ∈ t.freeVars) :
    ∃ B, ⟨x, B⟩ ∈ Γ ∧ B.freeVars = [] := by
  induction h with
  | @var y B hy hB =>
    obtain rfl : x = y := by simpa [Term.freeVars] using hx
    exact ⟨B, hy, hB⟩
  | tt | ctor => cases hx
  | pair _ _ iha ihb | app _ _ _ iha ihb => exact (List.mem_append.1 hx).elim iha ihb

/-- **Evaluation keeps the type**, if the variables that occur are assigned terms of their types. -/
lemma eval {σ : Name → Term} (h : FirstOrderTerm env Γ t As A)
    (hσ : ∀ b ∈ Γ, b.name ∈ t.freeVars → b.ty.freeVars = [] →
      (σ b.name).IsFirstOrderAt env Γ' b.ty) :
    ∃ A', FirstOrderTerm env Γ' (t.eval σ) As A' ∧ A'.nameless.Conv A.nameless := by
  induction h with
  | var hx hA => exact hσ _ hx List.mem_cons_self hA
  | tt => exact ⟨_, .tt, .rfl⟩
  | ctor hc hnormal => exact ⟨_, .ctor hc hnormal, .rfl⟩
  | pair _ _ iha ihb =>
    obtain ⟨A', ha, hA⟩ := iha fun b hb hx => hσ b hb (List.mem_append_left _ hx)
    obtain ⟨B', hb, hB⟩ := ihb fun b hb hx => hσ b hb (List.mem_append_right _ hx)
    exact ⟨_, .pair ha hb, hA.prod hB⟩
  | app _ _ hconv ihf iha =>
    obtain ⟨B', hf, hB⟩ := ihf fun b hb hx => hσ b hb (List.mem_append_left _ hx)
    obtain ⟨A', ha, hA⟩ := iha fun b hb hx => hσ b hb (List.mem_append_right _ hx)
    exact ⟨B', .app hf ha (hA.trans hconv), hB⟩

/-- **An application of a constructor** has the type that it is declared with, and arguments of the
declared types. -/
lemma of_head {c : Name} (h : FirstOrderTerm env Γ t As A) (hhead : t.head = .const c) :
    ∃ d ctor taken, env.dataCtor? c = some (d, ctor) ∧ (∀ B ∈ ctor.argTypes, B.Normalises) ∧
      ctor.argTypes = taken ++ As ∧
      A = .const d.name ∧ List.Forall₂ (fun B a => a.IsFirstOrderAt env Γ B) taken t.args := by
  induction h with
  | var | tt | pair => cases hhead
  | ctor hc hnormal =>
    obtain rfl : _ = c := by simpa [Term.head] using hhead
    exact ⟨_, _, [], hc, hnormal, rfl, rfl, .nil⟩
  | @app f a B B' Bs _ _ ha hconv ihf _ =>
    obtain ⟨d, ctor, taken, hc, hnormal, htypes, rfl, hargs⟩ := ihf hhead
    refine ⟨d, ctor, taken ++ [B], hc, hnormal, by simpa using htypes, rfl, ?_⟩
    exact List.rel_append hargs (.cons ⟨B', ha, hconv⟩ .nil)

/-- A term that lacks arguments is an application of a constructor. -/
lemma head_of_ne_nil (h : FirstOrderTerm env Γ t As A) (hAs : As ≠ []) :
    ∃ c, t.head = .const c := by
  induction h with
  | var | tt | pair => exact absurd rfl hAs
  | ctor => exact ⟨_, rfl⟩
  | app _ _ _ ihf _ => exact ihf (by simp)

/-- The four forms of a first-order term. -/
lemma forms (h : FirstOrderTerm env Γ t As A) : (∃ x, t = .var x) ∨ (t = .tt ∧ A = .unit) ∨
    (∃ a b B C, t = .pair a b ∧ A = .prod B C ∧ FirstOrderTerm env Γ a [] B ∧
      FirstOrderTerm env Γ b [] C) ∨
    ∃ c, t.head = .const c := by
  cases h with
  | var => exact .inl ⟨_, rfl⟩
  | tt => exact .inr (.inl ⟨rfl, rfl⟩)
  | pair ha hb => exact .inr (.inr (.inl ⟨_, _, _, _, rfl, rfl, ha, hb⟩))
  | ctor => exact .inr (.inr (.inr ⟨_, rfl⟩))
  | app hf => exact .inr (.inr (.inr (hf.head_of_ne_nil (by simp))))

end FirstOrderTerm

/-! ### Inference -/

namespace Kernel

variable {k : Kernel} {Γ : List Binding} {vars : List Name} {ctx : Context} {depth : Nat}

/-- **A first-order term has the type that inference finds**, if its variables are of closed
types. -/
lemma firstOrderTerm_of_infer (henv : k.env.TakesClosed)
    (hctx : ∀ x ty, x ∈ vars → ctx.lookup? x = some ty → ⟨x, ty⟩ ∈ Γ ∧ ty.freeVars = [])
    {t T : Term} {n : Nat} (ht : t.isFirstOrder k.env.dataArity? vars n)
    (h : k.inferAt depth ctx t = .ok T) :
    ∃ As A, As.length = n ∧ FirstOrderTerm k.env Γ t As A ∧
      T.nameless.Conv (Term.arrows As A).nameless := by
  induction depth generalizing t T n with
  | zero => cases h
  | succ depth ih =>
    obtain ⟨ty, hty, hn⟩ := Except.bind_eq_ok.1 h
    have hT : T.nameless.Conv ty.nameless := (Conv.of_reduces (normalize_spec hn).1).symm
    cases t with
    | var x =>
      cases n with
      | succ n => cases ht
      | zero =>
        rw [typeOf] at hty
        split at hty
        · rename_i A hlookup
          obtain rfl : A = ty := by simpa [pure, Except.pure] using hty
          obtain ⟨hmem, hA⟩ := hctx x A (by simpa [Term.isFirstOrder] using ht) hlookup
          exact ⟨[], A, rfl, .var hmem hA, hT⟩
        · cases hty
    | const c =>
      simp only [Term.isFirstOrder, Environment.dataArity?, beq_iff_eq,
        Option.map_eq_some_iff] at ht
      obtain ⟨⟨d, ctor⟩, hc, rfl⟩ := ht
      rw [typeOf, Environment.constType?_of_dataCtor? hc] at hty
      obtain rfl := Except.ok.inj hty
      exact ⟨ctor.argTypes, .const d.name, rfl,
        .ctor hc (Term.Normalises.of_arrows ⟨_, _, withinDepth_eq_ok.1 hn⟩), hT⟩
    | tt =>
      cases n with
      | succ n => cases ht
      | zero =>
        obtain rfl := Except.ok.inj hty
        exact ⟨[], .unit, rfl, .tt, hT⟩
    | pair a b =>
      cases n with
      | succ n => cases ht
      | zero =>
        simp only [typeOf, Except.bind_eq_ok] at hty
        obtain ⟨Ta, hTa, Tb, hTb, hty⟩ := hty
        obtain rfl := Except.ok.inj hty
        simp only [Term.isFirstOrder, Bool.and_eq_true] at ht
        obtain ⟨As, A, hlen, ha, hA⟩ := ih ht.1 hTa
        obtain rfl := List.length_eq_zero_iff.1 hlen
        obtain ⟨Bs, B, hlen, hb, hB⟩ := ih ht.2 hTb
        obtain rfl := List.length_eq_zero_iff.1 hlen
        exact ⟨[], .prod A B, rfl, .pair ha hb, hT.trans (hA.prod hB)⟩
    | app f a =>
      rw [typeOf, Except.bind_eq_ok] at hty
      obtain ⟨Tf, hTf, hty⟩ := hty
      simp only [Term.isFirstOrder, Bool.and_eq_true] at ht
      obtain ⟨_ | ⟨A, As⟩, B, hlen, hf, hconv⟩ := ih ht.1 hTf
      · cases hlen
      · split at hty
        · rename_i x dom cod
          obtain ⟨⟨⟩, hcheck, hresult⟩ := Except.bind_eq_ok.1 hty
          obtain rfl := Except.ok.inj hresult
          obtain ⟨Ta, hTa, hdom⟩ := conv_of_checkBy hcheck
          obtain ⟨_, A', hlen', ha, hA'⟩ := ih ht.2 hTa
          obtain rfl := List.length_eq_zero_iff.1 hlen'
          obtain ⟨hdomA, hcod⟩ := hconv.pi_inj
          refine ⟨As, B, by simpa using hlen,
            .app hf ha ((hA'.symm.trans hdom).trans hdomA), hT.trans ?_⟩
          -- the remaining type is closed, so the argument does not enter it
          obtain ⟨hAs, hB⟩ :=
            (FirstOrderTerm.app hf ha ((hA'.symm.trans hdom).trans hdomA)).freeVars_eq_nil henv
          rw [Term.nameless_contract,
            ← Term.inst_captured_of_closed (Term.freeVars_arrows hAs hB) Term.anonymous a.nameless]
          exact hcod.inst .rfl
        · cases hty
    | _ => cases ht

/-- What a first-order term is checked to have is a type of it that has a normal form. -/
lemma isFirstOrderAt_of_check (henv : k.env.TakesClosed)
    (hctx : ∀ x ty, x ∈ vars → ctx.lookup? x = some ty → ⟨x, ty⟩ ∈ Γ ∧ ty.freeVars = [])
    {t ty : Term} (ht : t.isFirstOrder k.env.dataArity? vars 0) (h : k.check ctx t ty = .ok ()) :
    t.IsFirstOrderAt k.env Γ ty ∧ ty.Normalises := by
  obtain ⟨T, hT, hconv⟩ := checkBy_eq_ok.1 h
  obtain ⟨As, A, hlen, hA, hTA⟩ := firstOrderTerm_of_infer henv hctx ht hT
  obtain rfl := List.length_eq_zero_iff.1 hlen
  refine ⟨⟨A, hA, hTA.symm.trans ((convertible_iff hconv).1 rfl)⟩, ?_⟩
  have hconv := withinDepth_eq_ok.1 hconv
  simp only [Term.convertible, Option.bind_eq_bind, Option.bind_eq_some_iff] at hconv
  obtain ⟨-, -, ty', hty, -⟩ := hconv
  exact ⟨k.depth, ty', hty⟩

end Kernel

/-! ### Tuples -/

/-- A tuple of first-order terms is one. -/
lemma Tuple.isFirstOrderAt {env : Environment} {Γ : List Binding} {l : Tuple}
    (h : ∀ s ∈ l, s.value.IsFirstOrderAt env Γ s.ty) :
    (Tuple.toTerm l).IsFirstOrderAt env Γ (Tuple.ty l) := by
  induction l with
  | nil => exact ⟨.unit, .tt, .rfl⟩
  | cons s l ih =>
    obtain ⟨A, hA, hconvA⟩ := h s List.mem_cons_self
    obtain ⟨B, hB, hconvB⟩ := ih fun s' hs' => h s' (List.mem_cons_of_mem _ hs')
    exact ⟨.prod A B, .pair hA hB, hconvA.prod hconvB⟩

lemma Tuple.normalises {l : Tuple} (h : ∀ s ∈ l, s.ty.Normalises) : (Tuple.ty l).Normalises := by
  induction l with
  | nil => exact ⟨1, .unit, rfl⟩
  | cons s l ih =>
    exact (h s List.mem_cons_self).prod (ih fun s' hs' => h s' (List.mem_cons_of_mem _ hs'))

end UniqueEvidence
