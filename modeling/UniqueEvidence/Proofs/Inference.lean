/-
Type inference against the declarative system.

* `Discipline.view`, `Context.scope`, `Environment.signature`: terms, contexts and declarations as
  the declarative system sees them;
* `Kernel.infer_sound`: **what inference accepts has the type it gives**, in either discipline;
* `Kernel.infer_complete`: **what has a type is not refused**: inference gives a convertible type,
  or runs out of depth.
-/
import UniqueEvidence.Kernel.Typing
import UniqueEvidence.Proofs.NormalForm
import UniqueEvidence.Proofs.Typing

namespace UniqueEvidence

open Nameless

/-! ### Views of terms -/

namespace Discipline

/-- What a discipline sees of a term. -/
def view (m : Discipline) (t : Term) : Nameless :=
  match m with
  | strict => t.nameless
  | erased => t.nameless.erase

variable {m : Discipline} {t u : Term}

@[simp] lemma view_var (x : Name) : m.view (.var x) = ref (.free x) := by
  cases m <;> rfl

@[simp] lemma view_const (c : Name) : m.view (.const c) = const c := by
  cases m <;> rfl

@[simp] lemma view_sort : m.view .sort = sort := by
  cases m <;> rfl

@[simp] lemma view_unit : m.view .unit = unit := by
  cases m <;> rfl

@[simp] lemma view_tt : m.view .tt = tt := by
  cases m <;> rfl

@[simp] lemma view_app (f a : Term) : m.view (.app f a) = app (m.view f) (m.view a) := by
  cases m <;> rfl

@[simp] lemma view_prod (a b : Term) : m.view (.prod a b) = prod (m.view a) (m.view b) := by
  cases m <;> rfl

@[simp] lemma view_pair (a b : Term) : m.view (.pair a b) = pair (m.view a) (m.view b) := by
  cases m <;> rfl

@[simp] lemma view_eq (ty l r : Term) :
    m.view (.eq ty l r) = eq (m.view ty) (m.view l) (m.view r) := by
  cases m <;> rfl

@[simp] lemma erased_view_refl (ty a : Term) : erased.view (.refl ty a) = refl tt (erased.view a) :=
  rfl

lemma view_lam (x : Name) (ty b : Term) :
    m.view (.lam x ty b) = lam (m.view ty) ((m.view b).rename (Ref.capture x)) := by
  cases m <;> simp [view, Term.nameless, erase, erase_rename]

lemma view_pi (x : Name) (ty b : Term) :
    m.view (.pi x ty b) = pi (m.view ty) ((m.view b).rename (Ref.capture x)) := by
  cases m <;> simp [view, Term.nameless, erase, erase_rename]

lemma view_subst (t : Term) (x : Name) (v : Term) :
    m.view (t.subst x v) = (m.view t).subst (single x (m.view v)) := by
  have herase : (fun r => (single x v.nameless r).erase) = single x v.nameless.erase := by
    funext r
    by_cases hr : r = .free x <;> simp [single, hr, erase]
  cases m <;> simp [view, Term.nameless_subst, erase_subst, herase]

lemma view_contract (x : Name) (body arg : Term) :
    m.view (body.subst x arg) = ((m.view body).rename (Ref.capture x)).inst (m.view arg) := by
  cases m <;> simp [view, Term.nameless_contract, erase_inst, erase_rename]

lemma view_apps (f : Term) (as : List Term) :
    m.view (f.apps as) = (m.view f).apps (as.map m.view) := by
  induction as generalizing f with
  | nil => rfl
  | cons a as ih => simpa using ih (.app f a)

lemma view_reduces (h : t.nameless.Reduces u.nameless) : (m.view t).Reduces (m.view u) := by
  cases m
  · exact h
  · exact h.erase

lemma view_conv (h : t.nameless.Conv u.nameless) : (m.view t).Conv (m.view u) := by
  cases m
  · exact h
  · exact h.erase

lemma occurs_of_view {r : Ref} (h : (m.view t).Occurs r) : t.nameless.Occurs r := by
  cases m
  · exact h
  · exact occurs_of_erase h

lemma view_tupleType (types : List Term) :
    m.view (tupleType types) = Nameless.tupleType (types.map m.view) := by
  induction types with
  | nil => simp [tupleType]
  | cons ty types ih => simpa [tupleType] using ih

lemma view_components {ts : List Term} (h : t.components = some ts) :
    m.view t = tuple (ts.map m.view) := by
  cases m with
  | strict => exact Term.components_eq_some h
  | erased =>
    rw [view, Term.components_eq_some h, erase_tuple, List.map_map]
    rfl

lemma view_sortFree (h : t.nameless.SortFree) : (m.view t).SortFree := by
  cases m
  · exact h
  · exact h.erase

end Discipline

/-! ### Declarations and contexts -/

/-- All declared types are closed. -/
def Environment.Closed (env : Environment) : Prop :=
  ∀ c ty, env.constType? c = some ty → ty.freeVars = []

/-- The types of the declared symbols. -/
def Environment.signature (env : Environment) (hclosed : env.Closed) (m : Discipline) :
    Signature where
  type? c := (env.constType? c).map m.view
  closed := by
    intro c U hU r hr
    obtain ⟨ty, hty, rfl⟩ := Option.map_eq_some_iff.1 hU
    exact Term.closed_nameless (hclosed c ty hty) r (Discipline.occurs_of_view hr)

namespace Context

/-- The hypotheses of a context as types of references. -/
def scope (ctx : Context) (m : Discipline) : Scope
  | .free x => (ctx.lookup? x).map m.view
  | .bound _ => none

/-- The types of a context mention only its names. -/
def Scoped (ctx : Context) (m : Discipline) : Prop :=
  ∀ b ∈ ctx, ∀ x, (m.view b.ty).Occurs (.free x) → x ∈ Binding.names ctx

/-- The terms a discipline is asked about: with all free variables in the context, or without the
universe. -/
def Permits (ctx : Context) (m : Discipline) (t : Term) : Prop :=
  match m with
  | .strict => ∀ x, t.nameless.Occurs (.free x) → x ∈ Binding.names ctx
  | .erased => t.nameless.SortFree

variable {ctx : Context} {m : Discipline}

lemma Permits.mono {t u : Term} (h : ctx.Permits m t)
    (hocc : ∀ r, u.nameless.Occurs r → t.nameless.Occurs r)
    (hfree : t.nameless.SortFree → u.nameless.SortFree) : ctx.Permits m u := by
  cases m with
  | strict => exact fun x hx => h x (hocc _ hx)
  | erased => exact hfree h

/-- A reduct of a permitted term is permitted. -/
lemma Permits.reduces {t u : Term} (h : ctx.Permits m t) (hr : t.nameless.Reduces u.nameless) :
    ctx.Permits m u :=
  h.mono (fun _ => hr.occurs) fun ht => ht.reduces hr

lemma Permits.component {t s : Term} {ts : List Term} (h : ctx.Permits m t)
    (hts : t.components = some ts) (hs : s ∈ ts) : ctx.Permits m s := by
  have htuple := Term.components_eq_some hts
  have hmem : s.nameless ∈ ts.map Term.nameless := List.mem_map_of_mem hs
  refine h.mono (fun r hr => ?_) fun hfree => ?_
  · rw [htuple, occurs_tuple]
    exact ⟨_, hmem, hr⟩
  · rw [htuple, sortFree_tuple] at hfree
    exact hfree _ hmem

lemma mem_of_lookup? {x : Name} {ty : Term} (h : ctx.lookup? x = some ty) : ⟨x, ty⟩ ∈ ctx := by
  obtain ⟨b, hb, rfl⟩ := Option.map_eq_some_iff.1 h
  obtain rfl : b.name = x := by simpa using List.find?_some hb
  exact List.mem_of_find?_eq_some hb

lemma lookup?_cons_self (x : Name) (ty : Term) : lookup? (⟨x, ty⟩ :: ctx) x = some ty := by
  simp [lookup?]

lemma lookup?_cons_of_ne {x y : Name} (ty : Term) (h : y ≠ x) :
    lookup? (⟨x, ty⟩ :: ctx) y = lookup? ctx y := by
  simp [lookup?, h.symm]

/-- The references of a typed term are names of the context. -/
lemma mem_names_of_hasType {S : Signature} {t : Term} {T : Nameless} (hperm : ctx.Permits m t)
    (h : HasType m S (ctx.scope m) (m.view t) T) {x : Name} (hx : (m.view t).Occurs (.free x)) :
    x ∈ Binding.names ctx := by
  cases m with
  | strict => exact hperm x hx
  | erased =>
    have hsome := h.isSome_of_occurs hx
    obtain ⟨ty, hty⟩ : ∃ ty, ctx.lookup? x = some ty := by
      simpa [scope, Option.isSome_iff_exists] using hsome
    exact List.mem_map_of_mem (mem_of_lookup? hty)

end Context

/-! ### Binders -/

lemma Nameless.rename_capture {t : Nameless} {z : Name} (h : ¬ t.Occurs (.free z)) :
    t.rename (Ref.capture z) = t.shift := by
  rw [shift, rename_eq_subst, rename_eq_subst]
  refine subst_congr fun r hr => ?_
  rw [Ref.capture_of_ne fun hz => h (hz ▸ hr)]

/-- An opened binder has a new name, and its body is the same but for that name. -/
lemma openBinder_spec (ctx : Context) (x : Name) (body : Term) :
    (openBinder ctx x body).1 ∉ Binding.names ctx ∧
      (openBinder ctx x body).2.nameless.rename (Ref.capture (openBinder ctx x body).1) =
        body.nameless.rename (Ref.capture x) := by
  rw [openBinder]
  split
  case isTrue hx =>
    have hfresh := fresh_not_mem x (Binding.names ctx ++ body.freeVars)
    simp only [List.mem_append, not_or] at hfresh
    refine ⟨hfresh.1, ?_⟩
    rw [Term.nameless_subst]
    exact Term.capture_renamed (mt Term.occurs_nameless.1 hfresh.2)
  case isFalse hx => exact ⟨hx, rfl⟩

namespace Context

variable {ctx : Context} {m : Discipline} {S : Signature} {x z : Name} {ty body body' : Term}

lemma view_opened
    (h : body'.nameless.rename (Ref.capture z) = body.nameless.rename (Ref.capture x)) :
    (m.view body').rename (Ref.capture z) = (m.view body).rename (Ref.capture x) := by
  cases m with
  | strict => exact h
  | erased => simpa [Discipline.view, erase_rename] using congrArg erase h

/-- The body of a permitted binder is permitted below the opened binder. -/
lemma permits_opened
    (h : body'.nameless.rename (Ref.capture z) = body.nameless.rename (Ref.capture x))
    (hperm : m = .strict → ∀ y, (body.nameless.rename (Ref.capture x)).Occurs (.free y) →
      y ∈ Binding.names ctx) (hfree : m = .erased → body.nameless.SortFree) :
    Permits (⟨z, ty⟩ :: ctx) m body' := by
  cases m with
  | strict =>
    intro y hy
    by_cases hyz : y = z
    · exact hyz ▸ List.mem_cons_self
    · exact List.mem_cons_of_mem _ (hperm rfl y (h ▸ Term.occurs_capture.2 ⟨hy, hyz⟩))
  | erased =>
    have hbody := (sortFree_rename (ρ := Ref.capture x)).2 (hfree rfl)
    rw [← h] at hbody
    exact sortFree_rename.1 hbody

lemma scoped_cons (hctx : ctx.Scoped m)
    (hty : ∀ y, (m.view ty).Occurs (.free y) → y ∈ Binding.names ctx) :
    Scoped (⟨z, ty⟩ :: ctx) m := by
  intro b hb y hy
  refine List.mem_cons_of_mem _ ?_
  rcases List.mem_cons.1 hb with rfl | hb
  · exact hty y hy
  · exact hctx b hb y hy

/-- Typing below an opened binder is typing below the counted one. -/
lemma hasType_captured {b B : Nameless} (hz : z ∉ Binding.names ctx) (hctx : ctx.Scoped m)
    (hty : ∀ y, (m.view ty).Occurs (.free y) → y ∈ Binding.names ctx)
    (h : HasType m S (scope (⟨z, ty⟩ :: ctx) m) b B) :
    HasType m S ((ctx.scope m).push (m.view ty)) (b.rename (Ref.capture z))
      (B.rename (Ref.capture z)) := by
  refine h.rename fun r A _ hA => ?_
  rcases r with n | y
  · cases hA
  · obtain ⟨ty', hlookup, rfl⟩ := Option.map_eq_some_iff.1 hA
    by_cases hyz : y = z
    · subst hyz
      obtain rfl : ty = ty' := by simpa [lookup?_cons_self] using hlookup
      rw [Ref.capture_self, rename_capture fun hocc => hz (hty _ hocc)]
      rfl
    · rw [lookup?_cons_of_ne ty hyz] at hlookup
      rw [Ref.capture_of_ne (by simpa using hyz),
        rename_capture fun hocc => hz (hctx _ (mem_of_lookup? hlookup) _ hocc)]
      simp [Scope.push, scope, hlookup]

/-- A body that had its binder's name put back. -/
lemma inst_captured (b : Nameless) (z : Name) :
    (b.rename (Ref.capture z)).inst (ref (.free z)) = b := by
  rw [inst, subst_rename]
  conv_rhs => rw [← subst_ref b]
  congr 1
  funext r
  by_cases hr : r = .free z
  · simp [hr]
  · simp [Ref.capture_of_ne hr]

/-- Typing below the counted binder is typing below the opened one. -/
lemma hasType_opened {b B : Nameless} (hz : z ∉ Binding.names ctx)
    (h : HasType m S ((ctx.scope m).push (m.view ty)) b B) :
    HasType m S (scope (⟨z, ty⟩ :: ctx) m) (b.inst (ref (.free z))) (B.inst (ref (.free z))) := by
  refine h.subst (fun r C _ hC => ?_) fun r => ?_
  · rcases r.eq_top_or_succ with rfl | ⟨r, rfl⟩
    · obtain rfl : (m.view ty).shift = C := by simpa [Scope.push] using hC
      rw [Ref.extend_top, ← inst, inst_shift]
      exact .ref (by simp [scope, lookup?_cons_self]) .rfl
    · simp only [Scope.push, Ref.extend_succ, Option.map_eq_some_iff] at hC
      obtain ⟨C', hC', rfl⟩ := hC
      rw [Ref.extend_succ, ← inst, inst_shift]
      refine .ref ?_ .rfl
      rcases r with n | y
      · cases hC'
      · obtain ⟨ty', hlookup, rfl⟩ := Option.map_eq_some_iff.1 hC'
        have hyz : y ≠ z := fun hyz => hz (hyz ▸ List.mem_map_of_mem (mem_of_lookup? hlookup))
        simp [scope, lookup?_cons_of_ne ty hyz, hlookup]
  · rcases r.eq_top_or_succ with rfl | ⟨r, rfl⟩
    · exact fun _ => trivial
    · simp [Discipline.Admits, SortFree]

end Context

/-! ### Soundness -/

namespace Kernel

/-- An inference that accepts only what has the type it gives. -/
def Sound (m : Discipline) (S : Signature) (infer : Inference) : Prop :=
  ∀ {ctx t T}, Context.Scoped ctx m → Context.Permits ctx m t → infer ctx t = .ok T →
    HasType m S (Context.scope ctx m) (m.view t) (m.view T)

variable {k : Kernel} {infer : Inference} {ctx : Context} {m : Discipline} {S : Signature}
  {t ty T : Term}

lemma expectTypeBy_eq_ok : expectTypeBy infer ctx t = .ok () ↔ infer ctx t = .ok .sort := by
  rw [expectTypeBy, Except.bind_eq_ok]
  constructor
  · rintro ⟨T, hT, h⟩
    split at h
    · exact hT
    · cases h
  · exact fun h => ⟨.sort, h, rfl⟩

lemma checkBy_eq_ok :
    k.checkBy infer ctx t ty = .ok () ↔ ∃ T, infer ctx t = .ok T ∧
      k.convertible T ty = .ok true := by
  simp only [checkBy, Except.bind_eq_ok]
  constructor
  · rintro ⟨T, hT, answer, hanswer, h⟩
    cases answer with
    | false => cases h
    | true => exact ⟨T, hT, hanswer⟩
  · exact fun ⟨T, hT, h⟩ => ⟨T, hT, true, h, rfl⟩

lemma Sound.expectType (hinfer : Sound m S infer) (hctx : ctx.Scoped m) (hperm : ctx.Permits m t)
    (h : expectTypeBy infer ctx t = .ok ()) : HasType m S (ctx.scope m) (m.view t) sort := by
  simpa using hinfer hctx hperm (expectTypeBy_eq_ok.1 h)

lemma Sound.check (hinfer : Sound m S infer) (hctx : ctx.Scoped m) (hperm : ctx.Permits m t)
    (h : k.checkBy infer ctx t ty = .ok ()) : HasType m S (ctx.scope m) (m.view t) (m.view ty) := by
  obtain ⟨T, hT, hconv⟩ := checkBy_eq_ok.1 h
  exact (hinfer hctx hperm hT).conv (Discipline.view_conv ((convertible_iff hconv).1 rfl))

lemma values_zipWith {types values : List Term} (h : values.length = types.length) :
    Tuple.values (List.zipWith Slot.mk types values) = values := by
  induction types generalizing values with
  | nil =>
    obtain rfl := List.length_eq_zero_iff.1 h
    rfl
  | cons ty types ih =>
    cases values with
    | nil => cases h
    | cons v values => simpa [Tuple.values] using ih (by simpa using h)

/-- A family at a reversed tuple, as an application. -/
lemma familyAt_zipWith {head : Term} {types values : List Term} (h : values.length = types.length) :
    familyAt k.depth head (List.zipWith Slot.mk types values) =
      k.normalize (head.apps values.reverse) := by
  rw [familyAt, Term.applyTuple, Tuple.values, List.map_reverse, ← Tuple.values,
    values_zipWith h, normalize]

/-- The type of a transport, step by step. -/
lemma typeOfTransport_eq_ok {head src dst proof value : Term}
    (h : k.typeOfTransport infer ctx head src dst proof value = .ok T) :
    ∃ src' dst' ss ds types V, k.normalize src = .ok src' ∧ k.normalize dst = .ok dst' ∧
      src'.components = some ss ∧ dst'.components = some ds ∧ ss.length = ds.length ∧
      List.Forall₂ (fun s ty => infer ctx s = .ok ty) ss types ∧
      k.checkBy infer ctx dst (tupleType types) = .ok () ∧
      k.checkBy infer ctx proof (.eq (tupleType types) src dst) = .ok () ∧
      k.normalize (head.apps ss.reverse) = .ok V ∧ k.checkBy infer ctx value V = .ok () ∧
      k.normalize (head.apps ds.reverse) = .ok T := by
  simp only [typeOfTransport, Except.bind_eq_ok] at h
  obtain ⟨src', hsrc, dst', hdst, h⟩ := h
  split at h
  case h_2 => cases h
  case h_1 ss ds hss hds =>
    split at h
    case isFalse => cases h
    case isTrue hlen =>
      simp only [Except.bind_eq_ok, Except.mapM_eq_ok] at h
      obtain ⟨types, htypes, ⟨⟩, hcdst, ⟨⟩, hcproof, V, hV, ⟨⟩, hcvalue, hT⟩ := h
      have hlenTypes := htypes.length_eq
      rw [familyAt_zipWith hlenTypes] at hV
      rw [familyAt_zipWith (hlen ▸ hlenTypes)] at hT
      exact ⟨src', dst', ss, ds, types, V, hsrc, hdst, hss, hds, hlen, htypes, hcdst,
        hcproof, hV, hcvalue, hT⟩

/-- A tuple of typed components has the tuple type. -/
lemma hasType_tuple {Γ : Scope} {ts Ts : List Nameless} (h : List.Forall₂ (HasType m S Γ) ts Ts) :
    HasType m S Γ (tuple ts) (Nameless.tupleType Ts) := by
  induction h with
  | nil => exact .tt .rfl
  | cons ht _ ih => exact .pair ht ih .rfl

lemma Sound.transport {head src dst proof value : Term} (hinfer : Sound m S infer)
    (hctx : ctx.Scoped m) (hperm : ctx.Permits m (.transport head src dst proof value))
    (h : k.typeOfTransport infer ctx head src dst proof value = .ok T) :
    HasType m S (ctx.scope m) (m.view (.transport head src dst proof value)) (m.view T) := by
  obtain ⟨src', dst', ss, ds, types, V, hsrc, hdst, hss, hds, hlen, htypes, hcdst,
      hcproof, hV, hcvalue, hT⟩ :=
    typeOfTransport_eq_ok h
  have hpsrc : ctx.Permits m src := hperm.mono (fun _ h => .inr (.inl h)) (·.2.1)
  have hpdst : ctx.Permits m dst := hperm.mono (fun _ h => .inr (.inr (.inl h))) (·.2.2.1)
  have hpproof : ctx.Permits m proof :=
    hperm.mono (fun _ h => .inr (.inr (.inr (.inl h)))) (·.2.2.2.1)
  have hpvalue : ctx.Permits m value :=
    hperm.mono (fun _ h => .inr (.inr (.inr (.inr h)))) (·.2.2.2.2)
  -- the endpoints, and their components
  have hredsrc := Discipline.view_reduces (m := m) (normalize_spec hsrc).1
  have hreddst := Discipline.view_reduces (m := m) (normalize_spec hdst).1
  rw [Discipline.view_components hss] at hredsrc
  rw [Discipline.view_components hds] at hreddst
  have hpss : ∀ s ∈ ss, ctx.Permits m s :=
    fun s => (hpsrc.reduces (normalize_spec hsrc).1).component hss
  have hpds : ∀ d ∈ ds, ctx.Permits m d :=
    fun d => (hpdst.reduces (normalize_spec hdst).1).component hds
  have hparts : List.Forall₂ (HasType m S (ctx.scope m)) (ss.map m.view) (types.map m.view) := by
    rw [List.forall₂_map_left_iff, List.forall₂_map_right_iff]
    exact ((List.forall₂_and_left _ _).2 ⟨hpss, htypes⟩).imp fun s ty hs => hinfer hctx hs.1 hs.2
  have hsrcTy := hasType_tuple hparts
  have hdstTy := hinfer.check hctx hpdst hcdst
  have hproofTy := hinfer.check hctx hpproof hcproof
  rw [Discipline.view_tupleType] at hdstTy
  rw [Discipline.view_eq, Discipline.view_tupleType] at hproofTy
  -- the value's type and the result, before they are normalised
  have hVred := Discipline.view_reduces (m := m) (normalize_spec hV).1
  have hTred := Discipline.view_reduces (m := m) (normalize_spec hT).1
  rw [Discipline.view_apps, List.map_reverse] at hVred hTred
  have hvalueTy := (hinfer.check hctx hpvalue hcvalue).conv (Conv.of_reduces hVred).symm
  cases m with
  | strict =>
    exact .transport rfl hredsrc hreddst (by simpa using hlen) hsrcTy hdstTy hproofTy
      hvalueTy (.of_reduces hTred)
  | erased =>
    refine .carried rfl
      (hproofTy.conv (.eq .rfl (.of_reduces hredsrc) (.of_reduces hreddst))) hvalueTy ?_
      (.of_reduces hTred)
    refine sortFree_apps.2 ⟨hperm.1.erase, fun d hd => ?_⟩
    obtain ⟨d', hd', rfl⟩ := List.mem_map.1 (List.mem_reverse.1 hd)
    exact (hpds d' hd').erase

/-- The body of a binder, typed below the opened binder. -/
lemma Sound.body {x : Name} {body B : Term} (hinfer : Sound m S infer) (hctx : ctx.Scoped m)
    (hpty : ctx.Permits m ty)
    (hstrict : m = .strict → ∀ y, (body.nameless.rename (Ref.capture x)).Occurs (.free y) →
      y ∈ Binding.names ctx) (hfree : m = .erased → body.nameless.SortFree)
    (hty : HasType m S (ctx.scope m) (m.view ty) sort)
    (h : infer (⟨(openBinder ctx x body).1, ty⟩ :: ctx) (openBinder ctx x body).2 = .ok B) :
    HasType m S ((ctx.scope m).push (m.view ty)) ((m.view body).rename (Ref.capture x))
      ((m.view B).rename (Ref.capture (openBinder ctx x body).1)) := by
  obtain ⟨hz, hopened⟩ := openBinder_spec ctx x body
  have hmem : ∀ y, (m.view ty).Occurs (.free y) → y ∈ Binding.names ctx :=
    fun y hy => Context.mem_names_of_hasType hpty hty hy
  have hbody :=
    hinfer (Context.scoped_cons hctx hmem) (Context.permits_opened hopened hstrict hfree) h
  rw [← Context.view_opened hopened]
  exact Context.hasType_captured hz hctx hmem hbody

/-- The type computed for a term is right, if those of its parts are. -/
lemma Sound.typeOf {hclosed : k.env.Closed} (hinfer : Sound m (k.env.signature hclosed m) infer)
    (hctx : ctx.Scoped m) (hperm : ctx.Permits m t) (h : k.typeOf infer ctx t = .ok T) :
    HasType m (k.env.signature hclosed m) (ctx.scope m) (m.view t) (m.view T) := by
  cases t with
  | var x =>
    simp only [Kernel.typeOf] at h
    split at h
    · rename_i ty hty
      obtain rfl : ty = T := by simpa [pure, Except.pure] using h
      rw [Discipline.view_var]
      exact .ref (by simp [Context.scope, hty]) .rfl
    · cases h
  | const c =>
    simp only [Kernel.typeOf] at h
    split at h
    · rename_i ty hty
      obtain rfl : ty = T := by simpa [pure, Except.pure] using h
      rw [Discipline.view_const]
      exact .const (by simp [Environment.signature, hty]) .rfl
    · cases h
  | sort =>
    obtain rfl : Term.sort = T := by simpa [Kernel.typeOf, pure, Except.pure] using h
    cases m with
    | strict => exact .sort rfl .rfl
    | erased => exact hperm.elim
  | unit =>
    obtain rfl : Term.sort = T := by simpa [Kernel.typeOf, pure, Except.pure] using h
    simpa using .unit .rfl
  | tt =>
    obtain rfl : Term.unit = T := by simpa [Kernel.typeOf, pure, Except.pure] using h
    simpa using .tt .rfl
  | prod a b =>
    simp only [Kernel.typeOf, Except.bind_eq_ok] at h
    obtain ⟨⟨⟩, ha, ⟨⟩, hb, h⟩ := h
    obtain rfl : Term.sort = T := by simpa [pure, Except.pure] using h
    have ha' := hinfer.expectType hctx (hperm.mono (fun _ => .inl) (·.1)) ha
    have hb' := hinfer.expectType hctx (hperm.mono (fun _ => .inr) (·.2)) hb
    simpa using .prod ha' hb' .rfl
  | pair a b =>
    simp only [Kernel.typeOf, Except.bind_eq_ok] at h
    obtain ⟨A, ha, B, hb, h⟩ := h
    obtain rfl : Term.prod A B = T := by simpa [pure, Except.pure] using h
    have ha' := hinfer hctx (hperm.mono (fun _ => .inl) (·.1)) ha
    have hb' := hinfer hctx (hperm.mono (fun _ => .inr) (·.2)) hb
    simpa using .pair ha' hb' .rfl
  | app fn arg =>
    simp only [Kernel.typeOf, Except.bind_eq_ok] at h
    obtain ⟨F, hF, h⟩ := h
    split at h
    · rename_i x dom cod
      simp only [Except.bind_eq_ok] at h
      obtain ⟨⟨⟩, harg, h⟩ := h
      obtain rfl : cod.subst x arg = T := by simpa [pure, Except.pure] using h
      have hfn := hinfer hctx (hperm.mono (fun _ => .inl) (·.1)) hF
      have harg' := hinfer.check hctx (hperm.mono (fun _ => .inr) (·.2)) harg
      rw [Discipline.view_pi] at hfn
      rw [Discipline.view_app, Discipline.view_contract]
      exact .app hfn harg' .rfl
    · cases h
  | pi x ty body =>
    simp only [Kernel.typeOf, Except.bind_eq_ok] at h
    obtain ⟨⟨⟩, hty, ⟨⟩, hbody, h⟩ := h
    obtain rfl : Term.sort = T := by simpa [pure, Except.pure] using h
    have hpty : ctx.Permits m ty := hperm.mono (fun _ => .inl) (·.1)
    have hty' := hinfer.expectType hctx hpty hty
    have hbody' := hinfer.body hctx hpty (fun hm y hy => by subst hm; exact hperm y (.inr hy))
      (fun hm => by subst hm; simpa using hperm.2) hty' (expectTypeBy_eq_ok.1 hbody)
    rw [Discipline.view_pi, Discipline.view_sort]
    rw [Discipline.view_sort] at hbody'
    exact .pi hty' hbody' .rfl
  | lam x ty body =>
    simp only [Kernel.typeOf, Except.bind_eq_ok] at h
    obtain ⟨⟨⟩, hty, B, hB, h⟩ := h
    obtain rfl : Term.pi _ ty B = T := by simpa [pure, Except.pure] using h
    have hpty : ctx.Permits m ty := hperm.mono (fun _ => .inl) (·.1)
    have hty' := hinfer.expectType hctx hpty hty
    have hbody' := hinfer.body hctx hpty (fun hm y hy => by subst hm; exact hperm y (.inr hy))
      (fun hm => by subst hm; simpa using hperm.2) hty' hB
    rw [Discipline.view_lam, Discipline.view_pi]
    exact .lam hty' hbody' .rfl
  | eq ty l r =>
    simp only [Kernel.typeOf, Except.bind_eq_ok] at h
    obtain ⟨⟨⟩, hty, ⟨⟩, hl, ⟨⟩, hr, h⟩ := h
    obtain rfl : Term.sort = T := by simpa [pure, Except.pure] using h
    have hty' := hinfer.expectType hctx (hperm.mono (fun _ => .inl) (·.1)) hty
    have hl' := hinfer.check hctx (hperm.mono (fun _ h => .inr (.inl h)) (·.2.1)) hl
    have hr' := hinfer.check hctx (hperm.mono (fun _ h => .inr (.inr h)) (·.2.2)) hr
    simpa using .eq hty' hl' hr' .rfl
  | refl ty v =>
    simp only [Kernel.typeOf, Except.bind_eq_ok] at h
    obtain ⟨⟨⟩, hty, ⟨⟩, hv, h⟩ := h
    obtain rfl : Term.eq ty v v = T := by simpa [pure, Except.pure] using h
    have hty' := hinfer.expectType hctx (hperm.mono (fun _ => .inl) (·.1)) hty
    have hv' := hinfer.check hctx (hperm.mono (fun _ => .inr) (·.2)) hv
    rw [Discipline.view_eq]
    cases m with
    | strict => exact .refl rfl hty' hv' .rfl
    | erased => exact .same rfl hv' .rfl
  | transport head src dst proof value => exact hinfer.transport hctx hperm h

/-- **What inference accepts has the type it gives.** -/
theorem inferAt_sound (k : Kernel) (hclosed : k.env.Closed) (m : Discipline) (depth : Nat) :
    Sound m (k.env.signature hclosed m) (k.inferAt depth) := by
  induction depth with
  | zero =>
    intro ctx t T _ _ h
    cases h
  | succ depth ih =>
    intro ctx t T hctx hperm h
    rw [inferAt, Except.bind_eq_ok] at h
    obtain ⟨U, hU, hT⟩ := h
    exact (ih.typeOf hctx hperm hU).conv
      (.of_reduces (Discipline.view_reduces (normalize_spec hT).1))

/-- Inference gives normal forms. -/
lemma isNormal_of_inferAt {depth : Nat} (h : k.inferAt depth ctx t = .ok T) :
    T.nameless.IsNormal := by
  cases depth with
  | zero => cases h
  | succ depth =>
    obtain ⟨U, -, hT⟩ := Except.bind_eq_ok.1 h
    exact (normalize_spec hT).2

/-! ### Completeness -/

lemma upToDepth_withinDepth {α : Type} (o : Option α) :
    UpToDepth (withinDepth o) fun _ => True := by
  cases h : withinDepth o with
  | error f => exact .inl (by rw [withinDepth_eq_error h])
  | ok a => exact .ok trivial

lemma upToDepth_normalize (k : Kernel) (t : Term) : UpToDepth (k.normalize t) fun _ => True :=
  upToDepth_withinDepth _

lemma upToDepth_convertible {a b : Term} (h : a.nameless.Conv b.nameless) :
    UpToDepth (k.convertible a b) (· = true) := by
  cases hab : k.convertible a b with
  | error f => exact .inl (by rw [withinDepth_eq_error hab])
  | ok answer => exact .ok ((convertible_iff hab).2 h)

/-- An inference that refuses nothing that has a type. -/
def Complete (S : Signature) (infer : Inference) : Prop :=
  ∀ {ctx t T}, Context.Scoped ctx .strict → Context.Permits ctx .strict t →
    HasType .strict S (Context.scope ctx .strict) t.nameless T →
    UpToDepth (infer ctx t) fun U => U.nameless.Conv T ∧ U.nameless.IsNormal

/-- A type in normal form that is convertible with the universe is the universe. -/
lemma eq_sort_of_conv {U : Term} (h : U.nameless.Conv sort) (hnormal : U.nameless.IsNormal) :
    U = .sort := by
  have heq := h.eq_of_normal hnormal trivial
  cases U <;> simp_all [Term.nameless]

/-- A type in normal form that is convertible with a product is a product. -/
lemma eq_pi_of_conv {U : Term} {A B : Nameless} (h : U.nameless.Conv (pi A B))
    (hnormal : U.nameless.IsNormal) :
    ∃ x dom cod, U = .pi x dom cod ∧ dom.nameless.Conv A ∧
      (cod.nameless.rename (Ref.capture x)).Conv B := by
  obtain ⟨A', B', heq, hA, hB⟩ := inert_pi.reduces (h.symm.reduces_normal hnormal)
  cases U with
  | pi x dom cod =>
    simp only [Term.nameless, Nameless.pi.injEq] at heq
    obtain ⟨rfl, rfl⟩ := heq
    exact ⟨x, dom, cod, rfl, (Conv.of_reduces hA).symm, (Conv.of_reduces hB).symm⟩
  | _ => simp [Term.nameless] at heq

lemma Complete.expectType (hinfer : Complete S infer) (hctx : ctx.Scoped .strict)
    (hperm : ctx.Permits .strict t) (h : HasType .strict S (ctx.scope .strict) t.nameless sort) :
    UpToDepth (expectTypeBy infer ctx t) fun _ => True := by
  refine (hinfer hctx hperm h).bind fun U _ hU => ?_
  rw [eq_sort_of_conv hU.1 hU.2]
  exact .ok trivial

lemma Complete.check (hinfer : Complete S infer) (hctx : ctx.Scoped .strict)
    (hperm : ctx.Permits .strict t)
    (h : HasType .strict S (ctx.scope .strict) t.nameless ty.nameless) :
    UpToDepth (k.checkBy infer ctx t ty) fun _ => True := by
  refine (hinfer hctx hperm h).bind fun U _ hU => ?_
  refine (upToDepth_convertible hU.1).bind fun answer _ hanswer => ?_
  rw [if_pos hanswer]
  exact .ok trivial

/-- The body of an opened binder is not refused. -/
lemma Complete.body {x : Name} {body : Term} {B : Nameless} (hinfer : Complete S infer)
    (hctx : ctx.Scoped .strict) (hpty : ctx.Permits .strict ty)
    (hpbody : ∀ y, (body.nameless.rename (Ref.capture x)).Occurs (.free y) → y ∈ Binding.names ctx)
    (h : HasType .strict S ((ctx.scope .strict).push ty.nameless)
      (body.nameless.rename (Ref.capture x)) B) :
    UpToDepth (infer (⟨(openBinder ctx x body).1, ty⟩ :: ctx) (openBinder ctx x body).2)
      fun U => U.nameless.Conv (B.inst (ref (.free (openBinder ctx x body).1))) ∧
        U.nameless.IsNormal := by
  obtain ⟨hz, hopened⟩ := openBinder_spec ctx x body
  rw [← hopened] at h
  have hbody :
      HasType .strict S (Context.scope (⟨(openBinder ctx x body).1, ty⟩ :: ctx) .strict) _ _ :=
    Context.hasType_opened hz h
  rw [Context.inst_captured] at hbody
  exact hinfer (Context.scoped_cons hctx hpty)
    (Context.permits_opened hopened (fun _ => hpbody) nofun) hbody

/-- The normal form of an endpoint that computes to a tuple is a tuple. -/
lemma components_of_reduces {src src' : Term} {ss : List Nameless}
    (hsrc : k.normalize src = .ok src') (hs : Reduces src.nameless (tuple ss)) :
    ∃ parts, src'.components = some parts ∧ List.Forall₂ Reduces ss (parts.map Term.nameless) := by
  obtain ⟨hred, hnormal⟩ := normalize_spec hsrc
  obtain ⟨us, heq, hus⟩ := ((hs.confluent hred).reduces_normal hnormal).tuple
  obtain ⟨parts, hparts, rfl⟩ := Term.components_of_nameless heq
  exact ⟨parts, hparts, hus⟩

lemma exists_of_forall₂ {α β : Type} {R : α → β → Prop} {as : List α} {bs : List β}
    (h : List.Forall₂ R as bs) {a : α} (ha : a ∈ as) : ∃ b ∈ bs, R a b := by
  induction h with
  | nil => cases ha
  | cons hab _ ih =>
    rcases List.mem_cons.1 ha with rfl | ha
    · exact ⟨_, List.mem_cons_self, hab⟩
    · obtain ⟨b, hb, hR⟩ := ih ha
      exact ⟨b, List.mem_cons_of_mem _ hb, hR⟩

/-- The types inferred for typed components. -/
lemma Complete.types_conv {parts types : List Term} {Us : List Nameless} (hinfer : Complete S infer)
    (hctx : ctx.Scoped .strict) (hperm : ∀ s ∈ parts, ctx.Permits .strict s)
    (htyped : List.Forall₂ (HasType .strict S (ctx.scope .strict)) (parts.map Term.nameless) Us)
    (htypes : List.Forall₂ (fun s ty => infer ctx s = .ok ty) parts types) :
    List.Forall₂ Conv (types.map Term.nameless) Us := by
  induction htypes generalizing Us with
  | nil =>
    cases htyped
    exact .nil
  | cons hs _ ih =>
    cases htyped with
    | cons hU hUs =>
      have hconv := ((hinfer hctx (hperm _ List.mem_cons_self) hU).of_eq_ok hs).1
      exact .cons hconv (ih (fun s hs => hperm s (List.mem_cons_of_mem _ hs)) hUs)

lemma Complete.transport {head src dst proof value : Term} {U : Nameless}
    (hinfer : Complete S infer) (hctx : ctx.Scoped .strict)
    (hperm : ctx.Permits .strict (.transport head src dst proof value))
    (h : HasType .strict S (ctx.scope .strict)
      (Term.transport head src dst proof value).nameless U) :
    UpToDepth (k.typeOfTransport infer ctx head src dst proof value) fun _ => True := by
  have hpsrc : ctx.Permits .strict src := fun x hx => hperm x (.inr (.inl hx))
  have hpdst : ctx.Permits .strict dst := fun x hx => hperm x (.inr (.inr (.inl hx)))
  have hpproof : ctx.Permits .strict proof := fun x hx => hperm x (.inr (.inr (.inr (.inl hx))))
  have hpvalue : ctx.Permits .strict value := fun x hx => hperm x (.inr (.inr (.inr (.inr hx))))
  obtain ⟨ss, ds, A, hs, hd, hlen, hss, hdstTy, hproofTy, hvalueTy, -⟩ := h.transport_inv
  rw [typeOfTransport]
  refine (upToDepth_normalize k src).bind fun src' hsrc _ => ?_
  refine (upToDepth_normalize k dst).bind fun dst' hdst _ => ?_
  obtain ⟨srcParts, hsrcParts, hsred⟩ := components_of_reduces hsrc hs
  obtain ⟨dstParts, hdstParts, hdred⟩ := components_of_reduces hdst hd
  have hlenParts : srcParts.length = dstParts.length := by
    have hslen := hsred.length_eq
    have hdlen := hdred.length_eq
    rw [List.length_map] at hslen hdlen
    omega
  simp only [hsrcParts, hdstParts, hlenParts, if_true]
  -- the components keep their types when they are normalised
  have hpparts : ∀ s ∈ srcParts, ctx.Permits .strict s :=
    fun s => (hpsrc.reduces (normalize_spec hsrc).1).component hsrcParts
  have hredTuple := (hs.confluent (normalize_spec hsrc).1).reduces_normal (normalize_spec hsrc).2
  rw [Term.components_eq_some hsrcParts] at hredTuple
  obtain ⟨Us, hUs, hUsConv⟩ := (hss.reduces hredTuple (Discipline.admits_strict _)).tuple_inv
  have hmapM : UpToDepth (srcParts.mapM (infer ctx)) fun _ => True := by
    refine .mapM fun s hs => ?_
    obtain ⟨V, -, hV⟩ := exists_of_forall₂ hUs (List.mem_map_of_mem hs)
    exact (hinfer hctx (hpparts s hs) hV).imp fun _ _ _ => trivial
  refine hmapM.bind fun types htypes _ => ?_
  rw [Except.mapM_eq_ok] at htypes
  have htypesConv : Conv (tupleType types).nameless A := by
    rw [Term.nameless_tupleType]
    exact (Conv.tupleType (hinfer.types_conv hctx hpparts hUs htypes)).trans hUsConv
  refine (hinfer.check hctx hpdst (hdstTy.conv htypesConv.symm)).bind fun _ _ _ => ?_
  refine (hinfer.check hctx hpproof (hproofTy.conv (.eq htypesConv.symm .rfl .rfl))).bind
    fun _ _ _ => ?_
  have hvalueTy' : HasType .strict S (ctx.scope .strict) value.nameless
      (head.apps srcParts.reverse).nameless := by
    rw [Term.nameless_apps, List.map_reverse]
    exact hvalueTy.conv
      (.apps .rfl (List.forall₂_reverse_iff.2 (hsred.imp fun _ _ => Conv.of_reduces)))
  have hlenTypes := htypes.length_eq
  rw [familyAt_zipWith hlenTypes, familyAt_zipWith (hlenParts ▸ hlenTypes)]
  refine (upToDepth_normalize k (head.apps srcParts.reverse)).bind fun V hV _ => ?_
  refine (hinfer.check hctx hpvalue (hvalueTy'.conv (.of_reduces (normalize_spec hV).1))).bind
    fun _ _ _ => ?_
  exact upToDepth_normalize k (head.apps dstParts.reverse)

/-- No typed term is refused, if no typed part is. -/
lemma Complete.typeOf {hclosed : k.env.Closed} {U : Nameless}
    (hinfer : Complete (k.env.signature hclosed .strict) infer) (hctx : ctx.Scoped .strict)
    (hperm : ctx.Permits .strict t)
    (h : HasType .strict (k.env.signature hclosed .strict) (ctx.scope .strict) t.nameless U) :
    UpToDepth (k.typeOf infer ctx t) fun _ => True := by
  cases t with
  | var x =>
    cases h with
    | ref hA _ =>
      obtain ⟨ty, hty, -⟩ := Option.map_eq_some_iff.1 hA
      simp only [Kernel.typeOf, hty]
      exact .ok trivial
  | const c =>
    cases h with
    | const hU _ =>
      obtain ⟨ty, hty, -⟩ := Option.map_eq_some_iff.1 hU
      simp only [Kernel.typeOf, hty]
      exact .ok trivial
  | sort | unit | tt => exact .ok trivial
  | prod a b =>
    cases h with
    | prod ha hb _ =>
      refine (hinfer.expectType hctx (fun x hx => hperm x (.inl hx)) ha).bind fun _ _ _ => ?_
      exact (hinfer.expectType hctx (fun x hx => hperm x (.inr hx)) hb).bind fun _ _ _ =>
        .ok trivial
  | pair a b =>
    cases h with
    | pair ha hb _ =>
      refine (hinfer hctx (fun x hx => hperm x (.inl hx)) ha).bind fun _ _ _ => ?_
      exact (hinfer hctx (fun x hx => hperm x (.inr hx)) hb).bind fun _ _ _ => .ok trivial
  | app fn arg =>
    cases h with
    | app hf ha _ =>
      refine (hinfer hctx (fun x hx => hperm x (.inl hx)) hf).bind fun F _ hF => ?_
      obtain ⟨x, dom, cod, rfl, hdom, -⟩ := eq_pi_of_conv hF.1 hF.2
      exact (hinfer.check hctx (fun x hx => hperm x (.inr hx)) (ha.conv hdom.symm)).bind
        fun _ _ _ => .ok trivial
  | pi x ty body =>
    cases h with
    | pi hty hbody _ =>
      refine (hinfer.expectType hctx (fun x hx => hperm x (.inl hx)) hty).bind fun _ _ _ => ?_
      have hopened :
          UpToDepth (expectTypeBy infer (⟨(openBinder ctx x body).1, ty⟩ :: ctx)
          (openBinder ctx x body).2) fun _ => True := by
        refine (hinfer.body hctx (fun x hx => hperm x (.inl hx))
          (fun y hy => hperm y (.inr hy)) hbody).bind fun B _ hB => ?_
        rw [eq_sort_of_conv hB.1 hB.2]
        exact .ok trivial
      exact hopened.bind fun _ _ _ => .ok trivial
  | lam x ty body =>
    cases h with
    | lam hty hbody _ =>
      refine (hinfer.expectType hctx (fun x hx => hperm x (.inl hx)) hty).bind fun _ _ _ => ?_
      exact (hinfer.body hctx (fun x hx => hperm x (.inl hx))
        (fun y hy => hperm y (.inr hy)) hbody).bind fun B _ hB => .ok trivial
  | eq ty l r =>
    cases h with
    | eq hty hl hr _ =>
      refine (hinfer.expectType hctx (fun x hx => hperm x (.inl hx)) hty).bind fun _ _ _ => ?_
      refine (hinfer.check hctx (fun x hx => hperm x (.inr (.inl hx))) hl).bind fun _ _ _ => ?_
      exact (hinfer.check hctx (fun x hx => hperm x (.inr (.inr hx))) hr).bind fun _ _ _ =>
        .ok trivial
  | refl ty v =>
    obtain ⟨hty, hv⟩ := h.refl_inv
    refine (hinfer.expectType hctx (fun x hx => hperm x (.inl hx)) hty).bind fun _ _ _ => ?_
    exact (hinfer.check hctx (fun x hx => hperm x (.inr hx)) hv).bind fun _ _ _ => .ok trivial
  | transport head src dst proof value => exact hinfer.transport hctx hperm h

/-- **What has a type is not refused**: inference gives a convertible type, or runs out of depth. -/
theorem inferAt_complete (k : Kernel) (hclosed : k.env.Closed) (depth : Nat) :
    Complete (k.env.signature hclosed .strict) (k.inferAt depth) := by
  induction depth with
  | zero =>
    intro ctx t T _ _ _
    exact .inl rfl
  | succ depth ih =>
    intro ctx t T hctx hperm h
    have hresult : UpToDepth (k.inferAt (depth + 1) ctx t) fun _ => True :=
      (ih.typeOf hctx hperm h).bind fun U _ _ => upToDepth_normalize k U
    refine hresult.imp fun U hU _ => ⟨?_, ?_⟩
    · -- the type that is given is a type of the term, and there is only one
      exact (inferAt_sound k hclosed .strict (depth + 1) hctx hperm hU).unique h
    · rw [inferAt, Except.bind_eq_ok] at hU
      obtain ⟨V, -, hV⟩ := hU
      exact (normalize_spec hV).2

end Kernel

end UniqueEvidence
