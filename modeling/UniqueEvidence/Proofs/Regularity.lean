/-
Inferred types are types.

* `Kernel.checkHead`: the head of a transport is a family over the types of the components.
  Inference does not ask for this: it puts the components of either endpoint into the head and
  computes, so it may give a type that is none;
* `Kernel.HeadsChecked`: the heads of the transports from which a term has its type pass this check;
* `Kernel.Regular`, `Kernel.regular_inferAt`: **a type that inference gives is a type**, if the
  heads pass;
* `Kernel.isSort_of_infer`: the same, by a second inference.
-/
import UniqueEvidence.Proofs.Scoping

namespace UniqueEvidence

open Nameless

/-- The types of a context are types in it. -/
def Context.Regular (S : Signature) (ctx : Context) : Prop :=
  ∀ b ∈ ctx, HasType .strict S (ctx.scope .strict) b.ty.nameless sort

/-- A context with one more type. -/
lemma Context.Regular.cons {S : Signature} {ctx : Context} (h : ctx.Regular S) {z : Name}
    (hz : z ∉ Binding.names ctx) {ty : Term}
    (hty : HasType .strict S (ctx.scope .strict) ty.nameless sort) :
    Regular S (⟨z, ty⟩ :: ctx) := by
  have hweaken : ∀ {U : Term}, HasType .strict S (ctx.scope .strict) U.nameless sort →
      HasType .strict S (scope (⟨z, ty⟩ :: ctx) .strict) U.nameless sort := by
    intro U hU
    have hopened : HasType .strict S (scope (⟨z, ty⟩ :: ctx) .strict) _ _ :=
      hasType_opened hz (hU.shift _)
    rwa [inst_shift] at hopened
  intro b hb
  rcases List.mem_cons.1 hb with rfl | hb
  · exact hweaken hty
  · exact hweaken (h b hb)

namespace Kernel

/-! ### Heads of transports -/

/-- The head of a transport is a family over the types of the source's components, the last of which
it takes first. -/
def checkHead (k : Kernel) (ctx : Context) (head src : Term) : Except Fault Unit := do
  match (← k.normalize src).components with
  | some parts =>
    let types ← parts.mapM (k.infer ctx)
    k.check ctx head (.pis (freshBindings types.reverse (Binding.names ctx) "i") .sort)
  | none => refuse .unevenTransport

lemma checkHead_eq_ok {k : Kernel} {ctx : Context} {head src : Term}
    (h : k.checkHead ctx head src = .ok ()) :
    ∃ src' parts types, k.normalize src = .ok src' ∧ src'.components = some parts ∧
      List.Forall₂ (fun s ty => k.infer ctx s = .ok ty) parts types ∧
      k.check ctx head
        (.pis (freshBindings types.reverse (Binding.names ctx) "i") .sort) = .ok () := by
  simp only [checkHead, Except.bind_eq_ok] at h
  obtain ⟨src', hsrc, h⟩ := h
  split at h
  case h_1 parts hparts =>
    obtain ⟨types, htypes, h⟩ := Except.bind_eq_ok.1 h
    exact ⟨src', parts, types, hsrc, hparts, Except.mapM_eq_ok.1 htypes, h⟩
  case h_2 => cases h

/-- Each transport from which a term has its type passes the check of its head.  These are the term
itself, the components of a pair, the function of an application and the body of a function. -/
def HeadsChecked (k : Kernel) (ctx : Context) : Term → Prop
  | .pair a b => HeadsChecked k ctx a ∧ HeadsChecked k ctx b
  | .app fn _ => HeadsChecked k ctx fn
  | .lam x ty body =>
    HeadsChecked k (⟨(openBinder ctx x body).1, ty⟩ :: ctx) (openBinder ctx x body).2
  | .transport head src _ _ _ => k.checkHead ctx head src = .ok ()
  | _ => True
termination_by t => t.size
decreasing_by
  all_goals simp only [Term.size]
  · omega
  · omega
  · omega
  · have hsize : (openBinder ctx x body).2.size = body.size := by
      rw [openBinder]
      split <;> simp
    omega

/-! ### Regularity -/

variable {k : Kernel} {S : Signature} {infer : Inference} {ctx : Context} {t T : Term}

/-- A family over independent types, at arguments of these types. -/
lemma hasType_apps_freshBindings {Γ : Scope} {head : Nameless} {types : List Term}
    {as : List Nameless} {avoid : List Name} {base : Name}
    (hhead : HasType .strict S Γ head (Term.pis (freshBindings types avoid base) .sort).nameless)
    (hmentions : ∀ ty ∈ types, ty.freeVars ⊆ avoid)
    (has : List.Forall₂ (HasType .strict S Γ) as (types.map Term.nameless)) :
    HasType .strict S Γ (head.apps as) sort := by
  have hargs : List.Forall₂ (fun (b : Binding) a => HasType .strict S Γ a b.ty.nameless)
      (freshBindings types avoid base) as := by
    rw [List.forall₂_map_right_iff] at has
    rw [← types_freshBindings types avoid base, List.forall₂_map_right_iff] at has
    exact has.flip
  have htyped : TypedArgs .strict S Γ ref (freshBindings types avoid base) as := by
    refine .of_independent hargs (fun _ _ _ _ => rfl) fun b hb x hx hmem => ?_
    exact not_mem_of_mem_freshBindings hmem (hmentions b.ty (mem_of_zipWith hb).2 hx)
  have hspine := htyped.spine .sort
  rw [subst_ref] at hspine
  exact hspine.hasType hhead

/-- An inference that gives types in regular contexts, if the heads of transports pass their
check. -/
def Regular (k : Kernel) (S : Signature) (infer : Inference) : Prop :=
  ∀ {ctx t T}, Context.Scoped ctx .strict → Context.Regular S ctx → Context.Permits ctx .strict t →
    k.HeadsChecked ctx t →
    infer ctx t = .ok T → HasType .strict S (Context.scope ctx .strict) T.nameless sort

/-- The type of a transport whose head passes the check is a type. -/
lemma hasType_of_typeOfTransport (hclosed : k.env.Closed) {head src dst proof value : Term}
    (hsound : Sound .strict (k.env.signature hclosed .strict) infer) (hctx : ctx.Scoped .strict)
    (hperm : ctx.Permits .strict (.transport head src dst proof value))
    (hhead : k.checkHead ctx head src = .ok ())
    (h : k.typeOfTransport infer ctx head src dst proof value = .ok T) :
    HasType .strict (k.env.signature hclosed .strict) (ctx.scope .strict) T.nameless sort := by
  obtain ⟨src', dst', ss, ds, types, -, hsrc, hdst, hss, hds, hlen, htypes, hcdst, -, -, -, hT⟩ :=
    typeOfTransport_eq_ok h
  obtain ⟨src'', ss', types', hsrc', hss', htypes', hcheck⟩ := checkHead_eq_ok hhead
  cases hsrc.symm.trans hsrc'
  cases hss.symm.trans hss'
  have hinfer : Sound .strict (k.env.signature hclosed .strict) k.infer :=
    inferAt_sound k hclosed .strict k.depth
  have hpsrc : ctx.Permits .strict src := fun x hx => hperm x (.inr (.inl hx))
  have hpdst : ctx.Permits .strict dst := fun x hx => hperm x (.inr (.inr (.inl hx)))
  have hpss : ∀ s ∈ ss, ctx.Permits .strict s :=
    fun s => (hpsrc.reduces (normalize_spec hsrc).1).component hss
  -- both inferences find convertible types for the components of the source
  have hparts : ∀ {infer : Inference} {types : List Term},
      Sound .strict (k.env.signature hclosed .strict) infer →
      List.Forall₂ (fun s ty => infer ctx s = .ok ty) ss types →
      HasType .strict (k.env.signature hclosed .strict) (ctx.scope .strict)
        (tuple (ss.map Term.nameless)) (Nameless.tupleType (types.map Term.nameless)) := by
    intro infer types hsound htypes
    refine hasType_tuple ?_
    rw [List.forall₂_map_left_iff, List.forall₂_map_right_iff]
    exact ((List.forall₂_and_left _ _).2 ⟨hpss, htypes⟩).imp fun s ty hs => hsound hctx hs.1 hs.2
  have hconv := (hparts hsound htypes).unique (hparts hinfer htypes')
  -- so the components of the destination have the types over which the head is a family
  have hdstTy := hsound.check hctx hpdst hcdst
  rw [Discipline.view_tupleType] at hdstTy
  have hds' := (hdstTy.conv hconv).reduces (normalize_spec hdst).1 (Discipline.admits_strict _)
  rw [Term.components_eq_some hds] at hds'
  have hcomponents := hds'.components_of_tuple (by simpa [hlen] using htypes'.length_eq)
  have hheadTy := hinfer.check hctx (fun x hx => hperm x (.inl hx)) hcheck
  have hmentions : ∀ ty ∈ types'.reverse, ty.freeVars ⊆ Binding.names ctx := by
    intro ty hty
    obtain ⟨s, hs, hinferred⟩ := exists_of_forall₂ htypes'.flip (List.mem_reverse.1 hty)
    exact freeVars_of_inferAt hclosed k.depth
      (fun b hb x hx => hctx b hb x (Term.occurs_nameless.2 hx))
      (fun x hx => hpss s hs x (Term.occurs_nameless.2 hx)) hinferred
  have hreversed := List.forall₂_reverse_iff.2 hcomponents
  rw [← List.map_reverse, ← List.map_reverse] at hreversed
  have hfamily := hasType_apps_freshBindings hheadTy hmentions hreversed
  rw [Discipline.view, ← Term.nameless_apps] at hfamily
  exact hfamily.reduces (normalize_spec hT).1 (Discipline.admits_strict _)

/-- The type computed for a term is a type, if those of its parts are. -/
lemma Regular.typeOf (henv : k.env.Typed)
    (hinfer : k.Regular (k.env.signature henv.closed .strict) infer)
    (hsound : Sound .strict (k.env.signature henv.closed .strict) infer) (hctx : ctx.Scoped .strict)
    (hregular : ctx.Regular (k.env.signature henv.closed .strict)) (hperm : ctx.Permits .strict t)
    (hheads : k.HeadsChecked ctx t) (h : k.typeOf infer ctx t = .ok T) :
    HasType .strict (k.env.signature henv.closed .strict) (ctx.scope .strict) T.nameless sort := by
  cases t with
  | var x =>
    rw [Kernel.typeOf] at h
    split at h
    · rename_i ty hty
      obtain rfl := Except.ok.inj h
      exact hregular _ (Context.mem_of_lookup? hty)
    · cases h
  | const c =>
    rw [Kernel.typeOf] at h
    split at h
    · rename_i ty hty
      obtain rfl := Except.ok.inj h
      exact (henv.types c ty hty).of_conv_scope fun r _ hr =>
        absurd hr (Term.closed_nameless (henv.closed c ty hty) r)
    · cases h
  | sort | unit =>
    obtain rfl := Except.ok.inj h
    exact .sort rfl .rfl
  | tt =>
    obtain rfl := Except.ok.inj h
    exact .unit .rfl
  | prod a b =>
    simp only [Kernel.typeOf, Except.bind_eq_ok] at h
    obtain ⟨-, -, -, -, h⟩ := h
    obtain rfl := Except.ok.inj h
    exact .sort rfl .rfl
  | pair a b =>
    simp only [Kernel.typeOf, Except.bind_eq_ok] at h
    obtain ⟨A, hA, B, hB, h⟩ := h
    obtain rfl := Except.ok.inj h
    rw [HeadsChecked] at hheads
    exact .prod (hinfer hctx hregular (fun x hx => hperm x (.inl hx)) hheads.1 hA)
      (hinfer hctx hregular (fun x hx => hperm x (.inr hx)) hheads.2 hB) .rfl
  | app fn arg =>
    simp only [Kernel.typeOf, Except.bind_eq_ok] at h
    obtain ⟨F, hF, h⟩ := h
    split at h
    · rename_i x dom cod
      obtain ⟨⟨⟩, harg, h⟩ := Except.bind_eq_ok.1 h
      obtain rfl := Except.ok.inj h
      rw [HeadsChecked] at hheads
      have harg' := hsound.check hctx (fun x hx => hperm x (.inr hx)) harg
      -- the function's type is a type, and so is its codomain at the argument
      cases hinfer hctx hregular (fun x hx => hperm x (.inl hx)) hheads hF with
      | pi _ hcod =>
        rw [Term.nameless_contract]
        exact hcod.inst harg' (Discipline.admits_strict _)
    · cases h
  | pi x ty body =>
    simp only [Kernel.typeOf, Except.bind_eq_ok] at h
    obtain ⟨-, -, -, -, h⟩ := h
    obtain rfl := Except.ok.inj h
    exact .sort rfl .rfl
  | lam x ty body =>
    simp only [Kernel.typeOf, Except.bind_eq_ok] at h
    obtain ⟨⟨⟩, hty, B, hB, h⟩ := h
    obtain rfl := Except.ok.inj h
    rw [HeadsChecked] at hheads
    obtain ⟨hz, hopened⟩ := openBinder_spec ctx x body
    have hpty : ctx.Permits .strict ty := fun x hx => hperm x (.inl hx)
    have hty' := hsound.expectType hctx hpty hty
    have hpbody : Context.Permits (⟨(openBinder ctx x body).1, ty⟩ :: ctx) .strict
        (openBinder ctx x body).2 :=
      Context.permits_opened hopened (fun _ y hy => hperm y (.inr hy)) (by simp)
    have hB' := hinfer (Context.scoped_cons hctx hpty) (hregular.cons hz hty') hpbody hheads hB
    exact .pi hty' (Context.hasType_captured hz hctx hpty hB') .rfl
  | eq ty l r =>
    simp only [Kernel.typeOf, Except.bind_eq_ok] at h
    obtain ⟨-, -, -, -, -, -, h⟩ := h
    obtain rfl := Except.ok.inj h
    exact .sort rfl .rfl
  | refl ty v =>
    simp only [Kernel.typeOf, Except.bind_eq_ok] at h
    obtain ⟨⟨⟩, hty, ⟨⟩, hv, h⟩ := h
    obtain rfl := Except.ok.inj h
    have hv' := hsound.check hctx (fun x hx => hperm x (.inr hx)) hv
    exact .eq (hsound.expectType hctx (fun x hx => hperm x (.inl hx)) hty) hv' hv' .rfl
  | transport head src dst proof value =>
    rw [HeadsChecked] at hheads
    exact hasType_of_typeOfTransport henv.closed hsound hctx hperm hheads h

/-- **A type that inference gives is a type**, if the heads of transports pass their check. -/
theorem regular_inferAt (henv : k.env.Typed) (depth : Nat) :
    k.Regular (k.env.signature henv.closed .strict) (k.inferAt depth) := by
  induction depth with
  | zero =>
    intro ctx t T _ _ _ _ h
    cases h
  | succ depth ih =>
    intro ctx t T hctx hregular hperm hheads h
    rw [inferAt, Except.bind_eq_ok] at h
    obtain ⟨U, hU, hT⟩ := h
    exact (ih.typeOf henv (inferAt_sound k henv.closed .strict depth) hctx hregular
      hperm hheads hU).reduces (normalize_spec hT).1 (Discipline.admits_strict _)

/-- **What is inferred is a type**, over declarations that are well formed and a context of types
over the context, if the heads of transports pass their check: whatever the depth, a second
inference gives the universe, or runs out. -/
theorem isSort_of_infer (k : Kernel) (hk : k.WellFormed) (ctx : Context)
    (hctx : ∀ b ∈ ctx, IsSort (k.infer ctx b.ty))
    (hmentions : ∀ b ∈ ctx, b.ty.freeVars ⊆ Binding.names ctx) (t : Term)
    (ht : t.freeVars ⊆ Binding.names ctx) (hheads : k.HeadsChecked ctx t) (T : Term)
    (h : k.infer ctx t = .ok T) (depth : Nat) : IsSortUpToDepth ({ k with depth }.infer ctx T) := by
  have henv := hk.typed
  have hscoped : ctx.Scoped .strict := fun b hb x hx => hmentions b hb (Term.occurs_nameless.1 hx)
  have hregular : ctx.Regular (k.env.signature henv.closed .strict) := fun b hb =>
    inferAt_sound k henv.closed .strict k.depth hscoped
      (fun x hx => hmentions b hb (Term.occurs_nameless.1 hx)) (hctx b hb)
  have hT := regular_inferAt henv k.depth hscoped hregular
    (fun x hx => ht (Term.occurs_nameless.1 hx)) hheads h
  exact isSortUpToDepth_of_hasType (k := { k with depth }) henv.closed hscoped
    (freeVars_of_inferAt henv.closed k.depth hmentions ht h) hT

end Kernel

namespace Sample

/-- Trees `x` and `y`, a proof that they are equal, and evidence of `x`. -/
def endpoints : Context :=
  [⟨"x", .const "shape"⟩, ⟨"y", .const "shape"⟩,
    ⟨"p", .eq (.prod (.const "shape") .unit) (.pair (.var "x") .tt) (.pair (.var "y") .tt)⟩,
    ⟨"h", .app (.const "S") (.var "x")⟩]

/-- A value over `x`, carried to `y`. -/
def carry (family value : Term) : Term :=
  .transport (.lam "i" (.const "shape") family) (.pair (.var "x") .tt)
    (.pair (.var "y") .tt) (.var "p") value

end Sample

/-- The function that carries `h` to `y`, paired with its argument. -/
theorem Kernel.isSort_of_infer_sample :
    (Sample.kernel .default).infer Sample.endpoints (.lam "z" (.const "shape")
      (Sample.carry (.prod (.app (.const "S") (.var "i")) (.const "shape"))
        (.pair (.var "h") (.var "z")))) =
      .ok (.pi "z" (.const "shape") (.prod (.app (.const "S") (.var "y")) (.const "shape"))) ∧
    IsSortUpToDepth ((Sample.kernel .default).infer Sample.endpoints
      (.pi "z" (.const "shape") (.prod (.app (.const "S") (.var "y")) (.const "shape")))) := by
  have hformed : (Sample.kernel .default).WellFormed :=
    ⟨by decide +kernel, by decide +kernel, by decide +kernel⟩
  have hinfer : (Sample.kernel .default).infer Sample.endpoints (.lam "z" (.const "shape")
      (Sample.carry (.prod (.app (.const "S") (.var "i")) (.const "shape"))
        (.pair (.var "h") (.var "z")))) =
      .ok (.pi "z" (.const "shape") (.prod (.app (.const "S") (.var "y")) (.const "shape"))) :=
    Except.toOption_eq_some.1 (by decide +kernel)
  have hheads : (Sample.kernel .default).HeadsChecked Sample.endpoints (.lam "z" (.const "shape")
      (Sample.carry (.prod (.app (.const "S") (.var "i")) (.const "shape"))
        (.pair (.var "h") (.var "z")))) := by
    rw [HeadsChecked, openBinder, if_neg (by decide), Sample.carry, HeadsChecked]
    exact Except.toOption_eq_some.1 (by decide +kernel)
  exact ⟨hinfer,
    isSort_of_infer (Sample.kernel .default) hformed Sample.endpoints (by decide +kernel)
    (by decide) _ (by decide) hheads _ hinfer 40⟩

/-- The value `refl h` of the type `h = h` over `S x` is carried to `h = h` over `S y`, which `h`
does not have. -/
example : ((Sample.kernel .default).infer Sample.endpoints
      (Sample.carry (.eq (.app (.const "S") (.var "i")) (.var "h") (.var "h"))
        (.refl (.app (.const "S") (.var "x")) (.var "h")))).toOption =
      some (.eq (.app (.const "S") (.var "y")) (.var "h") (.var "h")) ∧
    ¬ Kernel.IsSort ((Sample.kernel .default).infer Sample.endpoints
      (.eq (.app (.const "S") (.var "y")) (.var "h") (.var "h"))) := by
  decide +kernel

end UniqueEvidence
