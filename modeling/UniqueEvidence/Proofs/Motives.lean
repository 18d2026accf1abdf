/-
The motive of the case split, and its type.

* `conv_lams_apps`, `hasType_lams`: functions of several arguments, applied and typed;
* `Motive.meaning`: what the motive says at any indices and evidence, without a choice of names;
* `Motive.IsOver.reduces_statement`, `Motive.IsOver.reduces_target`: the motive as it is built is a
  reduct of this;
* `Motive.IsOver.conv_curried`: **the motive as a function, applied to indices and evidence**, is
  convertible with it;
* `Motive.Typed`: the head of the motive is a family over the types of the indices, of which the
  left side is evidence; `Motive.Typed.meaning`: then the motive gives types;
* `Motive.Typed.curried`: **the motive as a function takes indices of their types and evidence at
  these, and gives a type**.
-/
import UniqueEvidence.Proofs.CasePreservation
import UniqueEvidence.Proofs.ScopedRuns

namespace UniqueEvidence

open Nameless

/-! ### Functions of several arguments -/

/-- A function of several arguments, applied to as many. -/
lemma conv_lams_apps {bs : List Binding} {us : List Nameless} (hlen : us.length = bs.length)
    (body : Term) (σ : Ref → Nameless) :
    Conv (((Term.lams bs body).nameless.subst σ).apps us)
      (body.nameless.subst (assignAll σ bs us)) := by
  induction bs generalizing us σ with
  | nil =>
    obtain rfl := List.length_eq_zero_iff.1 hlen
    exact .rfl
  | cons b bs ih =>
    cases us with
    | nil => cases hlen
    | cons u us =>
      have hbeta := Conv.beta (b.ty.nameless.subst σ)
        (((Term.lams bs body).nameless.rename (Ref.capture b.name)).subst (up σ)) u
      rw [inst_subst_captured] at hbeta
      refine (Conv.apps hbeta ?_).trans (ih (by simpa using hlen) (assign σ b.name u))
      rw [List.forall₂_same]
      exact fun _ _ => .rfl

/-- **Functions over a telescope** have the products over it as types. -/
theorem hasType_lams {S : Signature} {hyps bs : List Binding} {body B : Term}
    (h : Telescope S (hyps ++ bs))
    (hbody : HasType .strict S (Context.scope (hyps ++ bs) .strict) body.nameless B.nameless) :
    HasType .strict S (Context.scope hyps .strict) (Term.lams bs body).nameless
      (Term.pis bs B).nameless := by
  induction bs generalizing hyps with
  | nil =>
    rw [List.append_nil] at hbody
    exact hbody
  | cons b bs ih =>
    have hassoc : hyps ++ [b] ++ bs = hyps ++ b :: bs := by simp
    have hrest := ih (hassoc ▸ h) (hassoc ▸ hbody)
    have hdistinct := h.distinct
    rw [Binding.names, List.map_append, List.map_cons, List.nodup_append] at hdistinct
    have hnew : b.name ∉ Binding.names hyps :=
      fun hmem => hdistinct.2.2 _ hmem _ List.mem_cons_self rfl
    have hmentions : ∀ x ∈ b.ty.freeVars, x ∈ Binding.names hyps := fun x hx =>
      (h.ordered.of_split rfl x hx).resolve_right List.not_mem_nil
    -- the bindings before one are typed without it
    have hscoped : Context.Scoped hyps .strict := by
      intro b' hb' x hx
      obtain ⟨pre, post, rfl⟩ := List.append_of_mem hb'
      have hsplit : pre ++ b' :: post ++ b :: bs = pre ++ b' :: (post ++ b :: bs) := by simp
      have hpre := h.ordered.of_split hsplit x (Term.occurs_nameless.1 hx)
      simp only [Binding.names, List.map_append, List.mem_append]
      exact .inl (hpre.resolve_right List.not_mem_nil)
    have hty : HasType .strict S (Context.scope hyps .strict) b.ty.nameless sort := by
      refine Context.hasType_of_mem (h.typed b (by simp)) hdistinct.1 fun b' hb' hocc => ?_
      obtain ⟨b'', hb'', hname⟩ := List.mem_map.1 (hmentions _ (Term.occurs_nameless.1 hocc))
      exact h.eq_of_name (List.mem_append_left _ hb'') hb' hname ▸ hb''
    have hopened : HasType .strict S (Context.scope (⟨b.name, b.ty⟩ :: hyps) .strict)
        (Term.lams bs body).nameless (Term.pis bs B).nameless := by
      refine Context.hasType_of_mem hrest (List.nodup_cons.2 ⟨hnew, hdistinct.1⟩) fun b' hb' _ => ?_
      rcases List.mem_append.1 hb' with hb' | hb'
      · exact List.mem_cons_of_mem _ hb'
      · exact List.mem_singleton.1 hb' ▸ List.mem_cons_self
    have hcaptured :=
      Context.hasType_captured hnew hscoped
        (fun y hy => hmentions y (Term.occurs_nameless.1 hy)) hopened
    exact .lam hty hcaptured .rfl

/-- A term without the names that are assigned is left alone. -/
lemma Term.nameless_subst_of_fixed {t : Term} {σ : Ref → Nameless}
    (h : ∀ x ∈ t.freeVars, σ (.free x) = ref (.free x)) : t.nameless.subst σ = t.nameless := by
  conv_rhs => rw [← subst_ref t.nameless]
  refine subst_congr ?_
  rintro (n | x) hocc
  · exact absurd hocc (not_occurs_bound t n)
  · exact h x (occurs_nameless.1 hocc)

lemma Tuple.nameless_toTerm (t : Tuple) :
    (Tuple.toTerm t).nameless = tuple ((Tuple.values t).map Term.nameless) := by
  induction t with
  | nil => rfl
  | cons s t ih => exact congrArg (pair s.value.nameless) ih

lemma hasType_tupleType {m : Discipline} {S : Signature} {Γ : Scope} {Ts : List Nameless}
    (h : ∀ T ∈ Ts, HasType m S Γ T sort) : HasType m S Γ (Nameless.tupleType Ts) sort := by
  induction Ts with
  | nil => exact .unit .rfl
  | cons T Ts ih =>
    exact .prod (h T List.mem_cons_self) (ih fun T' hT' => h T' (List.mem_cons_of_mem _ hT')) .rfl

/-- A family over closed types, at arguments of these. -/
lemma HasType.arrows_apps {S : Signature} {Γ : Scope} {types : List Term} {cod : Term}
    {H : Nameless} {us : List Nameless} (h : HasType .strict S Γ H (Term.arrows types cod).nameless)
    (hclosed : ∀ ty ∈ types, ty.freeVars = []) (hcod : cod.freeVars = [])
    (hus : List.Forall₂ (HasType .strict S Γ) us (types.map Term.nameless)) :
    HasType .strict S Γ (H.apps us) cod.nameless := by
  rw [arrows_eq_pis] at h
  have hargs : TypedArgs .strict S Γ Nameless.ref (types.map (Binding.mk Term.anonymous)) us := by
    refine .of_independent ?_ (fun _ _ _ _ => rfl) fun b hb x hx => ?_
    · rw [List.forall₂_map_left_iff]
      rw [List.forall₂_map_right_iff] at hus
      exact hus.flip
    · obtain ⟨ty, hty, rfl⟩ := List.mem_map.1 hb
      rw [hclosed ty hty] at hx
      cases hx
  have hspine := hargs.spine cod
  rw [subst_ref, subst_of_closed (closed_view hcod)] at hspine
  exact hspine.hasType h

namespace Motive

variable {m : Motive} {S : Signature} {Γ : Scope} {us : List Nameless} {v : Nameless} {depth : Nat}
  {names : List Name}

/-! ### What the motive says -/

/-- The indices of the left side, last one first. -/
def sources (m : Motive) : List Nameless :=
  (Tuple.values m.reversed).map Term.nameless

/-- The premise of the motive at indices, last one first. -/
def premise (m : Motive) (us : List Nameless) : Nameless :=
  eq m.tupleTy.nameless (tuple m.sources) (tuple us)

/-- The conclusion of the motive at indices and evidence, below its premise. -/
def conclusion (m : Motive) (us : List Nameless) (v : Nameless) : Nameless :=
  eq (m.head.nameless.apps us.reverse).shift
    (.transport m.head.nameless.shift (tuple m.sources).shift (tuple us).shift (ref .top)
      m.lhs.nameless.shift) v.shift

/-- What the motive says at indices, last one first, and evidence. -/
def meaning (m : Motive) (us : List Nameless) (v : Nameless) : Nameless :=
  pi (m.premise us) (m.conclusion us v)

/-- The conclusion for a proof of the premise. -/
lemma conclusion_inst (m : Motive) (us : List Nameless) (v p : Nameless) :
    (m.conclusion us v).inst p =
    eq (m.head.nameless.apps us.reverse)
      (.transport m.head.nameless (tuple m.sources) (tuple us) p m.lhs.nameless) v := by
  have hshift : ∀ t : Nameless, t.shift.subst (Ref.extend p ref) = t := fun t => inst_shift t p
  simp only [conclusion, inst, Nameless.subst, hshift, Ref.extend_top]

/-- Substitution for other names than those of the motive reaches the indices and the evidence
only. -/
lemma IsOver.subst_meaning (h : m.IsOver names) {σ : Ref → Nameless}
    (hσ : ∀ x ∈ names, σ (.free x) = ref (.free x)) (us : List Nameless) (v : Nameless) :
    (m.meaning us v).subst σ = m.meaning (us.map (subst σ)) (v.subst σ) := by
  have hfixed : ∀ {t : Term}, t.freeVars ⊆ names → t.nameless.subst σ = t.nameless :=
    fun ht => Term.nameless_subst_of_fixed fun x hx => hσ x (ht hx)
  have hsources : m.sources.map (subst σ) = m.sources := by
    rw [sources, List.map_map]
    refine List.map_congr_left fun t ht => ?_
    obtain ⟨s, hs, rfl⟩ := List.mem_map.1 ht
    exact hfixed (h.values s hs)
  simp only [meaning, premise, conclusion, Nameless.subst, subst_shift, subst_apps, subst_tuple,
    List.map_reverse, hfixed h.head, hfixed h.lhs, hfixed h.tupleTy, hsources, up_top]

/-- **The motive at indices and evidence** is a reduct of what it says there: the type of its
equation is computed. -/
lemma IsOver.reduces_statement (h : m.IsOver names) (havoid : names ⊆ m.avoid) {ainds : Tuple}
    {evidence t : Term} (ht : m.statement depth ainds evidence = .ok t) :
    Reduces (m.meaning ((Tuple.values ainds).map Term.nameless) evidence.nameless) t.nameless := by
  rw [Motive.statement, Except.bind_eq_ok] at ht
  obtain ⟨family, hfamily, ht⟩ := ht
  obtain rfl := Except.ok.inj ht
  set pf := fresh "pf" (m.avoid ++ evidence.freeVars ++ (Tuple.toTerm ainds).freeVars)
  have hpf : pf ∉ m.avoid ++ evidence.freeVars ++ (Tuple.toTerm ainds).freeVars :=
    fresh_not_mem "pf" _
  simp only [List.mem_append, not_or] at hpf
  have hfresh : ∀ {t : Term}, t.freeVars ⊆ names → ¬ t.nameless.Occurs (.free pf) :=
    fun ht hocc => hpf.1.1 (havoid (ht (Term.occurs_nameless.1 hocc)))
  have hred : Reduces (m.head.nameless.apps ((Tuple.values ainds).map Term.nameless).reverse)
      family.nameless := by
    have hspec := (Term.normalize_spec (Kernel.withinDepth_eq_ok.1 hfamily)).1
    rwa [Term.applyTuple, Term.nameless_apps, Tuple.values, List.map_reverse, List.map_reverse,
      ← Tuple.values] at hspec
  have hhead := hfresh h.head
  -- the family is one at the indices, so it does not mention the new name either
  have hfamily' : ¬ family.nameless.Occurs (.free pf) := by
    intro hocc
    have hocc' := hred.occurs hocc
    rw [← List.map_reverse, ← Term.nameless_apps, Term.occurs_nameless, mem_freeVars_apps] at hocc'
    rcases hocc' with hx | ⟨w, hw, hx⟩
    · exact hhead (Term.occurs_nameless.2 hx)
    · obtain ⟨s, hs, rfl⟩ := List.mem_map.1 (List.mem_reverse.1 hw)
      exact hpf.2 (mem_freeVars_toTerm.2 ⟨s, hs, hx⟩)
  have hainds : ¬ (Tuple.toTerm ainds).nameless.Occurs (.free pf) :=
    fun hocc => hpf.2 (Term.occurs_nameless.1 hocc)
  have hevidence : ¬ evidence.nameless.Occurs (.free pf) :=
    fun hocc => hpf.1.2 (Term.occurs_nameless.1 hocc)
  have hshape : (Term.pi pf (.eq m.tupleTy m.reversed.toTerm ainds.toTerm)
      (.eq family (m.transport ainds (.var pf)) evidence)).nameless =
      pi (eq m.tupleTy.nameless (Tuple.toTerm m.reversed).nameless (Tuple.toTerm ainds).nameless)
        (eq family.nameless.shift
          (.transport m.head.nameless.shift (Tuple.toTerm m.reversed).nameless.shift
          (Tuple.toTerm ainds).nameless.shift (ref .top) m.lhs.nameless.shift)
            evidence.nameless.shift) := by
    simp only [Term.nameless, Motive.transport, Nameless.rename, rename_capture hfamily',
      rename_capture hhead, rename_capture (hfresh (toTerm_over h.values)), rename_capture hainds,
      rename_capture (hfresh h.lhs), rename_capture hevidence, Ref.capture_self]
  rw [hshape, meaning, premise, conclusion, Tuple.nameless_toTerm, Tuple.nameless_toTerm]
  exact .map₂ .pi .refl (.map₃ .eq (hred.map fun hp => hp.rename _) .refl .refl)

/-- The motive at indices in natural order, computed. -/
lemma IsOver.reduces_target (h : m.IsOver names) (havoid : names ⊆ m.avoid) {indices : Tuple}
    {evidence t : Term} (ht : m.target depth indices evidence = .ok t) :
    Reduces (m.meaning ((Tuple.values indices).map Term.nameless).reverse evidence.nameless)
      t.nameless ∧
      t.nameless.IsNormal := by
  obtain ⟨statement, hstatement, hnormal⟩ := Except.bind_eq_ok.1 ht
  obtain ⟨hred, hisNormal⟩ := Term.normalize_spec (Kernel.withinDepth_eq_ok.1 hnormal)
  have hmeaning := h.reduces_statement havoid hstatement
  rw [Tuple.values, List.map_reverse, List.map_reverse] at hmeaning
  exact ⟨hmeaning.trans hred, hisNormal⟩

/-- The motive is built, as far as the depth goes. -/
lemma upToDepth_statement (m : Motive) (depth : Nat) (ainds : Tuple) (evidence : Term) :
    UpToDepth (m.statement depth ainds evidence) fun _ => True :=
  (Kernel.upToDepth_withinDepth _).bind fun _ _ _ => .ok trivial

lemma upToDepth_target (m : Motive) (depth : Nat) (indices : Tuple) (evidence : Term) :
    UpToDepth (m.target depth indices evidence) fun _ => True :=
  (m.upToDepth_statement depth indices.reverse evidence).bind fun _ _ _ =>
    Kernel.upToDepth_withinDepth _

lemma upToDepth_curried (m : Motive) (depth : Nat) : UpToDepth (m.curried depth) fun _ => True :=
  (m.upToDepth_statement depth _ _).bind fun _ _ _ => .ok trivial

/-! ### The motive as a function -/

/-- The name that the motive binds for the evidence. -/
def evidenceName (m : Motive) : Name :=
  fresh "e" m.avoid

/-- The bindings of the motive for the indices, in natural order. -/
def indexBindings (m : Motive) : List Binding :=
  freshBindings (Tuple.types m.reversed).reverse (m.evidenceName :: m.avoid) "i"

/-- The bindings of the motive: the indices, and evidence at these. -/
def bindings (m : Motive) : List Binding :=
  m.indexBindings ++ [⟨m.evidenceName, m.head.applyTuple (Tuple.ofBindings m.indexBindings)⟩]

lemma curried_eq_ok {t : Term} (h : m.curried depth = .ok t) :
    ∃ body, m.statement depth (Tuple.ofBindings m.indexBindings).reverse
      (.var m.evidenceName) = .ok body ∧
      t = .lams m.bindings body := by
  rw [curried, Except.bind_eq_ok] at h
  obtain ⟨body, hbody, h⟩ := h
  obtain rfl := Except.ok.inj h
  exact ⟨body, hbody, by rw [bindings, Term.lams, Term.lams, List.foldr_append]; rfl⟩

lemma length_indexBindings (m : Motive) : m.indexBindings.length = m.reversed.length := by
  simp [indexBindings, freshBindings, Tuple.types]

lemma types_indexBindings (m : Motive) :
    m.indexBindings.map Binding.ty = (Tuple.types m.reversed).reverse :=
  types_freshBindings ..

/-- The names that the motive binds are new. -/
lemma not_mem_avoid {b : Binding} (hb : b ∈ m.bindings) : b.name ∉ m.avoid := by
  rcases List.mem_append.1 hb with hb | hb
  · have hname : b.name ∈ Binding.names m.indexBindings := List.mem_map_of_mem hb
    exact fun hmem => not_mem_of_mem_freshBindings hname (List.mem_cons_of_mem _ hmem)
  · rw [List.mem_singleton.1 hb]
    exact fresh_not_mem "e" _

lemma nodup_indexBindings (m : Motive) : (Binding.names m.indexBindings).Nodup :=
  nodup_freshBindings ..

lemma evidenceName_not_mem (m : Motive) : m.evidenceName ∉ Binding.names m.indexBindings :=
  fun hmem => not_mem_of_mem_freshBindings hmem List.mem_cons_self

/-- The names that the motive binds are distinct. -/
lemma nodup_bindings (m : Motive) : (Binding.names m.bindings).Nodup := by
  rw [bindings, Binding.names, List.map_append]
  refine List.nodup_append.2 ⟨m.nodup_indexBindings, List.nodup_singleton _,
    fun x hx y hy hxy => ?_⟩
  obtain rfl : y = m.evidenceName := by simpa using hy
  exact m.evidenceName_not_mem (hxy ▸ hx)

lemma values_ofBindings (bs : List Binding) :
    (Tuple.values (Tuple.ofBindings bs)).map Term.nameless = Binding.refs bs := by
  simp [Tuple.values, Tuple.ofBindings, Binding.refs, Term.nameless]

/-- **The motive as a function, applied**: what it says at the indices and the evidence. -/
theorem IsOver.conv_curried (h : m.IsOver names) (havoid : names ⊆ m.avoid) {t : Term}
    (ht : m.curried depth = .ok t) (hlen : us.length = m.reversed.length) (v : Nameless) :
    Conv (t.nameless.apps (us ++ [v])) (m.meaning us.reverse v) := by
  obtain ⟨body, hbody, rfl⟩ := curried_eq_ok ht
  have hlen' : (us ++ [v]).length = m.bindings.length := by
    simp [bindings, length_indexBindings, hlen]
  set σ := assignAll ref m.bindings (us ++ [v]) with hσ
  -- the names that are bound get the arguments, and the others themselves
  have hvalues := map_assignAll (γ := ref) m.nodup_bindings hlen'
  rw [← hσ, bindings, List.map_append, List.map_singleton] at hvalues
  obtain ⟨hindices, hevidence⟩ :=
    List.append_inj hvalues (by rw [List.length_map, length_indexBindings, hlen])
  have hothers : ∀ x ∈ names, σ (.free x) = ref (.free x) := by
    intro x hx
    refine assignAll_of_not_mem fun hmem => ?_
    obtain ⟨b, hb, rfl⟩ := List.mem_map.1 hmem
    exact not_mem_avoid hb (havoid hx)
  have happlied := conv_lams_apps hlen' body ref
  rw [subst_ref] at happlied
  have hmeaning := (Conv.of_reduces (h.reduces_statement havoid hbody)).symm.subst σ
  rw [h.subst_meaning hothers, Tuple.values, List.map_reverse, List.map_reverse, List.map_reverse,
    ← Tuple.values, values_ofBindings, Binding.refs, List.map_map] at hmeaning
  have hargs : List.map (subst σ ∘ fun b : Binding => ref (.free b.name)) m.indexBindings = us :=
    hindices
  have hv : (Term.var m.evidenceName).nameless.subst σ = v := by
    simpa [Term.nameless, Nameless.subst] using hevidence
  rw [hargs, hv] at hmeaning
  exact happlied.trans hmeaning

/-! ### Typed motives -/

/-- The head is a family over the types of the indices, which are closed, and the left side is
evidence at the indices. -/
structure Typed (S : Signature) (Γ : Scope) (m : Motive) : Prop where
  head : HasType .strict S Γ m.head.nameless
    (Term.arrows (Tuple.types m.reversed).reverse .sort).nameless
  closed : ∀ ty ∈ Tuple.types m.reversed, ty.freeVars = []
  types : ∀ ty ∈ Tuple.types m.reversed, HasType .strict S Γ ty.nameless sort
  values : List.Forall₂ (HasType .strict S Γ) m.sources ((Tuple.types m.reversed).map Term.nameless)
  lhs : HasType .strict S Γ m.lhs.nameless (m.head.nameless.apps m.sources.reverse)

namespace Typed

/-- The family at indices of their types is a type. -/
lemma family (h : m.Typed S Γ)
    (hus : List.Forall₂ (HasType .strict S Γ) us ((Tuple.types m.reversed).map Term.nameless)) :
    HasType .strict S Γ (m.head.nameless.apps us.reverse) sort := by
  have hargs : List.Forall₂ (HasType .strict S Γ) us.reverse
      ((Tuple.types m.reversed).reverse.map Term.nameless) := by
    rw [List.map_reverse]
    exact List.forall₂_reverse_iff.2 hus
  exact h.head.arrows_apps (fun ty hty => h.closed ty (List.mem_reverse.1 hty)) rfl hargs

lemma tupleTy (h : m.Typed S Γ) : HasType .strict S Γ m.tupleTy.nameless sort := by
  rw [Motive.tupleTy, Tuple.ty, Term.nameless_tupleType]
  refine hasType_tupleType fun T hT => ?_
  obtain ⟨ty, hty, rfl⟩ := List.mem_map.1 hT
  exact h.types ty hty

lemma tuple
    (hus : List.Forall₂ (HasType .strict S Γ) us ((Tuple.types m.reversed).map Term.nameless)) :
    HasType .strict S Γ (Nameless.tuple us) m.tupleTy.nameless := by
  rw [Motive.tupleTy, Tuple.ty, Term.nameless_tupleType]
  exact Kernel.hasType_tuple hus

/-- The left side, carried along a proof that its indices are others, is evidence at these. -/
lemma carried (h : m.Typed S Γ)
    (hus : List.Forall₂ (HasType .strict S Γ) us ((Tuple.types m.reversed).map Term.nameless))
    {p : Nameless} (hp : HasType .strict S Γ p (m.premise us)) :
    HasType .strict S Γ
      (Nameless.transport m.head.nameless (Nameless.tuple m.sources)
      (Nameless.tuple us) p m.lhs.nameless)
      (m.head.nameless.apps us.reverse) :=
  .transport rfl .refl .refl (h.values.length_eq.trans hus.length_eq.symm) (tuple h.values)
    (tuple hus) hp h.lhs .rfl

/-- **The motive gives types**, at indices of their types and evidence at these. -/
theorem meaning (h : m.Typed S Γ)
    (hus : List.Forall₂ (HasType .strict S Γ) us ((Tuple.types m.reversed).map Term.nameless))
    (hv : HasType .strict S Γ v (m.head.nameless.apps us.reverse)) :
    HasType .strict S Γ (m.meaning us v) sort := by
  have hpremise : HasType .strict S Γ (m.premise us) sort :=
    .eq h.tupleTy (tuple h.values) (tuple hus) .rfl
  refine .pi hpremise (.eq ((h.family hus).shift _) ?_ (hv.shift _) .rfl) .rfl
  -- below the binder of the proof
  have hproof : HasType .strict S (Γ.push (m.premise us)) (.ref .top) (m.premise us).shift :=
    .ref rfl .rfl
  have hsources := (tuple h.values).shift (m.premise us)
  have hindices := (tuple hus).shift (m.premise us)
  have hlhs := h.lhs.shift (m.premise us)
  have hlen : m.sources.length = us.length := h.values.length_eq.trans hus.length_eq.symm
  generalize Γ.push (m.premise us) = Δ at hproof hsources hindices hlhs ⊢
  simp only [premise, Nameless.shift, Nameless.rename, rename_tuple, rename_apps, List.map_reverse]
    at hproof hsources hindices hlhs ⊢
  exact .transport rfl .refl .refl (by simpa using hlen) hsources hindices hproof hlhs .rfl

/-- A motive that is typed over some hypotheses is typed over more. -/
lemma mono {hyps hyps' : List Binding} (h : m.Typed S (Context.scope hyps .strict))
    (hnodup : (Binding.names hyps').Nodup) (hsub : hyps ⊆ hyps') :
    m.Typed S (Context.scope hyps' .strict) := by
  have hweaken : ∀ {t T : Nameless}, HasType .strict S (Context.scope hyps .strict) t T →
      HasType .strict S (Context.scope hyps' .strict) t T :=
    fun ht => Context.hasType_of_mem ht hnodup fun b hb _ => hsub hb
  exact ⟨hweaken h.head, h.closed, fun ty hty => hweaken (h.types ty hty),
    h.values.imp fun _ _ => hweaken, hweaken h.lhs⟩

variable {hyps : List Binding}

/-- The indices that the motive binds, with the types of the indices, are a telescope over the
hypotheses. -/
lemma telescope_indexBindings (h : m.Typed S (Context.scope hyps .strict))
    (hhyps : Telescope S hyps) (havoid : Binding.names hyps ⊆ m.avoid) :
    Telescope S (hyps ++ m.indexBindings) := by
  have hty : ∀ b ∈ m.indexBindings, b.ty ∈ Tuple.types m.reversed := by
    intro b hb
    have hmem : b.ty ∈ m.indexBindings.map Binding.ty := List.mem_map_of_mem hb
    rw [types_indexBindings] at hmem
    exact List.mem_reverse.1 hmem
  refine hhyps.append m.nodup_indexBindings
    (fun b hb hmem => not_mem_avoid (List.mem_append_left _ hb) (havoid hmem)) (fun b hb x hx => ?_)
    fun b hb => h.types _ (hty b hb)
  rw [h.closed _ (hty b hb)] at hx
  cases hx

/-- The variables of the indices have the types of the indices. -/
lemma refs_indexBindings (hdistinct : (Binding.names (hyps ++ m.indexBindings)).Nodup) :
    List.Forall₂ (HasType .strict S (Context.scope (hyps ++ m.indexBindings) .strict))
      (Binding.refs m.indexBindings).reverse
      ((Tuple.types m.reversed).map Term.nameless) := by
  rw [← List.reverse_reverse (Tuple.types m.reversed), List.map_reverse, List.forall₂_reverse_iff,
    ← types_indexBindings, Binding.refs, List.map_map, List.forall₂_map_left_iff,
    List.forall₂_map_right_iff, List.forall₂_same]
  exact fun b hb =>
    .ref (Context.scope_of_mem (m := .strict) hdistinct (List.mem_append_right _ hb)) .rfl

variable (h : m.Typed S (Context.scope hyps .strict)) (hhyps : Telescope S hyps)
  (hover : m.IsOver (Binding.names hyps)) (havoid : Binding.names hyps ⊆ m.avoid)
include h hhyps hover havoid

/-- The bindings of the motive are a telescope over the hypotheses. -/
lemma telescope_bindings : Telescope S (hyps ++ m.bindings) := by
  have hindices := h.telescope_indexBindings hhyps havoid
  have hm := h.mono hindices.distinct (List.subset_append_left ..)
  have hnames : Binding.names (hyps ++ m.indexBindings) = Binding.names hyps ++
      Binding.names m.indexBindings :=
    List.map_append
  rw [Motive.bindings, ← List.append_assoc]
  refine hindices.append (List.nodup_singleton _) (List.forall_mem_singleton.2 ?_)
    (List.forall_mem_singleton.2 ?_) (List.forall_mem_singleton.2 ?_)
  · rw [hnames, List.mem_append, not_or]
    exact ⟨fun hmem => fresh_not_mem "e" _ (havoid hmem), m.evidenceName_not_mem⟩
  · refine applyTuple_over (fun x hx => ?_) fun s hs x hx => ?_
    · exact hnames ▸ List.mem_append_left _ (hover.head hx)
    · obtain ⟨b, hb, rfl⟩ := List.mem_map.1 hs
      obtain rfl := List.mem_singleton.1 hx
      exact hnames ▸ List.mem_append_right _ (List.mem_map_of_mem hb)
  · have hfamily := hm.family (refs_indexBindings hindices.distinct)
    rwa [List.reverse_reverse, ← values_ofBindings, ← Term.nameless_apps] at hfamily

/-- **The motive as a function** takes the indices and evidence at them, and gives a type. -/
theorem curried {t : Term} (ht : m.curried depth = .ok t) :
    HasType .strict S (Context.scope hyps .strict) t.nameless
      (Term.pis m.bindings .sort).nameless := by
  obtain ⟨body, hbody, rfl⟩ := curried_eq_ok ht
  have htelescope := h.telescope_bindings hhyps hover havoid
  have hindices := h.telescope_indexBindings hhyps havoid
  have hsub : hyps ++ m.indexBindings ⊆ hyps ++ m.bindings := by
    rw [Motive.bindings, ← List.append_assoc]
    exact List.subset_append_left ..
  have hm := h.mono htelescope.distinct (List.subset_append_left ..)
  have hrefs : List.Forall₂ (HasType .strict S (Context.scope (hyps ++ m.bindings) .strict))
      (Binding.refs m.indexBindings).reverse ((Tuple.types m.reversed).map Term.nameless) :=
    (refs_indexBindings hindices.distinct).imp fun _ _ ht =>
      Context.hasType_of_mem ht htelescope.distinct fun b hb _ => hsub hb
  have hevidence : HasType .strict S (Context.scope (hyps ++ m.bindings) .strict)
      (Term.var m.evidenceName).nameless
      (m.head.nameless.apps (Binding.refs m.indexBindings).reverse.reverse) := by
    have hscope := Context.scope_of_mem (m := .strict) htelescope.distinct
      (b := ⟨m.evidenceName, m.head.applyTuple (Tuple.ofBindings m.indexBindings)⟩)
        (by simp [Motive.bindings])
    rw [List.reverse_reverse, ← values_ofBindings, ← Term.nameless_apps]
    exact .ref hscope .rfl
  have hmeaning := hm.meaning hrefs hevidence
  rw [← values_ofBindings, ← List.map_reverse, Tuple.values, ← List.map_reverse,
    ← Tuple.values] at hmeaning
  exact hasType_lams htelescope
    (hmeaning.reduces (hover.reduces_statement havoid hbody) (Discipline.admits_strict _))

end Typed

end Motive

end UniqueEvidence
