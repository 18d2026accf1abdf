/-
Goals stay scoped: the names of the hypotheses are distinct, each hypothesis mentions only those
before it, and the target mentions only hypotheses.

* `Kernel.freeVars_of_infer`: inference does not invent names;
* `Environment.Scoped`: declared types are closed, binders mention earlier binders, and indices
  mention binders;
* `Goal.Scoped`: the invariant, with one lemma for each rule that changes more than the target;
* `Kernel.scoped_of_apply`: **every call leaves scoped goals of a scoped goal**, if its terms
  mention only hypotheses.  No condition on the names of binders is needed here: where a binder has
  the name of a temporary one, renaming may mix up variables, but it still ends among the new names.
-/
import UniqueEvidence.Proofs.CaseAnalysis
import UniqueEvidence.Proofs.Preservation

namespace UniqueEvidence

/-! ### Names in tuples, functions and telescopes -/

lemma mem_freeVars_of_components {t a : Term} {ts : List Term} (h : t.components = some ts)
    (ha : a ∈ ts) {x : Name} (hx : x ∈ a.freeVars) : x ∈ t.freeVars := by
  induction t generalizing ts with
  | tt =>
    obtain rfl : [] = ts := by simpa [Term.components] using h
    cases ha
  | pair u v _ ihv =>
    obtain ⟨vs, hvs, rfl⟩ := Option.map_eq_some_iff.1 h
    rw [Term.freeVars, List.mem_append]
    rcases List.mem_cons.1 ha with rfl | ha
    · exact .inl hx
    · exact .inr (ihv hvs ha)
  | _ => cases h

lemma mem_freeVars_toTerm {t : Tuple} {x : Name} :
    x ∈ (Tuple.toTerm t).freeVars ↔ ∃ s ∈ t, x ∈ s.value.freeVars := by
  induction t with
  | nil => simp [Tuple.toTerm, Term.freeVars]
  | cons s t ih =>
    change x ∈ s.value.freeVars ++ (Tuple.toTerm t).freeVars ↔ _
    rw [List.mem_append, ih, List.exists_mem_cons_iff]

lemma mem_freeVars_tupleType {types : List Term} {x : Name} :
    x ∈ (tupleType types).freeVars ↔ ∃ ty ∈ types, x ∈ ty.freeVars := by
  induction types with
  | nil => simp [tupleType, Term.freeVars]
  | cons ty types ih =>
    change x ∈ ty.freeVars ++ (tupleType types).freeVars ↔ _
    rw [List.mem_append, ih, List.exists_mem_cons_iff]

lemma mem_freeVars_lams {bs : List Binding} {body : Term} {x : Name}
    (h : x ∈ (Term.lams bs body).freeVars) :
    (∃ b ∈ bs, x ∈ b.ty.freeVars) ∨ x ∈ body.freeVars ∧ x ∉ Binding.names bs := by
  induction bs with
  | nil => exact .inr ⟨h, List.not_mem_nil⟩
  | cons b bs ih =>
    simp only [Term.lams, List.foldr_cons, Term.freeVars, List.mem_append, List.mem_filter,
      decide_eq_true_eq] at h
    rcases h with h | ⟨h, hxb⟩
    · exact .inl ⟨b, List.mem_cons_self, h⟩
    · rcases ih h with ⟨b', hb', hx⟩ | ⟨hx, hnames⟩
      · exact .inl ⟨b', List.mem_cons_of_mem _ hb', hx⟩
      · exact .inr ⟨hx, by simpa [Binding.names, hxb] using hnames⟩

/-- A telescope in order mentions only names that were there before. -/
lemma mem_freeVars_of_pis {bs : List Binding} {R : Term} {placed : List Name}
    (hordered : OrderedFrom placed bs) (hR : ∀ x ∈ R.freeVars, x ∈ placed ∨ x ∈ Binding.names bs) :
    ∀ x ∈ (Term.pis bs R).freeVars, x ∈ placed := by
  induction bs generalizing placed with
  | nil => exact fun x hx => (hR x hx).resolve_right List.not_mem_nil
  | cons b bs ih =>
    intro x hx
    simp only [Term.pis, List.foldr_cons, Term.freeVars, List.mem_append, List.mem_filter,
      decide_eq_true_eq] at hx
    rcases hx with hx | ⟨hx, hxb⟩
    · exact hordered.1 x hx
    · refine (List.mem_cons.1 (ih hordered.2 (fun y hy => ?_) x hx)).resolve_left hxb
      have hy' := hR y hy
      simp only [Binding.names, List.map_cons, List.mem_cons] at hy' ⊢
      tauto

/-! ### Inference does not invent names -/

namespace Kernel

/-- Terms over a context have types over the context. -/
def StaysOver (infer : Inference) : Prop :=
  ∀ {ctx t T}, (∀ b ∈ ctx, b.ty.freeVars ⊆ Binding.names ctx) →
    t.freeVars ⊆ Binding.names ctx → infer ctx t = .ok T → T.freeVars ⊆ Binding.names ctx

variable {k : Kernel} {infer : Inference} {ctx : Context} {t T : Term}

/-- The body of a binder over the context is over the context with the opened binder. -/
lemma freeVars_openBinder {x : Name} {ty body : Term}
    (hbody : ∀ y ∈ body.freeVars, y ≠ x → y ∈ Binding.names ctx) :
    (openBinder ctx x body).2.freeVars ⊆ Binding.names
      (⟨(openBinder ctx x body).1, ty⟩ :: ctx) := by
  rw [openBinder]
  split
  · intro y hy
    rcases mem_freeVars_subst hy with ⟨hy, hyx⟩ | hy
    · exact List.mem_cons_of_mem _ (hbody y hy hyx)
    · obtain rfl := List.mem_singleton.1 hy
      exact List.mem_cons_self
  · intro y hy
    by_cases hyx : y = x
    · exact hyx ▸ List.mem_cons_self
    · exact List.mem_cons_of_mem _ (hbody y hy hyx)

lemma freeVars_of_typeOfTransport {head src dst proof value : Term}
    (ht : (Term.transport head src dst proof value).freeVars ⊆ Binding.names ctx)
    (h : k.typeOfTransport infer ctx head src dst proof value = .ok T) :
    T.freeVars ⊆ Binding.names ctx := by
  obtain ⟨_, dst', _, ds, _, _, _, hdst, _, hds, -, -, -, -, -, -, hT⟩ := typeOfTransport_eq_ok h
  simp only [Term.freeVars, List.append_subset] at ht
  intro x hx
  rcases mem_freeVars_apps.1 (mem_freeVars_of_normalize hT hx) with hx | ⟨d, hd, hx⟩
  · exact ht.1.1.1.1 hx
  · exact ht.1.1.2
      (mem_freeVars_of_normalize hdst (mem_freeVars_of_components hds (List.mem_reverse.1 hd) hx))

lemma StaysOver.typeOf (hinfer : StaysOver infer) (hclosed : k.env.Closed)
    (hctx : ∀ b ∈ ctx, b.ty.freeVars ⊆ Binding.names ctx) (ht : t.freeVars ⊆ Binding.names ctx)
    (h : k.typeOf infer ctx t = .ok T) : T.freeVars ⊆ Binding.names ctx := by
  cases t with
  | var x =>
    rw [Kernel.typeOf] at h
    split at h
    · rename_i ty hty
      obtain rfl := Except.ok.inj h
      exact hctx _ (Context.mem_of_lookup? hty)
    · cases h
  | const c =>
    rw [Kernel.typeOf] at h
    split at h
    · rename_i ty hty
      obtain rfl := Except.ok.inj h
      exact hclosed c ty hty ▸ List.nil_subset _
    · cases h
  | sort | unit | tt =>
    obtain rfl := Except.ok.inj h
    exact List.nil_subset _
  | prod a b =>
    simp only [Kernel.typeOf, Except.bind_eq_ok] at h
    obtain ⟨-, -, -, -, h⟩ := h
    obtain rfl := Except.ok.inj h
    exact List.nil_subset _
  | pair a b =>
    simp only [Kernel.typeOf, Except.bind_eq_ok] at h
    obtain ⟨A, hA, B, hB, h⟩ := h
    obtain rfl := Except.ok.inj h
    simp only [Term.freeVars, List.append_subset] at ht ⊢
    exact ⟨hinfer hctx ht.1 hA, hinfer hctx ht.2 hB⟩
  | app fn arg =>
    simp only [Kernel.typeOf, Except.bind_eq_ok] at h
    obtain ⟨F, hF, h⟩ := h
    split at h
    · rename_i x dom cod
      obtain ⟨-, -, h⟩ := Except.bind_eq_ok.1 h
      obtain rfl := Except.ok.inj h
      simp only [Term.freeVars, List.append_subset] at ht
      have hfn := hinfer hctx ht.1 hF
      intro y hy
      rcases mem_freeVars_subst hy with ⟨hy, hyx⟩ | hy
      · exact hfn (by simp [Term.freeVars, hy, hyx])
      · exact ht.2 hy
    · cases h
  | pi x ty body =>
    simp only [Kernel.typeOf, Except.bind_eq_ok] at h
    obtain ⟨-, -, -, -, h⟩ := h
    obtain rfl := Except.ok.inj h
    exact List.nil_subset _
  | lam x ty body =>
    simp only [Kernel.typeOf, Except.bind_eq_ok] at h
    obtain ⟨-, -, B, hB, h⟩ := h
    obtain rfl := Except.ok.inj h
    simp only [Term.freeVars, List.append_subset] at ht ⊢
    have hbody : (openBinder ctx x body).2.freeVars ⊆ Binding.names
        (⟨(openBinder ctx x body).1, ty⟩ :: ctx) :=
      freeVars_openBinder fun y hy hyx => ht.2 (List.mem_filter.2 ⟨hy, by simpa using hyx⟩)
    have hctx' : ∀ b ∈ (⟨(openBinder ctx x body).1, ty⟩ :: ctx : Context),
        b.ty.freeVars ⊆ Binding.names (⟨(openBinder ctx x body).1, ty⟩ :: ctx) := by
      intro b hb
      refine List.Subset.trans ?_ (List.subset_cons_self ..)
      rcases List.mem_cons.1 hb with rfl | hb
      · exact ht.1
      · exact hctx b hb
    refine ⟨ht.1, fun y hy => ?_⟩
    obtain ⟨hy, hyx⟩ := List.mem_filter.1 hy
    exact (List.mem_cons.1 (hinfer hctx' hbody hB hy)).resolve_left (by simpa using hyx)
  | eq ty l r =>
    simp only [Kernel.typeOf, Except.bind_eq_ok] at h
    obtain ⟨-, -, -, -, -, -, h⟩ := h
    obtain rfl := Except.ok.inj h
    exact List.nil_subset _
  | refl ty v =>
    simp only [Kernel.typeOf, Except.bind_eq_ok] at h
    obtain ⟨-, -, -, -, h⟩ := h
    obtain rfl := Except.ok.inj h
    simp only [Term.freeVars, List.append_subset] at ht ⊢
    exact ⟨⟨ht.1, ht.2⟩, ht.2⟩
  | transport head src dst proof value => exact freeVars_of_typeOfTransport ht h

/-- **Inference does not invent names.** -/
theorem freeVars_of_inferAt (hclosed : k.env.Closed) (depth : Nat) :
    StaysOver (k.inferAt depth) := by
  induction depth with
  | zero =>
    intro ctx t T _ _ h
    cases h
  | succ depth ih =>
    intro ctx t T hctx ht h
    rw [inferAt, Except.bind_eq_ok] at h
    obtain ⟨U, hU, hT⟩ := h
    exact fun x hx => StaysOver.typeOf ih hclosed hctx ht hU (mem_freeVars_of_normalize hT hx)

end Kernel

/-! ### Scoped declarations -/

/-- The arguments of data constructors have closed types. -/
def Environment.TakesClosed (env : Environment) : Prop :=
  ∀ d ∈ env.datatypes, ∀ ctor ∈ d.ctors, ∀ ty ∈ ctor.argTypes, ty.freeVars = []

instance (env : Environment) : Decidable env.TakesClosed :=
  inferInstanceAs
    (Decidable (∀ d ∈ env.datatypes, ∀ ctor ∈ d.ctors, ∀ ty ∈ ctor.argTypes, ty.freeVars = []))

/-- The types of constants, of family indices and of arguments of data constructors are closed; the
binders of family constructors mention only earlier ones, and their indices mention only binders. -/
structure Environment.Scoped (env : Environment) : Prop where
  constants : ∀ c ∈ env.constants, c.ty.freeVars = []
  indexTypes : ∀ f ∈ env.families, ∀ ty ∈ f.indexTypes, ty.freeVars = []
  argTypes : ∀ d ∈ env.datatypes, ∀ ctor ∈ d.ctors, ∀ ty ∈ ctor.argTypes, ty.freeVars = []
  binders : ∀ f ∈ env.families, ∀ ctor ∈ f.ctors, OrderedFrom [] ctor.binders
  indices : ∀ f ∈ env.families, ∀ ctor ∈ f.ctors, ∀ t ∈ ctor.indices,
    t.freeVars ⊆ Binding.names ctor.binders

/-- Scoped declarations have closed types. -/
lemma Environment.Scoped.closed {env : Environment} (h : env.Scoped) : env.Closed := by
  have hpis : ∀ {bs : List Binding} {R : Term}, OrderedFrom [] bs → R.freeVars ⊆ Binding.names bs →
      (Term.pis bs R).freeVars = [] :=
    fun hbs hR => List.eq_nil_iff_forall_not_mem.2 fun x hx =>
      List.not_mem_nil (mem_freeVars_of_pis hbs (fun y hy => .inr (hR hy)) x hx)
  have harrows : ∀ {doms : List Term} {cod : Term}, (∀ ty ∈ doms, ty.freeVars = []) →
      cod.freeVars = [] → (Term.arrows doms cod).freeVars = [] := by
    intro doms cod hdoms hcod
    rw [arrows_eq_pis]
    refine hpis (.of_forall fun b hb => ?_) (hcod ▸ List.nil_subset _)
    obtain ⟨ty, hty, rfl⟩ := List.mem_map.1 hb
    simp [hdoms ty hty]
  intro c ty hty
  rcases constType?_cases hty with ⟨d, -, rfl⟩ | ⟨f, hf, rfl⟩ | ⟨d, ctor, hd, rfl⟩ |
    ⟨f, ctor, hf, rfl⟩ | ⟨k, hk, -, rfl⟩
  · rfl
  · exact harrows (h.indexTypes f (mem_of_family? hf).1) rfl
  · obtain ⟨hmem, hctor, -⟩ := mem_of_dataCtor? hd
    exact harrows (h.argTypes d hmem ctor hctor) rfl
  · obtain ⟨hmem, hctor, -⟩ := mem_of_familyCtor? hf
    refine hpis (h.binders f hmem ctor hctor) fun x hx => ?_
    rcases mem_freeVars_apps.1 hx with hx | ⟨t, ht, hx⟩
    · cases hx
    · exact h.indices f hmem ctor hctor t ht hx
  · exact h.constants k hk

/-! ### Scoped goals -/

/-- The types of the hypotheses and the target mention only hypotheses, in any order.  Hypotheses
may share names. -/
structure Goal.SelfContained (goal : Goal) : Prop where
  hyps : ∀ b ∈ goal.hyps, b.ty.freeVars ⊆ goal.names
  target : goal.target.freeVars ⊆ goal.names

lemma Goal.mem_names_context {goal : Goal} {x : Name} :
    x ∈ Binding.names goal.context ↔ x ∈ goal.names := by
  constructor <;> intro hx <;> obtain ⟨b, hb, rfl⟩ := List.mem_map.1 hx
  · exact List.mem_map_of_mem (mem_of_mem_keepLast hb)
  · obtain ⟨b', hb', hname⟩ : ∃ b' ∈ goal.context, b'.name = b.name := exists_mem_keepLast hb
    exact List.mem_map.2 ⟨b', hb', hname⟩

namespace Goal.SelfContained

variable {k : Kernel} {goal : Goal}

lemma context (h : goal.SelfContained) :
    ∀ b ∈ goal.context, b.ty.freeVars ⊆ Binding.names goal.context :=
  fun b hb _ hx => mem_names_context.2 (h.hyps b (mem_of_mem_keepLast hb) hx)

/-- Types that inference gives terms over the hypotheses are over the hypotheses. -/
lemma infer (h : goal.SelfContained) (hclosed : k.env.Closed) {t T : Term}
    (ht : t.freeVars ⊆ goal.names) (hT : k.infer goal.context t = .ok T) :
    T.freeVars ⊆ goal.names := by
  have hover := Kernel.freeVars_of_inferAt hclosed k.depth h.context
    (fun _ hx => mem_names_context.2 (ht hx)) hT
  exact fun _ hx => mem_names_context.1 (hover hx)

lemma normalize (h : goal.SelfContained) {t : Term} (ht : k.normalize goal.target = .ok t) :
    t.freeVars ⊆ goal.names :=
  fun _ hx => h.target (Kernel.mem_freeVars_of_normalize ht hx)

end Goal.SelfContained

/-- The names are distinct, each hypothesis mentions only those before it, and the target mentions
only hypotheses. -/
structure Goal.Scoped (goal : Goal) : Prop where
  arranged : Arranged goal.hyps
  target : goal.target.freeVars ⊆ goal.names

namespace Goal.Scoped

variable {k : Kernel} {goal : Goal} {x : Name} {e : Equation}

lemma context_eq (h : goal.Scoped) : goal.context = goal.hyps :=
  keepLast_of_nodup h.arranged.distinct

lemma selfContained (h : goal.Scoped) : goal.SelfContained :=
  ⟨fun _ hb _ hx => h.arranged.mem_names hb hx, h.target⟩

lemma infer (h : goal.Scoped) (hclosed : k.env.Closed) {t T : Term} (ht : t.freeVars ⊆ goal.names)
    (hT : k.infer goal.context t = .ok T) : T.freeVars ⊆ goal.names :=
  h.selfContained.infer hclosed ht hT

lemma normalize (h : goal.Scoped) {t : Term} (ht : k.normalize goal.target = .ok t) :
    t.freeVars ⊆ goal.names :=
  h.selfContained.normalize ht

/-- The equation of a hypothesis is over the hypotheses, and does not mention its own name. -/
lemma equation (h : goal.Scoped) (he : k.equation goal x = .ok e) :
    ∀ y ∈ e.toTerm.freeVars, y ∈ goal.names ∧ y ≠ x := by
  intro y hy
  obtain ⟨ty, hty, hnormal⟩ := Kernel.equation_eq_ok he
  have hmem : (⟨x, ty⟩ : Binding) ∈ goal.hyps := Context.mem_of_lookup? hty
  have hy' := Kernel.mem_freeVars_of_normalize hnormal hy
  refine ⟨h.arranged.mem_names hmem hy', ?_⟩
  rintro rfl
  exact h.arranged.not_mem_self hmem hy'

/-- Names other than one that is left out. -/
lemma mem_without (hy : x ∈ goal.names) {y : Name} (hxy : x ≠ y) :
    x ∈ Binding.names (Kernel.without goal y) := by
  obtain ⟨b, hb, rfl⟩ := List.mem_map.1 hy
  exact List.mem_map_of_mem (List.mem_filter.2 ⟨hb, by simpa using hxy⟩)

end Goal.Scoped

/-! ### Each rule keeps goals scoped -/

namespace Kernel

variable {k : Kernel} {goal subgoal : Goal} {gs : List Goal} {x y : Name}

lemma Splits.mem_freeVars {env : Environment} (henv : env.TakesClosed) {e : Equation}
    {parts : List Term} (h : Splits env e parts) {part : Term} (hpart : part ∈ parts) :
    ∀ x ∈ part.freeVars, x ∈ e.toTerm.freeVars := by
  intro x hx
  cases h with
  | @pairs a b l₁ l₂ r₁ r₂ heq =>
    subst heq
    have hcases : part = .eq a l₁ r₁ ∨ part = .eq b l₂ r₂ := by simpa using hpart
    rcases hcases with rfl | rfl <;>
    · simp only [Equation.toTerm, Term.freeVars, List.mem_append] at hx ⊢
      tauto
  | @ctor c d ctor hl hr hctor hllen hrlen =>
    obtain ⟨hd, hmem, -⟩ := Environment.mem_of_dataCtor? hctor
    rw [← List.map_uncurry_zip_eq_zipWith] at hpart
    obtain ⟨⟨ty, l, r⟩, hzip, rfl⟩ := List.mem_map.1 hpart
    obtain ⟨hml, hmr⟩ := mem_zip_zip hzip
    have hclosed := henv d hd ctor hmem ty (List.of_mem_zip hml).1
    simp only [Function.uncurry_apply_pair, Term.freeVars, hclosed, List.nil_append,
      List.mem_append] at hx
    simp only [Equation.toTerm, Term.freeVars, List.mem_append]
    rcases hx with hx | hx
    · exact .inl (.inr (mem_freeVars_of_mem_args (List.of_mem_zip hml).2 hx))
    · exact .inr (mem_freeVars_of_mem_args (List.of_mem_zip hmr).2 hx)

section Rules

variable (h : goal.Scoped)
include h

lemma symmetry_scoped (hgs : k.symmetry goal = .ok gs) (hsub : subgoal ∈ gs) : subgoal.Scoped := by
  obtain ⟨e, he, rfl⟩ := symmetry_eq_ok hgs
  obtain rfl := List.mem_singleton.1 hsub
  refine ⟨h.arranged, fun x hx => h.normalize (targetEquation_eq_ok he) ?_⟩
  simp only [Goal.withTarget, Equation.toTerm, Equation.swap, Term.freeVars,
    List.mem_append] at hx ⊢
  tauto

lemma intro_scoped (hgs : k.intro goal x = .ok gs) (hsub : subgoal ∈ gs) : subgoal.Scoped := by
  obtain ⟨z, dom, cod, ht, hx, rfl⟩ := intro_eq_ok hgs
  obtain rfl := List.mem_singleton.1 hsub
  have hmem := h.normalize ht
  simp only [Term.freeVars, List.append_subset] at hmem
  refine ⟨h.arranged.append (List.nodup_singleton x) (by simpa [Goal.names] using hx)
    ⟨fun y hy => hmem.1 hy, trivial⟩, fun y hy => ?_⟩
  simp only [Goal.names, Binding.names, List.map_append, List.mem_append, List.map_cons,
    List.map_nil, List.mem_singleton]
  rcases mem_freeVars_subst hy with ⟨hy, hyz⟩ | hy
  · exact .inl (hmem.2 (List.mem_filter.2 ⟨hy, by simpa using hyz⟩))
  · exact .inr (List.mem_singleton.1 hy)

lemma clear_scoped (hgs : clear goal x = .ok gs) (hsub : subgoal ∈ gs) : subgoal.Scoped := by
  obtain ⟨htarget, hhyps, rfl⟩ := clear_eq_ok hgs
  obtain rfl := List.mem_singleton.1 hsub
  refine ⟨h.arranged.without hhyps, fun y hy => Goal.Scoped.mem_without (h.target hy) ?_⟩
  rintro rfl
  exact htarget hy

lemma injectionAs_scoped (henv : k.env.TakesClosed) {names : List Name} {shown : Argument}
    (hgs : k.injectionAs goal x names shown = .ok gs) (hsub : subgoal ∈ gs) : subgoal.Scoped := by
  obtain ⟨e, parts, he, hsplits, hlen, hnodup, hnew, rfl⟩ := injectionAs_eq_ok hgs
  obtain rfl := List.mem_singleton.1 hsub
  refine ⟨h.arranged.append (by rwa [names_zipWith hlen])
    (fun b hb => hnew b.name (mem_of_zipWith hb).1)
    (.of_forall fun b hb y hy => ?_), fun y hy => ?_⟩
  · exact (h.equation he y (hsplits.mem_freeVars henv (mem_of_zipWith hb).2 y hy)).1
  · rw [Goal.names, Binding.names, List.map_append, List.mem_append]
    exact .inl (h.target hy)

lemma eliminate_scoped (hgs : k.eliminate goal x y = .ok gs) (hsub : subgoal ∈ gs) :
    subgoal.Scoped := by
  obtain ⟨e, v, hyps, he, hv, hyx, -, hyv, hxtarget, hunused, hreorder, rfl⟩ := eliminate_eq_ok hgs
  obtain rfl := List.mem_singleton.1 hsub
  have hvalue : ∀ z ∈ v.freeVars, z ∈ goal.names ∧ z ≠ x := by
    intro z hz
    refine h.equation he z ?_
    rcases solvedFor_eq_some hv with ⟨-, rfl⟩ | ⟨-, rfl⟩ <;>
      simp [Equation.toTerm, Term.freeVars, hz]
  obtain ⟨hperm, hready⟩ := reorder_spec hreorder
  -- what is over the hypotheses and does not mention the equation is over those that are left
  have hover : ∀ t : Term, (∀ z ∈ t.freeVars, z ∈ goal.names) → x ∉ t.freeVars →
      ∀ z ∈ (t.subst y v).freeVars, z ∈ Binding.names (replaced goal.hyps x y v) := by
    intro t ht hxt z hz
    have hleft : z ∈ goal.names ∧ z ≠ x ∧ z ≠ y := by
      rcases mem_freeVars_subst hz with ⟨hz, hzy⟩ | hz
      · exact ⟨ht z hz, fun hzx => hxt (hzx ▸ hz), hzy⟩
      · exact ⟨(hvalue z hz).1, (hvalue z hz).2, fun hzy => hyv (hzy ▸ hz)⟩
    obtain ⟨⟨b, hb, rfl⟩, hzx, hzy⟩ := hleft.imp_left List.mem_map.1
    exact List.mem_map.2 ⟨_, mem_replaced hb hzy hzx, rfl⟩
  have hmem : ∀ {z}, z ∈ Binding.names (replaced goal.hyps x y v) ↔ z ∈ Binding.names hyps :=
    (hperm.map _).mem_iff.symm
  refine ⟨⟨?_, hready.ordered fun b hb z hz => ?_⟩,
    fun z hz => hmem.1 (hover _ (fun z hz => h.target hz) hxtarget z hz)⟩
  · rw [Binding.names, (hperm.map _).nodup_iff, List.map_map]
    exact h.arranged.distinct.sublist (List.filter_sublist.map _)
  · obtain ⟨b', hb', rfl⟩ := List.mem_map.1 (hperm.mem_iff.1 hb)
    obtain ⟨hb', hne⟩ := List.mem_filter.1 hb'
    simp only [Bool.and_eq_true, bne_iff_ne] at hne
    exact hover b'.ty (fun z hz => h.arranged.mem_names hb' hz) (hunused b' hb' hne.2) z hz

lemma uip_scoped (hgs : k.uip goal x = .ok gs) (hsub : subgoal ∈ gs) : subgoal.Scoped := by
  obtain ⟨e, d, he, -, -, hunused, rfl⟩ := uip_eq_ok hgs
  obtain rfl := List.mem_singleton.1 hsub
  refine ⟨h.arranged.without hunused, fun y hy => ?_⟩
  rcases mem_freeVars_subst hy with ⟨hy, hyx⟩ | hy
  · exact Goal.Scoped.mem_without (h.target hy) hyx
  · have hy' : y ∈ e.toTerm.freeVars := by
      simp only [Equation.toTerm, Term.freeVars, List.mem_append] at hy ⊢
      exact .inl hy
    obtain ⟨hmem, hyx⟩ := h.equation he y hy'
    exact Goal.Scoped.mem_without hmem hyx

lemma congruence_scoped (henv : k.env.Scoped) (hgs : k.congruence goal = .ok gs)
    (hsub : subgoal ∈ gs) : subgoal.Scoped := by
  obtain ⟨e, c, he, -, -, hctor, -, -, hindependent, rfl⟩ := congruence_eq_ok hgs
  obtain ⟨⟨b, l, r⟩, hmem, rfl⟩ := List.mem_map.1 hsub
  obtain ⟨bs, R, -, htypes, hclosed⟩ :=
    ctorBinders_closed henv.closed henv.argTypes hctor hindependent
  obtain ⟨hml, hmr⟩ := mem_zip_zip hmem
  have hb : b.ty.freeVars = [] := by
    have hty : b.ty ∈ bs.map Binding.ty := htypes ▸ List.mem_map_of_mem (List.of_mem_zip hmem).1
    obtain ⟨b', hb', hty⟩ := List.mem_map.1 hty
    exact hty ▸ hclosed b' hb'
  refine ⟨h.arranged, fun x hx => h.normalize (targetEquation_eq_ok he) ?_⟩
  simp only [Goal.withTarget, Term.freeVars, hb, List.nil_append, List.mem_append] at hx
  simp only [Equation.toTerm, Term.freeVars, List.mem_append]
  rcases hx with hx | hx
  · exact .inl (.inr (mem_freeVars_of_mem_args (List.of_mem_zip hml).2 hx))
  · exact .inr (mem_freeVars_of_mem_args (List.of_mem_zip hmr).2 hx)

/-- The branch of a constructor has its fresh binders as further hypotheses. -/
lemma branchGoal_scoped {ctor : FamilyCtor} (hordered : OrderedFrom [] ctor.binders)
    (hindices : ∀ t ∈ ctor.indices, ∀ x ∈ t.freeVars, x ∈ Binding.names ctor.binders)
    {motive : Term} (hmotive : motive.freeVars ⊆ goal.names) {fixed : List Term} {taken : List Name}
    (htaken : goal.names ⊆ taken)
    (hbranch : k.branchGoal goal motive fixed (ctor.freshen taken) = .ok (some subgoal)) :
    subgoal.Scoped := by
  obtain ⟨target, hnormal, rfl⟩ := branchGoal_eq_some hbranch
  have hfresh := arranged_freshen taken hordered
  have hunused := (freshenBinders_names (ρ := []) taken hordered).unused
  refine ⟨h.arranged.append hfresh.distinct (fun b hb hname => hunused b hb (htaken hname))
    (hfresh.ordered.mono (List.nil_subset _)), fun x hx => ?_⟩
  rw [Goal.names, Binding.names, List.map_append, List.mem_append]
  rcases mem_freeVars_apps.1 (mem_freeVars_of_normalize hnormal hx) with hx | ⟨a, ha, hx⟩
  · exact .inl (hmotive hx)
  · rcases List.mem_append.1 ha with ha | ha
    · exact .inr (mem_of_freshen_index taken hordered hindices (List.mem_of_mem_drop ha) hx)
    · obtain rfl := List.mem_singleton.1 ha
      exact .inr (mem_of_evidence hx)

lemma caseAs_scoped (henv : k.env.Scoped) {t motive : Term} {icount : Int} {shown : Argument}
    (hmotive : motive.freeVars ⊆ goal.names) (hgs : k.caseAs goal t icount shown motive = .ok gs)
    (hsub : subgoal ∈ gs) : subgoal.Scoped := by
  rw [caseAs, Except.bind_eq_ok] at hgs
  obtain ⟨branches, hbranches, hgs⟩ := hgs
  obtain rfl := Except.ok.inj hgs
  obtain ⟨f, ty, lead, -, -, hf, -, -, -, -, -, hgoals⟩ := caseBranchesAs_eq_ok hbranches
  obtain ⟨⟨ctor', branch⟩, hmem, hg⟩ := List.mem_filterMap.1 hsub
  obtain ⟨ctor, hctor, -, taken, htaken, hbranch⟩ :=
    exists_of_forall₂ (branchGoals_eq_ok hgoals).flip hmem
  have hg : branch = some subgoal := hg
  exact branchGoal_scoped h (henv.binders f hf ctor hctor) (henv.indices f hf ctor hctor) hmotive
    (List.append_subset.1 htaken).1 (hg ▸ hbranch)

/-- **Every rule leaves scoped goals.** -/
theorem run_scoped (henv : k.env.Scoped) {rule : Rule}
    (hargs : ∀ t, .term t ∈ rule.call.args → t.freeVars ⊆ goal.names)
    (hgs : k.run goal rule = .ok gs) (hsub : subgoal ∈ gs) : subgoal.Scoped := by
  cases rule with
  | change t =>
    obtain ⟨-, -, rfl⟩ := change_eq_ok hgs
    obtain rfl := List.mem_singleton.1 hsub
    exact ⟨h.arranged, hargs t (by simp [Rule.call])⟩
  | symmetry => exact symmetry_scoped h hgs hsub
  | generalize t w =>
    obtain ⟨z, dom, cod, -, -, -, -, rfl⟩ := generalize_eq_ok hgs
    obtain rfl := List.mem_singleton.1 hsub
    exact ⟨h.arranged, hargs t (by simp [Rule.call])⟩
  | intro x => exact intro_scoped h hgs hsub
  | clear x => exact clear_scoped h hgs hsub
  | case t n motive => exact caseAs_scoped h henv (hargs motive (by simp [Rule.call])) hgs hsub
  | injection x parts => exact injectionAs_scoped h henv.argTypes hgs hsub
  | discriminate x =>
    obtain ⟨-, -, -, -, -, -, -, rfl⟩ := discriminate_eq_ok hgs
    cases hsub
  | subst x y => exact eliminate_scoped h hgs hsub
  | uip x => exact uip_scoped h hgs hsub
  | reflexivity =>
    obtain ⟨-, -, -, rfl⟩ := reflexivity_eq_ok hgs
    cases hsub
  | assumption x =>
    obtain ⟨-, -, -, rfl⟩ := assumption_eq_ok hgs
    cases hsub
  | decide =>
    obtain ⟨-, -, -, -, -, -, rfl⟩ := decide_eq_ok hgs
    cases hsub
  | congruence => exact congruence_scoped h henv hgs hsub

/-- The same for a call. -/
theorem scoped_of_apply (henv : k.env.Scoped) {call : Call}
    (hargs : ∀ t, .term t ∈ call.args → t.freeVars ⊆ goal.names) (hgs : k.apply goal call = .ok gs)
    (hsub : subgoal ∈ gs) : subgoal.Scoped := by
  rcases apply_eq_ok hgs with ⟨rule, rfl, hrun⟩ | ⟨x, letters, rfl, hinjection⟩ |
    ⟨t, n, shown, motive, rfl, hcase⟩
  · exact run_scoped h henv hargs hrun hsub
  · exact injectionAs_scoped h henv.argTypes hinjection hsub
  · exact caseAs_scoped h henv (hargs motive (by simp)) hcase hsub

end Rules

end Kernel

end UniqueEvidence
