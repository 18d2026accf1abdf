/-
The type of evidence with fresh binders.

A case split states the branch of a constructor with fresh binders, and inference types the
constructor's application to them by its declared type, one argument at a time.  The two agree:

* `nameless_freshenBinders`: binders are renamed together with what is under them, so a telescope
  and its fresh telescope **differ in bound names only** (`FamilyCtor.alphaEq_freshen`);
* `Kernel.checkBy_app_var`, `Kernel.checkBy_apps`: a function of a telescope, applied to variables
  that are typed by the telescope and have its names, has the result of the telescope.  This needs
  no more depth than the normal form of the telescope;
* `Kernel.infer_freshen`: **evidence with fresh binders has the type that its fresh indices say**.
-/
import UniqueEvidence.Proofs.CaseAnalysis
import UniqueEvidence.Proofs.Normalisation
import UniqueEvidence.Proofs.Renaming

namespace UniqueEvidence

open Nameless

/-! ### Fresh telescopes -/

lemma renamedTo_setRenaming (old new : Name) (ρ : List (Name × Name)) (x : Name) :
    renamedTo (setRenaming old new ρ) x = if x = old then new else renamedTo ρ x := by
  induction ρ with
  | nil =>
    by_cases hx : x = old
    · simp [setRenaming, renamedTo, hx]
    · simp [setRenaming, renamedTo, hx, Ne.symm hx]
  | cons p ρ ih =>
    obtain ⟨a, b⟩ := p
    rw [setRenaming]
    by_cases ha : a = old
    · subst ha
      by_cases hx : x = a
      · simp [renamedTo, hx]
      · simp [renamedTo, hx, Ne.symm hx]
    · rw [if_neg ha]
      by_cases hx : a = x
      · subst hx
        simp [renamedTo, ha]
      · simpa [renamedTo, hx] using ih

lemma IsRenaming.renamedTo_mem {taken : List Name} {ρ : List (Name × Name)} (h : IsRenaming taken ρ)
    {x : Name} (hx : x ∈ ρ.map Prod.fst) : renamedTo ρ x ∈ taken := by
  obtain ⟨⟨x', y⟩, hmem, rfl⟩ := List.mem_map.1 hx
  rw [renamedTo_of_mem h.distinct hmem]
  exact h.taken _ hmem

/-- **Binders are renamed together with what is under them.** -/
theorem nameless_freshenBinders {taken : List Name} {ρ : List (Name × Name)}
    (h : IsRenaming taken ρ) {bs : List Binding} {R : Term}
    (hnames : ∀ b ∈ bs, ¬ b.name.StartsWithHash)
    (hover : ∀ x ∈ (Term.pis bs R).freeVars, x ∈ ρ.map Prod.fst) :
    (Term.pis (freshenBinders taken ρ bs).1 (R.renameAll (freshenBinders taken ρ bs).2)).nameless =
      (Term.pis bs R).nameless.rename (Ref.onFree (renamedTo ρ)) := by
  induction bs generalizing taken ρ with
  | nil => exact nameless_renameAll h hover
  | cons b bs ih =>
    set x := fresh b.name taken with hx
    have hold : ¬ b.name.StartsWithHash := hnames b List.mem_cons_self
    have hset : IsRenaming (x :: taken) (setRenaming b.name x ρ) := h.set_fresh hold
    have hrest : ∀ y ∈ (Term.pis bs R).freeVars, y = b.name ∨ y ∈ ρ.map Prod.fst := by
      intro y hy
      by_cases hyb : y = b.name
      · exact .inl hyb
      · exact .inr (hover y (List.mem_append_right _ (List.mem_filter.2 ⟨hy, by simpa using hyb⟩)))
    have hbody := ih hset (fun b' hb' => hnames b' (List.mem_cons_of_mem _ hb')) fun y hy =>
      mem_keys_setRenaming.2 (hrest y hy)
    have hty := nameless_renameAll h fun y hy => hover y (List.mem_append_left _ hy)
    change Nameless.pi (b.ty.renameAll ρ).nameless
        ((Term.pis (freshenBinders (x :: taken) (setRenaming b.name x ρ) bs).1
        (R.renameAll (freshenBinders (x :: taken) (setRenaming b.name x ρ) bs).2)).nameless.rename
          (Ref.capture x)) =
      (Nameless.pi b.ty.nameless ((Term.pis bs R).nameless.rename (Ref.capture b.name))).rename _
    rw [hbody, hty, Nameless.rename, rename_rename, rename_rename, Ref.lift_onFree]
    refine congrArg _ ?_
    rw [rename_eq_subst, rename_eq_subst]
    refine subst_congr fun r hr => congrArg ref ?_
    rcases r with n | y
    · exact (Term.not_occurs_bound _ _ hr).elim
    · rw [Ref.onFree, renamedTo_setRenaming]
      by_cases hyb : y = b.name
      · rw [if_pos hyb, hyb, Ref.capture_self, Ref.capture_self]
        rfl
      · -- the other names were given new ones before, and these were taken
        have hmem := h.renamedTo_mem ((hrest y (Term.occurs_nameless.1 hr)).resolve_left hyb)
        have hne : renamedTo ρ y ≠ x := fun heq => fresh_not_mem b.name taken (hx ▸ heq ▸ hmem)
        rw [if_neg hyb, Ref.capture_of_ne (by simpa using hne),
          Ref.capture_of_ne (by simpa using hyb)]
        rfl

namespace Term

lemma renameAll_const (c : Name) (ρ : List (Name × Name)) : (const c).renameAll ρ = const c := by
  have hfixed : ∀ ps : List (Name × Name), ps.foldl (fun t p => subst t p.1 (.var p.2))
      (const c) = const c :=
    List.foldl_fixed' fun p => subst_const c p.1 _
  rw [renameAll_eq, hfixed, hfixed]

lemma renameAll_app (f a : Term) (ρ : List (Name × Name)) :
    (app f a).renameAll ρ = app (f.renameAll ρ) (a.renameAll ρ) := by
  have hparts : ∀ (ps : List (Name × Name)) (f a : Term),
      ps.foldl (fun t p => subst t p.1 (.var p.2)) (app f a) =
      app (ps.foldl (fun t p => subst t p.1 (.var p.2)) f)
        (ps.foldl (fun t p => subst t p.1 (.var p.2)) a) :=
    fun ps f a => List.foldl_hom₂ ps app _ _ _ f a fun f a p => (subst_app f a p.1 _).symm
  rw [renameAll_eq, hparts, hparts, ← renameAll_eq, ← renameAll_eq]

lemma renameAll_apps (f : Term) (as : List Term) (ρ : List (Name × Name)) :
    (f.apps as).renameAll ρ = (f.renameAll ρ).apps (as.map (renameAll ρ)) := by
  induction as generalizing f with
  | nil => rfl
  | cons a as ih => rw [apps_cons, ih, renameAll_app, List.map_cons, apps_cons]

end Term

/-- **A constructor with fresh binders has the declared type**, up to the names of the binders. -/
theorem FamilyCtor.alphaEq_freshen {ctor : FamilyCtor} {f : Name}
    (hnames : ∀ b ∈ ctor.binders, ¬ b.name.StartsWithHash)
    (hclosed : (Term.pis ctor.binders (.apps (.const f) ctor.indices)).freeVars = [])
    (taken : List Name) : (Term.pis ctor.binders (.apps (.const f) ctor.indices)).alphaEq
      (.pis (ctor.freshen taken).binders (.apps (.const f) (ctor.freshen taken).indices)) =
        true := by
  have hsame := nameless_freshenBinders (.nil taken) hnames fun x hx => (hclosed ▸ hx : x ∈ [])
  have hclosed' := Term.closed_nameless hclosed
  rw [Term.renameAll_apps, Term.renameAll_const, rename_of_closed hclosed'] at hsame
  exact Term.alphaEq_iff.2 hsame.symm

/-! ### Normal forms up to bound names -/

namespace Term

/-- Normal forms of terms that differ in bound names. -/
lemma Normalizes.of_nameless_eq {n : Nat} {t t' u : Term} (h : Normalizes n t u)
    (ht : t.nameless = t'.nameless) : ∃ u', Normalizes n t' u' ∧ u.nameless = u'.nameless := by
  obtain ⟨u', hu', halpha⟩ := normalize_of_alphaEq (alphaEq_iff.2 ht) (normalize_eq_some_iff.2 h)
  exact ⟨u', normalize_eq_some_iff.1 hu', alphaEq_iff.1 halpha⟩

/-- A product is normalised part by part. -/
lemma Normalizes.of_pi {n : Nat} {x : Name} {ty body u : Term}
    (h : Normalizes n (Term.pi x ty body) u) :
    ∃ m ty' body', n = m + 1 ∧ Normalizes m ty ty' ∧ Normalizes m body body' ∧
      u = Term.pi x ty' body' := by
  cases h with
  | pi _ hty hbody => exact ⟨_, _, _, rfl, hty, hbody, rfl⟩

/-- Each binding of a telescope takes one step of the depth. -/
lemma Normalizes.length_lt {n : Nat} {bs : List Binding} {R u : Term}
    (h : Normalizes n (pis bs R) u) : bs.length < n := by
  induction bs generalizing n u with
  | nil =>
    cases n with
    | zero => cases h
    | succ n => exact n.succ_pos
  | cons b bs ih =>
    obtain ⟨m, _, _, rfl, -, hbody, -⟩ := of_pi h
    exact Nat.succ_lt_succ (ih hbody)

lemma exists_pi_of_nameless {T A B : Term} {x : Name} (h : T.nameless = (pi x A B).nameless) :
    ∃ y dom cod, T = pi y dom cod ∧ dom.nameless = A.nameless ∧
      cod.nameless.rename (Ref.capture y) = B.nameless.rename (Ref.capture x) := by
  cases T <;> simp_all [nameless]

end Term

/-! ### Functions applied to variables -/

namespace Kernel

open Term

variable {k : Kernel} {ctx : Context} {n : Nat} {t T U : Term}

lemma normalize_eq_ok : k.normalize t = .ok U ↔ Normalizes k.depth t U :=
  withinDepth_eq_ok.trans normalize_eq_some_iff

lemma normalizes_of_inferAt (h : k.inferAt n ctx t = .ok T) : Normalizes k.depth T T := by
  cases n with
  | zero => cases h
  | succ n =>
    obtain ⟨V, -, hT⟩ := Except.bind_eq_ok.1 h
    exact (normalize_eq_ok.1 hT).idem

lemma convertible_eq_true {a b : Term} : k.convertible a b = .ok true ↔
    ∃ a' b', Normalizes k.depth a a' ∧ Normalizes k.depth b b' ∧ a'.nameless = b'.nameless := by
  simp only [convertible, withinDepth_eq_ok, convertible_eq_true_iff, normalize_eq_some_iff]

/-- A term is found to have a type if the inferred type is the normal form of that type, up to bound
names. -/
lemma checkBy_inferAt : k.checkBy (k.inferAt n) ctx t U = .ok () ↔
    ∃ T V, k.inferAt n ctx t = .ok T ∧ Normalizes k.depth U V ∧ T.nameless = V.nameless := by
  rw [checkBy_eq_ok]
  constructor
  · rintro ⟨T, hT, hconv⟩
    obtain ⟨T', V, hT', hV, heq⟩ := convertible_eq_true.1 hconv
    have hsame :=
      (normalize_eq_some_iff.2 hT').symm.trans (normalize_eq_some_iff.2 (normalizes_of_inferAt hT))
    obtain rfl := Option.some.inj hsame
    exact ⟨T', V, hT, hV, heq⟩
  · rintro ⟨T, V, hT, hV, heq⟩
    exact ⟨T, hT, convertible_eq_true.2 ⟨T, V, normalizes_of_inferAt hT, hV, heq⟩⟩

/-- **One variable of a telescope.**  A function of a product, applied to a variable of the name and
the type that the product binds, has the type under the product. -/
theorem checkBy_app_var {f R : Term} {b : Binding} {bs : List Binding}
    (hb : ctx.lookup? b.name = some b.ty)
    (h : k.checkBy (k.inferAt n) ctx f (.pis (b :: bs) R) = .ok ()) :
    k.checkBy (k.inferAt (n + 1)) ctx (.app f (.var b.name)) (.pis bs R) = .ok () := by
  obtain ⟨T, V, hT, hV, hTV⟩ := checkBy_inferAt.1 h
  change Normalizes k.depth (.pi b.name b.ty (.pis bs R)) V at hV
  obtain ⟨m, A, W, hm, hA, hW, rfl⟩ := hV.of_pi
  have hA' : Normalizes k.depth b.ty A := hm ▸ hA.succ
  have hW' : Normalizes k.depth (.pis bs R) W := hm ▸ hW.succ
  obtain ⟨x, dom, cod, rfl, hdom, hcod⟩ := exists_pi_of_nameless hTV
  have hvar : k.checkBy (k.inferAt n) ctx (.var b.name) dom = .ok () := by
    obtain ⟨dom', hdom', heq⟩ := hA'.idem.of_nameless_eq hdom.symm
    refine checkBy_inferAt.2 ⟨A, dom', ?_, hdom', heq⟩
    cases n with
    | zero => cases hT
    | succ n =>
      refine Except.bind_eq_ok.2 ⟨b.ty, ?_, normalize_eq_ok.2 hA'⟩
      simp only [typeOf, hb]
      rfl
  -- the variable has the name of the binder, so the type under the product is taken as it is
  have hresult : (cod.subst x (.var b.name)).nameless = W.nameless := by
    rw [nameless_contract, hcod]
    exact Context.inst_captured W.nameless b.name
  obtain ⟨T', hT', heq⟩ := hW'.idem.of_nameless_eq hresult.symm
  refine checkBy_inferAt.2 ⟨T', W, Except.bind_eq_ok.2 ⟨_, ?_, normalize_eq_ok.2 hT'⟩,
    hW', heq.symm⟩
  rw [typeOf]
  exact Except.bind_eq_ok.2 ⟨_, hT, Except.bind_eq_ok.2 ⟨(), hvar, rfl⟩⟩

/-- **The variables of a telescope.**  A function of a telescope, applied to variables of the names
and types that the telescope binds, has its result type. -/
theorem checkBy_apps {f R : Term} {bs : List Binding}
    (hbs : ∀ b ∈ bs, ctx.lookup? b.name = some b.ty)
    (h : k.checkBy (k.inferAt n) ctx f (.pis bs R) = .ok ()) :
    k.checkBy (k.inferAt (n + bs.length)) ctx (f.apps (bs.map fun b => .var b.name))
      R = .ok () := by
  induction bs generalizing f n with
  | nil => exact h
  | cons b bs ih =>
    have hfirst := checkBy_app_var (hbs b List.mem_cons_self) h
    have hrest := ih (fun b' hb' => hbs b' (List.mem_cons_of_mem _ hb')) hfirst
    rw [List.length_cons, Nat.add_comm bs.length 1, ← Nat.add_assoc]
    exact hrest

/-- Inference runs out at an application if it runs out at the function, whatever the depth. -/
lemma inferAt_apps_exhausted {f : Term} (h : ∀ n, k.inferAt n ctx f = .error .exhausted)
    (as : List Term) (n : Nat) : k.inferAt n ctx (f.apps as) = .error .exhausted := by
  induction as generalizing f n with
  | nil => exact h n
  | cons a as ih =>
    refine ih (fun n => ?_) n
    cases n with
    | zero => rfl
    | succ n =>
      rw [inferAt, typeOf, h n]
      rfl

end Kernel

/-! ### Evidence -/

/-- Names that the first part of a context does not have are looked up in the second. -/
lemma Context.lookup?_append_of_not_mem {ctx bs : Context} {x : Name} (h : x ∉ Binding.names ctx) :
    lookup? (ctx ++ bs) x = lookup? bs x := by
  have hnone : ctx.find? (·.name == x) = none := by
    refine List.find?_eq_none.2 fun b hb heq => h ?_
    exact List.mem_map.2 ⟨b, hb, by simpa using heq⟩
  rw [lookup?, List.find?_append, hnone]
  rfl

namespace Kernel

/-- **Evidence with fresh binders has the type that its fresh indices say.**  The declared type of
the constructor is closed; its binders may have any names but such as start like temporary ones, and
a name may be repeated.  The fresh binders have distinct names, none of which is taken, and the
constructor with fresh binders has the declared type up to the names of binders: renaming is
simultaneous.  In a context over the taken names with the fresh binders added, the constructor
applied to these has a type that is convertible with the family at the fresh indices.  It is
inferred to every depth that suffices for a normal form of the declared type, and to no other. -/
theorem infer_freshen (k : Kernel) (f : Family) (hf : f ∈ k.env.families) (ctor : FamilyCtor)
    (hctor : ctor ∈ f.ctors) (U : Term) (hU : k.env.constType? ctor.name = some U)
    (hclosed : U.freeVars = []) (hnames : ∀ b ∈ ctor.binders, ¬ b.name.StartsWithHash)
    (taken : List Name) : (Binding.names (ctor.freshen taken).binders).Nodup ∧
    (∀ x ∈ Binding.names (ctor.freshen taken).binders, x ∉ taken) ∧
    U.alphaEq (.pis (ctor.freshen taken).binders
      (.apps (.const f.name) (ctor.freshen taken).indices)) = true ∧
    (∀ (ρ : List (Name × Name)) (t : Term), (ρ.map Prod.fst).Nodup →
      (∀ p ∈ ρ, ¬ p.1.StartsWithHash ∧ ¬ p.2.StartsWithHash) →
        (∀ x ∈ t.freeVars, ¬ x.StartsWithHash) →
      (t.renameAll ρ).nameless = t.nameless.rename (Ref.onFree (renamedTo ρ))) ∧
    ∀ ctx : Context, Binding.names ctx ⊆ taken →
      (∀ V, k.normalize U = .ok V → ∃ T,
        k.infer (ctx ++ (ctor.freshen taken).binders)
          (.apps (.const ctor.name) ((ctor.freshen taken).binders.map fun b => .var b.name)) =
            .ok T ∧
        k.convertible T (.apps (.const f.name) (ctor.freshen taken).indices) = .ok true) ∧
      (k.normalize U = .error .exhausted →
        k.infer (ctx ++ (ctor.freshen taken).binders)
          (.apps (.const ctor.name) ((ctor.freshen taken).binders.map fun b => .var b.name)) =
            .error .exhausted) := by
  have hdeclared := Environment.constType?_of_familyCtor? (Environment.familyCtor?_of_mem hf hctor)
  obtain rfl := Option.some.inj (hdeclared.symm.trans hU)
  have hfresh :=
    freshenBinders_names (ρ := []) taken (orderedFrom_of_pis fun x hx => (hclosed ▸ hx : x ∈ [])).1
  have halpha := ctor.alphaEq_freshen hnames hclosed taken
  have hunused : ∀ x ∈ Binding.names (ctor.freshen taken).binders, x ∉ taken := by
    intro x hx
    obtain ⟨b, hb, rfl⟩ := List.mem_map.1 hx
    exact hfresh.unused b hb
  refine ⟨hfresh.distinct, hunused, halpha, fun ρ t hdistinct hρ ht => ?_,
    fun ctx hctx => ⟨fun V hV => ?_, fun hnone => ?_⟩⟩
  · have hrenaming : IsRenaming (ρ.map Prod.snd) ρ :=
      ⟨hdistinct, fun p hp => (hρ p hp).1, fun p hp => (hρ p hp).2,
        fun p hp => List.mem_map_of_mem hp⟩
    exact hrenaming.nameless_renameAll ht
  · -- the constructor has the type of the fresh telescope, and its binders are the variables that
    -- follow
    obtain ⟨V', hV', heq⟩ := (normalize_eq_ok.1 hV).of_nameless_eq (Term.alphaEq_iff.1 halpha)
    obtain ⟨n, hn⟩ := Nat.exists_eq_add_of_lt hV'.length_lt
    have hconst :
        k.checkBy (k.inferAt (n + 1)) (ctx ++ (ctor.freshen taken).binders) (.const ctor.name)
        (.pis (ctor.freshen taken).binders (.apps (.const f.name) (ctor.freshen taken).indices)) =
          .ok () := by
      refine checkBy_inferAt.2 ⟨V, V', Except.bind_eq_ok.2 ⟨_, ?_, hV⟩, hV', heq⟩
      simp only [typeOf, hU]
      rfl
    have hevidence := checkBy_apps (fun b hb => ?_) hconst
    · rw [show n + 1 + (ctor.freshen taken).binders.length = k.depth by omega] at hevidence
      exact checkBy_eq_ok.1 hevidence
    · have hname : b.name ∉ Binding.names ctx :=
        fun hmem => hunused _ (List.mem_map_of_mem hb) (hctx hmem)
      rw [Context.lookup?_append_of_not_mem hname]
      exact Context.lookup?_of_mem hfresh.distinct hb
  · refine inferAt_apps_exhausted (fun n => ?_) _ k.depth
    cases n with
    | zero => rfl
    | succ n =>
      rw [inferAt, typeOf, hU]
      exact hnone

end Kernel

namespace Sample

/-- Evidence of a tree `x1`, by another tree and an equation between the two.  The equation has the
name of the other tree. -/
def link : FamilyCtor :=
  ⟨"link", [⟨"x", .const "shape"⟩, ⟨"x1", .const "shape"⟩,
    ⟨"x", .eq (.const "shape") (.var "x1") (.var "x")⟩], [.var "x1"]⟩

/-- The family of that constructor. -/
def linkFamily : Family :=
  ⟨"L", [.const "shape"], [link]⟩

/-- The kernel with that family. -/
def linkKernel : Kernel where
  env := ⟨[Examples.shape], [linkFamily], [], by decide⟩
  registry := .default
  depth := 12

end Sample

/-- With `x` taken, the first binder becomes `x1` and the second `x11`; the first is not taken for
the second on the way.  The evidence `link x1 x11 x2` is of `x11` then. -/
theorem Kernel.infer_freshen_link :
    Sample.link.freshen ["x"] = ⟨"link", [⟨"x1", .const "shape"⟩, ⟨"x11", .const "shape"⟩,
      ⟨"x2", .eq (.const "shape") (.var "x11") (.var "x1")⟩], [.var "x11"]⟩ ∧
    ((Term.pair (.var "x") (.var "x1")).renameAll [("x", "x1"), ("x1", "x")]).nameless =
      (Term.pair (.var "x1") (.var "x")).nameless ∧
    ∃ T, Sample.linkKernel.infer [⟨"x", .unit⟩, ⟨"x1", .const "shape"⟩, ⟨"x11", .const "shape"⟩,
        ⟨"x2", .eq (.const "shape") (.var "x11") (.var "x1")⟩]
        (.apps (.const "link") [.var "x1", .var "x11", .var "x2"]) = .ok T ∧
      Sample.linkKernel.convertible T (.app (.const "L") (.var "x11")) = .ok true := by
  have hfresh : Sample.link.freshen ["x"] =
    ⟨"link", [⟨"x1", .const "shape"⟩, ⟨"x11", .const "shape"⟩,
    ⟨"x2", .eq (.const "shape") (.var "x11") (.var "x1")⟩], [.var "x11"]⟩ := by decide +kernel
  have hnormal :
      Sample.linkKernel.normalize (.pis Sample.link.binders (.app (.const "L") (.var "x1"))) =
      .ok (.pis Sample.link.binders (.app (.const "L") (.var "x1"))) :=
        Except.toOption_eq_some.1 (by decide +kernel)
  obtain ⟨-, -, -, hrename, hinfer⟩ := infer_freshen Sample.linkKernel Sample.linkFamily
    List.mem_cons_self Sample.link
    List.mem_cons_self (.pis Sample.link.binders (.app (.const "L") (.var "x1")))
      (by decide +kernel) (by decide +kernel)
    (by decide) ["x"]
  rw [hfresh] at hinfer
  exact ⟨hfresh, hrename [("x", "x1"), ("x1", "x")] (.pair (.var "x") (.var "x1")) (by decide)
    (by decide) (by decide), (hinfer [⟨"x", .unit⟩] (by decide)).1 _ hnormal⟩

end UniqueEvidence
