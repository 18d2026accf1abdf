/-
Equality up to the names of bound variables.

* `Term.IsCongruence`: an equivalence between terms that every term form respects;
* `Term.RenamesBinders`, `Term.Renamed`: a relation by which a binder may take any name that is not
  free in its body, and the smallest congruence of this kind: the two terms differ in the names of
  bound variables only;
* `Term.IsCongruence.of_nameless_eq`: **terms with the same translation are renamed into one
  another**;
* `Term.alphaEq_exact`: **alpha-equality is equality of translations**, and so that smallest
  congruence.
-/
import UniqueEvidence.Proofs.Substitution

namespace UniqueEvidence

namespace Term

/-! ### Congruences -/

/-- An equivalence that every term form respects.  The five forms without parts are related to
themselves. -/
structure IsCongruence (R : Term → Term → Prop) : Prop extends Equivalence R where
  app : ∀ {f g a b : Term}, R f g → R a b → R (app f a) (app g b)
  lam : ∀ (x : Name) {A B a b : Term}, R A B → R a b → R (lam x A a) (lam x B b)
  pi : ∀ (x : Name) {A B a b : Term}, R A B → R a b → R (pi x A a) (pi x B b)
  prod : ∀ {a b c d : Term}, R a b → R c d → R (prod a c) (prod b d)
  pair : ∀ {a b c d : Term}, R a b → R c d → R (pair a c) (pair b d)
  eq : ∀ {A B l m r s : Term}, R A B → R l m → R r s → R (eq A l r) (eq B m s)
  reflexivity : ∀ {A B a b : Term}, R A B → R a b → R (Term.refl A a) (Term.refl B b)
  transport : ∀ {h h' s s' d d' p p' v v' : Term}, R h h' → R s s' → R d d' → R p p' → R v v' →
    R (transport h s d p v) (transport h' s' d' p' v')

/-- A binder may take any name that is not free in its body. -/
structure RenamesBinders (R : Term → Term → Prop) : Prop where
  lam : ∀ (x : Name) {z : Name} (ty : Term) {body : Term}, z ∉ body.freeVars →
    R (lam x ty body) (lam z ty (body.subst x (var z)))
  pi : ∀ (x : Name) {z : Name} (ty : Term) {body : Term}, z ∉ body.freeVars →
    R (pi x ty body) (pi z ty (body.subst x (var z)))

/-- The terms differ in the names of bound variables only: any number of binders, at any place, take
other names. -/
def Renamed (a b : Term) : Prop :=
  ∀ R, IsCongruence R → RenamesBinders R → R a b

/-! ### Renaming and translation -/

lemma alphaEq_rel :
    (fun a b : Term => a.alphaEq b = true) = fun a b => a.nameless = b.nameless := by
  funext a b
  rw [alphaEq_iff]

lemma isCongruence_alphaEq : IsCongruence fun a b : Term => a.alphaEq b = true := by
  rw [alphaEq_rel]
  refine ⟨⟨fun _ => rfl, Eq.symm, Eq.trans⟩, ?_, ?_, ?_, ?_, ?_, ?_, ?_, ?_⟩ <;> simp_all [nameless]

/-- The translation does not see the name of a binder. -/
lemma renamesBinders_alphaEq : RenamesBinders fun a b : Term => a.alphaEq b = true := by
  rw [alphaEq_rel]
  constructor <;>
  · intro x z ty body hz
    simp only [nameless, nameless_subst]
    rw [capture_renamed (mt occurs_nameless.1 hz)]

/-- Bodies with the same translation below their binders have the same translation once a new name
is put for both bound variables. -/
lemma exists_nameless_opened {x y : Name} {b c : Term}
    (h : b.nameless.rename (Ref.capture x) = c.nameless.rename (Ref.capture y)) :
    ∃ z, z ∉ b.freeVars ∧ z ∉ c.freeVars ∧
      (b.subst x (var z)).nameless = (c.subst y (var z)).nameless := by
  have hfresh := fresh_not_mem x (b.freeVars ++ c.freeVars)
  rw [List.mem_append, not_or] at hfresh
  exact ⟨_, hfresh.1, hfresh.2, by rw [nameless_contract, nameless_contract, h]⟩

/-- **Terms with the same translation** are related by every congruence that renames binders. -/
theorem IsCongruence.of_nameless_eq {R : Term → Term → Prop} (hR : IsCongruence R)
    (hnames : RenamesBinders R) {a b : Term} (h : a.nameless = b.nameless) : R a b := by
  -- by induction on the size: two binders are opened with one new name, which keeps the sizes of
  -- their bodies
  induction hn : a.size using Nat.strong_induction_on generalizing a b with
  | _ n ih =>
    subst hn
    have ihs : ∀ u w : Term, u.size < a.size → u.nameless = w.nameless → R u w :=
      fun u w hu huw => ih _ hu huw rfl
    cases a with
    | var | const | sort | unit | tt => cases b <;> simp_all [nameless, hR.refl]
    | app f u =>
      simp only [size] at ihs
      cases b with
      | app g w =>
        simp only [nameless, Nameless.app.injEq] at h
        exact hR.app (ihs f g (by omega) h.1) (ihs u w (by omega) h.2)
      | _ => simp [nameless] at h
    | prod u v =>
      simp only [size] at ihs
      cases b with
      | prod u' v' =>
        simp only [nameless, Nameless.prod.injEq] at h
        exact hR.prod (ihs u u' (by omega) h.1) (ihs v v' (by omega) h.2)
      | _ => simp [nameless] at h
    | pair u v =>
      simp only [size] at ihs
      cases b with
      | pair u' v' =>
        simp only [nameless, Nameless.pair.injEq] at h
        exact hR.pair (ihs u u' (by omega) h.1) (ihs v v' (by omega) h.2)
      | _ => simp [nameless] at h
    | refl ty u =>
      simp only [size] at ihs
      cases b with
      | refl ty' u' =>
        simp only [nameless, Nameless.refl.injEq] at h
        exact hR.reflexivity (ihs ty ty' (by omega) h.1) (ihs u u' (by omega) h.2)
      | _ => simp [nameless] at h
    | eq ty l r =>
      simp only [size] at ihs
      cases b with
      | eq ty' l' r' =>
        simp only [nameless, Nameless.eq.injEq] at h
        exact hR.eq (ihs ty ty' (by omega) h.1) (ihs l l' (by omega) h.2.1)
          (ihs r r' (by omega) h.2.2)
      | _ => simp [nameless] at h
    | transport x s d p v =>
      simp only [size] at ihs
      cases b with
      | transport x' s' d' p' v' =>
        simp only [nameless, Nameless.transport.injEq] at h
        obtain ⟨hx, hs, hd, hp, hv⟩ := h
        exact hR.transport (ihs x x' (by omega) hx) (ihs s s' (by omega) hs)
          (ihs d d' (by omega) hd) (ihs p p' (by omega) hp) (ihs v v' (by omega) hv)
      | _ => simp [nameless] at h
    | lam x ty body =>
      simp only [size] at ihs
      cases b with
      | lam y ty' body' =>
        simp only [nameless, Nameless.lam.injEq] at h
        obtain ⟨z, hz, hz', hopened⟩ := exists_nameless_opened h.2
        have hbody : R (body.subst x (var z)) (body'.subst y (var z)) :=
          ihs _ _ (by rw [size_subst_var]; omega) hopened
        have hopen : R (.lam x ty body) (.lam z ty (body.subst x (var z))) := hnames.lam x ty hz
        have hclose : R (.lam z ty' (body'.subst y (var z))) (.lam y ty' body') :=
          hR.symm (hnames.lam y ty' hz')
        exact hR.trans hopen (hR.trans (hR.lam z (ihs ty ty' (by omega) h.1) hbody) hclose)
      | _ => simp [nameless] at h
    | pi x ty body =>
      simp only [size] at ihs
      cases b with
      | pi y ty' body' =>
        simp only [nameless, Nameless.pi.injEq] at h
        obtain ⟨z, hz, hz', hopened⟩ := exists_nameless_opened h.2
        have hbody : R (body.subst x (var z)) (body'.subst y (var z)) :=
          ihs _ _ (by rw [size_subst_var]; omega) hopened
        have hopen : R (.pi x ty body) (.pi z ty (body.subst x (var z))) := hnames.pi x ty hz
        have hclose : R (.pi z ty' (body'.subst y (var z))) (.pi y ty' body') :=
          hR.symm (hnames.pi y ty' hz')
        exact hR.trans hopen (hR.trans (hR.pi z (ihs ty ty' (by omega) h.1) hbody) hclose)
      | _ => simp [nameless] at h

/-! ### Alpha-equality -/

/-- Terms that are equal up to bound names have the same free names. -/
lemma freeVars_of_alphaEq {a b : Term} (h : a.alphaEq b = true) (x : Name) :
    x ∈ a.freeVars ↔ x ∈ b.freeVars := by
  rw [← occurs_nameless, ← occurs_nameless, alphaEq_iff.1 h]

/-- **Alpha-equality is exact**: it holds of two terms if and only if they have the same
translation, and if and only if they differ in the names of bound variables only.  So it is a
congruence, and related terms have the same free names. -/
theorem alphaEq_exact (a b : Term) :
    (a.alphaEq b = true ↔ a.namelessUnder [] = b.namelessUnder []) ∧
    (a.alphaEq b = true ↔ Renamed a b) ∧
    IsCongruence (fun a b => a.alphaEq b = true) ∧
    (a.alphaEq b = true → ∀ x, x ∈ a.freeVars ↔ x ∈ b.freeVars) := by
  refine ⟨?_, ⟨fun h R hR hnames => ?_, fun h => ?_⟩, isCongruence_alphaEq, freeVars_of_alphaEq⟩
  · rw [namelessUnder_nil, namelessUnder_nil, alphaEq_iff]
  · exact hR.of_nameless_eq hnames (alphaEq_iff.1 h)
  · exact h _ isCongruence_alphaEq renamesBinders_alphaEq

/-- Binders of one name below one another, and binders of two names: the bound variables refer to
the inner ones. -/
theorem alphaEq_exact_sample :
    (lam "x" (var "w") (lam "x" (const "D") (var "x"))).alphaEq
      (lam "y" (var "w") (lam "z" (const "D") (var "z"))) = true ∧
      ∀ x, x ∈ (lam "x" (var "w") (lam "x" (const "D") (var "x"))).freeVars ↔
        x ∈ (lam "y" (var "w") (lam "z" (const "D") (var "z"))).freeVars :=
  ⟨by decide, (alphaEq_exact _ _).2.2.2 (by decide)⟩

end Term

end UniqueEvidence
