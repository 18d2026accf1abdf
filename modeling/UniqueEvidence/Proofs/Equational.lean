/-
Conversion as an equational theory.

* `Term.Equational`: the smallest congruence on named terms that contains alpha-equivalence and both
  computation steps;
* `Term.equational_normalize`: normalisation stays in the theory;
* `Term.Equational.conv`: equal terms have convertible translations;
* `Term.convertible_iff_equational`: **the conversion test decides the theory** on terms that have a
  normal form.
-/
import UniqueEvidence.Proofs.NormalForm

namespace UniqueEvidence

namespace Term

/-- The equations between terms: renaming of bound variables, unfolding of an applied function,
transport along reflexivity, and what follows from them in every position, below binders too. -/
inductive Equational : Term → Term → Prop
  | alpha {a b : Term} : a.nameless = b.nameless → Equational a b
  | beta (x : Name) (ty body arg : Term) : Equational (app (lam x ty body) arg) (body.subst x arg)
  | cancel (head src dst ty a value : Term) :
    Equational (transport head src dst (refl ty a) value) value
  | symm {a b : Term} : Equational a b → Equational b a
  | trans {a b c : Term} : Equational a b → Equational b c → Equational a c
  | app {f g a b : Term} : Equational f g → Equational a b → Equational (app f a) (app g b)
  | lam (x : Name) {A B a b : Term} : Equational A B → Equational a b →
    Equational (lam x A a) (lam x B b)
  | pi (x : Name) {A B a b : Term} : Equational A B → Equational a b →
    Equational (pi x A a) (pi x B b)
  | prod {A B a b : Term} : Equational A B → Equational a b → Equational (prod A a) (prod B b)
  | pair {A B a b : Term} : Equational A B → Equational a b → Equational (pair A a) (pair B b)
  | eq {A B l m r s : Term} : Equational A B → Equational l m → Equational r s →
    Equational (eq A l r) (eq B m s)
  | refl {A B a b : Term} : Equational A B → Equational a b → Equational (refl A a) (refl B b)
  | transport {h h' s s' d d' p p' v v' : Term} : Equational h h' →
      Equational s s' → Equational d d' →
      Equational p p' → Equational v v' →
        Equational (transport h s d p v) (transport h' s' d' p' v')

-- the five forms without parts need no rule of their own: they are equal to themselves by renaming
lemma Equational.rfl {t : Term} : Equational t t :=
  .alpha (Eq.refl _)

/-- Equal terms have convertible translations. -/
theorem Equational.conv {a b : Term} (h : Equational a b) : a.nameless.Conv b.nameless := by
  induction h with
  | alpha h => exact h ▸ .rfl
  | beta x ty body arg =>
    rw [nameless_contract]
    exact .beta _ _ _
  | cancel head src dst ty a value => exact .cancel _ _ _ _ _ _
  | symm _ ih => exact ih.symm
  | trans _ _ ih₁ ih₂ => exact ih₁.trans ih₂
  | app _ _ ihf iha => exact ihf.app iha
  | lam x _ _ ihA ihb => exact ihA.lam (ihb.rename _)
  | pi x _ _ ihA ihb => exact ihA.pi (ihb.rename _)
  | prod _ _ iha ihb => exact iha.prod ihb
  | pair _ _ iha ihb => exact iha.pair ihb
  | eq _ _ _ ihA ihl ihr => exact ihA.eq ihl ihr
  | refl _ _ ihA iha => exact ihA.refl iha
  | transport _ _ _ _ _ ihh ihs ihd ihp ihv => exact ihh.transport ihs ihd ihp ihv

/-- A term equals its normal form. -/
theorem equational_normalize {depth : Nat} {t u : Term} (h : t.normalize depth = some u) :
    Equational t u := by
  induction depth generalizing t u with
  | zero => cases h
  | succ depth ih =>
    cases t with
    | var | const | sort | unit | tt =>
      obtain rfl := Option.some.inj h
      exact .rfl
    | app fn arg =>
      obtain ⟨fn', hfn, arg', harg, h⟩ := normalize_app h
      have happ : Equational (app fn arg) (app fn' arg') := (ih hfn).app (ih harg)
      rcases h with ⟨x, ty, body, rfl, h⟩ | ⟨-, rfl⟩
      · exact (happ.trans (.beta x ty body arg')).trans (ih h)
      · exact happ
    | transport head src dst proof value =>
      obtain ⟨proof', hproof, h⟩ := normalize_transport h
      rcases h with ⟨ty, a, rfl, hvalue⟩ |
        ⟨-, head', src', dst', value', hhead, hsrc, hdst, hvalue, rfl⟩
      · -- the head and the endpoints are dropped, and need not have a normal form
        exact ((Equational.rfl.transport .rfl .rfl (ih hproof) .rfl).trans
          (.cancel _ _ _ _ _ _)).trans (ih hvalue)
      · exact (ih hhead).transport (ih hsrc) (ih hdst) (ih hproof) (ih hvalue)
    | lam x ty body =>
      simp only [normalize, Option.bind_eq_bind, Option.bind_eq_some_iff, Option.pure_def,
        Option.some.injEq] at h
      obtain ⟨ty', hty, body', hbody, rfl⟩ := h
      exact (ih hty).lam x (ih hbody)
    | pi x ty body =>
      simp only [normalize, Option.bind_eq_bind, Option.bind_eq_some_iff, Option.pure_def,
        Option.some.injEq] at h
      obtain ⟨ty', hty, body', hbody, rfl⟩ := h
      exact (ih hty).pi x (ih hbody)
    | prod a b =>
      simp only [normalize, Option.bind_eq_bind, Option.bind_eq_some_iff, Option.pure_def,
        Option.some.injEq] at h
      obtain ⟨a', ha, b', hb, rfl⟩ := h
      exact (ih ha).prod (ih hb)
    | pair a b =>
      simp only [normalize, Option.bind_eq_bind, Option.bind_eq_some_iff, Option.pure_def,
        Option.some.injEq] at h
      obtain ⟨a', ha, b', hb, rfl⟩ := h
      exact (ih ha).pair (ih hb)
    | refl ty value =>
      simp only [normalize, Option.bind_eq_bind, Option.bind_eq_some_iff, Option.pure_def,
        Option.some.injEq] at h
      obtain ⟨a', ha, b', hb, rfl⟩ := h
      exact (ih ha).refl (ih hb)
    | eq ty lhs rhs =>
      simp only [normalize, Option.bind_eq_bind, Option.bind_eq_some_iff, Option.pure_def,
        Option.some.injEq] at h
      obtain ⟨a', ha, b', hb, c', hc, rfl⟩ := h
      exact (ih ha).eq (ih hb) (ih hc)

/-- Terms with normal forms are equal if their translations are convertible. -/
lemma equational_of_conv {da db : Nat} {a b a' b' : Term} (ha : a.normalize da = some a')
    (hb : b.normalize db = some b') (h : a.nameless.Conv b.nameless) : Equational a b := by
  obtain ⟨hreda, hnorma⟩ := normalize_spec ha
  obtain ⟨hredb, hnormb⟩ := normalize_spec hb
  have hnormal := ((Nameless.Conv.of_reduces hreda).symm.trans h).trans (.of_reduces hredb)
  have halpha : Equational a' b' := .alpha (hnormal.eq_of_normal hnorma hnormb)
  exact ((equational_normalize ha).trans halpha).trans (equational_normalize hb).symm

/-- The conversion test answers as soon as both normal forms are found. -/
lemma convertible_of_normalize {da db depth : Nat} {a b a' b' : Term}
    (ha : a.normalize da = some a') (hb : b.normalize db = some b') (hda : da ≤ depth)
    (hdb : db ≤ depth) : convertible depth a b = some (a'.alphaEq b') := by
  simp [convertible, normalize_mono hda ha, normalize_mono hdb hb]

/-- **The conversion test decides the equational theory** of terms that have a normal form: whenever
the depth suffices to find the two normal forms it answers, and the answer is yes exactly if the
terms are equal in the theory. -/
theorem convertible_iff_equational {da db : Nat} {a b a' b' : Term} (ha : a.normalize da = some a')
    (hb : b.normalize db = some b') {depth : Nat} (hda : da ≤ depth) (hdb : db ≤ depth) :
    ∃ answer, convertible depth a b = some answer ∧ (answer = true ↔ Equational a b) := by
  have hanswer := convertible_of_normalize ha hb hda hdb
  refine ⟨_, hanswer, ?_⟩
  rw [convertible_iff hanswer]
  exact ⟨equational_of_conv ha hb, Equational.conv⟩

/-- An unfolding that has to rename, against a function with another bound name. -/
theorem convertible_iff_equational_sample : ∃ answer, convertible 4
        (app (lam "x" (const "D") (lam "y" (const "D") (var "x")))
          (transport (const "F") tt tt (refl unit tt) (var "y")))
        (lam "z" (const "D") (var "y")) = some answer ∧
      (answer = true ↔ Equational
        (app (lam "x" (const "D") (lam "y" (const "D") (var "x")))
          (transport (const "F") tt tt (refl unit tt) (var "y")))
        (lam "z" (const "D") (var "y"))) := by
  have ha : normalize 4 (app (lam "x" (const "D") (lam "y" (const "D") (var "x")))
      (transport (const "F") tt tt (refl unit tt) (var "y"))) =
        some (lam "y1" (const "D") (var "y")) := by decide +kernel
  have hb : normalize 2 (lam "z" (const "D") (var "y")) =
    some (lam "z" (const "D") (var "y")) := by decide
  exact convertible_iff_equational ha hb (Nat.le_refl 4) (by decide)

end Term

end UniqueEvidence
