/-
Normalisation, step by step.

* `Frame`, `Frame.plug`: a term form with one part left out, and a term put there.  Bodies of
  binders and type annotations are parts like any other;
* `Term.Contracts`, `Term.Step`: the two computations at the root of a term, and one of them at any
  place;
* `Term.IsPart`: the places of a term.  In a normal form none of them contracts
  (`Term.not_contracts_of_isPart`);
* `Term.Normalizes`: the rules of normalisation to a depth; the function follows them
  (`Term.normalize_eq_some_iff`);
* `Term.Normalizes.steps`: **a normal form is found by steps alone**, without renaming anything on
  the way;
* `Term.Normalizes.idem`: normalisation to the same depth leaves what it found as it is;
* `Term.Normalizes.under`: **to the same depth, terms that differ in bound names have normal forms
  that differ in bound names**;
* `Term.normalize_computes`: all of this.
-/
import UniqueEvidence.Proofs.AlphaEquality
import UniqueEvidence.Proofs.NormalForm

namespace UniqueEvidence

open Relation (ReflTransGen)

/-! ### Places of a term -/

/-- A term form with one part left out. -/
inductive Frame where
  | appFn (arg : Term)
  | appArg (fn : Term)
  | lamTy (x : Name) (body : Term)
  | lamBody (x : Name) (ty : Term)
  | piTy (x : Name) (body : Term)
  | piBody (x : Name) (ty : Term)
  | prodFst (snd : Term)
  | prodSnd (fst : Term)
  | pairFst (snd : Term)
  | pairSnd (fst : Term)
  | eqTy (lhs rhs : Term)
  | eqLhs (ty rhs : Term)
  | eqRhs (ty lhs : Term)
  | reflTy (value : Term)
  | reflValue (ty : Term)
  | transportHead (src dst proof value : Term)
  | transportSrc (head dst proof value : Term)
  | transportDst (head src proof value : Term)
  | transportProof (head src dst value : Term)
  | transportValue (head src dst proof : Term)

/-- The frame with a term for the part left out.  Nothing is renamed: a binder of the frame may
capture. -/
def Frame.plug : Frame → Term → Term
  | appFn arg, t => .app t arg
  | appArg fn, t => .app fn t
  | lamTy x body, t => .lam x t body
  | lamBody x ty, t => .lam x ty t
  | piTy x body, t => .pi x t body
  | piBody x ty, t => .pi x ty t
  | prodFst snd, t => .prod t snd
  | prodSnd fst, t => .prod fst t
  | pairFst snd, t => .pair t snd
  | pairSnd fst, t => .pair fst t
  | eqTy lhs rhs, t => .eq t lhs rhs
  | eqLhs ty rhs, t => .eq ty t rhs
  | eqRhs ty lhs, t => .eq ty lhs t
  | reflTy value, t => .refl t value
  | reflValue ty, t => .refl ty t
  | transportHead src dst proof value, t => .transport t src dst proof value
  | transportSrc head dst proof value, t => .transport head t dst proof value
  | transportDst head src proof value, t => .transport head src t proof value
  | transportProof head src dst value, t => .transport head src dst t value
  | transportValue head src dst proof, t => .transport head src dst proof t

namespace Term

/-- The first term is the second, or a part of it at any depth. -/
inductive IsPart (s : Term) : Term → Prop
  | self : IsPart s s
  | inside (F : Frame) {t : Term} : IsPart s t → IsPart s (F.plug t)

/-- One computation at the root: an applied function is unfolded, or a transport along reflexivity
gives back its value. -/
inductive Contracts : Term → Term → Prop
  | beta (x : Name) (ty body arg : Term) : Contracts (app (lam x ty body) arg) (body.subst x arg)
  | cancel (head src dst ty a value : Term) :
    Contracts (transport head src dst (refl ty a) value) value

/-- One computation at any place. -/
inductive Step : Term → Term → Prop
  | root {s t : Term} : Contracts s t → Step s t
  | inside (F : Frame) {s t : Term} : Step s t → Step (F.plug s) (F.plug t)

/-! ### Normal forms have no redex -/

lemma isNormal_of_plug {F : Frame} {t : Term} (h : (F.plug t).nameless.IsNormal) :
    t.nameless.IsNormal := by
  cases F <;> simp_all [Frame.plug, nameless, Nameless.IsNormal, Nameless.isNormal_rename]

lemma isNormal_of_isPart {s t : Term} (h : IsPart s t) (ht : t.nameless.IsNormal) :
    s.nameless.IsNormal := by
  induction h with
  | self => exact ht
  | inside F _ ih => exact ih (isNormal_of_plug ht)

/-- No part of a normal form contracts. -/
lemma not_contracts_of_isPart {s t u : Term} (ht : t.nameless.IsNormal) (hs : IsPart s t) :
    ¬ Contracts s u := by
  have hnormal := isNormal_of_isPart hs ht
  rintro (⟨x, ty, body, arg⟩ | ⟨head, src, dst, ty, a, value⟩)
  · exact hnormal.1 _ _ rfl
  · exact hnormal.1 _ _ rfl

/-! ### How a normal form is found -/

/-- The rules of normalisation to a depth.  A transport along reflexivity needs no normal form of
its head and endpoints. -/
inductive Normalizes : Nat → Term → Term → Prop
  | var {n : Nat} (x : Name) : Normalizes (n + 1) (var x) (var x)
  | const {n : Nat} (c : Name) : Normalizes (n + 1) (const c) (const c)
  | sort {n : Nat} : Normalizes (n + 1) sort sort
  | unit {n : Nat} : Normalizes (n + 1) unit unit
  | tt {n : Nat} : Normalizes (n + 1) tt tt
  | beta {n : Nat} {fn arg ty body arg' u : Term} {x : Name} : Normalizes n fn (lam x ty body) →
      Normalizes n arg arg' → Normalizes n (body.subst x arg') u → Normalizes (n + 1) (app fn arg) u
  | app {n : Nat} {fn arg fn' arg' : Term} : Normalizes n fn fn' →
      (∀ x ty body, fn' ≠ lam x ty body) →
      Normalizes n arg arg' → Normalizes (n + 1) (app fn arg) (app fn' arg')
  | lam {n : Nat} (x : Name) {ty body ty' body' : Term} : Normalizes n ty ty' →
      Normalizes n body body' → Normalizes (n + 1) (lam x ty body) (lam x ty' body')
  | pi {n : Nat} (x : Name) {ty body ty' body' : Term} : Normalizes n ty ty' →
      Normalizes n body body' → Normalizes (n + 1) (pi x ty body) (pi x ty' body')
  | prod {n : Nat} {a b a' b' : Term} : Normalizes n a a' → Normalizes n b b' →
    Normalizes (n + 1) (prod a b) (prod a' b')
  | pair {n : Nat} {a b a' b' : Term} : Normalizes n a a' → Normalizes n b b' →
    Normalizes (n + 1) (pair a b) (pair a' b')
  | eq {n : Nat} {ty l r ty' l' r' : Term} : Normalizes n ty ty' →
      Normalizes n l l' → Normalizes n r r' → Normalizes (n + 1) (eq ty l r) (eq ty' l' r')
  | refl {n : Nat} {ty a ty' a' : Term} : Normalizes n ty ty' → Normalizes n a a' →
      Normalizes (n + 1) (refl ty a) (refl ty' a')
  | cancel {n : Nat} {head src dst proof value ty a u : Term} : Normalizes n proof (refl ty a) →
      Normalizes n value u → Normalizes (n + 1) (transport head src dst proof value) u
  | transport {n : Nat} {head src dst proof value head' src' dst' proof' value' : Term} :
      Normalizes n proof proof' →
      (∀ ty a, proof' ≠ refl ty a) → Normalizes n head head' → Normalizes n src src' →
        Normalizes n dst dst' →
      Normalizes n value value' →
        Normalizes (n + 1) (transport head src dst proof value)
        (transport head' src' dst' proof' value')

/-- Normalisation follows the rules. -/
lemma normalizes_of_normalize {depth : Nat} {t u : Term} (h : t.normalize depth = some u) :
    Normalizes depth t u := by
  induction depth generalizing t u with
  | zero => cases h
  | succ depth ih =>
    cases t with
    | var | const | sort | unit | tt =>
      obtain rfl := Option.some.inj h
      constructor
    | app fn arg =>
      obtain ⟨fn', hfn, arg', harg, ⟨x, ty, body, rfl, h⟩ | ⟨hlam, rfl⟩⟩ := normalize_app h
      · exact .beta (ih hfn) (ih harg) (ih h)
      · exact .app (ih hfn) hlam (ih harg)
    | transport head src dst proof value =>
      obtain ⟨proof', hproof, ⟨ty, a, rfl, hvalue⟩ |
          ⟨hrefl, head', src', dst', value', hhead, hsrc, hdst, hvalue, rfl⟩⟩ :=
        normalize_transport h
      · exact .cancel (ih hproof) (ih hvalue)
      · exact .transport (ih hproof) hrefl (ih hhead) (ih hsrc) (ih hdst) (ih hvalue)
    | lam _ a b | pi _ a b | prod a b | pair a b | refl a b =>
      simp only [normalize, Option.bind_eq_bind, Option.bind_eq_some_iff, Option.pure_def,
        Option.some.injEq] at h
      obtain ⟨a', ha, b', hb, rfl⟩ := h
      constructor
      · exact ih ha
      · exact ih hb
    | eq ty lhs rhs =>
      simp only [normalize, Option.bind_eq_bind, Option.bind_eq_some_iff, Option.pure_def,
        Option.some.injEq] at h
      obtain ⟨ty', hty, lhs', hlhs, rhs', hrhs, rfl⟩ := h
      exact .eq (ih hty) (ih hlhs) (ih hrhs)

/-- **The rules say what normalisation finds**, and to which depth. -/
theorem normalize_eq_some_iff {depth : Nat} {t u : Term} :
    t.normalize depth = some u ↔ Normalizes depth t u := by
  refine ⟨normalizes_of_normalize, fun h => ?_⟩
  induction h with
  | var | const | sort | unit | tt => rfl
  | app _ hlam _ ihfn iharg => simp [normalize, ihfn, iharg]
  | transport _ hrefl _ _ _ _ ihp ihh ihs ihd ihv => simp [normalize, ihp, ihh, ihs, ihd, ihv]
  | _ => simp [normalize, *]

namespace Normalizes

variable {n : Nat} {t u : Term}

lemma succ (h : Normalizes n t u) : Normalizes (n + 1) t u :=
  normalize_eq_some_iff.1 (normalize_mono n.le_succ (normalize_eq_some_iff.2 h))

/-- To the same depth, a normal form is found for a normal form, and is the same. -/
theorem idem (h : Normalizes n t u) : Normalizes n u u := by
  induction h with
  | beta _ _ _ _ _ ih => exact ih.succ
  | cancel _ _ _ ih => exact ih.succ
  | app _ hlam _ ihfn iharg => exact .app ihfn hlam iharg
  | transport _ hrefl _ _ _ _ ihp ihh ihs ihd ihv => exact .transport ihp hrefl ihh ihs ihd ihv
  | _ => constructor <;> assumption

/-! ### Normalisation by steps -/

lemma steps_plug (F : Frame) {s t : Term} (h : ReflTransGen Step s t) :
    ReflTransGen Step (F.plug s) (F.plug t) :=
  ReflTransGen.lift F.plug (fun _ _ => Step.inside F) _ _ h

/-- **A normal form is found by steps**, which are made in the order of the parts. -/
theorem steps (h : Normalizes n t u) : ReflTransGen Step t u := by
  induction h with
  | var | const | sort | unit | tt => exact .refl
  | @beta n fn arg ty body arg' u x _ _ _ ihfn iharg ih =>
    have hparts : ReflTransGen Step (.app fn arg) (.app (.lam x ty body) arg') :=
      (steps_plug (.appFn arg) ihfn).trans (steps_plug (.appArg _) iharg)
    exact (hparts.tail (.root (.beta x ty body arg'))).trans ih
  | app _ _ _ ihfn iharg => exact (steps_plug (.appFn _) ihfn).trans (steps_plug (.appArg _) iharg)
  | lam x _ _ ihty ihbody =>
    exact (steps_plug (.lamTy x _) ihty).trans (steps_plug (.lamBody x _) ihbody)
  | pi x _ _ ihty ihbody =>
    exact (steps_plug (.piTy x _) ihty).trans (steps_plug (.piBody x _) ihbody)
  | prod _ _ iha ihb => exact (steps_plug (.prodFst _) iha).trans (steps_plug (.prodSnd _) ihb)
  | pair _ _ iha ihb => exact (steps_plug (.pairFst _) iha).trans (steps_plug (.pairSnd _) ihb)
  | eq _ _ _ ihty ihl ihr =>
    exact ((steps_plug (.eqTy _ _) ihty).trans (steps_plug (.eqLhs _ _) ihl)).trans
      (steps_plug (.eqRhs _ _) ihr)
  | refl _ _ ihty iha => exact (steps_plug (.reflTy _) ihty).trans (steps_plug (.reflValue _) iha)
  | @cancel n head src dst proof value ty a u _ _ ihp ihv =>
    have hproof := steps_plug (.transportProof head src dst value) ihp
    exact (hproof.tail (.root (.cancel head src dst ty a value))).trans ihv
  | @transport n head src dst proof value head' src' dst' proof' value' _ _ _ _ _ _
      ihp ihh ihs ihd ihv =>
    calc
      ReflTransGen Step (.transport head src dst proof value)
          (.transport head src dst proof' value) :=
        steps_plug (.transportProof head src dst value) ihp
      ReflTransGen Step _ (.transport head' src dst proof' value) :=
        steps_plug (.transportHead src dst proof' value) ihh
      ReflTransGen Step _ (.transport head' src' dst proof' value) :=
        steps_plug (.transportSrc head' dst proof' value) ihs
      ReflTransGen Step _ (.transport head' src' dst' proof' value) :=
        steps_plug (.transportDst head' src' proof' value) ihd
      ReflTransGen Step _ (.transport head' src' dst' proof' value') :=
        steps_plug (.transportValue head' src' dst' proof') ihv

end Normalizes

/-! ### Normalisation and bound names -/

/-- Only a function has the translation of a function. -/
lemma exists_lam_of_namelessUnder {x : Name} {ty body t : Term} {xs ys : List Name}
    (h : (lam x ty body).namelessUnder xs = t.namelessUnder ys) :
    ∃ y ty' body', t = lam y ty' body' ∧
      body.namelessUnder (x :: xs) = body'.namelessUnder (y :: ys) := by
  cases t <;> simp_all [namelessUnder]

lemma exists_refl_of_namelessUnder {ty a t : Term} {xs ys : List Name}
    (h : (refl ty a).namelessUnder xs = t.namelessUnder ys) : ∃ ty' a', t = refl ty' a' := by
  cases t <;> simp_all [namelessUnder]

/-- **Normalisation does not see bound names.**  For terms with the same translation below binders
of given names, it finds normal forms with the same translation there, to the same depth. -/
theorem Normalizes.under {n : Nat} {t t' u : Term} {xs ys : List Name} (h : Normalizes n t u)
    (ht : t.namelessUnder xs = t'.namelessUnder ys) :
    ∃ u', Normalizes n t' u' ∧ u.namelessUnder xs = u'.namelessUnder ys := by
  induction h generalizing t' xs ys with
  | var | const | sort | unit | tt =>
    refine ⟨t', ?_, ht⟩
    cases t' <;> simp only [namelessUnder, reduceCtorEq] at ht
    constructor
  | @beta n fn arg ty body arg' u x _ _ _ ihfn iharg ih =>
    cases t' with
    | app g b =>
      simp only [namelessUnder, Nameless.app.injEq] at ht
      obtain ⟨g', hg, hfn⟩ := ihfn ht.1
      obtain ⟨b', hb, harg⟩ := iharg ht.2
      obtain ⟨y, ty', body', rfl, hbody⟩ := exists_lam_of_namelessUnder hfn
      -- contraction is instantiation of the bodies, and these have the same translation below their
      -- binders
      have hcontract : (body.subst x arg').namelessUnder xs =
          (body'.subst y b').namelessUnder ys := by
        rw [namelessUnder_contract, namelessUnder_contract, hbody, harg]
      obtain ⟨u', hu', hu⟩ := ih hcontract
      exact ⟨u', .beta hg hb hu', hu⟩
    | _ => simp [namelessUnder] at ht
  | app _ hlam _ ihfn iharg =>
    cases t' with
    | app g b =>
      simp only [namelessUnder, Nameless.app.injEq] at ht
      obtain ⟨g', hg, hfn⟩ := ihfn ht.1
      obtain ⟨b', hb, harg⟩ := iharg ht.2
      refine ⟨.app g' b', .app hg (fun y ty' body' hg' => ?_) hb,
        by rw [namelessUnder, namelessUnder, hfn, harg]⟩
      obtain ⟨x, ty, body, rfl, -⟩ := exists_lam_of_namelessUnder (hg' ▸ hfn.symm)
      exact hlam x ty body rfl
    | _ => simp [namelessUnder] at ht
  | cancel _ _ ihp ihv =>
    cases t' with
    | transport head src dst proof value =>
      simp only [namelessUnder, Nameless.transport.injEq] at ht
      obtain ⟨p', hp, hproof⟩ := ihp ht.2.2.2.1
      obtain ⟨ty', a', rfl⟩ := exists_refl_of_namelessUnder hproof
      obtain ⟨u', hv, hvalue⟩ := ihv ht.2.2.2.2
      exact ⟨u', .cancel hp hv, hvalue⟩
    | _ => simp [namelessUnder] at ht
  | transport _ hrefl _ _ _ _ ihp ihh ihs ihd ihv =>
    cases t' with
    | transport head src dst proof value =>
      simp only [namelessUnder, Nameless.transport.injEq] at ht
      obtain ⟨h', hh, hhead⟩ := ihh ht.1
      obtain ⟨s', hs, hsrc⟩ := ihs ht.2.1
      obtain ⟨d', hd, hdst⟩ := ihd ht.2.2.1
      obtain ⟨p', hp, hproof⟩ := ihp ht.2.2.2.1
      obtain ⟨v', hv, hvalue⟩ := ihv ht.2.2.2.2
      refine ⟨.transport h' s' d' p' v', .transport hp (fun ty' a' hp' => ?_) hh hs hd hv, ?_⟩
      · obtain ⟨ty, a, rfl⟩ := exists_refl_of_namelessUnder (hp' ▸ hproof.symm)
        exact hrefl ty a rfl
      · rw [namelessUnder, namelessUnder, hhead, hsrc, hdst, hproof, hvalue]
    | _ => simp [namelessUnder] at ht
  | eq _ _ _ ihty ihl ihr =>
    cases t' with
    | eq ty l r =>
      simp only [namelessUnder, Nameless.eq.injEq] at ht
      obtain ⟨ty', hty, htype⟩ := ihty ht.1
      obtain ⟨l', hl, hleft⟩ := ihl ht.2.1
      obtain ⟨r', hr, hright⟩ := ihr ht.2.2
      exact ⟨.eq ty' l' r', .eq hty hl hr,
        by rw [namelessUnder, namelessUnder, htype, hleft, hright]⟩
    | _ => simp [namelessUnder] at ht
  | lam | pi | prod | pair | refl =>
    rename_i iha ihb
    cases t' <;>
      simp only [namelessUnder, reduceCtorEq, Nameless.lam.injEq, Nameless.pi.injEq,
      Nameless.prod.injEq, Nameless.pair.injEq, Nameless.refl.injEq] at ht
    obtain ⟨a', ha, hfirst⟩ := iha ht.1
    obtain ⟨b', hb, hsecond⟩ := ihb ht.2
    refine ⟨_, by constructor <;> assumption, ?_⟩
    rw [namelessUnder, namelessUnder, hfirst, hsecond]

/-! ### Equations -/

/-- An equation is normalised part by part. -/
lemma normalize_eq_iff {depth : Nat} {ty lhs rhs u : Term} :
    (eq ty lhs rhs).normalize depth = some u ↔
    ∃ n ty' lhs' rhs', depth = n + 1 ∧ ty.normalize n = some ty' ∧ lhs.normalize n = some lhs' ∧
      rhs.normalize n = some rhs' ∧
      u = eq ty' lhs' rhs' := by
  cases depth with
  | zero =>
    constructor
    · intro h
      cases h
    · rintro ⟨n, -, -, -, hn, -⟩
      cases hn
  | succ n =>
    simp only [normalize, Option.bind_eq_bind, Option.bind_eq_some_iff,
      Option.pure_def, Option.some.injEq]
    constructor
    · rintro ⟨ty', hty, lhs', hlhs, rhs', hrhs, rfl⟩
      exact ⟨n, ty', lhs', rhs', rfl, hty, hlhs, hrhs, rfl⟩
    · rintro ⟨_, ty', lhs', rhs', hn, hty, hlhs, hrhs, rfl⟩
      cases hn
      exact ⟨ty', hty, lhs', hlhs, rhs', hrhs, rfl⟩

/-- To the same depth, the parts of an equation in normal form are found for themselves. -/
lemma normalize_parts {depth : Nat} {t ty lhs rhs : Term}
    (h : t.normalize depth = some (eq ty lhs rhs)) :
    ∃ n, depth = n + 1 ∧ ty.normalize n = some ty ∧ lhs.normalize n = some lhs ∧
      rhs.normalize n = some rhs := by
  have hself := normalize_eq_some_iff.2 (normalize_eq_some_iff.1 h).idem
  obtain ⟨n, ty', lhs', rhs', hn, hty, hlhs, hrhs, heq⟩ := normalize_eq_iff.1 hself
  obtain ⟨rfl, rfl, rfl⟩ := eq.inj heq
  exact ⟨n, hn, hty, hlhs, hrhs⟩

/-! ### What normalisation computes -/

/-- Normalisation of terms that are equal up to bound names. -/
lemma normalize_of_alphaEq {depth : Nat} {t t' u : Term} (h : t.alphaEq t' = true)
    (hu : t.normalize depth = some u) :
    ∃ u', t'.normalize depth = some u' ∧ u.alphaEq u' = true := by
  have ht : t.namelessUnder [] = t'.namelessUnder [] := by simpa [alphaEq_iff] using h
  obtain ⟨u', hu', heq⟩ := (normalize_eq_some_iff.1 hu).under ht
  exact ⟨u', normalize_eq_some_iff.2 hu', by simpa [alphaEq_iff] using heq⟩

/-- **Normalisation computes normal forms.**  What it finds for `t` is reached from `t` by steps,
has no part that contracts, has no free names but those of `t`, and is found for itself, unchanged
and to the same depth.  For terms that are equal up to bound names it finds normal forms to the same
depths, and these are equal up to bound names. -/
theorem normalize_computes (depth : Nat) (t : Term) : (∀ u, t.normalize depth = some u →
      ReflTransGen Step t u ∧ (∀ s w, IsPart s u → ¬ Contracts s w) ∧
        (∀ x ∈ u.freeVars, x ∈ t.freeVars) ∧
        u.normalize depth = some u) ∧
    ∀ t', t.alphaEq t' = true →
      ((t.normalize depth).isSome ↔ (t'.normalize depth).isSome) ∧
        ∀ u u', t.normalize depth = some u → t'.normalize depth = some u' →
          u.alphaEq u' = true := by
  constructor
  · intro u hu
    have hrules := normalize_eq_some_iff.1 hu
    obtain ⟨hreduces, hnormal⟩ := normalize_spec hu
    refine ⟨hrules.steps, fun s w hs => not_contracts_of_isPart hnormal hs, fun x hx => ?_,
      normalize_eq_some_iff.2 hrules.idem⟩
    exact occurs_nameless.1 (hreduces.occurs (occurs_nameless.2 hx))
  · intro t' ht
    refine ⟨⟨fun h => ?_, fun h => ?_⟩, fun u u' hu hu' => ?_⟩
    · obtain ⟨u, hu⟩ := Option.isSome_iff_exists.1 h
      obtain ⟨u', hu', -⟩ := normalize_of_alphaEq ht hu
      rw [hu', Option.isSome_some]
    · obtain ⟨u', hu'⟩ := Option.isSome_iff_exists.1 h
      obtain ⟨u, hu, -⟩ := normalize_of_alphaEq (isCongruence_alphaEq.symm ht) hu'
      rw [hu, Option.isSome_some]
    · obtain ⟨w, hw, halpha⟩ := normalize_of_alphaEq ht hu
      rw [hu'] at hw
      rwa [Option.some.inj hw]

/-- An unfolding that has to rename a binder: the normal form is reached by steps, and where the
binder has another name from the start it needs no renaming, which leads to the same normal form up
to that name. -/
theorem normalize_computes_sample : ReflTransGen Step
        (app (lam "x" (const "D") (lam "y" (const "D") (var "x")))
          (transport (const "F") tt tt (refl unit tt) (var "y")))
        (lam "y1" (const "D") (var "y")) ∧
      normalize 4 (app (lam "x" (const "D") (lam "w" (const "D") (var "x")))
        (transport (const "F") tt tt (refl unit tt) (var "y"))) =
          some (lam "w" (const "D") (var "y")) ∧
      (lam "y1" (const "D") (var "y")).alphaEq (lam "w" (const "D") (var "y")) = true := by
  have hsample := normalize_computes 4
    (app (lam "x" (const "D") (lam "y" (const "D") (var "x")))
      (transport (const "F") tt tt (refl unit tt) (var "y")))
  have hrenamed : normalize 4 (app (lam "x" (const "D") (lam "y" (const "D") (var "x")))
      (transport (const "F") tt tt (refl unit tt) (var "y"))) =
        some (lam "y1" (const "D") (var "y")) := by decide +kernel
  have hkept : normalize 4 (app (lam "x" (const "D") (lam "w" (const "D") (var "x")))
      (transport (const "F") tt tt (refl unit tt) (var "y"))) =
        some (lam "w" (const "D") (var "y")) := by decide +kernel
  exact ⟨(hsample.1 _ hrenamed).1, hkept, (hsample.2 _ (by decide)).2 _ _ hrenamed hkept⟩

end Term

end UniqueEvidence
