/-
Normal forms, and what normalisation computes.

* `Nameless.IsNormal`: no redex anywhere, below binders and in annotations included;
* `Nameless.Conv.eq_of_normal`: convertible terms have one normal form;
* `Term.normalize_spec`: **normalisation reduces a term to a normal form**;
* `Term.normalize_mono`, `Term.normalize_of_isNormal`: more depth keeps what is found, and a normal
  form is found unchanged;
* `Term.convertible_iff`: where it answers, the conversion test decides conversion.
-/
import UniqueEvidence.Kernel.Basic
import UniqueEvidence.Proofs.Outcome
import UniqueEvidence.Proofs.Reduction
import UniqueEvidence.Proofs.Translation

namespace UniqueEvidence

namespace Nameless

/-! ### Normal forms -/

/-- The term has no redex. -/
def IsNormal : Nameless → Prop
  | ref _ | const _ | sort | unit | tt => True
  | app f a => (∀ A b, f ≠ lam A b) ∧ f.IsNormal ∧ a.IsNormal
  | lam a b | pi a b | prod a b | pair a b | refl a b => a.IsNormal ∧ b.IsNormal
  | eq A l r => A.IsNormal ∧ l.IsNormal ∧ r.IsNormal
  | transport h s d p v => (∀ A a, p ≠ refl A a) ∧ h.IsNormal ∧ s.IsNormal ∧ d.IsNormal ∧
    p.IsNormal ∧ v.IsNormal

lemma isNormal_rename {t : Nameless} {ρ : Ref → Ref} : (t.rename ρ).IsNormal ↔ t.IsNormal := by
  have hlam : ∀ {f : Nameless} {ρ : Ref → Ref}, (∀ A b, f.rename ρ ≠ lam A b) ↔
      ∀ A b, f ≠ lam A b := by
    intro f ρ
    cases f <;> simp [rename]
  have hrefl : ∀ {p : Nameless} {ρ : Ref → Ref}, (∀ A a, p.rename ρ ≠ refl A a) ↔
      ∀ A a, p ≠ refl A a := by
    intro p ρ
    cases p <;> simp [rename]
  induction t generalizing ρ <;> simp_all [rename, IsNormal]

/-- A normal form makes no step but the trivial one. -/
lemma Par.eq_of_normal {t u : Nameless} (h : Par t u) (ht : t.IsNormal) : u = t := by
  induction h with
  | beta A _ _ _ _ => exact absurd (Eq.refl _) (ht.1 _ _)
  | cancel h s d A a _ _ => exact absurd (Eq.refl _) (ht.1 _ _)
  | _ => simp_all [IsNormal]

lemma Reduces.eq_of_normal {t u : Nameless} (h : Reduces t u) (ht : t.IsNormal) : u = t := by
  induction h with
  | refl => rfl
  | tail _ hstep ih =>
    subst ih
    exact hstep.eq_of_normal ht

/-- What is convertible with a normal form reduces to it. -/
lemma Conv.reduces_normal {t u : Nameless} (h : Conv t u) (hu : u.IsNormal) : Reduces t u := by
  obtain ⟨w, htw, huw⟩ := h
  rwa [huw.eq_of_normal hu] at htw

/-- Convertible normal forms are equal. -/
theorem Conv.eq_of_normal {t u : Nameless} (h : Conv t u) (ht : t.IsNormal) (hu : u.IsNormal) :
    t = u :=
  ((h.reduces_normal hu).eq_of_normal ht).symm

end Nameless

namespace Term

/-! ### Normalisation -/

/-- A term whose translation is not a function is not one. -/
lemma nameless_ne_lam {t : Term} (h : ∀ x ty b, t ≠ lam x ty b) (A b : Nameless) :
    t.nameless ≠ .lam A b := by
  cases t <;> simp_all [nameless]

lemma nameless_ne_refl {t : Term} (h : ∀ ty v, t ≠ refl ty v) (A a : Nameless) :
    t.nameless ≠ .refl A a := by
  cases t <;> simp_all [nameless]

/-- How an application is normalised: its parts, and then the contracted body if there is a
function. -/
lemma normalize_app {depth : Nat} {fn arg u : Term}
    (h : (app fn arg).normalize (depth + 1) = some u) :
    ∃ fn', fn.normalize depth = some fn' ∧ ∃ arg', arg.normalize depth = some arg' ∧
      ((∃ x ty body, fn' = lam x ty body ∧ (body.subst x arg').normalize depth = some u) ∨
        (∀ x ty body, fn' ≠ lam x ty body) ∧ u = app fn' arg') := by
  simp only [normalize, Option.bind_eq_bind, Option.bind_eq_some_iff] at h
  obtain ⟨fn', hfn, arg', harg, h⟩ := h
  refine ⟨fn', hfn, arg', harg, ?_⟩
  split at h
  · exact .inl ⟨_, _, _, rfl, h⟩
  · exact .inr ⟨‹_›, (Option.some.inj h).symm⟩

/-- An equation is normalised to an equation. -/
lemma normalize_eq {depth : Nat} {ty lhs rhs u : Term}
    (h : (eq ty lhs rhs).normalize depth = some u) :
    ∃ depth' ty' lhs' rhs', ty.normalize depth' = some ty' ∧ u = eq ty' lhs' rhs' := by
  cases depth with
  | zero => cases h
  | succ depth =>
    simp only [normalize, Option.bind_eq_bind, Option.bind_eq_some_iff, Option.pure_def,
      Option.some.injEq] at h
    obtain ⟨ty', hty, lhs', -, rhs', -, rfl⟩ := h
    exact ⟨depth, ty', lhs', rhs', hty, rfl⟩

/-- How a transport is normalised: its proof first, which decides what becomes of the rest. -/
lemma normalize_transport {depth : Nat} {head src dst proof value u : Term}
    (h : (transport head src dst proof value).normalize (depth + 1) = some u) :
    ∃ proof', proof.normalize depth = some proof' ∧
      ((∃ ty a, proof' = refl ty a ∧ value.normalize depth = some u) ∨
        (∀ ty a, proof' ≠ refl ty a) ∧ ∃ head' src' dst' value', head.normalize depth = some head' ∧
          src.normalize depth = some src' ∧ dst.normalize depth = some dst' ∧
          value.normalize depth = some value' ∧ u = transport head' src' dst' proof' value') := by
  simp only [normalize, Option.bind_eq_bind, Option.bind_eq_some_iff] at h
  obtain ⟨proof', hproof, h⟩ := h
  refine ⟨proof', hproof, ?_⟩
  split at h
  · exact .inl ⟨_, _, rfl, h⟩
  · simp only [Option.bind_eq_some_iff] at h
    obtain ⟨head', hhead, src', hsrc, dst', hdst, value', hvalue, h⟩ := h
    exact .inr ⟨‹_›, head', src', dst', value', hhead, hsrc, hdst, hvalue, (Option.some.inj h).symm⟩

open Nameless (isNormal_rename) in
/-- **Normalisation reduces a term to a normal form.** -/
theorem normalize_spec {depth : Nat} {t u : Term} (h : t.normalize depth = some u) :
    t.nameless.Reduces u.nameless ∧ u.nameless.IsNormal := by
  induction depth generalizing t u with
  | zero => cases h
  | succ depth ih =>
    cases t with
    | var | const | sort | unit | tt =>
      obtain rfl := Option.some.inj h
      exact ⟨.refl, trivial⟩
    | app fn arg =>
      obtain ⟨fn', hfn, arg', harg, h⟩ := normalize_app h
      obtain ⟨hredf, hnormf⟩ := ih hfn
      obtain ⟨hreda, hnorma⟩ := ih harg
      have hred := hredf.map₂ .app hreda
      rcases h with ⟨x, ty, body, rfl, h⟩ | ⟨hlam, rfl⟩
      · obtain ⟨hredu, hnormu⟩ := ih h
        rw [nameless_contract] at hredu
        exact ⟨(hred.tail (.beta _ .rfl .rfl)).trans hredu, hnormu⟩
      · exact ⟨hred, nameless_ne_lam hlam, hnormf, hnorma⟩
    | lam x ty body =>
      simp only [normalize, Option.bind_eq_bind, Option.bind_eq_some_iff, Option.pure_def,
        Option.some.injEq] at h
      obtain ⟨ty', hty, body', hbody, rfl⟩ := h
      exact ⟨(ih hty).1.map₂ .lam ((ih hbody).1.map (·.rename _)), (ih hty).2,
        isNormal_rename.2 (ih hbody).2⟩
    | pi x ty body =>
      simp only [normalize, Option.bind_eq_bind, Option.bind_eq_some_iff, Option.pure_def,
        Option.some.injEq] at h
      obtain ⟨ty', hty, body', hbody, rfl⟩ := h
      exact ⟨(ih hty).1.map₂ .pi ((ih hbody).1.map (·.rename _)), (ih hty).2,
        isNormal_rename.2 (ih hbody).2⟩
    | prod a b =>
      simp only [normalize, Option.bind_eq_bind, Option.bind_eq_some_iff, Option.pure_def,
        Option.some.injEq] at h
      obtain ⟨a', ha, b', hb, rfl⟩ := h
      exact ⟨(ih ha).1.map₂ .prod (ih hb).1, (ih ha).2, (ih hb).2⟩
    | pair a b =>
      simp only [normalize, Option.bind_eq_bind, Option.bind_eq_some_iff, Option.pure_def,
        Option.some.injEq] at h
      obtain ⟨a', ha, b', hb, rfl⟩ := h
      exact ⟨(ih ha).1.map₂ .pair (ih hb).1, (ih ha).2, (ih hb).2⟩
    | refl ty value =>
      simp only [normalize, Option.bind_eq_bind, Option.bind_eq_some_iff, Option.pure_def,
        Option.some.injEq] at h
      obtain ⟨a', ha, b', hb, rfl⟩ := h
      exact ⟨(ih ha).1.map₂ .refl (ih hb).1, (ih ha).2, (ih hb).2⟩
    | eq ty lhs rhs =>
      simp only [normalize, Option.bind_eq_bind, Option.bind_eq_some_iff, Option.pure_def,
        Option.some.injEq] at h
      obtain ⟨a', ha, b', hb, c', hc, rfl⟩ := h
      exact ⟨(ih ha).1.map₃ .eq (ih hb).1 (ih hc).1, (ih ha).2, (ih hb).2, (ih hc).2⟩
    | transport head src dst proof value =>
      obtain ⟨proof', hproof, h⟩ := normalize_transport h
      obtain ⟨hredp, hnormp⟩ := ih hproof
      rcases h with ⟨ty, a, rfl, hvalue⟩ |
        ⟨hrefl, head', src', dst', value', hhead, hsrc, hdst, hvalue, rfl⟩
      · exact ⟨(Nameless.Reduces.transport .refl .refl .refl hredp (ih hvalue).1).tail
          (.cancel _ _ _ _ _ .rfl), (ih hvalue).2⟩
      · exact ⟨(ih hhead).1.transport (ih hsrc).1 (ih hdst).1 hredp (ih hvalue).1,
          nameless_ne_refl hrefl, (ih hhead).2, (ih hsrc).2, (ih hdst).2, hnormp, (ih hvalue).2⟩

/-- More depth keeps a normal form that is found. -/
theorem normalize_mono {depth depth' : Nat} (hle : depth ≤ depth') {t u : Term}
    (h : t.normalize depth = some u) : t.normalize depth' = some u := by
  induction depth generalizing depth' t u with
  | zero => cases h
  | succ depth ih =>
    obtain ⟨depth', rfl⟩ :=
      Nat.exists_eq_add_one_of_ne_zero (Nat.ne_of_gt (Nat.lt_of_lt_of_le depth.succ_pos hle))
    have hkeep : ∀ {t u : Term}, t.normalize depth = some u →
        t.normalize depth' = some u := fun h =>
      ih (Nat.le_of_succ_le_succ hle) h
    cases t with
    | var | const | sort | unit | tt => exact h
    | app fn arg =>
      obtain ⟨fn', hfn, arg', harg, h⟩ := normalize_app h
      rcases h with ⟨x, ty, body, rfl, h⟩ | ⟨hlam, rfl⟩
      · simp [normalize, hkeep hfn, hkeep harg, hkeep h]
      · simp [normalize, hkeep hfn, hkeep harg]
    | transport head src dst proof value =>
      obtain ⟨proof', hproof, h⟩ := normalize_transport h
      rcases h with ⟨ty, a, rfl, hvalue⟩ |
        ⟨hrefl, head', src', dst', value', hhead, hsrc, hdst, hvalue, rfl⟩
      · simp [normalize, hkeep hproof, hkeep hvalue]
      · simp [normalize, hkeep hproof, hkeep hhead, hkeep hsrc, hkeep hdst, hkeep hvalue]
    | lam _ a b | pi _ a b | prod a b | pair a b | refl a b =>
      simp only [normalize, Option.bind_eq_bind, Option.bind_eq_some_iff, Option.pure_def,
        Option.some.injEq] at h ⊢
      obtain ⟨a', ha, b', hb, rfl⟩ := h
      exact ⟨a', hkeep ha, b', hkeep hb, rfl⟩
    | eq ty lhs rhs =>
      simp only [normalize, Option.bind_eq_bind, Option.bind_eq_some_iff, Option.pure_def,
        Option.some.injEq] at h ⊢
      obtain ⟨a', ha, b', hb, c', hc, rfl⟩ := h
      exact ⟨a', hkeep ha, b', hkeep hb, c', hkeep hc, rfl⟩

/-- A normal form is found unchanged, as soon as the depth allows to look through it. -/
theorem normalize_of_isNormal {t : Term} (ht : t.nameless.IsNormal) {depth : Nat}
    (hdepth : t.size ≤ depth) : t.normalize depth = some t := by
  induction depth generalizing t with
  | zero => exact absurd hdepth (Nat.not_le.2 t.size_pos)
  | succ depth ih =>
    cases t with
    | var | const | sort | unit | tt => rfl
    | app fn arg =>
      rw [size] at hdepth
      have hlam : ∀ x ty body, fn ≠ lam x ty body := by
        rintro x ty body rfl
        exact ht.1 _ _ rfl
      simp [normalize, ih ht.2.1 (by omega), ih ht.2.2 (by omega)]
    | lam x ty body | pi x ty body =>
      rw [size] at hdepth
      simp [normalize, ih ht.1 (by omega), ih (Nameless.isNormal_rename.1 ht.2) (by omega)]
    | prod a b | pair a b | refl a b =>
      rw [size] at hdepth
      simp [normalize, ih ht.1 (by omega), ih ht.2 (by omega)]
    | eq ty lhs rhs =>
      rw [size] at hdepth
      simp [normalize, ih ht.1 (by omega), ih ht.2.1 (by omega), ih ht.2.2 (by omega)]
    | transport head src dst proof value =>
      rw [size] at hdepth
      obtain ⟨hproof, hh, hs, hd, hp, hv⟩ := ht
      have hrefl : ∀ ty a, proof ≠ refl ty a := by
        rintro ty a rfl
        exact hproof _ _ rfl
      simp [normalize, ih hh (by omega), ih hs (by omega), ih hd (by omega),
        ih hp (by omega), ih hv (by omega)]

/-- If anything is found for a normal form, it is the normal form itself. -/
lemma eq_of_normalize_normal {depth : Nat} {t u : Term} (ht : t.nameless.IsNormal)
    (h : t.normalize depth = some u) : u = t := by
  have hmore := normalize_mono (Nat.le_max_left depth t.size) h
  rw [normalize_of_isNormal ht (Nat.le_max_right depth t.size)] at hmore
  exact (Option.some.inj hmore).symm

/-- The conversion test says yes if both normal forms are found and are the same up to bound
names. -/
lemma convertible_eq_true_iff {depth : Nat} {a b : Term} : convertible depth a b = some true ↔
    ∃ a' b', a.normalize depth = some a' ∧ b.normalize depth = some b' ∧
      a'.nameless = b'.nameless := by
  simp only [convertible, Option.bind_eq_bind, Option.bind_eq_some_iff, Option.pure_def,
    Option.some.injEq, alphaEq_iff]
  constructor
  · rintro ⟨a', ha, b', hb, hab⟩
    exact ⟨a', b', ha, hb, hab⟩
  · rintro ⟨a', b', ha, hb, hab⟩
    exact ⟨a', ha, b', hb, hab⟩

/-- Where the conversion test answers, it decides conversion. -/
theorem convertible_iff {depth : Nat} {a b : Term} {answer : Bool}
    (h : convertible depth a b = some answer) : answer = true ↔ a.nameless.Conv b.nameless := by
  simp only [convertible, Option.bind_eq_bind, Option.bind_eq_some_iff] at h
  obtain ⟨a', ha, b', hb, h⟩ := h
  obtain rfl := Option.some.inj h
  obtain ⟨hreda, hnorma⟩ := normalize_spec ha
  obtain ⟨hredb, hnormb⟩ := normalize_spec hb
  rw [alphaEq_iff]
  constructor
  · intro heq
    exact ⟨_, hreda, heq ▸ hredb⟩
  · intro hconv
    have hnormal := ((Nameless.Conv.of_reduces hreda).symm.trans hconv).trans (.of_reduces hredb)
    exact hnormal.eq_of_normal hnorma hnormb

end Term

namespace Kernel

variable {k : Kernel}

lemma withinDepth_eq_ok {α : Type} {o : Option α} {a : α} : withinDepth o = .ok a ↔ o = some a := by
  cases o <;> simp [withinDepth]

lemma withinDepth_eq_error {α : Type} {o : Option α} {f : Fault} (h : withinDepth o = .error f) :
    f = .exhausted := by
  cases o <;> simp_all [withinDepth]

/-- What the kernel's normalisation computes. -/
lemma normalize_spec {t u : Term} (h : k.normalize t = .ok u) :
    t.nameless.Reduces u.nameless ∧ u.nameless.IsNormal :=
  Term.normalize_spec (withinDepth_eq_ok.1 h)

/-- The kernel's conversion test decides conversion. -/
lemma convertible_iff {a b : Term} {answer : Bool} (h : k.convertible a b = .ok answer) :
    answer = true ↔ a.nameless.Conv b.nameless :=
  Term.convertible_iff (withinDepth_eq_ok.1 h)

end Kernel

end UniqueEvidence
