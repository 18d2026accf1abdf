/-
Named terms as nameless ones.

* `Term.nameless`: a binder captures its name in the translated body;
* `Term.occurs_nameless`: the free names of a term are the references of its translation;
* `Term.nameless_subst`: **substitution on named terms is capture-avoiding**: translated, it is the
  nameless substitution for the name;
* `Term.alphaEq_iff`: **alpha-equality is equality of translations**;
* `Term.nameless_apps`, `Term.nameless_tupleType`, …: the translations of spines, tuples and
  telescopes.
-/
import UniqueEvidence.Proofs.Fresh
import UniqueEvidence.Proofs.Nameless
import UniqueEvidence.Term.Alpha
import UniqueEvidence.Term.Tuple

namespace UniqueEvidence

namespace Term

/-- The term with counted binders. -/
@[grind =]
def nameless : Term → Nameless
  | var x => .ref (.free x)
  | const c => .const c
  | app f a => .app f.nameless a.nameless
  | lam x ty b => .lam ty.nameless (b.nameless.rename (Ref.capture x))
  | pi x ty b => .pi ty.nameless (b.nameless.rename (Ref.capture x))
  | sort => .sort
  | unit => .unit
  | tt => .tt
  | prod a b => .prod a.nameless b.nameless
  | pair a b => .pair a.nameless b.nameless
  | eq ty l r => .eq ty.nameless l.nameless r.nameless
  | refl ty v => .refl ty.nameless v.nameless
  | transport h s d p v => .transport h.nameless s.nameless d.nameless p.nameless v.nameless

/-! ### Free names -/

/-- A name occurs below a binder that captures another name if it occurs in the body. -/
lemma occurs_capture {b : Nameless} {x y : Name} :
    (b.rename (Ref.capture x)).Occurs (.free y) ↔ b.Occurs (.free y) ∧ y ≠ x := by
  rw [Nameless.occurs_rename]
  constructor
  · rintro ⟨r, hr, hcapture⟩
    rw [Ref.capture] at hcapture
    split at hcapture
    · simp [Ref.top] at hcapture
    · rename_i hne
      obtain rfl : r = .free y := Ref.succ_inj.1 hcapture
      exact ⟨hr, fun h => hne (h ▸ rfl)⟩
  · rintro ⟨hy, hne⟩
    exact ⟨.free y, hy, Ref.capture_of_ne (by simpa using hne)⟩

/-- The free names of a term are the references of its translation. -/
lemma occurs_nameless {t : Term} {x : Name} : t.nameless.Occurs (.free x) ↔ x ∈ t.freeVars := by
  have hbinder : ∀ {b : Term} {y : Name}, (b.nameless.Occurs (.free x) ↔ x ∈ b.freeVars) →
      ((b.nameless.rename (Ref.capture y)).Occurs (.free x) ↔ x ∈ b.freeVars ∧ x ≠ y) := by
    intro b y h
    rw [occurs_capture, h]
  induction t with
  | var y => simp [nameless, Nameless.Occurs, freeVars, eq_comm]
  | lam y ty b ihty ihb | pi y ty b ihty ihb =>
    simp [nameless, Nameless.Occurs, freeVars, ihty, hbinder ihb]
  | _ => simp_all [nameless, Nameless.Occurs, freeVars]

/-- No binder is missing in a translation. -/
lemma not_occurs_bound (t : Term) (n : Nat) : ¬ t.nameless.Occurs (.bound n) := by
  have hbinder : ∀ {b : Term} {y : Name}, (∀ n, ¬ b.nameless.Occurs (.bound n)) →
      ∀ n, ¬ (b.nameless.rename (Ref.capture y)).Occurs (.bound (n + 1)) := by
    intro b y h n hocc
    obtain ⟨r, hr, hcapture⟩ := Nameless.occurs_rename.1 hocc
    rcases r with m | z
    · exact h m hr
    · rw [Ref.capture] at hcapture
      split at hcapture <;> simp [Ref.top, Ref.succ] at hcapture
  induction t generalizing n <;> simp_all [nameless, Nameless.Occurs, Ref.succ]

lemma closed_nameless {t : Term} (h : t.freeVars = []) : t.nameless.Closed := by
  rintro (n | x) hocc
  · exact not_occurs_bound t n hocc
  · simp [occurs_nameless, h] at hocc

/-! ### Substitution -/

section Binders

variable {b v : Nameless} {x y z : Name}

/-- A binder of the name itself stops the substitution. -/
lemma subst_captured :
    (b.rename (Ref.capture x)).subst (Nameless.up (.single x v)) = b.rename (Ref.capture x) := by
  rw [Nameless.subst_rename, Nameless.rename_eq_subst]
  congr 1
  funext r
  by_cases hr : r = .free x
  · subst hr
    simp
  · simp [Ref.capture_of_ne hr, Nameless.single_of_ne hr, Nameless.shift, Nameless.rename]

/-- A binder of another name lets the substitution pass, if it captures nothing of the value. -/
lemma subst_under_binder (hyx : y ≠ x) (h : v.Occurs (.free y) → ¬ b.Occurs (.free x)) :
    (b.rename (Ref.capture y)).subst (Nameless.up (.single x v)) =
      (b.subst (.single x v)).rename (Ref.capture y) := by
  rw [Nameless.subst_rename, Nameless.rename_subst]
  refine Nameless.subst_congr fun r hr => ?_
  by_cases hx : r = .free x
  · subst hx
    have hfresh : ¬ v.Occurs (.free y) := fun hy => h hy hr
    rw [Ref.capture_of_ne (by simpa using hyx.symm), Nameless.up_succ, Nameless.single_self,
      Nameless.shift, Nameless.rename_eq_subst, Nameless.rename_eq_subst]
    refine Nameless.subst_congr fun s hs => ?_
    rw [Ref.capture_of_ne fun hsy => hfresh (hsy ▸ hs)]
  · rw [Nameless.single_of_ne hx, Nameless.rename]
    by_cases hy : r = .free y
    · subst hy
      simp
    · rw [Ref.capture_of_ne hy, Nameless.up_succ, Nameless.single_of_ne hx,
        Nameless.shift, Nameless.rename]

/-- Renaming the bound name of a body to one that does not occur there changes nothing. -/
lemma capture_renamed (hz : ¬ b.Occurs (.free z)) :
    (b.subst (.single y (.ref (.free z)))).rename (Ref.capture z) = b.rename (Ref.capture y) := by
  rw [Nameless.rename_subst, Nameless.rename_eq_subst]
  refine Nameless.subst_congr fun r hr => ?_
  by_cases hy : r = .free y
  · subst hy
    simp [Nameless.rename]
  · have hrz : r ≠ .free z := fun h => hz (h ▸ hr)
    rw [Nameless.single_of_ne hy, Nameless.rename, Ref.capture_of_ne hrz, Ref.capture_of_ne hy]

end Binders

/-- The name that a binder takes captures nothing. -/
lemma openName_eq_self {x y : Name} {v body : Term} (h : openName x v y body = y) :
    y ∈ v.freeVars → x ∉ body.freeVars := by
  intro hy hx
  rw [openName, if_pos ⟨hy, hx⟩] at h
  have hfresh := fresh_not_mem y (v.freeVars ++ body.freeVars ++ [x])
  rw [h] at hfresh
  simp [hy] at hfresh

lemma openName_fresh {x y : Name} {v body : Term} (h : openName x v y body ≠ y) :
    openName x v y body ∉ v.freeVars ∧ openName x v y body ∉ body.freeVars ∧
      openName x v y body ≠ x := by
  rw [openName] at h ⊢
  split at h
  · rename_i hclash
    rw [if_pos hclash]
    simpa [and_assoc] using fresh_not_mem y (v.freeVars ++ body.freeVars ++ [x])
  · exact absurd rfl h

/-- The body of a binder after a substitution, given that substitution is right on smaller terms. -/
lemma nameless_subst_body {x y : Name} {v body : Term} (hyx : y ≠ x)
    (ih : ∀ t : Term, t.size = body.size →
      ∀ x v, (t.subst x v).nameless = t.nameless.subst (.single x v.nameless)) :
    (body.nameless.rename (Ref.capture y)).subst (Nameless.up (.single x v.nameless)) =
      if openName x v y body = y then (body.subst x v).nameless.rename (Ref.capture y)
      else ((body.subst y (var (openName x v y body))).subst x v).nameless.rename
        (Ref.capture (openName x v y body)) := by
  split
  case isTrue h =>
    rw [ih body rfl]
    exact subst_under_binder hyx fun hy =>
      mt occurs_nameless.1 (openName_eq_self h (occurs_nameless.1 hy))
  case isFalse h =>
    obtain ⟨hv, hbody, hzx⟩ := openName_fresh h
    generalize openName x v y body = z at hv hbody hzx ⊢
    rw [ih _ (size_subst_var ..), ih body rfl, nameless,
      ← subst_under_binder hzx fun hz => absurd (occurs_nameless.1 hz) hv,
      capture_renamed (mt occurs_nameless.1 hbody)]

/-- **Substitution is capture-avoiding**: translated, it is the nameless substitution for the
name. -/
theorem nameless_subst (t : Term) (x : Name) (v : Term) :
    (t.subst x v).nameless = t.nameless.subst (.single x v.nameless) := by
  -- by induction on the size, since a body may be renamed first
  induction hn : t.size using Nat.strong_induction_on generalizing t x v with
  | _ n ih =>
    subst hn
    have ihs : ∀ u : Term, u.size < t.size →
        ∀ x v, (u.subst x v).nameless = u.nameless.subst (.single x v.nameless) :=
      fun u hu x v => ih _ hu u x v rfl
    cases t with
    | var y =>
      by_cases hy : y = x
      · subst hy
        simp [nameless, Nameless.subst]
      · simp [nameless, Nameless.subst, hy, Nameless.single_of_ne]
    | const | sort | unit | tt => simp [nameless, Nameless.subst]
    | app a b | prod a b | pair a b | refl a b =>
      simp only [size] at ihs
      simp [nameless, Nameless.subst, ihs a (by omega), ihs b (by omega)]
    | eq a b c =>
      simp only [size] at ihs
      simp [nameless, Nameless.subst, ihs a (by omega), ihs b (by omega), ihs c (by omega)]
    | transport h s d p w =>
      simp only [size] at ihs
      simp [nameless, Nameless.subst, ihs h (by omega), ihs s (by omega), ihs d (by omega),
        ihs p (by omega), ihs w (by omega)]
    | lam y ty body | pi y ty body =>
      simp only [size] at ihs
      have hbody :=
          fun (hyx : y ≠ x) => nameless_subst_body (v := v) hyx fun u (hu : u.size = body.size) =>
        ihs u (by omega)
      by_cases hyx : y = x
      · subst hyx
        simp [subst_lam, subst_pi, nameless, Nameless.subst, subst_captured, ihs ty (by omega)]
      · simp only [subst_lam, subst_pi, if_neg hyx, nameless, Nameless.subst, hbody hyx]
        split <;> simp [nameless, ihs ty (by omega)]

/-- The contraction of a named function is that of its translation. -/
lemma nameless_contract (x : Name) (body arg : Term) :
    (body.subst x arg).nameless = (body.nameless.rename (Ref.capture x)).inst arg.nameless := by
  rw [nameless_subst, Nameless.inst, Nameless.subst_rename]
  congr 1
  funext r
  by_cases hr : r = .free x
  · subst hr
    simp
  · simp [Nameless.single_of_ne hr, Ref.capture_of_ne hr]

/-! ### Spines and tuples -/

lemma nameless_apps (f : Term) (as : List Term) :
    (f.apps as).nameless = f.nameless.apps (as.map nameless) := by
  induction as generalizing f with
  | nil => rfl
  | cons a as ih => simpa [nameless] using ih (app f a)

lemma nameless_tupleType (types : List Term) :
    (tupleType types).nameless = Nameless.tupleType (types.map nameless) := by
  induction types with
  | nil => rfl
  | cons ty types ih => simpa [tupleType, nameless] using ih

/-- The components of an encoded tuple translate to the components of its translation. -/
lemma components_eq_some {t : Term} {ts : List Term} (h : t.components = some ts) :
    t.nameless = Nameless.tuple (ts.map nameless) := by
  induction t generalizing ts with
  | tt =>
    obtain rfl : [] = ts := by simpa [components] using h
    rfl
  | pair a b _ ihb =>
    simp only [components, Option.map_eq_some_iff] at h
    obtain ⟨bs, hb, rfl⟩ := h
    simp [nameless, ihb hb]
  | _ => simp [components] at h

/-- A term whose translation is a tuple encodes one. -/
lemma components_of_nameless {t : Term} {us : List Nameless} (h : t.nameless = Nameless.tuple us) :
    ∃ ts, t.components = some ts ∧ ts.map nameless = us := by
  induction us generalizing t with
  | nil => cases t <;> simp_all [nameless, components]
  | cons u us ih =>
    cases t with
    | pair a b =>
      simp only [nameless, Nameless.tuple_cons, Nameless.pair.injEq] at h
      obtain ⟨bs, hbs, rfl⟩ := ih h.2
      exact ⟨a :: bs, by simp [components, hbs], by simp [h.1]⟩
    | _ => simp [nameless] at h

/-! ### Equality up to bound names -/

/-- The renaming by which binders take over their names, the innermost one first. -/
def captures : List Name → Ref → Ref
  | [], r => r
  | x :: xs, r => Ref.lift (captures xs) (Ref.capture x r)

lemma captures_nil : captures [] = id := rfl

@[simp] lemma captures_cons_self (x : Name) (xs : List Name) :
    captures (x :: xs) (.free x) = .top := by
  simp [captures]

lemma captures_cons_of_ne {x y : Name} (h : y ≠ x) (xs : List Name) :
    captures (x :: xs) (.free y) = (captures xs (.free y)).succ := by
  rw [captures, Ref.capture_of_ne (by simpa using h), Ref.lift_succ]

/-- Two variables are the same if they refer to the same binder, or to none and are the same
name. -/
lemma sameVar_iff {binders : List (Name × Name)} {x y : Name} :
    sameVar binders x y = true ↔
      captures (binders.map Prod.fst) (.free x) = captures (binders.map Prod.snd) (.free y) := by
  induction binders with
  | nil => simp [sameVar, captures]
  | cons ab binders ih =>
    obtain ⟨a, b⟩ := ab
    by_cases hx : x = a <;> by_cases hy : y = b <;> simp [sameVar, captures_cons_of_ne, hx, hy, ih]

lemma alphaEqUnder_iff {binders : List (Name × Name)} {s t : Term} :
    alphaEqUnder binders s t = true ↔
      s.nameless.rename (captures (binders.map Prod.fst)) =
        t.nameless.rename (captures (binders.map Prod.snd)) := by
  induction s generalizing t binders <;> cases t <;>
    simp_all [alphaEqUnder, nameless, Nameless.rename, sameVar_iff,
      Nameless.rename_rename, captures, and_assoc]

/-- **Alpha-equality is equality of translations.** -/
theorem alphaEq_iff {s t : Term} : alphaEq s t = true ↔ s.nameless = t.nameless := by
  rw [alphaEq, alphaEqUnder_iff]
  simp [captures_nil, Nameless.rename_eq_subst]

end Term

end UniqueEvidence
