/-
Named terms below binders, and substitution there.

* `Ref.ofName`, `Term.namelessUnder`: what a name refers to below binders of given names, and the
  translation of a term that looks every name up among the binders passed on the way down;
* `Term.namelessUnder_eq`: this is `Term.nameless`, with the binders taking over their names;
* `Term.namelessUnder_subst`, `Term.namelessUnder_contract`: **below any binders, substitution is
  the nameless one**, for the reference of the name or for the variable of a binder of that name;
* `Term.mem_freeVars_subst_iff`, `Term.subst_of_not_mem`: the free names after a substitution, and a
  name that does not occur;
* `Term.subst_avoids_capture`: **substitution is capture-avoiding**, with what follows from it.
-/
import Mathlib.Logic.Function.Basic
import UniqueEvidence.Proofs.Translation

namespace UniqueEvidence

/-- What a name refers to below binders of the given names, the innermost one first: the nearest
binder of that name, or the name itself. -/
def Ref.ofName (names : List Name) (x : Name) : Ref :=
  match names.idxOf? x with
  | some n => .bound n
  | none => .free x

namespace Term

/-! ### Terms below binders -/

/-- The term with counted binders, below binders of the given names. -/
def namelessUnder (names : List Name) : Term → Nameless
  | var x => .ref (.ofName names x)
  | const c => .const c
  | app f a => .app (f.namelessUnder names) (a.namelessUnder names)
  | lam x ty b => .lam (ty.namelessUnder names) (b.namelessUnder (x :: names))
  | pi x ty b => .pi (ty.namelessUnder names) (b.namelessUnder (x :: names))
  | sort => .sort
  | unit => .unit
  | tt => .tt
  | prod a b => .prod (a.namelessUnder names) (b.namelessUnder names)
  | pair a b => .pair (a.namelessUnder names) (b.namelessUnder names)
  | eq ty l r => .eq (ty.namelessUnder names) (l.namelessUnder names) (r.namelessUnder names)
  | refl ty v => .refl (ty.namelessUnder names) (v.namelessUnder names)
  | transport h s d p v =>
    .transport (h.namelessUnder names) (s.namelessUnder names) (d.namelessUnder names)
      (p.namelessUnder names) (v.namelessUnder names)

lemma captures_free (names : List Name) (x : Name) :
    captures names (.free x) = .ofName names x := by
  induction names with
  | nil => rfl
  | cons y names ih =>
    by_cases hxy : x = y
    · subst hxy
      simp [Ref.ofName, List.idxOf?_cons, Ref.top]
    · rw [captures_cons_of_ne hxy, ih, Ref.ofName, Ref.ofName, List.idxOf?_cons,
        if_neg (by simpa using Ne.symm hxy)]
      cases names.idxOf? x <;> rfl

/-- Below binders, the binders take over their names. -/
lemma namelessUnder_eq (t : Term) (names : List Name) :
    t.namelessUnder names = t.nameless.rename (captures names) := by
  induction t generalizing names <;>
    simp_all [namelessUnder, nameless, Nameless.rename, captures_free,
      Nameless.rename_rename, captures]

@[simp] lemma namelessUnder_nil (t : Term) : t.namelessUnder [] = t.nameless := by
  rw [namelessUnder_eq, captures_nil, Nameless.rename_id]

/-- Different names refer to different things. -/
lemma ofName_injective (names : List Name) : Function.Injective (Ref.ofName names) := by
  intro x y h
  rw [← captures_free, ← captures_free] at h
  induction names with
  | nil => simpa [captures] using h
  | cons z names ih => by_cases hx : x = z <;> by_cases hy : y = z <;>
    simp_all [captures_cons_of_ne]

/-! ### Substitution below binders -/

/-- **Substitution below binders** puts the value for the reference of the name. -/
theorem namelessUnder_subst (t : Term) (x : Name) (v : Term) (names : List Name) :
    (t.subst x v).namelessUnder names =
      (t.namelessUnder names).subst
        (Function.update .ref (.ofName names x) (v.namelessUnder names)) := by
  simp only [namelessUnder_eq, nameless_subst, Nameless.rename_subst, Nameless.subst_rename]
  refine Nameless.subst_congr fun r hr => ?_
  -- only free names occur in a translation, and only `x` itself has the reference of `x`
  rcases r with n | y
  · exact absurd hr (not_occurs_bound t n)
  · rw [captures_free]
    by_cases hyx : y = x
    · subst hyx
      simp
    · rw [Nameless.single_of_ne (by simpa using hyx),
        Function.update_of_ne ((ofName_injective names).ne hyx), Nameless.rename, captures_free]

/-- The contraction of a function below binders: its body, below one binder more, with the value for
that binder. -/
lemma namelessUnder_contract (t : Term) (x : Name) (v : Term) (names : List Name) :
    (t.subst x v).namelessUnder names = (t.namelessUnder (x :: names)).inst
      (v.namelessUnder names) := by
  rw [namelessUnder_eq, nameless_contract, Nameless.rename_inst, Nameless.rename_rename,
    namelessUnder_eq, namelessUnder_eq]
  rfl

/-! ### Names that occur -/

/-- The free names after a substitution. -/
lemma mem_freeVars_subst_iff {t v : Term} {x y : Name} :
    y ∈ (t.subst x v).freeVars ↔ y ∈ t.freeVars ∧ y ≠ x ∨ x ∈ t.freeVars ∧ y ∈ v.freeVars := by
  simp only [← occurs_nameless, nameless_subst, Nameless.occurs_subst]
  constructor
  · rintro ⟨r, hr, hy⟩
    by_cases hrx : r = .free x
    · subst hrx
      exact .inr ⟨hr, by simpa using hy⟩
    · rw [Nameless.single_of_ne hrx] at hy
      obtain rfl : r = .free y := hy
      exact .inl ⟨hr, by simpa using hrx⟩
  · rintro (⟨hy, hyx⟩ | ⟨hx, hy⟩)
    · exact ⟨.free y, hy, by simp [Nameless.single_of_ne, hyx, Nameless.Occurs]⟩
    · exact ⟨.free x, hx, by simpa using hy⟩

/-- Substitution for a name that does not occur changes nothing. -/
lemma subst_of_not_mem {t : Term} {x : Name} {v : Term} (h : x ∉ t.freeVars) : t.subst x v = t := by
  have hbinder : ∀ {y : Name} {body : Term}, x ∉ body.freeVars.filter (· ≠ y) →
      y ≠ x → x ∉ body.freeVars ∧ openName x v y body = y := by
    intro y body hx hyx
    have hbody : x ∉ body.freeVars :=
      fun hx' => hx (List.mem_filter.2 ⟨hx', by simpa using hyx.symm⟩)
    exact ⟨hbody, if_neg fun h => hbody h.2⟩
  induction t with
  | var y =>
    have hyx : y ≠ x := by simpa [freeVars, eq_comm] using h
    rw [subst_var, if_neg hyx]
  | lam y ty body ihty ihbody =>
    simp only [freeVars, List.mem_append, not_or] at h
    rw [subst_lam, ihty h.1]
    split
    · rfl
    · rename_i hyx
      obtain ⟨hx, hopen⟩ := hbinder h.2 hyx
      rw [if_pos hopen, ihbody hx]
  | pi y ty body ihty ihbody =>
    simp only [freeVars, List.mem_append, not_or] at h
    rw [subst_pi, ihty h.1]
    split
    · rfl
    · rename_i hyx
      obtain ⟨hx, hopen⟩ := hbinder h.2 hyx
      rw [if_pos hopen, ihbody hx]
  | _ => simp_all [freeVars]

/-! ### Capture-avoiding substitution -/

/-- Terms that are equal up to bound names are so after a substitution. -/
lemma alphaEq_subst {t t' v v' : Term} (ht : t.alphaEq t' = true) (hv : v.alphaEq v' = true)
    (x : Name) : (t.subst x v).alphaEq (t'.subst x v') = true := by
  rw [alphaEq_iff] at *
  rw [nameless_subst, nameless_subst, ht, hv]

/-- **Substitution is capture-avoiding.**  Below any binders, the translation of `t` with `v` for
`x` is the nameless substitution of the translation of `v`: for the reference of `x` in the
translation of `t`, or for the variable of one more binder of the name `x`.  So substitution
respects equality up to bound names in both arguments, its free names are those of `t` without `x`,
with those of `v` if `x` is one of them, and it changes nothing if `x` is none of them. -/
theorem subst_avoids_capture (t : Term) (x : Name) (v : Term) :
    (∀ names, (t.subst x v).namelessUnder names =
      (t.namelessUnder names).subst
        (Function.update .ref (.ofName names x) (v.namelessUnder names))) ∧
    (∀ names, (t.subst x v).namelessUnder names = (t.namelessUnder (x :: names)).inst
      (v.namelessUnder names)) ∧
    (∀ t' v', t.alphaEq t' = true → v.alphaEq v' = true →
      (t.subst x v).alphaEq (t'.subst x v') = true) ∧
    (x ∈ t.freeVars → ∀ y, y ∈ (t.subst x v).freeVars ↔ y ∈ t.freeVars ∧ y ≠ x ∨ y ∈ v.freeVars) ∧
    (x ∉ t.freeVars → t.subst x v = t) := by
  refine ⟨namelessUnder_subst t x v, namelessUnder_contract t x v,
    fun t' v' ht hv => alphaEq_subst ht hv x, fun hx y => ?_, subst_of_not_mem⟩
  rw [mem_freeVars_subst_iff, and_iff_right hx]

/-- A function whose binder has the name of the value's variable: the binder is renamed, whatever
its name, the variable of the value is free afterwards, and a name that does not occur leaves the
function as it is. -/
theorem subst_avoids_capture_sample :
    ((lam "y" (const "D") (app (var "x") (var "y"))).subst "x" (var "y")).alphaEq
        ((lam "z" (const "D") (app (var "x") (var "z"))).subst "x" (var "y")) = true ∧
      (∀ y, y ∈ ((lam "y" (const "D") (app (var "x") (var "y"))).subst "x" (var "y")).freeVars ↔
        y ∈ (lam "y" (const "D") (app (var "x") (var "y"))).freeVars ∧ y ≠ "x" ∨
          y ∈ (var "y").freeVars) ∧
      (lam "y" (const "D") (app (var "x") (var "y"))).subst "y" (var "x") =
        lam "y" (const "D") (app (var "x") (var "y")) := by
  have hclash := subst_avoids_capture (lam "y" (const "D") (app (var "x") (var "y"))) "x" (var "y")
  have hbound := subst_avoids_capture (lam "y" (const "D") (app (var "x") (var "y"))) "y" (var "x")
  exact ⟨hclash.2.2.1 _ _ (by decide) (by decide), hclash.2.2.2.1 (by decide),
    hbound.2.2.2.2 (by decide)⟩

end Term

end UniqueEvidence
