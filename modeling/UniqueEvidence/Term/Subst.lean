/-
Capture-avoiding substitution on named terms.

* `Term.subst t x v`: the term `t` with `v` for the free occurrences of `x`.  A binder is renamed
  only when it would capture, and then to the first fresh variant of its own name;
* `Term.size_subst_var`: putting a variable for a variable keeps the size, which is why the
  recursion below a renamed binder ends;
* `Term.subst_lam`, `Term.subst_pi`: the equations at a binder.
-/
import UniqueEvidence.Term.Fresh

namespace UniqueEvidence

namespace Term

/-- The name a binder takes when `v` is substituted for `x` in its scope: its own name, or a fresh
variant of it if it would capture a variable of `v`. -/
def openName (x : Name) (v : Term) (binder : Name) (body : Term) : Name :=
  if binder ∈ v.freeVars ∧ x ∈ body.freeVars then
    fresh binder (v.freeVars ++ body.freeVars ++ [x])
  else
    binder

/-- Substitution, together with the fact that a value of size one keeps the size of the term. -/
def substSized (x : Name) (v : Term) (t : Term) : { u : Term // v.size = 1 → u.size = t.size } :=
  match t with
  | var y => ⟨if y = x then v else var y, fun h => by split <;> simp [size, h]⟩
  | const c => ⟨const c, fun _ => rfl⟩
  | sort => ⟨sort, fun _ => rfl⟩
  | unit => ⟨unit, fun _ => rfl⟩
  | tt => ⟨tt, fun _ => rfl⟩
  | app a b =>
    let a' := substSized x v a
    let b' := substSized x v b
    ⟨app a'.1 b'.1, fun h => by simp [size, a'.2 h, b'.2 h]⟩
  | lam y ty body =>
    let ty' := substSized x v ty
    if y = x then
      ⟨lam y ty'.1 body, fun h => by simp [size, ty'.2 h]⟩
    else
      let z := openName x v y body
      if z = y then
        let body' := substSized x v body
        ⟨lam y ty'.1 body'.1, fun h => by simp [size, ty'.2 h, body'.2 h]⟩
      else
        let ⟨opened, hopened⟩ := substSized y (var z) body
        have := hopened rfl
        let body' := substSized x v opened
        ⟨lam z ty'.1 body'.1, fun h => by simp [size, ty'.2 h, body'.2 h, this]⟩
  | pi y ty body =>
    let ty' := substSized x v ty
    if y = x then
      ⟨pi y ty'.1 body, fun h => by simp [size, ty'.2 h]⟩
    else
      let z := openName x v y body
      if z = y then
        let body' := substSized x v body
        ⟨pi y ty'.1 body'.1, fun h => by simp [size, ty'.2 h, body'.2 h]⟩
      else
        let ⟨opened, hopened⟩ := substSized y (var z) body
        have := hopened rfl
        let body' := substSized x v opened
        ⟨pi z ty'.1 body'.1, fun h => by simp [size, ty'.2 h, body'.2 h, this]⟩
  | prod a b =>
    let a' := substSized x v a
    let b' := substSized x v b
    ⟨prod a'.1 b'.1, fun h => by simp [size, a'.2 h, b'.2 h]⟩
  | pair a b =>
    let a' := substSized x v a
    let b' := substSized x v b
    ⟨pair a'.1 b'.1, fun h => by simp [size, a'.2 h, b'.2 h]⟩
  | eq ty lhs rhs =>
    let ty' := substSized x v ty
    let lhs' := substSized x v lhs
    let rhs' := substSized x v rhs
    ⟨eq ty'.1 lhs'.1 rhs'.1, fun h => by simp [size, ty'.2 h, lhs'.2 h, rhs'.2 h]⟩
  | refl ty value =>
    let ty' := substSized x v ty
    let value' := substSized x v value
    ⟨refl ty'.1 value'.1, fun h => by simp [size, ty'.2 h, value'.2 h]⟩
  | transport head src dst proof value =>
    let head' := substSized x v head
    let src' := substSized x v src
    let dst' := substSized x v dst
    let proof' := substSized x v proof
    let value' := substSized x v value
    ⟨transport head'.1 src'.1 dst'.1 proof'.1 value'.1, fun h => by
      simp [size, head'.2 h, src'.2 h, dst'.2 h, proof'.2 h, value'.2 h]⟩
termination_by t.size
decreasing_by all_goals simp only [size]; omega

/-- `t` with `v` for the free occurrences of `x`. -/
def subst (t : Term) (x : Name) (v : Term) : Term :=
  (substSized x v t).1

/-- Putting a variable for a variable keeps the size. -/
@[simp] theorem size_subst_var (t : Term) (x y : Name) : (t.subst x (var y)).size = t.size :=
  (substSized x (var y) t).2 rfl

/-! ### One equation per term form -/

@[simp] theorem subst_var (y x : Name) (v : Term) :
    (var y).subst x v = if y = x then v else var y := by
  simp [subst, substSized]

@[simp] theorem subst_const (c x : Name) (v : Term) : (const c).subst x v = const c := by
  simp [subst, substSized]

@[simp] theorem subst_sort (x : Name) (v : Term) : sort.subst x v = sort := by
  simp [subst, substSized]

@[simp] theorem subst_unit (x : Name) (v : Term) : unit.subst x v = unit := by
  simp [subst, substSized]

@[simp] theorem subst_tt (x : Name) (v : Term) : tt.subst x v = tt := by
  simp [subst, substSized]

@[simp] theorem subst_app (a b : Term) (x : Name) (v : Term) :
    (app a b).subst x v = app (a.subst x v) (b.subst x v) := by
  simp [subst, substSized]

@[simp] theorem subst_prod (a b : Term) (x : Name) (v : Term) :
    (prod a b).subst x v = prod (a.subst x v) (b.subst x v) := by
  simp [subst, substSized]

@[simp] theorem subst_pair (a b : Term) (x : Name) (v : Term) :
    (pair a b).subst x v = pair (a.subst x v) (b.subst x v) := by
  simp [subst, substSized]

@[simp] theorem subst_eq (ty lhs rhs : Term) (x : Name) (v : Term) :
    (eq ty lhs rhs).subst x v = eq (ty.subst x v) (lhs.subst x v) (rhs.subst x v) := by
  simp [subst, substSized]

@[simp] theorem subst_refl (ty value : Term) (x : Name) (v : Term) :
    (refl ty value).subst x v = refl (ty.subst x v) (value.subst x v) := by
  simp [subst, substSized]

@[simp] theorem subst_transport (head src dst proof value : Term) (x : Name) (v : Term) :
    (transport head src dst proof value).subst x v =
      transport (head.subst x v) (src.subst x v) (dst.subst x v) (proof.subst x v)
        (value.subst x v) := by
  simp [subst, substSized]

/-- Below a binder the substitution stops at its own name, and otherwise goes on in the opened
body. -/
theorem subst_lam (y : Name) (ty body : Term) (x : Name) (v : Term) :
    (lam y ty body).subst x v =
      if y = x then lam y (ty.subst x v) body
      else if openName x v y body = y then lam y (ty.subst x v) (body.subst x v)
      else lam (openName x v y body) (ty.subst x v)
        ((body.subst y (var (openName x v y body))).subst x v) := by
  simp only [subst]
  rw [substSized]
  split
  · rfl
  · dsimp only
    split <;> rfl

/-- The equation for products, which bind as functions do. -/
theorem subst_pi (y : Name) (ty body : Term) (x : Name) (v : Term) :
    (pi y ty body).subst x v =
      if y = x then pi y (ty.subst x v) body
      else if openName x v y body = y then pi y (ty.subst x v) (body.subst x v)
      else pi (openName x v y body) (ty.subst x v)
        ((body.subst y (var (openName x v y body))).subst x v) := by
  simp only [subst]
  rw [substSized]
  split
  · rfl
  · dsimp only
    split <;> rfl

end Term

end UniqueEvidence
