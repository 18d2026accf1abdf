/-
Nameless terms: bound variables are counted, free ones keep their names.

* `Ref`: what a variable refers to.  Below a binder a reference is `Ref.top`, the binder's own
  variable, or `Ref.succ` of a reference outside;
* `Nameless`: the thirteen term forms over references;
* `Nameless.rename`, `Nameless.subst`: renaming and substitution of all references at once.  Opening
  a binder, closing a term over a name and substitution for a name are instances;
* `Nameless.subst_subst`, `Nameless.subst_congr`: **two substitutions in a row are one**, and only
  the references that occur matter;
* `Nameless.Occurs`: the references that occur in a term.
-/
import Mathlib.Tactic.Common
import UniqueEvidence.Name

namespace UniqueEvidence

/-- What a variable refers to: the binder that many binders up, or a free name. -/
inductive Ref where
  | bound (n : Nat)
  | free (x : Name)
  deriving DecidableEq

namespace Ref

/-- The variable of the innermost binder. -/
def top : Ref := bound 0

/-- A reference, seen from below one more binder. -/
def succ : Ref → Ref
  | bound n => bound (n + 1)
  | free x => free x

/-- A function on the references below a binder: `a` at the binder's own, and `f` at those
outside. -/
def extend {α : Sort*} (a : α) (f : Ref → α) : Ref → α
  | bound 0 => a
  | bound (n + 1) => f (bound n)
  | free x => f (free x)

@[simp] lemma extend_top {α : Sort*} (a : α) (f : Ref → α) : extend a f top = a := rfl

@[simp] lemma extend_succ {α : Sort*} (a : α) (f : Ref → α) (r : Ref) :
    extend a f r.succ = f r := by
  cases r <;> rfl

@[simp] lemma extend_free {α : Sort*} (a : α) (f : Ref → α) (x : Name) :
    extend a f (free x) = f (free x) :=
  rfl

lemma eq_top_or_succ (r : Ref) : r = top ∨ ∃ r', r = succ r' := by
  rcases r with (_ | n) | x
  · exact .inl rfl
  · exact .inr ⟨bound n, rfl⟩
  · exact .inr ⟨free x, rfl⟩

@[simp] lemma succ_inj {r s : Ref} : r.succ = s.succ ↔ r = s := by
  cases r <;> cases s <;> simp [succ]

@[simp] lemma succ_ne_top (r : Ref) : r.succ ≠ top := by
  cases r <;> simp [succ, top]

@[simp] lemma top_ne_succ (r : Ref) : top ≠ r.succ :=
  (succ_ne_top r).symm

@[simp] lemma succ_free (x : Name) : (free x).succ = free x := rfl

@[simp] lemma free_ne_top (x : Name) : free x ≠ top :=
  nofun

/-- A renaming, below one more binder. -/
def lift (ρ : Ref → Ref) : Ref → Ref :=
  extend top fun r => (ρ r).succ

@[simp] lemma lift_top (ρ : Ref → Ref) : lift ρ top = top := rfl

@[simp] lemma lift_succ (ρ : Ref → Ref) (r : Ref) : lift ρ r.succ = (ρ r).succ :=
  extend_succ ..

/-- The renaming by which a new binder takes over a free name. -/
def capture (x : Name) (r : Ref) : Ref :=
  if r = free x then top else r.succ

@[simp] lemma capture_self (x : Name) : capture x (free x) = top :=
  if_pos rfl

lemma capture_of_ne {x : Name} {r : Ref} (h : r ≠ free x) : capture x r = r.succ :=
  if_neg h

end Ref

/-- A term with counted binders. -/
inductive Nameless where
  | ref (r : Ref)
  | const (name : Name)
  | app (fn arg : Nameless)
  | lam (ty body : Nameless)
  | pi (ty body : Nameless)
  | sort
  | unit
  | tt
  | prod (fst snd : Nameless)
  | pair (fst snd : Nameless)
  | eq (ty lhs rhs : Nameless)
  | refl (ty value : Nameless)
  | transport (head src dst proof value : Nameless)

namespace Nameless

/-! ### Renaming and substitution -/

/-- The term with its references renamed. -/
@[grind =]
def rename (ρ : Ref → Ref) : Nameless → Nameless
  | ref r => ref (ρ r)
  | const c => const c
  | app f a => app (f.rename ρ) (a.rename ρ)
  | lam A b => lam (A.rename ρ) (b.rename (Ref.lift ρ))
  | pi A B => pi (A.rename ρ) (B.rename (Ref.lift ρ))
  | sort => sort
  | unit => unit
  | tt => tt
  | prod a b => prod (a.rename ρ) (b.rename ρ)
  | pair a b => pair (a.rename ρ) (b.rename ρ)
  | eq A l r => eq (A.rename ρ) (l.rename ρ) (r.rename ρ)
  | refl A a => refl (A.rename ρ) (a.rename ρ)
  | transport h s d p v =>
    transport (h.rename ρ) (s.rename ρ) (d.rename ρ) (p.rename ρ) (v.rename ρ)

/-- The term seen from below one more binder. -/
def shift (t : Nameless) : Nameless :=
  t.rename Ref.succ

/-- A substitution, below one more binder. -/
def up (σ : Ref → Nameless) : Ref → Nameless :=
  Ref.extend (ref .top) fun r => (σ r).shift

@[simp] lemma up_top (σ : Ref → Nameless) : up σ .top = ref .top := rfl

@[simp] lemma up_succ (σ : Ref → Nameless) (r : Ref) : up σ r.succ = (σ r).shift :=
  Ref.extend_succ ..

/-- The term with a term for each reference. -/
@[grind =]
def subst (σ : Ref → Nameless) : Nameless → Nameless
  | ref r => σ r
  | const c => const c
  | app f a => app (f.subst σ) (a.subst σ)
  | lam A b => lam (A.subst σ) (b.subst (up σ))
  | pi A B => pi (A.subst σ) (B.subst (up σ))
  | sort => sort
  | unit => unit
  | tt => tt
  | prod a b => prod (a.subst σ) (b.subst σ)
  | pair a b => pair (a.subst σ) (b.subst σ)
  | eq A l r => eq (A.subst σ) (l.subst σ) (r.subst σ)
  | refl A a => refl (A.subst σ) (a.subst σ)
  | transport h s d p v => transport (h.subst σ) (s.subst σ) (d.subst σ) (p.subst σ) (v.subst σ)

/-- The body of a binder with a term for the binder's variable. -/
def inst (body a : Nameless) : Nameless :=
  body.subst (Ref.extend a ref)

/-- The substitution of a term for a free name. -/
def single (x : Name) (v : Nameless) (r : Ref) : Nameless :=
  if r = .free x then v else ref r

@[simp] lemma single_self (x : Name) (v : Nameless) : single x v (.free x) = v :=
  if_pos rfl

lemma single_of_ne {x : Name} {v : Nameless} {r : Ref} (h : r ≠ .free x) : single x v r = ref r :=
  if_neg h

/-- `f a₁ … aₙ`. -/
def apps (f : Nameless) (args : List Nameless) : Nameless :=
  args.foldl app f

/-- Nested pairs that end in `tt`. -/
def tuple (ts : List Nameless) : Nameless :=
  ts.foldr pair tt

/-- Nested products that end in `unit`. -/
def tupleType (types : List Nameless) : Nameless :=
  types.foldr prod unit

@[simp] lemma tupleType_nil : tupleType [] = unit := rfl

@[simp] lemma tupleType_cons (T : Nameless) (Ts : List Nameless) :
    tupleType (T :: Ts) = prod T (tupleType Ts) :=
  rfl

@[simp] lemma apps_nil (f : Nameless) : f.apps [] = f := rfl

@[simp] lemma apps_cons (f a : Nameless) (as : List Nameless) :
    f.apps (a :: as) = (app f a).apps as :=
  rfl

@[simp] lemma apps_concat (f a : Nameless) (as : List Nameless) :
    f.apps (as ++ [a]) = app (f.apps as) a := by
  simp [apps]

@[simp] lemma tuple_nil : tuple [] = tt := rfl

@[simp] lemma tuple_cons (t : Nameless) (ts : List Nameless) :
    tuple (t :: ts) = pair t (tuple ts) :=
  rfl

lemma subst_apps (f : Nameless) (as : List Nameless) (σ : Ref → Nameless) :
    (f.apps as).subst σ = (f.subst σ).apps (as.map (subst σ)) := by
  induction as generalizing f with
  | nil => rfl
  | cons a as ih => simpa [subst] using ih (app f a)

lemma rename_apps (f : Nameless) (as : List Nameless) (ρ : Ref → Ref) :
    (f.apps as).rename ρ = (f.rename ρ).apps (as.map (rename ρ)) := by
  induction as generalizing f with
  | nil => rfl
  | cons a as ih => simpa [rename] using ih (app f a)

lemma rename_tuple (ts : List Nameless) (ρ : Ref → Ref) :
    (tuple ts).rename ρ = tuple (ts.map (rename ρ)) := by
  induction ts with
  | nil => rfl
  | cons t ts ih => simp [rename, ih]

lemma subst_tuple (ts : List Nameless) (σ : Ref → Nameless) :
    (tuple ts).subst σ = tuple (ts.map (subst σ)) := by
  induction ts with
  | nil => rfl
  | cons t ts ih => simp [subst, ih]

/-! ### The references of a term -/

/-- The reference occurs in the term; below a binder it is counted up. -/
@[grind =]
def Occurs : Nameless → Ref → Prop
  | ref r', r => r' = r
  | const _, _ | sort, _ | unit, _ | tt, _ => False
  | app a b, r | prod a b, r | pair a b, r | refl a b, r => a.Occurs r ∨ b.Occurs r
  | lam A b, r | pi A b, r => A.Occurs r ∨ b.Occurs r.succ
  | eq A a b, r => A.Occurs r ∨ a.Occurs r ∨ b.Occurs r
  | transport h s d p v, r => h.Occurs r ∨ s.Occurs r ∨ d.Occurs r ∨ p.Occurs r ∨ v.Occurs r

/-- No reference occurs in the term. -/
def Closed (t : Nameless) : Prop :=
  ∀ r, ¬ t.Occurs r

/-! ### Laws of substitution -/

lemma up_congr {b : Nameless} {σ τ : Ref → Nameless} (h : ∀ r, b.Occurs r.succ → σ r = τ r) :
    ∀ r, b.Occurs r → up σ r = up τ r := by
  intro r hr
  rcases r.eq_top_or_succ with rfl | ⟨r, rfl⟩
  · rfl
  · rw [up_succ, up_succ, h r hr]

/-- Only the references that occur matter to a substitution. -/
theorem subst_congr {t : Nameless} {σ τ : Ref → Nameless} (h : ∀ r, t.Occurs r → σ r = τ r) :
    t.subst σ = t.subst τ := by
  induction t generalizing σ τ with
  | ref r => exact h r rfl
  | const | sort | unit | tt => rfl
  | app a b iha ihb | prod a b iha ihb | pair a b iha ihb | refl a b iha ihb =>
    simp only [subst]
    rw [iha fun r hr => h r (.inl hr), ihb fun r hr => h r (.inr hr)]
  | lam A b ihA ihb | pi A b ihA ihb =>
    simp only [subst]
    rw [ihA fun r hr => h r (.inl hr), ihb (up_congr fun r hr => h r (.inr hr))]
  | eq A a b ihA iha ihb =>
    simp only [subst]
    rw [ihA fun r hr => h r (.inl hr), iha fun r hr => h r (.inr (.inl hr)),
      ihb fun r hr => h r (.inr (.inr hr))]
  | transport x s d p v ihx ihs ihd ihp ihv =>
    simp only [subst]
    rw [ihx fun r hr => h r (.inl hr), ihs fun r hr => h r (.inr (.inl hr)),
      ihd fun r hr => h r (.inr (.inr (.inl hr))), ihp fun r hr =>
      h r (.inr (.inr (.inr (.inl hr)))), ihv fun r hr => h r (.inr (.inr (.inr (.inr hr))))]

/-- Two functions on references agree if they do below a binder, at its variable and outside. -/
lemma ext_ref {α : Sort*} {f g : Ref → α} (htop : f .top = g .top)
    (hsucc : ∀ r : Ref, f r.succ = g r.succ) : f = g := by
  funext r
  rcases r.eq_top_or_succ with rfl | ⟨r, rfl⟩
  · exact htop
  · exact hsucc r

lemma up_ref_comp (ρ : Ref → Ref) : up (fun r => ref (ρ r)) = fun r => ref (Ref.lift ρ r) :=
  ext_ref rfl fun r => by simp [shift, rename]

/-- Renaming is substitution of references. -/
lemma rename_eq_subst (t : Nameless) (ρ : Ref → Ref) : t.rename ρ = t.subst fun r => ref (ρ r) := by
  induction t generalizing ρ <;> simp_all [rename, subst, up_ref_comp]

lemma up_ref : up ref = ref :=
  ext_ref rfl fun r => by simp [shift, rename]

@[simp] lemma subst_ref (t : Nameless) : t.subst ref = t := by
  induction t <;> simp_all [subst, up_ref]

lemma rename_id (t : Nameless) : t.rename id = t :=
  (rename_eq_subst t id).trans (subst_ref t)

lemma up_comp_lift (σ : Ref → Nameless) (ρ : Ref → Ref) :
    (fun r => up σ (Ref.lift ρ r)) = up fun r => σ (ρ r) :=
  ext_ref rfl fun r => by simp

lemma subst_rename (t : Nameless) (ρ : Ref → Ref) (σ : Ref → Nameless) :
    (t.rename ρ).subst σ = t.subst fun r => σ (ρ r) := by
  induction t generalizing ρ σ <;> simp_all [rename, subst, up_comp_lift]

lemma rename_rename (t : Nameless) (ρ τ : Ref → Ref) :
    (t.rename ρ).rename τ = t.rename fun r => τ (ρ r) := by
  rw [rename_eq_subst, subst_rename, rename_eq_subst]

/-- A shifted term below a lifted renaming. -/
lemma rename_shift (t : Nameless) (ρ : Ref → Ref) :
    t.shift.rename (Ref.lift ρ) = (t.rename ρ).shift := by
  simp [shift, rename_rename]

lemma rename_comp_up (σ : Ref → Nameless) (ρ : Ref → Ref) :
    (fun r => (up σ r).rename (Ref.lift ρ)) = up fun r => (σ r).rename ρ :=
  ext_ref rfl fun r => by simp [rename_shift]

lemma rename_subst (t : Nameless) (σ : Ref → Nameless) (ρ : Ref → Ref) :
    (t.subst σ).rename ρ = t.subst fun r => (σ r).rename ρ := by
  induction t generalizing σ ρ <;> simp_all [rename, subst, rename_comp_up]

/-- A shifted term below a lifted substitution. -/
lemma subst_shift (t : Nameless) (σ : Ref → Nameless) :
    t.shift.subst (up σ) = (t.subst σ).shift := by
  simp [shift, subst_rename, rename_subst, up_succ]

lemma subst_comp_up (σ τ : Ref → Nameless) :
    (fun r => (up σ r).subst (up τ)) = up fun r => (σ r).subst τ :=
  ext_ref rfl fun r => by simp [subst_shift]

/-- **Two substitutions in a row are one.** -/
theorem subst_subst (t : Nameless) (σ τ : Ref → Nameless) :
    (t.subst σ).subst τ = t.subst fun r => (σ r).subst τ := by
  induction t generalizing σ τ <;> simp_all [subst, subst_comp_up]

/-! ### Instances -/

/-- A shifted term does not mention the binder's variable. -/
@[simp] lemma inst_shift (t a : Nameless) : t.shift.inst a = t := by
  simp [shift, inst, subst_rename]

/-- Substitution goes into an opened body. -/
lemma subst_inst (b a : Nameless) (σ : Ref → Nameless) :
    (b.inst a).subst σ = (b.subst (up σ)).inst (a.subst σ) := by
  simp only [inst, subst_subst]
  congr 1
  exact ext_ref (by simp [subst]) fun r => by simp [shift, subst_rename, subst]

lemma rename_inst (b a : Nameless) (ρ : Ref → Ref) :
    (b.inst a).rename ρ = (b.rename (Ref.lift ρ)).inst (a.rename ρ) := by
  simp only [rename_eq_subst, subst_inst, up_ref_comp]

/-- Closing over the binder's variable, after the lifted substitution. -/
lemma inst_up (b a : Nameless) (σ : Ref → Nameless) :
    (b.subst (up σ)).inst a = b.subst (Ref.extend a σ) := by
  simp only [inst, subst_subst]
  congr 1
  exact ext_ref (by simp [subst]) fun r => by simp [shift, subst_rename]

/-! ### References of a substituted term -/

lemma occurs_rename {t : Nameless} {ρ : Ref → Ref} {r : Ref} :
    (t.rename ρ).Occurs r ↔ ∃ r', t.Occurs r' ∧ ρ r' = r := by
  have hbinder : ∀ {b : Nameless} {ρ : Ref → Ref} {r : Ref},
      (∃ r', b.Occurs r' ∧ Ref.lift ρ r' = r.succ) ↔ ∃ r', b.Occurs r'.succ ∧ ρ r' = r := by
    intro b ρ r
    refine ⟨?_, fun ⟨r', hb, hr⟩ => ⟨r'.succ, hb, by simp [hr]⟩⟩
    rintro ⟨r', hb, hr⟩
    rcases r'.eq_top_or_succ with rfl | ⟨r', rfl⟩
    · simp at hr
    · exact ⟨r', hb, by simpa using hr⟩
  induction t generalizing ρ r <;> simp_all [rename, Occurs, or_and_right, exists_or]

lemma occurs_shift {t : Nameless} {r : Ref} : t.shift.Occurs r.succ ↔ t.Occurs r := by
  simp [shift, occurs_rename]

lemma occurs_tuple {ts : List Nameless} {r : Ref} : (tuple ts).Occurs r ↔ ∃ t ∈ ts, t.Occurs r := by
  induction ts with
  | nil => simp [Occurs]
  | cons t ts ih => simp [Occurs, ih]

lemma occurs_subst {t : Nameless} {σ : Ref → Nameless} {r : Ref} :
    (t.subst σ).Occurs r ↔ ∃ r', t.Occurs r' ∧ (σ r').Occurs r := by
  have hbinder : ∀ {b : Nameless} {σ : Ref → Nameless} {r : Ref},
      (∃ r', b.Occurs r' ∧ (up σ r').Occurs r.succ) ↔ ∃ r', b.Occurs r'.succ ∧ (σ r').Occurs r := by
    intro b σ r
    refine ⟨?_, fun ⟨r', hb, hr⟩ => ⟨r'.succ, hb, by simpa [occurs_shift] using hr⟩⟩
    rintro ⟨r', hb, hr⟩
    rcases r'.eq_top_or_succ with rfl | ⟨r', rfl⟩
    · simp [Occurs] at hr
    · exact ⟨r', hb, by simpa [occurs_shift] using hr⟩
  induction t generalizing σ r <;> simp_all [subst, Occurs, or_and_right, exists_or]

lemma subst_of_closed {t : Nameless} (h : t.Closed) (σ : Ref → Nameless) : t.subst σ = t := by
  rw [subst_congr (τ := ref) fun r hr => absurd hr (h r), subst_ref]

lemma subst_single_of_not_occurs {t v : Nameless} {x : Name} (h : ¬ t.Occurs (.free x)) :
    t.subst (single x v) = t := by
  have hcongr : t.subst (single x v) = t.subst ref :=
    subst_congr fun r hr => if_neg fun hrx : r = .free x => h (hrx ▸ hr)
  rw [hcongr, subst_ref]

lemma rename_of_closed {t : Nameless} (h : t.Closed) (ρ : Ref → Ref) : t.rename ρ = t := by
  rw [rename_eq_subst, subst_of_closed h]

end Nameless

end UniqueEvidence
