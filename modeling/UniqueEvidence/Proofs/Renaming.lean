/-
Terms and goals with renamed free names.

Two terms are alike under a renaming if the second is the first with its free names renamed; the
names of binders do not count.  What the library computes from a term, it computes alike from a term
that is alike.

* `Term.Alike`: the relation.  `Term.Alike.subst`, `Term.Alike.contract`: substitution respects it;
* `Term.Alike.upToDepth_normalize`, `Term.Alike.upToDepth_convertible`: **alike terms have alike
  normal forms**, and conversion does not depend on names;
* `Registry.IsUniform`, `Registry.find?_of_alike`: deciders that do not depend on names;
* `Goal.Alike`: hypotheses and targets that are alike one by one;
* `exists_perm_of_fresh`: a renaming that sends new names to new names, and the others as before;
* `reorder_of_alike`: **reordering respects renaming**.
-/
import Mathlib.Logic.Equiv.Basic
import UniqueEvidence.Proofs.Freshening
import UniqueEvidence.Proofs.Scoping

namespace UniqueEvidence

open Nameless

variable {σ τ : Equiv.Perm Name}

/-! ### Renamings of references -/

lemma Ref.lift_onFree (f : Name → Name) : Ref.lift (Ref.onFree f) = Ref.onFree f :=
  ext_ref rfl fun r => by cases r <;> rfl

lemma Ref.onFree_injective (σ : Equiv.Perm Name) : Function.Injective (Ref.onFree σ) := by
  rintro (m | x) (n | y) h <;> simp_all [Ref.onFree]

namespace Term

/-- The second term is the first with its free names renamed, up to the names of binders. -/
def Alike (σ : Equiv.Perm Name) (t t' : Term) : Prop :=
  t'.nameless = t.nameless.rename (Ref.onFree σ)

variable {t t' u u' v v' : Term} {x : Name}

lemma rename_nameless_congr {f f' : Name → Name} (h : ∀ x ∈ t.freeVars, f x = f' x) :
    t.nameless.rename (Ref.onFree f) = t.nameless.rename (Ref.onFree f') := by
  rw [rename_eq_subst, rename_eq_subst]
  refine subst_congr fun r hr => ?_
  rcases r with n | x
  · rfl
  · rw [Ref.onFree, Ref.onFree, h x (occurs_nameless.1 hr)]

namespace Alike

lemma symm (h : Alike σ t t') : Alike σ.symm t' t := by
  have hcomp : (fun r => Ref.onFree σ.symm (Ref.onFree σ r)) = id := by
    funext r
    cases r <;> simp [Ref.onFree]
  rw [Alike, h, rename_rename, hcomp, rename_id]

/-- The free names of a term that is alike. -/
lemma mem_freeVars (h : Alike σ t t') : σ x ∈ t'.freeVars ↔ x ∈ t.freeVars := by
  rw [← occurs_nameless, h, occurs_rename, ← occurs_nameless]
  refine ⟨fun ⟨r, hr, hrx⟩ => ?_, fun hx => ⟨_, hx, rfl⟩⟩
  rwa [← Ref.onFree_injective σ (show Ref.onFree σ r = Ref.onFree σ (.free x) from hrx)]

lemma exists_of_mem (h : Alike σ t t') {y : Name} (hy : y ∈ t'.freeVars) :
    ∃ x ∈ t.freeVars, σ x = y :=
  ⟨σ.symm y, h.mem_freeVars.1 (by simpa using hy), by simp⟩

/-- Only what happens to the free names counts. -/
lemma congr (h : Alike σ t t') (hστ : ∀ x ∈ t.freeVars, σ x = τ x) : Alike τ t t' := by
  rw [Alike, h]
  exact rename_nameless_congr hστ

end Alike

/-- If no free name is renamed, the terms differ in the names of binders alone. -/
lemma alike_refl_iff : Alike (Equiv.refl Name) t t' ↔ t'.nameless = t.nameless := by
  have href : Ref.onFree (Equiv.refl Name) = id := by
    funext r
    cases r <;> rfl
  rw [Alike, href, rename_id]

lemma alike_self (h : ∀ x ∈ t.freeVars, σ x = x) : Alike σ t t :=
  (alike_refl_iff.2 rfl).congr fun x hx => (h x hx).symm

lemma alike_of_closed (h : t.freeVars = []) : Alike σ t t :=
  alike_self (by simp [h])

/-- Closed terms are alike only if they differ in the names of binders alone. -/
lemma Alike.alphaEq_of_closed (h : Alike σ t t') (hclosed : t.freeVars = []) :
    t'.alphaEq t = true := by
  rw [alphaEq_iff, h, rename_of_closed (closed_nameless hclosed)]

lemma alphaEq_symm (h : t.alphaEq u = true) : u.alphaEq t = true :=
  alphaEq_iff.2 (alphaEq_iff.1 h).symm

lemma exists_pair_of_alphaEq {a b : Term} (h : (pair a b).alphaEq t = true) :
    ∃ a' b', t = pair a' b' ∧ a.alphaEq a' = true ∧ b.alphaEq b' = true := by
  cases t <;> simp_all [alphaEq, alphaEqUnder]

/-! ### Forms of terms -/

lemma alike_var_iff : Alike σ (var x) t' ↔ t' = var (σ x) := by
  cases t' <;> simp [Alike, nameless, rename, Ref.onFree]

lemma alike_const_iff {c : Name} : Alike σ (const c) t' ↔ t' = const c := by
  cases t' <;> simp [Alike, nameless, rename]

lemma alike_unit_iff : Alike σ unit t' ↔ t' = unit := by
  cases t' <;> simp [Alike, nameless, rename]

lemma alike_app_iff {f a : Term} :
    Alike σ (app f a) t' ↔ ∃ f' a', t' = app f' a' ∧ Alike σ f f' ∧ Alike σ a a' := by
  cases t' <;> simp [Alike, nameless, rename]

lemma alike_prod_iff {a b : Term} :
    Alike σ (prod a b) t' ↔ ∃ a' b', t' = prod a' b' ∧ Alike σ a a' ∧ Alike σ b b' := by
  cases t' <;> simp [Alike, nameless, rename]

lemma alike_pair_iff {a b : Term} :
    Alike σ (pair a b) t' ↔ ∃ a' b', t' = pair a' b' ∧ Alike σ a a' ∧ Alike σ b b' := by
  cases t' <;> simp [Alike, nameless, rename]

lemma alike_eq_iff {ty l r : Term} :
    Alike σ (eq ty l r) t' ↔ ∃ ty' l' r', t' = eq ty' l' r' ∧ Alike σ ty ty' ∧
      Alike σ l l' ∧ Alike σ r r' := by
  cases t' <;> simp [Alike, nameless, rename]

lemma Alike.eq {ty ty' l l' r r' : Term} (hty : Alike σ ty ty') (hl : Alike σ l l')
    (hr : Alike σ r r') : Alike σ (.eq ty l r) (.eq ty' l' r') :=
  alike_eq_iff.2 ⟨_, _, _, rfl, hty, hl, hr⟩

lemma Alike.refl {ty ty' a a' : Term} (hty : Alike σ ty ty') (ha : Alike σ a a') :
    Alike σ (.refl ty a) (.refl ty' a') := by
  simp only [Alike, nameless, rename] at *
  rw [hty, ha]

lemma Alike.exists_pi {ty body : Term} (h : Alike σ (pi x ty body) t') :
    ∃ x' ty' body', t' = pi x' ty' body' ∧ Alike σ ty ty' := by
  cases t' <;> simp_all [Alike, nameless, rename]

lemma Alike.apps {as as' : List Term} (h : Alike σ t t') (has : List.Forall₂ (Alike σ) as as') :
    Alike σ (t.apps as) (t'.apps as') := by
  induction has generalizing t t' with
  | nil => exact h
  | cons ha _ ih => exact ih (alike_app_iff.2 ⟨_, _, rfl, h, ha⟩)

/-- Heads and arguments are alike. -/
lemma Alike.spine (h : Alike σ t t') :
    Alike σ t.head t'.head ∧ List.Forall₂ (Alike σ) t.args t'.args := by
  induction t generalizing t' with
  | app f a ihf =>
    obtain ⟨f', a', rfl, hf, ha⟩ := alike_app_iff.1 h
    obtain ⟨hhead, hargs⟩ := ihf hf
    exact ⟨hhead, List.rel_append hargs (.cons ha .nil)⟩
  | _ =>
    -- the other term is no application either
    cases t' with
    | app f' a' =>
      obtain ⟨f, a, happ, -⟩ := alike_app_iff.1 h.symm
      cases happ
    | _ => exact ⟨h, .nil⟩

/-! ### Substitution -/

/-- Substitution of alike terms for a name and its new name. -/
lemma Alike.subst (h : Alike σ t t') (hv : Alike σ v v') (x : Name) :
    Alike σ (t.subst x v) (t'.subst (σ x) v') := by
  rw [Alike, nameless_subst, nameless_subst, h, rename_subst, subst_rename]
  refine subst_congr fun r _ => ?_
  by_cases hr : r = .free x
  · rw [hr, single_self]
    exact (single_self ..).trans hv
  · have hne : Ref.onFree σ r ≠ .free (σ x) := fun heq => hr (Ref.onFree_injective σ heq)
    rw [single_of_ne hr, single_of_ne hne, rename]

/-- Products that are alike have alike values at alike arguments. -/
lemma Alike.contract {x' : Name} {ty ty' body body' : Term}
    (h : Alike σ (pi x ty body) (pi x' ty' body')) (hv : Alike σ v v') :
    Alike σ (body.subst x v) (body'.subst x' v') := by
  rw [Alike, nameless, nameless, rename, Nameless.pi.injEq, Ref.lift_onFree] at h
  rw [Alike, nameless_contract, nameless_contract, rename_inst, Ref.lift_onFree, h.2, hv]

/-! ### Computation -/

lemma Alike.conv_iff (h : Alike σ t t') (hu : Alike σ u u') :
    Conv t'.nameless u'.nameless ↔ Conv t.nameless u.nameless := by
  refine ⟨fun hconv => ?_, fun hconv => ?_⟩
  · rw [h.symm, hu.symm]
    exact hconv.rename _
  · rw [h, hu]
    exact hconv.rename _

/-- **Alike terms have alike normal forms.** -/
theorem Alike.upToDepth_normalize (h : Alike σ t t') {k : Kernel} (hu : k.normalize t = .ok u)
    (k' : Kernel) : UpToDepth (k'.normalize t') (Alike σ u) := by
  refine (Kernel.upToDepth_normalize k' t').imp fun u' hu' _ => ?_
  obtain ⟨hr, hnormal⟩ := Kernel.normalize_spec hu
  obtain ⟨hr', hnormal'⟩ := Kernel.normalize_spec hu'
  have hconv : Conv u'.nameless (u.nameless.rename (Ref.onFree σ)) := by
    refine (Conv.of_reduces hr').symm.trans ?_
    rw [h]
    exact (Conv.of_reduces hr).rename _
  exact hconv.eq_of_normal hnormal' (isNormal_rename.2 hnormal)

/-- **Conversion does not depend on names.** -/
theorem Alike.upToDepth_convertible (h : Alike σ t t') (hu : Alike σ u u') {k : Kernel}
    {answer : Bool} (hanswer : k.convertible t u = .ok answer) (k' : Kernel) :
    UpToDepth (k'.convertible t' u') (· = answer) := by
  refine (Kernel.upToDepth_withinDepth _).imp fun answer' hanswer' _ => ?_
  rw [Bool.eq_iff_iff, Kernel.convertible_iff hanswer, Kernel.convertible_iff hanswer']
  exact h.conv_iff hu

end Term

/-! ### Equations -/

/-- Equations whose parts are alike. -/
structure Equation.Alike (σ : Equiv.Perm Name) (e e' : Equation) : Prop where
  ty : e.ty.Alike σ e'.ty
  lhs : e.lhs.Alike σ e'.lhs
  rhs : e.rhs.Alike σ e'.rhs

lemma Equation.Alike.symm {e e' : Equation} (h : e.Alike σ e') : e'.Alike σ.symm e :=
  ⟨h.ty.symm, h.lhs.symm, h.rhs.symm⟩

lemma Term.Alike.exists_equation {e : Equation} {t' : Term} (h : Term.Alike σ e.toTerm t') :
    ∃ e' : Equation, t' = e'.toTerm ∧ e.Alike σ e' := by
  obtain ⟨ty', l', r', rfl, hty, hl, hr⟩ := Term.alike_eq_iff.1 h
  exact ⟨⟨ty', l', r'⟩, rfl, hty, hl, hr⟩

/-! ### Deciders -/

/-- The answers do not depend on the names of binders. -/
def Decider.IgnoresBinders (d : Decider) : Prop :=
  ∀ a a' b b' : Term, a.alphaEq a' = true → b.alphaEq b' = true → d.decides a b = d.decides a' b'

/-- The decider for pairs says yes to pairs with equal components only. -/
lemma Decider.both_decides {left right : Decider} {a b : Term} :
    (left.both right).decides a b = true ↔
    ∃ a₁ a₂ b₁ b₂, a = .pair a₁ a₂ ∧ b = .pair b₁ b₂ ∧ left.decides a₁ b₁ = true ∧
      right.decides a₂ b₂ = true := by
  refine ⟨fun h => ?_, ?_⟩
  · simp only [both] at h
    split at h
    · exact ⟨_, _, _, _, rfl, rfl, Bool.and_eq_true_iff.1 h⟩
    · cases h
  · rintro ⟨a₁, a₂, b₁, b₂, rfl, rfl, hleft, hright⟩
    exact Bool.and_eq_true_iff.2 ⟨hleft, hright⟩

lemma Decider.IgnoresBinders.both {left right : Decider} (hleft : left.IgnoresBinders)
    (hright : right.IgnoresBinders) : (left.both right).IgnoresBinders := by
  have hone : ∀ {a a' b b' : Term}, a.alphaEq a' = true → b.alphaEq b' = true →
      (left.both right).decides a b = true → (left.both right).decides a' b' = true := by
    intro a a' b b' ha hb h
    obtain ⟨a₁, a₂, b₁, b₂, rfl, rfl, h₁, h₂⟩ := both_decides.1 h
    obtain ⟨a₁', a₂', rfl, ha₁, ha₂⟩ := Term.exists_pair_of_alphaEq ha
    obtain ⟨b₁', b₂', rfl, hb₁, hb₂⟩ := Term.exists_pair_of_alphaEq hb
    exact both_decides.2 ⟨_, _, _, _, rfl, rfl, hleft _ _ _ _ ha₁ hb₁ ▸ h₁,
      hright _ _ _ _ ha₂ hb₂ ▸ h₂⟩
  intro a a' b b' ha hb
  rw [Bool.eq_iff_iff]
  exact ⟨hone ha hb, hone (Term.alphaEq_symm ha) (Term.alphaEq_symm hb)⟩

/-- The deciders do not depend on the names in a type or in its values: a fact is about a closed
type with one spelling, its decider does not see the names of binders, and there is no rule but the
one for pairs. -/
structure Registry.IsUniform (r : Registry) : Prop where
  rules : ∀ rule ∈ r.rules, rule = .pairs
  closed : ∀ p ∈ r.facts, p.1.freeVars = []
  spelling : ∀ p ∈ r.facts, ∀ t : Term, t.alphaEq p.1 = true → t = p.1
  deciders : ∀ p ∈ r.facts, p.2.IgnoresBinders

/-- The decider that the components of a type of pairs give. -/
def Registry.componentwise? (r : Registry) : Term → Option Decider
  | .prod a b => do return Decider.both (← r.find? a) (← r.find? b)
  | _ => none

/-- With no rule but the one for pairs, a type without a fact has the decider of its components. -/
lemma Registry.find?_eq_or {r : Registry} (hrules : ∀ rule ∈ r.rules, rule = .pairs) (key : Term) :
    r.find? key = (r.fact? key).or (if r.rules = [] then none else r.componentwise? key) := by
  have hpairs : ∀ {rules : List DeciderRule} (f : DeciderRule → Option Decider),
      (∀ rule ∈ rules, rule = .pairs) →
      rules.findSome? f = if rules = [] then none else f .pairs := by
    intro rules f h
    induction rules with
    | nil => rfl
    | cons rule rules ih =>
      obtain rfl := h rule List.mem_cons_self
      rw [List.findSome?_cons, ih fun rule hrule => h rule (List.mem_cons_of_mem _ hrule)]
      cases f .pairs <;> simp
  rw [find?.eq_def, Option.orElse_eq_orElse, Option.orElse_eq_or, hpairs _ hrules]
  rfl

/-- Types that are the same as far as the facts go have the same fact. -/
lemma Registry.fact?_congr {r : Registry} {key key' : Term}
    (h : ∀ p ∈ r.facts, (p.1 = key' ↔ p.1 = key)) : r.fact? key' = r.fact? key := by
  rw [fact?, fact?]
  generalize r.facts = facts at h
  induction facts with
  | nil => rfl
  | cons p facts ih =>
    simp only [List.findSome?_cons, h p List.mem_cons_self]
    rw [ih fun q hq => h q (List.mem_cons_of_mem _ hq)]

/-- With no rule but the one for pairs, alike types have the same decider if alike types have the
same facts. -/
lemma Registry.find?_of_alike_facts {r : Registry} (hrules : ∀ rule ∈ r.rules, rule = .pairs)
    (hfacts : ∀ {key key' : Term}, key.Alike σ key' → r.fact? key' = r.fact? key) {key key' : Term}
    (h : key.Alike σ key') : r.find? key' = r.find? key := by
  have heq := find?_eq_or hrules
  have hcomponents : r.componentwise? key' = r.componentwise? key := by
    induction key generalizing key' with
    | prod a b iha ihb =>
      obtain ⟨a', b', rfl, ha, hb⟩ := Term.alike_prod_iff.1 h
      rw [componentwise?, componentwise?, heq a', heq a, hfacts ha, iha ha, heq b',
        heq b, hfacts hb, ihb hb]
    | _ =>
      cases key' with
      | prod a' b' =>
        obtain ⟨a, b, hprod, -⟩ := Term.alike_prod_iff.1 h.symm
        cases hprod
      | _ => rfl
  rw [heq key', heq key, hfacts h, hcomponents]

namespace Registry.IsUniform

variable {r : Registry} (hr : r.IsUniform) {key key' : Term}
include hr

lemma fact?_of_alike (h : key.Alike σ key') : r.fact? key' = r.fact? key := by
  have hsame : ∀ p ∈ r.facts, (p.1 = key' ↔ p.1 = key) := by
    have hone : ∀ {σ : Equiv.Perm Name} {key key' : Term}, key.Alike σ key' →
        ∀ p ∈ r.facts, p.1 = key → p.1 = key' := by
      rintro σ key key' h p hp rfl
      exact (hr.spelling p hp key' (h.alphaEq_of_closed (hr.closed p hp))).symm
    exact fun p hp => ⟨hone h.symm p hp, hone h p hp⟩
  exact fact?_congr hsame

/-- **The decider of a type does not depend on names.** -/
theorem find?_of_alike (h : key.Alike σ key') : r.find? key' = r.find? key :=
  find?_of_alike_facts hr.rules hr.fact?_of_alike h

/-- The deciders found do not see the names of binders. -/
lemma decides_congr {d : Decider} (h : r.find? key = some d) {a a' b b' : Term}
    (ha : a.alphaEq a' = true) (hb : b.alphaEq b' = true) : d.decides a b = d.decides a' b' := by
  suffices hd : d.IgnoresBinders from hd a a' b b' ha hb
  refine find?_induction (P := fun _ d => d.IgnoresBinders) ?_ ?_
    (fun _ hleft hright => hleft.both hright) h
  · exact fun hfact => hr.deciders _ (mem_of_fact? hfact)
  · exact fun hrule => by cases hr.rules _ hrule

end Registry.IsUniform

/-- The registry that a run starts from, with a fact for each of some data types. -/
lemma Registry.isUniform_datatypes (names : List Name) :
    Registry.IsUniform ⟨default.facts ++ names.map fun c => (.const c, .structural c),
      default.rules⟩ := by
  have hcases : ∀ p ∈ default.facts ++ names.map fun c => (Term.const c, Decider.structural c),
      p = (.unit, .always "unit") ∨ ∃ c, p = (.const c, .structural c) := by
    intro p hp
    rcases List.mem_append.1 hp with hp | hp
    · exact .inl (List.mem_singleton.1 hp)
    · obtain ⟨c, -, rfl⟩ := List.mem_map.1 hp
      exact .inr ⟨c, rfl⟩
  refine ⟨fun rule hrule => List.mem_singleton.1 hrule, fun p hp => ?_, fun p hp t ht => ?_,
    fun p hp a a' b b' ha hb => ?_⟩
  · obtain rfl | ⟨c, rfl⟩ := hcases p hp <;> rfl
  · obtain rfl | ⟨c, rfl⟩ := hcases p hp
    · exact Term.alike_unit_iff.1 (Term.alike_refl_iff.2 (Term.alphaEq_iff.1 ht))
    · exact Term.alike_const_iff.1 (Term.alike_refl_iff.2 (Term.alphaEq_iff.1 ht))
  · obtain rfl | ⟨c, rfl⟩ := hcases p hp
    · rfl
    · have ha := Term.alphaEq_iff.1 ha
      have hb := Term.alphaEq_iff.1 hb
      rw [Bool.eq_iff_iff]
      change Term.alphaEq a b = true ↔ Term.alphaEq a' b' = true
      rw [Term.alphaEq_iff, Term.alphaEq_iff, ha, hb]

/-! ### New names -/

/-- A renaming that sends a new name to a new name, and the others as before. -/
lemma exists_perm_of_not_mem (σ : Equiv.Perm Name) {kept : List Name} {x x' : Name} (hx : x ∉ kept)
    (hx' : x' ∉ kept.map σ) : ∃ τ : Equiv.Perm Name, τ x = x' ∧ ∀ y ∈ kept, τ y = σ y := by
  refine ⟨σ.trans (Equiv.swap (σ x) x'), Equiv.swap_apply_left ..,
    fun y hy => Equiv.swap_apply_of_ne_of_ne ?_ ?_⟩
  · exact fun heq => hx (σ.injective heq ▸ hy)
  · exact fun heq => hx' (heq ▸ List.mem_map_of_mem hy)

/-- A renaming that sends new names to new names, and the others as before. -/
lemma exists_perm_of_fresh (σ : Equiv.Perm Name) (kept : List Name) {names names' : List Name}
    (hlen : names.length = names'.length) (hnodup : names.Nodup) (hnodup' : names'.Nodup)
    (hnew : ∀ x ∈ names, x ∉ kept) (hnew' : ∀ x ∈ names', x ∉ kept.map σ) :
    ∃ τ : Equiv.Perm Name, names.map τ = names' ∧ ∀ y ∈ kept, τ y = σ y := by
  induction names generalizing names' kept σ with
  | nil => exact ⟨σ, (List.length_eq_zero_iff.1 hlen.symm).symm, fun _ _ => rfl⟩
  | cons x names ih =>
    obtain - | ⟨x', names'⟩ := names'
    · cases hlen
    · obtain ⟨hx, hnodup⟩ := List.nodup_cons.1 hnodup
      obtain ⟨hx', hnodup'⟩ := List.nodup_cons.1 hnodup'
      obtain ⟨τ, hτx, hτ⟩ :=
        exists_perm_of_not_mem σ (hnew x List.mem_cons_self) (hnew' x' List.mem_cons_self)
      obtain ⟨υ, hυ, hkept⟩ := ih τ (x :: kept) (Nat.succ.inj hlen) hnodup hnodup'
        (fun y hy => List.not_mem_cons_of_ne_of_not_mem (fun heq => hx (heq ▸ hy))
          (hnew y (List.mem_cons_of_mem _ hy)))
        (fun y hy => by
          rw [List.map_cons, hτx, List.map_congr_left hτ]
          exact List.not_mem_cons_of_ne_of_not_mem (fun heq => hx' (heq ▸ hy))
            (hnew' y (List.mem_cons_of_mem _ hy)))
      refine ⟨υ, ?_, fun y hy => (hkept y (List.mem_cons_of_mem _ hy)).trans (hτ y hy)⟩
      rw [List.map_cons, hυ, hkept x List.mem_cons_self, hτx]

/-! ### Hypotheses -/

section Lists

variable {α β : Type} {R : α → β → Prop} {p : α → Bool} {p' : β → Bool}
  (hp : ∀ a b, R a b → p' b = p a) {as : List α} {bs : List β} (h : List.Forall₂ R as bs)
include hp h

lemma forall₂_find? : Option.Rel R (as.find? p) (bs.find? p') := by
  induction h with
  | nil => exact .none
  | @cons a b _ _ hab _ ih =>
    rw [List.find?_cons, List.find?_cons, hp a b hab]
    cases p a with
    | true => exact .some hab
    | false => exact ih

lemma forall₂_findIdx? : bs.findIdx? p' = as.findIdx? p := by
  induction h with
  | nil => rfl
  | @cons a b _ _ hab _ ih => rw [List.findIdx?_cons, List.findIdx?_cons, hp a b hab, ih]

lemma forall₂_any : bs.any p' = as.any p := by
  induction h with
  | nil => rfl
  | @cons a b _ _ hab _ ih => rw [List.any_cons, List.any_cons, hp a b hab, ih]

end Lists

/-- A hypothesis with a new name and an alike type. -/
structure Binding.Alike (σ : Equiv.Perm Name) (b b' : Binding) : Prop where
  name : b'.name = σ b.name
  ty : b.ty.Alike σ b'.ty

section Hypotheses

variable {hyps hyps' : List Binding} (h : List.Forall₂ (Binding.Alike σ) hyps hyps')
include h

lemma names_of_alike : Binding.names hyps' = (Binding.names hyps).map σ := by
  induction h with
  | nil => rfl
  | cons hb _ ih =>
    simp only [Binding.names, List.map_cons, hb.name] at ih ⊢
    rw [ih]

end Hypotheses

namespace Binding.Alike

variable {b b' : Binding}

lemma symm (h : b.Alike σ b') : b'.Alike σ.symm b :=
  ⟨by rw [h.name, Equiv.symm_apply_apply], h.ty.symm⟩

lemma name_beq (h : b.Alike σ b') (x : Name) : (b'.name == σ x) = (b.name == x) := by
  rw [h.name, Bool.eq_iff_iff, beq_iff_eq, beq_iff_eq, σ.injective.eq_iff]

lemma ready (h : b.Alike σ b') (names placed : List Name) :
    b'.ready (names.map σ) (placed.map σ) = b.ready names placed := by
  have hmem : ∀ (x : Name) (xs : List Name), σ x ∈ xs.map σ ↔ x ∈ xs :=
    fun x xs => List.mem_map_of_injective σ.injective
  rw [Bool.eq_iff_iff, Binding.ready_iff, Binding.ready_iff]
  refine ⟨fun hready x hx hxn => ?_, fun hready y hy hyn => ?_⟩
  · exact (hmem x placed).1 (hready _ (h.ty.mem_freeVars.2 hx) ((hmem x names).2 hxn))
  · obtain ⟨x, hx, rfl⟩ := h.ty.exists_of_mem hy
    exact (hmem x placed).2 (hready x hx ((hmem x names).1 hyn))

end Binding.Alike

/-! ### Order -/

lemma takeReady_of_alike {names placed : List Name} {pending pending' others : List Binding}
    {next : Binding} (h : List.Forall₂ (Binding.Alike σ) pending pending')
    (htake : takeReady names placed pending = some (next, others)) :
    ∃ next' others', takeReady (names.map σ) (placed.map σ) pending' = some (next', others') ∧
      next.Alike σ next' ∧
      List.Forall₂ (Binding.Alike σ) others others' := by
  induction h generalizing others with
  | nil => cases htake
  | @cons b b' rest rest' hb hrest ih =>
    rw [takeReady] at htake ⊢
    rw [hb.ready]
    split at htake
    · rename_i hready
      obtain ⟨rfl, rfl⟩ : b = next ∧ rest = others := by simpa using htake
      exact ⟨b', rest', if_pos hready, hb, hrest⟩
    · rename_i hready
      obtain ⟨⟨next₀, others₀⟩, htake₀, heq⟩ := Option.map_eq_some_iff.1 htake
      obtain ⟨rfl, rfl⟩ : next₀ = next ∧ b :: others₀ = others := by simpa using heq
      obtain ⟨next', others', htake', hnext, hothers⟩ := ih htake₀
      exact ⟨next', b' :: others', by rw [if_neg hready, htake']; rfl, hnext, .cons hb hothers⟩

lemma reorderFrom_of_alike {names placed : List Name} {pending pending' hyps : List Binding}
    (h : List.Forall₂ (Binding.Alike σ) pending pending')
    (hreorder : reorderFrom names placed pending = some hyps) :
    ∃ hyps', reorderFrom (names.map σ) (placed.map σ) pending' = some hyps' ∧
      List.Forall₂ (Binding.Alike σ) hyps hyps' := by
  induction placed, pending using reorderFrom.induct names generalizing pending' hyps with
  | case1 placed =>
    cases h
    obtain rfl : [] = hyps := by simpa [reorderFrom] using hreorder
    exact ⟨[], by rw [reorderFrom], .nil⟩
  | case2 placed b rest htake => cases (reorderFrom_of_stuck htake).symm.trans hreorder
  | case3 placed b rest next others htake _ ih =>
    obtain ⟨next', others', htake', hnext, hothers⟩ := takeReady_of_alike h htake
    rw [reorderFrom_of_takeReady htake] at hreorder
    obtain ⟨hyps₀, hrec, rfl⟩ := Option.map_eq_some_iff.1 hreorder
    obtain ⟨hyps', hrec', hhyps⟩ := ih hothers hrec
    refine ⟨next' :: hyps', ?_, .cons hnext hhyps⟩
    rw [List.map_cons, ← hnext.name] at hrec'
    rw [reorderFrom_of_takeReady htake', hrec', Option.map_some]

/-- **Reordering respects renaming.** -/
theorem reorder_of_alike {pending pending' hyps : List Binding}
    (h : List.Forall₂ (Binding.Alike σ) pending pending') (hreorder : reorder pending = some hyps) :
    ∃ hyps', reorder pending' = some hyps' ∧ List.Forall₂ (Binding.Alike σ) hyps hyps' := by
  rw [reorder, names_of_alike h]
  exact reorderFrom_of_alike h hreorder

/-- The order of hypotheses does not depend on their names. -/
lemma OrderedFrom.of_alike {placed : List Name} {hyps hyps' : List Binding}
    (h : OrderedFrom placed hyps) (halike : List.Forall₂ (Binding.Alike σ) hyps hyps') :
    OrderedFrom (placed.map σ) hyps' := by
  induction halike generalizing placed with
  | nil => trivial
  | @cons b b' rest rest' hb _ ih =>
    refine ⟨fun y hy => ?_, ?_⟩
    · obtain ⟨x, hx, rfl⟩ := hb.ty.exists_of_mem hy
      exact List.mem_map_of_mem (h.1 x hx)
    · rw [hb.name]
      exact ih h.2

/-! ### Goals -/

/-- Goals whose hypotheses and targets are alike. -/
structure Goal.Alike (σ : Equiv.Perm Name) (g g' : Goal) : Prop where
  hyps : List.Forall₂ (Binding.Alike σ) g.hyps g'.hyps
  target : g.target.Alike σ g'.target

namespace Goal.Alike

variable {g g' : Goal} (h : g.Alike σ g')
include h

lemma symm : g'.Alike σ.symm g :=
  ⟨(List.Forall₂.flip h.hyps).imp fun _ _ hb => hb.symm, h.target.symm⟩

lemma names : g'.names = g.names.map σ :=
  names_of_alike h.hyps

lemma mem_names {x : Name} : σ x ∈ g'.names ↔ x ∈ g.names := by
  rw [h.names]
  exact List.mem_map_of_injective σ.injective

lemma lookup? {x : Name} {ty : Term} (hx : g.lookup? x = some ty) :
    ∃ ty', g'.lookup? (σ x) = some ty' ∧ ty.Alike σ ty' := by
  obtain ⟨b, hb, rfl⟩ := Option.map_eq_some_iff.1 hx
  have hfind := forall₂_find? (fun b b' hb => hb.name_beq x) h.hyps
  rw [hb] at hfind
  generalize hb' : g'.hyps.find? _ = found at hfind
  obtain ⟨halike⟩ := hfind
  exact ⟨_, Option.map_eq_some_iff.2 ⟨_, hb', rfl⟩, halike.ty⟩

lemma isSome_lookup? (x : Name) : (g'.lookup? (σ x)).isSome = (g.lookup? x).isSome := by
  have hone : ∀ {σ : Equiv.Perm Name} {g g' : Goal} {x : Name}, g.Alike σ g' →
      (g.lookup? x).isSome = true → (g'.lookup? (σ x)).isSome = true := by
    intro σ g g' x h hx
    obtain ⟨ty, hty⟩ := Option.isSome_iff_exists.1 hx
    obtain ⟨ty', hty', -⟩ := h.lookup? hty
    rw [hty']
    rfl
  rw [Bool.eq_iff_iff]
  exact ⟨fun hx => by simpa using hone h.symm hx, hone h⟩

lemma position? (x : Name) : g'.position? (σ x) = g.position? x :=
  forall₂_findIdx? (fun _ _ hb => hb.name_beq x) h.hyps

lemma withTarget {t t' : Term} (ht : t.Alike σ t') : (g.withTarget t).Alike σ (g'.withTarget t') :=
  ⟨h.hyps, ht⟩

/-- Of a goal over its hypotheses only their names count. -/
lemma congr (hgoal : g.Scoped) (hστ : ∀ x ∈ g.names, σ x = τ x) : g.Alike τ g' := by
  refine ⟨?_, h.target.congr fun x hx => hστ x (hgoal.target hx)⟩
  refine (List.forall₂_iff_zip.1 h.hyps).elim fun hlen hzip =>
    List.forall₂_iff_zip.2 ⟨hlen, fun {b b'} hb => ?_⟩
  have hmem := (List.of_mem_zip hb).1
  exact ⟨(hzip hb).name.trans (hστ _ (List.mem_map_of_mem hmem)),
    (hzip hb).ty.congr fun x hx => hστ x (hgoal.arranged.mem_names hmem hx)⟩

lemma isScoped (hgoal : g.Scoped) : g'.Scoped := by
  refine ⟨⟨?_, hgoal.arranged.ordered.of_alike h.hyps⟩, fun y hy => ?_⟩
  · rw [names_of_alike h.hyps]
    exact hgoal.arranged.distinct.map σ.injective
  · obtain ⟨x, hx, rfl⟩ := h.target.exists_of_mem hy
    exact h.mem_names.2 (hgoal.target hx)

end Goal.Alike

end UniqueEvidence
