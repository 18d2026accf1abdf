/-
Equations between first-order terms.

* `Equation.IsFirstOrder`: an equation between first-order terms of closed types, at their type.
  Splitting it, and replacing a variable in it, gives such equations again
  (`Kernel.Splits.isFirstOrder`, `Equation.IsFirstOrder.replace`);
* `Equation.IsFirstOrder.not_isOpen`: unless a side is a variable, **it holds, splits or contradicts
  itself**;
* `Equation.UnifiedBy`: an assignment gives both sides one value.  It does so for an equation
  exactly if it does so for those that the equation splits into (`Kernel.Splits.unifiedBy_iff`), and
  never for one between distinct constructors, or between a variable and a larger term that contains
  it (`Equation.IsCyclic`);
* `orderedFrom_replaced`: when a variable is replaced, the hypotheses that keep a free variable stay
  in order.
-/
import Mathlib.Algebra.Ring.Nat
import UniqueEvidence.Proofs.FirstOrderTyping
import UniqueEvidence.Proofs.GroundModel
import UniqueEvidence.Proofs.Simplification

namespace UniqueEvidence

open Nameless

/-! ### First-order equations -/

/-- An equation between first-order terms, at a type that has a normal form. -/
structure Equation.IsFirstOrder (env : Environment) (Γ : List Binding) (e : Equation) : Prop where
  lhs : e.lhs.IsFirstOrderAt env Γ e.ty
  rhs : e.rhs.IsFirstOrderAt env Γ e.ty
  normalises : e.ty.Normalises

/-- The assignment gives both sides one value. -/
def Equation.UnifiedBy (σ : Name → Term) (e : Equation) : Prop :=
  e.lhs.eval σ = e.rhs.eval σ

/-- One side is a variable that the other side contains, and is not. -/
def Equation.IsCyclic (e : Equation) : Prop :=
  ∃ y t, (e.lhs = .var y ∧ e.rhs = t ∨ e.rhs = .var y ∧ e.lhs = t) ∧ t ≠ .var y ∧ y ∈ t.freeVars

section

variable {k : Kernel} {env : Environment} {Γ : List Binding} {e e' : Equation} {parts : List Term}
  {σ : Name → Term}

lemma Term.exists_prod_of_conv {t a b : Term} (h : t.nameless.Conv (prod a b).nameless)
    (ht : t.nameless.IsNormal) : ∃ a' b', t = .prod a' b' := by
  obtain ⟨a', b', heq, -, -⟩ := inert_prod.reduces (h.symm.reduces_normal ht)
  cases t <;> simp_all [Term.nameless]

namespace Equation.IsFirstOrder

lemma isFlat (h : e.IsFirstOrder env Γ) : e.lhs.IsFlat ∧ e.rhs.IsFlat := by
  obtain ⟨_, hl, -⟩ := h.lhs
  obtain ⟨_, hr, -⟩ := h.rhs
  exact ⟨hl.isFlat, hr.isFlat⟩

/-- The normal form of a first-order equation has the same sides, and a closed type. -/
lemma of_normalize (henv : env.TakesClosed) (h : e.IsFirstOrder env Γ)
    (hn : k.normalize e.toTerm = .ok e'.toTerm) :
    e'.lhs = e.lhs ∧ e'.rhs = e.rhs ∧ e'.IsFirstOrder env Γ ∧ e'.ty.nameless.IsNormal ∧
      e'.ty.freeVars = [] := by
  obtain ⟨hl, hr, hty, hnormal⟩ := h.isFlat.1.of_normalize_eq h.isFlat.2 hn
  obtain ⟨A, hA, hlhs⟩ := h.lhs
  obtain ⟨B, hB, hrhs⟩ := h.rhs
  refine ⟨hl, hr,
    ⟨⟨A, hl ▸ hA, hlhs.trans hty.symm⟩, ⟨B, hr ▸ hB, hrhs.trans hty.symm⟩, ?_⟩, hnormal, ?_⟩
  · exact ⟨_, _, Term.normalize_of_isNormal hnormal le_rfl⟩
  · exact Term.freeVars_of_conv (hty.trans hlhs.symm) hnormal (hA.freeVars_eq_nil henv).2

/-- **An equation between terms that are not variables holds, splits or contradicts itself.** -/
lemma not_isOpen (h : e.IsFirstOrder env Γ) (hnormal : e.ty.nameless.IsNormal)
    (hl : ∀ x, e.lhs ≠ .var x) (hr : ∀ x, e.rhs ≠ .var x) : ¬ e.IsOpen env := by
  intro hopen
  obtain ⟨A, hA, hlhs⟩ := h.lhs
  obtain ⟨B, hB, hrhs⟩ := h.rhs
  have hlforms := hA.forms.resolve_left (not_exists.2 hl)
  have hrforms := hB.forms.resolve_left (not_exists.2 hr)
  -- the two types are convertible, so both sides are of one form
  have hhead : ∀ {a b : Head}, A.nameless.head? = some a → B.nameless.head? = some b → a = b :=
    (hlhs.trans hrhs.symm).head_eq
  have hctor : ∀ {t C : Term} {c : Name}, FirstOrderTerm env Γ t [] C → t.head = .const c →
      ∃ d : DataType, C.nameless.head? = some (.const d.name 0) := by
    intro t C c ht hc
    obtain ⟨d, -, -, -, -, -, rfl, -⟩ := ht.of_head hc
    exact ⟨d, rfl⟩
  rcases hlforms with ⟨hltt, rfl⟩ | ⟨l₁, l₂, A₁, A₂, hlpair, rfl, -, -⟩ | ⟨c, hc⟩
  · rcases hrforms with ⟨hrtt, rfl⟩ | ⟨r₁, r₂, B₁, B₂, hrpair, rfl, -, -⟩ | ⟨d, hd⟩
    · exact hopen.differs (by rw [hltt, hrtt]; exact .rfl)
    · cases hhead rfl rfl
    · obtain ⟨_, hhead'⟩ := hctor hB hd
      cases hhead rfl hhead'
  · rcases hrforms with ⟨hrtt, rfl⟩ | ⟨r₁, r₂, B₁, B₂, hrpair, rfl, -, -⟩ | ⟨d, hd⟩
    · cases hhead rfl rfl
    · obtain ⟨a, b, hprod⟩ := Term.exists_prod_of_conv hlhs.symm hnormal
      have hpairs : e = ⟨.prod a b, .pair l₁ l₂, .pair r₁ r₂⟩ := by rw [← hprod, ← hlpair, ← hrpair]
      exact hopen.whole _ (.pairs hpairs)
    · obtain ⟨_, hhead'⟩ := hctor hB hd
      cases hhead rfl hhead'
  · obtain ⟨_, hlhead⟩ := hctor hA hc
    rcases hrforms with ⟨hrtt, rfl⟩ | ⟨r₁, r₂, B₁, B₂, hrpair, rfl, -, -⟩ | ⟨d, hd⟩
    · cases hhead hlhead rfl
    · cases hhead hlhead rfl
    · obtain ⟨D, ctor, taken, hfound, -, htypes, -, hargs⟩ := hA.of_head hc
      obtain ⟨D', ctor', taken', hfound', -, htypes', -, hargs'⟩ := hB.of_head hd
      by_cases hcd : c = d
      · subst hcd
        obtain ⟨rfl, rfl⟩ : D = D' ∧ ctor = ctor' := by simpa [hfound] using hfound'
        rw [List.append_nil] at htypes htypes'
        refine hopen.whole _ (.ctor hc hd hfound ?_ ?_)
        · rw [DataCtor.arity, htypes, hargs.length_eq]
        · rw [DataCtor.arity, htypes', hargs'.length_eq]
      · exact hopen.agrees ⟨c, d, Kernel.constructorHead?_of_dataCtor? hc hfound,
          Kernel.constructorHead?_of_dataCtor? hd hfound', hcd, by simp [hfound]⟩

end Equation.IsFirstOrder

/-- The equations that a first-order equation splits into are first-order, at closed types. -/
lemma Kernel.Splits.isFirstOrder (henv : env.TakesClosed) (h : Splits env e parts)
    (he : e.IsFirstOrder env Γ) (hclosed : e.ty.freeVars = []) (hpart : e'.toTerm ∈ parts) :
    e'.IsFirstOrder env Γ ∧ e'.ty.freeVars = [] := by
  obtain ⟨A, hA, hlhs⟩ := he.lhs
  obtain ⟨B, hB, hrhs⟩ := he.rhs
  cases h with
  | @pairs a b l₁ l₂ r₁ r₂ heq =>
    subst heq
    cases hA with
    | pair hl₁ hl₂ =>
      cases hB with
      | pair hr₁ hr₂ =>
        obtain ⟨hla, hlb⟩ := hlhs.prod_inj
        obtain ⟨hra, hrb⟩ := hrhs.prod_inj
        obtain ⟨ha, hb⟩ := he.normalises.of_prod
        obtain ⟨haclosed, hbclosed⟩ : a.freeVars = [] ∧
          b.freeVars = [] := by simpa [Term.freeVars] using hclosed
        rcases List.mem_pair.1 hpart with hpart | hpart
        · obtain ⟨rfl, hl, hr⟩ := Term.eq.inj hpart
          exact ⟨⟨⟨_, hl ▸ hl₁, hla⟩, ⟨_, hr ▸ hr₁, hra⟩, ha⟩, haclosed⟩
        · obtain ⟨rfl, hl, hr⟩ := Term.eq.inj hpart
          exact ⟨⟨⟨_, hl ▸ hl₂, hlb⟩, ⟨_, hr ▸ hr₂, hrb⟩, hb⟩, hbclosed⟩
  | @ctor c d ctor hlhead hrhead hc hllen hrlen =>
    obtain ⟨d', ctor', taken, hc', hnormal, htypes, -, hargs⟩ := hA.of_head hlhead
    obtain ⟨rfl, rfl⟩ : d = d' ∧ ctor = ctor' := by simpa [hc] using hc'
    obtain ⟨d', ctor', taken', hc', -, htypes', -, hargs'⟩ := hB.of_head hrhead
    obtain ⟨rfl, rfl⟩ : d = d' ∧ ctor = ctor' := by simpa [hc] using hc'
    rw [List.append_nil] at htypes htypes'
    subst htypes
    subst htypes'
    rw [← List.map_uncurry_zip_eq_zipWith] at hpart
    obtain ⟨⟨ty, l, r⟩, hmem, heq⟩ := List.mem_map.1 hpart
    obtain ⟨rfl, rfl, rfl⟩ := Term.eq.inj heq
    obtain ⟨hml, hmr⟩ := mem_zip_zip hmem
    have hty := (List.of_mem_zip hml).1
    obtain ⟨hd, hctor, -⟩ := Environment.mem_of_dataCtor? hc
    exact ⟨⟨(List.forall₂_iff_zip.1 hargs).2 hml, (List.forall₂_iff_zip.1 hargs').2 hmr,
      hnormal _ hty⟩, henv d hd ctor hctor _ hty⟩

/-! ### What an assignment unifies -/

/-- **An equation is unified exactly where those that it splits into are.** -/
lemma Kernel.Splits.unifiedBy_iff (h : Splits env e parts) :
    e.UnifiedBy σ ↔ ∀ e' : Equation, e'.toTerm ∈ parts → e'.UnifiedBy σ := by
  refine ⟨fun heq e' he' => h.holdsAt heq e'.toTerm he', fun hparts => ?_⟩
  cases h with
  | @pairs a b l₁ l₂ r₁ r₂ heq =>
    subst heq
    exact congrArg₂ Term.pair (hparts ⟨a, l₁, r₁⟩ (by simp [Equation.toTerm]))
      (hparts ⟨b, l₂, r₂⟩ (by simp [Equation.toTerm]))
  | @ctor c d ctor hlhead hrhead hc hllen hrlen =>
    rw [Equation.UnifiedBy, Term.eval_of_head hlhead, Term.eval_of_head hrhead]
    congr 1
    rw [Kernel.map_eval_eq_iff]
    exact Equation.forall₂_of_zipWith hllen hrlen hparts

lemma Equation.Clashes.not_unifiedBy (h : e.Clashes env) : ¬ e.UnifiedBy σ := by
  obtain ⟨c, d, hl, hr, hne, -⟩ := h
  intro heq
  rw [Equation.UnifiedBy, Term.eval_of_head (Kernel.constructorHead?_eq_some hl).1,
    Term.eval_of_head (Kernel.constructorHead?_eq_some hr).1] at heq
  exact hne (Term.apps_const_inj heq).1

/-- The value of a term that contains a variable is as large as the value of the variable, and
larger unless it is the variable. -/
lemma Term.size_le_size_eval {t : Term} (ht : t.IsFlat) {y : Name} (hy : y ∈ t.freeVars) :
    (σ y).size ≤ (t.eval σ).size ∧ (t ≠ .var y → (σ y).size < (t.eval σ).size) := by
  induction t with
  | var x =>
    obtain rfl : y = x := by simpa [Term.freeVars] using hy
    exact ⟨le_rfl, fun hne => absurd rfl hne⟩
  | app a b iha ihb | prod a b iha ihb | pair a b iha ihb =>
    have hlt : (σ y).size < (a.eval σ).size + (b.eval σ).size + 1 := by
      rcases List.mem_append.1 hy with hy | hy
      · have := (iha ht.1 hy).1
        omega
      · have := (ihb ht.2 hy).1
        omega
    exact ⟨Nat.le_of_lt hlt, fun _ => hlt⟩
  | const | unit | tt => cases hy
  | _ => exact ht.elim

/-- **No assignment makes a variable equal to a larger term that contains it.** -/
lemma Equation.IsCyclic.not_unifiedBy (h : e.IsCyclic) (hflat : e.lhs.IsFlat ∧ e.rhs.IsFlat) :
    ¬ e.UnifiedBy σ := by
  obtain ⟨y, t, hsides, hne, hy⟩ := h
  intro heq
  have ht : t.IsFlat := by
    rcases hsides with ⟨-, rfl⟩ | ⟨-, rfl⟩
    · exact hflat.2
    · exact hflat.1
  have hvalue : σ y = t.eval σ := by
    rcases hsides with ⟨hl, rfl⟩ | ⟨hr, rfl⟩
    · rwa [Equation.UnifiedBy, hl] at heq
    · rw [Equation.UnifiedBy, hr] at heq
      exact heq.symm
  exact Nat.ne_of_lt ((Term.size_le_size_eval ht hy).2 hne) (congrArg Term.size hvalue)

/-! ### Sizes -/

lemma Term.size_apps (f : Term) (as : List Term) :
    (f.apps as).size = f.size + (as.map size).sum + as.length := by
  induction as generalizing f with
  | nil => simp
  | cons a as ih =>
    rw [apps_cons, ih, size, List.map_cons, List.sum_cons, List.length_cons]
    omega

/-- The size of both sides of an equation. -/
def Term.sidesSize : Term → Nat
  | .eq _ l r => l.size + r.size
  | _ => 0

/-- Equations that one splits into are smaller together. -/
lemma Kernel.Splits.sum_sidesSize_lt (h : Splits env e parts) :
    (parts.map Term.sidesSize).sum < e.lhs.size + e.rhs.size := by
  cases h with
  | @pairs a b l₁ l₂ r₁ r₂ heq =>
    subst heq
    simp only [List.map_cons, List.map_nil, List.sum_cons, List.sum_nil, Term.sidesSize, Term.size]
    omega
  | @ctor c d ctor hlhead hrhead hc hllen hrlen =>
    have hsize : ∀ {t : Term} {c : Name}, t.head = .const c →
        (t.args.map Term.size).sum < t.size := by
      intro t c ht
      conv_rhs => rw [← Term.apps_head_args t, ht, Term.size_apps, Term.size]
      omega
    have hsum : ∀ types ls rs : List Term,
        ((List.zipWith (fun ty (p : Term × Term) => Term.eq ty p.1 p.2) types (ls.zip rs)).map
        Term.sidesSize).sum ≤ (ls.map Term.size).sum + (rs.map Term.size).sum := by
      intro types ls rs
      induction types generalizing ls rs with
      | nil => simp
      | cons ty types ih =>
        cases ls with
        | nil => simp
        | cons l ls =>
          cases rs with
          | nil => simp
          | cons r rs =>
            have hrest := ih ls rs
            simp only [List.zip_cons_cons, List.zipWith_cons_cons, List.map_cons,
              List.sum_cons, Term.sidesSize]
            omega
    exact Nat.lt_of_le_of_lt (hsum ctor.argTypes e.lhs.args e.rhs.args)
      (Nat.add_lt_add (hsize hlhead) (hsize hrhead))

/-! ### Replacing a variable by a value -/

/-- First-order terms for the variables of closed types. -/
def Assigns (env : Environment) (Γ : List Binding) (σ : Name → Term) : Prop :=
  ∀ b ∈ Γ, b.ty.freeVars = [] → (σ b.name).IsFirstOrderAt env Γ b.ty

lemma assigns_var (env : Environment) (Γ : List Binding) : Assigns env Γ .var :=
  fun b hb hclosed => ⟨b.ty, .var hb hclosed, .rfl⟩

lemma Term.IsFirstOrderAt.eval {t ty : Term} (h : t.IsFirstOrderAt env Γ ty)
    (hσ : Assigns env Γ σ) : (t.eval σ).IsFirstOrderAt env Γ ty := by
  obtain ⟨A, hA, hconv⟩ := h
  obtain ⟨A', hA', hconv'⟩ := hA.eval fun b hb _ => hσ b hb
  exact ⟨A', hA', hconv'.trans hconv⟩

section

variable {y : Name} {v : Term}

/-- The value that an equation gives a variable has the type of the variable. -/
lemma Equation.IsFirstOrder.value (h : e.IsFirstOrder env Γ) (hΓ : (Binding.names Γ).Nodup)
    (hv : Kernel.solvedFor e y = some v) :
    v.IsFlat ∧ ∀ b ∈ Γ, b.name = y → v.IsFirstOrderAt env Γ b.ty := by
  have hside : ∀ {t : Term}, t.IsFirstOrderAt env Γ e.ty → t = .var y → ∀ b ∈ Γ, b.name = y →
      b.ty.nameless.Conv e.ty.nameless := by
    rintro t ⟨A, hA, hconv⟩ rfl b hb rfl
    cases hA with
    | var hy =>
      have hty : b.ty = A := congrArg Binding.ty (List.inj_on_of_nodup_map hΓ hb hy rfl)
      rwa [hty]
  have hvalue : ∀ {t u : Term}, t.IsFirstOrderAt env Γ e.ty →
      u.IsFirstOrderAt env Γ e.ty → u = .var y →
      t.IsFlat ∧ ∀ b ∈ Γ, b.name = y → t.IsFirstOrderAt env Γ b.ty := by
    rintro t u ⟨A, hA, hconv⟩ hu huy
    exact ⟨hA.isFlat, fun b hb hname => ⟨A, hA, hconv.trans (hside hu huy b hb hname).symm⟩⟩
  obtain ⟨hr, rfl⟩ | ⟨hl, rfl⟩ := Kernel.solvedFor_eq_some hv
  · exact hvalue h.lhs h.rhs hr
  · exact hvalue h.rhs h.lhs hl

lemma Assigns.update (hσ : Assigns env Γ σ)
    (hv : ∀ b ∈ Γ, b.name = y → v.IsFirstOrderAt env Γ b.ty) :
    Assigns env Γ (Function.update σ y (v.eval σ)) := by
  intro b hb hclosed
  by_cases hby : b.name = y
  · rw [hby, Function.update_self]
    exact (hv b hb hby).eval hσ
  · rw [Function.update_of_ne hby]
    exact hσ b hb hclosed

lemma Equation.IsFirstOrder.replace (h : e.IsFirstOrder env Γ) (hclosed : e.ty.freeVars = [])
    (hv : ∀ b ∈ Γ, b.name = y → v.IsFirstOrderAt env Γ b.ty) :
    (e.replace y v).IsFirstOrder env Γ := by
  have hσ : Assigns env Γ (Function.update .var y v) := by
    have hupdate := (assigns_var env Γ).update hv
    rwa [Term.eval_var_eq] at hupdate
  have hty : e.ty.subst y v = e.ty := Term.subst_of_not_mem (by simp [hclosed])
  rw [Equation.replace, hty]
  refine ⟨?_, ?_, h.normalises⟩
  · change (e.lhs.subst y v).IsFirstOrderAt env Γ e.ty
    rw [Term.subst_eq_eval h.isFlat.1]
    exact h.lhs.eval hσ
  · change (e.rhs.subst y v).IsFirstOrderAt env Γ e.ty
    rw [Term.subst_eq_eval h.isFlat.2]
    exact h.rhs.eval hσ

/-- What is unified after a variable has been replaced is unified before, once it is also assigned
the value. -/
lemma Equation.unifiedBy_replace (hflat : e.lhs.IsFlat ∧ e.rhs.IsFlat) :
    (e.replace y v).UnifiedBy σ ↔ e.UnifiedBy (Function.update σ y (v.eval σ)) := by
  simp only [Equation.UnifiedBy, Equation.replace, Term.eval_subst hflat.1, Term.eval_subst hflat.2]

/-- An equation for a variable is unified by exactly the assignments that give it the value. -/
lemma Equation.unifiedBy_iff_of_solvedFor (hv : Kernel.solvedFor e y = some v) :
    e.UnifiedBy σ ↔ σ y = v.eval σ := by
  obtain ⟨hr, rfl⟩ | ⟨hl, rfl⟩ := Kernel.solvedFor_eq_some hv
  · rw [Equation.UnifiedBy, hr]
    exact eq_comm
  · rw [Equation.UnifiedBy, hl]
    exact .rfl

/-- The hypotheses that keep a free variable are in order after the closed ones, if what the value
mentions is closed. -/
lemma orderedFrom_replaced {placed placed' : List Name} {hyps : List Binding} {x : Name}
    (h : OrderedFrom placed hyps) (hunused : ∀ b ∈ hyps, x ∉ b.ty.freeVars)
    (hplaced : ∀ z ∈ placed, z ≠ y → z ≠ x → z ∈ placed') (hv : ∀ z ∈ v.freeVars, z ∈ placed')
    (hclosed : ∀ b ∈ replaced hyps x y v, b.ty.freeVars = [] → b.name ∈ placed') :
    OrderedFrom placed' ((replaced hyps x y v).filter fun b => !b.ty.freeVars.isEmpty) := by
  induction hyps generalizing placed placed' with
  | nil => trivial
  | cons b hyps ih =>
    have hunused' : ∀ b ∈ hyps, x ∉ b.ty.freeVars :=
      fun b' hb' => hunused b' (List.mem_cons_of_mem _ hb')
    by_cases hb : b.name ≠ y ∧ b.name ≠ x
    · have hcons : replaced (b :: hyps) x y v =
          { b with ty := b.ty.subst y v } :: replaced hyps x y v := by simp [replaced, hb]
      rw [hcons] at hclosed ⊢
      have hclosed' := (List.forall_mem_cons.1 hclosed).2
      by_cases hopen : (b.ty.subst y v).freeVars = []
      · rw [List.filter_cons_of_neg (by simp [hopen])]
        refine ih h.2 hunused' (fun z hz hzy hzx => ?_) hv hclosed'
        rcases List.mem_cons.1 hz with rfl | hz
        · exact (List.forall_mem_cons.1 hclosed).1 hopen
        · exact hplaced z hz hzy hzx
      · rw [List.filter_cons_of_pos (by simpa using hopen)]
        refine ⟨fun z hz => ?_,
          ih h.2 hunused' (fun z hz hzy hzx => ?_) (fun z hz => List.mem_cons_of_mem _ (hv z hz))
          fun b' hb' hb'' => List.mem_cons_of_mem _ (hclosed' b' hb' hb'')⟩
        · rcases mem_freeVars_subst hz with ⟨hz, hzy⟩ | hz
          · exact hplaced z (h.1 z hz) hzy fun hzx => hunused b List.mem_cons_self (hzx ▸ hz)
          · exact hv z hz
        · rcases List.mem_cons.1 hz with rfl | hz
          · exact List.mem_cons_self
          · exact List.mem_cons_of_mem _ (hplaced z hz hzy hzx)
    · have hcons : replaced (b :: hyps) x y v = replaced hyps x y v := by
        rw [replaced, List.filter_cons_of_neg (by simpa using hb)]
        rfl
      rw [hcons] at hclosed ⊢
      refine ih h.2 hunused' (fun z hz hzy hzx => ?_) hv hclosed
      rcases List.mem_cons.1 hz with rfl | hz
      · exact absurd ⟨hzy, hzx⟩ hb
      · exact hplaced z hz hzy hzx

end

end

end UniqueEvidence
