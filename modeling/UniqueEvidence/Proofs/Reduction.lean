/-
Reduction of nameless terms and its confluence.

* `Nameless.Par`: one parallel step, which contracts any of the redexes present: an applied
  function, and a transport along reflexivity;
* `Nameless.development`, `Nameless.Par.triangle`: the step that contracts all of them, and **every
  parallel step can be completed to it**;
* `Nameless.Reduces`, `Nameless.Conv`: reduction and conversion, **confluent** by
  `Nameless.Reduces.confluent`;
* `Nameless.head?`: the head of a term that no reduction changes; what is convertible agrees in it
  (`Nameless.Conv.head_eq`), and in its parts (`Nameless.Conv.pi_inj`, …).
-/
import Mathlib.Data.List.Forall2
import Mathlib.Data.List.Induction
import Mathlib.Logic.Relation
import UniqueEvidence.Proofs.Nameless

namespace UniqueEvidence

namespace Nameless

/-! ### Parallel steps -/

/-- One parallel step. -/
inductive Par : Nameless → Nameless → Prop where
  | ref (r : Ref) : Par (ref r) (ref r)
  | const (c : Name) : Par (const c) (const c)
  | sort : Par sort sort
  | unit : Par unit unit
  | tt : Par tt tt
  | app {f f' a a'} : Par f f' → Par a a' → Par (app f a) (app f' a')
  | lam {A A' b b'} : Par A A' → Par b b' → Par (lam A b) (lam A' b')
  | pi {A A' B B'} : Par A A' → Par B B' → Par (pi A B) (pi A' B')
  | prod {a a' b b'} : Par a a' → Par b b' → Par (prod a b) (prod a' b')
  | pair {a a' b b'} : Par a a' → Par b b' → Par (pair a b) (pair a' b')
  | eq {A A' l l' r r'} : Par A A' → Par l l' → Par r r' → Par (eq A l r) (eq A' l' r')
  | refl {A A' a a'} : Par A A' → Par a a' → Par (refl A a) (refl A' a')
  | transport {h h' s s' d d' p p' v v'} : Par h h' → Par s s' → Par d d' → Par p p' → Par v v' →
      Par (transport h s d p v) (transport h' s' d' p' v')
  | beta (A) {b b' a a'} : Par b b' → Par a a' → Par (app (lam A b) a) (b'.inst a')
  | cancel (h s d A a) {v v'} : Par v v' → Par (transport h s d (refl A a) v) v'

namespace Par

lemma rfl : ∀ {t : Nameless}, Par t t
  | .ref r => ref r
  | .const c => const c
  | .sort => sort
  | .unit => unit
  | .tt => tt
  | .app _ _ => app rfl rfl
  | .lam _ _ => lam rfl rfl
  | .pi _ _ => pi rfl rfl
  | .prod _ _ => prod rfl rfl
  | .pair _ _ => pair rfl rfl
  | .eq _ _ _ => eq rfl rfl rfl
  | .refl _ _ => refl rfl rfl
  | .transport _ _ _ _ _ => transport rfl rfl rfl rfl rfl

lemma rename {t t' : Nameless} (h : Par t t') (ρ : Ref → Ref) : Par (t.rename ρ) (t'.rename ρ) := by
  induction h generalizing ρ with
  | beta A _ _ ihb iha =>
    rw [rename_inst]
    exact beta _ (ihb _) (iha ρ)
  | cancel h s d A a _ ihv => exact cancel _ _ _ _ _ (ihv ρ)
  | _ => constructor <;> apply_assumption

lemma up {σ τ : Ref → Nameless} (h : ∀ r, Par (σ r) (τ r)) (r : Ref) :
    Par (Nameless.up σ r) (Nameless.up τ r) := by
  rcases r.eq_top_or_succ with rfl | ⟨r, rfl⟩
  · exact ref _
  · rw [up_succ, up_succ]
    exact (h r).rename Ref.succ

/-- Parallel steps in a term and in what is substituted make one step. -/
lemma subst {t t' : Nameless} (h : Par t t') {σ τ : Ref → Nameless} (hσ : ∀ r, Par (σ r) (τ r)) :
    Par (t.subst σ) (t'.subst τ) := by
  induction h generalizing σ τ with
  | ref r => exact hσ r
  | lam _ _ ihA ihb => exact lam (ihA hσ) (ihb (up hσ))
  | pi _ _ ihA ihB => exact pi (ihA hσ) (ihB (up hσ))
  | beta A _ _ ihb iha =>
    rw [subst_inst]
    exact beta _ (ihb (up hσ)) (iha hσ)
  | cancel h s d A a _ ihv => exact cancel _ _ _ _ _ (ihv hσ)
  | _ => constructor <;> apply_assumption <;> exact hσ

lemma inst {b b' a a' : Nameless} (hb : Par b b') (ha : Par a a') :
    Par (b.inst a) (b'.inst a') := by
  refine hb.subst fun r => ?_
  rcases r.eq_top_or_succ with rfl | ⟨r, rfl⟩
  · exact ha
  · simpa using ref r

/-- A step introduces no references. -/
lemma occurs {t t' : Nameless} (h : Par t t') {r : Ref} (hr : t'.Occurs r) : t.Occurs r := by
  induction h generalizing r with
  | beta A _ _ ihb iha =>
    obtain ⟨s, hs, hocc⟩ := occurs_subst.1 hr
    rcases s.eq_top_or_succ with rfl | ⟨s, rfl⟩
    · exact .inr (iha hocc)
    · obtain rfl : s = r := by simpa [Occurs] using hocc
      exact .inl (.inr (ihb hs))
  | cancel h s d A a _ ihv => exact .inr (.inr (.inr (.inr (ihv hr))))
  | _ => simp_all [Occurs] <;> grind

end Par

/-! ### Complete developments -/

/-- The result of contracting all redexes of a term at once. -/
def development : Nameless → Nameless
  | app (lam _ b) a => b.development.inst a.development
  | app f a => app f.development a.development
  | lam A b => lam A.development b.development
  | pi A B => pi A.development B.development
  | prod a b => prod a.development b.development
  | pair a b => pair a.development b.development
  | eq A l r => eq A.development l.development r.development
  | refl A a => refl A.development a.development
  | transport _ _ _ (refl _ _) v => v.development
  | transport h s d p v =>
    transport h.development s.development d.development p.development v.development
  | t => t

/-- **Every parallel step can be completed** to the one that contracts all redexes. -/
theorem Par.triangle {t t' : Nameless} (h : Par t t') : Par t' t.development := by
  induction h with
  | @app f f' a a' hf _ ihf iha =>
    cases f with
    | lam A b =>
      -- the redex is still there after the step, and is contracted now
      cases hf with
      | lam _ _ =>
        cases ihf with
        | lam _ ihb => exact beta _ ihb iha
    | _ => exact app ihf iha
  | @transport h h' s s' d d' p p' v v' _ _ _ hp _ ihh ihs ihd ihp ihv =>
    cases p with
    | refl A a =>
      cases hp with
      | refl _ _ => exact cancel _ _ _ _ _ ihv
    | _ => exact transport ihh ihs ihd ihp ihv
  | beta A _ _ ihb iha => exact ihb.inst iha
  | cancel h s d A a _ ihv => exact ihv
  | _ => constructor <;> assumption

/-! ### Reduction and conversion -/

/-- Any number of parallel steps. -/
abbrev Reduces : Nameless → Nameless → Prop :=
  Relation.ReflTransGen Par

/-- Reduction to a common term. -/
def Conv (t u : Nameless) : Prop :=
  Relation.Join Reduces t u

/-- A parallel step and a reduction from one term meet again. -/
lemma Reduces.strip {t u v : Nameless} (hu : Par t u) (hv : Reduces t v) :
    ∃ w, Reduces u w ∧ Par v w := by
  induction hv with
  | refl => exact ⟨u, .refl, hu⟩
  | tail _ hstep ih =>
    obtain ⟨w, huw, hvw⟩ := ih
    exact ⟨_, huw.tail hvw.triangle, hstep.triangle⟩

/-- **Reduction is confluent.** -/
theorem Reduces.confluent {t u v : Nameless} (hu : Reduces t u) (hv : Reduces t v) : Conv u v := by
  refine Relation.church_rosser (fun a b c hb hc => ?_) hu hv
  exact ⟨a.development, .single hb.triangle, .single hc.triangle⟩

lemma Reduces.occurs {t t' : Nameless} (h : Reduces t t') {r : Ref} (hr : t'.Occurs r) :
    t.Occurs r := by
  induction h with
  | refl => exact hr
  | tail _ hstep ih => exact ih (hstep.occurs hr)

/-- A function that keeps parallel steps keeps reductions. -/
lemma Reduces.map {g : Nameless → Nameless} (hg : ∀ {x y}, Par x y → Par (g x) (g y))
    {t u : Nameless} (h : Reduces t u) : Reduces (g t) (g u) :=
  Relation.ReflTransGen.lift g (fun _ _ => hg) _ _ h

lemma Reduces.map₂ {g : Nameless → Nameless → Nameless}
    (hg : ∀ {x y u v}, Par x y → Par u v → Par (g x u) (g y v)) {a a' b b' : Nameless}
    (ha : Reduces a a') (hb : Reduces b b') : Reduces (g a b) (g a' b') :=
  (ha.map fun h => hg h .rfl).trans (hb.map fun h => hg .rfl h)

lemma Reduces.map₃ {g : Nameless → Nameless → Nameless → Nameless}
    (hg : ∀ {x y u v w z}, Par x y → Par u v → Par w z → Par (g x u w) (g y v z))
    {a a' b b' c c' : Nameless} (ha : Reduces a a') (hb : Reduces b b') (hc : Reduces c c') :
    Reduces (g a b c) (g a' b' c') :=
  (ha.map fun h => hg h .rfl .rfl).trans (hb.map₂ (fun h h' => hg .rfl h h') hc)

lemma Reduces.transport {h h' s s' d d' p p' v v' : Nameless} (hh : Reduces h h')
    (hs : Reduces s s') (hd : Reduces d d') (hp : Reduces p p') (hv : Reduces v v') :
    Reduces (transport h s d p v) (transport h' s' d' p' v') :=
  (hh.map₃ (fun h s d => .transport h s d .rfl .rfl) hs hd).trans
    (hp.map₂ (fun p v => .transport .rfl .rfl .rfl p v) hv)

lemma Reduces.subst {t u : Nameless} (h : Reduces t u) (σ : Ref → Nameless) :
    Reduces (t.subst σ) (u.subst σ) :=
  h.map fun h => h.subst fun _ => .rfl

namespace Conv

lemma rfl {t : Nameless} : Conv t t :=
  ⟨t, .refl, .refl⟩

lemma of_reduces {t u : Nameless} (h : Reduces t u) : Conv t u :=
  ⟨u, h, .refl⟩

lemma of_par {t u : Nameless} (h : Par t u) : Conv t u :=
  of_reduces (.single h)

lemma symm {t u : Nameless} : Conv t u → Conv u t :=
  fun ⟨w, ht, hu⟩ => ⟨w, hu, ht⟩

lemma trans {t u v : Nameless} : Conv t u → Conv u v → Conv t v := by
  rintro ⟨x, htx, hux⟩ ⟨y, huy, hvy⟩
  obtain ⟨w, hxw, hyw⟩ := hux.confluent huy
  exact ⟨w, htx.trans hxw, hvy.trans hyw⟩

/-- A function that keeps parallel steps keeps conversion. -/
lemma map {g : Nameless → Nameless} (hg : ∀ {x y}, Par x y → Par (g x) (g y)) {t u : Nameless} :
    Conv t u → Conv (g t) (g u) :=
  fun ⟨w, ht, hu⟩ => ⟨g w, ht.map hg, hu.map hg⟩

lemma map₂ {g : Nameless → Nameless → Nameless}
    (hg : ∀ {x y u v}, Par x y → Par u v → Par (g x u) (g y v)) {a a' b b' : Nameless} :
    Conv a a' → Conv b b' → Conv (g a b) (g a' b') :=
  fun ⟨_, ha, ha'⟩ ⟨_, hb, hb'⟩ => ⟨_, ha.map₂ hg hb, ha'.map₂ hg hb'⟩

lemma app {f f' a a' : Nameless} (hf : Conv f f') (ha : Conv a a') : Conv (app f a) (app f' a') :=
  hf.map₂ .app ha

lemma lam {A A' b b' : Nameless} (hA : Conv A A') (hb : Conv b b') : Conv (lam A b) (lam A' b') :=
  hA.map₂ .lam hb

lemma pi {A A' B B' : Nameless} (hA : Conv A A') (hB : Conv B B') : Conv (pi A B) (pi A' B') :=
  hA.map₂ .pi hB

lemma prod {a a' b b' : Nameless} (ha : Conv a a') (hb : Conv b b') :
    Conv (prod a b) (prod a' b') :=
  ha.map₂ .prod hb

lemma pair {a a' b b' : Nameless} (ha : Conv a a') (hb : Conv b b') :
    Conv (pair a b) (pair a' b') :=
  ha.map₂ .pair hb

lemma refl {A A' a a' : Nameless} (hA : Conv A A') (ha : Conv a a') :
    Conv (refl A a) (refl A' a') :=
  hA.map₂ .refl ha

lemma eq {A A' l l' r r' : Nameless} :
    Conv A A' → Conv l l' → Conv r r' → Conv (eq A l r) (eq A' l' r') :=
  fun ⟨_, hA, hA'⟩ ⟨_, hl, hl'⟩ ⟨_, hr, hr'⟩ => ⟨_, hA.map₃ .eq hl hr, hA'.map₃ .eq hl' hr'⟩

lemma transport {h h' s s' d d' p p' v v' : Nameless} :
    Conv h h' → Conv s s' → Conv d d' → Conv p p' → Conv v v' →
      Conv (transport h s d p v) (transport h' s' d' p' v') :=
  fun ⟨_, hh, hh'⟩ ⟨_, hs, hs'⟩ ⟨_, hd, hd'⟩ ⟨_, hp, hp'⟩ ⟨_, hv, hv'⟩ =>
    ⟨_, hh.transport hs hd hp hv, hh'.transport hs' hd' hp' hv'⟩

lemma rename {t u : Nameless} (h : Conv t u) (ρ : Ref → Ref) : Conv (t.rename ρ) (u.rename ρ) :=
  h.map fun h => h.rename ρ

lemma subst {t u : Nameless} (h : Conv t u) (σ : Ref → Nameless) : Conv (t.subst σ) (u.subst σ) :=
  h.map fun h => h.subst fun _ => .rfl

/-- Convertible terms for the references of a term. -/
lemma subst_conv (t : Nameless) {σ τ : Ref → Nameless} (h : ∀ r, t.Occurs r → Conv (σ r) (τ r)) :
    Conv (t.subst σ) (t.subst τ) := by
  have hup : ∀ {b : Nameless} {σ τ : Ref → Nameless},
      (∀ r : Ref, b.Occurs r.succ → Conv (σ r) (τ r)) →
      ∀ r, b.Occurs r → Conv (Nameless.up σ r) (Nameless.up τ r) := by
    intro b σ τ h r hr
    rcases r.eq_top_or_succ with rfl | ⟨r, rfl⟩
    · exact rfl
    · rw [up_succ, up_succ]
      exact (h r hr).rename Ref.succ
  induction t generalizing σ τ with
  | ref r => exact h r (Eq.refl r)
  | const | sort | unit | tt => exact rfl
  | app a b iha ihb => exact app (iha fun r hr => h r (.inl hr)) (ihb fun r hr => h r (.inr hr))
  | prod a b iha ihb => exact prod (iha fun r hr => h r (.inl hr)) (ihb fun r hr => h r (.inr hr))
  | pair a b iha ihb => exact pair (iha fun r hr => h r (.inl hr)) (ihb fun r hr => h r (.inr hr))
  | refl a b iha ihb => exact refl (iha fun r hr => h r (.inl hr)) (ihb fun r hr => h r (.inr hr))
  | lam a b iha ihb =>
    exact lam (iha fun r hr => h r (.inl hr)) (ihb (hup fun r hr => h r (.inr hr)))
  | pi a b iha ihb => exact pi (iha fun r hr => h r (.inl hr)) (ihb (hup fun r hr => h r (.inr hr)))
  | eq A a b ihA iha ihb =>
    exact eq (ihA fun r hr => h r (.inl hr)) (iha fun r hr => h r (.inr (.inl hr)))
      (ihb fun r hr => h r (.inr (.inr hr)))
  | transport x s d p v ihx ihs ihd ihp ihv =>
    exact transport (ihx fun r hr => h r (.inl hr)) (ihs fun r hr => h r (.inr (.inl hr)))
      (ihd fun r hr => h r (.inr (.inr (.inl hr))))
        (ihp fun r hr => h r (.inr (.inr (.inr (.inl hr)))))
      (ihv fun r hr => h r (.inr (.inr (.inr (.inr hr)))))

lemma inst {b b' a a' : Nameless} (hb : Conv b b') (ha : Conv a a') :
    Conv (b.inst a) (b'.inst a') := by
  refine (hb.subst _).trans (subst_conv b' fun r _ => ?_)
  rcases r.eq_top_or_succ with rfl | ⟨r, rfl⟩
  · exact ha
  · simpa using rfl

/-- An applied function is convertible with its body. -/
lemma beta (A b a : Nameless) : Conv (.app (.lam A b) a) (b.inst a) :=
  of_par (.beta A .rfl .rfl)

/-- A transport along reflexivity is convertible with the transported value. -/
lemma cancel (h s d A a v : Nameless) : Conv (.transport h s d (.refl A a) v) v :=
  of_par (.cancel h s d A a .rfl)

end Conv

/-! ### Heads that no step changes -/

/-- The form of a term that stays when the term is reduced. -/
inductive Head where
  | lam
  | pi
  | sort
  | unit
  | tt
  | prod
  | pair
  | eq
  | refl
  /-- A constant with so many arguments. -/
  | const (name : Name) (arity : Nat)
  deriving DecidableEq

/-- The lasting form of a term, if it has one. -/
def head? : Nameless → Option Head
  | ref _ => none
  | const c => some (.const c 0)
  | app f _ =>
    match f.head? with
    | some (.const c n) => some (.const c (n + 1))
    | _ => none
  | lam _ _ => some .lam
  | pi _ _ => some .pi
  | sort => some .sort
  | unit => some .unit
  | tt => some .tt
  | prod _ _ => some .prod
  | pair _ _ => some .pair
  | eq _ _ _ => some .eq
  | refl _ _ => some .refl
  | transport _ _ _ _ _ => none

lemma head?_app {f a : Nameless} {x : Head} (h : (app f a).head? = some x) :
    ∃ c n, f.head? = some (.const c n) ∧ x = .const c (n + 1) := by
  rw [head?] at h
  split at h
  · rename_i c n hf
    exact ⟨c, n, hf, by simpa using h.symm⟩
  · cases h

lemma head?_apps_const (c : Name) (as : List Nameless) :
    ((const c).apps as).head? = some (.const c as.length) := by
  induction as using List.reverseRecOn with
  | nil => rfl
  | append_singleton as a ih => simp [head?, ih]

lemma Par.head? {t t' : Nameless} {x : Head} (h : Par t t') (ht : t.head? = some x) :
    t'.head? = some x := by
  induction h generalizing x with
  | app _ _ ihf _ =>
    obtain ⟨c, n, hf, rfl⟩ := head?_app ht
    simp [Nameless.head?, ihf hf]
  | beta A _ _ _ _ =>
    obtain ⟨c, n, hf, -⟩ := head?_app ht
    cases hf
  | ref | transport | cancel => cases ht
  | _ => exact ht

lemma Reduces.head? {t t' : Nameless} {x : Head} (h : Reduces t t') (ht : t.head? = some x) :
    t'.head? = some x := by
  induction h with
  | refl => exact ht
  | tail _ hstep ih => exact hstep.head? ih

/-- Convertible terms do not differ in their heads. -/
theorem Conv.head_eq {t u : Nameless} {x y : Head} (h : Conv t u) (ht : t.head? = some x)
    (hu : u.head? = some y) : x = y := by
  obtain ⟨w, htw, huw⟩ := h
  exact Option.some.inj ((htw.head? ht).symm.trans (huw.head? hu))

/-! ### Reduction below a lasting head -/

/-- A term form with two parts in which all steps are steps of the parts. -/
def Inert (mk : Nameless → Nameless → Nameless) : Prop :=
  ∀ {a b t}, Par (mk a b) t → ∃ a' b', t = mk a' b' ∧ Par a a' ∧ Par b b'

lemma inert_pi : Inert pi := by
  intro a b t h
  cases h with
  | pi ha hb => exact ⟨_, _, rfl, ha, hb⟩

lemma inert_prod : Inert prod := by
  intro a b t h
  cases h with
  | prod ha hb => exact ⟨_, _, rfl, ha, hb⟩

lemma inert_pair : Inert pair := by
  intro a b t h
  cases h with
  | pair ha hb => exact ⟨_, _, rfl, ha, hb⟩

lemma inert_refl : Inert refl := by
  intro a b t h
  cases h with
  | refl ha hb => exact ⟨_, _, rfl, ha, hb⟩

lemma Inert.reduces {mk : Nameless → Nameless → Nameless} (hmk : Inert mk) {a b t : Nameless}
    (h : Reduces (mk a b) t) : ∃ a' b', t = mk a' b' ∧ Reduces a a' ∧ Reduces b b' := by
  induction h with
  | refl => exact ⟨a, b, rfl, .refl, .refl⟩
  | tail _ hstep ih =>
    obtain ⟨a', b', rfl, ha, hb⟩ := ih
    obtain ⟨a'', b'', rfl, ha', hb'⟩ := hmk hstep
    exact ⟨a'', b'', rfl, ha.tail ha', hb.tail hb'⟩

lemma Inert.conv {mk : Nameless → Nameless → Nameless} (hmk : Inert mk)
    (hinj : ∀ {a b a' b'}, mk a b = mk a' b' → a = a' ∧ b = b') {a b a' b' : Nameless}
    (h : Conv (mk a b) (mk a' b')) : Conv a a' ∧ Conv b b' := by
  obtain ⟨w, hl, hr⟩ := h
  obtain ⟨x, y, rfl, hax, hby⟩ := hmk.reduces hl
  obtain ⟨x', y', heq, hax', hby'⟩ := hmk.reduces hr
  obtain ⟨rfl, rfl⟩ := hinj heq
  exact ⟨⟨x, hax, hax'⟩, ⟨y, hby, hby'⟩⟩

namespace Conv

lemma pi_inj {A A' B B' : Nameless} (h : Conv (.pi A B) (.pi A' B')) : Conv A A' ∧ Conv B B' :=
  inert_pi.conv (by simp) h

lemma prod_inj {A A' B B' : Nameless} (h : Conv (.prod A B) (.prod A' B')) :
    Conv A A' ∧ Conv B B' :=
  inert_prod.conv (by simp) h

lemma pair_inj {a a' b b' : Nameless} (h : Conv (.pair a b) (.pair a' b')) :
    Conv a a' ∧ Conv b b' :=
  inert_pair.conv (by simp) h

end Conv

lemma Reduces.eq_inv {A l r t : Nameless} (h : Reduces (eq A l r) t) :
    ∃ A' l' r', t = eq A' l' r' ∧ Reduces A A' ∧ Reduces l l' ∧ Reduces r r' := by
  induction h with
  | refl => exact ⟨A, l, r, rfl, .refl, .refl, .refl⟩
  | tail _ hstep ih =>
    obtain ⟨A', l', r', rfl, hA, hl, hr⟩ := ih
    cases hstep with
    | eq hA' hl' hr' => exact ⟨_, _, _, rfl, hA.tail hA', hl.tail hl', hr.tail hr'⟩

lemma Conv.eq_inj {A A' l l' r r' : Nameless} (h : Conv (.eq A l r) (.eq A' l' r')) :
    Conv A A' ∧ Conv l l' ∧ Conv r r' := by
  obtain ⟨w, hl, hr⟩ := h
  obtain ⟨_, _, _, rfl, hA, hl, hr⟩ := hl.eq_inv
  obtain ⟨_, _, _, heq, hA', hl', hr'⟩ := Reduces.eq_inv ‹_›
  cases heq
  exact ⟨⟨_, hA, hA'⟩, ⟨_, hl, hl'⟩, ⟨_, hr, hr'⟩⟩

/-- What a constant with arguments reduces to. -/
lemma Par.apps_const {c : Name} {as : List Nameless} {t : Nameless}
    (h : Par ((Nameless.const c).apps as) t) :
    ∃ as', t = (Nameless.const c).apps as' ∧ List.Forall₂ Par as as' := by
  induction as using List.reverseRecOn generalizing t with
  | nil =>
    cases h
    exact ⟨[], Eq.refl _, .nil⟩
  | append_singleton as a ih =>
    rw [apps_concat] at h
    generalize hf : (Nameless.const c).apps as = f at h
    cases h with
    | app hf' ha =>
      subst hf
      obtain ⟨as', rfl, has⟩ := ih hf'
      exact ⟨as' ++ [_], (apps_concat ..).symm, List.rel_append has (.cons ha .nil)⟩
    | beta A _ _ =>
      have hhead := head?_apps_const c as
      rw [hf] at hhead
      cases hhead

lemma Reduces.tail_forall₂ {as bs cs : List Nameless} (h : List.Forall₂ Reduces as bs)
    (h' : List.Forall₂ Par bs cs) : List.Forall₂ Reduces as cs := by
  induction h generalizing cs with
  | nil =>
    cases h'
    exact .nil
  | cons hab _ ih =>
    cases h' with
    | cons hbc hrest => exact .cons (hab.tail hbc) (ih hrest)

lemma Reduces.apps_const {c : Name} {as : List Nameless} {t : Nameless}
    (h : Reduces ((const c).apps as) t) :
    ∃ as', t = (const c).apps as' ∧ List.Forall₂ Reduces as as' := by
  induction h with
  | refl => exact ⟨as, rfl, List.forall₂_same.2 fun _ _ => .refl⟩
  | tail _ hstep ih =>
    obtain ⟨as', rfl, has⟩ := ih
    obtain ⟨as'', rfl, has'⟩ := hstep.apps_const
    exact ⟨as'', rfl, Reduces.tail_forall₂ has has'⟩

/-- The arguments of an application. -/
def args : Nameless → List Nameless
  | app f a => f.args ++ [a]
  | _ => []

@[simp] lemma args_apps_const (c : Name) (as : List Nameless) : ((const c).apps as).args = as := by
  induction as using List.reverseRecOn with
  | nil => rfl
  | append_singleton as a ih => simp [args, ih]

lemma Conv.of_forall₂_reduces {as bs ws : List Nameless} (ha : List.Forall₂ Reduces as ws)
    (hb : List.Forall₂ Reduces bs ws) : List.Forall₂ Conv as bs := by
  induction ha generalizing bs with
  | nil =>
    cases hb
    exact .nil
  | cons h _ ih =>
    cases hb with
    | cons h' hrest => exact .cons ⟨_, h, h'⟩ (ih hrest)

lemma Conv.apps_const_inj {c d : Name} {as bs : List Nameless}
    (h : Conv ((const c).apps as) ((const d).apps bs)) : c = d ∧ List.Forall₂ Conv as bs := by
  have hhead := h.head_eq (head?_apps_const c as) (head?_apps_const d bs)
  obtain ⟨w, hl, hr⟩ := h
  obtain ⟨as', rfl, has⟩ := hl.apps_const
  obtain ⟨bs', heq, hbs⟩ := hr.apps_const
  obtain rfl : as' = bs' := by simpa using congrArg args heq
  exact ⟨(Head.const.inj hhead).1, of_forall₂_reduces has hbs⟩

/-- What a tuple reduces to. -/
lemma Par.tuple {ts : List Nameless} {u : Nameless} (h : Par (Nameless.tuple ts) u) :
    ∃ us, u = Nameless.tuple us ∧ List.Forall₂ Par ts us := by
  induction ts generalizing u with
  | nil =>
    cases h
    exact ⟨[], Eq.refl _, .nil⟩
  | cons t ts ih =>
    cases h with
    | pair ht hts =>
      obtain ⟨us, rfl, hus⟩ := ih hts
      exact ⟨_ :: us, Eq.refl _, .cons ht hus⟩

lemma Reduces.tuple {ts : List Nameless} {u : Nameless} (h : Reduces (Nameless.tuple ts) u) :
    ∃ us, u = Nameless.tuple us ∧ List.Forall₂ Reduces ts us := by
  induction h with
  | refl => exact ⟨ts, rfl, List.forall₂_same.2 fun _ _ => .refl⟩
  | tail _ hstep ih =>
    obtain ⟨us, rfl, hus⟩ := ih
    obtain ⟨vs, rfl, hvs⟩ := hstep.tuple
    exact ⟨vs, rfl, tail_forall₂ hus hvs⟩

lemma Conv.tuple_inj {ts us : List Nameless} (h : Conv (tuple ts) (tuple us)) :
    List.Forall₂ Conv ts us := by
  induction ts generalizing us with
  | nil =>
    cases us with
    | nil => exact .nil
    | cons u us => cases h.head_eq (Eq.refl _) (Eq.refl _)
  | cons t ts ih =>
    cases us with
    | nil => cases h.head_eq (Eq.refl _) (Eq.refl _)
    | cons u us => exact .cons h.pair_inj.1 (ih h.pair_inj.2)

lemma Conv.apps {f g : Nameless} {as bs : List Nameless} (hf : Conv f g)
    (h : List.Forall₂ Conv as bs) : Conv (f.apps as) (g.apps bs) := by
  induction h generalizing f g with
  | nil => exact hf
  | cons hab _ ih => exact ih (hf.app hab)

lemma Conv.tupleType {ts us : List Nameless} (h : List.Forall₂ Conv ts us) :
    Conv (Nameless.tupleType ts) (Nameless.tupleType us) := by
  induction h with
  | nil => exact .rfl
  | cons htu _ ih => exact htu.prod ih

end Nameless

end UniqueEvidence
