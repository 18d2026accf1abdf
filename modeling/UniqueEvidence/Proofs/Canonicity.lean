/-
Closed terms compute.

A type denotes a set of terms, which is read off from its form: an equation denotes the proofs of a
true one.  A constructor may take types, and functions on types.  A product over such a domain has
no terms but those that a constant begins, since the domain of an abstraction does not mention the
universe; so it denotes these, and nothing is asked of their results.

* `Denotes T P`: the type `T` denotes the set `P`.  `Denotes.unique`: a type denotes one set, up to
  conversion;
* `IsFamily.denotes`: every term that is a type by its form denotes a set, under every substitution;
* `Telescopic.denotes`: a telescope denotes a set with all applications of constants;
* `HasType.denoted`: **a typed term is in the set that its type denotes**;
* `Inhabits.of_eq`, `Inhabits.of_unit`, `Inhabits.of_prod`, `Inhabits.of_base`: **canonical forms**
  of terms without free variables.  A closed proof of an equation is reflexivity, and makes its
  sides convertible.
-/
import UniqueEvidence.Proofs.Kinding

namespace UniqueEvidence

open Nameless

/-! ### What a type denotes -/

/-- The type denotes the set of terms. -/
inductive Denotes : Nameless → (Nameless → Prop) → Prop where
  | base {T c as} : Conv T ((const c).apps as) → Denotes T fun t =>
    ∃ d us, Conv t ((const d).apps us)
  | unit {T} : Conv T unit → Denotes T fun t => Conv t tt
  | sort {T} : Conv T sort → Denotes T fun _ => True
  | eq {T A l r} : Conv T (eq A l r) → Denotes T fun t => Conv l r ∧ Conv t (refl tt l)
  | prod {T A B P Q} : Conv T (prod A B) → Denotes A P → Denotes B Q →
      Denotes T fun t => ∃ a b, Conv t (pair a b) ∧ P a ∧ Q b
  | pi {T A B P} {Q : Nameless → Nameless → Prop} : Conv T (pi A B) → A.Formed → Denotes A P →
      (∀ a, a.SortFree → P a → Denotes (B.inst a) (Q a)) → Denotes T fun t =>
        ∀ a, a.SortFree → P a → Q a (app t a)
  /-- The domain is about types, so only constants begin functions on it. -/
  | large {T A B} : Conv T (pi A B) → ¬ A.Formed → B.Telescopic → Denotes T fun t =>
    ∃ d us, Conv t ((const d).apps us)

namespace Denotes

variable {T : Nameless} {P : Nameless → Prop}

lemma conv (h : Denotes T P) {T' : Nameless} (hc : Conv T' T) : Denotes T' P := by
  cases h with
  | base hT => exact base (hc.trans hT)
  | unit hT => exact unit (hc.trans hT)
  | sort hT => exact sort (hc.trans hT)
  | eq hT => exact eq (hc.trans hT)
  | prod hT hA hB => exact prod (hc.trans hT) hA hB
  | pi hT hA hP hB => exact pi (hc.trans hT) hA hP hB
  | large hT hA hB => exact large (hc.trans hT) hA hB

/-- The set is closed under conversion. -/
lemma mem_of_conv (h : Denotes T P) {t t' : Nameless} (hc : Conv t' t) (ht : P t) : P t' := by
  induction h generalizing t t' with
  | base _ | large _ _ _ =>
    obtain ⟨d, us, hus⟩ := ht
    exact ⟨d, us, hc.trans hus⟩
  | unit _ => exact hc.trans ht
  | sort _ => trivial
  | eq _ => exact ⟨ht.1, hc.trans ht.2⟩
  | prod _ _ _ =>
    obtain ⟨a, b, hab, ha, hb⟩ := ht
    exact ⟨a, b, hc.trans hab, ha, hb⟩
  | pi _ _ _ _ _ ih => exact fun a hfree ha => ih a hfree ha (.app hc .rfl) (ht a hfree ha)

/-! ### The set by the form of the type -/

lemma of_base (h : Denotes T P) {c : Name} {as : List Nameless} (hc : Conv T ((const c).apps as))
    (t : Nameless) : P t ↔ ∃ d us, Conv t ((const d).apps us) := by
  cases h with
  | base _ => rfl
  | unit hT | sort hT | eq hT | prod hT | pi hT | large hT =>
    cases (hc.symm.trans hT).head_eq (head?_apps_const c as) rfl

lemma of_unit (h : Denotes T P) (hc : Conv T .unit) (t : Nameless) : P t ↔ Conv t tt := by
  cases h with
  | base hT => cases (hc.symm.trans hT).head_eq rfl (head?_apps_const ..)
  | unit _ => rfl
  | sort hT | eq hT | prod hT | pi hT | large hT => cases (hc.symm.trans hT).head_eq rfl rfl

lemma of_sort (h : Denotes T P) (hc : Conv T .sort) (t : Nameless) : P t := by
  cases h with
  | base hT => cases (hc.symm.trans hT).head_eq rfl (head?_apps_const ..)
  | sort _ => trivial
  | unit hT | eq hT | prod hT | pi hT | large hT => cases (hc.symm.trans hT).head_eq rfl rfl

lemma of_eq (h : Denotes T P) {A l r : Nameless} (hc : Conv T (.eq A l r)) (t : Nameless) :
    P t ↔ Conv l r ∧ Conv t (refl tt l) := by
  cases h with
  | base hT => cases (hc.symm.trans hT).head_eq rfl (head?_apps_const ..)
  | eq hT =>
    obtain ⟨-, hl, hr⟩ := (hc.symm.trans hT).eq_inj
    constructor
    · rintro ⟨hlr, ht⟩
      exact ⟨hl.trans (hlr.trans hr.symm), ht.trans (.refl .rfl hl.symm)⟩
    · rintro ⟨hlr, ht⟩
      exact ⟨hl.symm.trans (hlr.trans hr), ht.trans (.refl .rfl hl)⟩
  | unit hT | sort hT | prod hT | pi hT | large hT => cases (hc.symm.trans hT).head_eq rfl rfl

lemma of_prod (h : Denotes T P) {A B : Nameless} (hc : Conv T (.prod A B)) :
    ∃ PA PB, Denotes A PA ∧ Denotes B PB ∧ ∀ t, P t ↔ ∃ a b, Conv t (pair a b) ∧ PA a ∧ PB b := by
  cases h with
  | base hT => cases (hc.symm.trans hT).head_eq rfl (head?_apps_const ..)
  | prod hT hA hB =>
    obtain ⟨hAA, hBB⟩ := (hc.symm.trans hT).prod_inj
    exact ⟨_, _, hA.conv hAA, hB.conv hBB, fun t => .rfl⟩
  | unit hT | sort hT | eq hT | pi hT | large hT => cases (hc.symm.trans hT).head_eq rfl rfl

lemma of_pi (h : Denotes T P) {A B : Nameless} (hc : Conv T (.pi A B)) (hformed : A.Formed) :
    ∃ PA, ∃ Q : Nameless → Nameless → Prop, Denotes A PA ∧
      (∀ a, a.SortFree → PA a → Denotes (B.inst a) (Q a)) ∧ ∀ t, P t ↔ ∀ a, a.SortFree →
        PA a → Q a (app t a) := by
  cases h with
  | base hT => cases (hc.symm.trans hT).head_eq rfl (head?_apps_const ..)
  | pi hT _ hA hB =>
    obtain ⟨hAA, hBB⟩ := (hc.symm.trans hT).pi_inj
    exact ⟨_, _, hA.conv hAA, fun a hfree ha => (hB a hfree ha).conv (hBB.inst .rfl), fun t => .rfl⟩
  | large hT hA _ => exact absurd (hformed.conv (hc.symm.trans hT).pi_inj.1.symm) hA
  | unit hT | sort hT | eq hT | prod hT => cases (hc.symm.trans hT).head_eq rfl rfl

lemma of_large (h : Denotes T P) {A B : Nameless} (hc : Conv T (.pi A B)) (hlarge : ¬ A.Formed) :
    ∃ B', B'.Telescopic ∧ Conv B B' ∧ ∀ t, P t ↔ ∃ d us, Conv t ((const d).apps us) := by
  cases h with
  | base hT => cases (hc.symm.trans hT).head_eq rfl (head?_apps_const ..)
  | pi hT hA _ _ => exact absurd (hA.conv (hc.symm.trans hT).pi_inj.1) hlarge
  | large hT _ hB => exact ⟨_, hB, (hc.symm.trans hT).pi_inj.2, fun t => .rfl⟩
  | unit hT | sort hT | eq hT | prod hT => cases (hc.symm.trans hT).head_eq rfl rfl

/-- **A type denotes one set**, up to conversion. -/
theorem unique (h : Denotes T P) {T' : Nameless} {P' : Nameless → Prop} (h' : Denotes T' P')
    (hc : Conv T' T) (t : Nameless) : P t ↔ P' t := by
  induction h generalizing T' P' t with
  | base hT => exact (h'.of_base (hc.trans hT) t).symm
  | unit hT => exact (h'.of_unit (hc.trans hT) t).symm
  | sort hT => exact iff_of_true trivial (h'.of_sort (hc.trans hT) t)
  | eq hT => exact (h'.of_eq (hc.trans hT) t).symm
  | prod hT _ _ ihA ihB =>
    obtain ⟨PA, PB, hA, hB, hP⟩ := h'.of_prod (hc.trans hT)
    rw [hP]
    exact exists_congr fun a => exists_congr fun b =>
      and_congr_right' (and_congr (ihA hA .rfl a) (ihB hB .rfl b))
  | large hT hA _ =>
    obtain ⟨-, -, -, hP⟩ := h'.of_large (hc.trans hT) hA
    exact (hP t).symm
  | pi hT hformed _ _ ihA ihB =>
    obtain ⟨PA, Q, hA, hB, hP⟩ := h'.of_pi (hc.trans hT) hformed
    rw [hP]
    refine forall₂_congr fun a hfree => ?_
    constructor
    · intro hQ ha
      have ha' := (ihA hA .rfl a).2 ha
      exact (ihB a hfree ha' (hB a hfree ha) .rfl _).1 (hQ ha')
    · intro hQ ha
      have ha' := (ihA hA .rfl a).1 ha
      exact (ihB a hfree ha (hB a hfree ha') .rfl _).2 (hQ ha')

end Denotes

/-! ### Types by their form denote sets -/

/-- **A term that is a type by its form denotes a set**, whatever is put in for its variables. -/
theorem Nameless.IsFamily.denotes {n : Nat} {t : Nameless} (h : IsFamily n t) (σ : Ref → Nameless)
    (as : List Nameless) (hlen : as.length = n) : ∃ P, Denotes ((t.subst σ).apps as) P := by
  induction t generalizing n σ as with
  | const c => exact ⟨_, .base .rfl⟩
  | app f a ihf _ => exact ihf h σ (a.subst σ :: as) (by simp [hlen])
  | lam A b _ ihb =>
    cases n with
    | zero => exact h.elim
    | succ n =>
      cases as with
      | nil => cases hlen
      | cons a as =>
        -- the body takes the first argument for its variable
        obtain ⟨P, hP⟩ := ihb h (Ref.extend a σ) as (by simpa using hlen)
        have hbody :
            Conv (((lam A b).subst σ).apps (a :: as)) ((b.subst (Ref.extend a σ)).apps as) := by
          rw [apps_cons, ← inst_up]
          exact Conv.apps (.beta ..) (List.forall₂_same.2 fun _ _ => .rfl)
        exact ⟨P, hP.conv hbody⟩
  | unit =>
    cases n with
    | zero =>
      obtain rfl := List.length_eq_zero_iff.1 hlen
      exact ⟨_, .unit .rfl⟩
    | succ n => exact h.elim
  | eq A l r =>
    cases n with
    | zero =>
      obtain rfl := List.length_eq_zero_iff.1 hlen
      exact ⟨_, .eq .rfl⟩
    | succ n => exact h.elim
  | prod A B ihA ihB =>
    cases n with
    | zero =>
      obtain rfl := List.length_eq_zero_iff.1 hlen
      obtain ⟨P, hP⟩ := ihA h.1 σ [] rfl
      obtain ⟨Q, hQ⟩ := ihB h.2 σ [] rfl
      exact ⟨_, .prod .rfl hP hQ⟩
    | succ n => exact h.elim
  | pi A B ihA ihB =>
    cases n with
    | zero =>
      obtain rfl := List.length_eq_zero_iff.1 hlen
      obtain ⟨P, hP⟩ := ihA h.1 σ [] rfl
      have hB : ∀ a, ∃ Q, Denotes ((B.subst (up σ)).inst a) Q := by
        intro a
        rw [inst_up]
        exact ihB h.2 (Ref.extend a σ) [] rfl
      choose Q hQ using hB
      exact ⟨_, .pi .rfl ⟨_, h.1.subst σ, .rfl⟩ hP fun a _ _ => hQ a⟩
    | succ n => exact h.elim
  | ref r | sort | tt | pair a b | refl A a | transport h s d p v => cases n <;> exact h.elim

lemma Nameless.Formed.denotes {A : Nameless} (h : A.Formed) : ∃ P, Denotes A P := by
  obtain ⟨F, hF, hAF⟩ := h
  obtain ⟨P, hP⟩ := hF.denotes ref [] rfl
  rw [subst_ref] at hP
  exact ⟨P, hP.conv hAF⟩

/-- **A telescope denotes a set that has all applications of constants**, whatever is put in for its
variables. -/
theorem Nameless.Telescopic.denotes {T : Nameless} (h : T.Telescopic) (σ : Ref → Nameless) :
    ∃ P, Denotes (T.subst σ) P ∧ ∀ d us, P ((const d).apps us) := by
  induction h generalizing σ with
  | sort => exact ⟨_, .sort .rfl, fun _ _ => trivial⟩
  | base c as =>
    rw [subst_apps]
    exact ⟨_, .base .rfl, fun d us => ⟨d, us, .rfl⟩⟩
  | @pi A B hB ih =>
    by_cases hA : (A.subst σ).Formed
    · obtain ⟨P, hP⟩ := hA.denotes
      choose Q hQ hmem using fun a => ih (Ref.extend a σ)
      have hresults : ∀ a, Denotes ((B.subst (up σ)).inst a) (Q a) := by
        intro a
        rw [inst_up]
        exact hQ a
      refine ⟨_, .pi .rfl hA hP fun a _ _ => hresults a, fun d us a _ _ => ?_⟩
      rw [← apps_concat]
      exact hmem a d (us ++ [a])
    · exact ⟨_, .large .rfl hA (hB.subst (up σ)), fun d us => ⟨d, us, .rfl⟩⟩

/-! ### Typed terms are in the sets of their types -/

/-- A substitution by terms without the universe, each in the set of its type. -/
structure Realizes (Γ : Scope) (γ : Ref → Nameless) : Prop where
  sortFree : ∀ r, (γ r).SortFree
  denoted : ∀ r A, Γ r = some A → ∃ P, Denotes (A.subst γ) P ∧ P (γ r)

lemma Realizes.extend {Γ : Scope} {γ : Ref → Nameless} (h : Realizes Γ γ) {A a : Nameless}
    {P : Nameless → Prop} (hP : Denotes (A.subst γ) P) (hfree : a.SortFree) (ha : P a) :
    Realizes (Γ.push A) (Ref.extend a γ) := by
  refine ⟨sortFree_extend hfree h.sortFree, fun r B hB => ?_⟩
  have hshift : ∀ C : Nameless, C.shift.subst (Ref.extend a γ) = C.subst γ := by
    intro C
    rw [shift, subst_rename]
    simp
  rcases r.eq_top_or_succ with rfl | ⟨r, rfl⟩
  · obtain rfl : A.shift = B := by simpa [Scope.push] using hB
    exact ⟨P, (hshift A).symm ▸ hP, ha⟩
  · simp only [Scope.push, Ref.extend_succ, Option.map_eq_some_iff] at hB
    obtain ⟨B', hB', rfl⟩ := hB
    obtain ⟨Q, hQ, hmem⟩ := h.denoted r B' hB'
    exact ⟨Q, (hshift B').symm ▸ hQ, by simpa using hmem⟩

namespace HasType

variable {S : Signature} {Γ : Scope} {t T : Nameless} {γ : Ref → Nameless}

/-- **A typed term is in the set that its type denotes**, if it does not mention the universe. -/
theorem denoted (h : HasType .erased S Γ t T) (hS : S.Telescopic) (hΓ : Γ.SortFree)
    (ht : t.SortFree) (hγ : Realizes Γ γ) : ∃ P, Denotes (T.subst γ) P ∧ P (t.subst γ) := by
  induction h generalizing γ with
  | ref hr hc =>
    obtain ⟨P, hP, hmem⟩ := hγ.denoted _ _ hr
    exact ⟨P, hP.conv (hc.symm.subst γ), hmem⟩
  | @const Γ c U T hU hc =>
    obtain ⟨P, hP, hmem⟩ := (hS _ _ hU).denotes γ
    exact ⟨P, hP.conv (hc.symm.subst γ), hmem c []⟩
  | sort hm => cases hm
  | unit hc | prod _ _ hc | pi _ _ hc | eq _ _ _ hc => exact ⟨_, .sort (hc.symm.subst γ), trivial⟩
  | tt hc => exact ⟨_, .unit (hc.symm.subst γ), .rfl⟩
  | pair _ _ hc iha ihb =>
    obtain ⟨P, hP, ha⟩ := iha hΓ ht.1 hγ
    obtain ⟨Q, hQ, hb⟩ := ihb hΓ ht.2 hγ
    exact ⟨_, .prod (hc.symm.subst γ) hP hQ, _, _, .rfl, ha, hb⟩
  | @app Γ f a A B T _ _ hc ihf iha =>
    obtain ⟨P, hP, hmem⟩ := ihf hΓ ht.1 hγ
    have hfree : (a.subst γ).SortFree := ht.2.subst fun r _ => hγ.sortFree r
    have hresult : Conv (T.subst γ) ((B.subst (up γ)).inst (a.subst γ)) := by
      rw [← subst_inst]
      exact hc.symm.subst γ
    by_cases hA : (A.subst γ).Formed
    · obtain ⟨PA', hPA', ha⟩ := iha hΓ ht.2 hγ
      obtain ⟨PA, Q, hPA, hQ, hpi⟩ := hP.of_pi .rfl hA
      have ha' : PA (a.subst γ) := (hPA.unique hPA' .rfl _).2 ha
      exact ⟨Q (a.subst γ), (hQ _ hfree ha').conv hresult, (hpi _).1 hmem _ hfree ha'⟩
    · -- the function is begun by a constant, and so is the application
      obtain ⟨B', hB', hBB, hlarge⟩ := hP.of_large .rfl hA
      obtain ⟨d, us, hus⟩ := (hlarge _).1 hmem
      obtain ⟨Q, hQ, hconstants⟩ := hB'.denotes (Ref.extend (a.subst γ) Nameless.ref)
      refine ⟨Q, hQ.conv (hresult.trans (hBB.inst .rfl)),
        hQ.mem_of_conv ?_ (hconstants d (us ++ [a.subst γ]))⟩
      rw [apps_concat]
      exact .app hus .rfl
  | @lam Γ A b B T hA _ hc _ ihb =>
    have hfamily := hA.isFamily hS hΓ ht.1 kind_sort
    obtain ⟨P, hP⟩ := hfamily.denotes γ [] rfl
    have hbody : ∀ a, ∃ Q, a.SortFree → P a → Denotes ((B.subst (up γ)).inst a) Q ∧
        Q (b.subst (Ref.extend a γ)) := by
      intro a
      by_cases ha : a.SortFree ∧ P a
      · obtain ⟨Q, hQ, hmem⟩ := ihb (hΓ.push ht.1) ht.2 (hγ.extend hP ha.1 ha.2)
        exact ⟨Q, fun _ _ => ⟨by rwa [inst_up], hmem⟩⟩
      · exact ⟨fun _ => True, fun hfree hmem => absurd ⟨hfree, hmem⟩ ha⟩
    choose Q hQ using hbody
    refine ⟨_, .pi (hc.symm.subst γ) ⟨_, hfamily.subst γ, .rfl⟩ hP fun a hfree ha =>
      (hQ a hfree ha).1, fun a hfree ha => ?_⟩
    refine (hQ a hfree ha).1.mem_of_conv ?_ (hQ a hfree ha).2
    rw [← inst_up]
    exact .beta ..
  | refl hm | transport hm => cases hm
  | same _ _ hc => exact ⟨_, .eq (hc.symm.subst γ), .rfl, .rfl⟩
  | @carried Γ p v h A T ss ds _ _ _ _ hc ihp ihv =>
    obtain ⟨P, hP, hmem⟩ := ihp hΓ ht.2.2.2.1 hγ
    obtain ⟨hends, hrefl⟩ := (hP.of_eq .rfl _).1 hmem
    -- the proof is reflexivity, so the endpoints agree and the value is not changed
    rw [subst_tuple, subst_tuple] at hends
    have hfamily : Conv ((h.apps ss.reverse).subst γ) (T.subst γ) := by
      refine Conv.trans ?_ (hc.subst γ)
      rw [subst_apps, subst_apps, List.map_reverse, List.map_reverse]
      exact .apps .rfl (List.forall₂_reverse_iff.2 hends.tuple_inj)
    obtain ⟨Q, hQ, hmem'⟩ := ihv hΓ ht.2.2.2.2 hγ
    refine ⟨Q, hQ.conv hfamily.symm, hQ.mem_of_conv ?_ hmem'⟩
    exact (Conv.transport .rfl .rfl .rfl hrefl .rfl).trans (.cancel ..)

end HasType

/-! ### Canonical forms -/

/-- The scope of closed terms. -/
def Scope.empty : Scope :=
  fun _ => none

/-- A closed term of the type, which does not mention the universe. -/
structure Inhabits (S : Signature) (t T : Nameless) : Prop where
  sortFree : t.SortFree
  hasType : HasType .erased S Scope.empty t T

namespace Inhabits

variable {S : Signature} {t T : Nameless}

lemma conv (h : Inhabits S t T) {T' : Nameless} (hc : Conv T T') : Inhabits S t T' :=
  ⟨h.sortFree, h.hasType.conv hc⟩

lemma reduces (h : Inhabits S t T) {u : Nameless} (hr : Reduces t u) : Inhabits S u T :=
  ⟨h.sortFree.reduces hr, h.hasType.reduces hr fun _ => h.sortFree⟩

lemma denoted (h : Inhabits S t T) (hS : S.Telescopic) : ∃ P, Denotes T P ∧ P t := by
  have hγ : Realizes Scope.empty ref := ⟨fun _ => trivial, nofun⟩
  simpa using h.hasType.denoted hS nofun h.sortFree hγ

/-- **A closed proof of an equation computes to reflexivity**, and the sides are convertible. -/
theorem of_eq (h : Inhabits S t T) (hS : S.Telescopic) {A l r : Nameless} (hT : Conv T (eq A l r)) :
    Conv l r ∧ ∃ a, Conv t (refl tt a) ∧ Conv a l ∧ Inhabits S a A := by
  obtain ⟨P, hP, hmem⟩ := h.denoted hS
  obtain ⟨hlr, w, htw, hw⟩ := (hP.of_eq hT t).1 hmem
  obtain ⟨X, a, rfl, -, ha⟩ := inert_refl.reduces hw
  have hrefl := h.reduces htw
  cases hrefl.hasType with
  | refl hm => cases hm
  | same _ ha' hc =>
    have hA := (hc.trans hT).eq_inj.1
    exact ⟨hlr, a, .of_reduces htw, (Conv.of_reduces ha).symm, hrefl.sortFree.2, ha'.conv hA⟩

/-- A closed term of the unit type computes to its value. -/
theorem of_unit (h : Inhabits S t T) (hS : S.Telescopic) (hT : Conv T unit) : Conv t tt := by
  obtain ⟨P, hP, hmem⟩ := h.denoted hS
  exact (hP.of_unit hT t).1 hmem

/-- A closed term of a product type computes to a pair. -/
theorem of_prod (h : Inhabits S t T) (hS : S.Telescopic) {A B : Nameless} (hT : Conv T (prod A B)) :
    ∃ a b, Conv t (pair a b) ∧ Inhabits S a A ∧ Inhabits S b B := by
  obtain ⟨P, hP, hmem⟩ := h.denoted hS
  obtain ⟨PA, PB, -, -, hprod⟩ := hP.of_prod hT
  obtain ⟨a, b, ⟨w, htw, hw⟩, -, -⟩ := (hprod t).1 hmem
  obtain ⟨a', b', rfl, -, -⟩ := inert_pair.reduces hw
  have hpair := (h.reduces htw).conv hT
  obtain ⟨ha, hb⟩ := hpair.hasType.pair_inv
  exact ⟨a', b', .of_reduces htw, ⟨hpair.sortFree.1, ha⟩, ⟨hpair.sortFree.2, hb⟩⟩

/-- A closed term of a declared type computes to an application of a constant. -/
theorem of_base (h : Inhabits S t T) (hS : S.Telescopic) {c : Name} {as : List Nameless}
    (hT : Conv T ((const c).apps as)) :
    ∃ d us, Conv t ((const d).apps us) ∧ Inhabits S ((const d).apps us) T := by
  obtain ⟨P, hP, hmem⟩ := h.denoted hS
  obtain ⟨d, us, w, htw, hw⟩ := (hP.of_base hT t).1 hmem
  obtain ⟨us', rfl, -⟩ := hw.apps_const
  exact ⟨d, us', .of_reduces htw, h.reduces htw⟩

end Inhabits

end UniqueEvidence
