/-
Types of terms without the universe.

A term that does not mention the universe may still have it as its type, or a product that ends in
it, but such a type says how far the term is from being a type itself.  The types of constants are
not restricted: a constructor may take types.

* `Telescopic`: products over any types that end in the universe or in a declared type, as the types
  of constants do;
* `Graded`: types from whose results it is seen whether they end in the universe; `HasType.graded`:
  **every type is convertible to one**;
* `IsFamily n`: a term that is a type once it is given `n` arguments, which is seen from its form
  alone;
* `HasType.isFamily`: **a term whose type ends in the universe after `n` products is such a term**.
-/
import UniqueEvidence.Proofs.Typing

namespace UniqueEvidence

namespace Nameless

/-! ### Small types -/

/-- The type is convertible to one without the universe. -/
def Small (T : Nameless) : Prop :=
  ∃ A, A.SortFree ∧ Conv T A

lemma SortFree.small {T : Nameless} (h : T.SortFree) : T.Small :=
  ⟨T, h, .rfl⟩

namespace Small

variable {T A B : Nameless}

lemma conv (h : T.Small) {T' : Nameless} (hc : Conv T' T) : T'.Small := by
  obtain ⟨A, hA, hTA⟩ := h
  exact ⟨A, hA, hc.trans hTA⟩

lemma subst (h : T.Small) {σ : Ref → Nameless} (hσ : ∀ r, (σ r).SortFree) : (T.subst σ).Small := by
  obtain ⟨A, hA, hTA⟩ := h
  exact ⟨A.subst σ, hA.subst fun r _ => hσ r, hTA.subst σ⟩

lemma not_sort : ¬ sort.Small := by
  rintro ⟨A, hA, w, hw, hAw⟩
  have hfree := hA.reduces hAw
  have hsort := hw.head? (x := .sort) rfl
  cases w <;> simp_all [head?, SortFree]
  split at hsort <;> cases hsort

/-- The results of a small product are small. -/
lemma of_pi (h : (pi A B).Small) : B.Small := by
  obtain ⟨X, hX, w, hw, hXw⟩ := h
  obtain ⟨A', B', rfl, -, hB⟩ := inert_pi.reduces hw
  exact ⟨B', (hX.reduces hXw).2, .of_reduces hB⟩

end Small

/-! ### Telescopes -/

/-- Products over any types, which end in the universe or in a declared type. -/
inductive Telescopic : Nameless → Prop where
  | sort : Telescopic sort
  | base (c : Name) (as : List Nameless) : Telescopic ((const c).apps as)
  | pi {A B} : Telescopic B → Telescopic (pi A B)

lemma Telescopic.subst {T : Nameless} (h : T.Telescopic) (σ : Ref → Nameless) :
    (T.subst σ).Telescopic := by
  induction h generalizing σ with
  | sort => exact .sort
  | base c as =>
    rw [subst_apps]
    exact .base c _
  | pi _ ih => exact .pi (ih (up σ))

/-! ### Graded types -/

/-- The type mentions no universe, or its form says where it ends: in an equation, in a pair of
types, or as a telescope. -/
inductive Graded : Nameless → Prop where
  | small {A} : A.SortFree → Graded A
  | eq (A l r : Nameless) : Graded (eq A l r)
  | telescopic {T} : T.Telescopic → Graded T
  | pi {A B} : Graded B → Graded (pi A B)
  | prod {A B} : Graded A → Graded B → Graded (prod A B)

/-- Products that end in the universe, as many as counted, up to conversion. -/
def Kind : Nat → Nameless → Prop
  | 0, T => Conv T sort
  | n + 1, T => ∃ A B, Conv T (pi A B) ∧ Kind n B

lemma kind_sort : Kind 0 sort :=
  Conv.rfl

lemma Kind.conv {n : Nat} {T T' : Nameless} (h : Kind n T) (hc : Conv T' T) : Kind n T' := by
  cases n with
  | zero => exact hc.trans h
  | succ n =>
    obtain ⟨A, B, hAB, hB⟩ := h
    exact ⟨A, B, hc.trans hAB, hB⟩

lemma Kind.not_small {n : Nat} {T : Nameless} (h : Kind n T) : ¬ T.Small := by
  induction n generalizing T with
  | zero => exact fun hT => Small.not_sort (hT.conv (Conv.symm h))
  | succ n ih =>
    obtain ⟨A, B, hAB, hB⟩ := h
    exact fun hT => ih hB (hT.conv hAB.symm).of_pi

/-- A kind with a lasting head is the universe or a product. -/
lemma Kind.head {n : Nat} {T : Nameless} (h : Kind n T) {x : Head} (hx : T.head? = some x) :
    n = 0 ∧ x = .sort ∨ ∃ m, n = m + 1 ∧ x = .pi := by
  cases n with
  | zero => exact .inl ⟨rfl, Conv.head_eq h hx rfl⟩
  | succ m =>
    obtain ⟨A, B, hAB, -⟩ := h
    exact .inr ⟨m, rfl, hAB.head_eq hx rfl⟩

lemma Kind.of_pi {n : Nat} {A B : Nameless} (h : Kind n (pi A B)) : ∃ m, n = m + 1 ∧ Kind m B := by
  cases n with
  | zero => cases Conv.head_eq h rfl rfl
  | succ m =>
    obtain ⟨A', B', hAB, hB⟩ := h
    exact ⟨m, rfl, hB.conv hAB.pi_inj.2⟩

lemma sortFree_up {σ : Ref → Nameless} (h : ∀ r, (σ r).SortFree) (r : Ref) : (up σ r).SortFree := by
  rcases r.eq_top_or_succ with rfl | ⟨r, rfl⟩
  · trivial
  · simpa [shift] using h r

lemma sortFree_extend {a : Nameless} (ha : a.SortFree) {σ : Ref → Nameless}
    (h : ∀ r, (σ r).SortFree) (r : Ref) : (Ref.extend a σ r).SortFree := by
  rcases r.eq_top_or_succ with rfl | ⟨r, rfl⟩
  · exact ha
  · simpa using h r

lemma Telescopic.kind_of_subst {T : Nameless} {n : Nat} {σ : Ref → Nameless} (h : T.Telescopic)
    (hkind : Kind n (T.subst σ)) : Kind n T := by
  induction h generalizing n σ with
  | sort => exact hkind
  | base c as =>
    rw [subst_apps] at hkind
    rcases hkind.head (head?_apps_const ..) with ⟨_, hx⟩ | ⟨_, _, hx⟩ <;> cases hx
  | pi _ ih =>
    obtain ⟨m, rfl, hm⟩ := Kind.of_pi hkind
    exact ⟨_, _, .rfl, ih hm⟩

namespace Graded

variable {G : Nameless} {σ : Ref → Nameless}

lemma subst (h : G.Graded) (hσ : ∀ r, (σ r).SortFree) : (G.subst σ).Graded := by
  induction h generalizing σ with
  | small hA => exact .small (hA.subst fun r _ => hσ r)
  | eq A l r => exact .eq ..
  | telescopic hT => exact .telescopic (hT.subst σ)
  | pi _ ih => exact .pi (ih (sortFree_up hσ))
  | prod _ _ ihA ihB => exact .prod (ihA hσ) (ihB hσ)

lemma kind_of_subst {n : Nat} (h : G.Graded) (hσ : ∀ r, (σ r).SortFree)
    (hkind : Kind n (G.subst σ)) : Kind n G := by
  induction h generalizing n σ with
  | small hA => exact absurd (hA.subst fun r _ => hσ r).small hkind.not_small
  | telescopic hT => exact hT.kind_of_subst hkind
  | pi _ ih =>
    obtain ⟨m, rfl, hm⟩ := Kind.of_pi hkind
    exact ⟨_, _, .rfl, ih (sortFree_up hσ) hm⟩
  | eq _ _ _ | prod _ _ _ _ => rcases hkind.head rfl with ⟨_, hx⟩ | ⟨_, _, hx⟩ <;> cases hx

lemma inst (h : G.Graded) {a : Nameless} (ha : a.SortFree) : (G.inst a).Graded :=
  h.subst (σ := Ref.extend a ref) (sortFree_extend ha fun _ => trivial)

lemma kind_of_inst {n : Nat} (h : G.Graded) {a : Nameless} (ha : a.SortFree)
    (hkind : Kind n (G.inst a)) : Kind n G :=
  h.kind_of_subst (σ := Ref.extend a ref) (sortFree_extend ha fun _ => trivial) hkind

/-- The results of a graded type that is convertible to a product are graded. -/
lemma of_conv_pi (h : G.Graded) {A B : Nameless} (hc : Conv (Nameless.pi A B) G) :
    ∃ B', B'.Graded ∧ Conv B B' := by
  cases h with
  | small hG =>
    obtain ⟨B', hB', hB⟩ := Small.of_pi ⟨G, hG, hc⟩
    exact ⟨B', .small hB', hB⟩
  | telescopic hT =>
    cases hT with
    | sort => cases hc.head_eq rfl rfl
    | base c as => cases hc.head_eq rfl (head?_apps_const c as)
    | pi hB => exact ⟨_, .telescopic hB, hc.pi_inj.2⟩
  | pi hB => exact ⟨_, hB, hc.pi_inj.2⟩
  | eq _ _ _ | prod _ _ => cases hc.head_eq rfl rfl

end Graded

/-! ### Types by their form -/

/-- The term is a type once it is given as many arguments as counted. -/
def IsFamily : Nat → Nameless → Prop
  | _, const _ => True
  | n, app f _ => IsFamily (n + 1) f
  | n + 1, lam _ b => IsFamily n b
  | 0, unit | 0, eq _ _ _ => True
  | 0, prod a b | 0, pi a b => IsFamily 0 a ∧ IsFamily 0 b
  | _, _ => False

lemma IsFamily.subst {n : Nat} {t : Nameless} (h : IsFamily n t) (σ : Ref → Nameless) :
    IsFamily n (t.subst σ) := by
  induction t generalizing n σ with
  | const => trivial
  | app f a ihf _ => exact ihf h σ
  | lam A b _ ihb =>
    cases n with
    | zero => exact h.elim
    | succ n => exact ihb h (up σ)
  | prod a b iha ihb =>
    cases n with
    | zero => exact ⟨iha h.1 σ, ihb h.2 σ⟩
    | succ n => exact h.elim
  | pi a b iha ihb =>
    cases n with
    | zero => exact ⟨iha h.1 σ, ihb h.2 (up σ)⟩
    | succ n => exact h.elim
  | unit | eq =>
    cases n with
    | zero => trivial
    | succ n => exact h.elim
  | ref r | sort | tt | pair a b | refl A a | transport h s d p v => cases n <;> exact h.elim

/-- The type is convertible to one that is a type by its form. -/
def Formed (A : Nameless) : Prop :=
  ∃ F, IsFamily 0 F ∧ Conv A F

lemma Formed.conv {A A' : Nameless} (h : A.Formed) (hc : Conv A' A) : A'.Formed := by
  obtain ⟨F, hF, hAF⟩ := h
  exact ⟨F, hF, hc.trans hAF⟩

end Nameless

open Nameless

/-! ### The types of terms without the universe -/

/-- The types of the scope do not mention the universe. -/
def Scope.SortFree (Γ : Scope) : Prop :=
  ∀ r A, Γ r = some A → A.SortFree

lemma Scope.SortFree.push {Γ : Scope} (h : Γ.SortFree) {A : Nameless} (hA : A.SortFree) :
    (Γ.push A).SortFree := by
  intro r B hB
  rcases r.eq_top_or_succ with rfl | ⟨r, rfl⟩
  · obtain rfl : A.shift = B := by simpa [Scope.push] using hB
    simpa [shift] using hA
  · simp only [Scope.push, Ref.extend_succ, Option.map_eq_some_iff] at hB
    obtain ⟨B', hB', rfl⟩ := hB
    simpa [shift] using h r B' hB'

/-- The types of the constants are telescopes. -/
def Signature.Telescopic (S : Signature) : Prop :=
  ∀ c U, S.type? c = some U → U.Telescopic

namespace HasType

variable {S : Signature} {Γ : Scope} {t T : Nameless}

/-- **The type of a term without the universe is graded**, up to conversion. -/
theorem graded (h : HasType .erased S Γ t T) (hS : S.Telescopic) (hΓ : Γ.SortFree)
    (ht : t.SortFree) : ∃ G, G.Graded ∧ Conv T G := by
  induction h with
  | ref hr hc => exact ⟨_, .small (hΓ _ _ hr), hc.symm⟩
  | const hU hc => exact ⟨_, .telescopic (hS _ _ hU), hc.symm⟩
  | sort hm _ => cases hm
  | unit hc | prod _ _ hc | pi _ _ hc | eq _ _ _ hc => exact ⟨_, .telescopic .sort, hc.symm⟩
  | tt hc => exact ⟨.unit, .small trivial, hc.symm⟩
  | pair _ _ hc iha ihb =>
    obtain ⟨G, hG, hA⟩ := iha hΓ ht.1
    obtain ⟨G', hG', hB⟩ := ihb hΓ ht.2
    exact ⟨_, .prod hG hG', hc.symm.trans (.prod hA hB)⟩
  | app _ _ hc ihf _ =>
    obtain ⟨G, hG, hAB⟩ := ihf hΓ ht.1
    obtain ⟨B', hB', hB⟩ := hG.of_conv_pi hAB
    exact ⟨_, hB'.inst ht.2, hc.symm.trans (hB.inst .rfl)⟩
  | lam _ _ hc _ ihb =>
    obtain ⟨G, hG, hB⟩ := ihb (hΓ.push ht.1) ht.2
    exact ⟨_, .pi hG, hc.symm.trans (.pi .rfl hB)⟩
  | refl hm | transport hm => cases hm
  | same _ _ hc => exact ⟨_, .eq .., hc.symm⟩
  | carried _ _ _ hfree hc => exact ⟨_, .small hfree, hc.symm⟩

/-- **A term whose type ends in the universe after `n` products** is a type once it is given `n`
arguments. -/
theorem isFamily (h : HasType .erased S Γ t T) (hS : S.Telescopic) (hΓ : Γ.SortFree)
    (ht : t.SortFree) {n : Nat} (hkind : Kind n T) : IsFamily n t := by
  induction h generalizing n with
  | ref hr hc => exact absurd (hΓ _ _ hr).small (hkind.conv hc).not_small
  | const => trivial
  | sort hm _ => cases hm
  | unit hc =>
    obtain ⟨rfl, -⟩ : n = 0 ∧ _ :=
      ((hkind.conv hc).head rfl).resolve_right fun ⟨_, _, hx⟩ => by cases hx
    trivial
  | tt hc => rcases (hkind.conv hc).head rfl with ⟨_, hx⟩ | ⟨_, _, hx⟩ <;> cases hx
  | prod _ _ hc iha ihb =>
    obtain ⟨rfl, -⟩ : n = 0 ∧ _ :=
      ((hkind.conv hc).head rfl).resolve_right fun ⟨_, _, hx⟩ => by cases hx
    exact ⟨iha hΓ ht.1 kind_sort, ihb hΓ ht.2 kind_sort⟩
  | pair _ _ hc => rcases (hkind.conv hc).head rfl with ⟨_, hx⟩ | ⟨_, _, hx⟩ <;> cases hx
  | app hf _ hc ihf _ =>
    obtain ⟨G, hG, hAB⟩ := hf.graded hS hΓ ht.1
    obtain ⟨B', hB', hB⟩ := hG.of_conv_pi hAB
    have hinst : Kind n (B'.inst _) := (hkind.conv hc).conv (hB.symm.inst .rfl)
    exact ihf hΓ ht.1 ⟨_, _, .rfl, (hB'.kind_of_inst ht.2 hinst).conv hB⟩
  | lam _ _ hc _ ihb =>
    obtain ⟨m, rfl, hm⟩ := (hkind.conv hc).of_pi
    exact ihb (hΓ.push ht.1) ht.2 hm
  | pi _ _ hc ihA ihB =>
    obtain ⟨rfl, -⟩ : n = 0 ∧ _ :=
      ((hkind.conv hc).head rfl).resolve_right fun ⟨_, _, hx⟩ => by cases hx
    exact ⟨ihA hΓ ht.1 kind_sort, ihB (hΓ.push ht.1) ht.2 kind_sort⟩
  | eq _ _ _ hc =>
    obtain ⟨rfl, -⟩ : n = 0 ∧ _ :=
      ((hkind.conv hc).head rfl).resolve_right fun ⟨_, _, hx⟩ => by cases hx
    trivial
  | refl hm | transport hm => cases hm
  | same _ _ hc => rcases (hkind.conv hc).head rfl with ⟨_, hx⟩ | ⟨_, _, hx⟩ <;> cases hx
  | carried _ _ _ hfree hc => exact absurd hfree.small (hkind.conv hc).not_small

end HasType

end UniqueEvidence
