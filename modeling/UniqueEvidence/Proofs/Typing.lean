/-
A declarative type system for nameless terms.

* `HasType`: typing with conversion built into every rule, so that a derivation follows the term.
  In the discipline `strict` a transport is checked as inference checks it, and the universe is a
  type; in `erased` only the proof and the value of a transport and the value of reflexivity count,
  and the universe has no type;
* `HasType.rename`, `HasType.subst`: **renaming and substitution keep types**.  Only the references
  that occur matter, so this is weakening, strengthening and conversion of contexts as well;
* `HasType.par`, `HasType.reduces`: **reduction keeps types**;
* `HasType.unique`: a term has one type up to conversion.
-/
import UniqueEvidence.Proofs.Erasure

namespace UniqueEvidence

open Nameless

/-- How much of a term is checked. -/
inductive Discipline where
  /-- All that inference checks. -/
  | strict
  /-- Of a transport the proof and the value, of reflexivity the value; the universe has no type. -/
  | erased
  deriving DecidableEq

/-- What may be substituted: under erasure the universe may not. -/
def Discipline.Admits (m : Discipline) (t : Nameless) : Prop :=
  m = .erased → t.SortFree

lemma Discipline.admits_strict (t : Nameless) : Discipline.strict.Admits t := by
  intro h
  cases h

/-- The types of the constants, which mention no variables. -/
structure Signature where
  type? : Name → Option Nameless
  closed : ∀ {c U}, type? c = some U → U.Closed

/-- The types of references. -/
abbrev Scope := Ref → Option Nameless

/-- A scope below a binder of the given type. -/
def Scope.push (A : Nameless) (Γ : Scope) : Scope :=
  Ref.extend (some A.shift) fun r => (Γ r).map shift

/-- The term has the type. -/
inductive HasType (m : Discipline) (S : Signature) : Scope → Nameless → Nameless → Prop where
  | ref {Γ r A T} : Γ r = some A → Conv A T → HasType m S Γ (ref r) T
  | const {Γ c U T} : S.type? c = some U → Conv U T → HasType m S Γ (const c) T
  | sort {Γ T} : m = .strict → Conv sort T → HasType m S Γ sort T
  | unit {Γ T} : Conv sort T → HasType m S Γ unit T
  | tt {Γ T} : Conv unit T → HasType m S Γ tt T
  | prod {Γ a b T} : HasType m S Γ a sort → HasType m S Γ b sort → Conv sort T →
    HasType m S Γ (prod a b) T
  | pair {Γ a b A B T} : HasType m S Γ a A → HasType m S Γ b B → Conv (prod A B) T →
    HasType m S Γ (pair a b) T
  | app {Γ f a A B T} : HasType m S Γ f (pi A B) → HasType m S Γ a A → Conv (B.inst a) T →
    HasType m S Γ (app f a) T
  | lam {Γ A b B T} : HasType m S Γ A sort → HasType m S (Scope.push A Γ) b B → Conv (pi A B) T →
      HasType m S Γ (lam A b) T
  | pi {Γ A B T} : HasType m S Γ A sort → HasType m S (Scope.push A Γ) B sort → Conv sort T →
    HasType m S Γ (pi A B) T
  | eq {Γ A l r T} : HasType m S Γ A sort → HasType m S Γ l A → HasType m S Γ r A → Conv sort T →
      HasType m S Γ (eq A l r) T
  | refl {Γ A a T} : m = .strict → HasType m S Γ A sort → HasType m S Γ a A → Conv (eq A a a) T →
      HasType m S Γ (refl A a) T
  /-- Only the value counts, whose type may mention the universe. -/
  | same {Γ A a T} : m = .erased → HasType m S Γ a A → Conv (eq A a a) T →
    HasType m S Γ (refl tt a) T
  /-- The endpoints compute to tuples, whose components the head takes last one first. -/
  | transport {Γ} {h s d p v A T : Nameless} {ss ds : List Nameless} : m = .strict →
      Reduces s (tuple ss) → Reduces d (tuple ds) →
      ss.length = ds.length → HasType m S Γ (tuple ss) A → HasType m S Γ d A →
        HasType m S Γ p (eq A s d) →
      HasType m S Γ v (h.apps ss.reverse) → Conv (h.apps ds.reverse) T →
        HasType m S Γ (transport h s d p v) T
  /-- Some head and endpoints fit the proof and the value. -/
  | carried {Γ} {p v h A T : Nameless} {ss ds : List Nameless} : m = .erased →
      HasType m S Γ p (eq A (tuple ss) (tuple ds)) →
      HasType m S Γ v (h.apps ss.reverse) → (h.apps ds.reverse).SortFree →
        Conv (h.apps ds.reverse) T →
      HasType m S Γ (transport tt tt tt p v) T

namespace HasType

variable {m : Discipline} {S : Signature} {Γ Δ : Scope} {t T : Nameless}

/-- Types count up to conversion. -/
lemma conv (h : HasType m S Γ t T) {T' : Nameless} (hT : Conv T T') : HasType m S Γ t T' := by
  cases h with
  | ref hr hc => exact ref hr (hc.trans hT)
  | const hS hc => exact const hS (hc.trans hT)
  | sort hm hc => exact sort hm (hc.trans hT)
  | unit hc => exact unit (hc.trans hT)
  | tt hc => exact tt (hc.trans hT)
  | prod ha hb hc => exact prod ha hb (hc.trans hT)
  | pair ha hb hc => exact pair ha hb (hc.trans hT)
  | app hf ha hc => exact app hf ha (hc.trans hT)
  | lam hA hb hc => exact lam hA hb (hc.trans hT)
  | pi hA hB hc => exact pi hA hB (hc.trans hT)
  | eq hA hl hr hc => exact eq hA hl hr (hc.trans hT)
  | refl hm hA ha hc => exact refl hm hA ha (hc.trans hT)
  | same hm ha hc => exact same hm ha (hc.trans hT)
  | transport hm hs hd hlen hss hdst hp hv hc =>
    exact transport hm hs hd hlen hss hdst hp hv (hc.trans hT)
  | carried hm hp hv hfree hc => exact carried hm hp hv hfree (hc.trans hT)

/-! ### Renaming -/

lemma push_rename {b A : Nameless} {ρ : Ref → Ref}
    (h : ∀ (r : Ref) B, b.Occurs r.succ → Γ r = some B → Δ (ρ r) = some (B.rename ρ)) :
    ∀ r B, b.Occurs r → Γ.push A r = some B →
      Δ.push (A.rename ρ) (Ref.lift ρ r) = some (B.rename (Ref.lift ρ)) := by
  intro r B hr hB
  rcases r.eq_top_or_succ with rfl | ⟨r, rfl⟩
  · obtain rfl : A.shift = B := by simpa [Scope.push] using hB
    simp [Scope.push, rename_shift]
  · simp only [Scope.push, Ref.extend_succ, Option.map_eq_some_iff] at hB
    obtain ⟨B', hB', rfl⟩ := hB
    simp [Scope.push, h r B' hr hB', rename_shift]

/-- **Renaming keeps types**, if the references that occur keep theirs. -/
theorem rename (h : HasType m S Γ t T) {ρ : Ref → Ref}
    (hρ : ∀ r A, t.Occurs r → Γ r = some A → Δ (ρ r) = some (A.rename ρ)) :
    HasType m S Δ (t.rename ρ) (T.rename ρ) := by
  induction h generalizing Δ ρ with
  | ref hr hc => exact ref (hρ _ _ rfl hr) (hc.rename ρ)
  | const hS hc => exact const hS (rename_of_closed (S.closed hS) ρ ▸ hc.rename ρ)
  | sort hm hc => exact sort hm (hc.rename ρ)
  | unit hc => exact unit (hc.rename ρ)
  | tt hc => exact tt (hc.rename ρ)
  | prod _ _ hc iha ihb =>
    exact prod (iha fun r A hr => hρ r A (.inl hr))
      (ihb fun r A hr => hρ r A (.inr hr)) (hc.rename ρ)
  | pair _ _ hc iha ihb =>
    exact pair (iha fun r A hr => hρ r A (.inl hr))
      (ihb fun r A hr => hρ r A (.inr hr)) (hc.rename ρ)
  | app _ _ hc ihf iha =>
    refine app (ihf fun r A hr => hρ r A (.inl hr)) (iha fun r A hr => hρ r A (.inr hr)) ?_
    rw [← rename_inst]
    exact hc.rename ρ
  | lam _ _ hc ihA ihb =>
    exact lam (ihA fun r A hr => hρ r A (.inl hr))
      (ihb (push_rename fun r B hr => hρ r B (.inr hr))) (hc.rename ρ)
  | pi _ _ hc ihA ihB =>
    exact pi (ihA fun r A hr => hρ r A (.inl hr))
      (ihB (push_rename fun r B hr => hρ r B (.inr hr))) (hc.rename ρ)
  | eq _ _ _ hc ihA ihl ihr =>
    exact eq (ihA fun r A hr => hρ r A (.inl hr)) (ihl fun r A hr => hρ r A (.inr (.inl hr)))
      (ihr fun r A hr => hρ r A (.inr (.inr hr))) (hc.rename ρ)
  | refl hm _ _ hc ihA iha =>
    exact refl hm (ihA fun r A hr => hρ r A (.inl hr))
      (iha fun r A hr => hρ r A (.inr hr)) (hc.rename ρ)
  | same hm _ hc iha => exact same hm (iha fun r A hr => hρ r A (.inr hr)) (hc.rename ρ)
  | transport hm hs hd hlen _ _ _ _ hc ihss ihd ihp ihv =>
    have hss := ihss fun r A hr => hρ r A (.inr (.inl (hs.occurs hr)))
    have hv := ihv fun r A hr => hρ r A (.inr (.inr (.inr (.inr hr))))
    have hs' := hs.map fun h => h.rename ρ
    have hd' := hd.map fun h => h.rename ρ
    have hc' := hc.rename ρ
    rw [rename_tuple] at hss hs' hd'
    rw [rename_apps, List.map_reverse] at hv hc'
    exact transport hm hs' hd' (by simpa using hlen) hss
      (ihd fun r A hr => hρ r A (.inr (.inr (.inl hr))))
      (ihp fun r A hr => hρ r A (.inr (.inr (.inr (.inl hr))))) hv hc'
  | carried hm _ _ hfree hc ihp ihv =>
    have hp := ihp fun r A hr => hρ r A (.inr (.inr (.inr (.inl hr))))
    have hv := ihv fun r A hr => hρ r A (.inr (.inr (.inr (.inr hr))))
    have hc' := hc.rename ρ
    have hfree' := (sortFree_rename (ρ := ρ)).2 hfree
    simp only [Nameless.rename, rename_tuple] at hp
    rw [rename_apps, List.map_reverse] at hv hc' hfree'
    exact carried hm hp hv hfree' hc'

/-- Weakening by one binder. -/
lemma shift (h : HasType m S Γ t T) (A : Nameless) : HasType m S (Γ.push A) t.shift T.shift :=
  h.rename fun r B _ hB => by simp [Scope.push, hB, Nameless.shift]

/-! ### Substitution -/

lemma push_subst {b A : Nameless} {σ : Ref → Nameless}
    (h : ∀ (r : Ref) B, b.Occurs r.succ → Γ r = some B → HasType m S Δ (σ r) (B.subst σ)) :
    ∀ r B, b.Occurs r → Γ.push A r = some B →
      HasType m S (Δ.push (A.subst σ)) (up σ r) (B.subst (up σ)) := by
  intro r B hr hB
  rcases r.eq_top_or_succ with rfl | ⟨r, rfl⟩
  · obtain rfl : A.shift = B := by simpa [Scope.push] using hB
    rw [subst_shift]
    exact ref rfl .rfl
  · simp only [Scope.push, Ref.extend_succ, Option.map_eq_some_iff] at hB
    obtain ⟨B', hB', rfl⟩ := hB
    rw [up_succ, subst_shift]
    exact (h r B' hr hB').shift _

lemma admits_up {σ : Ref → Nameless} (h : ∀ r, m.Admits (σ r)) (r : Ref) : m.Admits (up σ r) := by
  rcases r.eq_top_or_succ with rfl | ⟨r, rfl⟩
  · exact fun _ => trivial
  · simpa [Discipline.Admits, Nameless.shift] using h r

/-- **Substitution keeps types**, if the references that occur get terms of their types. -/
theorem subst (h : HasType m S Γ t T) {σ : Ref → Nameless}
    (hσ : ∀ r A, t.Occurs r → Γ r = some A → HasType m S Δ (σ r) (A.subst σ))
    (hadm : ∀ r, m.Admits (σ r)) : HasType m S Δ (t.subst σ) (T.subst σ) := by
  induction h generalizing Δ σ with
  | ref hr hc => exact (hσ _ _ rfl hr).conv (hc.subst σ)
  | const hS hc => exact const hS (subst_of_closed (S.closed hS) σ ▸ hc.subst σ)
  | sort hm hc => exact sort hm (hc.subst σ)
  | unit hc => exact unit (hc.subst σ)
  | tt hc => exact tt (hc.subst σ)
  | prod _ _ hc iha ihb =>
    exact prod (iha (fun r A hr => hσ r A (.inl hr)) hadm)
      (ihb (fun r A hr => hσ r A (.inr hr)) hadm) (hc.subst σ)
  | pair _ _ hc iha ihb =>
    exact pair (iha (fun r A hr => hσ r A (.inl hr)) hadm)
      (ihb (fun r A hr => hσ r A (.inr hr)) hadm) (hc.subst σ)
  | app _ _ hc ihf iha =>
    refine app (ihf (fun r A hr => hσ r A (.inl hr)) hadm)
      (iha (fun r A hr => hσ r A (.inr hr)) hadm) ?_
    rw [← subst_inst]
    exact hc.subst σ
  | lam _ _ hc ihA ihb =>
    exact lam (ihA (fun r A hr => hσ r A (.inl hr)) hadm)
      (ihb (push_subst fun r B hr => hσ r B (.inr hr)) (admits_up hadm)) (hc.subst σ)
  | pi _ _ hc ihA ihB =>
    exact pi (ihA (fun r A hr => hσ r A (.inl hr)) hadm)
      (ihB (push_subst fun r B hr => hσ r B (.inr hr)) (admits_up hadm)) (hc.subst σ)
  | eq _ _ _ hc ihA ihl ihr =>
    exact eq (ihA (fun r A hr => hσ r A (.inl hr)) hadm)
      (ihl (fun r A hr => hσ r A (.inr (.inl hr))) hadm)
      (ihr (fun r A hr => hσ r A (.inr (.inr hr))) hadm) (hc.subst σ)
  | refl hm _ _ hc ihA iha =>
    exact refl hm (ihA (fun r A hr => hσ r A (.inl hr)) hadm)
      (iha (fun r A hr => hσ r A (.inr hr)) hadm) (hc.subst σ)
  | same hm _ hc iha => exact same hm (iha (fun r A hr => hσ r A (.inr hr)) hadm) (hc.subst σ)
  | transport hm hs hd hlen _ _ _ _ hc ihss ihd ihp ihv =>
    have hss := ihss (fun r A hr => hσ r A (.inr (.inl (hs.occurs hr)))) hadm
    have hv := ihv (fun r A hr => hσ r A (.inr (.inr (.inr (.inr hr))))) hadm
    have hs' := hs.subst σ
    have hd' := hd.subst σ
    have hc' := hc.subst σ
    rw [subst_tuple] at hss hs' hd'
    rw [subst_apps, List.map_reverse] at hv hc'
    exact transport hm hs' hd' (by simpa using hlen) hss
      (ihd (fun r A hr => hσ r A (.inr (.inr (.inl hr)))) hadm)
      (ihp (fun r A hr => hσ r A (.inr (.inr (.inr (.inl hr))))) hadm) hv hc'
  | carried hm _ _ hfree hc ihp ihv =>
    have hp := ihp (fun r A hr => hσ r A (.inr (.inr (.inr (.inl hr))))) hadm
    have hv := ihv (fun r A hr => hσ r A (.inr (.inr (.inr (.inr hr))))) hadm
    have hc' := hc.subst σ
    have hfree' := hfree.subst fun r _ => hadm r hm
    simp only [Nameless.subst, subst_tuple] at hp
    rw [subst_apps, List.map_reverse] at hv hc' hfree'
    exact carried hm hp hv hfree' hc'

/-- The type of the body of a binder, opened by a term of the binder's type. -/
lemma inst {A b B a : Nameless} (hb : HasType m S (Γ.push A) b B) (ha : HasType m S Γ a A)
    (hadm : m.Admits a) : HasType m S Γ (b.inst a) (B.inst a) := by
  refine hb.subst (fun r C _ hC => ?_) fun r => ?_
  · rcases r.eq_top_or_succ with rfl | ⟨r, rfl⟩
    · obtain rfl : A.shift = C := by simpa [Scope.push] using hC
      rw [Ref.extend_top, ← Nameless.inst, inst_shift]
      exact ha
    · simp only [Scope.push, Ref.extend_succ, Option.map_eq_some_iff] at hC
      obtain ⟨C', hC', rfl⟩ := hC
      rw [Ref.extend_succ, ← Nameless.inst, inst_shift]
      exact ref hC' .rfl
  · rcases r.eq_top_or_succ with rfl | ⟨r, rfl⟩
    · exact hadm
    · simp [Discipline.Admits, SortFree]

/-- A scope that gives convertible types to the references that occur types the same terms. -/
lemma of_conv_scope (h : HasType m S Γ t T)
    (hΓ : ∀ r A, t.Occurs r → Γ r = some A → ∃ B, Δ r = some B ∧ Conv B A) : HasType m S Δ t T := by
  have hself := h.subst (σ := Nameless.ref) (Δ := Δ) (fun r A hr hA => ?_) fun r => fun _ => trivial
  · simpa using hself
  · obtain ⟨B, hB, hconv⟩ := hΓ r A hr hA
    exact ref hB (by simpa using hconv)

/-- A binder's type may be replaced by a convertible one. -/
lemma of_conv_push {A A' : Nameless} (h : HasType m S (Γ.push A) t T) (hA : Conv A A') :
    HasType m S (Γ.push A') t T := by
  refine h.of_conv_scope fun r B _ hB => ?_
  rcases r.eq_top_or_succ with rfl | ⟨r, rfl⟩
  · obtain rfl : A.shift = B := by simpa [Scope.push] using hB
    exact ⟨A'.shift, rfl, (hA.rename _).symm⟩
  · exact ⟨B, by simpa [Scope.push] using hB, .rfl⟩

/-! ### Reduction -/

lemma forall₂_conv_of_par {ts us : List Nameless} (h : List.Forall₂ Par ts us) :
    List.Forall₂ Conv ts us :=
  h.imp fun _ _ => Conv.of_par

/-- **A parallel step keeps the type.** -/
theorem par (h : HasType m S Γ t T) {u : Nameless} (hp : Par t u) (hadm : m.Admits t) :
    HasType m S Γ u T := by
  induction h generalizing u with
  | ref hr hc =>
    cases hp
    exact ref hr hc
  | const hS hc =>
    cases hp
    exact const hS hc
  | sort hm hc =>
    cases hp
    exact sort hm hc
  | unit hc =>
    cases hp
    exact unit hc
  | tt hc =>
    cases hp
    exact tt hc
  | prod _ _ hc iha ihb =>
    cases hp with
    | prod ha hb => exact prod (iha ha fun hm => (hadm hm).1) (ihb hb fun hm => (hadm hm).2) hc
  | pair _ _ hc iha ihb =>
    cases hp with
    | pair ha hb => exact pair (iha ha fun hm => (hadm hm).1) (ihb hb fun hm => (hadm hm).2) hc
  | app hf ha hc ihf iha =>
    have hadmf := fun hm => (hadm hm).1
    have hadma := fun hm => (hadm hm).2
    cases hp with
    | app hpf hpa =>
      refine app (ihf hpf hadmf) (iha hpa hadma) (Conv.trans (.inst .rfl ?_) hc)
      exact (Conv.of_par hpa).symm
    | beta A hpb hpa =>
      -- the function is typed after the step as well, and so is its body
      cases ihf (.lam .rfl hpb) hadmf with
      | lam _ hb hpi =>
        obtain ⟨hdom, hcod⟩ := hpi.pi_inj
        have ha' := (iha hpa hadma).conv hdom.symm
        refine (hb.inst ha' fun hm => (hadm hm).2.par hpa).conv (Conv.trans (.inst hcod ?_) hc)
        exact (Conv.of_par hpa).symm
  | lam _ _ hc ihA ihb =>
    cases hp with
    | lam hA hb =>
      have hb' := (ihb hb fun hm => (hadm hm).2).of_conv_push (.of_par hA)
      refine lam (ihA hA fun hm => (hadm hm).1) hb' (Conv.trans (.pi ?_ .rfl) hc)
      exact (Conv.of_par hA).symm
  | pi _ _ hc ihA ihB =>
    cases hp with
    | pi hA hB =>
      exact pi (ihA hA fun hm => (hadm hm).1)
        ((ihB hB fun hm => (hadm hm).2).of_conv_push (.of_par hA)) hc
  | eq _ _ _ hc ihA ihl ihr =>
    cases hp with
    | eq hA hl hr =>
      have hA' := Conv.of_par hA
      exact eq (ihA hA fun hm => (hadm hm).1) ((ihl hl fun hm => (hadm hm).2.1).conv hA')
        ((ihr hr fun hm => (hadm hm).2.2).conv hA') hc
  | refl hm _ _ hc ihA iha =>
    cases hp with
    | refl hA ha =>
      have hA' := Conv.of_par hA
      have ha' := Conv.of_par ha
      exact refl hm (ihA hA fun hm => (hadm hm).1) ((iha ha fun hm => (hadm hm).2).conv hA')
        (Conv.trans (.eq hA'.symm ha'.symm ha'.symm) hc)
  | same hm _ hc iha =>
    cases hp with
    | refl hA ha =>
      cases hA
      have ha' := Conv.of_par ha
      exact same hm (iha ha fun hm => (hadm hm).2) (Conv.trans (.eq .rfl ha'.symm ha'.symm) hc)
  | transport hm hs hd hlen _ _ hpf _ hc ihss ihd ihp ihv =>
    have hadm' : ∀ {x}, m.Admits x := fun h => absurd (hm.symm.trans h) nofun
    cases hp with
    | transport hph hps hpd hpp hpv =>
      -- the endpoints still compute to tuples, one step further
      obtain ⟨_, hs', hpss⟩ := Reduces.strip hps hs
      obtain ⟨ss', rfl, hss'⟩ := hpss.tuple
      obtain ⟨_, hd', hpds⟩ := Reduces.strip hpd hd
      obtain ⟨ds', rfl, hds'⟩ := hpds.tuple
      have hsrc := Conv.apps (.of_par hph) (List.forall₂_reverse_iff.2 (forall₂_conv_of_par hss'))
      have hdst := Conv.apps (.of_par hph) (List.forall₂_reverse_iff.2 (forall₂_conv_of_par hds'))
      exact transport hm hs' hd' (by rw [← hss'.length_eq, hlen, hds'.length_eq])
        (ihss hpss hadm') (ihd hpd hadm')
        ((ihp hpp hadm').conv (.eq .rfl (.of_par hps) (.of_par hpd)))
          ((ihv hpv hadm').conv hsrc) (hdst.symm.trans hc)
    | cancel _ _ _ A a hpv =>
      cases hpf with
      | same hm' => exact absurd (hm.symm.trans hm') nofun
      | refl _ _ _ heq =>
        obtain ⟨-, hsrc, hdst⟩ := heq.eq_inj
        have htuples :=
          ((Conv.of_reduces hs).symm.trans (hsrc.symm.trans hdst)).trans (.of_reduces hd)
        exact (ihv hpv hadm').conv
          (Conv.trans (.apps .rfl (List.forall₂_reverse_iff.2 htuples.tuple_inj)) hc)
  | carried hm hpf _ hfree hc ihp ihv =>
    have hadmv := fun hm => (hadm hm).2.2.2.2
    cases hp with
    | transport hph hps hpd hpp hpv =>
      cases hph
      cases hps
      cases hpd
      exact carried hm (ihp hpp fun hm => (hadm hm).2.2.2.1) (ihv hpv hadmv) hfree hc
    | cancel _ _ _ A a hpv =>
      cases hpf with
      | refl hm' => exact absurd (hm.symm.trans hm') nofun
      | same _ _ heq =>
        obtain ⟨-, hsrc, hdst⟩ := heq.eq_inj
        exact (ihv hpv hadmv).conv
          (Conv.trans (.apps .rfl (List.forall₂_reverse_iff.2 (hsrc.symm.trans hdst).tuple_inj)) hc)

/-- **Reduction keeps the type.** -/
theorem reduces (h : HasType m S Γ t T) {u : Nameless} (hr : Reduces t u) (hadm : m.Admits t) :
    HasType m S Γ u T := by
  have hboth : HasType m S Γ u T ∧ m.Admits u := by
    induction hr with
    | refl => exact ⟨h, hadm⟩
    | tail _ hstep ih => exact ⟨ih.1.par hstep ih.2, fun hm => (ih.2 hm).par hstep⟩
  exact hboth.1

/-! ### Uniqueness of types -/

/-- **In the strict discipline a term has one type**, up to conversion. -/
theorem unique (h : HasType .strict S Γ t T) {T' : Nameless} (h' : HasType .strict S Γ t T') :
    Conv T T' := by
  induction h generalizing T' with
  | ref hr hc =>
    cases h' with
    | ref hr' hc' =>
      cases hr.symm.trans hr'
      exact hc.symm.trans hc'
  | const hS hc =>
    cases h' with
    | const hS' hc' =>
      cases hS.symm.trans hS'
      exact hc.symm.trans hc'
  | sort _ hc =>
    cases h' with
    | sort _ hc' => exact hc.symm.trans hc'
  | unit hc =>
    cases h' with
    | unit hc' => exact hc.symm.trans hc'
  | tt hc =>
    cases h' with
    | tt hc' => exact hc.symm.trans hc'
  | prod _ _ hc =>
    cases h' with
    | prod _ _ hc' => exact hc.symm.trans hc'
  | pair _ _ hc iha ihb =>
    cases h' with
    | pair ha hb hc' => exact hc.symm.trans (Conv.trans (.prod (iha ha) (ihb hb)) hc')
  | app _ _ hc ihf _ =>
    cases h' with
    | app hf _ hc' => exact hc.symm.trans (Conv.trans (.inst (ihf hf).pi_inj.2 .rfl) hc')
  | lam _ _ hc _ ihb =>
    cases h' with
    | lam _ hb hc' => exact hc.symm.trans (Conv.trans (.pi .rfl (ihb hb)) hc')
  | pi _ _ hc =>
    cases h' with
    | pi _ _ hc' => exact hc.symm.trans hc'
  | eq _ _ _ hc =>
    cases h' with
    | eq _ _ _ hc' => exact hc.symm.trans hc'
  | refl _ _ _ hc =>
    cases h' with
    | refl _ _ _ hc' => exact hc.symm.trans hc'
    | same hm => cases hm
  | same hm => cases hm
  | transport _ _ hd _ _ _ _ _ hc =>
    cases h' with
    | transport _ _ hd' _ _ _ _ _ hc' =>
      have hds := (hd.confluent hd').tuple_inj
      exact hc.symm.trans (Conv.trans (.apps .rfl (List.forall₂_reverse_iff.2 hds)) hc')
    | carried hm => cases hm
  | carried hm => cases hm

/-- The type and the sides of a typed equation. -/
lemma eq_inv {A l r : Nameless} (h : HasType m S Γ (.eq A l r) T) :
    HasType m S Γ A .sort ∧ HasType m S Γ l A ∧ HasType m S Γ r A := by
  cases h with
  | eq hA hl hr => exact ⟨hA, hl, hr⟩

/-- What the strict discipline knows of reflexivity. -/
lemma refl_inv {A a : Nameless} (h : HasType .strict S Γ (.refl A a) T) :
    HasType .strict S Γ A .sort ∧ HasType .strict S Γ a A := by
  generalize ht : Nameless.refl A a = t at h
  cases h with
  | refl _ hA ha =>
    cases ht
    exact ⟨hA, ha⟩
  | same hm => cases hm
  | _ => cases ht

/-- The components of a pair of a product type. -/
lemma pair_inv {a b A B : Nameless} (h : HasType m S Γ (.pair a b) (.prod A B)) :
    HasType m S Γ a A ∧ HasType m S Γ b B := by
  cases h with
  | pair ha hb hc => exact ⟨ha.conv hc.prod_inj.1, hb.conv hc.prod_inj.2⟩

/-- What the strict discipline knows of a transport. -/
lemma transport_inv {h s d p v : Nameless} (ht : HasType .strict S Γ (.transport h s d p v) T) :
    ∃ ss ds A, Reduces s (tuple ss) ∧ Reduces d (tuple ds) ∧ ss.length = ds.length ∧
      HasType .strict S Γ (tuple ss) A ∧
      HasType .strict S Γ d A ∧ HasType .strict S Γ p (.eq A s d) ∧
        HasType .strict S Γ v (h.apps ss.reverse) ∧
      Conv (h.apps ds.reverse) T := by
  cases ht with
  | transport _ hs hd hlen hss hdst hp hv hc => exact ⟨_, _, _, hs, hd, hlen, hss, hdst, hp, hv, hc⟩
  | carried hm => cases hm

/-- The components of a typed tuple are typed. -/
lemma tuple_inv {ts : List Nameless} (h : HasType m S Γ (tuple ts) T) :
    ∃ Ts, List.Forall₂ (HasType m S Γ) ts Ts ∧ Conv (tupleType Ts) T := by
  induction ts generalizing T with
  | nil =>
    cases h with
    | tt hc => exact ⟨[], .nil, hc⟩
  | cons t ts ih =>
    cases h with
    | pair ht hts hc =>
      obtain ⟨Ts, hTs, hconv⟩ := ih hts
      exact ⟨_ :: Ts, .cons ht hTs, Conv.trans (.prod .rfl hconv) hc⟩

/-- The components of a tuple of a tuple type. -/
lemma components_of_tuple {ts Ts : List Nameless} (h : HasType m S Γ (tuple ts) (tupleType Ts))
    (hlen : ts.length = Ts.length) : List.Forall₂ (HasType m S Γ) ts Ts := by
  induction ts generalizing Ts with
  | nil =>
    obtain rfl := List.length_eq_zero_iff.1 hlen.symm
    exact .nil
  | cons t ts ih =>
    cases Ts with
    | nil => cases hlen
    | cons U Us => exact .cons h.pair_inv.1 (ih h.pair_inv.2 (by simpa using hlen))

/-! ### References of typed terms -/

/-- A scope that covers the references of a term, seen from below a binder that it covers. -/
lemma isSome_of_push {A : Nameless} {r : Ref} (h : (Γ.push A r.succ).isSome) : (Γ r).isSome := by
  simpa [Scope.push] using h

/-- Under erasure every reference of a typed term has a type. -/
lemma isSome_of_occurs (h : HasType .erased S Γ t T) {r : Ref} (hr : t.Occurs r) :
    (Γ r).isSome := by
  induction h generalizing r with
  | ref hA _ =>
    obtain rfl := hr
    simp [hA]
  | const | sort | unit | tt => exact hr.elim
  | prod _ _ _ iha ihb | pair _ _ _ iha ihb | app _ _ _ iha ihb => exact hr.elim iha ihb
  | lam _ _ _ ihA ihb | pi _ _ _ ihA ihb => exact hr.elim ihA fun hr => isSome_of_push (ihb hr)
  | eq _ _ _ _ ihA ihl ihr => exact hr.elim ihA (·.elim ihl ihr)
  | refl hm | transport hm => cases hm
  | same _ _ _ iha => exact hr.elim False.elim iha
  | carried _ _ _ _ _ ihp ihv =>
    rcases hr with hr | hr | hr | hr | hr
    · exact hr.elim
    · exact hr.elim
    · exact hr.elim
    · exact ihp hr
    · exact ihv hr

end HasType

end UniqueEvidence
