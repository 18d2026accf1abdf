/-
Terms without the universe, and terms without what inference does not check.

* `Nameless.SortFree`: the universe does not occur.  Reduction and substitution keep this;
* `Nameless.erase`: a transport forgets its head and endpoints, and reflexivity its type.  Of a
  transport only the proof and the value compute, so erasure commutes with substitution and keeps
  reductions.
-/
import UniqueEvidence.Proofs.Reduction

namespace UniqueEvidence

namespace Nameless

/-! ### Terms without the universe -/

/-- The universe does not occur in the term. -/
@[grind =]
def SortFree : Nameless → Prop
  | ref _ | const _ | unit | tt => True
  | sort => False
  | app a b | lam a b | pi a b | prod a b | pair a b | refl a b => a.SortFree ∧ b.SortFree
  | eq A l r => A.SortFree ∧ l.SortFree ∧ r.SortFree
  | transport h s d p v => h.SortFree ∧ s.SortFree ∧ d.SortFree ∧ p.SortFree ∧ v.SortFree

@[simp] lemma sortFree_rename {t : Nameless} {ρ : Ref → Ref} :
    (t.rename ρ).SortFree ↔ t.SortFree := by
  induction t generalizing ρ <;> simp_all [rename, SortFree]

lemma SortFree.up {b : Nameless} {σ : Ref → Nameless}
    (h : ∀ r : Ref, b.Occurs r.succ → (σ r).SortFree) :
    ∀ r, b.Occurs r → (Nameless.up σ r).SortFree := by
  intro r hr
  rcases r.eq_top_or_succ with rfl | ⟨r, rfl⟩
  · trivial
  · simpa [shift] using h r hr

lemma SortFree.subst {t : Nameless} {σ : Ref → Nameless} (ht : t.SortFree)
    (h : ∀ r, t.Occurs r → (σ r).SortFree) : (t.subst σ).SortFree := by
  induction t generalizing σ with
  | ref r => exact h r rfl
  | sort => exact ht
  | const | unit | tt => trivial
  | app a b iha ihb | prod a b iha ihb | pair a b iha ihb | refl a b iha ihb =>
    exact ⟨iha ht.1 fun r hr => h r (.inl hr), ihb ht.2 fun r hr => h r (.inr hr)⟩
  | lam A b ihA ihb | pi A b ihA ihb =>
    exact ⟨ihA ht.1 fun r hr => h r (.inl hr), ihb ht.2 (up fun r hr => h r (.inr hr))⟩
  | eq A l r ihA ihl ihr =>
    exact ⟨ihA ht.1 fun r hr => h r (.inl hr), ihl ht.2.1 fun r hr => h r (.inr (.inl hr)),
      ihr ht.2.2 fun r hr => h r (.inr (.inr hr))⟩
  | transport x s d p v ihx ihs ihd ihp ihv =>
    obtain ⟨hx, hs, hd, hp, hv⟩ := ht
    exact ⟨ihx hx fun r hr => h r (.inl hr), ihs hs fun r hr => h r (.inr (.inl hr)),
      ihd hd fun r hr => h r (.inr (.inr (.inl hr))), ihp hp fun r hr =>
      h r (.inr (.inr (.inr (.inl hr)))), ihv hv fun r hr => h r (.inr (.inr (.inr (.inr hr))))⟩

lemma SortFree.inst {b a : Nameless} (hb : b.SortFree) (ha : a.SortFree) : (b.inst a).SortFree := by
  refine hb.subst fun r _ => ?_
  rcases r.eq_top_or_succ with rfl | ⟨r, rfl⟩
  · exact ha
  · simp [SortFree]

lemma SortFree.par {t u : Nameless} (ht : t.SortFree) (h : Par t u) : u.SortFree := by
  induction h with
  | beta A _ _ ihb iha => exact (ihb ht.1.2).inst (iha ht.2)
  | cancel h s d A a _ ihv => exact ihv ht.2.2.2.2
  | _ => simp_all [SortFree]

lemma SortFree.reduces {t u : Nameless} (ht : t.SortFree) (h : Reduces t u) : u.SortFree := by
  induction h with
  | refl => exact ht
  | tail _ hstep ih => exact ih.par hstep

lemma sortFree_apps {f : Nameless} {as : List Nameless} :
    (f.apps as).SortFree ↔ f.SortFree ∧ ∀ a ∈ as, a.SortFree := by
  induction as generalizing f with
  | nil => simp
  | cons a as ih => simp [ih, SortFree, and_assoc]

lemma sortFree_tuple {ts : List Nameless} : (tuple ts).SortFree ↔ ∀ t ∈ ts, t.SortFree := by
  induction ts with
  | nil => simp [SortFree]
  | cons t ts ih => simp [SortFree, ih]

/-! ### Erasure of what does not compute -/

/-- The term with transports that have only a proof and a value, and reflexivity only a value. -/
@[grind =]
def erase : Nameless → Nameless
  | app f a => app f.erase a.erase
  | lam A b => lam A.erase b.erase
  | pi A B => pi A.erase B.erase
  | prod a b => prod a.erase b.erase
  | pair a b => pair a.erase b.erase
  | eq A l r => eq A.erase l.erase r.erase
  | refl _ a => refl tt a.erase
  | transport _ _ _ p v => transport tt tt tt p.erase v.erase
  | t => t

lemma erase_rename (t : Nameless) (ρ : Ref → Ref) : (t.rename ρ).erase = t.erase.rename ρ := by
  induction t generalizing ρ <;> simp_all [rename, erase]

lemma erase_up (σ : Ref → Nameless) : (fun r => (up σ r).erase) = up fun r => (σ r).erase :=
  ext_ref rfl fun r => by simp [shift, erase_rename]

lemma erase_subst (t : Nameless) (σ : Ref → Nameless) :
    (t.subst σ).erase = t.erase.subst fun r => (σ r).erase := by
  induction t generalizing σ <;> simp_all [subst, erase, erase_up]

lemma erase_inst (b a : Nameless) : (b.inst a).erase = b.erase.inst a.erase := by
  rw [inst, erase_subst, inst]
  congr 1
  exact ext_ref (by simp) fun r => by simp [erase]

lemma Par.erase {t u : Nameless} (h : Par t u) : Par t.erase u.erase := by
  induction h with
  | beta A _ _ ihb iha =>
    rw [erase_inst]
    exact .beta _ ihb iha
  | cancel h s d A a _ ihv => exact .cancel _ _ _ _ _ ihv
  | refl _ _ _ iha => exact .refl .rfl iha
  | transport _ _ _ _ _ _ _ _ ihp ihv => exact .transport .rfl .rfl .rfl ihp ihv
  | _ => constructor <;> assumption

lemma Reduces.erase {t u : Nameless} (h : Reduces t u) : Reduces t.erase u.erase :=
  h.map Par.erase

lemma Conv.erase {t u : Nameless} (h : Conv t u) : Conv t.erase u.erase :=
  h.map Par.erase

lemma SortFree.erase {t : Nameless} (h : t.SortFree) : t.erase.SortFree := by
  induction t <;> simp_all [Nameless.erase, SortFree]

lemma occurs_of_erase {t : Nameless} {r : Ref} (h : t.erase.Occurs r) : t.Occurs r := by
  induction t generalizing r <;> simp_all [erase, Occurs] <;> grind

lemma erase_tuple (ts : List Nameless) : (tuple ts).erase = tuple (ts.map erase) := by
  induction ts with
  | nil => rfl
  | cons t ts ih => simp [erase, ih]

end Nameless

end UniqueEvidence
