/-
Inference up to names.

Inference opens binders with names of its own, so terms that differ in bound names, and contexts of
which one has more hypotheses, take it along different names.  Two lists of names keep count of
which name stands for which.

* `Term.SameBelow`: two terms say the same, the names of one list read for those of the other;
* `Context.Parallel`: names in the same places are declared with types that say the same.
  `Context.Parallel.push`: a binder may be opened on either side with any name that is new there;
* `Kernel.IgnoresNames`: an inference that finds, below parallel contexts, types that say the same;
* `Kernel.ignoresNames_inferAt`: **inference is one**, to the same depth;
* `Kernel.infer_up_to_names`: so **neither bound names nor further hypotheses change a type**.
-/
import UniqueEvidence.Proofs.EvidenceTyping
import UniqueEvidence.Proofs.SubjectReduction

namespace UniqueEvidence

open Nameless

/-! ### Renaming is injective -/

lemma Ref.capture_injective (x : Name) : Function.Injective (Ref.capture x) := by
  intro r s h
  by_cases hr : r = .free x <;> by_cases hs : s = .free x <;> simp_all [Ref.capture]

lemma Ref.lift_injective {ρ : Ref → Ref} (hρ : Function.Injective ρ) :
    Function.Injective (Ref.lift ρ) := by
  intro r s h
  rcases r.eq_top_or_succ with rfl | ⟨r, rfl⟩ <;> rcases s.eq_top_or_succ with rfl | ⟨s, rfl⟩ <;>
    simp_all [hρ.eq_iff]

/-- Terms that are equal after an injective renaming are equal: it can be undone. -/
lemma Nameless.rename_injective {ρ : Ref → Ref} (hρ : Function.Injective ρ) :
    Function.Injective (Nameless.rename ρ) := by
  have : Nonempty Ref := ⟨.top⟩
  obtain ⟨τ, hτ⟩ := hρ.hasLeftInverse
  have hid : (fun r => τ (ρ r)) = id := funext hτ
  exact Function.LeftInverse.injective (g := rename τ) fun t => by
    rw [rename_rename, hid, rename_id]

namespace Term

variable {xs ys : List Name} {t u : Term} {x y z : Name}

lemma captures_injective (names : List Name) : Function.Injective (captures names) := by
  induction names with
  | nil => exact fun _ _ h => h
  | cons x names ih => exact (Ref.lift_injective ih).comp (Ref.capture_injective x)

/-! ### Terms that say the same -/

/-- The terms say the same, the names of the first list read for the names of the second in the same
places. -/
def SameBelow (xs ys : List Name) (t u : Term) : Prop :=
  t.namelessUnder xs = u.namelessUnder ys

lemma SameBelow.symm (h : SameBelow xs ys t u) : SameBelow ys xs u t :=
  Eq.symm h

/-- Read for themselves, names leave equality up to bound names. -/
lemma sameBelow_self_iff : SameBelow xs xs t u ↔ t.nameless = u.nameless := by
  rw [SameBelow, namelessUnder_eq, namelessUnder_eq]
  exact (Nameless.rename_injective (captures_injective xs)).eq_iff

lemma sameBelow_of_closed (h : t.freeVars = []) : SameBelow xs ys t t := by
  rw [SameBelow, namelessUnder_eq, namelessUnder_eq, rename_of_closed (closed_nameless h),
    rename_of_closed (closed_nameless h)]

/-- The free names that are not among those below which a term stands. -/
lemma occurs_namelessUnder : (t.namelessUnder xs).Occurs (.free x) ↔ x ∈ t.freeVars ∧ x ∉ xs := by
  rw [namelessUnder_eq, occurs_rename]
  constructor
  · rintro ⟨n | y, hr, hx⟩
    · exact absurd hr (not_occurs_bound t n)
    · rw [captures_free, Ref.ofName] at hx
      split at hx
      · cases hx
      · rename_i hy
        cases hx
        exact ⟨occurs_nameless.1 hr, by simpa using hy⟩
  · rintro ⟨hx, hxs⟩
    refine ⟨.free x, occurs_nameless.2 hx, ?_⟩
    rw [captures_free, Ref.ofName, List.idxOf?_eq_none_iff.2 hxs]

/-- If one term is over the names it stands below, so is the other. -/
lemma SameBelow.over (h : SameBelow xs ys t u) (ht : t.freeVars ⊆ xs) : u.freeVars ⊆ ys := by
  intro y hy
  by_contra hys
  obtain ⟨hfree, hnot⟩ :=
    occurs_namelessUnder.1
      (h ▸ occurs_namelessUnder.2 ⟨hy, hys⟩ : (t.namelessUnder xs).Occurs (.free y))
  exact hnot (ht hfree)

/-- A name that does not occur counts as one more binder. -/
lemma namelessUnder_cons_of_not_mem (hz : z ∉ t.freeVars) :
    t.namelessUnder (z :: xs) = (t.namelessUnder xs).shift := by
  rw [namelessUnder_eq, namelessUnder_eq, shift, rename_rename, rename_eq_subst, rename_eq_subst]
  refine subst_congr fun r hr => ?_
  have hne : r ≠ .free z := by
    rintro rfl
    exact hz (occurs_nameless.1 hr)
  rw [captures, Ref.capture_of_ne hne, Ref.lift_succ]

lemma SameBelow.cons (h : SameBelow xs ys t u) (hx : x ∉ t.freeVars) (hy : y ∉ u.freeVars) :
    SameBelow (x :: xs) (y :: ys) t u := by
  rw [SameBelow, namelessUnder_cons_of_not_mem hx, namelessUnder_cons_of_not_mem hy, h]

/-- An opened body says below its new name what the body says below the binder. -/
lemma namelessUnder_opened (ctx : Context) (x : Name) (body : Term) (names : List Name) :
    (openBinder ctx x body).2.namelessUnder ((openBinder ctx x body).1 :: names) =
      body.namelessUnder (x :: names) := by
  have hcaptures : ∀ (t : Term) (z : Name),
      t.namelessUnder (z :: names) = (t.nameless.rename (Ref.capture z)).rename
        (Ref.lift (captures names)) := by
    intro t z
    rw [namelessUnder_eq, rename_rename]
    rfl
  rw [hcaptures, hcaptures, (openBinder_spec ctx x body).2]

/-! ### Forms of terms -/

lemma SameBelow.eq_sort (h : SameBelow xs ys sort u) : u = sort := by
  cases u <;> simp_all [SameBelow, namelessUnder]

lemma SameBelow.exists_pi {dom cod : Term} (h : SameBelow xs ys (pi x dom cod) u) :
    ∃ y dom' cod', u = pi y dom' cod' ∧ SameBelow xs ys dom dom' ∧
      SameBelow (x :: xs) (y :: ys) cod cod' := by
  cases u <;> simp_all [SameBelow, namelessUnder]

/-- The type and the body of a binder over some names. -/
lemma over_of_binder {ty body : Term} (h : ty.freeVars ++ body.freeVars.filter (· ≠ x) ⊆ xs) :
    ty.freeVars ⊆ xs ∧ body.freeVars ⊆ x :: xs := by
  rw [List.append_subset] at h
  refine ⟨h.1, fun y hy => ?_⟩
  by_cases hyx : y = x
  · exact hyx ▸ List.mem_cons_self
  · exact List.mem_cons_of_mem _ (h.2 (List.mem_filter.2 ⟨hy, by simpa using hyx⟩))

/-- Bodies of products at arguments that say the same. -/
lemma SameBelow.contract {body body' v v' : Term} (h : SameBelow (x :: xs) (y :: ys) body body')
    (hv : SameBelow xs ys v v') : SameBelow xs ys (body.subst x v) (body'.subst y v') := by
  rw [SameBelow] at *
  rw [namelessUnder_contract, namelessUnder_contract, h, hv]

lemma SameBelow.apps {as bs : List Term} (h : SameBelow xs ys t u)
    (has : List.Forall₂ (SameBelow xs ys) as bs) : SameBelow xs ys (t.apps as) (u.apps bs) := by
  induction has generalizing t u with
  | nil => exact h
  | cons ha _ ih =>
    refine ih ?_
    rw [SameBelow, namelessUnder, namelessUnder, h, ha]

lemma sameBelow_tupleType {types types' : List Term}
    (h : List.Forall₂ (SameBelow xs ys) types types') :
    SameBelow xs ys (tupleType types) (tupleType types') := by
  induction h with
  | nil => rfl
  | cons hty _ ih => exact congrArg₂ Nameless.prod hty ih

/-- Tuples that say the same have components that do. -/
lemma SameBelow.components {ts : List Term} (h : SameBelow xs ys t u)
    (ht : t.components = some ts) :
    ∃ us, u.components = some us ∧ List.Forall₂ (SameBelow xs ys) ts us := by
  induction t generalizing u ts with
  | tt =>
    obtain rfl : [] = ts := by simpa [Term.components] using ht
    cases u <;> simp_all [SameBelow, namelessUnder, Term.components]
  | pair a b _ ihb =>
    obtain ⟨bs, hbs, rfl⟩ := Option.map_eq_some_iff.1 ht
    cases u <;> simp only [SameBelow, namelessUnder, reduceCtorEq, Nameless.pair.injEq] at h
    obtain ⟨us, hus, hforall⟩ := ihb h.2 hbs
    exact ⟨_, by rw [Term.components, hus]; rfl, .cons h.1 hforall⟩
  | _ => cases ht

end Term

open Term (SameBelow)

/-! ### Parallel contexts -/

lemma Context.exists_lookup? {ctx : Context} {x : Name} (hx : x ∈ Binding.names ctx) :
    ∃ A, ctx.lookup? x = some A := by
  obtain ⟨b, hb, rfl⟩ := List.mem_map.1 hx
  have hfound : (ctx.find? (·.name == b.name)).isSome := List.find?_isSome.2 ⟨b, hb, by simp⟩
  obtain ⟨b', hb'⟩ := Option.isSome_iff_exists.1 hfound
  exact ⟨b'.ty, by rw [lookup?, hb']; rfl⟩

/-- Names in the same places are declared with types that say the same, and mention only names of
the lists. -/
def Context.Parallel (xs ys : List Name) (ctx ctx' : Context) : Prop :=
  List.Forall₂ (fun x y => ∃ A B, ctx.lookup? x = some A ∧ ctx'.lookup? y = some B ∧
    A.freeVars ⊆ xs ∧ SameBelow xs ys A B) xs ys

namespace Context.Parallel

variable {xs ys : List Name} {ctx ctx' : Context} (h : Parallel xs ys ctx ctx')
include h

lemma symm : Parallel ys xs ctx' ctx := by
  refine (List.Forall₂.flip h).imp ?_
  rintro y x ⟨A, B, hA, hB, hover, hsame⟩
  exact ⟨B, A, hB, hA, hsame.over hover, hsame.symm⟩

lemma subset : xs ⊆ Binding.names ctx := by
  intro x hx
  obtain ⟨y, -, A, B, hA, -⟩ := Kernel.exists_of_forall₂ h hx
  exact List.mem_map_of_mem (mem_of_lookup? hA)

/-- Names that say the same have types that say the same. -/
lemma lookup? {x y : Name} (hx : x ∈ xs) (hxy : SameBelow xs ys (.var x) (.var y)) :
    ∃ A B, ctx.lookup? x = some A ∧ ctx'.lookup? y = some B ∧ SameBelow xs ys A B := by
  have hat : ∀ {R : Name → Name → Prop} {xs ys : List Name}, List.Forall₂ R xs ys → x ∈ xs →
      Term.captures xs (.free x) = Term.captures ys (.free y) → R x y := by
    intro R xs ys hR hx hxy
    induction hR with
    | nil => cases hx
    | @cons a b as bs hab _ ih =>
      -- both are the names at the front, or neither is
      by_cases hxa : x = a <;> by_cases hyb : y = b <;>
        simp_all [Term.captures_cons_of_ne]
  rw [SameBelow, Term.namelessUnder, Term.namelessUnder, Nameless.ref.injEq, ← Term.captures_free,
    ← Term.captures_free] at hxy
  obtain ⟨A, B, hA, hB, -, hAB⟩ := hat h hx hxy
  exact ⟨A, B, hA, hB, hAB⟩

/-- **A binder is opened with any new name on either side.** -/
lemma push {x y : Name} {A B : Term} (hx : x ∉ Binding.names ctx) (hy : y ∉ Binding.names ctx')
    (hA : A.freeVars ⊆ xs) (hAB : SameBelow xs ys A B) :
    Parallel (x :: xs) (y :: ys) (⟨x, A⟩ :: ctx) (⟨y, B⟩ :: ctx') := by
  have hnew : ∀ {t : Term}, t.freeVars ⊆ xs → x ∉ t.freeVars :=
    fun ht hmem => hx (h.subset (ht hmem))
  have hnew' : ∀ {t : Term}, t.freeVars ⊆ ys → y ∉ t.freeVars :=
    fun ht hmem => hy (h.symm.subset (ht hmem))
  have hkeep : ∀ {t u : Term}, t.freeVars ⊆ xs → SameBelow xs ys t u →
      SameBelow (x :: xs) (y :: ys) t u :=
    fun ht htu => htu.cons (hnew ht) (hnew' (htu.over ht))
  refine .cons ⟨A, B, lookup?_cons_self .., lookup?_cons_self ..,
    List.subset_cons_of_subset _ hA, hkeep hA hAB⟩ ?_
  refine List.Forall₂.imp ?_ h
  rintro x' y' ⟨A', B', hA', hB', hover, hsame⟩
  have hne : x' ≠ x := fun heq => hx (heq ▸ List.mem_map_of_mem (mem_of_lookup? hA'))
  have hne' : y' ≠ y := fun heq => hy (heq ▸ List.mem_map_of_mem (mem_of_lookup? hB'))
  exact ⟨A', B', (lookup?_cons_of_ne A hne).trans hA', (lookup?_cons_of_ne B hne').trans hB',
    List.subset_cons_of_subset _ hover, hkeep hover hsame⟩

end Context.Parallel

/-! ### Inference -/

namespace Kernel

/-- Below parallel contexts, the inference finds types that say the same for terms that do. -/
def IgnoresNames (infer : Inference) : Prop :=
  ∀ {xs ys ctx ctx' t t' T}, Context.Parallel xs ys ctx ctx' → t.freeVars ⊆ xs →
    SameBelow xs ys t t' → infer ctx t = .ok T → ∃ T', infer ctx' t' = .ok T' ∧ SameBelow xs ys T T'

variable {k : Kernel} {infer : Inference} {xs ys : List Name} {ctx ctx' : Context}
  {t t' ty ty' T : Term}

/-- To the same depth, terms that say the same have normal forms that do. -/
lemma normalize_of_sameBelow (h : SameBelow xs ys t t') (hT : k.normalize t = .ok T) :
    ∃ T', k.normalize t' = .ok T' ∧ SameBelow xs ys T T' := by
  obtain ⟨T', hT', hsame⟩ := (normalize_eq_ok.1 hT).under h
  exact ⟨T', normalize_eq_ok.2 hT', hsame⟩

lemma convertible_of_sameBelow (h : SameBelow xs ys t t') (hty : SameBelow xs ys ty ty')
    (hconv : k.convertible t ty = .ok true) : k.convertible t' ty' = .ok true := by
  obtain ⟨u, v, hu, hv, huv⟩ := convertible_eq_true.1 hconv
  obtain ⟨u', hu', hsame⟩ := hu.under h
  obtain ⟨v', hv', hsame'⟩ := hv.under hty
  have hbelow : SameBelow ys ys u' v' :=
    hsame.symm.trans ((Term.sameBelow_self_iff.2 huv : SameBelow xs xs u v).trans hsame')
  exact convertible_eq_true.2 ⟨u', v', hu', hv', Term.sameBelow_self_iff.1 hbelow⟩

/-- The type of a transport is put together from these steps. -/
lemma typeOfTransport_of_steps {head src dst proof value src' dst' V : Term}
    {ss ds types : List Term} (hsrc : k.normalize src = .ok src')
    (hdst : k.normalize dst = .ok dst') (hss : src'.components = some ss)
    (hds : dst'.components = some ds) (hlen : ss.length = ds.length)
    (htypes : List.Forall₂ (fun s ty => infer ctx s = .ok ty) ss types)
    (hcdst : k.checkBy infer ctx dst (tupleType types) = .ok ())
    (hcproof : k.checkBy infer ctx proof (.eq (tupleType types) src dst) = .ok ())
    (hV : k.normalize (head.apps ss.reverse) = .ok V)
    (hcvalue : k.checkBy infer ctx value V = .ok ())
    (hT : k.normalize (head.apps ds.reverse) = .ok T) :
    k.typeOfTransport infer ctx head src dst proof value = .ok T := by
  have hlenTypes := htypes.length_eq
  rw [← familyAt_zipWith hlenTypes] at hV
  rw [← familyAt_zipWith (hlen ▸ hlenTypes)] at hT
  rw [typeOfTransport, hsrc, hdst]
  simp only [Except.ok_bind, hss, hds, if_pos hlen, Except.mapM_eq_ok.2 htypes, hcdst,
    hcproof, hV, hcvalue, hT]

namespace IgnoresNames

variable (hinfer : IgnoresNames infer) (hctx : Context.Parallel xs ys ctx ctx')
include hinfer hctx

lemma expectType (ht : t.freeVars ⊆ xs) (h : SameBelow xs ys t t')
    (hok : expectTypeBy infer ctx t = .ok ()) : expectTypeBy infer ctx' t' = .ok () := by
  obtain ⟨T, hT, hsame⟩ := hinfer hctx ht h (expectTypeBy_eq_ok.1 hok)
  rw [hsame.eq_sort] at hT
  exact expectTypeBy_eq_ok.2 hT

lemma check (ht : t.freeVars ⊆ xs) (h : SameBelow xs ys t t') (hty : SameBelow xs ys ty ty')
    (hok : k.checkBy infer ctx t ty = .ok ()) : k.checkBy infer ctx' t' ty' = .ok () := by
  obtain ⟨T, hT, hconv⟩ := checkBy_eq_ok.1 hok
  obtain ⟨T', hT', hsame⟩ := hinfer hctx ht h hT
  exact checkBy_eq_ok.2 ⟨T', hT', convertible_of_sameBelow hsame hty hconv⟩

/-- Along a list of terms. -/
lemma each {ts ts' types : List Term} (hts : ∀ t ∈ ts, t.freeVars ⊆ xs)
    (h : List.Forall₂ (SameBelow xs ys) ts ts')
    (htypes : List.Forall₂ (fun t ty => infer ctx t = .ok ty) ts types) :
    ∃ types', List.Forall₂ (fun t ty => infer ctx' t = .ok ty) ts' types' ∧
      List.Forall₂ (SameBelow xs ys) types types' := by
  induction htypes generalizing ts' with
  | nil =>
    cases h
    exact ⟨[], .nil, .nil⟩
  | @cons t T ts types hT _ ih =>
    obtain - | ⟨hfirst, hrest⟩ := h
    obtain ⟨T', hT', hsame⟩ := hinfer hctx (hts t List.mem_cons_self) hfirst hT
    obtain ⟨types', htypes', hsames⟩ := ih (fun t' ht' => hts t' (List.mem_cons_of_mem _ ht')) hrest
    exact ⟨T' :: types', .cons hT' htypes', .cons hsame hsames⟩

lemma transport {head head' src src' dst dst' proof proof' value value' : Term}
    (ht : (Term.transport head src dst proof value).freeVars ⊆ xs)
    (h : SameBelow xs ys (.transport head src dst proof value)
      (.transport head' src' dst' proof' value'))
    (hT : k.typeOfTransport infer ctx head src dst proof value = .ok T) :
    ∃ T', k.typeOfTransport infer ctx' head' src' dst' proof' value' = .ok T' ∧
      SameBelow xs ys T T' := by
  obtain ⟨src₀, dst₀, ss, ds, types, V, hsrc, hdst, hss, hds, hlen, htypes, hcdst,
      hcproof, hV, hcvalue, hT⟩ :=
    typeOfTransport_eq_ok hT
  simp only [Term.freeVars, List.append_subset] at ht
  obtain ⟨⟨⟨⟨hhead, hsrcOver⟩, hdstOver⟩, hproofOver⟩, hvalueOver⟩ := ht
  simp only [SameBelow, Term.namelessUnder, Nameless.transport.injEq] at h
  obtain ⟨hheads, hsrcs, hdsts, hproofs, hvalues⟩ := h
  -- the endpoints, and the types of their components
  obtain ⟨src₁, hsrc', hsrcs₀⟩ := normalize_of_sameBelow (k := k) hsrcs hsrc
  obtain ⟨dst₁, hdst', hdsts₀⟩ := normalize_of_sameBelow (k := k) hdsts hdst
  obtain ⟨ss', hss', hparts⟩ := hsrcs₀.components hss
  obtain ⟨ds', hds', hparts'⟩ := hdsts₀.components hds
  have hssOver : ∀ s ∈ ss, s.freeVars ⊆ xs := fun s hs x hx =>
    hsrcOver (mem_freeVars_of_normalize hsrc (mem_freeVars_of_components hss hs hx))
  obtain ⟨types', htypes', hsames⟩ := hinfer.each hctx hssOver hparts htypes
  have htuple := Term.sameBelow_tupleType hsames
  have hequation :
      SameBelow xs ys (.eq (tupleType types) src dst) (.eq (tupleType types') src' dst') := by
    rw [SameBelow, Term.namelessUnder, Term.namelessUnder, htuple, hsrcs, hdsts]
  -- the family at either endpoint
  obtain ⟨V', hV', hVs⟩ :=
    normalize_of_sameBelow (Term.SameBelow.apps hheads (List.rel_reverse hparts)) hV
  obtain ⟨T', hT', hTs⟩ :=
    normalize_of_sameBelow (Term.SameBelow.apps hheads (List.rel_reverse hparts')) hT
  have hlen' : ss'.length = ds'.length := by rw [← hparts.length_eq, hlen, hparts'.length_eq]
  exact ⟨T', typeOfTransport_of_steps hsrc' hdst' hss' hds' hlen' htypes'
    (hinfer.check hctx hdstOver hdsts htuple hcdst)
    (hinfer.check hctx hproofOver hproofs hequation hcproof) hV'
    (hinfer.check hctx hvalueOver hvalues hVs hcvalue) hT', hTs⟩

/-- The body of a binder is taken up below the name that either context opens it with. -/
lemma body {x x' : Name} {body body' : Term} (htyOver : ty.freeVars ⊆ xs)
    (hty : SameBelow xs ys ty ty') (hover : body.freeVars ⊆ x :: xs)
    (h : SameBelow (x :: xs) (x' :: ys) body body')
    (hT : infer (⟨(openBinder ctx x body).1, ty⟩ :: ctx) (openBinder ctx x body).2 = .ok T) :
    ∃ T', infer (⟨(openBinder ctx' x' body').1, ty'⟩ :: ctx')
      (openBinder ctx' x' body').2 = .ok T' ∧
      SameBelow ((openBinder ctx x body).1 :: xs) ((openBinder ctx' x' body').1 :: ys) T T' := by
  have hpush :=
    hctx.push (openBinder_spec ctx x body).1 (openBinder_spec ctx' x' body').1 htyOver hty
  have hopened := Term.namelessUnder_opened ctx x body xs
  have hopened' := Term.namelessUnder_opened ctx' x' body' ys
  exact hinfer hpush (Term.SameBelow.over (Eq.symm hopened) hover)
    (hopened.trans (Eq.trans h hopened'.symm)) hT

lemma typeOf (hclosed : k.env.Closed) (ht : t.freeVars ⊆ xs) (h : SameBelow xs ys t t')
    (hT : k.typeOf infer ctx t = .ok T) :
    ∃ T', k.typeOf infer ctx' t' = .ok T' ∧ SameBelow xs ys T T' := by
  cases t with
  | var x =>
    cases t' <;> simp only [SameBelow, Term.namelessUnder, reduceCtorEq] at h
    obtain ⟨A, B, hA, hB, hAB⟩ := hctx.lookup? (ht List.mem_cons_self) h
    simp only [Kernel.typeOf, hA] at hT
    obtain rfl := Except.ok.inj hT
    exact ⟨B, by simp only [Kernel.typeOf, hB]; rfl, hAB⟩
  | const c =>
    cases t' <;> simp only [SameBelow, Term.namelessUnder, reduceCtorEq, Nameless.const.injEq] at h
    subst h
    have hover : T.freeVars = [] := by
      rw [Kernel.typeOf] at hT
      split at hT
      · rename_i U hU
        obtain rfl := Except.ok.inj hT
        exact hclosed c U hU
      · cases hT
    exact ⟨T, hT, Term.sameBelow_of_closed hover⟩
  | sort | unit | tt =>
    cases t' <;> simp only [SameBelow, Term.namelessUnder, reduceCtorEq] at h
    obtain rfl := Except.ok.inj hT
    exact ⟨_, rfl, rfl⟩
  | prod a b =>
    cases t' <;> simp only [SameBelow, Term.namelessUnder, reduceCtorEq, Nameless.prod.injEq] at h
    simp only [Kernel.typeOf, Except.bind_eq_ok] at hT ⊢
    simp only [Term.freeVars, List.append_subset] at ht
    obtain ⟨⟨⟩, ha, ⟨⟩, hb, hT⟩ := hT
    obtain rfl := Except.ok.inj hT
    exact ⟨_, ⟨(), hinfer.expectType hctx ht.1 h.1 ha, (),
      hinfer.expectType hctx ht.2 h.2 hb, rfl⟩, rfl⟩
  | pair a b =>
    cases t' <;> simp only [SameBelow, Term.namelessUnder, reduceCtorEq, Nameless.pair.injEq] at h
    simp only [Kernel.typeOf, Except.bind_eq_ok] at hT ⊢
    simp only [Term.freeVars, List.append_subset] at ht
    obtain ⟨A, hA, B, hB, hT⟩ := hT
    obtain rfl := Except.ok.inj hT
    obtain ⟨A', hA', hAs⟩ := hinfer hctx ht.1 h.1 hA
    obtain ⟨B', hB', hBs⟩ := hinfer hctx ht.2 h.2 hB
    exact ⟨_, ⟨A', hA', B', hB', rfl⟩, congrArg₂ Nameless.prod hAs hBs⟩
  | app fn arg =>
    cases t' <;> simp only [SameBelow, Term.namelessUnder, reduceCtorEq, Nameless.app.injEq] at h
    simp only [Kernel.typeOf, Except.bind_eq_ok] at hT ⊢
    simp only [Term.freeVars, List.append_subset] at ht
    obtain ⟨F, hF, hT⟩ := hT
    obtain ⟨F', hF', hFs⟩ := hinfer hctx ht.1 h.1 hF
    split at hT
    · obtain ⟨⟨⟩, harg, hT⟩ := Except.bind_eq_ok.1 hT
      obtain rfl := Except.ok.inj hT
      obtain ⟨x', dom', cod', rfl, hdom, hcod⟩ := hFs.exists_pi
      exact ⟨_, ⟨_, hF', Except.bind_eq_ok.2 ⟨(), hinfer.check hctx ht.2 h.2 hdom harg, rfl⟩⟩,
        hcod.contract h.2⟩
    · cases hT
  | pi x A b =>
    cases t' <;> simp only [SameBelow, Term.namelessUnder, reduceCtorEq, Nameless.pi.injEq] at h
    simp only [Kernel.typeOf, Except.bind_eq_ok] at hT ⊢
    obtain ⟨hA, hb⟩ := Term.over_of_binder ht
    obtain ⟨⟨⟩, hsort, ⟨⟩, hbody, hT⟩ := hT
    obtain rfl := Except.ok.inj hT
    obtain ⟨T', hT', hsame⟩ := hinfer.body hctx hA h.1 hb h.2 (expectTypeBy_eq_ok.1 hbody)
    rw [hsame.eq_sort] at hT'
    exact ⟨_, ⟨(), hinfer.expectType hctx hA h.1 hsort, (), expectTypeBy_eq_ok.2 hT', rfl⟩, rfl⟩
  | lam x A b =>
    cases t' <;> simp only [SameBelow, Term.namelessUnder, reduceCtorEq, Nameless.lam.injEq] at h
    simp only [Kernel.typeOf, Except.bind_eq_ok] at hT ⊢
    obtain ⟨hA, hb⟩ := Term.over_of_binder ht
    obtain ⟨⟨⟩, hsort, B, hB, hT⟩ := hT
    obtain rfl := Except.ok.inj hT
    obtain ⟨B', hB', hBs⟩ := hinfer.body hctx hA h.1 hb h.2 hB
    exact ⟨_, ⟨(), hinfer.expectType hctx hA h.1 hsort, B', hB', rfl⟩,
      congrArg₂ Nameless.pi h.1 hBs⟩
  | eq A l r =>
    cases t' <;> simp only [SameBelow, Term.namelessUnder, reduceCtorEq, Nameless.eq.injEq] at h
    simp only [Kernel.typeOf, Except.bind_eq_ok] at hT ⊢
    simp only [Term.freeVars, List.append_subset] at ht
    obtain ⟨⟨⟩, hA, ⟨⟩, hl, ⟨⟩, hr, hT⟩ := hT
    obtain rfl := Except.ok.inj hT
    exact ⟨_, ⟨(), hinfer.expectType hctx ht.1.1 h.1 hA, (),
      hinfer.check hctx ht.1.2 h.2.1 h.1 hl, (), hinfer.check hctx ht.2 h.2.2 h.1 hr, rfl⟩, rfl⟩
  | refl A v =>
    cases t' <;> simp only [SameBelow, Term.namelessUnder, reduceCtorEq, Nameless.refl.injEq] at h
    simp only [Kernel.typeOf, Except.bind_eq_ok] at hT ⊢
    simp only [Term.freeVars, List.append_subset] at ht
    obtain ⟨⟨⟩, hA, ⟨⟩, hv, hT⟩ := hT
    obtain rfl := Except.ok.inj hT
    refine ⟨_, ⟨(), hinfer.expectType hctx ht.1 h.1 hA, (),
      hinfer.check hctx ht.2 h.2 h.1 hv, rfl⟩, ?_⟩
    rw [SameBelow, Term.namelessUnder, Term.namelessUnder, h.1, h.2]
  | transport head src dst proof value =>
    cases t' with
    | transport => exact hinfer.transport hctx ht h hT
    | _ => cases h

end IgnoresNames

/-- **Inference finds the same, whatever the names are**, and to the same depth. -/
theorem ignoresNames_inferAt (k : Kernel) (hclosed : k.env.Closed) (depth : Nat) :
    IgnoresNames (k.inferAt depth) := by
  induction depth with
  | zero =>
    intro xs ys ctx ctx' t t' T _ _ _ h
    cases h
  | succ depth ih =>
    intro xs ys ctx ctx' t t' T hctx ht h hT
    obtain ⟨U, hU, hT⟩ := Except.bind_eq_ok.1 hT
    obtain ⟨U', hU', hUs⟩ := IgnoresNames.typeOf ih hctx hclosed ht h hU
    obtain ⟨T', hT', hTs⟩ := normalize_of_sameBelow hUs hT
    exact ⟨T', Except.bind_eq_ok.2 ⟨U', hU', hT'⟩, hTs⟩

/-! ### Bound names and further hypotheses -/

/-- Two computations that are given a depth: they return to the same depths, and what they return,
to whatever depths, is equal up to bound names. -/
structure SameType (x y : Nat → Except Fault Term) : Prop where
  returns : ∀ depth, (∃ T, x depth = .ok T) ↔ ∃ T, y depth = .ok T
  alphaEq : ∀ m n T T', x m = .ok T → y n = .ok T' → T.alphaEq T' = true

/-- The depth does not change the type of a term. -/
lemma nameless_eq_of_infer (hclosed : k.env.Closed)
    (hmentions : ∀ b ∈ ctx, b.ty.freeVars ⊆ Binding.names ctx) (ht : t.freeVars ⊆ Binding.names ctx)
    {m n : Nat} {T' : Term} (hT : Kernel.infer { k with depth := m } ctx t = .ok T)
    (hT' : Kernel.infer { k with depth := n } ctx t = .ok T') : T.nameless = T'.nameless := by
  have hscoped : ctx.Scoped .strict := fun b hb x hx => hmentions b hb (Term.occurs_nameless.1 hx)
  have hpermits : ctx.Permits .strict t := fun x hx => ht (Term.occurs_nameless.1 hx)
  have htyped := inferAt_sound { k with depth := m } hclosed .strict m hscoped hpermits hT
  have htyped' := inferAt_sound { k with depth := n } hclosed .strict n hscoped hpermits hT'
  exact (htyped.unique htyped').eq_of_normal (isNormal_of_inferAt hT) (isNormal_of_inferAt hT')

/-- A context whose types mention only its names, beside one that declares these names alike. -/
lemma sameType_of_lookup? (hclosed : k.env.Closed)
    (hmentions : ∀ b ∈ ctx, b.ty.freeVars ⊆ Binding.names ctx) (ht : t.freeVars ⊆ Binding.names ctx)
    (hdeclares : ∀ x ∈ Binding.names ctx, ctx'.lookup? x = ctx.lookup? x)
    (h : t.nameless = t'.nameless) :
    SameType (fun depth => Kernel.infer { k with depth } ctx t) fun depth =>
      Kernel.infer { k with depth } ctx' t' := by
  have hctx : Context.Parallel (Binding.names ctx) (Binding.names ctx) ctx ctx' := by
    refine List.forall₂_same.2 fun x hx => ?_
    obtain ⟨A, hA⟩ := Context.exists_lookup? hx
    exact ⟨A, A, hA, (hdeclares x hx).trans hA, hmentions _ (Context.mem_of_lookup? hA), rfl⟩
  have hsame : SameBelow (Binding.names ctx) (Binding.names ctx) t t' := Term.sameBelow_self_iff.2 h
  have hback : ∀ {depth : Nat} {T' : Term}, Kernel.infer { k with depth } ctx' t' = .ok T' →
      ∃ T, Kernel.infer { k with depth } ctx t = .ok T ∧ T'.nameless = T.nameless := by
    intro depth T' hT'
    obtain ⟨T, hT, hTs⟩ :=
      ignoresNames_inferAt { k with depth } hclosed depth hctx.symm (hsame.over ht) hsame.symm hT'
    exact ⟨T, hT, Term.sameBelow_self_iff.1 hTs⟩
  refine ⟨fun depth => ⟨fun ⟨T, hT⟩ => ?_, fun ⟨T', hT'⟩ => ?_⟩, fun m n T T' hT hT' => ?_⟩
  · obtain ⟨T', hT', -⟩ := ignoresNames_inferAt { k with depth } hclosed depth hctx ht hsame hT
    exact ⟨T', hT'⟩
  · obtain ⟨T, hT, -⟩ := hback hT'
    exact ⟨T, hT⟩
  · obtain ⟨T₀, hT₀, heq⟩ := hback hT'
    rw [Term.alphaEq_iff, heq]
    exact nameless_eq_of_infer hclosed hmentions ht hT hT₀

/-- **Types depend neither on bound names nor on further hypotheses.**  Let declared types be
closed, and let the types of a context and a term mention only names of the context.  Then a term
that is equal to it up to bound names has a type, to whatever depth, exactly if the term has one,
and the two types are equal up to bound names.  The same holds of the term itself in the context
with one more hypothesis, whatever its type, under a name that the context does not have: also if
the term binds this name. -/
theorem infer_up_to_names (k : Kernel) (hclosed : k.env.Closed) (ctx : Context)
    (hmentions : ∀ b ∈ ctx, b.ty.freeVars ⊆ Binding.names ctx) (a : Term)
    (ha : a.freeVars ⊆ Binding.names ctx) : (∀ b : Term, a.alphaEq b = true →
      SameType (fun depth => { k with depth }.infer ctx a) fun depth =>
        { k with depth }.infer ctx b) ∧
    ∀ (y : Name) (U : Term), y ∉ Binding.names ctx →
      SameType (fun depth => { k with depth }.infer ctx a) fun depth =>
        { k with depth }.infer (⟨y, U⟩ :: ctx) a := by
  refine ⟨fun b hab => ?_, fun y U hy => ?_⟩
  · exact sameType_of_lookup? hclosed hmentions ha (fun _ _ => rfl) (Term.alphaEq_iff.1 hab)
  · have hdeclares : ∀ x ∈ Binding.names ctx, Context.lookup? (⟨y, U⟩ :: ctx) x = ctx.lookup? x :=
        fun x hx =>
      Context.lookup?_cons_of_ne U fun hxy => hy (hxy ▸ hx)
    exact sameType_of_lookup? hclosed hmentions ha hdeclares rfl

end Kernel

namespace Sample

/-- The function of `carriedBack` with other bound names, one of them that of the tree it is applied
to. -/
def carriedRenamed : Term :=
  .app (.lam "x" (.const "shape") (.lam "z" (.app (.const "S") (.var "x"))
      (.transport (.const "S") (.pair (.var "x") .tt) (.pair (.var "x") .tt)
        (.refl (.prod (.const "shape") .unit) (.pair (.var "x") .tt)) (.var "z"))))
    (.var "x")

end Sample

/-- With other bound names, and beside a hypothesis of the name `w` that the function binds,
evidence is carried by a function of the same type, in which a binder has another name each time. -/
theorem Kernel.infer_up_to_names_sample :
    (Sample.kernel .default).infer Sample.oneTree Sample.carriedBack =
      .ok (.pi "w" (.app (.const "S") (.var "x")) (.app (.const "S") (.var "x"))) ∧
    (∃ T, (Sample.kernel .default).infer Sample.oneTree Sample.carriedRenamed = .ok T ∧
      (Term.pi "w" (.app (.const "S") (.var "x")) (.app (.const "S") (.var "x"))).alphaEq T =
        true) ∧
    ∃ T, (Sample.kernel .default).infer (⟨"w", .const "shape"⟩ :: Sample.oneTree)
      Sample.carriedBack = .ok T ∧
      (Term.pi "w" (.app (.const "S") (.var "x")) (.app (.const "S") (.var "x"))).alphaEq
        T = true := by
  have hinfer : (Sample.kernel .default).infer Sample.oneTree Sample.carriedBack =
      .ok (.pi "w" (.app (.const "S") (.var "x")) (.app (.const "S") (.var "x"))) :=
    Except.toOption_eq_some.1 (by decide +kernel)
  have henv : (Sample.kernel .default).env.Scoped :=
    ⟨by decide, by decide, by decide, by decide, by decide⟩
  obtain ⟨hrenamed, hweakened⟩ := infer_up_to_names (Sample.kernel .default) henv.closed
    Sample.oneTree (by decide) Sample.carriedBack (by decide)
  have hsame := hrenamed Sample.carriedRenamed (by decide)
  have hsame' := hweakened "w" (.const "shape") (by decide)
  obtain ⟨T, hT⟩ := (hsame.returns 40).1 ⟨_, hinfer⟩
  obtain ⟨T', hT'⟩ := (hsame'.returns 40).1 ⟨_, hinfer⟩
  exact ⟨hinfer, ⟨T, hT, hsame.alphaEq 40 40 _ _ hinfer hT⟩, T', hT',
    hsame'.alphaEq 40 40 _ _ hinfer hT'⟩

end UniqueEvidence
