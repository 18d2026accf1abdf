/-
Constructors with fresh binders.

Freshening renames by way of temporary names, `#0`, `#1` and so on.  As long as no binder has such a
name, it is a simultaneous renaming.

* `IsRenaming.nameless_renameAll`: **renaming through temporary names is simultaneous renaming**;
* `names_freshenBinders`: the names of fresh binders are fresh, one after the other;
* `freshenBinders_spec`: **arguments of the binders are arguments of the fresh binders**, under the
  assignment that gives the fresh names what the old ones had.
-/
import UniqueEvidence.Kernel.Case
import UniqueEvidence.Proofs.Spine
import UniqueEvidence.Proofs.Telescope

namespace UniqueEvidence

open Nameless

/-! ### Temporary names -/

/-- The text of the name starts as that of a temporary name. -/
def Name.StartsWithHash (x : Name) : Prop :=
  x.plain.toList.head? = some '#'

instance : DecidablePred Name.StartsWithHash :=
  fun x => inferInstanceAs (Decidable (x.plain.toList.head? = some '#'))

/-- The temporary name of a place. -/
def temporaryName (i : Nat) : Name :=
  .text ("#" ++ toString i)

lemma startsWithHash_temporaryName (i : Nat) : (temporaryName i).StartsWithHash := by
  rw [Name.StartsWithHash]
  change ("#" ++ toString i).toList.head? = some '#'
  rw [String.toList_append]
  rfl

lemma temporaryName_injective : Function.Injective temporaryName := by
  intro i j h
  exact numbered_injective (.text "#") h

/-- A fresh name starts with a hash only if the name it is made of does. -/
lemma startsWithHash_of_fresh {base : Name} {avoid : List Name}
    (h : (fresh base avoid).StartsWithHash) : base.StartsWithHash := by
  rw [fresh] at h
  split at h
  · cases hfound :
      ((List.range avoid.length).map fun k => numbered base (k + 1)).find? (· ∉ avoid) with
    | none =>
      dsimp only at h
      rwa [hfound] at h
    | some x =>
      obtain ⟨n, -, rfl⟩ := List.mem_map.1 (List.mem_of_find?_eq_some hfound)
      simp only [hfound, Option.getD_some, Name.StartsWithHash] at h ⊢
      change (base.plain ++ toString (n + 1)).toList.head? = some '#' at h
      rw [String.toList_append, List.head?_append] at h
      cases hhead : base.plain.toList.head? with
      | some c => simpa [hhead] using h
      | none =>
        -- the text starts with a digit then
        have hmem : '#' ∈ Nat.toDigits 10 (n + 1) :=
          List.mem_of_mem_head? (by simpa [hhead, Nat.repr] using h)
        have hdigit := Nat.isDigit_of_mem_toDigits (by decide) (by decide) hmem
        cases hdigit
  · exact h

/-! ### Renaming in sequence -/

/-- A reference with another name, if it has one. -/
def Ref.onFree (f : Name → Name) : Ref → Ref
  | .bound n => .bound n
  | .free x => .free (f x)

/-- The name after each pair in turn has replaced its first name by its second. -/
def replaceNames (ps : List (Name × Name)) (x : Name) : Name :=
  ps.foldl (fun x p => if x = p.1 then p.2 else x) x

lemma nameless_subst_var (t : Term) (x y : Name) :
    (t.subst x (.var y)).nameless =
      t.nameless.rename (Ref.onFree fun z => if z = x then y else z) := by
  rw [Term.nameless_subst, rename_eq_subst]
  congr 1
  funext r
  rcases r with n | z
  · simp [single, Ref.onFree]
  · by_cases hz : z = x <;> simp [single, Ref.onFree, hz, Term.nameless]

lemma onFree_onFree (f g : Name → Name) (r : Ref) :
    Ref.onFree g (Ref.onFree f r) = Ref.onFree (fun x => g (f x)) r := by
  cases r <;> rfl

lemma nameless_foldl_subst (ps : List (Name × Name)) (t : Term) :
    (ps.foldl (fun t p => t.subst p.1 (.var p.2)) t).nameless =
      t.nameless.rename (Ref.onFree (replaceNames ps)) := by
  induction ps generalizing t with
  | nil =>
    have hid : Ref.onFree (replaceNames []) = id := by
      funext r
      cases r <;> rfl
    rw [hid, rename_id]
    rfl
  | cons p ps ih =>
    rw [List.foldl_cons, ih, nameless_subst_var, rename_rename]
    congr 1
    funext r
    exact onFree_onFree ..

lemma replaceNames_of_not_mem {ps : List (Name × Name)} {x : Name} (h : x ∉ ps.map Prod.fst) :
    replaceNames ps x = x := by
  induction ps with
  | nil => rfl
  | cons p ps ih =>
    simp only [List.map_cons, List.mem_cons, not_or] at h
    rw [replaceNames, List.foldl_cons, if_neg h.1]
    exact ih h.2

/-- Names that are replaced by names outside are replaced once. -/
lemma replaceNames_of_mem {ps : List (Name × Name)} (hdistinct : (ps.map Prod.fst).Nodup)
    (houtside : ∀ p ∈ ps, p.2 ∉ ps.map Prod.fst) {x y : Name} (h : (x, y) ∈ ps) :
    replaceNames ps x = y := by
  induction ps with
  | nil => cases h
  | cons p ps ih =>
    simp only [List.map_cons, List.nodup_cons] at hdistinct
    simp only [List.map_cons, List.mem_cons, not_or] at houtside
    rw [replaceNames, List.foldl_cons]
    rcases List.mem_cons.1 h with rfl | h
    · rw [if_pos rfl]
      exact replaceNames_of_not_mem (houtside (x, y) (.inl rfl)).2
    · rw [if_neg fun hx : x = p.1 => hdistinct.1 (hx ▸ List.mem_map.2 ⟨_, h, rfl⟩)]
      exact ih hdistinct.2 (fun q hq => (houtside q (.inr hq)).2) h

/-! ### Simultaneous renaming -/

/-- Where a renaming sends a name. -/
def renamedTo (ρ : List (Name × Name)) (x : Name) : Name :=
  ((ρ.find? (·.1 == x)).map Prod.snd).getD x

/-- A renaming of distinct names, none of them temporary, to names that are taken. -/
structure IsRenaming (taken : List Name) (ρ : List (Name × Name)) : Prop where
  distinct : (ρ.map Prod.fst).Nodup
  old : ∀ p ∈ ρ, ¬ p.1.StartsWithHash
  new : ∀ p ∈ ρ, ¬ p.2.StartsWithHash
  taken : ∀ p ∈ ρ, p.2 ∈ taken

lemma IsRenaming.nil (taken : List Name) : IsRenaming taken [] :=
  ⟨List.nodup_nil, nofun, nofun, nofun⟩

lemma renamedTo_of_mem {ρ : List (Name × Name)} (hdistinct : (ρ.map Prod.fst).Nodup) {x y : Name}
    (h : (x, y) ∈ ρ) : renamedTo ρ x = y := by
  induction ρ with
  | nil => cases h
  | cons p ρ ih =>
    simp only [List.map_cons, List.nodup_cons] at hdistinct
    rcases List.mem_cons.1 h with rfl | h
    · simp [renamedTo]
    · have hne : p.1 ≠ x := fun hx => hdistinct.1 (hx ▸ List.mem_map.2 ⟨_, h, rfl⟩)
      have hrest := ih hdistinct.2 h
      simpa [renamedTo, hne] using hrest

lemma map_fst_temporary (ρ : List (Name × Name)) :
    (ρ.zipIdx.map fun p => (p.1.1, temporaryName p.2)).map Prod.fst = ρ.map Prod.fst := by
  rw [List.map_map, ← List.zipIdx_map_fst 0 ρ, List.map_map, List.zipIdx_map_fst]
  rfl

/-- The temporary names in turn, and back from them. -/
lemma replaceNames_temporary {ρ : List (Name × Name)} {taken : List Name} (h : IsRenaming taken ρ)
    {x y : Name} (hxy : (x, y) ∈ ρ) :
    replaceNames (ρ.zipIdx.map fun p => (temporaryName p.2, p.1.2))
      (replaceNames (ρ.zipIdx.map fun p => (p.1.1, temporaryName p.2)) x) = y := by
  obtain ⟨i, hi, hget⟩ := List.mem_iff_getElem.1 hxy
  have hmem : ((x, y), i) ∈ ρ.zipIdx := by
    rw [List.mk_mem_zipIdx_iff_getElem?, List.getElem?_eq_getElem hi, hget]
  have hfst := map_fst_temporary ρ
  have hto : replaceNames (ρ.zipIdx.map fun p => (p.1.1, temporaryName p.2))
      x = temporaryName i := by
    refine replaceNames_of_mem (hfst ▸ h.distinct) ?_ (List.mem_map.2 ⟨_, hmem, rfl⟩)
    rintro p hp hold
    obtain ⟨q, -, rfl⟩ := List.mem_map.1 hp
    rw [hfst] at hold
    obtain ⟨r, hr, hname⟩ := List.mem_map.1 hold
    exact h.old r hr (hname ▸ startsWithHash_temporaryName q.2)
  rw [hto]
  refine replaceNames_of_mem ?_ ?_ (List.mem_map.2 ⟨_, hmem, rfl⟩)
  · have hplaces : (ρ.zipIdx.map fun p => (temporaryName p.2, p.1.2)).map Prod.fst =
        (ρ.zipIdx.map Prod.snd).map temporaryName := by
      rw [List.map_map, List.map_map]
      rfl
    rw [hplaces, List.zipIdx_map_snd]
    exact (List.nodup_map_iff temporaryName_injective).2 (List.nodup_range' ..)
  · rintro p hp hold
    obtain ⟨q, hq, rfl⟩ := List.mem_map.1 hp
    obtain ⟨r, hr, hname⟩ := List.mem_map.1 hold
    obtain ⟨s, -, rfl⟩ := List.mem_map.1 hr
    have hqmem : q.1 ∈ ρ := by
      have hfst' := List.mem_map_of_mem (f := Prod.fst) hq
      rwa [List.zipIdx_map_fst] at hfst'
    exact h.new q.1 hqmem (hname ▸ startsWithHash_temporaryName s.2)

/-- Renaming goes through the temporary names and back. -/
lemma renameAll_eq (ρ : List (Name × Name)) (t : Term) :
    t.renameAll ρ = (ρ.zipIdx.map fun p => (temporaryName p.2, p.1.2)).foldl
      (fun t p => t.subst p.1 (.var p.2))
      ((ρ.zipIdx.map fun p => (p.1.1, temporaryName p.2)).foldl
        (fun t p => t.subst p.1 (.var p.2)) t) := by
  rw [List.foldl_map, List.foldl_map]
  rfl

lemma renamedTo_of_not_mem {ρ : List (Name × Name)} {x : Name} (h : x ∉ ρ.map Prod.fst) :
    renamedTo ρ x = x := by
  have hnone : ρ.find? (·.1 == x) = none := by
    refine List.find?_eq_none.2 fun p hp heq => h ?_
    exact List.mem_map.2 ⟨p, hp, by simpa using heq⟩
  rw [renamedTo, hnone]
  rfl

/-- **Renaming through temporary names is simultaneous renaming**, for a term that mentions none of
them. -/
theorem IsRenaming.nameless_renameAll {ρ : List (Name × Name)} {taken : List Name}
    (h : IsRenaming taken ρ) {t : Term} (ht : ∀ x ∈ t.freeVars, ¬ x.StartsWithHash) :
    (t.renameAll ρ).nameless = t.nameless.rename (Ref.onFree (renamedTo ρ)) := by
  rw [renameAll_eq, nameless_foldl_subst, nameless_foldl_subst, rename_rename,
    rename_eq_subst, rename_eq_subst]
  refine subst_congr fun r hr => ?_
  rcases r with n | x
  · rfl
  · rw [onFree_onFree]
    simp only [Ref.onFree]
    by_cases hx : x ∈ ρ.map Prod.fst
    · obtain ⟨⟨x', y⟩, hmem, rfl⟩ := List.mem_map.1 hx
      rw [replaceNames_temporary h hmem, renamedTo_of_mem h.distinct hmem]
    · -- a name that is left alone is not taken for a temporary one on the way back
      have hback : x ∉ (ρ.zipIdx.map fun p => (temporaryName p.2, p.1.2)).map Prod.fst := by
        intro hmem
        obtain ⟨p, hp, rfl⟩ := List.mem_map.1 hmem
        obtain ⟨q, -, rfl⟩ := List.mem_map.1 hp
        exact ht _ (Term.occurs_nameless.1 hr) (startsWithHash_temporaryName q.2)
      have hforth : x ∉ (ρ.zipIdx.map fun p => (p.1.1, temporaryName p.2)).map Prod.fst := by
        rwa [map_fst_temporary]
      rw [replaceNames_of_not_mem hforth, replaceNames_of_not_mem hback, renamedTo_of_not_mem hx]

/-- A term over the renamed names mentions no temporary one. -/
lemma nameless_renameAll {ρ : List (Name × Name)} {taken : List Name} (h : IsRenaming taken ρ)
    {t : Term} (ht : ∀ x ∈ t.freeVars, x ∈ ρ.map Prod.fst) :
    (t.renameAll ρ).nameless = t.nameless.rename (Ref.onFree (renamedTo ρ)) := by
  refine h.nameless_renameAll fun x hx => ?_
  obtain ⟨p, hp, rfl⟩ := List.mem_map.1 (ht x hx)
  exact h.old p hp

/-- A name that is replaced, perhaps more than once, ends as one of the second names. -/
lemma replaceNames_mem {ps : List (Name × Name)} {x : Name} (h : x ∈ ps.map Prod.fst) :
    replaceNames ps x ∈ ps.map Prod.snd := by
  induction ps generalizing x with
  | nil => cases h
  | cons p ps ih =>
    rw [replaceNames, List.foldl_cons, ← replaceNames, List.map_cons, List.mem_cons]
    split
    · by_cases hp : p.2 ∈ ps.map Prod.fst
      · exact .inr (ih hp)
      · exact .inl (replaceNames_of_not_mem hp)
    · rename_i hx
      exact .inr (ih ((List.mem_cons.1 h).resolve_left hx))

lemma mem_of_foldl_subst {ps : List (Name × Name)} {t : Term}
    (ht : ∀ x ∈ t.freeVars, x ∈ ps.map Prod.fst) {y : Name}
    (hy : y ∈ (ps.foldl (fun t p => t.subst p.1 (.var p.2)) t).freeVars) : y ∈ ps.map Prod.snd := by
  rw [← Term.occurs_nameless, nameless_foldl_subst, occurs_rename] at hy
  obtain ⟨r, hr, hry⟩ := hy
  rcases r with n | x
  · cases hry
  · rw [Ref.onFree, Ref.free.injEq] at hry
    exact hry ▸ replaceNames_mem (ht x (Term.occurs_nameless.1 hr))

/-- What a renamed term mentions.  This holds for temporary names among the old or new ones too. -/
lemma mem_of_renameAll {ρ : List (Name × Name)} {t : Term}
    (ht : ∀ x ∈ t.freeVars, x ∈ ρ.map Prod.fst) {y : Name} (hy : y ∈ (t.renameAll ρ).freeVars) :
    y ∈ ρ.map Prod.snd := by
  rw [renameAll_eq] at hy
  have hnew : (ρ.zipIdx.map fun p => (temporaryName p.2, p.1.2)).map Prod.snd = ρ.map Prod.snd := by
    rw [List.map_map, ← List.zipIdx_map_fst 0 ρ, List.map_map, List.zipIdx_map_fst]
    rfl
  refine hnew ▸ mem_of_foldl_subst (fun x hx => ?_) hy
  have hx' := mem_of_foldl_subst (map_fst_temporary ρ ▸ ht) hx
  simpa [List.map_map, Function.comp_def] using hx'

/-! ### One more name -/

section SetRenaming

variable {old new : Name} {ρ : List (Name × Name)}

lemma keys_setRenaming (old new : Name) (ρ : List (Name × Name)) :
    (setRenaming old new ρ).map Prod.fst = ρ.map Prod.fst ∨
    old ∉ ρ.map Prod.fst ∧ (setRenaming old new ρ).map Prod.fst = ρ.map Prod.fst ++ [old] := by
  induction ρ with
  | nil => exact .inr ⟨by simp, rfl⟩
  | cons q ρ ih =>
    rw [setRenaming]
    split
    · exact .inl rfl
    · rename_i hq
      rcases ih with hkeys | ⟨hold, hkeys⟩
      · exact .inl (by simp [hkeys])
      · refine .inr ⟨by simpa [Ne.symm hq] using hold, by simp [hkeys]⟩

lemma mem_keys_setRenaming {x : Name} :
    x ∈ (setRenaming old new ρ).map Prod.fst ↔ x = old ∨ x ∈ ρ.map Prod.fst := by
  have hself : old ∈ (setRenaming old new ρ).map Prod.fst := by
    induction ρ with
    | nil => simp [setRenaming]
    | cons q ρ ih =>
      rw [setRenaming]
      split
      · simp_all
      · exact List.mem_cons_of_mem _ ih
  rcases keys_setRenaming old new ρ with hkeys | ⟨-, hkeys⟩
  · rw [hkeys] at hself ⊢
    exact ⟨.inr, fun h => h.elim (fun h => h ▸ hself) id⟩
  · rw [hkeys]
    simp [or_comm]

lemma mem_setRenaming {p : Name × Name} (h : p ∈ setRenaming old new ρ) :
    p = (old, new) ∨ p ∈ ρ := by
  induction ρ with
  | nil => exact .inl (by simpa [setRenaming] using h)
  | cons q ρ ih =>
    rw [setRenaming] at h
    split at h
    · rename_i hq
      rcases List.mem_cons.1 h with rfl | h
      · exact .inl (by rw [hq])
      · exact .inr (List.mem_cons_of_mem _ h)
    · rcases List.mem_cons.1 h with rfl | h
      · exact .inr List.mem_cons_self
      · exact (ih h).imp_right (List.mem_cons_of_mem _)

/-- The new name goes with no other old name than its own. -/
lemma mem_values_setRenaming {y : Name} (h : y ∈ (setRenaming old new ρ).map Prod.snd) :
    y = new ∨ y ∈ ρ.map Prod.snd := by
  obtain ⟨p, hp, rfl⟩ := List.mem_map.1 h
  rcases mem_setRenaming hp with rfl | hp
  · exact .inl rfl
  · exact .inr (List.mem_map_of_mem hp)

lemma eq_of_mem_setRenaming {p : Name × Name} (hdistinct : (ρ.map Prod.fst).Nodup)
    (h : p ∈ setRenaming old new ρ) (hold : p.1 = old) : p.2 = new := by
  induction ρ with
  | nil =>
    obtain rfl : p = (old, new) := by simpa [setRenaming] using h
    rfl
  | cons q ρ ih =>
    simp only [List.map_cons, List.nodup_cons] at hdistinct
    rw [setRenaming] at h
    split at h
    · rename_i hq
      rcases List.mem_cons.1 h with rfl | h
      · rfl
      · exact absurd (List.mem_map.2 ⟨p, h, hold.trans hq.symm⟩) hdistinct.1
    · rename_i hq
      rcases List.mem_cons.1 h with rfl | h
      · exact absurd hold hq
      · exact ih hdistinct.2 h

lemma IsRenaming.set {taken : List Name} (h : IsRenaming taken ρ) (hold : ¬ old.StartsWithHash)
    (hnew : ¬ new.StartsWithHash) : IsRenaming (new :: taken) (setRenaming old new ρ) := by
  refine ⟨?_, fun p hp => ?_, fun p hp => ?_, fun p hp => ?_⟩
  · rcases keys_setRenaming old new ρ with hkeys | ⟨hmem, hkeys⟩
    · exact hkeys ▸ h.distinct
    · rw [hkeys, List.nodup_append]
      refine ⟨h.distinct, List.nodup_singleton _, ?_⟩
      rintro x hx y hy rfl
      exact hmem (List.mem_singleton.1 hy ▸ hx)
  · rcases mem_setRenaming hp with rfl | hp
    · exact hold
    · exact h.old p hp
  · rcases mem_setRenaming hp with rfl | hp
    · exact hnew
    · exact h.new p hp
  · rcases mem_setRenaming hp with rfl | hp
    · exact List.mem_cons_self
    · exact List.mem_cons_of_mem _ (h.taken p hp)

/-- One more name, renamed to a fresh one. -/
lemma IsRenaming.set_fresh {taken : List Name} (h : IsRenaming taken ρ)
    (hold : ¬ old.StartsWithHash) :
    IsRenaming (fresh old taken :: taken) (setRenaming old (fresh old taken) ρ) :=
  h.set hold fun hash => hold (startsWithHash_of_fresh hash)

end SetRenaming

/-! ### Fresh binders -/

lemma assignAll_of_ne {γ : Ref → Nameless} {bs : List Binding} {us : List Nameless} {r : Ref}
    (h : ∀ b ∈ bs, r ≠ .free b.name) : assignAll γ bs us r = γ r := by
  induction bs generalizing γ us with
  | nil => cases us <;> rfl
  | cons b bs ih =>
    cases us with
    | nil => rfl
    | cons u us =>
      rw [assignAll, ih fun b' hb' => h b' (List.mem_cons_of_mem _ hb')]
      exact assign_of_ne (h b List.mem_cons_self)

lemma assignAll_of_not_mem {γ : Ref → Nameless} {bs : List Binding} {us : List Nameless} {x : Name}
    (h : x ∉ Binding.names bs) : assignAll γ bs us (.free x) = γ (.free x) := by
  refine assignAll_of_ne fun b hb hx => h ?_
  rw [Ref.free.injEq] at hx
  exact hx ▸ List.mem_map_of_mem hb

/-- Distinct names get the terms in their order. -/
lemma map_assignAll {γ : Ref → Nameless} {bs : List Binding} {us : List Nameless}
    (hnames : (Binding.names bs).Nodup) (hlen : us.length = bs.length) :
    bs.map (fun b => assignAll γ bs us (.free b.name)) = us := by
  induction bs generalizing γ us with
  | nil => exact (List.length_eq_zero_iff.1 hlen).symm
  | cons b bs ih =>
    simp only [Binding.names, List.map_cons, List.nodup_cons] at hnames
    cases us with
    | nil => cases hlen
    | cons u us =>
      rw [List.map_cons, assignAll, assignAll_of_not_mem hnames.1, assign_self,
        ih hnames.2 (by simpa using hlen)]

/-- The names of fresh binders, and the renaming to them. -/
structure Freshened (taken : List Name) (ρ : List (Name × Name)) (bs bs' : List Binding)
    (ρ' : List (Name × Name)) : Prop where
  distinct : (Binding.names bs').Nodup
  unused : ∀ b ∈ bs', b.name ∉ taken
  keys : ∀ x, x ∈ ρ'.map Prod.fst ↔ x ∈ ρ.map Prod.fst ∨ x ∈ Binding.names bs
  values : ∀ p ∈ ρ', p.2 ∈ ρ.map Prod.snd ∨ p.2 ∈ Binding.names bs'
  ordered : OrderedFrom (ρ.map Prod.snd) bs'

lemma names_freshenBinders (taken : List Name) (ρ : List (Name × Name)) (bs : List Binding) :
    Binding.names (freshenBinders taken ρ bs).1 = freshEach taken (Binding.names bs) := by
  induction bs generalizing taken ρ with
  | nil => rfl
  | cons b bs ih => exact congrArg (fresh b.name taken :: ·) (ih (fresh b.name taken :: taken) _)

/-- Binders in order have fresh binders in order. -/
lemma freshenBinders_names (taken : List Name) {ρ : List (Name × Name)} {bs : List Binding}
    (hordered : OrderedFrom (ρ.map Prod.fst) bs) :
    Freshened taken ρ bs (freshenBinders taken ρ bs).1 (freshenBinders taken ρ bs).2 := by
  induction bs generalizing taken ρ with
  | nil =>
    refine ⟨List.nodup_nil, nofun, fun x => by simp [Binding.names, freshenBinders],
      fun p hp => ?_, trivial⟩
    exact .inl (List.mem_map_of_mem hp)
  | cons b bs ih =>
    set x := fresh b.name taken with hx
    have hkeys : ∀ y, y ∈ (setRenaming b.name x ρ).map Prod.fst ↔ y ∈ b.name :: ρ.map Prod.fst := by
      intro y
      rw [mem_keys_setRenaming, List.mem_cons]
    have hrest := ih (x :: taken) (hordered.2.mono fun y hy => (hkeys y).2 hy)
    refine ⟨?_, ?_, fun y => ?_, fun p hp => ?_, fun y hy => mem_of_renameAll hordered.1 hy,
      hrest.ordered.mono fun y hy => ?_⟩
    · rw [names_freshenBinders]
      exact freshEach_nodup taken _
    · intro b' hb'
      have hname : b'.name ∈ Binding.names (freshenBinders taken ρ (b :: bs)).1 :=
        List.mem_map_of_mem hb'
      rw [names_freshenBinders] at hname
      exact not_mem_of_mem_freshEach hname
    · rw [freshenBinders, hrest.keys, hkeys]
      simp only [Binding.names, List.map_cons, List.mem_cons]
      tauto
    · rcases hrest.values p hp with hp | hp
      · rcases mem_values_setRenaming hp with hpx | hp
        · exact .inr (hpx ▸ List.mem_cons_self)
        · exact .inl hp
      · exact .inr (List.mem_cons_of_mem _ hp)
    · exact List.mem_cons.2 (mem_values_setRenaming hy)

/-- The renaming to fresh binders, if no binder has the name of a temporary one. -/
lemma freshenBinders_isRenaming {taken : List Name} {ρ : List (Name × Name)}
    (h : IsRenaming taken ρ) {bs : List Binding} (hnames : ∀ b ∈ bs, ¬ b.name.StartsWithHash) :
    IsRenaming (Binding.names (freshenBinders taken ρ bs).1 ++ taken)
      (freshenBinders taken ρ bs).2 := by
  induction bs generalizing taken ρ with
  | nil => exact h
  | cons b bs ih =>
    have hold : ¬ b.name.StartsWithHash := hnames b List.mem_cons_self
    have hset : IsRenaming (fresh b.name taken :: taken)
      (setRenaming b.name (fresh b.name taken) ρ) := h.set_fresh hold
    have hrest := ih hset fun b' hb' => hnames b' (List.mem_cons_of_mem _ hb')
    refine ⟨hrest.distinct, hrest.old, hrest.new, fun p hp => ?_⟩
    have hp' := hrest.taken p hp
    simp only [Binding.names, freshenBinders, List.map_cons, List.cons_append, List.mem_cons,
      List.mem_append] at hp' ⊢
    tauto

section Freshen

variable {ctor : FamilyCtor} (taken : List Name) (hordered : OrderedFrom [] ctor.binders)
include hordered

/-- The binders of a fresh constructor are arranged. -/
lemma arranged_freshen : Arranged (ctor.freshen taken).binders :=
  have hfresh := freshenBinders_names (ρ := []) taken hordered
  ⟨hfresh.distinct, hfresh.ordered⟩

/-- The indices of a fresh constructor are over its binders. -/
lemma mem_of_freshen_index
    (hindices : ∀ t ∈ ctor.indices, ∀ x ∈ t.freeVars, x ∈ Binding.names ctor.binders) {t : Term}
    (ht : t ∈ (ctor.freshen taken).indices) {x : Name} (hx : x ∈ t.freeVars) :
    x ∈ Binding.names (ctor.freshen taken).binders := by
  have hfresh := freshenBinders_names (ρ := []) taken hordered
  obtain ⟨index, hindex, rfl⟩ := List.mem_map.1 ht
  obtain ⟨p, hp, rfl⟩ :=
    List.mem_map.1
      (mem_of_renameAll (fun x hx => (hfresh.keys x).2 (.inr (hindices index hindex x hx))) hx)
  exact (hfresh.values p hp).resolve_left List.not_mem_nil

end Freshen

/-! ### Arguments of fresh binders -/

/-- The second substitution gives the new names what the first gives the old ones. -/
def AgreesAlong (ρ : List (Name × Name)) (σ γ : Ref → Nameless) : Prop :=
  ∀ p ∈ ρ, γ (.free p.2) = σ (.free p.1)

variable {m : Discipline}

/-- A renamed term under the second substitution is the term under the first. -/
lemma AgreesAlong.view_subst {ρ : List (Name × Name)} {taken : List Name} {σ γ : Ref → Nameless}
    (h : AgreesAlong ρ σ γ) (hρ : IsRenaming taken ρ) {t : Term}
    (ht : ∀ x ∈ t.freeVars, x ∈ ρ.map Prod.fst) :
    (m.view (t.renameAll ρ)).subst γ = (m.view t).subst σ := by
  have hview : m.view (t.renameAll ρ) = (m.view t).rename (Ref.onFree (renamedTo ρ)) := by
    cases m with
    | strict => exact nameless_renameAll hρ ht
    | erased =>
      simpa [Discipline.view, erase_rename] using congrArg erase (nameless_renameAll hρ ht)
  rw [hview, subst_rename]
  refine subst_congr fun r hr => ?_
  have hr' := Discipline.occurs_of_view hr
  rcases r with n | x
  · exact (Term.not_occurs_bound _ _ hr').elim
  · obtain ⟨⟨x', y⟩, hmem, rfl⟩ := List.mem_map.1 (ht x (Term.occurs_nameless.1 hr'))
    rw [Ref.onFree, renamedTo_of_mem hρ.distinct hmem]
    exact h _ hmem

/-- One more name, with one more term for it. -/
lemma AgreesAlong.set {ρ : List (Name × Name)} {taken : List Name} {σ γ : Ref → Nameless}
    (h : AgreesAlong ρ σ γ) (hρ : IsRenaming taken ρ) {old new : Name} (hnew : new ∉ taken)
    (u : Nameless) : AgreesAlong (setRenaming old new ρ) (assign σ old u) (assign γ new u) := by
  intro p hp
  by_cases hold : p.1 = old
  · rw [eq_of_mem_setRenaming hρ.distinct hp hold, hold, assign_self, assign_self]
  · have hp' : p ∈ ρ := (mem_setRenaming hp).resolve_left fun heq => hold (heq ▸ rfl)
    have hpnew : p.2 ≠ new := fun heq => hnew (heq ▸ hρ.taken p hp')
    rw [assign_of_ne (by simpa using hpnew), assign_of_ne (by simpa using hold)]
    exact h p hp'

/-- **Arguments of the binders are arguments of the fresh binders.** -/
theorem freshenBinders_spec {S : Signature} {Γ : Scope} {taken : List Name} {ρ : List (Name × Name)}
    (h : IsRenaming taken ρ) {bs : List Binding} (hordered : OrderedFrom (ρ.map Prod.fst) bs)
    (hnames : ∀ b ∈ bs, ¬ b.name.StartsWithHash) {σ γ : Ref → Nameless} {us : List Nameless}
    (hagrees : AgreesAlong ρ σ γ) (hus : TypedArgs m S Γ σ bs us) :
    AgreesAlong (freshenBinders taken ρ bs).2 (assignAll σ bs us)
      (assignAll γ (freshenBinders taken ρ bs).1 us) ∧
      List.Forall₂ (fun b u => assignAll γ (freshenBinders taken ρ bs).1 us (.free b.name) = u ∧
        HasType m S Γ u ((m.view b.ty).subst (assignAll γ (freshenBinders taken ρ bs).1 us)))
        (freshenBinders taken ρ bs).1 us := by
  induction bs generalizing taken ρ σ γ us with
  | nil =>
    cases us with
    | nil => exact ⟨hagrees, .nil⟩
    | cons => exact hus.elim
  | cons b bs ih =>
    cases us with
    | nil => exact hus.elim
    | cons u us =>
      set x := fresh b.name taken with hx
      have hunused : x ∉ taken := fresh_not_mem b.name taken
      have hold : ¬ b.name.StartsWithHash := hnames b List.mem_cons_self
      have hset : IsRenaming (x :: taken) (setRenaming b.name x ρ) := h.set_fresh hold
      have hordered' : OrderedFrom ((setRenaming b.name x ρ).map Prod.fst) bs :=
        hordered.2.mono fun y hy => mem_keys_setRenaming.2 (List.mem_cons.1 hy)
      have hnames' : ∀ b ∈ bs, ¬ b.name.StartsWithHash :=
        fun b' hb' => hnames b' (List.mem_cons_of_mem _ hb')
      obtain ⟨hfinal, htyped⟩ := ih hset hordered' hnames' (hagrees.set h hunused u) hus.2
      have hfresh := freshenBinders_names (x :: taken) hordered'
      refine ⟨hfinal, .cons ⟨?_, ?_⟩ htyped⟩
      · have hnot :
            x ∉ Binding.names (freshenBinders (x :: taken) (setRenaming b.name x ρ) bs).1 := by
          intro hmem
          obtain ⟨b', hb', hname⟩ := List.mem_map.1 hmem
          exact hfresh.unused b' hb' (hname ▸ List.mem_cons_self)
        exact (assignAll_of_not_mem hnot).trans (assign_self ..)
      · -- the type of the first binder mentions only names that the others leave alone
        have hsame : (m.view (b.ty.renameAll ρ)).subst
            (assignAll γ (freshenBinders taken ρ (b :: bs)).1 (u :: us)) =
              (m.view b.ty).subst σ := by
          rw [← hagrees.view_subst h hordered.1]
          refine subst_congr fun r hr => ?_
          have hr' := Discipline.occurs_of_view hr
          rcases r with n | y
          · exact (Term.not_occurs_bound _ _ hr').elim
          · have hy : y ∈ taken := by
              obtain ⟨p, hp, rfl⟩ :=
                List.mem_map.1 (mem_of_renameAll hordered.1 (Term.occurs_nameless.1 hr'))
              exact h.taken p hp
            refine assignAll_of_not_mem fun hmem => ?_
            obtain ⟨b', hb', hname⟩ := List.mem_map.1 hmem
            exact (freshenBinders_names taken hordered).unused b' hb' (hname ▸ hy)
        exact hsame.symm ▸ hus.1

end UniqueEvidence
