/-
Hypotheses as a telescope.

* `OrderedFrom`: each hypothesis mentions only names that come before it; `ReadyFrom`: the same,
  where only given names count;
* `Arranged`: distinct names, in order;
* `Telescope`: the same, each with a type;
* `hasType_of_mem`: **typing depends only on the hypotheses a term mentions**, so it survives any
  change of the others;
* `Arranged.append`, `Arranged.without`, `Telescope.append`, `Telescope.without`: hypotheses that
  grow and shrink;
* `reorder_spec`, `exists_reorder`: reordering permutes hypotheses, and puts each after those it
  mentions; it finds an order wherever there is one;
* `keepLast_of_nodup`: the hypotheses of distinct names are their own context;
  `mem_of_mem_keepLast`, `exists_mem_keepLast`: others keep their names.
-/
import UniqueEvidence.Kernel.Order
import UniqueEvidence.Proofs.Inference

namespace UniqueEvidence

open Nameless

/-! ### Contexts of distinct names -/

lemma foldl_keepLast {α κ : Type} [DecidableEq κ] (key : α → κ) (kept xs : List α)
    (h : ((kept ++ xs).map key).Nodup) : xs.foldl (fun kept x =>
      if kept.any (key · == key x) then kept.map fun y => if key y = key x then x else y
        else kept ++ [x]) kept =
      kept ++ xs := by
  induction xs generalizing kept with
  | nil => simp
  | cons x xs ih =>
    have hnew : kept.any (key · == key x) = false := by
      simp only [List.map_append, List.map_cons, List.nodup_append] at h
      simp only [List.any_eq_false, beq_iff_eq]
      exact fun y hy => h.2.2 _ (List.mem_map_of_mem hy) _ List.mem_cons_self
    rw [List.foldl_cons, hnew]
    simpa using ih (kept ++ [x]) (by simpa using h)

/-- Entries with distinct keys are all kept. -/
lemma keepLast_of_nodup {α κ : Type} [DecidableEq κ] {key : α → κ} {xs : List α}
    (h : (xs.map key).Nodup) : keepLast key xs = xs := by
  simpa [keepLast] using foldl_keepLast key [] xs (by simpa using h)

/-- Nothing else is kept. -/
lemma mem_of_mem_keepLast {α κ : Type} [DecidableEq κ] {key : α → κ} {xs : List α} {y : α}
    (h : y ∈ keepLast key xs) : y ∈ xs := by
  refine List.foldlRecOn (motive := fun kept => ∀ y ∈ kept, y ∈ xs) xs _ (by simp) ?_ y h
  intro kept hkept x hx
  split
  · intro y hy
    obtain ⟨z, hz, rfl⟩ := List.mem_map.1 hy
    split
    · exact hx
    · exact hkept z hz
  · intro y hy
    rcases List.mem_append.1 hy with hy | hy
    · exact hkept y hy
    · exact List.mem_singleton.1 hy ▸ hx

/-- Every key is kept. -/
lemma exists_mem_keepLast {α κ : Type} [DecidableEq κ] {key : α → κ} {xs : List α} {x : α}
    (h : x ∈ xs) : ∃ y ∈ keepLast key xs, key y = key x := by
  suffices hfold : ∀ kept : List α, (x ∈ xs ∨ ∃ y ∈ kept, key y = key x) →
      ∃ y ∈ xs.foldl (fun kept x =>
      if kept.any (key · == key x) then kept.map fun y => if key y = key x then x else y
        else kept ++ [x]) kept,
      key y = key x from hfold [] (.inl h)
  clear h
  induction xs with
  | nil => exact fun kept h => h.resolve_left List.not_mem_nil
  | cons z xs ih =>
    intro kept h
    refine ih _ ?_
    by_cases hx : x ∈ xs
    · exact .inl hx
    right
    dsimp only
    split
    · rename_i hany
      obtain ⟨w, hw, hwz⟩ := List.any_eq_true.1 hany
      -- an entry that gives way has the key of the one that takes its place
      obtain ⟨y, hy, hkey⟩ : ∃ y ∈ kept, key y = key x := by
        rcases h with h | h
        · obtain rfl := (List.mem_cons.1 h).resolve_right hx
          exact ⟨w, hw, by simpa using hwz⟩
        · exact h
      refine ⟨_, List.mem_map_of_mem hy, ?_⟩
      split
      · rename_i hyz
        exact hyz.symm.trans hkey
      · exact hkey
    · rcases h with h | ⟨y, hy, hkey⟩
      · exact ⟨z, by simp, congrArg key ((List.mem_cons.1 h).resolve_right hx).symm⟩
      · exact ⟨y, List.mem_append_left _ hy, hkey⟩

namespace Context

variable {hyps hyps' : List Binding} {m : Discipline}

lemma lookup?_of_mem (hnodup : (Binding.names hyps).Nodup) {b : Binding} (hb : b ∈ hyps) :
    lookup? hyps b.name = some b.ty := by
  induction hyps with
  | nil => cases hb
  | cons a hyps ih =>
    simp only [Binding.names, List.map_cons, List.nodup_cons] at hnodup
    rcases List.mem_cons.1 hb with rfl | hb
    · exact lookup?_cons_self ..
    · have hne : b.name ≠ a.name := fun h => hnodup.1 (h ▸ List.mem_map_of_mem hb)
      exact (lookup?_cons_of_ne a.ty hne).trans (ih hnodup.2 hb)

lemma scope_of_mem (hnodup : (Binding.names hyps).Nodup) {b : Binding} (hb : b ∈ hyps) :
    scope hyps m (.free b.name) = some (m.view b.ty) := by
  simp [scope, lookup?_of_mem hnodup hb]

lemma exists_of_scope {r : Ref} {A : Nameless} (h : scope hyps m r = some A) :
    ∃ b ∈ hyps, r = .free b.name ∧ A = m.view b.ty := by
  rcases r with n | x
  · cases h
  · obtain ⟨ty, hty, rfl⟩ := Option.map_eq_some_iff.1 h
    exact ⟨⟨x, ty⟩, mem_of_lookup? hty, rfl, rfl⟩

/-- **Typing depends only on the hypotheses that a term mentions.** -/
theorem hasType_of_mem {S : Signature} {t T : Nameless} (h : HasType m S (scope hyps m) t T)
    (hnodup : (Binding.names hyps').Nodup)
    (hmem : ∀ b ∈ hyps, t.Occurs (.free b.name) → b ∈ hyps') : HasType m S (scope hyps' m) t T := by
  refine h.of_conv_scope fun r A hr hA => ?_
  obtain ⟨b, hb, rfl, rfl⟩ := exists_of_scope hA
  exact ⟨_, scope_of_mem hnodup (hmem b hb hr), .rfl⟩

end Context

/-! ### Names paired with types -/

lemma names_zipWith {names : List Name} {types : List Term} (h : names.length = types.length) :
    Binding.names (List.zipWith Binding.mk names types) = names := by
  rw [Binding.names, ← List.map_uncurry_zip_eq_zipWith, List.map_map]
  exact List.map_fst_zip (Nat.le_of_eq h)

lemma types_zipWith {names : List Name} {types : List Term} (h : names.length = types.length) :
    (List.zipWith Binding.mk names types).map Binding.ty = types := by
  rw [← List.map_uncurry_zip_eq_zipWith, List.map_map]
  exact List.map_snd_zip (Nat.le_of_eq h.symm)

lemma mem_of_zipWith {names : List Name} {types : List Term} {b : Binding}
    (hb : b ∈ List.zipWith Binding.mk names types) : b.name ∈ names ∧ b.ty ∈ types := by
  rw [← List.map_uncurry_zip_eq_zipWith] at hb
  obtain ⟨p, hp, rfl⟩ := List.mem_map.1 hb
  exact List.of_mem_zip hp

section

variable (types : List Term) (avoid : List Name) (base : Name)

lemma types_freshBindings : (freshBindings types avoid base).map Binding.ty = types :=
  types_zipWith (length_freshNames ..)

lemma names_freshBindings :
    Binding.names (freshBindings types avoid base) = freshNames base avoid types.length :=
  names_zipWith (length_freshNames ..)

lemma nodup_freshBindings : (Binding.names (freshBindings types avoid base)).Nodup := by
  rw [names_freshBindings]
  exact freshNames_nodup ..

variable {types avoid base}

lemma not_mem_of_mem_freshBindings {x : Name}
    (hx : x ∈ Binding.names (freshBindings types avoid base)) : x ∉ avoid := by
  rw [names_freshBindings] at hx
  exact not_mem_of_mem_freshNames hx

end

/-! ### Dependency order -/

/-- Each hypothesis mentions only names that are placed, or hypotheses before it. -/
def OrderedFrom (placed : List Name) : List Binding → Prop
  | [] => True
  | b :: rest => (∀ x ∈ b.ty.freeVars, x ∈ placed) ∧ OrderedFrom (b.name :: placed) rest

instance decidableOrderedFrom :
    (placed : List Name) → (hyps : List Binding) → Decidable (OrderedFrom placed hyps)
  | _, [] => .isTrue trivial
  | placed, b :: rest =>
    @instDecidableAnd _ _ inferInstance (decidableOrderedFrom (b.name :: placed) rest)

/-- Each hypothesis mentions, of the given names, only placed ones and those of hypotheses before
it. -/
def ReadyFrom (names placed : List Name) : List Binding → Prop
  | [] => True
  | b :: rest => (∀ x ∈ b.ty.freeVars, x ∈ names → x ∈ placed) ∧
    ReadyFrom names (b.name :: placed) rest

namespace ReadyFrom

variable {names placed placed' : List Name} {hyps : List Binding}

lemma mono (h : ReadyFrom names placed hyps) (hsub : placed ⊆ placed') :
    ReadyFrom names placed' hyps := by
  induction hyps generalizing placed placed' with
  | nil => trivial
  | cons b hyps ih =>
    exact ⟨fun x hx hname => hsub (h.1 x hx hname), ih h.2 (List.cons_subset_cons _ hsub)⟩

/-- The order, read off at any hypothesis. -/
lemma of_split (h : ReadyFrom names placed hyps) {pre post : List Binding} {b : Binding}
    (hsplit : hyps = pre ++ b :: post) :
    ∀ x ∈ b.ty.freeVars, x ∈ names → x ∈ Binding.names pre ∨ x ∈ placed := by
  induction pre generalizing placed hyps with
  | nil =>
    subst hsplit
    exact fun x hx hname => .inr (h.1 x hx hname)
  | cons a pre ih =>
    subst hsplit
    intro x hx hname
    rcases ih h.2 rfl x hx hname with hx | hx
    · exact .inl (List.mem_cons_of_mem _ hx)
    · rcases List.mem_cons.1 hx with rfl | hx
      · exact .inl List.mem_cons_self
      · exact .inr hx

lemma of_forall_split (h : ∀ pre b post, hyps = pre ++ b :: post → ∀ x ∈ b.ty.freeVars, x ∈ names →
    x ∈ Binding.names pre ∨ x ∈ placed) : ReadyFrom names placed hyps := by
  induction hyps generalizing placed with
  | nil => trivial
  | cons a hyps ih =>
    refine ⟨fun x hx hname => ?_, ih fun pre b post hsplit x hx hname => ?_⟩
    · simpa [Binding.names] using h [] a hyps rfl x hx hname
    · rcases h (a :: pre) b post (by rw [hsplit]; rfl) x hx hname with hx | hx
      · rcases List.mem_cons.1 hx with rfl | hx
        · exact .inr List.mem_cons_self
        · exact .inl hx
      · exact .inr (List.mem_cons_of_mem _ hx)

/-- Hypotheses over the given names are in order. -/
lemma ordered (h : ReadyFrom names placed hyps)
    (hscoped : ∀ b ∈ hyps, ∀ x ∈ b.ty.freeVars, x ∈ names) : OrderedFrom placed hyps := by
  induction hyps generalizing placed with
  | nil => trivial
  | cons b hyps ih =>
    refine ⟨fun x hx => h.1 x hx (hscoped b List.mem_cons_self x hx), ih h.2 fun b' hb' => ?_⟩
    exact hscoped b' (List.mem_cons_of_mem _ hb')

/-- No hypothesis mentions its own name. -/
lemma irreflexive (h : ReadyFrom names placed hyps) (hnodup : (Binding.names hyps).Nodup)
    (hplaced : ∀ b ∈ hyps, b.name ∉ placed) {b : Binding} (hb : b ∈ hyps) (hname : b.name ∈ names) :
    b.name ∉ b.ty.freeVars := by
  induction hyps generalizing placed with
  | nil => cases hb
  | cons a hyps ih =>
    simp only [Binding.names, List.map_cons, List.nodup_cons] at hnodup
    rcases List.mem_cons.1 hb with rfl | hb
    · exact fun hself => hplaced b List.mem_cons_self (h.1 _ hself hname)
    · refine ih h.2 hnodup.2 (fun c hc hmem => ?_) hb
      rcases List.mem_cons.1 hmem with heq | hmem
      · exact hnodup.1 (heq ▸ List.mem_map_of_mem hc)
      · exact hplaced c (List.mem_cons_of_mem _ hc) hmem

end ReadyFrom

namespace OrderedFrom

variable {placed placed' : List Name} {hyps bs : List Binding}

lemma mono (h : OrderedFrom placed hyps) (hsub : placed ⊆ placed') : OrderedFrom placed' hyps := by
  induction hyps generalizing placed placed' with
  | nil => trivial
  | cons b hyps ih =>
    exact ⟨fun x hx => hsub (h.1 x hx), ih h.2 (List.cons_subset_cons _ hsub)⟩

lemma append (h : OrderedFrom placed hyps) (h' : OrderedFrom (Binding.names hyps ++ placed) bs) :
    OrderedFrom placed (hyps ++ bs) := by
  induction hyps generalizing placed with
  | nil => simpa [Binding.names] using h'
  | cons b hyps ih =>
    refine ⟨h.1, ih h.2 (h'.mono fun x hx => ?_)⟩
    simp only [Binding.names, List.map_cons, List.cons_append, List.mem_cons,
      List.mem_append] at hx ⊢
    tauto

/-- Hypotheses over names that are placed, in any order. -/
lemma of_forall (h : ∀ b ∈ bs, ∀ x ∈ b.ty.freeVars, x ∈ placed) : OrderedFrom placed bs := by
  induction bs generalizing placed with
  | nil => trivial
  | cons b bs ih =>
    refine ⟨h b List.mem_cons_self, ih fun b' hb' x hx => ?_⟩
    exact List.mem_cons_of_mem _ (h b' (List.mem_cons_of_mem _ hb') x hx)

/-- A name that no type mentions may be left out. -/
lemma filter (h : OrderedFrom placed hyps) {x : Name} (hplaced : ∀ y ∈ placed, y ≠ x → y ∈ placed')
    (hunused : ∀ b ∈ hyps, b.name ≠ x → x ∉ b.ty.freeVars) :
    OrderedFrom placed' (hyps.filter (·.name != x)) := by
  induction hyps generalizing placed placed' with
  | nil => trivial
  | cons b hyps ih =>
    have hunused' : ∀ b ∈ hyps, b.name ≠ x → x ∉ b.ty.freeVars :=
      fun b' hb' => hunused b' (List.mem_cons_of_mem _ hb')
    by_cases hb : b.name = x
    · rw [List.filter_cons_of_neg (by simpa using hb)]
      refine ih h.2 (fun y hy hyx => ?_) hunused'
      rcases List.mem_cons.1 hy with rfl | hy
      · exact absurd hb hyx
      · exact hplaced y hy hyx
    · rw [List.filter_cons_of_pos (by simpa using hb)]
      refine ⟨fun y hy => hplaced y (h.1 y hy) fun hyx => ?_, ih h.2 (fun y hy hyx => ?_) hunused'⟩
      · exact hunused b List.mem_cons_self hb (hyx ▸ hy)
      · rcases List.mem_cons.1 hy with rfl | hy
        · exact List.mem_cons_self
        · exact List.mem_cons_of_mem _ (hplaced y hy hyx)

/-- Whichever names count, the hypotheses are in order. -/
lemma ready (h : OrderedFrom placed hyps) (names : List Name) : ReadyFrom names placed hyps := by
  induction hyps generalizing placed with
  | nil => trivial
  | cons b hyps ih => exact ⟨fun x hx _ => h.1 x hx, ih h.2⟩

/-- The order, read off at any hypothesis. -/
lemma of_split (h : OrderedFrom placed hyps) {pre post : List Binding} {b : Binding}
    (hsplit : hyps = pre ++ b :: post) : ∀ x ∈ b.ty.freeVars, x ∈ Binding.names pre ∨ x ∈ placed :=
  fun x hx => (h.ready b.ty.freeVars).of_split hsplit x hx hx

lemma of_forall_split
    (h : ∀ pre b post, hyps = pre ++ b :: post →
      ∀ x ∈ b.ty.freeVars, x ∈ Binding.names pre ∨ x ∈ placed) : OrderedFrom placed hyps := by
  have hready : ReadyFrom (hyps.flatMap fun b => b.ty.freeVars) placed hyps :=
    .of_forall_split fun pre b post hsplit x hx _ => h pre b post hsplit x hx
  exact hready.ordered fun b hb x hx => List.mem_flatMap.2 ⟨b, hb, hx⟩

end OrderedFrom

/-! ### Reordering -/

/-- The hypothesis that is taken is the first one that is ready. -/
lemma takeReady_eq_some {names placed : List Name} {pending others : List Binding} {next : Binding}
    (h : takeReady names placed pending = some (next, others)) :
    ∃ pre post, pending = pre ++ next :: post ∧ others = pre ++ post ∧
      next.ready names placed = true ∧
      ∀ b ∈ pre, b.ready names placed = false := by
  induction pending generalizing others with
  | nil => cases h
  | cons b rest ih =>
    rw [takeReady] at h
    split at h
    · rename_i hready
      obtain ⟨rfl, rfl⟩ : b = next ∧ rest = others := by simpa using h
      exact ⟨[], rest, rfl, rfl, hready, List.forall_mem_nil _⟩
    · rename_i hready
      obtain ⟨⟨next', others'⟩, hrest, heq⟩ := Option.map_eq_some_iff.1 h
      obtain ⟨rfl, rfl⟩ : next' = next ∧ b :: others' = others := by simpa using heq
      obtain ⟨pre, post, rfl, rfl, hnext, hpre⟩ := ih hrest
      exact ⟨b :: pre, post, rfl, rfl, hnext, List.forall_mem_cons.2 ⟨by simpa using hready, hpre⟩⟩

lemma takeReady_spec {names placed : List Name} {pending others : List Binding} {next : Binding}
    (h : takeReady names placed pending = some (next, others)) :
    (next :: others).Perm pending ∧ next.ready names placed = true := by
  obtain ⟨pre, post, rfl, rfl, hnext, -⟩ := takeReady_eq_some h
  exact ⟨List.perm_middle.symm, hnext⟩

lemma reorderFrom_spec {names placed : List Name} {pending hyps : List Binding}
    (h : reorderFrom names placed pending = some hyps) :
    hyps.Perm pending ∧ ReadyFrom names placed hyps := by
  induction placed, pending using reorderFrom.induct names generalizing hyps with
  | case1 placed =>
    obtain rfl : [] = hyps := by simpa [reorderFrom] using h
    exact ⟨.rfl, trivial⟩
  | case2 placed b rest htake => cases (reorderFrom_of_stuck htake).symm.trans h
  | case3 placed b rest next others htake _ ih =>
    obtain ⟨hperm, hready⟩ := takeReady_spec htake
    rw [reorderFrom_of_takeReady htake] at h
    obtain ⟨hyps', hrec, rfl⟩ := Option.map_eq_some_iff.1 h
    obtain ⟨hperm', hready'⟩ := ih hrec
    exact ⟨(hperm'.cons next).trans hperm, Binding.ready_iff.1 hready, hready'⟩

/-- **Reordering** permutes hypotheses, and puts each after those it mentions. -/
theorem reorder_spec {pending hyps : List Binding} (h : reorder pending = some hyps) :
    hyps.Perm pending ∧ ReadyFrom (Binding.names pending) [] hyps :=
  reorderFrom_spec h

lemma takeReady_eq_none {names placed : List Name} {pending : List Binding}
    (h : takeReady names placed pending = none) : ∀ b ∈ pending, b.ready names placed = false := by
  induction pending with
  | nil => simp
  | cons b rest ih =>
    rw [takeReady] at h
    split at h
    · cases h
    · rename_i hready
      exact List.forall_mem_cons.2 ⟨by simpa using hready, ih (Option.map_eq_none_iff.1 h)⟩

/-- A hypothesis may be placed ahead of its turn. -/
lemma ReadyFrom.erase {names placed placed' : List Name} {hyps : List Binding}
    (h : ReadyFrom names placed hyps) (b : Binding) (hplaced : placed ⊆ placed')
    (hb : b.name ∈ placed') : ReadyFrom names placed' (hyps.erase b) := by
  induction hyps generalizing placed placed' with
  | nil => trivial
  | cons a hyps ih =>
    by_cases hab : a = b
    · subst hab
      rw [List.erase_cons_head]
      have hcons : a.name :: placed ⊆ placed' := List.cons_subset.2 ⟨hb, hplaced⟩
      exact h.2.mono hcons
    · rw [List.erase_cons_tail (by simpa using hab)]
      refine ⟨fun x hx hname => hplaced (h.1 x hx hname),
        ih h.2 (List.cons_subset_cons _ hplaced) (List.mem_cons_of_mem _ hb)⟩

/-- Taking the first hypothesis that is ready never closes the way to an order. -/
lemma exists_reorderFrom {names placed : List Name} {pending hyps : List Binding}
    (hperm : hyps.Perm pending) (hready : ReadyFrom names placed hyps) :
    ∃ hyps', reorderFrom names placed pending = some hyps' := by
  induction placed, pending using reorderFrom.induct names generalizing hyps with
  | case1 placed => exact ⟨[], by rw [reorderFrom]⟩
  | case2 placed b rest htake =>
    -- the first hypothesis of the order is ready
    cases hyps with
    | nil => cases hperm.length_eq
    | cons a hyps =>
      have hnone := takeReady_eq_none htake a (hperm.mem_iff.1 List.mem_cons_self)
      rw [Binding.ready_iff.2 hready.1] at hnone
      cases hnone
  | case3 placed b rest next others htake _ ih =>
    obtain ⟨hothers, -⟩ := takeReady_spec htake
    have hperm' : (hyps.erase next).Perm others := by
      have herase := (hperm.trans hothers.symm).erase next
      rwa [List.erase_cons_head] at herase
    obtain ⟨hyps', hrec⟩ :=
      ih hperm' (hready.erase next (List.subset_cons_self _ _) List.mem_cons_self)
    exact ⟨next :: hyps', by rw [reorderFrom_of_takeReady htake, hrec, Option.map_some]⟩

/-- **Reordering finds an order** of hypotheses that have one. -/
theorem exists_reorder {pending hyps : List Binding} (hperm : hyps.Perm pending)
    (hordered : OrderedFrom [] hyps) : ∃ hyps', reorder pending = some hyps' :=
  exists_reorderFrom hperm (hordered.ready _)

/-! ### Arranged hypotheses -/

/-- Hypotheses with distinct names, each over those before it. -/
structure Arranged (hyps : List Binding) : Prop where
  distinct : (Binding.names hyps).Nodup
  ordered : OrderedFrom [] hyps

namespace Arranged

variable {hyps bs : List Binding}

/-- The types of the hypotheses mention only their names. -/
lemma mem_names (h : Arranged hyps) {b : Binding} (hb : b ∈ hyps) {x : Name}
    (hx : x ∈ b.ty.freeVars) : x ∈ Binding.names hyps := by
  obtain ⟨pre, post, rfl⟩ := List.append_of_mem hb
  rcases h.ordered.of_split rfl x hx with hx | hx
  · simp only [Binding.names, List.map_append, List.mem_append]
    exact .inl hx
  · cases hx

/-- A name has one hypothesis. -/
lemma eq_of_name (h : Arranged hyps) {b b' : Binding} (hb : b ∈ hyps) (hb' : b' ∈ hyps)
    (hname : b.name = b'.name) : b = b' :=
  List.inj_on_of_nodup_map h.distinct hb hb' hname

/-- No hypothesis mentions itself. -/
lemma not_mem_self (h : Arranged hyps) {b : Binding} (hb : b ∈ hyps) : b.name ∉ b.ty.freeVars := by
  obtain ⟨pre, post, rfl⟩ := List.append_of_mem hb
  intro hself
  rcases h.ordered.of_split rfl _ hself with hpre | hnil
  · have hdistinct := h.distinct
    rw [Binding.names, List.map_append, List.nodup_append] at hdistinct
    exact hdistinct.2.2 _ hpre _ List.mem_cons_self rfl
  · cases hnil

/-- Further hypotheses with new names. -/
lemma append (h : Arranged hyps) (hnodup : (Binding.names bs).Nodup)
    (hnew : ∀ b ∈ bs, b.name ∉ Binding.names hyps)
    (hordered : OrderedFrom (Binding.names hyps) bs) : Arranged (hyps ++ bs) := by
  refine ⟨?_, h.ordered.append (by simpa using hordered)⟩
  rw [Binding.names, List.map_append, List.nodup_append]
  refine ⟨h.distinct, hnodup, ?_⟩
  rintro x hx y hy rfl
  obtain ⟨b, hb, rfl⟩ := List.mem_map.1 hy
  exact hnew b hb hx

/-- The hypotheses without one that no other mentions. -/
lemma without (h : Arranged hyps) {x : Name}
    (hunused : ∀ b ∈ hyps, b.name ≠ x → x ∉ b.ty.freeVars) : Arranged (hyps.filter (·.name != x)) :=
  ⟨h.distinct.sublist (List.filter_sublist.map _),
    h.ordered.filter (fun y hy => by cases hy) hunused⟩

end Arranged

/-! ### Telescopes -/

/-- Arranged hypotheses, each with a type. -/
structure Telescope (S : Signature) (hyps : List Binding) : Prop extends Arranged hyps where
  typed : ∀ b ∈ hyps, HasType .strict S (Context.scope hyps .strict) b.ty.nameless sort

namespace Telescope

variable {S : Signature} {hyps bs : List Binding}

lemma isScoped (h : Telescope S hyps) : Context.Scoped hyps .strict :=
  fun _ hb _ hx => h.mem_names hb (Term.occurs_nameless.1 hx)

/-- A telescope with further hypotheses over it. -/
lemma append (h : Telescope S hyps) (hnodup : (Binding.names bs).Nodup)
    (hnew : ∀ b ∈ bs, b.name ∉ Binding.names hyps)
    (hscoped : ∀ b ∈ bs, ∀ x ∈ b.ty.freeVars, x ∈ Binding.names hyps)
    (htyped : ∀ b ∈ bs, HasType .strict S (Context.scope hyps .strict) b.ty.nameless sort) :
    Telescope S (hyps ++ bs) := by
  have harranged := h.toArranged.append hnodup hnew (.of_forall hscoped)
  refine ⟨harranged, fun b hb => ?_⟩
  have hb' : HasType .strict S (Context.scope hyps .strict) b.ty.nameless sort :=
    (List.mem_append.1 hb).elim (h.typed b) (htyped b)
  exact Context.hasType_of_mem hb' harranged.distinct fun b hb _ => List.mem_append_left _ hb

/-- A telescope without a hypothesis that no other mentions. -/
lemma without (h : Telescope S hyps) {x : Name}
    (hunused : ∀ b ∈ hyps, b.name ≠ x → x ∉ b.ty.freeVars) :
    Telescope S (hyps.filter (·.name != x)) := by
  have harranged := h.toArranged.without hunused
  refine ⟨harranged, fun b hb => ?_⟩
  obtain ⟨hmem, hbx⟩ := List.mem_filter.1 hb
  refine Context.hasType_of_mem (h.typed b hmem) harranged.distinct fun c hc hocc =>
    List.mem_filter.2 ⟨hc, ?_⟩
  have hcx : c.name ≠ x :=
    fun hcx => hunused b hmem (by simpa using hbx) (hcx ▸ Term.occurs_nameless.1 hocc)
  simpa using hcx

end Telescope

end UniqueEvidence
