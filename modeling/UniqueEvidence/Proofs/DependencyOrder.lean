/-
Reordering is a stable topological sort.

* `DependencyOrder`: each hypothesis stands after all those of the list that its type mentions;
  `readyFrom_iff`: this is what reordering establishes;
* `reorderFrom_least`: **no order comes earlier**, if hypotheses are compared by their places in the
  list;
* `exists_waiting`: **what stops the search** are hypotheses each of which waits for one of them,
  and `exists_cycle`: these have a cycle; `not_cycle_of_order`: a cycle leaves no order;
* `Kernel.Solves`: what an elimination checks before it puts hypotheses in order, and
  `Kernel.Solves.run_subst`: what it leaves then;
* `LeastOrder`, `reorder_topological`: **reordering finds the least order, and fails only on a
  cycle**.
-/
import Mathlib.Data.Fintype.Card
import Mathlib.Data.Set.Finite.List
import UniqueEvidence.Kernel.Apply
import UniqueEvidence.Proofs.Preservation

namespace UniqueEvidence

/-! ### Dependency order -/

/-- The type of the first hypothesis mentions the second. -/
def Binding.Mentions (b a : Binding) : Prop :=
  a.name ∈ b.ty.freeVars

instance (b a : Binding) : Decidable (b.Mentions a) :=
  inferInstanceAs (Decidable (a.name ∈ b.ty.freeVars))

/-- Each hypothesis stands after all those of the list that its type mentions. -/
def DependencyOrder (order : List Binding) : Prop :=
  ∀ b ∈ order, ∀ a ∈ order, b.Mentions a → order.idxOf a < order.idxOf b

instance (order : List Binding) : Decidable (DependencyOrder order) :=
  inferInstanceAs
    (Decidable (∀ b ∈ order, ∀ a ∈ order, b.Mentions a → order.idxOf a < order.idxOf b))

/-- Of two hypotheses of the list, the type of the first mentions the second. -/
def Needs (hyps : List Binding) (b a : Binding) : Prop :=
  b ∈ hyps ∧ a ∈ hyps ∧ b.Mentions a

/-- The places before that of an entry which does not occur earlier are those of the entries before
it. -/
lemma idxOf_lt_iff {pre post : List Binding} {a b : Binding} (hb : b ∉ pre) :
    (pre ++ b :: post).idxOf a < (pre ++ b :: post).idxOf b ↔ a ∈ pre := by
  have hplace : (pre ++ b :: post).idxOf b = pre.length := by
    rw [List.idxOf_append_of_notMem hb, List.idxOf_cons_self, Nat.add_zero]
  rw [hplace]
  by_cases ha : a ∈ pre
  · rw [List.idxOf_append_of_mem ha]
    exact ⟨fun _ => ha, fun _ => List.idxOf_lt_length_iff.2 ha⟩
  · rw [List.idxOf_append_of_notMem ha]
    exact ⟨fun hlt => by omega, fun hmem => absurd hmem ha⟩

section Distinct

variable {hyps : List Binding} (hdistinct : (Binding.names hyps).Nodup)
include hdistinct

/-- What reordering establishes of hypotheses with distinct names. -/
lemma readyFrom_iff {order : List Binding} (hperm : order.Perm hyps) :
    ReadyFrom (Binding.names hyps) [] order ↔ DependencyOrder order := by
  have hnodup : order.Nodup := (hperm.nodup_iff).2 (List.Nodup.of_map _ hdistinct)
  have hnot : ∀ {pre b post}, order = pre ++ b :: post → b ∉ pre := by
    rintro pre b post rfl hb
    exact (List.nodup_append.1 hnodup).2.2 b hb b List.mem_cons_self rfl
  constructor
  · intro h b hb a ha hmentions
    obtain ⟨pre, post, hsplit⟩ := List.append_of_mem hb
    have hname : a.name ∈ Binding.names hyps := List.mem_map_of_mem (hperm.mem_iff.1 ha)
    obtain ⟨c, hc, hca⟩ :=
      List.mem_map.1 ((h.of_split hsplit _ hmentions hname).resolve_right List.not_mem_nil)
    have hcmem : c ∈ order := hsplit ▸ List.mem_append_left _ hc
    obtain rfl : c = a :=
      List.inj_on_of_nodup_map hdistinct (hperm.mem_iff.1 hcmem) (hperm.mem_iff.1 ha) hca
    rw [hsplit]
    exact (idxOf_lt_iff (hnot hsplit)).2 hc
  · intro h
    refine .of_forall_split fun pre b post hsplit x hx hname => .inl ?_
    obtain ⟨a, ha, rfl⟩ := List.mem_map.1 hname
    have hb : b ∈ order := hsplit ▸ List.mem_append_right _ List.mem_cons_self
    have hlt := h b hb a (hperm.mem_iff.2 ha) hx
    rw [hsplit] at hlt
    exact List.mem_map_of_mem ((idxOf_lt_iff (hnot hsplit)).1 hlt)

end Distinct

/-! ### The order that is found -/

/-- Hypotheses in order stay as they are. -/
lemma reorderFrom_of_ready {names placed : List Name} {hyps : List Binding}
    (h : ReadyFrom names placed hyps) : reorderFrom names placed hyps = some hyps := by
  induction hyps generalizing placed with
  | nil => rw [reorderFrom]
  | cons b hyps ih =>
    have htake : takeReady names placed (b :: hyps) = some (b, hyps) :=
      if_pos (Binding.ready_iff.2 h.1)
    rw [reorderFrom_of_takeReady htake, ih h.2, Option.map_some]

/-- Another order starts with a hypothesis that is ready, which is the one that is taken or stands
after it. -/
lemma first_of_takeReady {names placed : List Name} {pending others order : List Binding}
    {next first : Binding} (htake : takeReady names placed pending = some (next, others))
    (hperm : (first :: order).Perm pending) (hready : ReadyFrom names placed (first :: order))
    (place : Binding → Nat) (hplace : pending.Pairwise fun a b => place a < place b) :
    first = next ∨ place next < place first := by
  obtain ⟨pre, post, rfl, -, -, hpre⟩ := takeReady_eq_some htake
  rcases List.mem_append.1 (hperm.mem_iff.1 List.mem_cons_self) with hmem | hmem
  · have hnot := hpre first hmem
    rw [Binding.ready_iff.2 hready.1] at hnot
    cases hnot
  · rcases List.mem_cons.1 hmem with heq | hpost
    · exact .inl heq
    · exact .inr ((List.pairwise_cons.1 (List.pairwise_append.1 hplace).2.1).1 first hpost)

/-- **No order comes earlier.**  At the first place where another order differs from the one that is
found, it has a later hypothesis. -/
lemma reorderFrom_least {names placed : List Name} {pending order order' : List Binding}
    (horder : reorderFrom names placed pending = some order) (hperm : order'.Perm pending)
    (hready : ReadyFrom names placed order') (place : Binding → Nat)
    (hplace : pending.Pairwise fun a b => place a < place b) :
    order' = order ∨ List.Lex (· < ·) (order.map place) (order'.map place) := by
  induction placed, pending using reorderFrom.induct names generalizing order order' with
  | case1 placed =>
    obtain rfl : [] = order := by simpa [reorderFrom] using horder
    exact .inl (List.perm_nil.1 hperm)
  | case2 placed b rest htake => cases (reorderFrom_of_stuck htake).symm.trans horder
  | case3 placed b rest next others htake _ ih =>
    rw [reorderFrom_of_takeReady htake] at horder
    obtain ⟨order, hrec, rfl⟩ := Option.map_eq_some_iff.1 horder
    cases order' with
    | nil => cases List.nil_perm.1 hperm
    | cons first order' =>
      rcases first_of_takeReady htake hperm hready place hplace with rfl | hlt
      · -- the two agree here, and the rest is as before
        have hperm' : order'.Perm others := (hperm.trans (takeReady_spec htake).1.symm).cons_inv
        have hplace' : others.Pairwise fun a b => place a < place b := by
          obtain ⟨pre, post, hsplit, rfl, -, -⟩ := takeReady_eq_some htake
          rw [hsplit] at hplace
          exact hplace.sublist (List.Sublist.append_left (List.sublist_cons_self _ _) pre)
        rcases ih hrec hperm' hready.2 hplace' with rfl | hlex
        · exact .inl rfl
        · exact .inr (.cons hlex)
      · exact .inr (.rel hlt)

/-- In a list without repetitions, later entries have later places. -/
lemma pairwise_idxOf {hyps : List Binding} (h : hyps.Nodup) :
    hyps.Pairwise fun a b => hyps.idxOf a < hyps.idxOf b := by
  rw [List.pairwise_iff_getElem]
  intro i j hi hj hij
  rwa [h.idxOf_getElem, h.idxOf_getElem]

/-! ### Hypotheses without an order -/

/-- **What stops the search** are hypotheses each of which waits for another one of them. -/
lemma exists_waiting {names placed : List Name} {pending : List Binding}
    (h : reorderFrom names placed pending = none)
    (hnames : ∀ x ∈ names, x ∈ placed ∨ x ∈ Binding.names pending) :
    ∃ waiting, waiting ≠ [] ∧ waiting ⊆ pending ∧ ∀ b ∈ waiting, ∃ a ∈ waiting, b.Mentions a := by
  induction placed, pending using reorderFrom.induct names with
  | case1 placed =>
    rw [reorderFrom] at h
    cases h
  | case2 placed b rest htake =>
    refine ⟨b :: rest, List.cons_ne_nil b rest, List.Subset.refl _, fun c hc => ?_⟩
    have hwaits : ¬ ∀ x ∈ c.ty.freeVars, x ∈ names → x ∈ placed := by
      rw [← Binding.ready_iff, takeReady_eq_none htake c hc]
      exact Bool.false_ne_true
    push Not at hwaits
    obtain ⟨x, hx, hname, hplaced⟩ := hwaits
    obtain ⟨a, ha, rfl⟩ := List.mem_map.1 ((hnames x hname).resolve_left hplaced)
    exact ⟨a, ha, hx⟩
  | case3 placed b rest next others htake _ ih =>
    rw [reorderFrom_of_takeReady htake, Option.map_eq_none_iff] at h
    have hperm := (takeReady_spec htake).1
    have hnames' : ∀ x ∈ names, x ∈ next.name :: placed ∨ x ∈ Binding.names others := by
      intro x hx
      have hmem := hnames x hx
      rw [Binding.names, ← (hperm.map Binding.name).mem_iff] at hmem
      simp only [Binding.names, List.map_cons, List.mem_cons] at hmem ⊢
      tauto
    obtain ⟨waiting, hne, hsub, hwaits⟩ := ih h hnames'
    exact ⟨waiting, hne, fun c hc => hperm.mem_iff.1 (List.mem_cons_of_mem _ (hsub hc)), hwaits⟩

/-- Finitely many hypotheses cannot wait for one another without a cycle. -/
lemma exists_cycle {hyps waiting : List Binding} (hne : waiting ≠ []) (hsub : waiting ⊆ hyps)
    (hwaits : ∀ b ∈ waiting, ∃ a ∈ waiting, b.Mentions a) :
    ∃ b, Relation.TransGen (Needs hyps) b b := by
  by_contra hacyclic
  push Not at hacyclic
  -- without a cycle, one of them would come first among those that the others need
  let later (a b : { c // c ∈ waiting }) : Prop := Relation.TransGen (Needs hyps) b.1 a.1
  have : Finite { c // c ∈ waiting } := (List.finite_toSet waiting).to_subtype
  have : IsTrans { c // c ∈ waiting } later := ⟨fun _ _ _ hab hbc => hbc.trans hab⟩
  have : Std.Irrefl later := ⟨fun a => hacyclic a.1⟩
  obtain ⟨b, hb⟩ := List.exists_mem_of_ne_nil waiting hne
  obtain ⟨first, -, hfirst⟩ :=
    (Finite.wellFounded_of_trans_of_irrefl later).has_min Set.univ ⟨⟨b, hb⟩, trivial⟩
  obtain ⟨a, ha, hmentions⟩ := hwaits first.1 first.2
  exact hfirst ⟨a, ha⟩ trivial (.single ⟨hsub first.2, hsub ha, hmentions⟩)

/-- Along the hypotheses that one needs, places go down. -/
lemma not_cycle_of_order {hyps order : List Binding} (hperm : order.Perm hyps)
    (h : DependencyOrder order) (b : Binding) : ¬ Relation.TransGen (Needs hyps) b b := by
  intro hcycle
  have hdown : ∀ c a, Needs hyps c a → order.idxOf c > order.idxOf a := fun c a hneeds =>
    h c (hperm.mem_iff.2 hneeds.1) a (hperm.mem_iff.2 hneeds.2.1) hneeds.2.2
  have hself : Relation.TransGen (· > ·) (order.idxOf b) (order.idxOf b) :=
    hcycle.lift order.idxOf hdown
  rw [Relation.transGen_eq_self] at hself
  exact lt_irrefl _ hself

/-! ### Eliminating a variable -/

namespace Kernel

variable {k : Kernel} {g : Goal} {x y : Name} {v : Term}

/-- What is checked of an elimination before the hypotheses are put in order: the equation has the
variable on one side and the value on the other, the variable is another hypothesis, which the value
does not mention, and nothing uses the equation. -/
structure Solves (k : Kernel) (g : Goal) (x y : Name) (v : Term) : Prop where
  solved : ∃ e, k.equation g x = .ok e ∧ solvedFor e y = some v
  distinct : y ≠ x
  listed : (g.lookup? y).isSome
  absent : y ∉ v.freeVars
  unused : Kernel.unused g x = .ok ()

/-- From there on, only the order can fail. -/
lemma Solves.run_subst (h : k.Solves g x y v) :
    k.run g (.subst x y) = (reorder (replaced g.hyps x y v)).elim
      (.error (.refused .noOrder)) fun hyps =>
      .ok [⟨hyps, g.target.subst y v⟩] := by
  obtain ⟨e, he, hv⟩ := h.solved
  have hkept : ¬ (y = x ∨ (g.lookup? y).isNone) := by
    simpa [h.distinct, Option.isSome_iff_ne_none] using h.listed
  have hocc : v.occurs y = false := by simpa [Term.occurs] using h.absent
  simp only [run, eliminate, he, hv, hkept, hocc, h.unused, Except.ok_bind,
    if_false, Bool.false_eq_true]
  rw [replaced]
  cases reorder ((g.hyps.filter fun b => b.name != y && b.name != x).map fun b =>
    { b with ty := b.ty.subst y v }) with
  | none => rfl
  | some hyps => rfl

end Kernel

/-! ### The result -/

/-- An arrangement in dependency order.  Any other one has, at the first place where the two differ,
a hypothesis that stands later in the list. -/
structure LeastOrder (hyps order : List Binding) : Prop where
  perm : order.Perm hyps
  ordered : DependencyOrder order
  least : ∀ order', order'.Perm hyps → DependencyOrder order' → order' ≠ order →
    List.Lex (· < ·) (order.map fun b => hyps.idxOf b) (order'.map fun b => hyps.idxOf b)

lemma LeastOrder.unique {hyps order order' : List Binding} (h : LeastOrder hyps order)
    (h' : LeastOrder hyps order') : order = order' := by
  by_contra hne
  have hlt := h.least order' h'.perm h'.ordered (Ne.symm hne)
  have hgt := h'.least order h.perm h.ordered hne
  exact List.lt_asymm hlt hgt

section Distinct

variable {hyps order : List Binding} (hdistinct : (Binding.names hyps).Nodup)
include hdistinct

lemma leastOrder_of_reorder (h : reorder hyps = some order) : LeastOrder hyps order := by
  obtain ⟨hperm, hready⟩ := reorder_spec h
  refine ⟨hperm, (readyFrom_iff hdistinct hperm).1 hready, fun order' hperm' hordered' hne => ?_⟩
  have hready' := (readyFrom_iff hdistinct hperm').2 hordered'
  have hplace := pairwise_idxOf (List.Nodup.of_map _ hdistinct)
  exact (reorderFrom_least h hperm' hready' (fun b => hyps.idxOf b) hplace).resolve_left hne

lemma exists_reorder_iff :
    (∃ order, reorder hyps = some order) ↔ ∃ order, order.Perm hyps ∧ DependencyOrder order := by
  constructor
  · rintro ⟨order, h⟩
    have hleast := leastOrder_of_reorder hdistinct h
    exact ⟨order, hleast.perm, hleast.ordered⟩
  · rintro ⟨order, hperm, hordered⟩
    exact exists_reorderFrom hperm ((readyFrom_iff hdistinct hperm).2 hordered)

lemma reorder_eq_none_iff : reorder hyps = none ↔ ∃ b, Relation.TransGen (Needs hyps) b b := by
  constructor
  · intro h
    obtain ⟨waiting, hne, hsub, hwaits⟩ := exists_waiting h fun x hx => .inr hx
    exact exists_cycle hne hsub hwaits
  · rintro ⟨b, hcycle⟩
    by_contra hsome
    obtain ⟨order, h⟩ := Option.ne_none_iff_exists'.1 hsome
    have hleast := leastOrder_of_reorder hdistinct h
    exact not_cycle_of_order hleast.perm hleast.ordered b hcycle

lemma reorder_eq_some_iff : reorder hyps = some order ↔ LeastOrder hyps order := by
  refine ⟨leastOrder_of_reorder hdistinct, fun hleast => ?_⟩
  obtain ⟨order', h⟩ := (exists_reorder_iff hdistinct).2 ⟨order, hleast.perm, hleast.ordered⟩
  rw [h, (leastOrder_of_reorder hdistinct h).unique hleast]

end Distinct

/-- **Reordering is a stable topological sort** of hypotheses with distinct names.  It returns an
order iff there is one, and it fails iff some hypothesis needs itself, directly or through others.
The order that it returns is the least one, and hypotheses that are in order stay as they are.  An
elimination whose other checks pass leaves this order, or is refused for want of one. -/
theorem reorder_topological (hyps : List Binding) (hdistinct : (Binding.names hyps).Nodup) :
    (∀ order, reorder hyps = some order ↔ LeastOrder hyps order) ∧
    ((∃ order, reorder hyps = some order) ↔ ∃ order, order.Perm hyps ∧ DependencyOrder order) ∧
    (reorder hyps = none ↔ ∃ b, Relation.TransGen (Needs hyps) b b) ∧
    (DependencyOrder hyps → reorder hyps = some hyps) ∧
    ∀ (k : Kernel) (g : Goal) (x y : Name) (v : Term), k.Solves g x y v →
      replaced g.hyps x y v = hyps →
      (∀ order, LeastOrder hyps order → k.run g (.subst x y) = .ok [⟨order, g.target.subst y v⟩]) ∧
      ((¬ ∃ order, order.Perm hyps ∧ DependencyOrder order) →
        k.run g (.subst x y) = .error (.refused .noOrder)) := by
  refine ⟨fun order => reorder_eq_some_iff hdistinct, exists_reorder_iff hdistinct,
    reorder_eq_none_iff hdistinct, ?_, ?_⟩
  · intro hordered
    exact reorderFrom_of_ready ((readyFrom_iff hdistinct .rfl).2 hordered)
  · rintro k g x y v hsolves rfl
    rw [hsolves.run_subst]
    refine ⟨fun order hleast => ?_, fun hnone => ?_⟩
    · rw [(reorder_eq_some_iff hdistinct).2 hleast, Option.elim_some]
    · rw [← exists_reorder_iff hdistinct, ← Option.isSome_iff_exists,
        Option.not_isSome_iff_eq_none] at hnone
      rw [hnone, Option.elim_none]

/-- Evidence of a tree that stands before the tree, and another tree. -/
def Sample.scattered : List Binding :=
  [⟨"h", .app (.const "S") (.var "y")⟩, ⟨"x", .const "shape"⟩, ⟨"y", .const "shape"⟩]

example : ¬ DependencyOrder Sample.scattered ∧
    DependencyOrder [⟨"x", .const "shape"⟩, ⟨"y", .const "shape"⟩,
      ⟨"h", .app (.const "S") (.var "y")⟩] := by
  decide

/-- Evidence of `x`, a proof about the evidence, and an equation that makes `x` depend on this
proof. -/
def Sample.circular : Goal where
  hyps := [⟨"x", .const "shape"⟩, ⟨"h", .app (.const "S") (.var "x")⟩,
    ⟨"p", .eq (.app (.const "S") (.var "x")) (.var "h") (.var "h")⟩,
    ⟨"e", .eq (.const "shape") (.var "x") (.app (.const "f") (.var "p"))⟩]
  target := .eq (.const "shape") (.var "x") (.var "x")

lemma Sample.solves_circular :
    (Sample.kernel .default).Solves Sample.circular "e" "x" (.app (.const "f") (.var "p")) where
  solved := ⟨⟨.const "shape", .var "x", .app (.const "f") (.var "p")⟩, rfl, by decide⟩
  distinct := by decide
  listed := by decide
  absent := by decide
  unused := rfl

/-- The evidence moves behind its tree and no further; and the evidence and the proof about it, each
of which comes to need the other, have no order. -/
theorem reorder_topological_sample :
    LeastOrder Sample.scattered [⟨"x", .const "shape"⟩, ⟨"y", .const "shape"⟩,
      ⟨"h", .app (.const "S") (.var "y")⟩] ∧
    (∃ b, Relation.TransGen
      (Needs (replaced Sample.circular.hyps "e" "x" (.app (.const "f") (.var "p")))) b b) ∧
    (Sample.kernel .default).run Sample.circular (.subst "e" "x") = .error (.refused .noOrder) := by
  have hscattered := reorder_topological Sample.scattered (by decide)
  have hcircular :=
    reorder_topological (replaced Sample.circular.hyps "e" "x" (.app (.const "f") (.var "p")))
      (by decide +kernel)
  have hnone : reorder (replaced Sample.circular.hyps "e" "x" (.app (.const "f") (.var "p"))) =
    none := by decide +kernel
  refine ⟨(hscattered.1 _).1 (by decide +kernel), hcircular.2.2.1.1 hnone, ?_⟩
  refine (hcircular.2.2.2.2 _ _ _ _ _ Sample.solves_circular rfl).2 fun horder => ?_
  obtain ⟨order, hsome⟩ := hcircular.2.1.2 horder
  cases hnone.symm.trans hsome

end UniqueEvidence
