/-
What the engine closes is true of trees.

* `Certificate.mentionsSort_of_fits`, `Kernel.maintains_small`: a run whose opening calls do not
  mention the universe makes no call that does, since the terms of all later calls are computed from
  the goals;
* `Motive.IsSortFree`, `Kernel.comparison_sortFree`: on a goal about trees the run compares
  first-order terms at a simple type, so its motive does not mention the universe;
* `Kernel.valid_of_solve`: a goal about trees that a run closes is valid;
* `Kernel.eval_eq_of_solve`: **if a run closes a goal about trees, both sides of its target evaluate
  to the same tree** under every assignment of trees to its hypotheses.
-/
import UniqueEvidence.Proofs.Replay
import UniqueEvidence.Proofs.TreeModel

namespace UniqueEvidence

open Nameless

/-! ### Certificates without the universe -/

namespace Certificate

variable {k : Kernel}

mutual

/-- A certificate whose calls are allowed only without the universe does not mention it. -/
theorem mentionsSort_of_fits {goal : Goal} :
    ∀ {c : Certificate}, k.Fits (fun _ call => call.mentionsSort = false) goal c →
    c.mentionsSort = false
  | .hole _, _ => rfl
  | .step call children, h => by
    rw [Kernel.Fits] at h
    obtain ⟨hcall, subgoals, -, hchildren⟩ := h
    rw [mentionsSort, hcall, mentionsSortAll_of_fitsAll hchildren]
    rfl

theorem mentionsSortAll_of_fitsAll {goals : List Goal} : ∀ {cs : List Certificate},
    k.FitsAll (fun _ call => call.mentionsSort = false) goals cs → mentionsSortAll cs = false
  | [], _ => rfl
  | c :: rest, h => by
    rw [Kernel.FitsAll] at h
    obtain ⟨goal, others, -, hc, hrest⟩ := h
    rw [mentionsSortAll, mentionsSort_of_fits hc, mentionsSortAll_of_fitsAll hrest]
    rfl

end

end Certificate

namespace Term

lemma mentionsSort_apps {f : Term} {as : List Term} :
    (f.apps as).mentionsSort = false ↔ f.mentionsSort = false ∧
      ∀ a ∈ as, a.mentionsSort = false := by
  induction as generalizing f with
  | nil => simp
  | cons a as ih =>
    rw [apps_cons, ih]
    simp [mentionsSort, and_assoc]

lemma mentionsSort_lams {bs : List Binding} {body : Term}
    (hbs : ∀ b ∈ bs, b.ty.mentionsSort = false) (hbody : body.mentionsSort = false) :
    (lams bs body).mentionsSort = false := by
  induction bs with
  | nil => exact hbody
  | cons b bs ih =>
    change (lam b.name b.ty (lams bs body)).mentionsSort = false
    rw [mentionsSort, hbs b List.mem_cons_self,
      ih fun b' hb' => hbs b' (List.mem_cons_of_mem _ hb')]
    rfl

lemma mentionsSort_normalize {k : Kernel} {t u : Term} (h : k.normalize t = .ok u)
    (ht : t.mentionsSort = false) : u.mentionsSort = false :=
  sortFree_nameless.1 (Kernel.normalize_sortFree h (sortFree_nameless.2 ht).small)

end Term

namespace Motive

/-- The parts of the motive do not mention the universe. -/
structure IsSortFree (m : Motive) : Prop where
  head : m.head.mentionsSort = false
  types : ∀ s ∈ m.reversed, s.ty.mentionsSort = false
  values : ∀ s ∈ m.reversed, s.value.mentionsSort = false
  lhs : m.lhs.mentionsSort = false

variable {k : Kernel} {m : Motive}

lemma mentionsSort_toTerm {t : Tuple} (h : ∀ s ∈ t, s.value.mentionsSort = false) :
    (Tuple.toTerm t).mentionsSort = false := by
  induction t with
  | nil => rfl
  | cons s t ih =>
    change (Term.pair s.value (Tuple.toTerm t)).mentionsSort = false
    rw [Term.mentionsSort, h s List.mem_cons_self,
      ih fun s' hs' => h s' (List.mem_cons_of_mem _ hs')]
    rfl

lemma mentionsSort_applyTuple {f : Term} {t : Tuple} (hf : f.mentionsSort = false)
    (h : ∀ s ∈ t, s.value.mentionsSort = false) : (f.applyTuple t).mentionsSort = false := by
  refine Term.mentionsSort_apps.2 ⟨hf, fun v hv => ?_⟩
  obtain ⟨s, hs, rfl⟩ := List.mem_map.1 hv
  exact h s hs

namespace IsSortFree

lemma tupleTy (h : m.IsSortFree) : m.tupleTy.mentionsSort = false := by
  have htypes : ∀ ty ∈ Tuple.types m.reversed, ty.mentionsSort = false := by
    intro ty hty
    obtain ⟨s, hs, rfl⟩ := List.mem_map.1 hty
    exact h.types s hs
  rw [Motive.tupleTy, Tuple.ty]
  generalize Tuple.types m.reversed = types at htypes
  induction types with
  | nil => rfl
  | cons ty types ih =>
    change (Term.prod ty (tupleType types)).mentionsSort = false
    rw [Term.mentionsSort, htypes ty List.mem_cons_self,
      ih fun ty' hty' => htypes ty' (List.mem_cons_of_mem _ hty')]
    rfl

lemma reflWitness (h : m.IsSortFree) : m.reflWitness.mentionsSort = false := by
  rw [Motive.reflWitness, Term.mentionsSort, h.tupleTy, mentionsSort_toTerm h.values]
  rfl

lemma transport (h : m.IsSortFree) {ainds : Tuple} {proof : Term}
    (hainds : ∀ s ∈ ainds, s.value.mentionsSort = false) (hproof : proof.mentionsSort = false) :
    (m.transport ainds proof).mentionsSort = false := by
  rw [Motive.transport, Term.mentionsSort, h.head, mentionsSort_toTerm h.values,
    mentionsSort_toTerm hainds, hproof, h.lhs]
  rfl

lemma statement (h : m.IsSortFree) {ainds : Tuple} {evidence T : Term}
    (hainds : ∀ s ∈ ainds, s.value.mentionsSort = false) (hevidence : evidence.mentionsSort = false)
    (hT : m.statement k.depth ainds evidence = .ok T) : T.mentionsSort = false := by
  rw [Motive.statement, Except.bind_eq_ok] at hT
  obtain ⟨family, hfamily, hT⟩ := hT
  obtain rfl := Except.ok.inj hT
  have hfamily' : family.mentionsSort = false :=
    Term.mentionsSort_normalize (k := k) hfamily
      (mentionsSort_applyTuple h.head (by simpa using hainds))
  have htransport : ∀ x, (m.transport ainds (.var x)).mentionsSort = false :=
    fun x => h.transport hainds rfl
  simp only [Term.mentionsSort, h.tupleTy, mentionsSort_toTerm h.values, mentionsSort_toTerm hainds,
    hfamily', htransport, hevidence, Bool.or_self]

lemma target (h : m.IsSortFree) {indices : Tuple} {evidence T : Term}
    (hindices : ∀ s ∈ indices, s.value.mentionsSort = false)
    (hevidence : evidence.mentionsSort = false) (hT : m.target k.depth indices evidence = .ok T) :
    T.mentionsSort = false := by
  rw [Motive.target, Except.bind_eq_ok] at hT
  obtain ⟨U, hU, hT⟩ := hT
  exact Term.mentionsSort_normalize (k := k) hT (h.statement (by simpa using hindices) hevidence hU)

lemma curried (h : m.IsSortFree) {T : Term} (hT : m.curried k.depth = .ok T) :
    T.mentionsSort = false := by
  rw [Motive.curried, Except.bind_eq_ok] at hT
  obtain ⟨body, hbody, hT⟩ := hT
  obtain rfl := Except.ok.inj hT
  set e := fresh "e" m.avoid
  set bs := freshBindings (Tuple.types m.reversed).reverse (e :: m.avoid) "i"
  have hindices : ∀ s ∈ Tuple.ofBindings bs, s.value.mentionsSort = false := by
    intro s hs
    obtain ⟨b, -, rfl⟩ := List.mem_map.1 hs
    rfl
  refine Term.mentionsSort_lams (fun b hb => ?_) ?_
  · obtain ⟨s, hs, hty⟩ := List.mem_map.1 (List.mem_reverse.1 (mem_of_zipWith hb).2)
    exact hty ▸ h.types s hs
  · rw [Term.mentionsSort, mentionsSort_applyTuple h.head hindices,
      h.statement (by simpa using hindices) rfl hbody]
    rfl

end IsSortFree

end Motive

namespace Kernel

variable {k : Kernel} {goal : Goal}

/-- Over declarations without the universe, calls without it keep types small. -/
lemma maintains_small (henv : k.env.Predicative) :
    k.Maintains Goal.Small fun _ call => call.mentionsSort = false where
  kept hg hcall happly := apply_small hg henv (fun _ ht => Call.sortFree_of_mem hcall ht) happly
  termless _ rule h := by
    refine List.any_eq_false.2 fun a ha => ?_
    cases a with
    | term t => exact absurd ha (h.not_mem t)
    | _ => simp [Argument.mentionsSort]
  normal hg ht := by
    have hfree := Term.sortFree_nameless.1 (normalize_sortFree ht hg.target)
    simp [Rule.call, Call.mentionsSort, Argument.mentionsSort, hfree]

/-- A run opens with calls that do not mention the universe, if what it compares does not. -/
lemma opens_sortFree {c : Comparison} {curried : Term} (hrhs : c.rhs.mentionsSort = false)
    (hm : (c.motive goal.names).IsSortFree)
    (hcurried : (c.motive goal.names).curried k.depth = .ok curried) :
    k.Opens Goal.Small (fun _ call => call.mentionsSort = false) goal c
      (c.motive goal.names) curried := by
  have hindices : ∀ s ∈ c.indices, s.value.mentionsSort = false :=
    fun s hs => hm.values s (List.mem_reverse.1 hs)
  refine ⟨fun _ _ _ => ?_, fun _ _ _ target htarget => ?_, fun _ _ _ => ?_⟩
  · have htype : c.evidenceType.mentionsSort = false :=
      Motive.mentionsSort_applyTuple hm.head hindices
    have hlhs : (c.motive goal.names).reflexiveLhs.mentionsSort = false :=
      hm.transport hm.values hm.reflWitness
    simp [Rule.call, Call.mentionsSort, Argument.mentionsSort, Term.mentionsSort, htype, hlhs, hrhs]
  · simp [Rule.call, Call.mentionsSort, Argument.mentionsSort,
      hm.target hindices hrhs htarget, hm.reflWitness]
  · simp [Rule.call, Call.mentionsSort, Argument.mentionsSort, hrhs, hm.curried hcurried]

/-! ### Runs on goals about trees -/

section Runs

variable (henv : k.env.FirstOrder) (hgoal : k.WellTyped IsSort goal)
include henv hgoal

/-- Inference gives first-order terms over the variables a simple type. -/
lemma isSimple_of_infer {t T : Term}
    (ht : t.nameless.IsFirstOrder k.env.ctorArity? (Ref.IsAmong (goal.valueVars k.env)) 0)
    (h : k.infer goal.context t = .ok T) :
    T.nameless.IsSimple k.env.ctorArity? (Ref.IsAmong (goal.valueVars k.env)) := by
  have htyped := hgoal.typed_of_closed henv.closed
  have hover : Context.Permits goal.hyps .strict t := by
    intro x hx
    obtain ⟨y, hy, hxy⟩ := ht.of_occurs hx
    obtain rfl : x = y := by simpa using hxy
    exact Goal.valueVars_subset hy
  have hT := isNormal_of_inferAt h
  rw [htyped.context_eq] at h
  obtain ⟨U, hU, hconv⟩ := hgoal.simple henv ht
    (inferAt_sound k henv.closed .strict k.depth htyped.telescope.isScoped hover h)
  obtain rfl : U = T.nameless := hconv.eq_of_normal hU.isFlat.isNormal hT
  exact hU

variable (hform : goal.isAboutTrees k.env)
include hform

/-- **What a run on a goal about trees compares** does not mention the universe, nor does the motive
for it. -/
theorem comparison_sortFree {icount : Int} {c : Comparison}
    (hc : (k.comparison goal icount).outcome = .ok c) :
    c.rhs.mentionsSort = false ∧ (c.motive goal.names).IsSortFree := by
  obtain ⟨-, ⟨e, he, hsides⟩, hty, hslots⟩ := comparison_eq_ok hc
  have hside : ∀ t, t = e.lhs ∨ t = e.rhs →
      t.isFirstOrder k.env.ctorArity? (goal.valueVars k.env) 0 := by
    have hequation := (Bool.and_eq_true_iff.1 hform).2
    cases htarget : goal.target with
    | eq ty l r =>
      rw [htarget] at hequation he
      obtain ⟨hl, hr⟩ := Bool.and_eq_true_iff.1 hequation
      obtain ⟨rfl, rfl, -⟩ :=
        (Term.isFlat_of_isFirstOrder hl).of_normalize_eq (Term.isFlat_of_isFirstOrder hr) he
      rintro t (rfl | rfl)
      · exact hl
      · exact hr
    | _ =>
      rw [htarget] at hequation
      cases hequation
  have hlhs := hside c.lhs (hsides.elim (fun h => .inl h.1) fun h => .inr h.1)
  have hrhs := hside c.rhs (hsides.elim (fun h => .inr h.2) fun h => .inl h.2)
  -- the type of the evidence is a family at first-order indices, each of which has a simple type
  have htype := isSimple_of_infer henv hgoal (Term.isFirstOrder_nameless hrhs) hty
  rw [Comparison.evidenceType, Term.applyTuple, Term.nameless_apps] at htype
  obtain ⟨hhead, hargs⟩ := htype.of_apps
  have hvalue : ∀ s ∈ c.reversed,
      s.value.nameless.IsFirstOrder k.env.ctorArity? (Ref.IsAmong (goal.valueVars k.env)) 0 :=
        fun s hs =>
    hargs _ (List.mem_map_of_mem (List.mem_map_of_mem (List.mem_reverse.2 hs)))
  have hfree : ∀ {t : Term}, t.nameless.IsFlat → t.mentionsSort = false :=
    fun ht => Term.sortFree_nameless.1 ht.sortFree
  exact ⟨hfree (Term.isFlat_of_isFirstOrder hrhs).toNameless, hfree hhead.isFlat,
    fun s hs => hfree (isSimple_of_infer henv hgoal (hvalue s hs) (hslots s hs)).isFlat, fun s hs =>
    hfree (hvalue s hs).isFlat, hfree (Term.isFlat_of_isFirstOrder hlhs).toNameless⟩

/-- **A goal about trees that a run closes is valid.** -/
theorem valid_of_solve (hregistry : k.registry.OfDataTypes) {icount : Int} {bounds : Bounds}
    {s : Solution} (hrun : (k.solve goal icount bounds).outcome = .ok s)
    (hclosed : s.isClosed = true) : goal.Valid (k.env.signature henv.closed .erased) := by
  have hfits : k.Fits (fun _ call => call.mentionsSort = false) goal s.proof := by
    refine fits_solve (maintains_small henv.predicative) (hgoal.small henv hform)
      (fun c curried hc hcurried => ?_) hrun
    obtain ⟨hrhs, hmotive⟩ := comparison_sortFree henv hgoal hform hc
    exact opens_sortFree hrhs hmotive hcurried
  have hreplay : (k.replay goal s.proof).outcome = .ok [] := by
    rw [Solution.isClosed, List.isEmpty_iff] at hclosed
    exact hclosed ▸ covers_of_fits hfits
  exact (follows_of_replay k henv.plain hregistry.plain hgoal.grounded
    (Certificate.mentionsSort_of_fits hfits) hreplay).valid (by simp)

end Runs

/-- **What the engine closes is true of trees.**  The declarations have no constants, take data to
data, and have evidence of data and of evidence at first-order indices; the deciders are those for
data types; the goal is well typed, its hypotheses are variables of data, variables of evidence and
equations between first-order terms, and its target is such an equation.  If a run closes the goal,
both sides of the target evaluate to the same tree whenever the variables are assigned trees of
their types under which the equations hold. -/
theorem eval_eq_of_solve (k : Kernel) (henv : k.env.FirstOrder) (hregistry : k.registry.OfDataTypes)
    (hyps : List Binding) (ty l r : Term) (hgoal : k.WellTyped IsSort ⟨hyps, .eq ty l r⟩)
    (hform : Goal.isAboutTrees k.env ⟨hyps, .eq ty l r⟩) (icount : Int) (bounds : Bounds)
    (s : Solution) (hrun : (k.solve ⟨hyps, .eq ty l r⟩ icount bounds).outcome = .ok s)
    (hclosed : s.isClosed = true) (σ : Name → Term) (hσ : AssignsTrees k.env ⟨hyps, .eq ty l r⟩ σ) :
    l.eval σ = r.eval σ :=
  hgoal.holdsAt_of_valid henv hform hσ (valid_of_solve henv hgoal hform hregistry hrun hclosed)

end Kernel

namespace Sample

lemma firstOrder : env.FirstOrder :=
  ⟨rfl, by decide, by decide, by decide, by decide, by decide⟩

/-- Two trees, a third that equals the first, and evidence of a node. -/
def nodeHyps : List Binding :=
  [⟨"x", .const "shape"⟩, ⟨"y", .const "shape"⟩, ⟨"z", .const "shape"⟩,
    ⟨"e", .eq (.const "shape") (.var "x") (.var "z")⟩, ⟨"h", nodeType⟩]

/-- A node for `x` and `z`, a leaf for `y`, and the evidence of the node that these are the parts
of. -/
def trees : Name → Term
  | .text "y" => .const "sunit"
  | .text "h" =>
    Term.apps (.const "s_node") [Term.apps (.const "spair") [.const "sunit", .const "sunit"],
      .const "sunit"]
  | _ => Term.apps (.const "spair") [.const "sunit", .const "sunit"]

lemma assignsTrees (target : Term) : AssignsTrees env ⟨nodeHyps, target⟩ trees := by
  have hsunit : env.dataCtor? "sunit" = some (Examples.shape, ⟨"sunit", []⟩) := rfl
  have hspair : env.dataCtor? "spair" =
    some (Examples.shape, ⟨"spair", [.const "shape", .const "shape"]⟩) := rfl
  have hs_node : env.familyCtor? "s_node" =
    some (family, ⟨"s_node", [⟨"a", .const "shape"⟩, ⟨"b", .const "shape"⟩],
    [Term.apps (.const "spair") [.var "a", .var "b"]]⟩) := rfl
  have hleaf : DataTerm env [] (.const "sunit") [] (.const "shape") := (DataTerm.ctor hsunit :)
  have hnode : DataTerm env [] (trees "x") [] (.const "shape") :=
    ((DataTerm.ctor hspair).app hleaf).app hleaf
  have hevidence : Tree env (trees "h") (nodeType.eval trees) :=
    .inr ⟨_, _, ((EvidenceTree.ctor hs_node).datum hnode).datum hleaf, by decide⟩
  intro b hb
  simp only [nodeHyps, List.mem_cons, List.not_mem_nil, or_false] at hb
  rcases hb with rfl | rfl | rfl | rfl | rfl
  · exact ⟨fun _ => .inl hnode, trivial⟩
  · exact ⟨fun _ => .inl hleaf, trivial⟩
  · exact ⟨fun _ => .inl hnode, trivial⟩
  · exact ⟨nofun, rfl⟩
  · exact ⟨fun _ => hevidence, trivial⟩

end Sample

/-- The run closes the goal that `h` is `s_node x y`, so the tree for `h` is the node of those for
`x` and `y`. -/
theorem Kernel.eval_eq_of_solve_sample : ∃ s,
    ((Sample.kernel Sample.registry).solve ⟨Sample.nodeHyps, Sample.goal.target⟩ 1 {}).outcome =
      .ok s ∧ s.isClosed = true ∧
    AssignsTrees Sample.env ⟨Sample.nodeHyps, Sample.goal.target⟩ Sample.trees ∧
    (Term.var "h").eval Sample.trees =
      (Term.apps (.const "s_node") [.var "x", .var "y"]).eval Sample.trees := by
  have hgoal : (Sample.kernel Sample.registry).WellTyped IsSort ⟨Sample.nodeHyps,
      Sample.goal.target⟩ :=
    ⟨by decide +kernel, by decide +kernel, by decide +kernel, by decide +kernel, by decide +kernel⟩
  have hrun :
      ((Sample.kernel Sample.registry).solve ⟨Sample.nodeHyps, Sample.goal.target⟩ 1
      {}).outcome.toOption.map (·.isClosed) = some true := by decide +kernel
  cases hs :
    ((Sample.kernel Sample.registry).solve ⟨Sample.nodeHyps, Sample.goal.target⟩ 1 {}).outcome with
  | error f =>
    rw [hs] at hrun
    cases hrun
  | ok s =>
    rw [hs] at hrun
    have hclosed : s.isClosed = true := Option.some.inj hrun
    have hσ := Sample.assignsTrees Sample.goal.target
    exact ⟨s, rfl, hclosed, hσ,
      eval_eq_of_solve (Sample.kernel Sample.registry) Sample.firstOrder (.register .default rfl)
      Sample.nodeHyps Sample.nodeType _ _ hgoal (by decide) 1 {} s hs hclosed Sample.trees hσ⟩

end UniqueEvidence
