/-
What the motive means.

* `Term.Converts`: the test of convertibility says yes whenever it answers;
* `Motive.IsOver.conv_apps_curried`: **the motive as a function, applied to indices and evidence**,
  is the motive at these;
* `Motive.IsOver.conv_instance`: this is a product, and **at a proof it says that the left side,
  carried along the proof, equals the evidence**;
* `Kernel.Comparable.nameless_ty`: if the target has a type, its equation is at the type of the
  evidence;
* `Kernel.curried_means`: both for the motive of a comparison.  At its own indices and reflexivity,
  the motive gives back the equation of the goal, if that is between evidence of the inferred type;
* `Kernel.motive_misses_foreign_type`: an equation at another type is not given back.
-/
import UniqueEvidence.Proofs.Comparisons

namespace UniqueEvidence

open Nameless

/-- The test of convertibility says yes whenever it answers. -/
def Term.Converts (a b : Term) : Prop :=
  ∀ depth answer, convertible depth a b = some answer → answer = true

lemma Term.converts_of_conv {a b : Term} (h : Conv a.nameless b.nameless) : a.Converts b :=
  fun _ _ hanswer => (convertible_iff hanswer).2 h

namespace Motive

variable {m : Motive} {names : List Name} {depth : Nat} {indices : Tuple}
  {evidence t curried : Term}

/-- The motive as a function, applied to indices and evidence, is the motive at these. -/
lemma IsOver.conv_apps_curried (h : m.IsOver names) (havoid : names ⊆ m.avoid)
    (hcurried : m.curried depth = .ok curried) (hlen : indices.length = m.reversed.length)
    (ht : m.target depth indices evidence = .ok t) :
    Conv (curried.apps (Tuple.values indices ++ [evidence])).nameless t.nameless := by
  have hlen' : ((Tuple.values indices).map Term.nameless).length = m.reversed.length := by
    simpa [Tuple.values] using hlen
  have happlied := h.conv_curried havoid hcurried hlen' evidence.nameless
  rw [Term.nameless_apps, List.map_append]
  exact happlied.trans (.of_reduces (h.reduces_target havoid ht).1)

/-- **The motive is a product**, and at a proof of its premise it says that the left side, carried
along the proof, equals the evidence. -/
lemma IsOver.conv_instance (h : m.IsOver names) (havoid : names ⊆ m.avoid)
    (ht : m.target depth indices evidence = .ok t) : ∃ x dom cod, t = .pi x dom cod ∧
      Conv dom.nameless
        (Term.eq m.tupleTy m.reversed.toTerm (Tuple.toTerm indices.reverse)).nameless ∧
      ∀ p, Conv (cod.subst x p).nameless
        (Term.eq (m.head.applyTuple indices) (m.transport indices.reverse p)
          evidence).nameless := by
  obtain ⟨hred, hnormal⟩ := h.reduces_target havoid ht
  obtain ⟨x, dom, cod, rfl, hdom, hcod⟩ := Kernel.eq_pi_of_conv (Conv.of_reduces hred).symm hnormal
  have htuple : tuple ((Tuple.values indices).map Term.nameless).reverse =
      (Tuple.toTerm indices.reverse).nameless := by
    rw [Tuple.nameless_toTerm, Tuple.values, Tuple.values, List.map_reverse, List.map_reverse]
  have hsources : tuple m.sources = (Tuple.toTerm m.reversed).nameless :=
    (Tuple.nameless_toTerm _).symm
  refine ⟨x, dom, cod, rfl, ?_, fun p => ?_⟩
  · rwa [premise, hsources, htuple] at hdom
  · have hinst := hcod.inst (.rfl (t := p.nameless))
    rw [conclusion_inst, List.reverse_reverse, ← Term.nameless_apps, ← Term.applyTuple,
      hsources, htuple] at hinst
    rw [Term.nameless_contract]
    exact hinst

end Motive

lemma Environment.oriented_ty (env : Environment) (e : Equation) : (env.oriented e).ty = e.ty := by
  rw [Environment.oriented]
  split <;> rfl

namespace Kernel

variable {k : Kernel} {goal : Goal} {icount : Int} {e : Equation} {ty : Term} {c : Comparison}
  {avoid : List Name}

/-- What inference gives terms over the hypotheses is their type. -/
lemma hasType_of_infer (hclosed : k.env.Closed) (hgoal : goal.SelfContained) {t T : Term}
    (ht : t.freeVars ⊆ goal.names) (hT : k.infer goal.context t = .ok T) :
    HasType .strict (k.env.signature hclosed .strict) (Context.scope goal.context .strict)
      t.nameless T.nameless :=
  inferAt_sound k hclosed .strict k.depth
    (fun b hb _ hx => hgoal.context b hb (Term.occurs_nameless.1 hx))
    (fun _ hx => Goal.mem_names_context.2 (ht (Term.occurs_nameless.1 hx))) hT

/-- **If the target has a type, its equation is at the type of the evidence**: both are in normal
form. -/
lemma Comparable.nameless_ty (h : k.Comparable goal icount e ty) (hclosed : k.env.Closed)
    (hgoal : goal.SelfContained) {T : Term} (hT : k.infer goal.context goal.target = .ok T) :
    e.ty.nameless = ty.nameless := by
  obtain ⟨hred, hnormal⟩ := normalize_spec h.target
  have hover := hgoal.normalize h.target
  simp only [Equation.toTerm, Term.freeVars, List.append_subset] at hover
  obtain ⟨-, hlhs, hrhs⟩ :=
    ((hasType_of_infer hclosed hgoal hgoal.target hT).reduces hred
      (Discipline.admits_strict _)).eq_inv
  have hside : (k.env.oriented e).rhs.freeVars ⊆ goal.names ∧
      HasType .strict (k.env.signature hclosed .strict)
      (Context.scope goal.context .strict) (k.env.oriented e).rhs.nameless e.ty.nameless := by
    rw [Environment.oriented]
    split
    · exact ⟨hover.1.2, hlhs⟩
    · exact ⟨hover.2, hrhs⟩
  have hsound := hasType_of_infer hclosed hgoal hside.1 h.evidence
  exact (hside.2.unique hsound).eq_of_normal hnormal.1 (isNormal_of_inferAt h.evidence)

/-- At the indices of the comparison and reflexivity, the left side need not be carried. -/
lemma conv_reflexive : Conv
    (Term.eq (c.head.applyTuple c.indices)
      ((c.motive avoid).transport c.indices.reverse (c.motive avoid).reflWitness)
      c.rhs).nameless
    (Term.eq c.evidenceType c.lhs c.rhs).nameless := by
  have hreflexive : (c.motive avoid).transport c.indices.reverse (c.motive avoid).reflWitness =
      (c.motive avoid).reflexiveLhs := by
    rw [Comparison.indices, List.reverse_reverse]
    rfl
  rw [hreflexive, Term.nameless, nameless_reflexiveLhs]
  exact .eq .rfl (Conv.cancel ..) .rfl

/-- An equation between the two sides is the oriented equation of the goal if its type is. -/
lemma Comparable.conv_oriented_iff (h : k.Comparable goal icount e ty)
    (hread : k.ReadOff goal icount e ty c) :
    Conv (Term.eq c.evidenceType c.lhs c.rhs).nameless (k.env.oriented e).toTerm.nameless ↔
      e.ty.alphaEq c.evidenceType = true := by
  have hnormal : e.ty.nameless.IsNormal := (normalize_spec h.target).2.1
  have htype : c.evidenceType.nameless.IsNormal := hread.evidence ▸ isNormal_of_inferAt h.evidence
  rw [Term.alphaEq_iff, hread.lhs, hread.rhs, Equation.toTerm, Environment.oriented_ty]
  constructor
  · intro hconv
    exact (hconv.eq_inj.1.eq_of_normal htype hnormal).symm
  · intro heq
    rw [Term.nameless, Term.nameless, heq]
    exact .rfl

/-- **The motive means what it states.**  Let declared types be closed, and let the types of the
hypotheses and the target of a goal mention only hypotheses.  Take the motive of a comparison, with
names bound away from the hypotheses at least, at any indices, as many as compared, and any
evidence, whatever names they mention.  Then the motive as a function, applied to these, is
convertible with the motive at these.  That is a product over proofs that the indices are equal, and
at any such proof it gives, up to conversion, the equation between the left side carried along the
proof and the evidence.  At the indices of the comparison, its right side and reflexivity this is
the oriented equation of the goal exactly if the type of that equation is the type of the evidence,
up to the names of binders, as it is if the target has a type. -/
theorem curried_means (k : Kernel) (hclosed : k.env.Closed) (goal : Goal)
    (hgoal : goal.SelfContained) (icount : Int) (c : Comparison)
    (hc : (k.comparison goal icount).outcome = .ok c) (avoid : List Name)
    (havoid : goal.names ⊆ avoid) :
    (∀ (indices : Tuple) (evidence : Term), indices.length = c.icount →
      UpToDepth ((c.motive avoid).target k.depth indices evidence) fun t =>
        UpToDepth ((c.motive avoid).curried k.depth) (fun curried =>
          (curried.apps (Tuple.values indices ++ [evidence])).Converts t) ∧
        ∃ x dom cod, t = .pi x dom cod ∧
          dom.Converts
            (.eq (Tuple.ty c.reversed) (Tuple.toTerm c.reversed) (Tuple.toTerm indices.reverse)) ∧
          ∀ p, (cod.subst x p).Converts (.eq (c.head.applyTuple indices)
            (.transport c.head (Tuple.toTerm c.reversed) (Tuple.toTerm indices.reverse) p c.lhs)
              evidence)) ∧
    ∃ e, k.normalize goal.target = .ok e.toTerm ∧
      (∀ x dom cod, (c.motive avoid).target k.depth c.indices c.rhs = .ok (.pi x dom cod) →
        ∀ depth answer,
        Term.convertible depth (cod.subst x (c.motive avoid).reflWitness)
          (k.env.oriented e).toTerm = some answer →
          answer = e.ty.alphaEq c.evidenceType) ∧
      ∀ T, k.infer goal.context goal.target = .ok T → e.ty.alphaEq c.evidenceType = true := by
  have hover := (comparison_over hclosed hgoal hc avoid).2
  have havoid' : goal.names ⊆ (c.motive avoid).avoid := List.Subset.trans havoid subset_avoid
  constructor
  · intro indices evidence hlen
    refine ((c.motive avoid).upToDepth_target k.depth indices evidence).imp fun t ht _ => ⟨?_, ?_⟩
    · refine ((c.motive avoid).upToDepth_curried k.depth).imp fun curried hcurried _ => ?_
      exact Term.converts_of_conv (hover.conv_apps_curried havoid' hcurried hlen ht)
    · obtain ⟨x, dom, cod, rfl, hdom, hcod⟩ := hover.conv_instance havoid' ht
      exact ⟨x, dom, cod, rfl, Term.converts_of_conv hdom, fun p => Term.converts_of_conv (hcod p)⟩
  · obtain ⟨e, ty, hcomparable, hread⟩ := (ends_comparison_comparable goal icount).1 c hc
    refine ⟨e, hcomparable.target, fun x dom cod ht depth answer hanswer => ?_, fun T hT => ?_⟩
    · obtain ⟨_, _, _, heq, -, hcod⟩ := hover.conv_instance havoid' ht
      cases heq
      rw [Bool.eq_iff_iff, Term.convertible_iff hanswer, ← hcomparable.conv_oriented_iff hread]
      have hinst := (hcod _).trans conv_reflexive
      exact ⟨hinst.symm.trans, hinst.trans⟩
    · rw [Term.alphaEq_iff, hread.evidence]
      exact hcomparable.nameless_ty hclosed hgoal hT

end Kernel

namespace Sample

/-- The evidence of a leaf compared with itself. -/
def leafSides : Comparison :=
  ⟨.const "S", [⟨.const "shape", .const "sunit"⟩], .var "h", .var "h", false⟩

/-- Evidence of a leaf, and an equation between it and itself at the given type. -/
def leafAt (ty : Term) : Goal where
  hyps := [⟨"h", .app (.const "S") (.const "sunit")⟩]
  target := .eq ty (.var "h") (.var "h")

end Sample

namespace Kernel

/-- The motive for the evidence of a leaf, at an index and evidence with the names that the motive
itself binds. -/
theorem curried_means_sample :
    ((Sample.kernel .default).comparison
      (Sample.leafAt (.app (.const "S") (.const "sunit"))) 1).outcome =
      .ok Sample.leafSides ∧
    ∃ curried t, (Sample.leafSides.motive ["h"]).curried 40 = .ok curried ∧
      (Sample.leafSides.motive ["h"]).target 40 [⟨.const "shape", .var "i"⟩] (.var "pf") = .ok t ∧
      (curried.apps [.var "i", .var "pf"]).Converts t := by
  have henv : (Sample.kernel .default).env.Scoped :=
    ⟨by decide, by decide, by decide, by decide, by decide⟩
  have hgoal : (Sample.leafAt (.app (.const "S") (.const "sunit"))).SelfContained :=
    ⟨by decide, by decide⟩
  have hc :
      ((Sample.kernel .default).comparison
      (Sample.leafAt (.app (.const "S") (.const "sunit"))) 1).outcome =
      .ok Sample.leafSides := by rfl
  have hsome : ((Sample.leafSides.motive ["h"]).curried 40).toOption.isSome ∧
      ((Sample.leafSides.motive ["h"]).target 40 [⟨.const "shape", .var "i"⟩]
        (.var "pf")).toOption.isSome := by
    decide +kernel
  obtain ⟨curried, hcurried⟩ := Option.isSome_iff_exists.1 hsome.1
  obtain ⟨t, ht⟩ := Option.isSome_iff_exists.1 hsome.2
  rw [Except.toOption_eq_some] at hcurried ht
  have hmeans := (curried_means _ henv.closed _ hgoal 1 _ hc ["h"] (by decide)).1
    [⟨.const "shape", .var "i"⟩] (.var "pf") rfl
  exact ⟨hc, curried, t, hcurried, ht, (hmeans.of_eq_ok ht).1.of_eq_ok hcurried⟩

/-- **An equation at another type is not given back.**  The motive is the same, whether evidence of
a leaf is compared at its own type or at the type of units: at reflexivity it gives an equation at
the type of the evidence, and so not the goal. -/
theorem motive_misses_foreign_type :
    (Sample.kernel .default).env.Closed ∧ (Sample.leafAt .unit).SelfContained ∧
    ((Sample.kernel .default).comparison (Sample.leafAt .unit) 1).outcome = .ok Sample.leafSides ∧
    (Sample.kernel .default).normalize (Sample.leafAt .unit).target =
      .ok (Equation.toTerm ⟨.unit, .var "h", .var "h"⟩) ∧
    ∃ dom cod, (Sample.leafSides.motive ["h"]).target 40 Sample.leafSides.indices
      Sample.leafSides.rhs =
        .ok (.pi "pf" dom cod) ∧
      Term.convertible 40 (cod.subst "pf" (Sample.leafSides.motive ["h"]).reflWitness)
        (Sample.env.oriented ⟨.unit, .var "h", .var "h"⟩).toTerm = some false := by
  have henv : (Sample.kernel .default).env.Scoped :=
    ⟨by decide, by decide, by decide, by decide, by decide⟩
  refine ⟨henv.closed, ⟨by decide, by decide⟩, rfl, rfl,
    .eq (.prod (.const "shape") .unit) (.pair (.const "sunit") .tt) (.pair (.const "sunit") .tt),
    .eq (.app (.const "S") (.const "sunit"))
      (.transport (.const "S") (.pair (.const "sunit") .tt) (.pair (.const "sunit") .tt)
      (.var "pf") (.var "h")) (.var "h"), ?_, by decide +kernel⟩
  exact Except.toOption_eq_some.1 (by decide +kernel)

end Kernel

end UniqueEvidence
