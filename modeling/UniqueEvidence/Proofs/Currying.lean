/-
Functions of several arguments, from functions of tuples.

* `Tuple.assignment`: the values of a tuple, for the names that a curried function binds.
  `Tuple.map_subst_assignment`: its variables get the values; `Tuple.assignment_of_mem`: names that
  are avoided keep their meaning;
* `conv_applyTuple_curry`: **a curried function, applied to a tuple**, is its body under this
  assignment;
* `applyTuple_curry`: **application undoes currying**, whatever names the values mention, also where
  the tuple is reversed in between; the bound names are new and differ from one another.
-/
import UniqueEvidence.Proofs.MotiveMeaning

namespace UniqueEvidence

open Nameless

/-! ### The assignment -/

namespace Tuple

/-- The values, for the names that a function curried over their types binds. -/
def assignment (args : Tuple) (avoid : List Name) (base : Name) : Ref → Nameless :=
  assignAll ref (freshBindings (types args) avoid base) ((values args).map Term.nameless)

variable (args : Tuple) (avoid : List Name) (base : Name)

lemma length_values_eq :
    ((values args).map Term.nameless).length = (freshBindings (types args) avoid base).length := by
  simp [freshBindings, types, values]

/-- The bound variables stand for the values. -/
lemma map_subst_assignment : (values (ofBindings (freshBindings (types args) avoid base))).map
    (fun v => v.nameless.subst (args.assignment avoid base)) = (values args).map Term.nameless := by
  rw [← map_assignAll (γ := ref) (nodup_freshBindings (types args) avoid base)
    (args.length_values_eq avoid base), values, ofBindings, List.map_map, List.map_map]
  rfl

variable {avoid}

/-- Names that are avoided stand for themselves. -/
lemma assignment_of_mem {x : Name} (hx : x ∈ avoid) :
    args.assignment avoid base (.free x) = ref (.free x) :=
  assignAll_of_not_mem fun hmem => not_mem_of_mem_freshBindings hmem hx

end Tuple

/-! ### Application -/

variable {avoid : List Name} {f : Term} (base : Name) (args : Tuple)

/-- **A curried function, applied**: its body, with the values for the bound names. -/
lemma conv_applyTuple_curry (avoid : List Name) (body : Tuple → Term) :
    Conv ((curry (Tuple.types args) body avoid base).applyTuple args).nameless
      ((body (Tuple.ofBindings (freshBindings (Tuple.types args) avoid base))).nameless.subst
        (args.assignment avoid base)) := by
  have hconv := conv_lams_apps (args.length_values_eq avoid base)
    (body (Tuple.ofBindings (freshBindings (Tuple.types args) avoid base))) ref
  rw [subst_ref] at hconv
  rw [Term.applyTuple, Term.nameless_apps, curry]
  exact hconv

/-- A function of names that are avoided is left alone, so that the assignment acts on the values it
is applied to. -/
lemma subst_applyTuple (hf : f.freeVars ⊆ avoid) (t : Tuple) :
    (f.applyTuple t).nameless.subst (args.assignment avoid base) =
    f.nameless.apps
      ((Tuple.values t).map fun v => v.nameless.subst (args.assignment avoid base)) := by
  rw [Term.applyTuple, Term.nameless_apps, subst_apps, List.map_map,
    Term.nameless_subst_of_fixed fun x hx => args.assignment_of_mem base (hf hx)]
  rfl

lemma conv_apply_curry (hf : f.freeVars ⊆ avoid) :
    Conv ((curry (Tuple.types args) f.applyTuple avoid base).applyTuple args).nameless
      (f.applyTuple args).nameless := by
  have hconv := conv_applyTuple_curry base args avoid f.applyTuple
  rwa [subst_applyTuple base args hf, Tuple.map_subst_assignment, ← Term.nameless_apps] at hconv

lemma conv_apply_curry_reverse (hf : f.freeVars ⊆ avoid) :
    Conv ((curry (Tuple.types args) (fun t => f.applyTuple t.reverse) avoid base).applyTuple
      args).nameless
      (f.applyTuple args.reverse).nameless := by
  have hreverse : ∀ t : Tuple, Tuple.values t.reverse = (Tuple.values t).reverse :=
    fun t => List.map_reverse
  have hconv := conv_applyTuple_curry base args avoid fun t => f.applyTuple t.reverse
  rwa [subst_applyTuple base args hf, hreverse, List.map_reverse, Tuple.map_subst_assignment,
    ← List.map_reverse, ← hreverse, ← Term.nameless_apps] at hconv

/-- **Application undoes currying**, also through the reversed tuple.  The values may mention the
names that are bound. -/
theorem applyTuple_curry (base : Name) (xs : List Term) (avoid : List Name) (f : Term)
    (hf : f.freeVars ⊆ avoid) (args : Tuple) (hargs : Tuple.types args = xs) :
    ((curry xs f.applyTuple avoid base).applyTuple args).Converts (f.applyTuple args) ∧
    ((curry xs (fun t => f.applyTuple t.reverse) avoid base).applyTuple args).Converts
      (f.applyTuple args.reverse) ∧
    ∃ bs : List Binding, bs.map Binding.ty = xs ∧ (Binding.names bs).Nodup ∧
      (∀ x ∈ Binding.names bs, x ∉ avoid) ∧
      ∀ body, curry xs body avoid base = Term.lams bs (body (Tuple.ofBindings bs)) := by
  subst hargs
  exact ⟨Term.converts_of_conv (conv_apply_curry base args hf),
    Term.converts_of_conv (conv_apply_curry_reverse base args hf),
    freshBindings (Tuple.types args) avoid base, types_freshBindings .., nodup_freshBindings ..,
    fun _ => not_mem_of_mem_freshBindings, fun _ => rfl⟩

/-- The values are the names that are bound, in the other order: to put them in one by one, the
inner binder has to be renamed. -/
theorem applyTuple_curry_sample :
    curry [.const "D", .const "D"] (fun t => (Term.var "g").applyTuple t.reverse) ["g"] "x" =
      .lam "x" (.const "D") (.lam "x1" (.const "D") (.apps (.var "g") [.var "x1", .var "x"])) ∧
    Term.convertible 9
        ((curry [.const "D", .const "D"] (fun t => (Term.var "g").applyTuple t.reverse) ["g"]
          "x").applyTuple
          [⟨.const "D", .var "x1"⟩, ⟨.const "D", .var "x"⟩])
        (.apps (.var "g") [.var "x", .var "x1"]) = some true := by
  refine ⟨by decide +kernel, ?_⟩
  have hsubset : (Term.var "g").freeVars ⊆ ["g"] := List.Subset.refl _
  have hconv := (applyTuple_curry "x" [.const "D", .const "D"] ["g"] (.var "g") hsubset
    [⟨.const "D", .var "x1"⟩, ⟨.const "D", .var "x"⟩] rfl).2.1
  obtain ⟨answer, hanswer⟩ : ∃ answer, Term.convertible 9
      ((curry [.const "D", .const "D"] (fun t => (Term.var "g").applyTuple t.reverse) ["g"]
        "x").applyTuple [⟨.const "D", .var "x1"⟩, ⟨.const "D", .var "x"⟩])
      (.apps (.var "g") [.var "x", .var "x1"]) = some answer :=
        Option.isSome_iff_exists.1 (by decide +kernel)
  exact hanswer.trans (congrArg some (hconv 9 answer hanswer))

end UniqueEvidence
