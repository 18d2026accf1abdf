/-
Kernels that give constants the same types.

* `Kernel.Agrees`: the same depth, the same types of constants and the same constructors, whatever
  else is declared or can be decided;
* `Kernel.Agrees.infer_eq`: **terms then have the same types**;
* `Kernel.Agrees.comparison_eq`, `Kernel.Agrees.checkMotive_eq`: so goals compare in the same way,
  and the same motives fit;
* `Kernel.Agrees.run_eq`: the rules with which a run opens leave the same goals.
-/
import UniqueEvidence.Proofs.Outcome
import UniqueEvidence.Uniqueness.Solution

namespace UniqueEvidence

/-- A rule with which a run opens. -/
def Rule.IsOpening : Rule → Prop
  | symmetry | change _ | generalize _ _ => True
  | _ => False

/-- The kernels normalise to the same depth, and their declarations give constants the same types
and name the same constructors. -/
structure Kernel.Agrees (k k' : Kernel) : Prop where
  depth : k'.depth = k.depth
  constType? : ∀ c, k'.env.constType? c = k.env.constType? c
  isConstructor : ∀ c, k'.env.isConstructor c = k.env.isConstructor c

namespace Kernel.Agrees

variable {k k' : Kernel} (h : k.Agrees k')
include h

lemma normalize_eq : k'.normalize = k.normalize := by
  funext t
  rw [Kernel.normalize, Kernel.normalize, h.depth]

lemma convertible_eq : k'.convertible = k.convertible := by
  funext a b
  rw [Kernel.convertible, Kernel.convertible, h.depth]

lemma typeOf_eq (infer : Inference) (ctx : Context) (t : Term) :
    k'.typeOf infer ctx t = k.typeOf infer ctx t := by
  have hcheck : k'.checkBy = k.checkBy := by
    funext infer ctx t ty
    rw [Kernel.checkBy, Kernel.checkBy, h.convertible_eq]
  cases t with
  | const c => rw [typeOf, typeOf, h.constType?]
  | transport head src dst proof value =>
    rw [typeOf, typeOf, typeOfTransport, typeOfTransport, hcheck, h.normalize_eq, h.depth]
  | _ => simp only [typeOf, hcheck]

lemma inferAt_eq (depth : Nat) : k'.inferAt depth = k.inferAt depth := by
  induction depth with
  | zero => rfl
  | succ depth ih =>
    funext ctx t
    rw [inferAt, inferAt, ih, h.typeOf_eq, h.normalize_eq]

lemma infer_eq : k'.infer = k.infer := by
  rw [Kernel.infer, Kernel.infer, h.depth, h.inferAt_eq]

lemma orient_eq (target : Term) : k'.orient target = k.orient target := by
  have hneutral : ∀ t, k'.env.isNeutral t = k.env.isNeutral t := by
    intro t
    simp only [Environment.isNeutral, Environment.constructorHead?, h.isConstructor]
  simp only [Kernel.orient, h.normalize_eq, hneutral]

lemma peel_eq (ctx : Context) (scrutinee : Term) (icount : Int) (found count : Nat) (ty : Term) :
    k'.peel ctx scrutinee icount found count ty = k.peel ctx scrutinee icount found count ty := by
  induction count generalizing found ty with
  | zero => rfl
  | succ count ih =>
    cases ty with
    | app fn arg => rw [peel, peel, h.infer_eq, ih]
    | _ => rfl

lemma comparison_eq (goal : Goal) (icount : Int) :
    k'.comparison goal icount = k.comparison goal icount := by
  simp only [Kernel.comparison, h.orient_eq, h.infer_eq, h.peel_eq]

lemma motive_eq (c : Comparison) (avoid : List Name) : k'.motive c avoid = k.motive c avoid := by
  rw [Kernel.motive, Kernel.motive, h.depth]

lemma peelIndices_eq (indexTypes : List Term) (mty : Term) :
    k'.peelIndices indexTypes mty = k.peelIndices indexTypes mty := by
  induction indexTypes generalizing mty with
  | nil => rfl
  | cons ity rest ih =>
    cases mty with
    | pi x dom cod => rw [peelIndices, peelIndices, h.convertible_eq, ih]
    | _ => rfl

lemma checkMotive_eq (ctx : Context) (motive : Term) (family : Name)
    (indexTypes fixed : List Term) :
    k'.checkMotive ctx motive family indexTypes fixed = k.checkMotive ctx motive family
      indexTypes fixed := by
  rw [checkMotive, checkMotive, h.infer_eq, h.convertible_eq, h.normalize_eq]
  simp only [h.peelIndices_eq]

/-- The rules that come before the split are the same. -/
lemma run_eq {rule : Rule} (hrule : rule.IsOpening) (g : Goal) : k'.run g rule = k.run g rule := by
  cases rule with
  | symmetry => simp only [run, Kernel.symmetry, targetEquation, h.normalize_eq]
  | change t => simp only [run, Kernel.change, expectType, h.infer_eq, h.convertible_eq]
  | generalize t w =>
    simp only [run, Kernel.generalize, quantified, expectType, check, checkBy, h.infer_eq,
      h.convertible_eq, h.normalize_eq]
  | _ => exact hrule.elim

end Kernel.Agrees

end UniqueEvidence
