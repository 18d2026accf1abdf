/-
When a goal can be compared, and what the comparison says.

* `Fault.Tells`: a mismatch because something does not fit, or no more depth because something does
  not return;
* `Kernel.ends_peel_indexed`: the last arguments of a type are peeled off if it has so many and they
  have types;
* `Kernel.Comparable`: the target computes to an equation, and the type of its evidence has that
  many indices with types;
* `Kernel.ReadOff`: the comparison holds that type, its last arguments with their types, and the two
  sides;
* `Kernel.comparison_iff_comparable`: **goals that can be compared are compared, and all others are
  mismatches**.
-/
import UniqueEvidence.Proofs.Containment
import UniqueEvidence.Proofs.Sample
import UniqueEvidence.Proofs.Simplification

namespace UniqueEvidence

/-- The last arguments of an application, first one first. -/
def Term.lastArgs (count : Nat) (t : Term) : List Term :=
  t.args.drop (t.args.length - count)

namespace Term

lemma lastArgs_app (count : Nat) (fn arg : Term) :
    (app fn arg).lastArgs (count + 1) = fn.lastArgs count ++ [arg] := by
  rw [lastArgs, lastArgs, args, ← List.drop_append_of_le_length (Nat.sub_le ..)]
  congr 1
  simp

/-- The values of a tuple are the last arguments of an application to it. -/
lemma lastArgs_applyTuple (head : Term) (t : Tuple) :
    (head.applyTuple t).lastArgs t.length = Tuple.values t := by
  rw [lastArgs, applyTuple, args_apps]
  exact List.drop_left' (by simp [Tuple.values])

end Term

/-- The sides are exchanged if only the left one is neutral. -/
def Environment.exchanges (env : Environment) (e : Equation) : Bool :=
  env.isNeutral e.lhs && !env.isNeutral e.rhs

/-- The equation with the side to be analysed on the right. -/
def Environment.oriented (env : Environment) (e : Equation) : Equation :=
  if env.exchanges e then e.swap else e

/-- The fault is a mismatch, as something does not fit, or the depth is spent, as something does not
return. -/
inductive Fault.Tells (fits spent : Prop) : Fault → Prop where
  | mismatch (why : Mismatch) : ¬ fits → Tells fits spent (.mismatch why)
  | exhausted : spent → Tells fits spent .exhausted

lemma Fault.Tells.imp {fits fits' spent spent' : Prop} {f : Fault} (h : f.Tells fits spent)
    (hfits : fits' → fits) (hspent : spent → spent') : f.Tells fits' spent' := by
  cases h with
  | mismatch why h => exact .mismatch why fun hfits' => h (hfits hfits')
  | exhausted h => exact .exhausted (hspent h)

namespace Kernel

variable {k : Kernel} {goal : Goal} {icount : Int} {e : Equation} {ty : Term}

/-- Inference, with refusals reported as mismatches, fails for terms without a type. -/
lemma ends_infer_refusalAs (ctx : Context) (why : Refusal → Mismatch) (t : Term) :
    Ends (refusalAs why (k.infer ctx t)) (fun T => k.infer ctx t = .ok T)
      (Fault.Tells (∃ T, k.infer ctx t = .ok T) (k.infer ctx t = .error .exhausted)) := by
  have hends := (spares_inferAt (k := k) k.depth ctx t).ends_isRefusal
  rw [← infer] at hends
  cases h : k.infer ctx t with
  | ok T => exact .ok rfl
  | error f =>
    rcases hends.2 f h with rfl | ⟨w, rfl⟩
    · exact .error (.exhausted rfl)
    · exact .error (.mismatch _ nofun)

/-- The type has that many arguments, and the last of them have types. -/
def Indexed (k : Kernel) (ctx : Context) (count : Nat) (ty : Term) : Prop :=
  count ≤ ty.args.length ∧ ∀ a ∈ ty.lastArgs count, ∃ T, k.infer ctx a = .ok T

lemma indexed_app {ctx : Context} {count : Nat} {fn arg : Term} :
    k.Indexed ctx (count + 1) (.app fn arg) ↔ k.Indexed ctx count fn ∧
      ∃ T, k.infer ctx arg = .ok T := by
  simp only [Indexed, Term.lastArgs_app, List.forall_mem_append, List.forall_mem_singleton,
    Term.args, List.length_append, List.length_singleton, Nat.add_le_add_iff_right, and_assoc]

/-- Arguments are peeled off exactly if there are enough, with types. -/
lemma ends_peel_indexed (ctx : Context) (scrutinee : Term) (icount : Int) (found count : Nat)
    (ty : Term) :
    Ends (k.peel ctx scrutinee icount found count ty) (fun _ => k.Indexed ctx count ty)
      (Fault.Tells (k.Indexed ctx count ty)
        (∃ a ∈ ty.lastArgs count, k.infer ctx a = .error .exhausted)) := by
  induction count generalizing found ty with
  | zero => exact .ok ⟨Nat.zero_le _, by simp [Term.lastArgs]⟩
  | succ count ih =>
    cases ty with
    | app fn arg =>
      rw [peel, indexed_app]
      simp only [Term.lastArgs_app, List.mem_append, List.mem_singleton]
      -- the last argument comes first, and the others are those of the function
      refine ((ends_infer_refusalAs ctx _ arg).imp (fun _ h => h) fun _ h =>
        h.imp And.right fun hspent => ⟨arg, .inr rfl, hspent⟩).bind fun T hT => ?_
      refine ((ih (found + 1) fn).imp (fun _ h => h) fun _ h => h.imp And.left ?_).bind fun _ hfn =>
        .ok ⟨hfn, T, hT⟩
      rintro ⟨a, ha, hspent⟩
      exact ⟨a, .inl ha, hspent⟩
    | _ => exact .error (.mismatch _ fun h => absurd h.1 (by simp [Term.args]))

/-- The target computes to the equation, and the evidence on its right side, once it is oriented,
has the type, with so many indices as last arguments. -/
structure Comparable (k : Kernel) (goal : Goal) (icount : Int) (e : Equation) (ty : Term) :
    Prop where
  count : 0 ≤ icount
  target : k.normalize goal.target = .ok e.toTerm
  evidence : k.infer goal.context (k.env.oriented e).rhs = .ok ty
  indexed : k.Indexed goal.context icount.toNat ty

/-- A normal form that the comparison needs is not found: of the target, in the type of the
evidence, or in that of an index. -/
inductive Unreturned (k : Kernel) (goal : Goal) (icount : Int) : Prop where
  | target : k.normalize goal.target = .error .exhausted → Unreturned k goal icount
  | evidence {e : Equation} : k.normalize goal.target = .ok e.toTerm →
      k.infer goal.context (k.env.oriented e).rhs = .error .exhausted → Unreturned k goal icount
  | index {e : Equation} {ty a : Term} : k.normalize goal.target = .ok e.toTerm →
      k.infer goal.context (k.env.oriented e).rhs = .ok ty → a ∈ ty.lastArgs icount.toNat →
      k.infer goal.context a = .error .exhausted → Unreturned k goal icount

/-- The comparison is of the sides of the oriented equation, at the type and its last arguments,
each with the type that inference gives it. -/
structure ReadOff (k : Kernel) (goal : Goal) (icount : Int) (e : Equation) (ty : Term)
    (c : Comparison) : Prop where
  evidence : c.evidenceType = ty
  values : Tuple.values c.indices = ty.lastArgs icount.toNat
  types : List.Forall₂ (fun a T => k.infer goal.context a = .ok T) (Tuple.values c.indices)
    (Tuple.types c.indices)
  lhs : c.lhs = (k.env.oriented e).lhs
  rhs : c.rhs = (k.env.oriented e).rhs
  swapped : c.swapped = k.env.exchanges e

/-- The goal determines the equation. -/
lemma Comparable.equation_eq {e' : Equation} (h : k.Comparable goal icount e ty)
    (htarget : k.normalize goal.target = .ok e'.toTerm) : e = e' :=
  Equation.toTerm_inj (Except.ok.inj (h.target.symm.trans htarget))

/-- Nothing is left to be found if the goal can be compared. -/
lemma Comparable.not_unreturned (h : k.Comparable goal icount e ty) :
    ¬ k.Unreturned goal icount := by
  rintro (htarget | ⟨htarget, hspent⟩ | @⟨_, _, a, htarget, hty, ha, hspent⟩)
  · rw [h.target] at htarget
    cases htarget
  · obtain rfl := h.equation_eq htarget
    rw [h.evidence] at hspent
    cases hspent
  · obtain rfl := h.equation_eq htarget
    obtain rfl := Except.ok.inj (h.evidence.symm.trans hty)
    obtain ⟨T, hT⟩ := h.indexed.2 a ha
    rw [hT] at hspent
    cases hspent

/-- Orientation exchanges the sides if only the left one is neutral. -/
lemma ends_orient_equation (target : Term) : Ends (k.orient target).outcome
    (fun p => ∃ e : Equation, k.normalize target = .ok e.toTerm ∧
      p = (k.env.oriented e, k.env.exchanges e))
    (Fault.Tells (∃ e : Equation, k.normalize target = .ok e.toTerm)
      (k.normalize target = .error .exhausted)) := by
  rw [orient, Logged.outcome_bind, Logged.outcome_liftM]
  cases htarget : k.normalize target with
  | error f =>
    obtain rfl := withinDepth_eq_error htarget
    exact .error (.exhausted rfl)
  | ok t =>
    rw [Except.ok_bind]
    cases he : Equation.ofTerm? t with
    | none =>
      refine .error (.mismatch _ ?_)
      rintro ⟨e, hequal⟩
      obtain rfl := Except.ok.inj hequal
      cases he
    | some e =>
      obtain rfl := Equation.ofTerm?_eq_some he
      dsimp only
      rw [Bool.and_comm, ← Environment.exchanges]
      cases hswap : k.env.exchanges e with
      | true => exact .ok ⟨e, rfl, by simp [Environment.oriented, hswap]⟩
      | false => exact .ok ⟨e, rfl, by simp [Environment.oriented, hswap]⟩

/-- The arguments that are peeled off are read as they stand in the type. -/
lemma readOff_of_peel {head : Term} {reversed : Tuple} {scrutinee : Term}
    (hpeel : k.peel goal.context scrutinee icount 0 icount.toNat ty = .ok (head, reversed)) :
    k.ReadOff goal icount e ty
      ⟨head, reversed, (k.env.oriented e).lhs, (k.env.oriented e).rhs, k.env.exchanges e⟩ := by
  obtain ⟨hlen, hty, hslots⟩ := peel_eq_ok hpeel
  refine ⟨hty.symm, ?_, ?_, rfl, rfl, rfl⟩
  · rw [hty, ← hlen, ← List.length_reverse, Term.lastArgs_applyTuple]
    rfl
  · rw [Tuple.values, Tuple.types, List.forall₂_map_left_iff,
      List.forall₂_map_right_iff, List.forall₂_same]
    exact fun s hs => hslots s (List.mem_reverse.1 hs)

/-- A comparison is read off its goal, and a fault tells what is missing. -/
lemma ends_comparison_comparable (goal : Goal) (icount : Int) :
    Ends (k.comparison goal icount).outcome
    (fun c => ∃ e ty, k.Comparable goal icount e ty ∧ k.ReadOff goal icount e ty c)
    (Fault.Tells (∃ e ty, k.Comparable goal icount e ty) (k.Unreturned goal icount)) := by
  rw [comparison]
  split
  · rename_i hneg
    refine .error (.mismatch _ ?_)
    rintro ⟨e, ty, h⟩
    exact absurd h.count (by omega)
  · rename_i hneg
    have hcount : 0 ≤ icount := Int.not_lt.1 hneg
    rw [Logged.outcome_bind]
    refine ((ends_orient_equation goal.target).imp (fun _ h => h) fun _ h =>
      h.imp ?_ .target).bind ?_
    · rintro ⟨e, ty, h⟩
      exact ⟨e, h.target⟩
    rintro - ⟨e, htarget, rfl⟩
    rw [Logged.outcome_bind, Logged.outcome_liftM]
    refine ((ends_infer_refusalAs goal.context _ _).imp (fun _ h => h) fun _ hf =>
      hf.imp ?_ (.evidence htarget)).bind fun ty hty => ?_
    · rintro ⟨e', ty', h⟩
      obtain rfl := h.equation_eq htarget
      exact ⟨ty', h.evidence⟩
    rw [Logged.outcome_bind, Logged.outcome_liftM]
    have hpeel :=
      ends_peel_indexed (k := k) goal.context (k.env.oriented e).rhs icount 0 icount.toNat ty
    cases hp : k.peel goal.context (k.env.oriented e).rhs icount 0 icount.toNat ty with
    | ok p => exact .ok ⟨e, ty, ⟨hcount, htarget, hty, hpeel.1 p hp⟩, readOff_of_peel hp⟩
    | error f =>
      refine .error ((hpeel.2 f hp).imp ?_ ?_)
      · rintro ⟨e', ty', h⟩
        obtain rfl := h.equation_eq htarget
        obtain rfl := Except.ok.inj (h.evidence.symm.trans hty)
        exact h.indexed
      · rintro ⟨a, ha, hspent⟩
        exact .index htarget hty ha hspent

/-- **A goal is read faithfully.**  It is compared at so many indices exactly if their number is not
negative, the target computes to an equation, and the evidence on its right side has a type with at
least that many arguments, the last of which have types themselves.  The comparison then holds that
type, exactly these arguments in natural order with their inferred types, and the two sides,
exchanged if only the left one is neutral.  Any other goal is a mismatch, unless a normal form that
is needed is not found within the depth. -/
theorem comparison_iff_comparable (k : Kernel) (goal : Goal) (icount : Int) :
    ((∃ c, (k.comparison goal icount).outcome = .ok c) ↔ ∃ e ty, k.Comparable goal icount e ty) ∧
    (∀ c, (k.comparison goal icount).outcome = .ok c →
      ∃ e ty, k.Comparable goal icount e ty ∧ k.ReadOff goal icount e ty c) ∧
    ∀ f, (k.comparison goal icount).outcome = .error f →
      (∃ why, f = .mismatch why) ∨ f = .exhausted ∧ k.Unreturned goal icount := by
  obtain ⟨hok, herror⟩ := ends_comparison_comparable (k := k) goal icount
  refine ⟨⟨?_, ?_⟩, hok, fun f hf => ?_⟩
  · rintro ⟨c, hc⟩
    obtain ⟨e, ty, h, -⟩ := hok c hc
    exact ⟨e, ty, h⟩
  · rintro ⟨e, ty, h⟩
    cases hout : (k.comparison goal icount).outcome with
    | ok c => exact ⟨c, rfl⟩
    | error f =>
      cases herror f hout with
      | mismatch why hfits => exact absurd ⟨e, ty, h⟩ hfits
      | exhausted hspent => exact absurd hspent h.not_unreturned
  · cases herror f hf with
    | mismatch why _ => exact .inl ⟨why, rfl⟩
    | exhausted hspent => exact .inr ⟨rfl, hspent⟩

/-- The sample goal is compared at one index, with its sides exchanged, and cannot be compared at
two: evidence of a tree has one. -/
theorem comparison_iff_comparable_sample :
    (∃ c e ty, (Sample.kernel .default).Comparable Sample.goal 1 e ty ∧
      (Sample.kernel .default).ReadOff Sample.goal 1 e ty c ∧ c.swapped = true) ∧
    ¬ ∃ e ty, (Sample.kernel .default).Comparable Sample.goal 2 e ty := by
  constructor
  · have hrun : ((Sample.kernel .default).comparison Sample.goal 1).outcome.toOption.map
        Comparison.swapped = some true := by
      decide +kernel
    obtain ⟨c, hc, hswapped⟩ := Option.map_eq_some_iff.1 hrun
    obtain ⟨e, ty, h, hread⟩ :=
      (comparison_iff_comparable _ _ _).2.1 c (Except.toOption_eq_some.1 hc)
    exact ⟨c, e, ty, h, hread, hswapped⟩
  · have hrun : ((Sample.kernel .default).comparison Sample.goal 2).outcome.toOption.isNone := by
      decide +kernel
    intro h
    obtain ⟨c, hc⟩ := (comparison_iff_comparable _ _ _).1.2 h
    rw [hc] at hrun
    cases hrun

end Kernel

end UniqueEvidence
