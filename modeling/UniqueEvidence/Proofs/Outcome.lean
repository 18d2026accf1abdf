/-
Computations that may fail, and when they end well.

* `Except.bind_eq_ok`, `Logged.outcome_bind_eq_ok`: a sequence ends well if all its steps do;
* `UpToDepth`: a computation that gives a result unless it runs out of depth;
* `Kernel.outcome_perform`, `Kernel.outcome_performCall`: the outcome of a rule or a call, without
  what it reports;
* `Kernel.apply_call`: the call of a rule runs the rule.
-/
import Mathlib.Data.List.Forall2
import Mathlib.Tactic.Common
import UniqueEvidence.Certificate

namespace UniqueEvidence

/-! ### Sequences -/

@[simp] lemma Except.ok_bind {α β : Type} (a : α) (f : α → Except Fault β) :
    (Except.ok a >>= f) = f a :=
  rfl

@[simp] lemma Except.error_bind {α β : Type} (e : Fault) (f : α → Except Fault β) :
    (Except.error e >>= f) = .error e := rfl

lemma Except.bind_eq_ok {α β : Type} {x : Except Fault α} {f : α → Except Fault β} {b : β} :
    (x >>= f) = .ok b ↔ ∃ a, x = .ok a ∧ f a = .ok b := by
  cases x <;> simp

lemma Except.toOption_eq_some {α : Type} {x : Except Fault α} {a : α} :
    x.toOption = some a ↔ x = .ok a := by
  cases x <;> simp [Except.toOption]

/-- A function that may fail is applied along a list if it succeeds at every entry. -/
lemma Except.mapM_eq_ok {α β : Type} {f : α → Except Fault β} {as : List α} {bs : List β} :
    as.mapM f = .ok bs ↔ List.Forall₂ (fun a b => f a = .ok b) as bs := by
  induction as generalizing bs with
  | nil => cases bs <;> simp [pure, Except.pure]
  | cons a as ih =>
    rw [List.mapM_cons, Except.bind_eq_ok]
    simp only [Except.bind_eq_ok, ih]
    constructor
    · rintro ⟨b, hb, bs', hbs, h⟩
      obtain rfl : b :: bs' = bs := by simpa [pure, Except.pure] using h
      exact .cons hb hbs
    · rintro (_ | ⟨hb, hbs⟩)
      exact ⟨_, hb, _, hbs, rfl⟩

/-- The computation gives a result with the property, unless it runs out of depth. -/
def UpToDepth {α : Type} (x : Except Fault α) (P : α → Prop) : Prop :=
  x = .error .exhausted ∨ ∃ a, x = .ok a ∧ P a

namespace UpToDepth

variable {α β : Type} {x : Except Fault α} {P : α → Prop}

lemma ok {a : α} (h : P a) : UpToDepth (.ok a) P :=
  .inr ⟨a, rfl, h⟩

lemma bind {f : α → Except Fault β} {Q : β → Prop} (hx : UpToDepth x P)
    (hf : ∀ a, x = .ok a → P a → UpToDepth (f a) Q) : UpToDepth (x >>= f) Q := by
  rcases hx with rfl | ⟨a, rfl, ha⟩
  · exact .inl rfl
  · exact hf a rfl ha

lemma of_eq_ok {a : α} (hx : UpToDepth x P) (h : x = .ok a) : P a := by
  rcases hx with rfl | ⟨b, rfl, hb⟩
  · cases h
  · cases h
    exact hb

lemma imp {Q : α → Prop} (hx : UpToDepth x P) (h : ∀ a, x = .ok a → P a → Q a) : UpToDepth x Q :=
  hx.imp_right fun ⟨a, ha, hP⟩ => ⟨a, ha, h a ha hP⟩

/-- A function that succeeds at every entry of a list, unless it runs out of depth, does so along
the list. -/
lemma mapM {f : α → Except Fault β} {as : List α} (h : ∀ a ∈ as, UpToDepth (f a) fun _ => True) :
    UpToDepth (as.mapM f) fun _ => True := by
  induction as with
  | nil => exact ok trivial
  | cons a as ih =>
    rw [List.mapM_cons]
    refine (h a List.mem_cons_self).bind fun b _ _ => ?_
    exact (ih fun a' ha' => h a' (List.mem_cons_of_mem _ ha')).bind fun bs _ _ => ok trivial

end UpToDepth

namespace Logged

@[simp] lemma outcome_liftM {α : Type} (x : Except Fault α) : (liftM x : Logged α).outcome = x :=
  rfl

lemma outcome_bind_eq_ok {α β : Type} {x : Logged α} {f : α → Logged β} {b : β} :
    (x >>= f).outcome = .ok b ↔ ∃ a, x.outcome = .ok a ∧ (f a).outcome = .ok b := by
  rw [outcome_bind, Except.bind_eq_ok]

/-- What is worded came about. -/
lemma outcome_of_worded {α : Type} {x : Logged α} {a : α} (h : x.worded = .ok a) :
    x.outcome = .ok a := by
  unfold worded at h
  split at h
  · cases hx : x.outcome with
    | error f => simp [hx, Except.mapError] at h
    | ok b => simpa [hx, Except.mapError] using h
  · cases h

/-- An attempt succeeds only with what the computation itself gives. -/
lemma outcome_of_attempt {α : Type} {x : Logged α} {a : α} (h : x.attempt.outcome = .ok (.ok a)) :
    x.outcome = .ok a := by
  unfold attempt at h
  split at h
  · rename_i b hb
    obtain rfl : b = a := by simpa using h
    exact hb
  · simp at h
  · simp at h

end Logged

/-! ### Rules and calls -/

/-- A rule is read back from its form in a certificate. -/
lemma Rule.ofCall?_call (rule : Rule) : Rule.ofCall? rule.call = some rule := by
  cases rule with
  | injection x parts =>
    simp [Rule.call, Rule.ofCall?, Argument.toName?_ofName, Argument.ofNames,
      Argument.names?_ofNameList]
  | _ => simp [Rule.call, Rule.ofCall?, Argument.toName?_ofName]

mutual

/-- An argument that is read as a name is its form. -/
lemma Argument.eq_ofName {x : Name} : {a : Argument} → a.toName? = some x → a = .ofName x
  | .term _, h => by cases h
  | .atom _, h => by
    obtain rfl := Option.some.inj h
    rfl
  | .tuple args, h => by
    obtain ⟨xs, hxs, rfl⟩ := Option.map_eq_some_iff.1 h
    rw [Argument.ofName, ← Argument.eq_ofNameList hxs]

lemma Argument.eq_ofNameList {xs : List Name} :
    {args : List Argument} → Argument.names? args = some xs →
    args = Argument.ofNameList xs
  | [], h => by
    obtain rfl := Option.some.inj h
    rfl
  | a :: args, h => by
    simp only [Argument.names?, Option.bind_eq_bind, Option.bind_eq_some_iff, Option.pure_def,
      Option.some.injEq] at h
    obtain ⟨x, hx, rest, hrest, rfl⟩ := h
    rw [Argument.ofNameList, ← Argument.eq_ofName hx, ← Argument.eq_ofNameList hrest]

end

/-- Only the form of a rule is read as that rule. -/
lemma Rule.eq_call {call : Call} {rule : Rule} (h : Rule.ofCall? call = some rule) :
    call = rule.call := by
  obtain ⟨name, args⟩ := call
  rw [Rule.ofCall?] at h
  split at h
  case h_4 | h_5 | h_8 | h_10 | h_12 =>
    obtain ⟨x, hx, rfl⟩ := Option.map_eq_some_iff.1 h
    simp_all [Rule.call, Argument.eq_ofName hx]
  case h_7 =>
    simp only [Option.bind_eq_bind, Option.bind_eq_some_iff, Option.pure_def,
      Option.some.injEq] at h
    obtain ⟨x, hx, parts, hparts, rfl⟩ := h
    simp_all [Rule.call, Argument.eq_ofName hx, Argument.ofNames, Argument.eq_ofNameList hparts]
  case h_9 =>
    simp only [Option.bind_eq_bind, Option.bind_eq_some_iff, Option.pure_def,
      Option.some.injEq] at h
    obtain ⟨x, hx, y, hy, rfl⟩ := h
    simp_all [Rule.call, Argument.eq_ofName hx, Argument.eq_ofName hy]
  case h_15 => cases h
  all_goals
    obtain rfl := Option.some.inj h
    simp_all [Rule.call]

namespace Kernel

lemma case_eq (k : Kernel) (goal : Goal) (t : Term) (icount : Int) (motive : Term) :
    k.case goal t icount motive =
      (do return (← k.caseBranches goal t icount motive).filterMap Prod.snd) :=
  rfl

@[simp] lemma apply_call (k : Kernel) (goal : Goal) (rule : Rule) :
    k.apply goal rule.call = k.run goal rule := by
  rw [apply, Rule.ofCall?_call]

@[simp] lemma outcome_perform (k : Kernel) (goal : Goal) (rule : Rule) :
    (k.perform goal rule).outcome = k.run goal rule := by
  cases h : k.run goal rule <;> simp [perform, h]

@[simp] lemma outcome_performCall (k : Kernel) (goal : Goal) (call : Call) :
    (k.performCall goal call).outcome = k.apply goal call := by
  cases h : k.apply goal call <;> simp [performCall, h]

end Kernel

end UniqueEvidence
