/-
How work along a trail ends, whether well or not.

* `Ends`: a computation gives a result with one property, or a fault with another;
* `Attempt.Yields`: the same for work along a trail that starts at a goal with a given property;
* `Attempt.yields_bind`, `Attempt.yields_step`: the rules by which a run is followed step by step,
  failures included.
-/
import UniqueEvidence.Proofs.Outcome
import UniqueEvidence.Uniqueness.Trail

namespace UniqueEvidence

/-- The computation gives a result with the first property, or a fault with the second. -/
def Ends {α : Type} (x : Except Fault α) (Q : α → Prop) (E : Fault → Prop) : Prop :=
  (∀ a, x = .ok a → Q a) ∧ ∀ f, x = .error f → E f

lemma UpToDepth.ends {α : Type} {x : Except Fault α} {Q : α → Prop} {E : Fault → Prop}
    (h : UpToDepth x Q) (hE : E .exhausted) : Ends x Q E := by
  refine ⟨fun a ha => h.of_eq_ok ha, fun f hf => ?_⟩
  rcases h with rfl | ⟨a, rfl, -⟩
  · cases hf
    exact hE
  · cases hf

namespace Ends

variable {α β : Type} {x : Except Fault α} {Q : α → Prop} {E : Fault → Prop}

lemma ok {a : α} (h : Q a) : Ends (.ok a) Q E :=
  ⟨fun _ hb => Except.ok.inj hb ▸ h, nofun⟩

lemma error {f : Fault} (h : E f) : Ends (.error f) Q E :=
  ⟨nofun, fun _ hf => Except.error.inj hf ▸ h⟩

lemma refuse {why : Refusal} (h : E (.refused why)) : Ends (refuse why) Q E :=
  .error h

lemma imp {R : α → Prop} {E' : Fault → Prop} (h : Ends x Q E) (hQ : ∀ a, Q a → R a)
    (hE : ∀ f, E f → E' f) : Ends x R E' :=
  ⟨fun a ha => hQ a (h.1 a ha), fun f hf => hE f (h.2 f hf)⟩

lemma bind {f : α → Except Fault β} {R : β → Prop} (hx : Ends x Q E)
    (hf : ∀ a, Q a → Ends (f a) R E) : Ends (x >>= f) R E := by
  cases x with
  | ok a => exact hf a (hx.1 a rfl)
  | error e => exact .error (hx.2 e rfl)

end Ends

namespace Attempt

variable {α β : Type} {P : Goal → Prop} {E : Fault → Prop}

/-- Started at a goal with `P`, the work gives a result that satisfies `Q` with the goal reached, or
a fault that satisfies `E`. -/
def Yields (P : Goal → Prop) (x : Attempt α) (Q : α → Goal → Prop) (E : Fault → Prop) : Prop :=
  ∀ t, P t.goal → Ends (x t).1.outcome (fun a => Q a (x t).2.goal) E

lemma Yields.pre {P' : Goal → Prop} {x : Attempt α} {Q : α → Goal → Prop} (h : Yields P x Q E)
    (hP : ∀ g, P' g → P g) : Yields P' x Q E :=
  fun t ht => h t (hP _ ht)

lemma Yields.post {x : Attempt α} {Q R : α → Goal → Prop} (h : Yields P x Q E)
    (hQ : ∀ a g, Q a g → R a g) : Yields P x R E :=
  fun t ht => ⟨fun a ha => hQ a _ ((h t ht).1 a ha), (h t ht).2⟩

/-- What does not depend on the goal is known while the work goes on. -/
lemma Yields.of_and {C : Prop} {x : Attempt α} {Q : α → Goal → Prop} (h : C → Yields P x Q E) :
    Yields (fun g => P g ∧ C) x Q E :=
  fun t ht => h ht.2 t ht.1

/-- Nothing is asked of the work, and nothing is known of it. -/
lemma yields_trivial (P : Goal → Prop) (x : Attempt α) :
    Yields P x (fun _ _ => True) fun _ => True :=
  fun _ _ => ⟨fun _ _ => trivial, fun _ _ => trivial⟩

lemma yields_pure (a : α) (Q : α → Goal → Prop) : Yields (Q a) (pure a) Q E :=
  fun _ ht => .ok ht

lemma yields_fail {f : Fault} (hf : E f) (Q : α → Goal → Prop) : Yields P (fail f) Q E :=
  fun _ _ => .error hf

lemma yields_bind {x : Attempt α} {R : α → Goal → Prop} {f : α → Attempt β} {Q : β → Goal → Prop}
    (hx : Yields P x R E) (hf : ∀ a, Yields (R a) (f a) Q E) : Yields P (x >>= f) Q E := by
  intro t ht
  obtain ⟨hok, herror⟩ := hx t ht
  change Ends (Attempt.bind x f t).1.outcome (fun b => Q b (Attempt.bind x f t).2.goal) E
  unfold Attempt.bind
  rcases hxt : x t with ⟨⟨outcome, log⟩, t'⟩
  rw [hxt] at hok herror
  cases outcome with
  | error e => exact .error (herror e rfl)
  | ok a => exact hf a t' (hok a rfl)

/-- A computation that leaves the trail alone. -/
lemma yields_liftM {x : Logged α} {R : α → Prop} (hx : ∀ g, P g → Ends x.outcome R E) :
    Yields P (liftM x) (fun a g => P g ∧ R a) E :=
  fun _ ht => ⟨fun a ha => ⟨ht, (hx _ ht).1 a ha⟩, (hx _ ht).2⟩

lemma yields_goal (P : Goal → Prop) : Yields P goal (fun a g => P g ∧ a = g) E :=
  fun _ ht => .ok ⟨ht, rfl⟩

lemma yields_markDestructed : Yields P markDestructed (fun _ => P) E :=
  fun _ ht => .ok ht

/-- A step ends as its rule does, where the rule leaves one subgoal. -/
lemma yields_step {k : Kernel} {rule : Rule} {Q : Goal → Prop}
    (hrun : ∀ g, P g → Ends (k.run g rule) (fun gs => ∃ g', gs = [g'] ∧ Q g') E) :
    Yields P (step k rule) (fun _ g => Q g) E := by
  refine yields_bind (yields_goal P) fun g =>
    yields_bind (R := fun gs _ => ∃ g', gs = [g'] ∧ Q g') ?_ fun gs => ?_
  · rintro t ⟨hP, rfl⟩
    have hlift : (liftM (k.perform t.goal rule) : Attempt (List Goal)) t =
      (k.perform t.goal rule, t) := rfl
    rw [hlift, Kernel.outcome_perform]
    exact hrun _ hP
  · rintro t ⟨g', rfl, hQ⟩
    exact .ok hQ

end Attempt

end UniqueEvidence
