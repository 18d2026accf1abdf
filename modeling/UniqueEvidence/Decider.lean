/-
Decidable equality.  A decider answers whether two closed values of a type are equal; a registry
holds facts for exact types and rules that build deciders from others.

* `Registry.find?`: the decider for a type in normal form: a registered fact first, then the rules
  in order;
* `Registry.lookup?`: the same for any type, after normalisation;
* `Registry.register?`: adds a fact.  Facts are never replaced;
* `Registry.default`: a fact for `unit`, and the rule for pairs;
* `Registry.find?_cases`, `Registry.find?_induction`: where a decider that is found comes from.
-/
import UniqueEvidence.Environment
import UniqueEvidence.Term.Alpha

namespace UniqueEvidence

/-- A decision procedure for equality, with the name it is reported by. -/
structure Decider where
  name : Name
  decides : Term → Term → Bool

namespace Decider

/-- The decider for a type with a single value. -/
def always (name : Name) : Decider :=
  ⟨name, fun _ _ => true⟩

/-- The decider that compares constructor trees. -/
def structural (name : Name) : Decider :=
  ⟨name, Term.alphaEq⟩

/-- The decider for pairs, from deciders for the components. -/
def both (left right : Decider) : Decider where
  name := .text ("prod(" ++ left.name.plain ++ ", " ++ right.name.plain ++ ")")
  decides
    | .pair a b, .pair c d => left.decides a c && right.decides b d
    | _, _ => false

end Decider

/-- A rule that finds deciders for types without a registered one. -/
inductive DeciderRule where
  /-- Pairs have a decider if both components have. -/
  | pairs
  /-- Deciders by type alone. -/
  | byType (decider? : Term → Option Decider)

/-- The rule that one type, compared literally, has the given decider. -/
def DeciderRule.fixed (ty : Term) (d : Decider) : DeciderRule :=
  byType fun key => if key = ty then some d else none

/-- Known deciders: facts for types in normal form, and rules. -/
structure Registry where
  facts : List (Term × Decider)
  rules : List DeciderRule

namespace Registry

/-- The registry without facts and rules. -/
def empty : Registry :=
  ⟨[], []⟩

/-- The registry every engine run starts from. -/
def default : Registry :=
  ⟨[(.unit, .always "unit")], [.pairs]⟩

/-- The decider registered for exactly this type. -/
def fact? (r : Registry) (key : Term) : Option Decider :=
  r.facts.findSome? fun (ty, d) => if ty = key then some d else none

/-- The decider for a type in normal form. -/
def find? (r : Registry) (key : Term) : Option Decider :=
  let pair? := match key with
    | .prod a b => do return Decider.both (← r.find? a) (← r.find? b)
    | _ => none
  r.fact? key <|> r.rules.findSome? fun
    | .pairs => pair?
    | .byType decider? => decider? key

/-- The decider for a type, if its normal form is found within the depth. -/
def lookup? (r : Registry) (depth : Nat) (ty : Term) : Option (Option Decider) :=
  (ty.normalize depth).map r.find?

/-- The registry with a fact for a type in normal form, unless there is one already. -/
def register? (r : Registry) (key : Term) (d : Decider) : Option Registry :=
  if (r.fact? key).isSome then none else some { r with facts := r.facts ++ [(key, d)] }

/-- The registry with another rule. -/
def addRule (r : Registry) (rule : DeciderRule) : Registry :=
  { r with rules := r.rules ++ [rule] }

/-! ### Small facts -/

section

variable {r : Registry} {key : Term} {d : Decider}

theorem mem_of_fact? (h : r.fact? key = some d) : (key, d) ∈ r.facts := by
  obtain ⟨p, hp, hd⟩ := List.exists_of_findSome?_eq_some h
  dsimp only at hd
  split at hd
  · rename_i hkey
    rwa [← hkey, ← Option.some.inj hd]
  · cases hd

theorem isSome_fact?_of_mem {p : Term × Decider} (h : p ∈ r.facts) : (r.fact? p.1).isSome :=
  List.findSome?_isSome_iff.2 ⟨p, h, by simp⟩

theorem find?_of_fact? (h : r.fact? key = some d) : r.find? key = some d := by
  rw [find?.eq_def, h]
  rfl

theorem isSome_find?_prod (hpairs : .pairs ∈ r.rules) {a b : Term} (ha : (r.find? a).isSome)
    (hb : (r.find? b).isSome) : (r.find? (.prod a b)).isSome := by
  obtain ⟨left, hleft⟩ := Option.isSome_iff_exists.1 ha
  obtain ⟨right, hright⟩ := Option.isSome_iff_exists.1 hb
  rw [find?, Option.orElse_eq_orElse, Option.orElse_eq_or, Option.isSome_or, Bool.or_eq_true]
  exact .inr (List.findSome?_isSome_iff.2 ⟨.pairs, hpairs, by simp [hleft, hright]⟩)

/-- Where a decider comes from: a fact, a rule by type, or the components of a product. -/
theorem find?_cases (h : r.find? key = some d) : r.fact? key = some d ∨ r.fact? key = none ∧
      ((∃ decider?, .byType decider? ∈ r.rules ∧ decider? key = some d) ∨
        ∃ a b left right, key = .prod a b ∧ r.find? a = some left ∧ r.find? b = some right ∧
          d = .both left right) := by
  rw [find?.eq_def, Option.orElse_eq_orElse, Option.orElse_eq_or, Option.or_eq_some_iff] at h
  refine h.imp_right fun ⟨hnone, h⟩ => ⟨hnone, ?_⟩
  obtain ⟨rule, hrule, hd⟩ := List.exists_of_findSome?_eq_some h
  cases rule with
  | byType decider? => exact .inl ⟨decider?, hrule, hd⟩
  | pairs =>
    cases key with
    | prod a b =>
      simp only [bind, Option.bind_eq_some_iff, pure, Option.some.injEq] at hd
      obtain ⟨left, hleft, right, hright, rfl⟩ := hd
      exact .inr ⟨a, b, left, right, rfl, hleft, hright, rfl⟩
    | _ => cases hd

/-- What the deciders of facts and of rules by type have, and those of components pass on, every
decider found has. -/
theorem find?_induction {P : Term → Decider → Prop}
    (hfact : ∀ {key d}, r.fact? key = some d → P key d)
    (htype : ∀ {key d decider?}, .byType decider? ∈ r.rules → decider? key = some d → P key d)
    (hboth : ∀ {a b left right}, r.fact? (.prod a b) = none → P a left → P b right →
      P (.prod a b) (left.both right)) (h : r.find? key = some d) : P key d := by
  induction key generalizing d with
  | prod a b iha ihb =>
    rcases find?_cases h with h |
      ⟨hnone, ⟨decider?, hrule, hd⟩ | ⟨a', b', left, right, hprod, hleft, hright, rfl⟩⟩
    · exact hfact h
    · exact htype hrule hd
    · cases hprod
      exact hboth hnone (iha hleft) (ihb hright)
  | _ =>
    rcases find?_cases h with h | ⟨-, ⟨decider?, hrule, hd⟩ | ⟨_, _, _, _, hprod, -⟩⟩
    · exact hfact h
    · exact htype hrule hd
    · cases hprod

end

end Registry

/-- The wording for a type that has a decider already. -/
def registeredMessage (key : Term) : String :=
  "A decider is already registered for " ++ key.describe

end UniqueEvidence
