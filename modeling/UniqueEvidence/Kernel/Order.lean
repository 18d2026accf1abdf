/-
Putting hypotheses in dependency order.

* `reorder`: each hypothesis after the listed ones its type mentions.  The first hypothesis that can
  be placed is placed, again and again, so no two change places without need.
-/
import UniqueEvidence.Goal

namespace UniqueEvidence

/-- Whether the type of a hypothesis mentions, of the given names, only ones that are placed. -/
def Binding.ready (names placed : List Name) (h : Binding) : Bool :=
  h.ty.freeVars.all fun x => decide (x ∈ names → x ∈ placed)

theorem Binding.ready_iff {names placed : List Name} {h : Binding} :
    h.ready names placed = true ↔ ∀ x ∈ h.ty.freeVars, x ∈ names → x ∈ placed := by
  simp only [ready, List.all_eq_true, decide_eq_true_eq]

/-- The first hypothesis that is ready, and the others. -/
def takeReady (names placed : List Name) : List Binding → Option (Binding × List Binding)
  | [] => none
  | h :: rest =>
    if h.ready names placed then some (h, rest)
    else (takeReady names placed rest).map fun (next, others) => (next, h :: others)

theorem length_takeReady {names placed : List Name} {pending others : List Binding} {next : Binding}
    (h : takeReady names placed pending = some (next, others)) :
    others.length < pending.length := by
  induction pending generalizing others with
  | nil => simp [takeReady] at h
  | cons b rest ih =>
    rw [takeReady] at h
    split at h
    · obtain ⟨rfl, rfl⟩ : b = next ∧ rest = others := by simpa using h
      simp
    · obtain ⟨⟨next', others'⟩, hrest, heq⟩ := Option.map_eq_some_iff.1 h
      obtain ⟨rfl, rfl⟩ : next' = next ∧ b :: others' = others := by simpa using heq
      simpa using ih hrest

/-- The pending hypotheses in dependency order, given the names that are placed already. -/
def reorderFrom (names placed : List Name) (pending : List Binding) : Option (List Binding) :=
  match pending with
  | [] => some []
  | b :: rest =>
    match h : takeReady names placed (b :: rest) with
    | none => none
    | some (next, others) =>
      have := length_takeReady h
      (reorderFrom names (next.name :: placed) others).map (next :: ·)
termination_by pending.length
decreasing_by assumption

/-- One round: the hypothesis that is ready is placed. -/
theorem reorderFrom_of_takeReady {names placed : List Name} {pending others : List Binding}
    {next : Binding} (h : takeReady names placed pending = some (next, others)) :
    reorderFrom names placed pending =
      (reorderFrom names (next.name :: placed) others).map (next :: ·) := by
  cases pending with
  | nil => cases h
  | cons b rest =>
    rw [reorderFrom]
    split
    · simp_all
    · rename_i next' others' h'
      obtain ⟨rfl, rfl⟩ : next = next' ∧ others = others' := by simpa [h] using h'
      rfl

/-- Without one there is no order. -/
theorem reorderFrom_of_stuck {names placed : List Name} {b : Binding} {rest : List Binding}
    (h : takeReady names placed (b :: rest) = none) :
    reorderFrom names placed (b :: rest) = none := by
  rw [reorderFrom]
  split
  · rfl
  · simp_all

/-- The hypotheses in dependency order, if there is one. -/
def reorder (hyps : List Binding) : Option (List Binding) :=
  reorderFrom (Binding.names hyps) [] hyps

end UniqueEvidence
