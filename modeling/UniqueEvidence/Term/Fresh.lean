/-
Fresh names: a name is kept when it is unused, and otherwise numbered.

* `fresh base avoid`: `base` itself, or `base` followed by the least positive number that makes it
  unused;
* `freshNames`: several of them, each avoiding the ones before it.
-/
import UniqueEvidence.Term.Basic

namespace UniqueEvidence

/-- The text of `base` followed by a number. -/
def numbered (base : Name) (n : Nat) : Name :=
  .text (base.plain ++ toString n)

/-- A name outside `avoid`: `base` if possible, otherwise the first of `base1`, `base2`, … that is
unused.  Among the first `avoid.length` candidates one is free, since `base` itself takes up a place
in `avoid`. -/
def fresh (base : Name) (avoid : List Name) : Name :=
  if base ∈ avoid then
    let candidates := (List.range avoid.length).map fun k => numbered base (k + 1)
    (candidates.find? (· ∉ avoid)).getD base
  else
    base

/-- As many names as asked for, outside `avoid` and distinct from one another. -/
def freshNames (base : Name) (avoid : List Name) : Nat → List Name
  | 0 => []
  | n + 1 =>
    let x := fresh base avoid
    x :: freshNames base (x :: avoid) n

@[simp] theorem length_freshNames (base : Name) (avoid : List Name) (n : Nat) :
    (freshNames base avoid n).length = n := by
  induction n generalizing avoid with
  | zero => rfl
  | succ n ih => simp [freshNames, ih]

end UniqueEvidence
