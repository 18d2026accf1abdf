/-
The search for an unused name.

* `NumberedFrom`: numbers are tried one after the other until a name is unused;
  `exists_numberedFrom`: **the search ends**, since only finitely many numbers are in use, and
  `NumberedFrom.isLeast`: it ends at the least number that is not;
* `numberedFrom_fresh`: a fresh name for one in use is found in that way;
* `fresh_congr`: it depends only on the set of names to avoid;
* `Attempt.yields_parts`: the equations into which one is split have such names;
* `fresh_least`: **fresh names are numbered as low as possible**, and several of them are distinct
  and unused.
-/
import Mathlib.Data.List.Dedup
import Mathlib.Data.Set.Finite.Lattice
import Mathlib.Data.Set.Finite.List
import UniqueEvidence.Proofs.Endings
import UniqueEvidence.Proofs.Freshening
import UniqueEvidence.Uniqueness.IndexEquation

namespace UniqueEvidence

variable {base : Name} {avoid : List Name}

/-! ### The search -/

/-- Numbers are tried from the given one on, until one makes the name unused. -/
inductive NumberedFrom (base : Name) (avoid : List Name) : Nat → Name → Prop
  | unused {n : Nat} : numbered base n ∉ avoid → NumberedFrom base avoid n (numbered base n)
  | used {n : Nat} {x : Name} : numbered base n ∈ avoid → NumberedFrom base avoid (n + 1) x →
    NumberedFrom base avoid n x

/-- Only finitely many numbers are in use. -/
lemma exists_bound (base : Name) (avoid : List Name) :
    ∃ bound, ∀ n, numbered base n ∈ avoid → n ≤ bound := by
  have hfinite : {n | numbered base n ∈ avoid}.Finite :=
    (List.finite_toSet avoid).preimage (numbered_injective base).injOn
  obtain ⟨bound, hbound⟩ := hfinite.bddAbove
  exact ⟨bound, fun n hn => hbound hn⟩

/-- **The search ends.** -/
lemma exists_numberedFrom (base : Name) (avoid : List Name) (n : Nat) :
    ∃ x, NumberedFrom base avoid n x := by
  obtain ⟨bound, hbound⟩ := exists_bound base avoid
  -- the distance to the bound goes down at each number that is in use
  induction hdistance : bound + 1 - n generalizing n with
  | zero =>
    have hunused : numbered base n ∉ avoid := by
      intro hmem
      have hle := hbound n hmem
      omega
    exact ⟨numbered base n, .unused hunused⟩
  | succ distance ih =>
    by_cases hmem : numbered base n ∈ avoid
    · obtain ⟨x, hx⟩ := ih (n + 1) (by omega)
      exact ⟨x, .used hmem hx⟩
    · exact ⟨numbered base n, .unused hmem⟩

namespace NumberedFrom

variable {n : Nat} {x x' : Name}

/-- **The search ends at the least number** that makes the name unused. -/
lemma isLeast (h : NumberedFrom base avoid n x) :
    ∃ m, IsLeast (unusedFrom base avoid n) m ∧ x = numbered base m := by
  induction h with
  | @unused n hn => exact ⟨n, ⟨⟨le_rfl, hn⟩, fun m hm => hm.1⟩, rfl⟩
  | @used n x hn _ ih =>
    obtain ⟨m, ⟨⟨hle, hm⟩, hleast⟩, rfl⟩ := ih
    refine ⟨m, ⟨⟨Nat.le_of_succ_le hle, hm⟩, fun j hj => hleast ⟨?_, hj.2⟩⟩, rfl⟩
    -- `n` itself is in use
    have hne : n ≠ j := by
      rintro rfl
      exact hj.2 hn
    exact Nat.lt_of_le_of_ne hj.1 hne

lemma unique (h : NumberedFrom base avoid n x) (h' : NumberedFrom base avoid n x') : x = x' := by
  obtain ⟨m, hm, rfl⟩ := h.isLeast
  obtain ⟨m', hm', rfl⟩ := h'.isLeast
  rw [hm.unique hm']

end NumberedFrom

/-! ### Fresh names -/

/-- A fresh name for one in use is what the search finds. -/
lemma numberedFrom_fresh (hbase : base ∈ avoid) : NumberedFrom base avoid 1 (fresh base avoid) := by
  obtain ⟨n, hn, -, heq⟩ := exists_fresh_eq hbase
  obtain ⟨x, hx⟩ := exists_numberedFrom base avoid 1
  obtain ⟨m, hm, rfl⟩ := hx.isLeast
  rw [heq, hn.unique hm]
  exact hx

/-- A fresh name depends only on the set of names to avoid. -/
lemma fresh_congr {avoid' : List Name} (h : ∀ x, x ∈ avoid' ↔ x ∈ avoid) :
    fresh base avoid' = fresh base avoid := by
  by_cases hbase : base ∈ avoid
  · obtain ⟨n, hn, -, heq⟩ := exists_fresh_eq hbase
    obtain ⟨n', hn', -, heq'⟩ := exists_fresh_eq ((h base).2 hbase)
    have hsame : unusedFrom base avoid' 1 = unusedFrom base avoid 1 := by
      ext m
      exact and_congr_right fun _ => not_congr (h (numbered base m))
    rw [hsame] at hn'
    rw [heq, heq', hn.unique hn']
  · rw [fresh, fresh, if_neg hbase, if_neg (mt (h base).1 hbase)]

/-! ### The parts of an equation -/

namespace Attempt

variable {k : Kernel} {g : Goal} (x : Name)

/-- A computation that leaves the goal as it is. -/
lemma yields_liftM_eq {α : Type} (y : Logged α) :
    Yields (· = g) (liftM y) (fun _ g' => g' = g) fun _ => True :=
  (yields_liftM (R := fun _ => True) fun _ _ => ⟨fun _ _ => trivial, fun _ _ => trivial⟩).post
    fun _ _ h => h.1

lemma yields_equation_eq : Yields (· = g) (equation k x) (fun _ g' => g' = g) fun _ => True := by
  refine yields_bind ((yields_goal _).post fun _ _ h => h.1) fun g' => ?_
  split
  · exact yields_fail trivial _
  · refine yields_bind (yields_liftM_eq _) fun nf => ?_
    split
    · exact yields_pure _ fun _ g' => g' = g
    · exact yields_fail trivial _

/-- The equations that are left of one have fresh names. -/
lemma yields_parts (pf : Name) : Yields (· = g) (simplify k pf x)
    (fun r _ => ∀ names, r = .parts names → ∃ n, names = freshEach g.names (List.replicate n "H"))
      fun _ => True := by
  have hnone : ∀ names, Simplified.parts [] = .parts names →
      ∃ n, names = freshEach g.names (List.replicate n "H") := by
    rintro _ ⟨⟩
    exact ⟨0, rfl⟩
  refine yields_bind (yields_equation_eq x) fun e => yields_bind (yields_liftM_eq _) fun same => ?_
  split
  · exact yields_bind (yields_trivial _ _) fun _ => (yields_pure _ _).pre fun _ _ => hnone
  split
  · rename_i width _
    -- the names avoid those of the goal before the split
    refine yields_bind (yields_goal _) fun g' => yields_bind (R := fun _ _ => g' = g) ?_ fun _ =>
      yields_bind (R := fun _ _ => g' = g) ?_ fun _ => (yields_pure _ _).pre ?_
    · rintro t ⟨hg, hg'⟩
      exact ⟨fun _ _ => hg'.trans hg, fun _ _ => trivial⟩
    · exact fun t hg => ⟨fun _ _ => hg, fun _ _ => trivial⟩
    · rintro _ rfl _ ⟨⟩
      exact ⟨width, freshNames_eq_freshEach "H" g'.names width⟩
  split
  · exact yields_bind (yields_trivial _ _) fun _ => (yields_pure _ _).pre fun _ _ => nofun
  · refine yields_bind (yields_trivial _ _) fun g' => ?_
    split
    · exact yields_bind (yields_trivial _ _) fun _ => (yields_pure _ _).pre fun _ _ => hnone
    · exact yields_fail trivial _

end Attempt

/-! ### The result -/

/-- **Fresh names are numbered as low as possible.**  The search for a number ends, wherever it
starts, with one name.  A fresh name is unused; it is the given name, if that is unused, and
otherwise what the search finds from `1` on: the name with the least number that makes it unused,
after at most as many attempts as there are names to avoid.  Several fresh names are distinct and
unused; such are the binders of a curried function, those of a fresh constructor, and the names of
the equations into which one is split. -/
theorem fresh_least (base : Name) (avoid : List Name) : (∀ n, ∃! x, NumberedFrom base avoid n x) ∧
    fresh base avoid ∉ avoid ∧
    (base ∉ avoid → fresh base avoid = base) ∧
    (base ∈ avoid → NumberedFrom base avoid 1 (fresh base avoid) ∧
      ∃ n, IsLeast {n | 1 ≤ n ∧ numbered base n ∉ avoid} n ∧ n ≤ avoid.dedup.length ∧
        fresh base avoid = numbered base n) ∧
    (∀ avoid', (∀ x, x ∈ avoid' ↔ x ∈ avoid) → fresh base avoid' = fresh base avoid) ∧
    (∀ bases, (freshEach avoid bases).Nodup ∧ ∀ x ∈ freshEach avoid bases, x ∉ avoid) ∧
    (∀ types body, ∃ bs, curry types body avoid base = Term.lams bs (body (Tuple.ofBindings bs)) ∧
      Binding.names bs = freshEach avoid (List.replicate types.length base)) ∧
    (∀ c : FamilyCtor, Binding.names (c.freshen avoid).binders =
      freshEach avoid (Binding.names c.binders)) ∧
    ∀ (k : Kernel) (pf x : Name) (t : Trail) (names : List Name), t.goal.names = avoid →
      (Attempt.simplify k pf x t).1.outcome = .ok (.parts names) →
        ∃ n, names = freshEach avoid (List.replicate n "H") := by
  refine ⟨fun n => ?_, fresh_not_mem base avoid, fun hbase => if_neg hbase,
    fun hbase => ⟨numberedFrom_fresh hbase, ?_⟩,
    fun avoid' h => fresh_congr h, fun bases =>
    ⟨freshEach_nodup avoid bases, fun x => not_mem_of_mem_freshEach⟩,
    fun types body => ⟨freshBindings types avoid base, rfl, ?_⟩, fun c =>
    names_freshenBinders avoid [] c.binders, ?_⟩
  · obtain ⟨x, hx⟩ := exists_numberedFrom base avoid n
    exact ⟨x, hx, fun y hy => hy.unique hx⟩
  · -- repetitions do not count
    obtain ⟨n, hn, hle, heq⟩ := exists_fresh_eq (List.mem_dedup.2 hbase)
    have hset : unusedFrom base avoid.dedup 1 = {n | 1 ≤ n ∧ numbered base n ∉ avoid} := by
      simp only [unusedFrom, List.mem_dedup]
    rw [fresh_congr fun x => List.mem_dedup] at heq
    exact ⟨n, hset ▸ hn, hle, heq⟩
  · rw [names_freshBindings, freshNames_eq_freshEach]
  · rintro k pf x t names rfl hparts
    exact (Attempt.yields_parts x pf t rfl).1 _ hparts names rfl

/-- A name may end in digits, and the numbers in use may have gaps. -/
example : fresh "x1" ["x1", "x11", "x12", "x2", "x14"] = "x13" := by decide

end UniqueEvidence
