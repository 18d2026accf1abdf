/-
Fresh names are fresh.

* `numbered_injective`: distinct numbers give distinct names;
* `exists_fresh_eq`: a fresh name for one in use has the least number that makes it unused;
* `fresh_not_mem`: **a fresh name is unused**, however many names there are to avoid;
* `head?_fresh`: it starts as the name that is asked for does;
* `freshEach`: a fresh name for each of several, and `freshEach_nodup`, `not_mem_of_mem_freshEach`:
  they differ from one another and from what they avoid;
* `freshNames_nodup`, `not_mem_of_mem_freshNames`: so do several fresh names for one.
-/
import Mathlib.Data.List.Nodup
import Mathlib.Data.List.Perm.Subperm
import Mathlib.Data.Nat.Basic
import Mathlib.Order.Bounds.Basic
import UniqueEvidence.Term.Fresh

namespace UniqueEvidence

/-! ### Numbered names -/

lemma numbered_injective (base : Name) : Function.Injective (numbered base) := by
  intro m n h
  have htext : base.plain ++ toString m = base.plain ++ toString n := Name.text_inj.1 h
  have hdigits : m.repr = n.repr := (String.append_right_inj _).1 htext
  -- a number can be read back from its digits
  have hread := congrArg (fun s => Nat.ofDigitChars 10 s.toList 0) hdigits
  simpa [Nat.repr, Nat.ofDigitChars_toDigits] using hread

/-- A number makes the text of a name longer. -/
lemma numbered_ne_self (base : Name) (n : Nat) : numbered base n ≠ base := by
  intro h
  have hplain : base.plain ++ toString n = base.plain := by
    conv_rhs => rw [← h]
    rfl
  have hlength := congrArg String.length hplain
  have hpos : 0 < (toString n).length := Nat.length_repr_pos
  rw [String.length_append] at hlength
  omega

/-! ### Fresh names -/

/-- The numbers from the given one on that make the name unused. -/
def unusedFrom (base : Name) (avoid : List Name) (n : Nat) : Set Nat :=
  {m | n ≤ m ∧ numbered base m ∉ avoid}

/-- Were the first `avoid.length` numbers all in use, `avoid` would hold `base` and as many other
names. -/
lemma exists_lt_unused {base : Name} {avoid : List Name} (hbase : base ∈ avoid) :
    ∃ k < avoid.length, numbered base (k + 1) ∉ avoid := by
  by_contra hused
  push Not at hused
  set candidates := (List.range avoid.length).map fun k => numbered base (k + 1) with hcandidates
  -- `base` and the candidates are distinct, and too many for `avoid`
  have hnodup : (base :: candidates).Nodup := by
    refine List.nodup_cons.2 ⟨fun hmem => ?_, ?_⟩
    · obtain ⟨k, -, hk⟩ := List.mem_map.1 hmem
      exact numbered_ne_self base (k + 1) hk
    · have hinj : Function.Injective fun k => numbered base (k + 1) := fun i j hij =>
        Nat.succ_injective (numbered_injective base hij)
      exact (List.nodup_map_iff hinj).2 List.nodup_range
  have hsubset : base :: candidates ⊆ avoid := by
    intro x hx
    rcases List.mem_cons.1 hx with rfl | hx
    · exact hbase
    · obtain ⟨k, hk, rfl⟩ := List.mem_map.1 hx
      exact hused k (List.mem_range.1 hk)
  have hle := (hnodup.subperm hsubset).length_le
  simp only [hcandidates, List.length_cons, List.length_map, List.length_range] at hle
  omega

/-- A fresh name for one in use has the least number that makes it unused, which is at most the
number of names to avoid. -/
lemma exists_fresh_eq {base : Name} {avoid : List Name} (hbase : base ∈ avoid) :
    ∃ n, IsLeast (unusedFrom base avoid 1) n ∧ n ≤ avoid.length ∧
      fresh base avoid = numbered base n := by
  rw [fresh, if_pos hbase]
  dsimp only
  rw [List.find?_map]
  cases hfound : (List.range avoid.length).find? _ with
  | none =>
    obtain ⟨k, hk, hunused⟩ := exists_lt_unused hbase
    have hused := List.find?_eq_none.1 hfound k (List.mem_range.2 hk)
    exact absurd (decide_eq_true hunused) hused
  | some i =>
    obtain ⟨hi, hrange, hbefore⟩ := List.find?_range_eq_some.1 hfound
    refine ⟨i + 1, ⟨⟨Nat.le_add_left 1 i, of_decide_eq_true hi⟩, fun m hm => ?_⟩,
      List.mem_range.1 hrange, rfl⟩
    -- every lower number is in use
    by_contra hlt
    have hpos : 1 ≤ m := hm.1
    have hused := hbefore (m - 1) (by omega)
    rw [Function.comp_apply, Nat.sub_add_cancel hpos, Bool.not_eq_true',
      decide_eq_false_iff_not] at hused
    exact hused hm.2

/-- **A fresh name is unused.** -/
theorem fresh_not_mem (base : Name) (avoid : List Name) : fresh base avoid ∉ avoid := by
  by_cases hbase : base ∈ avoid
  · obtain ⟨n, hn, -, heq⟩ := exists_fresh_eq hbase
    rw [heq]
    exact hn.1.2
  · rwa [fresh, if_neg hbase]

/-- A fresh name is the one asked for, or that one with a number. -/
lemma fresh_eq_or_numbered (base : Name) (avoid : List Name) :
    fresh base avoid = base ∨ ∃ n, fresh base avoid = numbered base n := by
  by_cases hbase : base ∈ avoid
  · obtain ⟨n, -, -, heq⟩ := exists_fresh_eq hbase
    exact .inr ⟨n, heq⟩
  · exact .inl (if_neg hbase)

/-- A fresh name starts with the letter of the name that is asked for. -/
lemma head?_fresh {base : Name} {c : Char} (h : base.plain.toList.head? = some c)
    (avoid : List Name) : (fresh base avoid).plain.toList.head? = some c := by
  rcases fresh_eq_or_numbered base avoid with heq | ⟨n, heq⟩
  · rw [heq, h]
  · rw [heq, numbered, Name.plain_text, String.toList_append, List.head?_append, h]
    rfl

lemma head?_of_mem_freshNames {base x : Name} {c : Char} (h : base.plain.toList.head? = some c)
    {avoid : List Name} {n : Nat} (hx : x ∈ freshNames base avoid n) :
    x.plain.toList.head? = some c := by
  induction n generalizing avoid with
  | zero => cases hx
  | succ n ih =>
    rcases List.mem_cons.1 hx with rfl | hx
    · exact head?_fresh h avoid
    · exact ih hx

/-! ### Several fresh names -/

/-- A fresh name for each of the given ones, which avoids the ones before it. -/
def freshEach (avoid : List Name) : List Name → List Name
  | [] => []
  | base :: rest => fresh base avoid :: freshEach (fresh base avoid :: avoid) rest

lemma not_mem_of_mem_freshEach {bases avoid : List Name} {x : Name}
    (hx : x ∈ freshEach avoid bases) : x ∉ avoid := by
  induction bases generalizing avoid with
  | nil => cases hx
  | cons base bases ih =>
    rcases List.mem_cons.1 hx with rfl | hx
    · exact fresh_not_mem base avoid
    · exact fun hmem => ih hx (List.mem_cons_of_mem _ hmem)

lemma freshEach_nodup (avoid bases : List Name) : (freshEach avoid bases).Nodup := by
  induction bases generalizing avoid with
  | nil => exact List.nodup_nil
  | cons base bases ih =>
    exact List.nodup_cons.2 ⟨fun hmem => not_mem_of_mem_freshEach hmem List.mem_cons_self, ih _⟩

lemma freshNames_eq_freshEach (base : Name) (avoid : List Name) (n : Nat) :
    freshNames base avoid n = freshEach avoid (List.replicate n base) := by
  induction n generalizing avoid with
  | zero => rfl
  | succ n ih => rw [freshNames, List.replicate_succ, freshEach, ih]

lemma not_mem_of_mem_freshNames {base x : Name} {avoid : List Name} {n : Nat}
    (hx : x ∈ freshNames base avoid n) : x ∉ avoid := by
  rw [freshNames_eq_freshEach] at hx
  exact not_mem_of_mem_freshEach hx

lemma freshNames_nodup (base : Name) (avoid : List Name) (n : Nat) :
    (freshNames base avoid n).Nodup := by
  rw [freshNames_eq_freshEach]
  exact freshEach_nodup avoid _

end UniqueEvidence
