/-
Whole numbers are read back from JSON text.

* `Json.Delimits`: what comes after a value: nothing, a comma or a line end, none of which continues
  a number;
* `Json.ofDigits_toDigits`, `Json.readWhole_toDigits`: the digits of a number denote it, and all of
  them are taken;
* `Json.IsShort`: whole numbers that have no more digits than are read; `Json.readValue_int`: **such
  a number is read back**.
-/
import Mathlib.Data.List.TakeWhile
import UniqueEvidence.Json.Reader

namespace UniqueEvidence.Json

/-- The text cannot continue a value: it is empty, or starts with a comma or a line end. -/
def Delimits (rest : List Char) : Prop :=
  ∀ c ∈ rest.head?, c = ',' ∨ c = '\n'

lemma delimits_nil : Delimits [] := by
  simp [Delimits]

lemma delimits_cons {c : Char} (hc : c = ',' ∨ c = '\n') (cs : List Char) : Delimits (c :: cs) := by
  simpa [Delimits] using hc

/-! ### Digits -/

lemma ofDigits_toDigits (n : Nat) : ofDigits (Nat.toDigits 10 n) = n := by
  have hfold : ofDigits (Nat.toDigits 10 n) = Nat.ofDigitChars 10 (Nat.toDigits 10 n) 0 := by
    simp only [ofDigits, Nat.ofDigitChars, Nat.mul_comm]
  rw [hfold, Nat.ofDigitChars_toDigits (by decide) (by decide)]

lemma isDigit_of_mem_toDigits {n : Nat} {c : Char} (h : c ∈ Nat.toDigits 10 n) : isDigit c = true :=
  Nat.isDigit_of_mem_toDigits (by decide) (by decide) h

/-- A digit is none of other characters. -/
lemma ne_of_isDigit {d : Char} (hd : isDigit d = true) {cs : List Char}
    (hcs : cs.any isDigit = false) : ∀ c ∈ cs, c ≠ d := by
  rintro c hc rfl
  exact List.any_eq_false.1 hcs c hc hd

/-- How the digits of a number start. -/
lemma toDigits_eq_cons (n : Nat) : ∃ d ds, Nat.toDigits 10 n = d :: ds ∧ isDigit d = true := by
  obtain ⟨d, ds, hds⟩ := List.exists_cons_of_ne_nil (Nat.toDigits_ne_nil (n := n) (b := 10))
  exact ⟨d, ds, hds, isDigit_of_mem_toDigits (hds ▸ List.mem_cons_self)⟩

/-- Only zero is written with a leading zero. -/
lemma head?_toDigits_ne {n : Nat} (h : n ≠ 0) : (Nat.toDigits 10 n).head? ≠ some '0' := by
  induction n using Nat.strongRecOn with
  | ind n ih =>
    by_cases hn : n < 10
    · have hdigit : ∀ d < 10, d ≠ 0 → Nat.digitChar d ≠ '0' := by decide
      rw [Nat.toDigits_of_lt_base hn]
      simpa using hdigit n hn h
    · have hshorter := ih (n / 10) (by omega) (by omega)
      rw [Nat.toDigits_of_base_le (by decide) (by omega)]
      obtain ⟨d, ds, hds, -⟩ := toDigits_eq_cons (n / 10)
      rw [hds] at hshorter ⊢
      exact hshorter

/-- The digits of a number are taken up to the end of the value. -/
lemma readWhole_toDigits (n : Nat) {rest : List Char} (h : Delimits rest) :
    readWhole (Nat.toDigits 10 n ++ rest) = .ok (Nat.toDigits 10 n, rest) := by
  by_cases hn : n = 0
  · subst hn
    rw [Nat.toDigits_zero]
    rfl
  obtain ⟨d, ds, hds, hd⟩ := toDigits_eq_cons n
  have hdigits : ∀ c ∈ ds, isDigit c = true :=
    fun c hc => isDigit_of_mem_toDigits (hds ▸ List.mem_cons_of_mem d hc)
  have hzero : d ≠ '0' := by
    rintro rfl
    exact head?_toDigits_ne hn (by rw [hds]; rfl)
  have htake : rest.takeWhile isDigit = [] ∧ rest.dropWhile isDigit = rest := by
    cases rest with
    | nil => exact ⟨rfl, rfl⟩
    | cons c cs =>
      obtain rfl | rfl := h c rfl <;> exact ⟨rfl, rfl⟩
  rw [hds, List.cons_append, readWhole.eq_2 _ _ (by simpa using hzero), if_pos hd,
    List.takeWhile_append_of_pos hdigits, List.dropWhile_append_of_pos hdigits, htake.1,
    htake.2, List.append_nil]

lemma readFraction_of_delimits {rest : List Char} (h : Delimits rest) :
    readFraction rest = ([], rest) := by
  cases rest with
  | nil => rfl
  | cons c cs =>
    obtain rfl | rfl := h c rfl <;> rfl

lemma readExponent_of_delimits {rest : List Char} (h : Delimits rest) :
    readExponent rest = (none, rest) := by
  cases rest with
  | nil => rfl
  | cons c cs =>
    obtain rfl | rfl := h c rfl <;> rfl

/-! ### Numbers -/

/-- The number has no more digits than are read. -/
def IsShort (n : Int) : Prop :=
  (Nat.toDigits 10 n.natAbs).length ≤ Text.maxDigits

instance : DecidablePred IsShort := fun n =>
  inferInstanceAs (Decidable ((Nat.toDigits 10 n.natAbs).length ≤ Text.maxDigits))

/-- The text of a number: its digits, after a sign if it is negative. -/
lemma toList_toString_ofNat (n : Nat) : (toString (Int.ofNat n)).toList = Nat.toDigits 10 n :=
  Nat.toList_repr

@[inherit_doc toList_toString_ofNat]
lemma toList_toString_negSucc (n : Nat) :
    (toString (Int.negSucc n)).toList = '-' :: Nat.toDigits 10 (n + 1) := by
  change ("-" ++ (n + 1).repr).toList = _
  rw [String.toList_append, Nat.toList_repr]
  rfl

lemma wholeNumber_toDigits {n : Nat} (h : (Nat.toDigits 10 n).length ≤ Text.maxDigits)
    (isNegative : Bool) :
    wholeNumber isNegative (Nat.toDigits 10 n) = .ok (int (if isNegative then -n else n)) := by
  simp only [wholeNumber, if_pos h, ofDigits_toDigits]

section Signs

variable {cs ds rest : List Char} {j : Json}

lemma readNumber_unsigned (hcs : cs.head? ≠ some '-') (hwhole : readWhole cs = .ok (ds, rest))
    (hrest : Delimits rest) (hnumber : wholeNumber false ds = .ok j) :
    readNumber cs = .ok (j, rest) := by
  unfold readNumber
  split
  rename_i isNegative unsigned heq
  split at heq
  · exact absurd rfl hcs
  · obtain ⟨rfl, rfl⟩ := Prod.mk.inj heq
    simp only [hwhole, bind, Except.bind, readFraction_of_delimits hrest,
      readExponent_of_delimits hrest, hnumber]
    rfl

lemma readNumber_signed (hwhole : readWhole cs = .ok (ds, rest)) (hrest : Delimits rest)
    (hnumber : wholeNumber true ds = .ok j) : readNumber ('-' :: cs) = .ok (j, rest) := by
  unfold readNumber
  simp only [hwhole, bind, Except.bind, readFraction_of_delimits hrest,
    readExponent_of_delimits hrest, hnumber]
  rfl

end Signs

/-- **A whole number is read back**, unless it has more digits than are read. -/
theorem readNumber_toString {n : Int} (h : IsShort n) {rest : List Char} (hrest : Delimits rest) :
    readNumber ((toString n).toList ++ rest) = .ok (int n, rest) := by
  cases n with
  | ofNat n =>
    rw [IsShort, Int.natAbs_ofNat'] at h
    rw [toList_toString_ofNat]
    refine readNumber_unsigned ?_ (readWhole_toDigits n hrest) hrest (wholeNumber_toDigits h false)
    obtain ⟨d, ds, hds, hd⟩ := toDigits_eq_cons n
    rw [hds]
    have hsign : ∀ c ∈ ['-'], c ≠ d := ne_of_isDigit hd rfl
    simpa [eq_comm] using hsign
  | negSucc n =>
    rw [IsShort, Int.natAbs_negSucc] at h
    rw [toList_toString_negSucc]
    exact readNumber_signed (readWhole_toDigits (n + 1) hrest) hrest (wholeNumber_toDigits h true)

/-! ### Numbers among the values -/

/-- The text of a number starts with a digit, or with a sign and a digit. -/
lemma toString_starts (n : Int) : ∃ d ds, isDigit d = true ∧
    ((toString n).toList = d :: ds ∨ (toString n).toList = '-' :: d :: ds) := by
  cases n with
  | ofNat n =>
    obtain ⟨d, ds, hds, hd⟩ := toDigits_eq_cons n
    exact ⟨d, ds, hd, .inl (by rw [toList_toString_ofNat, hds])⟩
  | negSucc n =>
    obtain ⟨d, ds, hds, hd⟩ := toDigits_eq_cons (n + 1)
    exact ⟨d, ds, hd, .inr (by rw [toList_toString_negSucc, hds])⟩

lemma mem_toString {n : Int} {c : Char} (h : c ∈ (toString n).toList) :
    c = '-' ∨ isDigit c = true := by
  cases n with
  | ofNat n =>
    rw [toList_toString_ofNat] at h
    exact .inr (isDigit_of_mem_toDigits h)
  | negSucc n =>
    rw [toList_toString_negSucc] at h
    exact (List.mem_cons.1 h).imp_right isDigit_of_mem_toDigits

/-- What starts like a number is read as one. -/
lemma readValue_of_digit {d : Char} (hd : isDigit d = true) (depth : Nat) (ds : List Char) :
    readValue (depth + 1) (d :: ds) = readNumber (d :: ds) ∧
    readValue (depth + 1) ('-' :: d :: ds) = readNumber ('-' :: d :: ds) := by
  have hne : ∀ c ∈ ['n', 't', 'f', 'N', 'I', '-', '"', '[', '\x7b'], c ≠ d := ne_of_isDigit hd rfl
  simp only [List.forall_mem_cons] at hne
  obtain ⟨hn, ht, hf, hN, hI, hminus, hquote, hlist, hobject, -⟩ := hne
  have hword : readWord (d :: ds) = none ∧ readWord ('-' :: d :: ds) = none := by
    simp [readWord, after?, hn, ht, hf, hN, hI, hminus]
  constructor
  · rw [readValue]
    · simp only [hword.1]
    all_goals simp [hquote.symm, hlist.symm, hobject.symm]
  · rw [readValue]
    · simp only [hword.2]
    all_goals simp

/-- **A whole number is read back as a value.** -/
theorem readValue_int {n : Int} (h : IsShort n) (depth : Nat) {rest : List Char}
    (hrest : Delimits rest) :
    readValue (depth + 1) ((toString n).toList ++ rest) = .ok (int n, rest) := by
  have hnumber := readNumber_toString h hrest
  obtain ⟨d, ds, hd, htext | htext⟩ := toString_starts n
  · rw [htext] at hnumber ⊢
    exact (readValue_of_digit hd depth (ds ++ rest)).1.trans hnumber
  · rw [htext] at hnumber ⊢
    exact (readValue_of_digit hd depth (ds ++ rest)).2.trans hnumber

end UniqueEvidence.Json
