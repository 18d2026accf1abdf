/-
JSON text is read back as the value that was written.

* `Json.units`: the 16-bit units of a character; `Json.readString_escaped`: **a string literal is
  read back**, whatever characters it holds: they are escaped one by one, read as units, and a pair
  of surrogates is joined again;
* `Json.IsTextual`: values that a text denotes exactly: no fractions, no number with more digits
  than are read, no repeated keys.  `Json.isTextual` decides it;
* `Json.read_write`: **such a value is read back from its text**.  The text of a value is long
  enough to bound its nesting;
* `Json.isPrinted_write`: the text consists of printable ASCII and line ends.
-/
import Mathlib.Data.List.Nodup
import UniqueEvidence.Json.Writer
import UniqueEvidence.Proofs.JsonNumbers

namespace UniqueEvidence.Json

/-! ### String literals -/

/-- The 16-bit units of a character. -/
def units (c : Char) : List Nat :=
  if c.toNat < 0x10000 then [c.toNat]
  else [0xd800 + (c.toNat - 0x10000) / 0x400, 0xdc00 + (c.toNat - 0x10000) % 0x400]

lemma hexValue?_digitChar : ∀ d < 16, hexValue? (Nat.digitChar d) = some d := by
  decide

/-- The four digits of a unit denote it. -/
lemma unit?_hex {n : Nat} (h : n < 0x10000) :
    ∃ a b c d, Text.hex 4 n = [a, b, c, d] ∧ unit? a b c d = some n := by
  refine ⟨_, _, _, _, rfl, ?_⟩
  simp only [unit?, hexValue?_digitChar _ (Nat.mod_lt _ (by omega : 0 < 16)), Option.bind_eq_bind,
    Option.bind_some, Option.pure_def, Option.some.injEq]
  omega

lemma readUnits_escapeUnit {n : Nat} (h : n < 0x10000) (rest : List Char) :
    readUnits (escapeUnit n ++ rest) = (readUnits rest).map fun p => (n :: p.1, p.2) := by
  obtain ⟨a, b, c, d, hhex, hunit⟩ := unit?_hex h
  rw [escapeUnit, hhex]
  simp only [List.cons_append, List.nil_append, readUnits, hunit]
  cases readUnits rest <;> rfl

/-- An escape of one letter. -/
lemma readUnits_escaped {letter c : Char} (h : escaped? letter = some c) (rest : List Char) :
    readUnits ('\\' :: letter :: rest) = (readUnits rest).map fun p => (c.toNat :: p.1, p.2) := by
  have hu : letter ≠ 'u' := by
    rintro rfl
    cases h
  rw [readUnits, h]
  · cases readUnits rest <;> rfl
  · exact fun _ _ _ _ _ hletter => absurd hletter hu

/-- A character that stands for itself. -/
lemma readUnits_plain {c : Char} (hquote : c ≠ '"') (hslash : c ≠ '\\') (hprint : 0x20 ≤ c.toNat)
    (rest : List Char) :
    readUnits (c :: rest) = (readUnits rest).map fun p => (c.toNat :: p.1, p.2) := by
  rw [readUnits, if_neg (not_or.2 ⟨hslash, Nat.not_lt.2 hprint⟩)]
  · cases readUnits rest <;> rfl
  · exact hquote
  · exact fun _ _ _ _ _ hc => absurd hc hslash
  · exact fun _ _ hc => absurd hc hslash

/-- **An escaped character is read as its units.** -/
lemma readUnits_escapeChar (c : Char) (rest : List Char) :
    readUnits (escapeChar c ++ rest) = (readUnits rest).map fun p => (units c ++ p.1, p.2) := by
  have hunit : c.toNat < 0x10000 → units c = [c.toNat] := fun h => if_pos h
  rw [escapeChar]
  split_ifs with hquote hslash hn hr ht hf hb hprint hlow
  · subst hquote
    exact readUnits_escaped rfl rest
  · subst hslash
    exact readUnits_escaped rfl rest
  · subst hn
    exact readUnits_escaped rfl rest
  · subst hr
    exact readUnits_escaped rfl rest
  · subst ht
    exact readUnits_escaped rfl rest
  · subst hf
    exact readUnits_escaped rfl rest
  · subst hb
    exact readUnits_escaped rfl rest
  · rw [hunit (by omega)]
    exact readUnits_plain hquote hslash hprint.1 rest
  · rw [hunit hlow]
    exact readUnits_escapeUnit hlow rest
  · have hmax : c.toNat < 0x110000 := by
      rcases c.valid with h | h
      · exact Nat.lt_trans h (by omega)
      · exact h.2
    dsimp only
    rw [List.append_assoc, readUnits_escapeUnit (by omega), readUnits_escapeUnit (by omega),
      Option.map_map, units, if_neg hlow]
    rfl

lemma readUnits_escaped_text (cs rest : List Char) :
    readUnits (cs.flatMap escapeChar ++ '"' :: rest) = some (cs.flatMap units, rest) := by
  induction cs with
  | nil => rfl
  | cons c cs ih =>
    rw [List.flatMap_cons, List.append_assoc, readUnits_escapeChar, ih, List.flatMap_cons]
    rfl

/-- The units of a character are joined to it. -/
lemma joinUnits_units (c : Char) (us : List Nat) :
    joinUnits (units c ++ us) = c :: joinUnits us := by
  have hvalid : c.toNat < 0xd800 ∨ 0xdfff < c.toNat ∧ c.toNat < 0x110000 := c.valid
  rw [units]
  split_ifs with hlow
  · have hhigh : isHighSurrogate c.toNat = false := by
      simp only [isHighSurrogate, Bool.and_eq_false_iff, decide_eq_false_iff_not]
      omega
    have hlow' : isLowSurrogate c.toNat = false := by
      simp only [isLowSurrogate, Bool.and_eq_false_iff, decide_eq_false_iff_not]
      omega
    have hchar : charOf c.toNat = c := by
      simp [charOf, hhigh, hlow', Char.ofNat_toNat]
    cases us with
    | nil => simp [joinUnits, hchar]
    | cons m us => simp [joinUnits, hchar, hhigh]
  · have hhigh : isHighSurrogate (0xd800 + (c.toNat - 0x10000) / 0x400) = true := by
      simp only [isHighSurrogate, Bool.and_eq_true, decide_eq_true_eq]
      omega
    have hlow' : isLowSurrogate (0xdc00 + (c.toNat - 0x10000) % 0x400) = true := by
      simp only [isLowSurrogate, Bool.and_eq_true, decide_eq_true_eq]
      omega
    have hjoined : 0x10000 + (0xd800 + (c.toNat - 0x10000) / 0x400 - 0xd800) * 0x400 +
        (0xdc00 + (c.toNat - 0x10000) % 0x400 - 0xdc00) = c.toNat := by
      omega
    rw [List.cons_append, List.cons_append, List.nil_append, joinUnits, hhigh, hlow',
      hjoined, Char.ofNat_toNat]
    rfl

lemma joinUnits_flatMap_units (cs : List Char) : joinUnits (cs.flatMap units) = cs := by
  induction cs with
  | nil => rfl
  | cons c cs ih => rw [List.flatMap_cons, joinUnits_units, ih]

/-- **A string literal is read back**, whatever characters it holds. -/
theorem readString_escaped (s : String) (rest : List Char) :
    readString (s.toList.flatMap escapeChar ++ '"' :: rest) = .ok (s, rest) := by
  simp only [readString, readUnits_escaped_text, joinUnits_flatMap_units, String.ofList_toList]

/-! ### Values -/

/-- A value that a text denotes exactly: it has no fractions, no whole number with more digits than
are read, and no key is repeated in an object. -/
inductive IsTextual : Json → Prop where
  | null : IsTextual .null
  | bool (b : Bool) : IsTextual (.bool b)
  | int {n : Int} : IsShort n → IsTextual (.int n)
  | str (s : String) : IsTextual (.str s)
  | arr {items : List Json} : (∀ j ∈ items, IsTextual j) → IsTextual (.arr items)
  | obj {members : List (String × Json)} :
      (members.map Prod.fst).Nodup → (∀ p ∈ members, IsTextual p.2) → IsTextual (.obj members)

mutual

/-- Whether a text denotes the value exactly. -/
def isTextual : Json → Bool
  | .null | .bool _ | .str _ => true
  | .int n => decide (IsShort n)
  | .real _ => false
  | .arr items => isTextualItems items
  | .obj members => decide (members.map Prod.fst).Nodup && isTextualMembers members

/-- Whether texts denote the entries of a list exactly. -/
def isTextualItems : List Json → Bool
  | [] => true
  | j :: rest => j.isTextual && isTextualItems rest

/-- Whether texts denote the values of members exactly. -/
def isTextualMembers : List (String × Json) → Bool
  | [] => true
  | (_, j) :: rest => j.isTextual && isTextualMembers rest

end

mutual

lemma isTextual_iff : ∀ j : Json, j.isTextual = true ↔ j.IsTextual
  | .null => by simp [isTextual, IsTextual.null]
  | .bool b => by simp [isTextual, IsTextual.bool]
  | .str s => by simp [isTextual, IsTextual.str]
  | .int n => by
    rw [isTextual, decide_eq_true_eq]
    exact ⟨.int, fun h => by cases h; assumption⟩
  | .real x => by
    rw [isTextual]
    exact iff_of_false Bool.false_ne_true (by rintro ⟨⟩)
  | .arr items => by
    rw [isTextual, isTextualItems_iff items]
    exact ⟨.arr, fun h => by cases h; assumption⟩
  | .obj members => by
    rw [isTextual, Bool.and_eq_true, decide_eq_true_eq, isTextualMembers_iff members]
    exact ⟨fun h => .obj h.1 h.2, fun h => by cases h; exact ⟨‹_›, ‹_›⟩⟩

lemma isTextualItems_iff :
    ∀ items : List Json, isTextualItems items = true ↔ ∀ j ∈ items, j.IsTextual
  | [] => by simp [isTextualItems]
  | j :: rest => by
    rw [isTextualItems, Bool.and_eq_true, isTextual_iff j,
    isTextualItems_iff rest, List.forall_mem_cons]

lemma isTextualMembers_iff :
    ∀ members : List (String × Json), isTextualMembers members = true ↔ ∀ p ∈ members, p.2.IsTextual
  | [] => by simp [isTextualMembers]
  | (_, j) :: rest => by
    rw [isTextualMembers, Bool.and_eq_true, isTextual_iff j,
      isTextualMembers_iff rest, List.forall_mem_cons]

end

instance : DecidablePred IsTextual := fun j =>
  decidable_of_iff _ (isTextual_iff j)

/-- The text of a value is read back up to its end, where the depth is at least its length. -/
def ReadsBack (j : Json) : Prop :=
  ∀ (indent depth : Nat) (rest : List Char), Delimits rest → (j.writeAt indent).length ≤ depth →
    readValue depth (j.writeAt indent ++ rest) = .ok (j, rest)

lemma delimits_newline (n : Nat) (cs : List Char) : Delimits (newline n ++ cs) :=
  delimits_cons (.inr rfl) _

@[simp]
lemma skipSpace_newline (n : Nat) (cs : List Char) :
    skipSpace (newline n ++ cs) = skipSpace cs := by
  have hblank : ∀ n, skipSpace (List.replicate n ' ' ++ cs) = skipSpace cs := by
    intro n
    induction n with
    | zero => rfl
    | succ n ih => exact ih
  exact hblank n

lemma skipSpace_cons {c : Char} (hc : isSpace c = false) (cs : List Char) :
    skipSpace (c :: cs) = c :: cs := by
  simp [skipSpace, hc]

/-- How the text of a value starts. -/
lemma IsTextual.writeAt_eq_cons {j : Json} (h : j.IsTextual) (indent : Nat) :
    ∃ c cs, j.writeAt indent = c :: cs ∧ isSpace c = false ∧ c ≠ ']' := by
  cases h with
  | null => exact ⟨_, _, rfl, rfl, by decide⟩
  | bool b => cases b <;> exact ⟨_, _, rfl, rfl, by decide⟩
  | @int n _ =>
    obtain ⟨d, ds, hd, htext | htext⟩ := toString_starts n
    · have hne : ∀ c ∈ [' ', '\t', '\n', '\r', ']'], c ≠ d := ne_of_isDigit hd rfl
      simp only [List.forall_mem_cons] at hne
      obtain ⟨hblank, htab, hline, hreturn, hclose, -⟩ := hne
      exact ⟨d, ds, htext,
        by simp [isSpace, hblank.symm, htab.symm, hline.symm, hreturn.symm], hclose.symm⟩
    · exact ⟨_, _, htext, rfl, by decide⟩
  | str s => exact ⟨_, _, rfl, rfl, by decide⟩
  | @arr items _ => cases items <;> exact ⟨_, _, rfl, rfl, by decide⟩
  | @obj members _ _ => cases members <;> exact ⟨_, _, rfl, rfl, by decide⟩

lemma IsTextual.skipSpace_writeAt {j : Json} (h : j.IsTextual) (indent : Nat) (rest : List Char) :
    skipSpace (j.writeAt indent ++ rest) = j.writeAt indent ++ rest := by
  obtain ⟨c, cs, heq, hc, -⟩ := h.writeAt_eq_cons indent
  rw [heq]
  exact skipSpace_cons hc _

/-- A depth of at least the length of a text is positive. -/
lemma IsTextual.exists_depth {j : Json} (h : j.IsTextual) {indent depth : Nat}
    (hdepth : (j.writeAt indent).length ≤ depth) : ∃ d, depth = d + 1 := by
  obtain ⟨c, cs, heq, -⟩ := h.writeAt_eq_cons indent
  rw [heq, List.length_cons] at hdepth
  exact ⟨depth - 1, by omega⟩

/-! One step of each reader, by what it finds. -/

section Steps

variable {depth : Nat} {cs mid more mid' more' rest : List Char} {key : String} {j : Json}

lemma readItems_last (hj : readValue depth cs = .ok (j, mid)) (hmid : skipSpace mid = ']' :: rest) :
    readItems (depth + 1) cs = .ok ([j], rest) := by
  simp only [readItems, hj, bind, Except.bind, hmid]
  rfl

lemma readItems_more {items : List Json} (hj : readValue depth cs = .ok (j, mid))
    (hmid : skipSpace mid = ',' :: more)
    (hitems : readItems depth (skipSpace more) = .ok (items, rest)) :
    readItems (depth + 1) cs = .ok (j :: items, rest) := by
  simp only [readItems, hj, bind, Except.bind, hmid, hitems]
  rfl

lemma readMembers_last (hkey : readString cs = .ok (key, mid)) (hmid : skipSpace mid = ':' :: more)
    (hj : readValue depth (skipSpace more) = .ok (j, mid'))
    (hmid' : skipSpace mid' = '\x7d' :: rest) :
    readMembers (depth + 1) ('"' :: cs) = .ok ([(key, j)], rest) := by
  simp only [readMembers, hkey, bind, Except.bind, hmid, hj, hmid']
  rfl

lemma readMembers_more {members : List (String × Json)} (hkey : readString cs = .ok (key, mid))
    (hmid : skipSpace mid = ':' :: more) (hj : readValue depth (skipSpace more) = .ok (j, mid'))
    (hmid' : skipSpace mid' = ',' :: more')
    (hmembers : readMembers depth (skipSpace more') = .ok (members, rest)) :
    readMembers (depth + 1) ('"' :: cs) = .ok ((key, j) :: members, rest) := by
  simp only [readMembers, hkey, bind, Except.bind, hmid, hj, hmid', hmembers]
  rfl

lemma readValue_str {s : String} (hs : readString cs = .ok (s, rest)) :
    readValue (depth + 1) ('"' :: cs) = .ok (str s, rest) := by
  simp only [readValue, hs, bind, Except.bind]
  rfl

lemma readValue_arr {items : List Json} {c : Char} (hc : c ≠ ']') (hmid : skipSpace cs = c :: mid)
    (hitems : readItems depth (c :: mid) = .ok (items, rest)) :
    readValue (depth + 1) ('[' :: cs) = .ok (arr items, rest) := by
  simp only [readValue, hmid]
  split
  · rename_i heq
    exact absurd (List.cons.inj heq).1 hc
  · simp only [hitems, bind, Except.bind]
    rfl

lemma readValue_obj {members : List (String × Json)} (hmid : skipSpace cs = '"' :: mid)
    (hmembers : readMembers depth ('"' :: mid) = .ok (members, rest)) :
    readValue (depth + 1) ('\x7b' :: cs) =
      .ok (obj (members.foldl (fun ms (k, v) => setMember k v ms) []), rest) := by
  simp only [readValue, hmid]
  split
  · rename_i heq
    cases (List.cons.inj heq).1
  · simp only [hmembers, bind, Except.bind]
    rfl

end Steps

/-- The entries of a list are read back up to the closing bracket. -/
lemma readItems_write {j : Json} {items : List Json} (htextual : ∀ i ∈ j :: items, i.IsTextual)
    (hreads : ∀ i ∈ j :: items, i.ReadsBack) (indent outer : Nat) (rest : List Char) (depth : Nat)
    (hdepth : (j.writeAt indent ++ writeItems indent items).length < depth) :
    readItems depth
      (j.writeAt indent ++ (writeItems indent items ++ (newline outer ++ ']' :: rest))) =
      .ok (j :: items, rest) := by
  induction items generalizing j depth with
  | nil =>
    obtain ⟨depth, rfl⟩ : ∃ d, depth = d + 1 := ⟨depth - 1, by omega⟩
    rw [writeItems, List.append_nil] at hdepth
    refine readItems_last
      (hreads j List.mem_cons_self indent depth _ (delimits_newline _ _) (by omega)) ?_
    rw [writeItems, List.nil_append, skipSpace_newline, skipSpace_cons rfl]
  | cons i items ih =>
    obtain ⟨depth, rfl⟩ : ∃ d, depth = d + 1 := ⟨depth - 1, by omega⟩
    simp only [writeItems, List.length_append, List.length_cons] at hdepth
    simp only [writeItems, List.cons_append, List.append_assoc]
    have hrest := ih (j := i) (fun i' hi' => htextual i' (List.mem_cons_of_mem _ hi'))
      (fun i' hi' => hreads i' (List.mem_cons_of_mem _ hi')) depth
        (by rw [List.length_append]; omega)
    refine readItems_more
      (hreads j List.mem_cons_self indent depth _ (delimits_cons (.inl rfl) _) (by omega))
      (skipSpace_cons rfl _) ?_
    rwa [skipSpace_newline, (htextual i (by simp)).skipSpace_writeAt]

/-- After the colon of a member there is a blank. -/
lemma readValue_skipSpace {j : Json} (htextual : j.IsTextual) (hreads : j.ReadsBack)
    {indent depth : Nat} (hdepth : (j.writeAt indent).length ≤ depth) (rest : List Char)
    (hrest : Delimits rest) :
    readValue depth (skipSpace (' ' :: (j.writeAt indent ++ rest))) = .ok (j, rest) := by
  have hskip : skipSpace (' ' :: (j.writeAt indent ++ rest)) = j.writeAt indent ++ rest :=
    htextual.skipSpace_writeAt indent rest
  rw [hskip]
  exact hreads indent depth rest hrest hdepth

/-- The members of an object are read back up to the closing brace. -/
lemma readMembers_write {k : String} {j : Json} {members : List (String × Json)}
    (htextual : ∀ p ∈ (k, j) :: members, p.2.IsTextual)
    (hreads : ∀ p ∈ (k, j) :: members, p.2.ReadsBack) (indent outer : Nat) (rest : List Char)
    (depth : Nat) (hdepth : (j.writeAt indent ++ writeMembers indent members).length < depth) :
    readMembers depth
      (writeString k ++ (':' :: ' ' :: (j.writeAt indent ++ (writeMembers indent members ++
      (newline outer ++ '\x7d' :: rest))))) = .ok ((k, j) :: members, rest) := by
  induction members generalizing k j depth with
  | nil =>
    obtain ⟨depth, rfl⟩ : ∃ d, depth = d + 1 := ⟨depth - 1, by omega⟩
    rw [writeMembers, List.append_nil] at hdepth
    have hj := readValue_skipSpace (htextual _ List.mem_cons_self) (hreads _ List.mem_cons_self)
      (Nat.le_of_lt_succ hdepth)
    simp only [writeString, List.cons_append, List.append_assoc, List.nil_append]
    refine readMembers_last (readString_escaped k _) (skipSpace_cons rfl _)
      (hj _ (delimits_newline _ _)) ?_
    rw [writeMembers, List.nil_append, skipSpace_newline, skipSpace_cons rfl]
  | cons p members ih =>
    obtain ⟨k', i⟩ := p
    obtain ⟨depth, rfl⟩ : ∃ d, depth = d + 1 := ⟨depth - 1, by omega⟩
    simp only [writeMembers, List.length_append, List.length_cons] at hdepth
    have hrest := ih (k := k') (j := i) (fun p hp => htextual p (List.mem_cons_of_mem _ hp))
      (fun p hp => hreads p (List.mem_cons_of_mem _ hp)) depth (by rw [List.length_append]; omega)
    have hlength : (j.writeAt indent).length ≤ depth := by omega
    have hj :=
      readValue_skipSpace (htextual _ List.mem_cons_self) (hreads _ List.mem_cons_self) hlength
    simp only [writeMembers, writeString, List.cons_append, List.append_assoc,
      List.nil_append] at hrest ⊢
    refine readMembers_more (readString_escaped k _) (skipSpace_cons rfl _)
      (hj _ (delimits_cons (.inl rfl) _)) (skipSpace_cons rfl _) ?_
    rwa [skipSpace_newline, skipSpace_cons rfl]

/-- Members with distinct keys are collected as they are. -/
lemma foldl_setMember (done : List (String × Json)) {members : List (String × Json)}
    (h : ((done ++ members).map Prod.fst).Nodup) :
    members.foldl (fun ms (p : String × Json) => setMember p.1 p.2 ms) done = done ++ members := by
  have hset : ∀ {k : String} {v : Json} {ms : List (String × Json)}, k ∉ ms.map Prod.fst →
      setMember k v ms = ms ++ [(k, v)] := by
    intro k v ms hk
    induction ms with
    | nil => rfl
    | cons m ms ih =>
      simp only [List.map_cons, List.mem_cons, not_or] at hk
      rw [setMember, if_neg (Ne.symm hk.1), ih hk.2, List.cons_append]
  induction members generalizing done with
  | nil => simp
  | cons p members ih =>
    have hp : p.1 ∉ done.map Prod.fst := by
      rw [List.map_append, List.map_cons] at h
      exact fun hmem => (List.nodup_append.1 h).2.2 _ hmem _ List.mem_cons_self rfl
    rw [List.foldl_cons, hset hp, ih _ (by simpa using h)]
    simp

/-- **A value is read back from its text**, followed by anything that cannot continue it. -/
theorem IsTextual.readsBack {j : Json} (h : j.IsTextual) : j.ReadsBack := by
  induction h with
  | null =>
    intro indent depth rest _ hdepth
    obtain ⟨depth, rfl⟩ := IsTextual.null.exists_depth hdepth
    rfl
  | bool b =>
    intro indent depth rest _ hdepth
    obtain ⟨depth, rfl⟩ := (IsTextual.bool b).exists_depth hdepth
    cases b <;> rfl
  | int hn =>
    intro indent depth rest hrest hdepth
    obtain ⟨depth, rfl⟩ := (IsTextual.int hn).exists_depth hdepth
    rw [writeAt]
    exact readValue_int hn depth hrest
  | str s =>
    intro indent depth rest _ hdepth
    obtain ⟨depth, rfl⟩ := (IsTextual.str s).exists_depth hdepth
    simp only [writeAt, writeString, List.cons_append, List.append_assoc, List.nil_append]
    exact readValue_str (readString_escaped s rest)
  | @arr items hitems ih =>
    intro indent depth rest _ hdepth
    obtain ⟨depth, rfl⟩ := (IsTextual.arr hitems).exists_depth hdepth
    cases items with
    | nil => rfl
    | cons i items =>
      simp only [writeAt, List.length_append, List.length_cons, List.length_nil] at hdepth
      obtain ⟨c, cs, hstart, hblank, hc⟩ :=
        (hitems i List.mem_cons_self).writeAt_eq_cons (indent + 2)
      have hread :=
        readItems_write hitems ih (indent + 2) indent rest depth (by rw [List.length_append]; omega)
      simp only [writeAt, List.cons_append, List.append_assoc, List.nil_append]
      rw [hstart] at hread ⊢
      refine readValue_arr hc ?_ hread
      rw [skipSpace_newline]
      exact skipSpace_cons hblank _
  | @obj members hnodup hmembers ih =>
    intro indent depth rest _ hdepth
    obtain ⟨depth, rfl⟩ := (IsTextual.obj hnodup hmembers).exists_depth hdepth
    cases members with
    | nil => rfl
    | cons p members =>
      obtain ⟨k, i⟩ := p
      simp only [writeAt, List.length_append, List.length_cons, List.length_nil] at hdepth
      have hread := readMembers_write hmembers ih (indent + 2) indent rest depth
        (by rw [List.length_append]; omega)
      simp only [writeAt, writeString, List.cons_append, List.append_assoc,
        List.nil_append] at hread ⊢
      rw [readValue_obj ((skipSpace_newline _ _).trans (skipSpace_cons rfl _)) hread,
        foldl_setMember [] hnodup, List.nil_append]

/-- **A value is read back from its text.** -/
theorem read_write {j : Json} (h : j.IsTextual) : read j.write = .ok j := by
  have hread := h.readsBack 0 ((j.writeAt 0).length + 1) [] delimits_nil (by omega)
  have hskip := h.skipSpace_writeAt 0 []
  rw [List.append_nil] at hread hskip
  simp only [read, write, String.toList_ofList, hskip, hread, bind, Except.bind]
  rfl

/-! ### The characters of the text -/

/-- A printable character of ASCII, or a line end. -/
def IsPrinted (c : Char) : Prop :=
  c = '\n' ∨ 0x20 ≤ c.toNat ∧ c.toNat ≤ 0x7e

instance : DecidablePred IsPrinted := fun c =>
  inferInstanceAs (Decidable (c = '\n' ∨ 0x20 ≤ c.toNat ∧ c.toNat ≤ 0x7e))

lemma isPrinted_of_all {cs : List Char} (h : (cs.all fun c => decide (IsPrinted c)) = true) :
    ∀ c ∈ cs, IsPrinted c :=
  fun c hc => of_decide_eq_true (List.all_eq_true.1 h c hc)

lemma isPrinted_hex (width n : Nat) : ∀ c ∈ Text.hex width n, IsPrinted c := by
  have hdigit : ∀ d < 16, IsPrinted (Nat.digitChar d) := by decide
  induction width generalizing n with
  | zero => exact List.forall_mem_nil _
  | succ width ih =>
    exact List.forall_mem_append.2
      ⟨ih _, List.forall_mem_singleton.2 (hdigit _ (Nat.mod_lt _ (by omega)))⟩

lemma isPrinted_escapeUnit (n : Nat) : ∀ c ∈ escapeUnit n, IsPrinted c :=
  List.forall_mem_cons.2 ⟨by decide, List.forall_mem_cons.2 ⟨by decide, isPrinted_hex 4 n⟩⟩

lemma isPrinted_escapeChar (c : Char) : ∀ d ∈ escapeChar c, IsPrinted d := by
  rw [escapeChar]
  split_ifs with _ _ _ _ _ _ _ hprint _
  iterate 7 exact isPrinted_of_all rfl
  · exact List.forall_mem_singleton.2 (.inr hprint)
  · exact isPrinted_escapeUnit _
  · exact List.forall_mem_append.2 ⟨isPrinted_escapeUnit _, isPrinted_escapeUnit _⟩

lemma isPrinted_writeString (s : String) : ∀ c ∈ writeString s, IsPrinted c := by
  simp only [writeString, List.forall_mem_append, List.forall_mem_cons]
  refine ⟨⟨by decide, fun c hc => ?_⟩, by decide, List.forall_mem_nil _⟩
  obtain ⟨d, -, hd⟩ := List.mem_flatMap.1 hc
  exact isPrinted_escapeChar d c hd

lemma isPrinted_newline (n : Nat) : ∀ c ∈ newline n, IsPrinted c := by
  refine List.forall_mem_cons.2 ⟨by decide, fun c hc => ?_⟩
  rw [List.eq_of_mem_replicate hc]
  decide

/-- The text of a value is printed, at any indentation. -/
def PrintsAscii (j : Json) : Prop :=
  ∀ indent, ∀ c ∈ j.writeAt indent, IsPrinted c

lemma isPrinted_writeItems {items : List Json} (h : ∀ j ∈ items, j.PrintsAscii) (indent : Nat) :
    ∀ c ∈ writeItems indent items, IsPrinted c := by
  induction items with
  | nil => exact List.forall_mem_nil _
  | cons j items ih =>
    obtain ⟨hj, hitems⟩ := List.forall_mem_cons.1 h
    simp only [writeItems, List.forall_mem_append, List.forall_mem_cons]
    exact ⟨⟨⟨by decide, isPrinted_newline _⟩, hj indent⟩, ih hitems⟩

lemma isPrinted_writeMembers {members : List (String × Json)} (h : ∀ p ∈ members, p.2.PrintsAscii)
    (indent : Nat) : ∀ c ∈ writeMembers indent members, IsPrinted c := by
  induction members with
  | nil => exact List.forall_mem_nil _
  | cons p members ih =>
    obtain ⟨hp, hmembers⟩ := List.forall_mem_cons.1 h
    simp only [writeMembers, List.forall_mem_append, List.forall_mem_cons]
    exact ⟨⟨⟨⟨⟨by decide, isPrinted_newline _⟩, isPrinted_writeString _⟩, by decide, by decide,
      List.forall_mem_nil _⟩, hp indent⟩, ih hmembers⟩

lemma isPrinted_of_isDigit {c : Char} (h : isDigit c = true) : IsPrinted c := by
  simp only [isDigit, Bool.and_eq_true, decide_eq_true_eq, Char.le_def, UInt32.le_iff_toNat_le] at h
  have hlow : 0x30 ≤ c.toNat := h.1
  have hhigh : c.toNat ≤ 0x39 := h.2
  exact .inr ⟨by omega, by omega⟩

lemma IsTextual.printsAscii {j : Json} (h : j.IsTextual) : j.PrintsAscii := by
  induction h with
  | null => exact fun _ => isPrinted_of_all rfl
  | bool b => exact fun _ => by cases b <;> exact isPrinted_of_all rfl
  | int =>
    intro indent c hc
    rw [writeAt] at hc
    obtain rfl | hdigit := mem_toString hc
    · decide
    · exact isPrinted_of_isDigit hdigit
  | str s => exact fun _ => isPrinted_writeString s
  | @arr items _ ih =>
    intro indent
    cases items with
    | nil => exact isPrinted_of_all rfl
    | cons j items =>
      obtain ⟨hj, hitems⟩ := List.forall_mem_cons.1 ih
      simp only [writeAt, List.forall_mem_append, List.forall_mem_cons]
      exact ⟨⟨⟨⟨⟨by decide, isPrinted_newline _⟩, hj _⟩, isPrinted_writeItems hitems _⟩,
        isPrinted_newline _⟩, by decide, List.forall_mem_nil _⟩
  | @obj members _ _ ih =>
    intro indent
    cases members with
    | nil => exact isPrinted_of_all rfl
    | cons p members =>
      obtain ⟨hp, hmembers⟩ := List.forall_mem_cons.1 ih
      simp only [writeAt, List.forall_mem_append, List.forall_mem_cons]
      exact ⟨⟨⟨⟨⟨⟨⟨by decide, isPrinted_newline _⟩, isPrinted_writeString _⟩, by decide, by decide,
        List.forall_mem_nil _⟩, hp _⟩,
        isPrinted_writeMembers hmembers _⟩, isPrinted_newline _⟩, by decide, List.forall_mem_nil _⟩

/-- **The text of a value is printable.** -/
theorem isPrinted_write {j : Json} (h : j.IsTextual) : ∀ c ∈ j.write.toList, IsPrinted c := by
  rw [write, String.toList_ofList]
  exact h.printsAscii 0

end UniqueEvidence.Json
