/-
What is written as JSON is read back, in whatever order objects list their members.

* `Json.Alike`: two values are equal up to the order of members;
* `Json.Alike.field`, `Json.Alike.nameField`, `Json.Alike.listField`: a member that an object has is
  found in every value alike;
* `Name.ofJson_of_alike`, `Term.ofJson_of_alike`, `Goal.ofJson_of_alike`: names, **terms** and goals
  are read back from every value alike to their own.
-/
import Mathlib.Data.List.Forall2
import UniqueEvidence.Encoding.Declarations

namespace UniqueEvidence

@[simp]
lemma Except.ok_bind_decode {α β : Type} (a : α) (f : α → Except DecodeError β) :
    (Except.ok a >>= f) = f a :=
  rfl

/-! ### Values up to the order of members -/

namespace Json

/-- The values are equal, up to the order in which objects list their members. -/
inductive Alike : Json → Json → Prop where
  | null : Alike null null
  | bool (b : Bool) : Alike (bool b) (bool b)
  | int (n : Int) : Alike (int n) (int n)
  | real (x : Double) : Alike (real x) (real x)
  | str (s : String) : Alike (str s) (str s)
  | arr {items items' : List Json} : List.Forall₂ Alike items items' →
    Alike (arr items) (arr items')
  | obj {members members' : List (String × Json)} :
      (∀ key, Option.Rel Alike (members.lookup key) (members'.lookup key)) →
        Alike (obj members) (obj members')

variable {v j : Json} {members : List (String × Json)}

lemma map_findMember? (key : String) (members : List (String × Json)) :
    (findMember? key members).map Subtype.val = members.lookup key := by
  induction members with
  | nil => rfl
  | cons p members ih =>
    obtain ⟨k, w⟩ := p
    rw [findMember?, List.lookup_cons]
    by_cases hk : k = key
    · simp [hk]
    · have hne : (key == k) = false := beq_false_of_ne (Ne.symm hk)
      rw [if_neg hk, hne, ← ih, Option.map_map]
      rfl

/-- A member is found under its key. -/
lemma field_of_lookup {key : String} (h : members.lookup key = some v) :
    ∃ hsize, (obj members).field key = .ok ⟨v, hsize⟩ := by
  rw [← map_findMember?] at h
  obtain ⟨w, hw, rfl⟩ := Option.map_eq_some_iff.1 h
  rw [field, member?, hw]
  exact ⟨_, rfl⟩

theorem Alike.refl (j : Json) : j.Alike j :=
  match j with
  | .null => .null
  | .bool b => .bool b
  | .int n => .int n
  | .real x => .real x
  | .str s => .str s
  | .arr items => .arr (List.forall₂_same.2 fun item hitem => Alike.refl item)
  | .obj members => .obj fun key => by
    cases hkey : members.lookup key with
    | none => exact .none
    | some v =>
      obtain ⟨hsize, -⟩ := field_of_lookup hkey
      exact .some (Alike.refl v)
termination_by sizeOf j
decreasing_by
  · have hsize := List.sizeOf_lt_of_mem hitem
    rw [Json.arr.sizeOf_spec]
    omega
  · exact hsize

namespace Alike

/-- A member is found in every value alike. -/
lemma field (h : (Json.obj members).Alike j) (key : String) (hv : members.lookup key = some v) :
    ∃ w hsize, j.field key = .ok ⟨w, hsize⟩ ∧ v.Alike w := by
  cases h with
  | @obj _ members' h =>
    have hkey := h key
    rw [hv] at hkey
    cases hw : members'.lookup key with
    | none =>
      rw [hw] at hkey
      cases hkey
    | some w =>
      rw [hw] at hkey
      obtain ⟨hsize, hfield⟩ := field_of_lookup hw
      cases hkey with
      | some halike => exact ⟨w, hsize, hfield, halike⟩

/-- A member is read as what it says, if every value alike to it is. -/
lemma read {α : Type} {a : α} {decode : Json → Except DecodeError α}
    (h : (Json.obj members).Alike j) (key : String) (hv : members.lookup key = some v)
    (hread : ∀ {w : Json}, v.Alike w → decode w = .ok a) :
    ∃ w hsize, j.field key = .ok ⟨w, hsize⟩ ∧ decode w = .ok a := by
  obtain ⟨w, hsize, hfield, halike⟩ := h.field key hv
  exact ⟨w, hsize, hfield, hread halike⟩

/-- A text is found as it is. -/
lemma text (h : (Json.obj members).Alike j) (key : String) {s : String}
    (hs : members.lookup key = some (.str s)) : ∃ hsize, j.field key = .ok ⟨.str s, hsize⟩ := by
  obtain ⟨w, hsize, hfield, halike⟩ := h.field key hs
  cases halike
  exact ⟨hsize, hfield⟩

/-- Entries are read one by one. -/
lemma mapM {α β : Type} {encode : β → Json} {decode : Json → Except DecodeError α} {f : β → α}
    {bs : List β} {items : List Json} (h : List.Forall₂ Alike (bs.map encode) items)
    (hread : ∀ b ∈ bs, ∀ w, (encode b).Alike w → decode w = .ok (f b)) :
    items.mapM decode = .ok (bs.map f) := by
  induction bs generalizing items with
  | nil =>
    cases h
    rfl
  | cons b bs ih =>
    obtain ⟨hfirst, hrest⟩ := List.forall_mem_cons.1 hread
    cases h with
    | cons hb hbs =>
      rw [List.mapM_cons, hfirst _ hb, ih hbs hrest]
      rfl

/-- A list member is read, if its entries are. -/
lemma listField {α : Type} {encode : α → Json} {decode : Json → Except DecodeError α} {as : List α}
    (h : (Json.obj members).Alike j) (key : String)
    (has : members.lookup key = some (.arr (as.map encode)))
    (hread : ∀ a ∈ as, ∀ w, (encode a).Alike w → decode w = .ok a) :
    j.listField key decode = .ok as := by
  obtain ⟨w, hsize, hfield, halike⟩ := h.field key has
  cases halike with
  | arr hitems =>
    have hmapM := mapM (f := id) hitems hread
    rw [Json.listField, hfield]
    rwa [List.map_id] at hmapM

end Alike

end Json

/-! ### Names -/

namespace Name

mutual

theorem ofJson_of_alike : ∀ {x : Name} {j : Json}, x.toJson.Alike j → ofJson j = .ok x
  | atom a, j, h => by
    rw [toJson] at h
    cases a <;> cases h <;> rfl
  | tuple parts, j, h => by
    rw [toJson] at h
    cases h with
    | arr h =>
      rw [ofJson, ofJsonAll_of_alike h]
      rfl

theorem ofJsonAll_of_alike :
    ∀ {xs : List Name} {items : List Json}, List.Forall₂ Json.Alike (toJsonAll xs) items →
    ofJsonAll items = .ok xs
  | [], items, h => by
    rw [toJsonAll] at h
    cases h
    rfl
  | x :: xs, items, h => by
    rw [toJsonAll] at h
    cases h with
    | cons hx hxs =>
      rw [ofJsonAll, ofJson_of_alike hx, ofJsonAll_of_alike hxs]
      rfl

end

end Name

lemma Json.Alike.nameField {members : List (String × Json)} {j : Json}
    (h : (Json.obj members).Alike j) (key : String) {x : Name}
    (hx : members.lookup key = some x.toJson) : j.nameField key = .ok x := by
  obtain ⟨w, hsize, hfield, hw⟩ := h.read key hx Name.ofJson_of_alike
  rw [Json.nameField, hfield]
  exact hw

/-! ### Terms and goals -/

/-- **A term is read back**, whatever its names are. -/
theorem Term.ofJson_of_alike {t : Term} {j : Json} (h : t.toJson.Alike j) : ofJson j = .ok t := by
  -- The tag selects the branch of the reader, which finds the parts under their keys.
  induction t generalizing j with
  | var x | const x =>
    obtain ⟨_, htag⟩ := h.text "type" rfl
    rw [ofJson, htag]
    simp [h.nameField "name" rfl, pure, Except.pure]
  | sort | unit | tt =>
    obtain ⟨_, htag⟩ := h.text "type" rfl
    rw [ofJson, htag]
    simp [pure, Except.pure]
  | lam x ty body hty hbody | pi x ty body hty hbody =>
    obtain ⟨_, htag⟩ := h.text "type" rfl
    obtain ⟨ty', _, hty', hty⟩ := h.read "ty" rfl hty
    obtain ⟨body', _, hbody', hbody⟩ := h.read "body" rfl hbody
    rw [ofJson, htag]
    simp [h.nameField "name" rfl, hty', hty, hbody', hbody, pure, Except.pure]
  | app fn arg hfn harg =>
    obtain ⟨_, htag⟩ := h.text "type" rfl
    obtain ⟨fn', _, hfn', hfn⟩ := h.read "fn" rfl hfn
    obtain ⟨arg', _, harg', harg⟩ := h.read "arg" rfl harg
    rw [ofJson, htag]
    simp [hfn', hfn, harg', harg, pure, Except.pure]
  | prod a b ha hb | pair a b ha hb =>
    obtain ⟨_, htag⟩ := h.text "type" rfl
    obtain ⟨a', _, ha', ha⟩ := h.read "fst" rfl ha
    obtain ⟨b', _, hb', hb⟩ := h.read "snd" rfl hb
    rw [ofJson, htag]
    simp [ha', ha, hb', hb, pure, Except.pure]
  | eq ty lhs rhs hty hlhs hrhs =>
    obtain ⟨_, htag⟩ := h.text "type" rfl
    obtain ⟨ty', _, hty', hty⟩ := h.read "ty" rfl hty
    obtain ⟨lhs', _, hlhs', hlhs⟩ := h.read "lhs" rfl hlhs
    obtain ⟨rhs', _, hrhs', hrhs⟩ := h.read "rhs" rfl hrhs
    rw [ofJson, htag]
    simp [hty', hty, hlhs', hlhs, hrhs', hrhs, pure, Except.pure]
  | refl ty value hty hvalue =>
    obtain ⟨_, htag⟩ := h.text "type" rfl
    obtain ⟨ty', _, hty', hty⟩ := h.read "ty" rfl hty
    obtain ⟨value', _, hvalue', hvalue⟩ := h.read "value" rfl hvalue
    rw [ofJson, htag]
    simp [hty', hty, hvalue', hvalue, pure, Except.pure]
  | transport head src dst proof value hhead hsrc hdst hproof hvalue =>
    obtain ⟨_, htag⟩ := h.text "type" rfl
    obtain ⟨head', _, hhead', hhead⟩ := h.read "head" rfl hhead
    obtain ⟨src', _, hsrc', hsrc⟩ := h.read "src" rfl hsrc
    obtain ⟨dst', _, hdst', hdst⟩ := h.read "dst" rfl hdst
    obtain ⟨proof', _, hproof', hproof⟩ := h.read "proof" rfl hproof
    obtain ⟨value', _, hvalue', hvalue⟩ := h.read "value" rfl hvalue
    rw [ofJson, htag]
    simp [hhead', hhead, hsrc', hsrc, hdst', hdst, hproof', hproof, hvalue',
      hvalue, pure, Except.pure]

lemma Binding.ofJson_of_alike {b : Binding} {j : Json} (h : b.toJson.Alike j) :
    ofJson j = .ok b := by
  obtain ⟨ty', _, hty', hty⟩ := h.read "ty" rfl Term.ofJson_of_alike
  rw [ofJson, h.nameField "name" rfl]
  simp [hty', hty, pure, Except.pure]

lemma Goal.ofJson_of_alike {g : Goal} {j : Json} (h : g.toJson.Alike j) : ofJson j = .ok g := by
  have hhyps := h.listField "hyps" rfl fun b _ _ => Binding.ofJson_of_alike
  obtain ⟨target', _, htarget', htarget⟩ := h.read "target" rfl Term.ofJson_of_alike
  rw [ofJson, hhyps]
  simp [htarget', htarget, pure, Except.pure]

end UniqueEvidence
