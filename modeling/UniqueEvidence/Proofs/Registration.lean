/-
What a registry finds, after any calls that register deciders.

* `Registry.afterCall`, `Registry.afterCalls`: the registry after one call, refused or not, and
  after several; `Registry.fact?_afterCalls`: **the first call for a type counts**;
* `Registry.Covers`: the registered types and their products; `Registry.Accepts`: what their
  deciders say of two values, down to the first registered types;
* `Registry.lookupAnew?`: the lookup that normalises every component again.
  `Registry.lookupAnew?_of_normalize`: it ends, and finds the same;
* `Registry.found_iff_covers`: **a decider is found exactly for the products of registered types,
  and answers componentwise**;
* `Term.binders`, `Registry.respectsConversion_iff`: **convertible types have the same decider
  exactly if no registered type binds a name**.
-/
import UniqueEvidence.Encoding.Registry
import UniqueEvidence.Proofs.Monotonicity
import UniqueEvidence.Proofs.Normalisation
import UniqueEvidence.Proofs.Renaming

namespace UniqueEvidence

variable {r : Registry} {depth : Nat} {key : Term} {d : Decider}

namespace Registry

/-! ### Calls -/

/-- The registry after a call that registers a decider for a type.  A call that fails leaves it as
it is. -/
def afterCall (depth : Nat) (r : Registry) (call : Term × Decider) : Registry :=
  ((call.1.normalize depth).bind fun key => r.register? key call.2).getD r

/-- The registry after the given calls. -/
def afterCalls (depth : Nat) (calls : List (Term × Decider)) : Registry :=
  calls.foldl (afterCall depth) default

/-- The addition of a fact is such a call. -/
lemma add_fact (r : Registry) (ty : Term) (d : Decider) :
    ((r.add (.fact ty d)).toOption.map Prod.fst).getD r =
      r.afterCall Term.defaultDepth (ty, d) := by
  rw [add, afterCall]
  cases ty.normalize Term.defaultDepth with
  | none => rfl
  | some key => cases h : r.register? key d <;> simp [h, Except.toOption]

/-- **What a call does**: nothing, if it fails, or it adds a fact for a type that has none. -/
lemma afterCall_cases (depth : Nat) (r : Registry) (call : Term × Decider) :
    r.afterCall depth call = r ∧ (∀ key, call.1.normalize depth = some key → (r.fact? key).isSome) ∨
      ∃ key, call.1.normalize depth = some key ∧ r.fact? key = none ∧
        r.afterCall depth call = { r with facts := r.facts ++ [(key, call.2)] } := by
  rw [afterCall]
  cases hkey : call.1.normalize depth with
  | none => exact .inl ⟨rfl, nofun⟩
  | some key =>
    rw [Option.bind_some, register?]
    split
    · rename_i hfact
      exact .inl ⟨rfl, fun key' hkey' => Option.some.inj hkey' ▸ hfact⟩
    · rename_i hfact
      exact .inr ⟨key, rfl, Option.not_isSome_iff_eq_none.1 hfact, rfl⟩

/-- What the default registry has and every call keeps, the registry has after all calls. -/
lemma afterCalls_induction {P : Registry → Prop} (hdefault : P default)
    (hcall : ∀ r call, P r → P (r.afterCall depth call)) (calls : List (Term × Decider)) :
    P (afterCalls depth calls) := by
  rw [afterCalls]
  generalize default = r at hdefault
  induction calls generalizing r with
  | nil => exact hdefault
  | cons call calls ih => exact ih _ (hcall r call hdefault)

/-- A call counts for the type that it is for, if this has no decider yet. -/
lemma fact?_afterCall (r : Registry) (call : Term × Decider) (key : Term) :
    (r.afterCall depth call).fact? key =
      (r.fact? key).or (if call.1.normalize depth = some key then some call.2 else none) := by
  rcases afterCall_cases depth r call with ⟨hsame, hfact⟩ | ⟨key', hkey', -, hadded⟩
  · rw [hsame]
    split
    · rename_i hkey
      obtain ⟨d, hd⟩ := Option.isSome_iff_exists.1 (hfact key hkey)
      rw [hd, Option.some_or]
    · rw [Option.or_none]
  · rw [hadded, fact?_append, hkey']
    simp only [Option.some.injEq]

/-- **The first call for a type counts**, unless the registry has a decider for it from the
start. -/
theorem fact?_afterCalls (depth : Nat) (calls : List (Term × Decider)) (key : Term) :
    (afterCalls depth calls).fact? key =
      (default.fact? key).or (calls.findSome? fun call => if call.1.normalize depth = some key then
        some call.2 else none) := by
  rw [afterCalls]
  generalize default = r
  induction calls generalizing r with
  | nil => rw [List.foldl_nil, List.findSome?_nil, Option.or_none]
  | cons call calls ih =>
    rw [List.foldl_cons, ih, fact?_afterCall, Option.or_assoc, List.findSome?_cons]
    split <;> rfl

lemma rules_afterCalls (depth : Nat) (calls : List (Term × Decider)) :
    (afterCalls depth calls).rules = [.pairs] := by
  refine afterCalls_induction (P := fun r => r.rules = [.pairs]) rfl (fun r call hr => ?_) calls
  rcases afterCall_cases depth r call with ⟨hsame, -⟩ | ⟨key, -, -, hadded⟩
  · rw [hsame, hr]
  · rw [hadded, hr]

/-- Types are registered in normal form. -/
lemma isNormal_of_mem_afterCalls {calls : List (Term × Decider)} :
    ∀ p ∈ (afterCalls depth calls).facts, p.1.nameless.IsNormal := by
  refine afterCalls_induction (P := fun r => ∀ p ∈ r.facts, p.1.nameless.IsNormal) ?_
    (fun r call hr => ?_) calls
  · intro p hp
    obtain rfl := List.mem_singleton.1 hp
    trivial
  · rcases afterCall_cases depth r call with ⟨hsame, -⟩ | ⟨key, hkey, -, hadded⟩
    · rwa [hsame]
    · rw [hadded]
      intro p hp
      rcases List.mem_append.1 hp with hp | hp
      · exact hr p hp
      · obtain rfl := List.mem_singleton.1 hp
        exact (Term.normalize_spec hkey).2

/-! ### Products of registered types -/

/-- The registered types, and all products of them. -/
inductive Covers (r : Registry) : Term → Prop
  | fact {key : Term} {d : Decider} : r.fact? key = some d → Covers r key
  | prod {a b : Term} : Covers r a → Covers r b → Covers r (.prod a b)

/-- The values are told to be equal: by the decider of a registered type, and otherwise by those of
the components of a product, if both values are pairs. -/
inductive Accepts (r : Registry) : Term → Term → Term → Prop
  | fact {key a b : Term} {d : Decider} : r.fact? key = some d →
    d.decides a b = true → Accepts r key a b
  | prod {s t a₁ a₂ b₁ b₂ : Term} : r.fact? (.prod s t) = none →
      Accepts r s a₁ b₁ → Accepts r t a₂ b₂ → Accepts r (.prod s t) (.pair a₁ a₂) (.pair b₁ b₂)

lemma not_byType_mem (hrules : r.rules = [.pairs]) {decider? : Term → Option Decider} :
    .byType decider? ∉ r.rules := by
  simp [hrules]

/-- A decider is found exactly for the products of registered types. -/
lemma isSome_find?_iff (hrules : r.rules = [.pairs]) : (r.find? key).isSome ↔ r.Covers key := by
  constructor
  · intro h
    obtain ⟨d, hd⟩ := Option.isSome_iff_exists.1 h
    refine find?_induction (P := fun key _ => r.Covers key) .fact
      (fun hrule => ?_) (fun _ => .prod) hd
    exact absurd hrule (not_byType_mem hrules)
  · intro h
    induction h with
    | fact hfact => exact Option.isSome_iff_exists.2 ⟨_, find?_of_fact? hfact⟩
    | prod _ _ iha ihb => exact isSome_find?_prod (by simp [hrules]) iha ihb

/-- The decider of a registered type has the last word. -/
lemma accepts_iff_of_fact? (hfact : r.fact? key = some d) {a b : Term} :
    r.Accepts key a b ↔ d.decides a b = true := by
  refine ⟨fun h => ?_, .fact hfact⟩
  cases h with
  | fact hfact' h =>
    obtain rfl := Option.some.inj (hfact.symm.trans hfact')
    exact h
  | prod hnone _ _ => cases hfact.symm.trans hnone

/-- The values of another product are compared componentwise. -/
lemma accepts_prod_iff {s t : Term} (hnone : r.fact? (.prod s t) = none) {a b : Term} :
    r.Accepts (.prod s t) a b ↔
    ∃ a₁ a₂ b₁ b₂, a = .pair a₁ a₂ ∧ b = .pair b₁ b₂ ∧ r.Accepts s a₁ b₁ ∧ r.Accepts t a₂ b₂ := by
  constructor
  · intro h
    cases h with
    | fact hfact _ => cases hnone.symm.trans hfact
    | prod _ h₁ h₂ => exact ⟨_, _, _, _, rfl, rfl, h₁, h₂⟩
  · rintro ⟨a₁, a₂, b₁, b₂, rfl, rfl, h₁, h₂⟩
    exact .prod hnone h₁ h₂

/-- The decider found compares down to the first registered types. -/
lemma decides_iff_accepts (hrules : r.rules = [.pairs]) (hd : r.find? key = some d) :
    ∀ a b : Term, d.decides a b = true ↔ r.Accepts key a b := by
  refine find?_induction (P := fun key d => ∀ a b, d.decides a b = true ↔
    r.Accepts key a b) ?_ ?_ ?_ hd
  · exact fun hfact a b => (accepts_iff_of_fact? hfact).symm
  · exact fun hrule => absurd hrule (not_byType_mem hrules)
  · intro s t left right hnone hleft hright a b
    simp only [Decider.both_decides, accepts_prod_iff hnone, hleft, hright]

end Registry

/-! ### Normalising the components again -/

/-- What the rule finds for a type in normal form, if it looks up the components of a product. -/
def DeciderRule.derive? (lookup : Term → Option (Option Decider)) (key : Term) :
    DeciderRule → Option (Option Decider)
  | .pairs =>
    match key with
    | .prod a b => do
      let left ← lookup a
      let right ← lookup b
      return do return .both (← left) (← right)
    | _ => some none
  | .byType decider? => some (decider? key)

namespace Registry

/-- The lookup in which rules look up anew, so that each component of a product is normalised again.
Fails if the number of nested lookups, which also bounds the depth of normalisation, is too
small. -/
def lookupAnew? (r : Registry) : Nat → Term → Option (Option Decider)
  | 0, _ => none
  | n + 1, ty => do
    let key ← ty.normalize (n + 1)
    match r.fact? key with
    | some d => return some d
    | none => r.rules.findSomeM? fun rule => rule.derive? (r.lookupAnew? n) key

/-- The first answer, where every question is answered. -/
lemma findSomeM?_eq_some {α β : Type} {f : α → Option (Option β)} {g : α → Option β} {l : List α}
    (h : ∀ x ∈ l, f x = some (g x)) : l.findSomeM? f = some (l.findSome? g) := by
  induction l with
  | nil => rfl
  | cons x l ih =>
    rw [List.findSomeM?, h x List.mem_cons_self, List.findSome?_cons,
      Option.bind_eq_bind, Option.bind_some]
    cases g x with
    | some b => rfl
    | none => exact ih fun y hy => h y (List.mem_cons_of_mem x hy)

/-- To normalise the components of a normal form again changes nothing. -/
lemma lookupAnew?_of_isNormal {n : Nat} (hkey : key.nameless.IsNormal) (hn : key.size ≤ n) :
    r.lookupAnew? n key = some (r.find? key) := by
  induction n generalizing key with
  | zero => exact absurd hn (Nat.not_le.2 key.size_pos)
  | succ n ih =>
    rw [lookupAnew?, Term.normalize_of_isNormal hkey hn, find?.eq_def,
      Option.bind_eq_bind, Option.bind_some]
    cases r.fact? key with
    | some d => rfl
    | none =>
      refine findSomeM?_eq_some fun rule _ => ?_
      cases rule with
      | byType decider? => rfl
      | pairs =>
        cases key with
        | prod a b =>
          obtain ⟨ha, hb⟩ := hkey
          have hsizes : a.size ≤ n ∧ b.size ≤ n := by
            rw [Term.size] at hn
            omega
          simp [DeciderRule.derive?, ih ha hsizes.1, ih hb hsizes.2]
        | _ => rfl

/-- **The lookup that normalises components again ends**, and finds the same. -/
lemma lookupAnew?_of_normalize {ty : Term} (hkey : ty.normalize depth = some key) :
    ∃ n, ∀ m, n ≤ m → r.lookupAnew? m ty = some (r.find? key) := by
  refine ⟨max depth key.size + 1, fun m hm => ?_⟩
  obtain ⟨m, rfl⟩ : ∃ m', m = m' + 1 := ⟨m - 1, by omega⟩
  have hnormal := (Term.normalize_spec hkey).2
  rw [← lookupAnew?_of_isNormal (n := m + 1) hnormal (by omega), lookupAnew?, lookupAnew?,
    Term.normalize_mono (by omega) hkey, Term.normalize_of_isNormal hnormal (by omega)]

/-- **A decider is found exactly for the products of registered types**, after any calls, and says
of two values what the deciders of the registered types say of their components.  A call is what
adds a fact; the first one for a type counts. -/
theorem found_iff_covers (reach : Nat) (calls : List (Term × Decider)) {depth : Nat} {ty key : Term}
    (hkey : ty.normalize depth = some key) : (∀ (r : Registry) (ty : Term) (d : Decider),
      ((r.add (.fact ty d)).toOption.map Prod.fst).getD r = r.afterCall Term.defaultDepth (ty, d)) ∧
    (∀ key', (afterCalls reach calls).fact? key' = (default.fact? key').or
      (calls.findSome? fun call => if call.1.normalize reach = some key' then
        some call.2 else none)) ∧
    ∃ found, (∀ m, depth ≤ m → (afterCalls reach calls).lookup? m ty = some found) ∧
      (∃ n, ∀ m, n ≤ m → (afterCalls reach calls).lookupAnew? m ty = some found) ∧
      (found.isSome ↔ (afterCalls reach calls).Covers key) ∧
      ∀ d, found = some d → ∀ a b, d.decides a b = true ↔
        (afterCalls reach calls).Accepts key a b := by
  have hrules := rules_afterCalls reach calls
  refine ⟨add_fact, fact?_afterCalls reach calls, (afterCalls reach calls).find? key,
    fun m hm => ?_,
    lookupAnew?_of_normalize hkey, isSome_find?_iff hrules, fun d hd =>
    decides_iff_accepts hrules hd⟩
  rw [lookup?, Term.normalize_mono hm hkey, Option.map_some]

end Registry

namespace Sample

/-- Trees are compared, pairs of units are compared literally, and a second decider for trees is
refused. -/
def registrations : List (Term × Decider) :=
  [(.const "shape", .structural "shape"), (.prod .unit .unit, .structural "units"),
    (.app (.lam "x" .unit (.const "shape")) .tt, .always "any")]

end Sample

namespace Registry

/-- The fact for pairs of units comes before the rule, which would not compare units, and the
refused decider does not count. -/
theorem found_iff_covers_sample :
    (Term.app (.lam "x" .sort (.prod (.var "x") (.const "shape")))
      (.prod .unit .unit)).normalize 9 =
      some (.prod (.prod .unit .unit) (.const "shape")) ∧
    ∃ d, (afterCalls 9 Sample.registrations).lookup? 9
        (.app (.lam "x" .sort (.prod (.var "x") (.const "shape"))) (.prod .unit .unit)) =
          some (some d) ∧
      d.decides (.pair (.pair .tt .tt) (.const "leaf"))
        (.pair (.pair .tt .tt) (.const "leaf")) = true ∧
      d.decides (.pair (.pair (.var "u") .tt) (.const "leaf"))
        (.pair (.pair .tt .tt) (.const "leaf")) = false ∧
      d.decides (.pair (.pair .tt .tt) (.const "leaf"))
        (.pair (.pair .tt .tt) (.var "t")) = false := by
  have hkey :
      (Term.app (.lam "x" .sort (.prod (.var "x") (.const "shape")))
      (.prod .unit .unit)).normalize 9 =
      some (.prod (.prod .unit .unit) (.const "shape")) := by decide +kernel
  obtain ⟨-, hfacts, found, hlookup, -, hsome, hdecides⟩ :=
    found_iff_covers 9 Sample.registrations hkey
  have hunits : (afterCalls 9 Sample.registrations).fact? (.prod .unit .unit) =
      some (.structural "units") := by
    rw [hfacts]
    rfl
  have hshape : (afterCalls 9 Sample.registrations).fact? (.const "shape") =
      some (.structural "shape") := by
    rw [hfacts]
    rfl
  have hpairs : (afterCalls 9 Sample.registrations).fact?
      (.prod (.prod .unit .unit) (.const "shape")) = none := by
    rw [hfacts]
    decide +kernel
  obtain ⟨d, rfl⟩ := Option.isSome_iff_exists.1 (hsome.2 (.prod (.fact hunits) (.fact hshape)))
  have hvalues : ∀ a₁ a₂ b₁ b₂ : Term, d.decides (.pair a₁ a₂) (.pair b₁ b₂) = true ↔
      a₁.alphaEq b₁ = true ∧ a₂.alphaEq b₂ = true := by
    intro a₁ a₂ b₁ b₂
    rw [hdecides d rfl, accepts_prod_iff hpairs]
    simp [accepts_iff_of_fact? hunits, accepts_iff_of_fact? hshape, Decider.structural]
  refine ⟨hkey, d, hlookup 9 (Nat.le_refl 9), (hvalues ..).2 (by decide), ?_, ?_⟩
  · exact Bool.eq_false_iff.2 (mt (hvalues ..).1 (by decide))
  · exact Bool.eq_false_iff.2 (mt (hvalues ..).1 (by decide))

end Registry

/-! ### Names of binders -/

namespace Term

/-- The names that are bound in the term. -/
def binders : Term → List Name
  | var _ | const _ | sort | unit | tt => []
  | app a b | prod a b | pair a b | refl a b => a.binders ++ b.binders
  | lam x ty body | pi x ty body => x :: (ty.binders ++ body.binders)
  | eq ty lhs rhs => ty.binders ++ lhs.binders ++ rhs.binders
  | transport head src dst proof value =>
    head.binders ++ src.binders ++ dst.binders ++ proof.binders ++ value.binders

/-- A term without binders has one spelling. -/
lemma eq_of_binders_eq_nil {t u : Term} (ht : t.binders = []) (h : u.nameless = t.nameless) :
    u = t := by
  induction t generalizing u with
  | lam | pi => simp [binders] at ht
  | _ =>
    simp only [binders, List.append_eq_nil_iff] at ht
    cases u <;> simp only [nameless, reduceCtorEq] at h
    all_goals grind

/-- The term in which all outermost binders bind the given name. -/
def respell (z : Name) : Term → Term
  | lam x ty body => lam z ty (body.subst x (var z))
  | pi x ty body => pi z ty (body.subst x (var z))
  | app a b => app (a.respell z) (b.respell z)
  | prod a b => prod (a.respell z) (b.respell z)
  | pair a b => pair (a.respell z) (b.respell z)
  | refl ty value => refl (ty.respell z) (value.respell z)
  | eq ty lhs rhs => eq (ty.respell z) (lhs.respell z) (rhs.respell z)
  | transport head src dst proof value =>
    transport (head.respell z) (src.respell z) (dst.respell z) (proof.respell z) (value.respell z)
  | t => t

/-- It is another spelling of the term, if the name is new. -/
lemma nameless_respell {t : Term} {z : Name} (hfree : z ∉ t.freeVars) (hbound : z ∉ t.binders) :
    (t.respell z).nameless = t.nameless := by
  induction t with
  | lam x ty body | pi x ty body =>
    simp only [freeVars, binders, List.mem_append, List.mem_cons, List.mem_filter,
      not_or] at hfree hbound
    have hz : z ∉ body.freeVars := fun h => hfree.2 ⟨h, by simpa using hbound.1⟩
    rw [respell, nameless, nameless, nameless_subst, nameless,
      capture_renamed (mt occurs_nameless.1 hz)]
  | _ => simp_all [respell, nameless, freeVars, binders]

lemma mem_binders_respell {t : Term} {z : Name} (ht : t.binders ≠ []) :
    z ∈ (t.respell z).binders := by
  induction t <;> grind [respell, binders]

end Term

namespace Registry

/-- A type with a decider binds only names that registered types bind. -/
lemma Covers.exists_mem_binders (h : r.Covers key) {z : Name} (hz : z ∈ key.binders) :
    ∃ p ∈ r.facts, z ∈ p.1.binders := by
  induction h with
  | fact hfact => exact ⟨_, mem_of_fact? hfact, hz⟩
  | prod _ _ iha ihb =>
    rw [Term.binders, List.mem_append] at hz
    exact hz.elim iha ihb

/-- A registered type that binds a name has a spelling for which no decider is found. -/
lemma exists_spelling_of_binders (hrules : r.rules = [.pairs]) {p : Term × Decider}
    (hp : p ∈ r.facts) (hbinders : p.1.binders ≠ []) :
    ∃ key, key.nameless = p.1.nameless ∧ r.find? key = none := by
  -- with a name that no registered type binds
  have hnew := fresh_not_mem "x" (p.1.freeVars ++ r.facts.flatMap fun q => q.1.binders)
  generalize fresh "x" (p.1.freeVars ++ r.facts.flatMap fun q => q.1.binders) = z at hnew
  rw [List.mem_append, not_or] at hnew
  have hbound : ∀ q ∈ r.facts, z ∉ q.1.binders :=
    fun q hq hz => hnew.2 (List.mem_flatMap.2 ⟨q, hq, hz⟩)
  refine ⟨p.1.respell z, Term.nameless_respell hnew.1 (hbound p hp), ?_⟩
  rw [← Option.not_isSome_iff_eq_none, isSome_find?_iff hrules]
  intro hcovers
  obtain ⟨q, hq, hz⟩ := hcovers.exists_mem_binders (Term.mem_binders_respell hbinders)
  exact hbound q hq hz

/-- Convertible types are treated alike: the same decider is found for both, and none can be
registered for the one if the other has one. -/
structure RespectsConversion (r : Registry) : Prop where
  lookup : ∀ {depth : Nat} {a b : Term}, Term.convertible depth a b = some true →
    r.lookup? depth a = r.lookup? depth b
  register : ∀ {depth : Nat} {a b a' b' : Term}, Term.convertible depth a b = some true →
    a.normalize depth = some a' →
    b.normalize depth = some b' → (r.fact? a').isSome → ∀ d, r.register? b' d = none

/-- All spellings of a type have the same facts, if no registered type binds a name. -/
lemma fact?_of_nameless (hfacts : ∀ p ∈ r.facts, p.1.binders = []) {key key' : Term}
    (h : key'.nameless = key.nameless) : r.fact? key' = r.fact? key := by
  refine fact?_congr fun p hp => ⟨?_, ?_⟩
  · rintro rfl
    exact (Term.eq_of_binders_eq_nil (hfacts p hp) h.symm).symm
  · rintro rfl
    exact (Term.eq_of_binders_eq_nil (hfacts p hp) h).symm

lemma respectsConversion_of_binders (hrules : r.rules = [.pairs])
    (hfacts : ∀ p ∈ r.facts, p.1.binders = []) : r.RespectsConversion where
  lookup hconv := by
    obtain ⟨a', b', ha, hb, hsame⟩ := Term.convertible_eq_true_iff.1 hconv
    have hfind : r.find? b' = r.find? a' := find?_of_alike_facts (by simp [hrules])
      (fun halike => fact?_of_nameless hfacts (Term.alike_refl_iff.1 halike))
        (Term.alike_refl_iff.2 hsame.symm)
    rw [lookup?, lookup?, ha, hb, Option.map_some, Option.map_some, hfind]
  register hconv ha hb hfact d := by
    obtain ⟨a', b', ha', hb', hsame⟩ := Term.convertible_eq_true_iff.1 hconv
    obtain rfl := Option.some.inj (ha.symm.trans ha')
    obtain rfl := Option.some.inj (hb.symm.trans hb')
    rw [register?, if_pos (by rwa [fact?_of_nameless hfacts hsame.symm])]

/-- **Convertible types have the same decider exactly if no registered type binds a name**, after
any calls. -/
theorem respectsConversion_iff (reach : Nat) (calls : List (Term × Decider)) :
    (afterCalls reach calls).RespectsConversion ↔
      ∀ p ∈ (afterCalls reach calls).facts, p.1.binders = [] := by
  refine ⟨fun hr p hp => ?_, respectsConversion_of_binders (rules_afterCalls reach calls)⟩
  by_contra hbinders
  obtain ⟨key, hsame, hnone⟩ :=
    exists_spelling_of_binders (rules_afterCalls reach calls) hp hbinders
  have hnormal : p.1.nameless.IsNormal := isNormal_of_mem_afterCalls p hp
  have hleft := Term.normalize_of_isNormal hnormal (Nat.le_max_left p.1.size key.size)
  have hright := Term.normalize_of_isNormal (hsame ▸ hnormal) (Nat.le_max_right p.1.size key.size)
  have hlookup := hr.lookup (Term.convertible_eq_true_iff.2 ⟨_, _, hleft, hright, hsame.symm⟩)
  rw [lookup?, lookup?, hleft, hright, Option.map_some, Option.map_some, hnone,
    Option.some.injEq] at hlookup
  obtain ⟨d, hd⟩ := Option.isSome_iff_exists.1 (isSome_fact?_of_mem hp)
  cases hlookup.symm.trans (find?_of_fact? hd)

/-- The decider of a type of functions is not found under another name of its binder. -/
example :
    ((afterCalls 5 [(.pi "x" .unit .unit, .structural "f")]).lookup? 5 (.pi "y" .unit .unit)).map
      Option.isSome =
    some false := by
  decide

end Registry

end UniqueEvidence
