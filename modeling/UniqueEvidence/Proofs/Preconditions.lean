/-
What a rule that succeeds has checked, and the subgoals it leaves.

* `Kernel.equation_eq_ok`, `Kernel.freshFor_eq_ok`, `Kernel.unused_eq_ok`: the checks that several
  rules make;
* `Kernel.change_eq_ok`, `Kernel.intro_eq_ok`, `Kernel.eliminate_eq_ok`, …: one statement for each
  rule, from which the later proofs about the rules start;
* `Kernel.apply_eq_ok`: which calls return at all.
-/
import UniqueEvidence.Kernel.Apply
import UniqueEvidence.Proofs.Outcome

namespace UniqueEvidence

lemma Equation.ofTerm?_eq_some {t : Term} {e : Equation} (h : Equation.ofTerm? t = some e) :
    t = e.toTerm := by
  cases t <;> simp_all [Equation.ofTerm?, Equation.toTerm]
  simp [← h]

namespace Kernel

variable {k : Kernel} {goal : Goal} {x y : Name} {gs : List Goal}

/-! ### Preconditions -/

lemma equation_eq_ok {e : Equation} (h : k.equation goal x = .ok e) :
    ∃ ty, goal.lookup? x = some ty ∧ k.normalize ty = .ok e.toTerm := by
  rw [equation] at h
  split at h
  · cases h
  · rename_i ty hty
    obtain ⟨t, ht, h⟩ := Except.bind_eq_ok.1 h
    split at h
    · rename_i e' he'
      obtain rfl : e' = e := by simpa [pure, Except.pure] using h
      exact ⟨ty, hty, Equation.ofTerm?_eq_some he' ▸ ht⟩
    · cases h

lemma targetEquation_eq_ok {e : Equation} (h : k.targetEquation goal = .ok e) :
    k.normalize goal.target = .ok e.toTerm := by
  rw [targetEquation, Except.bind_eq_ok] at h
  obtain ⟨t, ht, h⟩ := h
  split at h
  · rename_i e' he'
    obtain rfl : e' = e := by simpa [pure, Except.pure] using h
    exact Equation.ofTerm?_eq_some he' ▸ ht
  · cases h

lemma freshFor_eq_ok {names : List Name} {count : Nat} {shown : Argument} {u : Unit}
    (h : freshFor goal names count shown = .ok u) :
    names.length = count ∧ names.Nodup ∧ ∀ x ∈ names, x ∉ goal.names := by
  rw [freshFor] at h
  split at h
  · rename_i hnames
    split at h
    · cases h
    · rename_i hfind
      exact ⟨hnames.1, hnames.2, by simpa using hfind⟩
  · cases h

lemma unusedInHyps_eq_ok {u : Unit} (h : unusedInHyps goal x = .ok u) :
    ∀ b ∈ goal.hyps, b.name ≠ x → x ∉ b.ty.freeVars := by
  rw [unusedInHyps] at h
  split at h
  · cases h
  · rename_i hfind
    intro b hb hbx
    have hb' := List.find?_eq_none.1 hfind b hb
    simpa [Term.occurs, hbx] using hb'

lemma unused_eq_ok {u : Unit} (h : unused goal x = .ok u) :
    x ∉ goal.target.freeVars ∧ ∀ b ∈ goal.hyps, b.name ≠ x → x ∉ b.ty.freeVars := by
  rw [unused] at h
  split at h
  · cases h
  · rename_i hocc
    exact ⟨by simpa [Term.occurs] using hocc, unusedInHyps_eq_ok h⟩

/-! ### Changing the target -/

lemma change_eq_ok {t : Term} (h : k.change goal t = .ok gs) :
    k.expectType goal.context t = .ok () ∧ k.convertible goal.target t = .ok true ∧
      gs = [goal.withTarget t] := by
  simp only [change, Except.bind_eq_ok] at h
  obtain ⟨⟨⟩, hty, answer, hconv, h⟩ := h
  cases answer with
  | false => cases h
  | true => exact ⟨hty, hconv, by simpa [pure, Except.pure] using h.symm⟩

lemma symmetry_eq_ok (h : k.symmetry goal = .ok gs) :
    ∃ e, k.targetEquation goal = .ok e ∧ gs = [goal.withTarget e.swap.toTerm] := by
  simp only [symmetry, Except.bind_eq_ok] at h
  obtain ⟨e, he, h⟩ := h
  exact ⟨e, he, by simpa [pure, Except.pure] using h.symm⟩

lemma generalize_eq_ok {t w : Term} (h : k.generalize goal t w = .ok gs) :
    ∃ z dom cod, k.expectType goal.context t = .ok () ∧ k.normalize t = .ok (.pi z dom cod) ∧
      k.check goal.context w dom = .ok () ∧ k.convertible (cod.subst z w) goal.target = .ok true ∧
      gs = [goal.withTarget t] := by
  simp only [generalize, quantified, Except.bind_eq_ok] at h
  obtain ⟨⟨b, cod⟩, ⟨⟨⟩, hty, t', ht, hpi⟩, ⟨⟩, hw, answer, hconv, h⟩ := h
  split at hpi
  · rename_i z dom cod'
    obtain ⟨rfl, rfl⟩ : Binding.mk z dom = b ∧ cod' = cod := by simpa [pure, Except.pure] using hpi
    cases answer with
    | false => cases h
    | true => exact ⟨z, dom, cod', hty, ht, hw, hconv, by simpa [pure, Except.pure] using h.symm⟩
  · cases hpi

lemma intro_eq_ok (h : k.intro goal x = .ok gs) :
    ∃ z dom cod, k.normalize goal.target = .ok (.pi z dom cod) ∧ x ∉ goal.names ∧
      gs = [⟨goal.hyps ++ [⟨x, dom⟩], cod.subst z (.var x)⟩] := by
  simp only [intro, Except.bind_eq_ok] at h
  obtain ⟨t, ht, h⟩ := h
  split at h
  · rename_i z dom cod
    obtain ⟨⟨⟩, hfresh, h⟩ := Except.bind_eq_ok.1 h
    exact ⟨z, dom, cod, ht, (freshFor_eq_ok hfresh).2.2 x (by simp),
      by simpa [pure, Except.pure] using h.symm⟩
  · cases h

lemma clear_eq_ok (h : clear goal x = .ok gs) :
    x ∉ goal.target.freeVars ∧ (∀ b ∈ goal.hyps, b.name ≠ x → x ∉ b.ty.freeVars) ∧
      gs = [⟨without goal x, goal.target⟩] := by
  rw [clear] at h
  split at h
  · cases h
  · obtain ⟨⟨⟩, hunused, h⟩ := Except.bind_eq_ok.1 h
    obtain ⟨htarget, hhyps⟩ := unused_eq_ok hunused
    exact ⟨htarget, hhyps, by simpa [pure, Except.pure] using h.symm⟩

/-! ### Using an equation -/

/-- Two sides built by one constructor of a data type, or two pairs, and the equations between their
components. -/
inductive Splits (env : Environment) (e : Equation) : List Term → Prop where
  | pairs {a b l₁ l₂ r₁ r₂ : Term} : e = ⟨.prod a b, .pair l₁ l₂, .pair r₁ r₂⟩ →
      Splits env e [.eq a l₁ r₁, .eq b l₂ r₂]
  | ctor {c : Name} {d : DataType} {ctor : DataCtor} : e.lhs.head = .const c →
      e.rhs.head = .const c →
      env.dataCtor? c = some (d, ctor) → e.lhs.args.length = ctor.arity →
        e.rhs.args.length = ctor.arity →
      Splits env e
        (List.zipWith (fun ty (l, r) => .eq ty l r) ctor.argTypes (e.lhs.args.zip e.rhs.args))

lemma constructorHead?_eq_some {env : Environment} {t : Term} {c : Name}
    (h : env.constructorHead? t = some c) : t.head = .const c ∧ env.isConstructor c := by
  rw [Environment.constructorHead?] at h
  split at h
  · rename_i c' hhead
    split at h
    · rename_i hctor
      cases h
      exact ⟨hhead, hctor⟩
    · cases h
  · cases h

lemma componentEquations_eq_ok {e : Equation} {parts : List Term}
    (h : k.componentEquations x e = .ok parts) : Splits k.env e parts := by
  rw [componentEquations] at h
  split at h
  · rename_i a b l₁ l₂ r₁ r₂ hty hl hr
    obtain rfl : [Term.eq a l₁ r₁, .eq b l₂ r₂] = parts := by simpa [pure, Except.pure] using h
    refine .pairs ?_
    rw [← hty, ← hl, ← hr]
  · split at h
    · cases h
    · rename_i c hl
      split at h
      · cases h
      · rename_i d ctor hctor
        split at h
        · rename_i hr
          split at h
          · rename_i hlen
            obtain rfl := Except.ok.inj h
            exact .ctor (constructorHead?_eq_some hl).1
              (constructorHead?_eq_some hr).1 hctor hlen.1 hlen.2
          · cases h
        · cases h

lemma injectionAs_eq_ok {names : List Name} {shown : Argument}
    (h : k.injectionAs goal x names shown = .ok gs) :
    ∃ e parts, k.equation goal x = .ok e ∧ Splits k.env e parts ∧
      names.length = parts.length ∧ names.Nodup ∧
      (∀ y ∈ names, y ∉ goal.names) ∧
        gs = [⟨goal.hyps ++ List.zipWith Binding.mk names parts, goal.target⟩] := by
  simp only [injectionAs, Except.bind_eq_ok] at h
  obtain ⟨e, he, parts, hparts, ⟨⟩, hfresh, h⟩ := h
  obtain ⟨hlen, hnodup, hnew⟩ := freshFor_eq_ok hfresh
  exact ⟨e, parts, he, componentEquations_eq_ok hparts, hlen, hnodup, hnew,
    by simpa [pure, Except.pure] using h.symm⟩

lemma discriminate_eq_ok (h : k.discriminate goal x = .ok gs) :
    ∃ e c d, k.equation goal x = .ok e ∧ e.lhs.head = .const c ∧
      e.rhs.head = .const d ∧ c ≠ d ∧ gs = [] := by
  simp only [discriminate, Except.bind_eq_ok] at h
  obtain ⟨e, he, h⟩ := h
  split at h
  · rename_i c d hc hd
    split at h
    · rename_i hne
      exact ⟨e, c, d, he, (constructorHead?_eq_some hc).1, (constructorHead?_eq_some hd).1, hne.1,
        by simpa [pure, Except.pure] using h.symm⟩
    · cases h
  · cases h

lemma solvedFor_eq_some {e : Equation} {v : Term} (h : solvedFor e y = some v) :
    e.rhs = .var y ∧ e.lhs = v ∨ e.lhs = .var y ∧ e.rhs = v := by
  rw [solvedFor] at h
  split at h
  · exact .inl ⟨‹_›, Option.some.inj h⟩
  · split at h
    · exact .inr ⟨‹_›, Option.some.inj h⟩
    · cases h

lemma eliminate_eq_ok (h : k.eliminate goal x y = .ok gs) :
    ∃ e v hyps, k.equation goal x = .ok e ∧ solvedFor e y = some v ∧ y ≠ x ∧
      (goal.lookup? y).isSome ∧
      y ∉ v.freeVars ∧ x ∉ goal.target.freeVars ∧
        (∀ b ∈ goal.hyps, b.name ≠ x → x ∉ b.ty.freeVars) ∧
      reorder ((goal.hyps.filter fun b => b.name != y && b.name != x).map fun b =>
        { b with ty := b.ty.subst y v }) = some hyps ∧
      gs = [⟨hyps, goal.target.subst y v⟩] := by
  simp only [eliminate, Except.bind_eq_ok] at h
  obtain ⟨e, he, h⟩ := h
  split at h
  · cases h
  · rename_i v hv
    split at h
    · cases h
    · rename_i hyx
      split at h
      · cases h
      · rename_i hocc
        obtain ⟨⟨⟩, hunused, h⟩ := Except.bind_eq_ok.1 h
        obtain ⟨htarget, hhyps⟩ := unused_eq_ok hunused
        split at h
        · rename_i hyps hreorder
          simp only [not_or, Option.isNone_iff_eq_none] at hyx
          exact ⟨e, v, hyps, he, hv, hyx.1, Option.isSome_iff_ne_none.2 hyx.2,
            by simpa [Term.occurs] using hocc,
            htarget, hhyps, hreorder, by simpa [pure, Except.pure] using h.symm⟩
        · cases h

lemma uip_eq_ok (h : k.uip goal x = .ok gs) :
    ∃ e d, k.equation goal x = .ok e ∧ k.convertible e.lhs e.rhs = .ok true ∧
      k.decider? e.ty = .ok (some d) ∧
      (∀ b ∈ goal.hyps, b.name ≠ x → x ∉ b.ty.freeVars) ∧
      gs = [⟨without goal x, goal.target.subst x (.refl e.ty e.lhs)⟩] := by
  simp only [uip, Except.bind_eq_ok] at h
  obtain ⟨e, he, answer, hconv, h⟩ := h
  cases answer with
  | false => cases h
  | true =>
    simp only [if_true, Except.bind_eq_ok] at h
    obtain ⟨d?, hd, h⟩ := h
    cases d? with
    | none => cases h
    | some d =>
      obtain ⟨⟨⟩, hunused, h⟩ := Except.bind_eq_ok.1 h
      exact ⟨e, d, he, hconv, hd, unusedInHyps_eq_ok hunused,
        by simpa [pure, Except.pure] using h.symm⟩

/-! ### Closing an equation -/

lemma reflexivity_eq_ok (h : k.reflexivity goal = .ok gs) :
    ∃ e, k.targetEquation goal = .ok e ∧ k.convertible e.lhs e.rhs = .ok true ∧ gs = [] := by
  simp only [reflexivity, Except.bind_eq_ok] at h
  obtain ⟨e, he, answer, hconv, h⟩ := h
  cases answer with
  | false => cases h
  | true => exact ⟨e, he, hconv, by simpa [pure, Except.pure] using h.symm⟩

lemma assumption_eq_ok (h : k.assumption goal x = .ok gs) :
    ∃ ty, goal.lookup? x = some ty ∧ k.convertible ty goal.target = .ok true ∧ gs = [] := by
  rw [assumption] at h
  split at h
  · cases h
  · rename_i ty hty
    obtain ⟨answer, hconv, h⟩ := Except.bind_eq_ok.1 h
    cases answer with
    | false => cases h
    | true => exact ⟨ty, hty, hconv, by simpa [pure, Except.pure] using h.symm⟩

lemma decide_eq_ok (h : k.decide goal = .ok gs) :
    ∃ e d, k.targetEquation goal = .ok e ∧ (e.lhs.freeVars = [] ∧ e.rhs.freeVars = []) ∧
      k.decider? e.ty = .ok (some d) ∧
      d.decides e.lhs e.rhs = true ∧ gs = [] := by
  simp only [Kernel.decide, Except.bind_eq_ok] at h
  obtain ⟨e, he, h⟩ := h
  split at h
  · rename_i hclosed
    obtain ⟨d?, hd, h⟩ := Except.bind_eq_ok.1 h
    cases d? with
    | none => cases h
    | some d =>
      dsimp only at h
      split at h
      · rename_i hdecides
        exact ⟨e, d, he, by simpa using hclosed, hd, hdecides,
          by simpa [pure, Except.pure] using h.symm⟩
      · cases h
  · cases h

lemma argumentEquations_eq_ok {c : Name} {bound determined : List Name}
    {triples : List (Binding × Term × Term)} {parts : List Term}
    (h : k.argumentEquations c bound determined triples = .ok parts) :
    parts = triples.map (fun (b, l, r) => Term.eq b.ty l r) ∧
      ∀ t ∈ triples, ∀ x ∈ t.1.ty.freeVars, x ∉ bound := by
  induction triples generalizing parts with
  | nil =>
    obtain rfl : [] = parts := by simpa [argumentEquations, pure, Except.pure] using h
    simp
  | cons t rest ih =>
    obtain ⟨b, l, r⟩ := t
    rw [argumentEquations] at h
    split at h
    · cases h
    · rename_i hdep
      obtain ⟨agree, h⟩ : ∃ agree, (if agree = true then do
          let rest' ← k.argumentEquations c bound determined rest
          pure (Term.eq b.ty l r :: rest')
        else refuse (.determinesIndex b.name c)) = .ok parts := by
        dsimp only at h
        split at h <;> obtain ⟨agree, -, h⟩ := Except.bind_eq_ok.1 h <;> exact ⟨agree, h⟩
      split at h
      · obtain ⟨rest', hrest, h⟩ := Except.bind_eq_ok.1 h
        obtain ⟨rfl, hall⟩ := ih hrest
        refine ⟨by simpa [pure, Except.pure] using h.symm, ?_⟩
        intro t ht x hx
        rcases List.mem_cons.1 ht with rfl | ht
        · exact fun hbound => hdep (List.any_eq_true.2 ⟨x, hx, by simpa using hbound⟩)
        · exact hall t ht x hx
      · cases h

lemma congruence_eq_ok (h : k.congruence goal = .ok gs) :
    ∃ e c, k.targetEquation goal = .ok e ∧ e.lhs.head = .const c ∧ e.rhs.head = .const c ∧
      k.env.isConstructor c ∧
      e.lhs.args.length = (ctorBinders k.env c).length ∧
        e.rhs.args.length = (ctorBinders k.env c).length ∧
      (∀ b ∈ ctorBinders k.env c, ∀ x ∈ b.ty.freeVars, x ∉ Binding.names (ctorBinders k.env c)) ∧
      gs = ((ctorBinders k.env c).zip (e.lhs.args.zip e.rhs.args)).map
        fun (b, l, r) => goal.withTarget (.eq b.ty l r) := by
  simp only [congruence, Except.bind_eq_ok] at h
  obtain ⟨e, he, h⟩ := h
  split at h
  · cases h
  · rename_i c hl
    obtain ⟨hlhead, hctor⟩ := constructorHead?_eq_some hl
    split at h
    · rename_i hr
      split at h
      · rename_i hlen
        obtain ⟨parts, hparts, h⟩ := Except.bind_eq_ok.1 h
        obtain ⟨rfl, hall⟩ := argumentEquations_eq_ok hparts
        refine ⟨e, c, he, hlhead, (constructorHead?_eq_some hr).1, hctor, hlen.1, hlen.2, ?_, ?_⟩
        · intro b hb
          -- every binder is paired with two arguments
          have hlong : (ctorBinders k.env c).length ≤ (e.lhs.args.zip e.rhs.args).length := by
            rw [List.length_zip]
            omega
          obtain ⟨lr, hlr⟩ :
              ∃ lr, (b, lr) ∈ (ctorBinders k.env c).zip (e.lhs.args.zip e.rhs.args) := by
            have hmap := List.map_fst_zip hlong
            rw [← hmap] at hb
            obtain ⟨⟨b', lr⟩, hmem, rfl⟩ := List.mem_map.1 hb
            exact ⟨lr, hmem⟩
          exact hall _ hlr
        · have hgs := Except.ok.inj h
          rw [← hgs, List.map_map]
          rfl
      · cases h
    · cases h

/-! ### Calls -/

/-- A call that returns is the form of a rule, or gives `injection` its names as the letters of a
text, or gives `case` the number of indices as a truth value. -/
lemma apply_eq_ok {call : Call} (h : k.apply goal call = .ok gs) :
    (∃ rule : Rule, call = rule.call ∧ k.run goal rule = .ok gs) ∨
    (∃ x letters, call = ⟨.text "injection", [.ofName x, .text letters]⟩ ∧
      k.injectionAs goal x (letters.toList.map fun c => .text (String.singleton c))
        (.text letters) =
        .ok gs) ∨
    ∃ t n shown motive, call = ⟨.text "case", [.term t, shown, .term motive]⟩ ∧
      k.caseAs goal t n shown motive = .ok gs := by
  have hthrow : ∀ {f : Except Fault Fault},
      (do throw (← f) : Except Fault (List Goal)) ≠ .ok gs := by
    intro f
    cases f <;> exact nofun
  rw [apply] at h
  split at h
  · rename_i rule hrule
    exact .inl ⟨rule, Rule.eq_call hrule, h⟩
  · rw [applyOdd] at h
    split at h
    · rename_i a letters hname hargs
      split at h
      · rename_i x hx
        obtain ⟨name, args⟩ := call
        obtain rfl := Argument.eq_ofName hx
        exact .inr (.inl ⟨x, letters, by simp_all, h⟩)
      · exact absurd h hthrow
    · rename_i t shown motive hname hargs
      split at h
      · rename_i n hn
        obtain ⟨name, args⟩ := call
        exact .inr (.inr ⟨t, n, shown, motive, by simp_all, h⟩)
      · exact absurd h hthrow
    · exact absurd h hthrow

end Kernel

end UniqueEvidence
