/-
The kernel is consistent, as long as certificates do not mention the universe.

* `Certificate.mentionsSort`: whether the universe occurs in a certificate;
* `Registry.OfDataTypes`: the default registry, and its extensions by deciders for data types;
* `Kernel.follows_of_replay`: **a goal follows from what a certificate leaves open**;
* `Kernel.replay_ne_closed`: **no certificate closes an equation between two constructors**;
* `Paradox`: the universe is a type of itself, so a certificate that mentions it proves such an
  equation.
-/
import UniqueEvidence.Proofs.CaseAnalysis
import UniqueEvidence.Proofs.Preservation
import UniqueEvidence.Proofs.Visits

namespace UniqueEvidence

open Nameless

/-! ### Without the universe -/

/-- Whether the universe occurs in an argument of a rule. -/
def Argument.mentionsSort : Argument → Bool
  | term t => t.mentionsSort
  | _ => false

/-- Whether the universe occurs in the arguments of a call. -/
def Call.mentionsSort (call : Call) : Bool :=
  call.args.any Argument.mentionsSort

namespace Certificate

mutual

/-- Whether the universe occurs in the arguments of a rule application. -/
def mentionsSort : Certificate → Bool
  | hole _ => false
  | step call children => call.mentionsSort || mentionsSortAll children

/-- Whether the universe occurs in the arguments of a rule application of several certificates. -/
def mentionsSortAll : List Certificate → Bool
  | [] => false
  | c :: rest => c.mentionsSort || mentionsSortAll rest

end

end Certificate

lemma Call.sortFree_of_mem {call : Call} (h : call.mentionsSort = false) {t : Term}
    (ht : .term t ∈ call.args) : t.nameless.SortFree := by
  rw [mentionsSort, List.any_eq_false] at h
  exact Term.sortFree_nameless.2 (by simpa [Argument.mentionsSort] using h _ ht)

/-! ### Registries for data types -/

/-- The default registry, and what comes of it by registering structural deciders for data types. -/
inductive Registry.OfDataTypes : Registry → Prop where
  | default : OfDataTypes .default
  | register {r r' : Registry} {d : Name} : OfDataTypes r →
    r.register? (.const d) (.structural d) = some r' → OfDataTypes r'

lemma Registry.OfDataTypes.plain {r : Registry} (h : r.OfDataTypes) : r.Plain := by
  induction h with
  | default => exact ⟨fun p hp => .inl (List.mem_singleton.1 hp ▸ rfl), rfl⟩
  | @register r r' d _ hregister ih =>
    rw [register?] at hregister
    split at hregister
    · cases hregister
    · obtain rfl := Option.some.inj hregister
      refine ⟨fun p hp => ?_, ih.rules⟩
      rcases List.mem_append.1 hp with hp | hp
      · exact ih.facts p hp
      · exact .inr (List.mem_singleton.1 hp ▸ rfl)

/-! ### Two certificates for a false equation -/

namespace Paradox

/-- Two constants. -/
def flag : DataType :=
  ⟨"D", [⟨"c", []⟩, ⟨"d", []⟩]⟩

/-- Evidence `F i j` of any two constants, with a name for the second binder. -/
def link (second : Name) : Family where
  name := "F"
  indexTypes := [.const "D", .const "D"]
  ctors := [⟨"mk", [⟨"a", .const "D"⟩, ⟨second, .const "D"⟩], [.var "a", .var second]⟩]

/-- The constants and their evidence. -/
def env (second : Name) : Environment where
  datatypes := [flag]
  families := [link second]
  constants := []
  distinct := by simp [declaredNames, flag, link]

/-- The kernel with a decider for the constants. -/
def kernel (second : Name) : Kernel where
  env := env second
  registry := ⟨Registry.default.facts ++ [(.const "D", .structural "D")], Registry.default.rules⟩
  depth := 60

lemma ofDataTypes (second : Name) : (kernel second).registry.OfDataTypes :=
  .register .default rfl

/-- The same with a data type of codes for types. -/
def coded : Kernel where
  env :=
    { datatypes := [flag, ⟨"U", [⟨"code", [.sort]⟩]⟩]
      families := [link "b"]
      constants := []
      distinct := by simp [declaredNames, flag, link] }
  registry := (kernel "b").registry
  depth := 60

/-- The constants are equal. -/
def target : Term :=
  .eq (.const "D") (.const "c") (.const "d")

/-- A split of `mk c d : F c d`, as if all indices were equal. -/
def split : Certificate :=
  .step (Rule.call (.case (Term.apps (.const "mk") [.const "c", .const "d"]) 2
    (.lam "i" (.const "D")
      (.lam "j" (.const "D") (.lam "e" (Term.apps (.const "F") [.var "i", .var "j"])
      (.eq (.const "D") (.var "i") (.var "j"))))))) [.leaf .reflexivity]

/-- Predicates on a type. -/
def power (a : Term) : Term :=
  .arrow a .sort

/-- A type with maps to and from the predicates on its predicates. -/
def carrier : Term :=
  .pi "X" .sort (.arrow (.arrow (power (power (.var "X"))) (.var "X")) (power (power (.var "X"))))

/-- The map into the type. -/
def into : Term :=
  .lam "t" (power (power carrier))
    (.lam "X" .sort (.lam "f" (.arrow (power (power (.var "X"))) (.var "X"))
    (.lam "p" (power (.var "X")) (.app (.var "t") (.lam "x" carrier
      (.app (.var "p") (.app (.var "f") (Term.apps (.var "x") [.var "X", .var "f"]))))))))

/-- The map out of the type. -/
def out (t : Term) : Term :=
  Term.apps t [carrier, into]

/-- There and back again. -/
def around (t : Term) : Term :=
  .app into (out t)

/-- What is in the predicates of `t` holds of `t`, once around. -/
def closedAt (t p : Term) : Term :=
  .arrow (.app (out t) p) (.app p (around t))

/-- No predicate holds at the element in the way of `closedAt`. -/
def unfounded : Term :=
  .lam "y" carrier
    (.arrow (.pi "p" (power carrier) (closedAt (.var "y") (.var "p"))) (.pi "A" .sort (.var "A")))

/-- The predicate is inductive. -/
def inductiveAt (p : Term) : Term :=
  .pi "x" carrier (.arrow (.app (out (.var "x")) p) (.app p (.var "x")))

/-- The element all of whose inductive predicates hold. -/
def last : Term :=
  .app into (.lam "p" (power carrier) (inductiveAt (.var "p")))

/-- The predicate once around. -/
def shifted : Term :=
  .lam "y" carrier (.app (.var "p") (around (.var "y")))

/-- A term of every type: the last element is well founded and is not. -/
def absurdity : Term :=
  .app
    (.lam "h0" (.pi "p" (power carrier) (.arrow (inductiveAt (.var "p")) (.app (.var "p") last)))
      (Term.apps (.var "h0") [unfounded,
        .lam "x" carrier (.lam "h2" (.app (out (.var "x")) unfounded)
          (.lam "h3" (.pi "p" (power carrier) (closedAt (.var "x") (.var "p")))
            (Term.apps (.var "h3") [unfounded, .var "h2",
              .lam "p" (power carrier) (.app (.var "h3") shifted)]))),
        .lam "p" (power carrier) (.app (.var "h0") shifted)]))
    (.lam "p" (power carrier) (.lam "h1" (inductiveAt (.var "p"))
      (Term.apps (.var "h1") [last, .lam "x" carrier (.app (.var "h1") (around (.var "x")))])))

/-- The equation, from a term of its type. -/
def generalized : Certificate :=
  .step (Rule.call (.generalize (.arrow target target) (.app absurdity target)))
    [.step (Rule.call (.intro "h")) [.leaf (.assumption "h")]]

end Paradox

/-! ### Certificates -/

namespace Kernel

variable {k : Kernel}

/-- A replay comes only to calls of the certificate, so without the universe. -/
lemma Visits.mentionsSort {goal reached : Goal} {c : Certificate} {call : Call}
    {children : List Certificate} (h : k.Visits goal c reached (.step call children))
    (hc : c.mentionsSort = false) : call.mentionsSort = false := by
  have hall : ∀ {c : Certificate} {cs : List Certificate},
      Certificate.mentionsSortAll cs = false → c ∈ cs → c.mentionsSort = false := by
    intro c cs hcs hmem
    induction cs with
    | nil => cases hmem
    | cons c' cs ih =>
      rw [Certificate.mentionsSortAll, Bool.or_eq_false_iff] at hcs
      rcases List.mem_cons.1 hmem with rfl | hmem
      · exact hcs.1
      · exact ih hcs.2 hmem
  generalize hrest : Certificate.step call children = rest at h
  induction h with
  | here =>
    subst hrest
    rw [Certificate.mentionsSort, Bool.or_eq_false_iff] at hc
    exact hc.1
  | child _ hmem _ ih =>
    rw [Certificate.mentionsSort, Bool.or_eq_false_iff] at hc
    exact ih (hall hc.2 (List.of_mem_zip hmem).2) hrest

/-- **A goal follows from what a certificate leaves open.** -/
theorem follows_of_replay (k : Kernel) (henv : k.env.Plain) (hregistry : k.registry.Plain)
    {goal : Goal} (hgoal : goal.Grounded) {c : Certificate} (hc : c.mentionsSort = false)
    {gs : List Goal} (h : (k.replay goal c).outcome = .ok gs) :
    goal.Follows (k.env.signature henv.closed .erased) gs := by
  have hstep : ∀ {g call subgoals}, g.Grounded → call.mentionsSort = false →
      k.apply g call = .ok subgoals → g.Follows (k.env.signature henv.closed .erased) subgoals := by
    intro g call subgoals hg hcall happly
    exact apply_follows henv hregistry hg (fun t ht => Call.sortFree_of_mem hcall ht) happly
  have hgrounded : ∀ {g rest}, k.Visits goal c g rest → g.Grounded := by
    intro g rest hvisits
    exact hvisits.invariant (A := fun _ call => call.mentionsSort = false)
      (fun hg hcall happly => (hstep hg hcall happly).grounded) hgoal fun _ _ _ hvisits' =>
        hvisits'.mentionsSort hc
  refine ⟨fun g hg => ?_, holds_of_replay (fun g call children subgoals hvisits happly => ?_) h⟩
  · obtain ⟨rest, hvisits⟩ := visits_of_replay h hg
    exact hgrounded hvisits
  · exact (hstep (hgrounded hvisits) (hvisits.mentionsSort hc) happly).valid

/-! ### Consistency -/

/-- Constructors of a data type without arguments are closed terms of it. -/
lemma inhabits_const (henv : k.env.Plain) {d : DataType} (hd : d ∈ k.env.datatypes) {c : DataCtor}
    (hc : c ∈ d.ctors) (hnullary : c.argTypes = []) :
    Inhabits (k.env.signature henv.closed .erased) (const c.name) (const d.name) := by
  have hdeclared := Environment.constType?_of_dataCtor? (Environment.dataCtor?_of_mem hd hc)
  rw [hnullary] at hdeclared
  exact ⟨trivial, .const (congrArg (Option.map _) hdeclared) .rfl⟩

/-- **No certificate closes an equation between two constructors of a data type**, over well formed
declarations without constants and with deciders for data types, if the certificate does not mention
the universe and no binder has a name that is kept for renaming.  The declarations may mention the
universe: constructors may take types, and families may be over types. -/
theorem replay_ne_closed (k : Kernel) (hk : k.WellFormed) (hconstants : k.env.constants = [])
    (hnames : ∀ f ∈ k.env.families, ∀ ctor ∈ f.ctors, ∀ b ∈ ctor.binders, ¬ b.name.StartsWithHash)
    (hregistry : k.registry.OfDataTypes) (d : DataType) (hd : d ∈ k.env.datatypes) (c c' : DataCtor)
    (hc : c ∈ d.ctors) (hc' : c' ∈ d.ctors) (hnullary : c.argTypes = [])
    (hnullary' : c'.argTypes = []) (hne : c ≠ c') (cert : Certificate)
    (hcert : cert.mentionsSort = false) :
    (k.replay ⟨[], .eq (.const d.name) (.const c.name) (.const c'.name)⟩ cert).worded ≠ .ok [] := by
  intro hworded
  have henv : k.env.Plain := ⟨hconstants, hk.typed.closed, hk.closed_args, hnames⟩
  have hgoal : Goal.Grounded ⟨[], .eq (.const d.name) (.const c.name) (.const c'.name)⟩ := by
    refine ⟨List.nodup_nil, by simp, by simp, fun x hx => ?_⟩
    simp [Term.Mentions, Nameless.Occurs] at hx
  have hvalid :=
    (follows_of_replay k henv hregistry.plain hgoal hcert (Logged.outcome_of_worded hworded)).valid
      (by simp)
  -- there are no hypotheses to satisfy, so the equation holds between the constructors themselves
  have hγ : Models (k.env.signature henv.closed .erased) [] fun _ => tt :=
    ⟨fun _ => trivial, by simp⟩
  have hconv : Conv (const c.name) (const c'.name) :=
    hvalid.conv hγ (inhabits_const henv hd hc hnullary) (inhabits_const henv hd hc' hnullary')
  have hname : c.name = c'.name := (Head.const.inj (hconv.head_eq rfl rfl)).1
  have hfound := Environment.dataCtor?_of_mem hd hc
  rw [hname, Environment.dataCtor?_of_mem hd hc'] at hfound
  exact hne (Prod.mk.inj (Option.some.inj hfound)).2.symm

/-- The split of `mk c d` is refused, with codes for types in the declarations: its branch is about
any two constants. -/
theorem replay_ne_closed_sample : Paradox.coded.WellFormed ∧ Paradox.split.mentionsSort = false ∧
    (Paradox.coded.replay ⟨[], Paradox.target⟩ Paradox.split).worded ≠ .ok [] := by
  have hk : Paradox.coded.WellFormed := ⟨by decide +kernel, by decide +kernel, by decide +kernel⟩
  refine ⟨hk, by decide,
    replay_ne_closed Paradox.coded hk rfl (by decide) (Paradox.ofDataTypes "b") Paradox.flag
    (by decide) ⟨"c", []⟩ ⟨"d", []⟩ (by decide) (by decide) rfl rfl (by decide)
    Paradox.split (by decide)⟩

/-- A certificate may not mention the universe, since a term of every type can be built from it; and
no binder may have a name that is kept for renaming, since the split then takes it for the other
binder. -/
theorem replay_closed_paradox :
    ((Paradox.kernel "b").WellFormed ∧ (Paradox.kernel "b").env.constants = [] ∧
      (Paradox.kernel "b").registry.OfDataTypes ∧
      ((Paradox.kernel "b").replay ⟨[], Paradox.target⟩ Paradox.generalized).worded = .ok []) ∧
    (Paradox.kernel "#0").WellFormed ∧ (Paradox.kernel "#0").env.constants = [] ∧
      (Paradox.kernel "#0").registry.OfDataTypes ∧
      ((Paradox.kernel "#0").replay ⟨[], Paradox.target⟩ Paradox.split).worded = .ok [] :=
  ⟨⟨⟨by decide +kernel, by decide +kernel, by decide +kernel⟩, rfl, Paradox.ofDataTypes "b",
      Except.toOption_eq_some.1 (by decide +kernel)⟩,
    ⟨by decide +kernel, by decide +kernel, by decide +kernel⟩, rfl, Paradox.ofDataTypes "#0",
      Except.toOption_eq_some.1 (by decide +kernel)⟩

end Kernel

end UniqueEvidence
