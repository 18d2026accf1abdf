/-
Which obligation a file gives.

* `ObligationFile.factories`: the functions of a file that may be called, in the order of their
  names; `ObligationFile.named`, `ObligationFile.unnamed`: those whose names say that they give an
  obligation, and the others;
* `toOption_firstObligation`: functions are called until one gives an obligation;
* `ObligationFile.toOption_load`: the named functions are called if there are any, and otherwise the
  others;
* `ObligationFile.load_first`: **what is loaded is the first obligation in order**, the named
  functions before the others; but **an obligation of the others is missed** if there are named
  functions and none of them gives one.
-/
import UniqueEvidence.ObligationFile
import UniqueEvidence.Proofs.Sample
import UniqueEvidence.Proofs.Telescope

namespace UniqueEvidence

/-- The obligation that a call gives. -/
def Product.obligation? : Product → Option Obligation
  | obligation o => some o
  | other _ | raised _ => none

/-! ### Calls in order -/

lemma toOption_mapError {ε ε' α : Type} (f : ε → ε') (x : Except ε α) :
    (x.mapError f).toOption = x.toOption := by
  cases x <;> rfl

section Calls

variable {d : Definition} {ds : List Definition} {s s' : Session} {product : Definition → Product}

/-- A call that gives an obligation is the last one. -/
lemma firstObligation_of_obligation {o : Obligation} (h : d.call.run s = (.obligation o, s')) :
    (firstObligation (d :: ds)).run s = (.ok o, s') := by
  rw [firstObligation, StateT.run_bind, h]
  rfl

/-- After any other call the rest is tried, in the session that it leaves. -/
lemma toOption_firstObligation_cons {p : Product} (h : d.call.run s = (p, s'))
    (hp : p.obligation? = none) :
    ((firstObligation (d :: ds)).run s).1.toOption = ((firstObligation ds).run s').1.toOption := by
  rw [firstObligation, StateT.run_bind, h]
  cases p with
  | obligation o => cases hp
  | other kind => exact toOption_mapError _ _
  | raised text => exact toOption_mapError _ _

/-- **Functions are called in order until one gives an obligation.**  What a call leaves behind in
the session does not matter, as long as the others give the same after it. -/
lemma toOption_firstObligation (h : ∀ d ∈ ds, ∀ s : Session, (d.call.run s).1 = product d)
    (s : Session) :
    ((firstObligation ds).run s).1.toOption = ds.findSome? fun d => (product d).obligation? := by
  induction ds generalizing s with
  | nil => rfl
  | cons d ds ih =>
    obtain ⟨hd, hds⟩ := List.forall_mem_cons.1 h
    have hcall : d.call.run s = (product d, (d.call.run s).2) := Prod.ext (hd s) rfl
    rw [List.findSome?_cons]
    cases hproduct : product d with
    | obligation o =>
      rw [hproduct] at hcall
      rw [firstObligation_of_obligation hcall]
      rfl
    | other | raised =>
      rw [hproduct] at hcall
      rw [toOption_firstObligation_cons hcall rfl]
      exact ih hds _

end Calls

/-! ### Files -/

lemma mem_of_mem_inOrder {ds : List Definition} {d : Definition} (h : d ∈ inOrder ds) : d ∈ ds := by
  have hkept : d ∈ keepLast Definition.name ds := by
    rcases List.mem_append.1 h with h | h
    · obtain ⟨name, -, hfind⟩ := List.mem_filterMap.1 h
      exact List.mem_of_find?_eq_some hfind
    · exact List.mem_of_mem_filter h
  exact mem_of_mem_keepLast hkept

namespace ObligationFile

variable {f : ObligationFile} {product : Definition → Product}

/-- The functions of a file that can be called for an obligation, in the order of their names. -/
def factories (f : ObligationFile) : List Definition :=
  (inOrder f.definitions).filter Definition.isFactory

/-- Those whose names say that they give an obligation. -/
def named (f : ObligationFile) : List Definition :=
  f.factories.filter fun d => isObligationName d.name

/-- The others. -/
def unnamed (f : ObligationFile) : List Definition :=
  f.factories.filter fun d => !isObligationName d.name

lemma candidates_of_named (h : f.named ≠ []) : candidates f.definitions = f.named :=
  if_neg (by simpa [named, factories] using h)

lemma candidates_of_unnamed (h : f.named = []) : candidates f.definitions = f.unnamed := by
  have hcandidates : candidates f.definitions = f.factories :=
    if_pos (by simpa [named, factories] using h)
  rw [hcandidates, unnamed, List.filter_eq_self.2]
  intro d hd
  simpa using List.filter_eq_nil_iff.1 h d hd

lemma mem_definitions_of_mem_factories {d : Definition} (h : d ∈ f.factories) : d ∈ f.definitions :=
  mem_of_mem_inOrder (List.mem_of_mem_filter h)

/-- Names that are new and distinct are in the order of their definitions. -/
lemma factories_of_nodup (hdistinct : (f.definitions.map Definition.name).Nodup)
    (hnew : ∀ d ∈ f.definitions, d.name ∉ vocabulary) :
    f.factories = f.definitions.filter Definition.isFactory := by
  have hknown : vocabulary.filterMap (fun name => f.definitions.find? (·.name = name)) = [] := by
    refine List.filterMap_eq_nil_iff.2 fun name hname => List.find?_eq_none.2 fun d hd => ?_
    have := hnew d hd
    simp only [decide_eq_true_eq]
    exact fun heq => this (heq ▸ hname)
  have hkept : f.definitions.filter (·.name ∉ vocabulary) = f.definitions :=
    List.filter_eq_self.2 fun d hd => decide_eq_true (hnew d hd)
  rw [factories, inOrder, keepLast_of_nodup hdistinct, hknown, hkept, List.nil_append]

/-- The named functions are called if there are any, and otherwise the others. -/
lemma toOption_load (path : String) (hexec : f.failure = none)
    (hcalls : ∀ d ∈ f.factories, ∀ s : Session, (d.call.run s).1 = product d) (s : Session) :
    ((load path (.file f)).run s).1.toOption =
      (if f.named = [] then f.unnamed else f.named).findSome? fun d => (product d).obligation? := by
  have hcandidates : candidates f.definitions = if f.named = [] then f.unnamed else f.named := by
    split_ifs with h
    · exact candidates_of_unnamed h
    · exact candidates_of_named h
  have hmem : ∀ d ∈ candidates f.definitions, d ∈ f.factories := by
    rw [hcandidates]
    split_ifs with h
    · exact fun d hd => List.mem_of_mem_filter hd
    · exact fun d hd => List.mem_of_mem_filter hd
  rw [← hcandidates, ← toOption_firstObligation (fun d hd => hcalls d (hmem d hd)) s, load, hexec]
  cases candidates f.definitions with
  | nil => rfl
  | cons d ds => exact toOption_mapError _ _

/-- **What is loaded is the first obligation in order, but not every obligation is found.**  Let a
file execute without error, and let each of its factories give the same whenever it is called.  In
order the factories are those named for an obligation, and then the others.  If something is loaded,
it is the first obligation in this order.  The first obligation in this order, or nothing if there
is none, is what is loaded exactly if no factory is named for an obligation, or one that is named so
gives an obligation, or none of the others does: otherwise the others are not called.  If the names
are new and distinct, both kinds of factories are in the order of their definitions. -/
theorem load_first (path : String) (f : ObligationFile) (hexec : f.failure = none)
    (product : Definition → Product)
    (hcalls : ∀ d ∈ f.factories, ∀ s : Session, (d.call.run s).1 = product d) (s : Session) :
    (∀ o, ((load path (.file f)).run s).1 = .ok o →
      (f.named ++ f.unnamed).findSome? (fun d => (product d).obligation?) = some o) ∧
    (((load path (.file f)).run s).1.toOption = (f.named ++ f.unnamed).findSome?
      (fun d => (product d).obligation?) ↔
      f.named = [] ∨ (∃ d ∈ f.named, (product d).obligation? ≠ none) ∨
        ∀ d ∈ f.unnamed, (product d).obligation? = none) ∧
    ((f.definitions.map Definition.name).Nodup → (∀ d ∈ f.definitions, d.name ∉ vocabulary) →
      f.factories = f.definitions.filter Definition.isFactory) := by
  have hload := toOption_load path hexec hcalls s
  rw [List.findSome?_append]
  by_cases hnamed : f.named = []
  · rw [if_pos hnamed] at hload
    rw [hnamed, List.findSome?_nil, Option.none_or, ← hload]
    refine ⟨fun o ho => by rw [ho]; rfl, ⟨fun _ => .inl rfl, fun _ => rfl⟩, factories_of_nodup⟩
  · rw [if_neg hnamed] at hload
    rw [← hload]
    refine ⟨fun o ho => by rw [ho]; rfl, ?_, factories_of_nodup⟩
    cases hfound : ((load path (.file f)).run s).1.toOption with
    | some o =>
      rw [hload] at hfound
      obtain ⟨d, hd, ho⟩ := List.exists_of_findSome?_eq_some hfound
      exact ⟨fun _ => .inr (.inl ⟨d, hd, by simp [ho]⟩), fun _ => rfl⟩
    | none =>
      rw [hload, List.findSome?_eq_none_iff] at hfound
      rw [Option.none_or, eq_comm, List.findSome?_eq_none_iff]
      constructor
      · exact fun h => .inr (.inr h)
      · rintro (h | ⟨d, hd, ho⟩ | h)
        · exact absurd h hnamed
        · exact absurd (hfound d hd) ho
        · exact h

end ObligationFile

namespace Sample

/-- The sample goal as an obligation. -/
def obligation : Obligation where
  name := .str "sample"
  env := env
  goal := goal
  icount := .int 1
  registry := none

/-- A function that is named for an obligation and fails. -/
def failing : Definition :=
  ⟨"old_obligation", true, pure (.raised "outdated")⟩

/-- A function that gives an obligation. -/
def working (name : String) : Definition :=
  ⟨name, true, pure (.obligation obligation)⟩

/-- A file with both functions. -/
def mixed (name : String) : ObligationFile where
  definitions := [failing, working name]

end Sample

/-- A working function is found after a failing one if it is named for an obligation too, and not if
it has another name. -/
theorem ObligationFile.load_first_mixed :
    ((load "mixed.py" (.file (Sample.mixed "new_obligation"))).run {}).1.toOption =
      some Sample.obligation ∧
    ((load "mixed.py" (.file (Sample.mixed "build"))).run {}).1.toOption ≠
      some Sample.obligation := by
  have hold : Sample.failing.isFactory = true ∧
    isObligationName Sample.failing.name = true := by decide +kernel
  have hnew : (Sample.working "new_obligation").isFactory = true ∧
      isObligationName (Sample.working "new_obligation").name = true := by decide +kernel
  have hbuild : (Sample.working "build").isFactory = true ∧
      isObligationName (Sample.working "build").name = false := by
    decide +kernel
  have hcalls : ∀ name, ∀ d ∈ (Sample.mixed name).factories, ∀ s : Session, (d.call.run s).1 =
      (d.call.run {}).1 := by
    intro name d hd s
    rcases List.mem_pair.1 (mem_definitions_of_mem_factories hd) with rfl | rfl <;> rfl
  have hfirst := fun name =>
    load_first "mixed.py" (Sample.mixed name) rfl (fun d => (d.call.run {}).1) (hcalls name) {}
  have hfactories : ∀ name, name ≠ "old_obligation" → name ∉ vocabulary →
      (Sample.working name).isFactory = true →
      (Sample.mixed name).factories = [Sample.failing, Sample.working name] := by
    intro name hne hname hfactory
    rw [(hfirst name).2.2 (by simpa [Sample.mixed, Sample.failing, Sample.working] using hne.symm)
      (by simpa [Sample.mixed, Sample.failing, Sample.working, vocabulary] using hname)]
    simp [Sample.mixed, hold.1, hfactory]
  constructor
  · have hparts := hfactories "new_obligation" (by decide) (by decide) hnew.1
    have hnamed : (Sample.mixed "new_obligation").named =
        [Sample.failing, Sample.working "new_obligation"] := by
      simp [named, hparts, hold.2, hnew.2]
    have hiff := (hfirst "new_obligation").2.1
    rw [hnamed] at hiff
    exact hiff.2 (.inr (.inl ⟨Sample.working "new_obligation", by simp, by rintro ⟨⟩⟩))
  · have hparts := hfactories "build" (by decide) (by decide) hbuild.1
    have hnamed : (Sample.mixed "build").named = [Sample.failing] := by
      simp [named, hparts, hold.2, hbuild.2]
    have hunnamed : (Sample.mixed "build").unnamed = [Sample.working "build"] := by
      simp [unnamed, hparts, hold.2, hbuild.2]
    have hiff := (hfirst "build").2.1
    rw [hnamed, hunnamed] at hiff
    intro heq
    rcases hiff.1 heq with h | ⟨d, hd, h⟩ | h
    · cases h
    · obtain rfl := List.mem_singleton.1 hd
      exact h rfl
    · cases h (Sample.working "build") (by simp)

end UniqueEvidence
