/-
The two commands on files of obligations.

* `Work.Gives`: work that gives a certain value, makes certain complaints and keeps the shared
  registry, whatever else it emits.  There is one lemma for each primitive, and one for sequences;
* `Run.Gives`, `Run.Breaks`: the same for work that may end the run, with `Run.gives_foldlM` and
  `Run.breaks_foldlM` for loops;
* `Work.IsPure`, `Source.IsPure`: factories that give the same product every time and at most log;
* `CommandLine.loaded`, `CommandLine.fileStatus`, `CommandLine.fileComplaints`: the obligation of a
  file, and what it comes to;
* `CommandLine.gives_solveAndCheck`: **the certificate of a solution always replays to the goals
  left open**;
* `CommandLine.gives_proveFile`, `CommandLine.gives_checkFile`: one round of either loop, after
  which the status is **the larger one of the status before and that of the file**;
* `CommandLine.gives_proveAll`, `CommandLine.gives_checkAll`: so the loops end with the status of
  the worst file;
* `CommandLine.prove_agrees_with_check`: both commands **end with the same status**, in whatever
  order the files are given, but **with no status at all** if a file is not text.
-/
import Mathlib.Order.Bounds.Basic
import UniqueEvidence.CommandLine.Run
import UniqueEvidence.Examples
import UniqueEvidence.Proofs.Loading
import UniqueEvidence.Proofs.Replay

namespace UniqueEvidence

/-! ### Sessions -/

/-- The text of a complaint. -/
def Emission.complaint? : Emission → Option String
  | complained text => some text
  | _ => none

namespace Session

/-- The registry that obligations without deciders of their own use. -/
def registry (s : Session) : Registry :=
  s.shared.getD .default

/-- All complaints, in order. -/
def complaints (s : Session) : List String :=
  s.transcript.filterMap Emission.complaint?

/-- The session with more log entries. -/
def logged (s : Session) (events : List Event) : Session :=
  { s with transcript := s.transcript ++ events.map .logged }

lemma complaints_logged (s : Session) (events : List Event) :
    (s.logged events).complaints = s.complaints := by
  have hnone : ∀ e ∈ events.map Emission.logged, e.complaint? = none := by
    simp [Emission.complaint?]
  rw [logged, complaints, List.filterMap_append, List.filterMap_eq_nil_iff.2 hnone,
    List.append_nil, complaints]

end Session

/-! ### Work and what it gives -/

namespace Work

variable {α β : Type} {shared : Registry} {w : Work α} {a : α} {b : β} {cs ds : List String}

/-- In every session with the given registry, the work gives `a`, complains of `cs` and keeps the
registry. -/
def Gives (shared : Registry) (w : Work α) (a : α) (cs : List String) : Prop :=
  ∀ s : Session, s.registry = shared →
    (w.run s).1 = a ∧ (w.run s).2.registry = shared ∧ (w.run s).2.complaints = s.complaints ++ cs

lemma Gives.bind {f : α → Work β} (hw : Gives shared w a cs) (hf : Gives shared (f a) b ds) :
    Gives shared (w >>= f) b (cs ++ ds) := by
  intro s hs
  obtain ⟨ha, hreg, hcs⟩ := hw s hs
  obtain ⟨hb, hreg', hds⟩ := hf _ hreg
  have hrun : (w >>= f).run s = (f a).run (w.run s).2 := by
    rw [← ha]
    rfl
  rw [hrun]
  exact ⟨hb, hreg', by rw [hds, hcs, List.append_assoc]⟩

lemma gives_emit (e : Emission) : Gives shared (emit e) () e.complaint?.toList := by
  intro s hs
  refine ⟨rfl, hs, ?_⟩
  show (s.transcript ++ [e]).filterMap Emission.complaint? = s.complaints ++ e.complaint?.toList
  rw [List.filterMap_append, Session.complaints, List.filterMap_cons, List.filterMap_nil]
  cases e.complaint? <;> rfl

lemma gives_print (line : String) : Gives shared (print line) () [] :=
  gives_emit (.printed (line ++ "\n"))

lemma gives_complain (line : String) : Gives shared (complain line) () [line ++ "\n"] :=
  gives_emit (.complained (line ++ "\n"))

/-- The work gives the same value in every session, and at most logs. -/
def IsPure (w : Work α) : Prop :=
  ∃ a events, ∀ s : Session, w.run s = (a, s.logged events)

lemma isPure_pure (a : α) : IsPure (pure a : Work α) := by
  refine ⟨a, [], fun s => ?_⟩
  rw [Session.logged, List.map_nil, List.append_nil]
  rfl

lemma isPure_log (events : List Event) : IsPure (log events) :=
  ⟨(), events, fun _ => rfl⟩

lemma IsPure.bind {f : α → Work β} (hw : IsPure w) (hf : ∀ a, IsPure (f a)) : IsPure (w >>= f) := by
  obtain ⟨a, events, hw⟩ := hw
  obtain ⟨b, events', hf⟩ := hf a
  refine ⟨b, events ++ events', fun s => ?_⟩
  have hrun : (w >>= f).run s = (f (w.run s).1).run (w.run s).2 := rfl
  rw [hrun, hw, hf]
  simp [Session.logged]

/-- Pure work gives what it gives in an empty session. -/
lemma IsPure.gives (hw : IsPure w) : Gives shared w (w.run {}).1 [] := by
  obtain ⟨a, events, hw⟩ := hw
  intro s hs
  rw [hw, hw, List.append_nil]
  exact ⟨rfl, hs, s.complaints_logged events⟩

lemma gives_pure : Gives shared (pure a) a [] :=
  (isPure_pure a).gives

lemma gives_ofLogged (x : Logged α) : Gives shared (ofLogged x) x.worded [] :=
  ((isPure_log x.log).bind fun _ => isPure_pure x.worded).gives

/-- The shared registry is made when it is first needed, and stays what it would have been. -/
lemma gives_sharedRegistry : Gives shared sharedRegistry shared [] := by
  intro s hs
  obtain ⟨kept, transcript⟩ := s
  rw [List.append_nil]
  cases kept with
  | some r => exact ⟨hs, hs, rfl⟩
  | none =>
    obtain rfl : Registry.default = shared := hs
    exact ⟨rfl, rfl, Session.complaints_logged ⟨none, transcript⟩ _⟩

end Work

/-! ### Files -/

/-- The factories of the file, if there is one, are pure. -/
def Source.IsPure : Source → Prop
  | .refused _ | .illegible _ => True
  | .file f => ∀ d ∈ f.definitions, d.isFactory = true → d.call.IsPure

lemma mem_of_mem_candidates {ds : List Definition} {d : Definition} (h : d ∈ candidates ds) :
    d ∈ ds ∧ d.isFactory = true := by
  have hfactory : d ∈ (inOrder ds).filter Definition.isFactory := by
    unfold candidates at h
    dsimp only at h
    split at h
    · exact h
    · exact List.mem_of_mem_filter h
  obtain ⟨hd, hfactory⟩ := List.mem_filter.1 hfactory
  exact ⟨mem_of_mem_inOrder hd, hfactory⟩

lemma isPure_firstObligation {ds : List Definition} (h : ∀ d ∈ ds, d.call.IsPure) :
    (firstObligation ds).IsPure := by
  induction ds with
  | nil => exact Work.isPure_pure _
  | cons d ds ih =>
    obtain ⟨hd, hds⟩ := List.forall_mem_cons.1 h
    refine hd.bind fun product => ?_
    cases product with
    | obligation o => exact Work.isPure_pure _
    | other | raised => exact (ih hds).bind fun _ => Work.isPure_pure _

/-- A file with pure factories gives the same obligation every time. -/
lemma isPure_load (path : String) {source : Source} (h : source.IsPure) :
    (load path source).IsPure := by
  cases source with
  | refused | illegible => exact Work.isPure_pure _
  | file f =>
    unfold load
    dsimp only
    split
    · exact Work.isPure_pure _
    · exact Work.isPure_pure _
    · exact Work.isPure_pure _
    · have hcalls : ∀ d ∈ candidates f.definitions, d.call.IsPure := fun d hd =>
        h d (mem_of_mem_candidates hd).1 (mem_of_mem_candidates hd).2
      exact (isPure_firstObligation hcalls).bind fun _ => Work.isPure_pure _

lemma Source.IsPure.find {found : String → Source} {path : String} (h : (found path).IsPure) :
    (Source.find found path).IsPure := by
  rw [Source.find]
  split
  · exact trivial
  · exact h

namespace Examples

lemma isPure_registryWith : ∀ datatypes : List DataType, (registryWith datatypes).IsPure
  | [] => (Work.isPure_log _).bind fun _ => Work.isPure_pure _
  | d :: rest => by
    refine (isPure_registryWith rest).bind fun r => ?_
    split
    · exact (Work.isPure_log _).bind fun _ => Work.isPure_pure _
    · exact Work.isPure_pure _

/-- The built-in files have pure factories. -/
lemma isPure_source (path : String) : (source path).IsPure := by
  unfold source source?
  split
  case h_2 | h_3 | h_4 | h_5 =>
    intro d hd _
    obtain rfl := List.mem_singleton.1 hd
    exact (isPure_registryWith _).bind fun _ => Work.isPure_pure _
  all_goals exact trivial

end Examples

namespace CommandLine

variable {α β : Type} {shared : Registry} {sources : String → Source} {bounds : Bounds}
  {path : String} {o : Obligation}

/-- The obligation found at a path, or why there is none. -/
def loaded (sources : String → Source) (path : String) : Except LoadError Obligation :=
  ((load path (Source.find sources path)).run {}).1

/-- How the run ends at a file for which nobody answers. -/
def ending? : Except LoadError Obligation → Option Ending
  | .error (.illegible why) => some (.illegible why)
  | .error (.exited status) => some (.stopped status)
  | _ => none

/-- What a file comes to: 2 if there is no obligation or no solution, 1 if a goal is left open, and
otherwise 0. -/
def fileStatus (shared : Registry) (bounds : Bounds) : Except LoadError Obligation → Nat
  | .error _ => 2
  | .ok o =>
    match (o.solve shared bounds).worded with
    | .error _ => 2
    | .ok s => if s.openGoals = [] then 0 else 1

/-- The complaints about a file: it cannot be loaded, or its obligation has the wrong shape. -/
def fileComplaints (shared : Registry) (bounds : Bounds) (path : String) :
    Except LoadError Obligation → List String
  | .error e => [path ++ ": " ++ e.message ++ "\n"]
  | .ok o =>
    match (o.solve shared bounds).worded with
    | .error (.mismatch why) =>
      [o.name.plain ++ ": " ++ ("structural mismatch: " ++ why.message) ++ "\n"]
    | _ => []

/-- Whether the obligation, if there is one, is solved or found to have the wrong shape: no other
fault comes up. -/
def isSettled (shared : Registry) (bounds : Bounds) : Except LoadError Obligation → Bool
  | .error _ => true
  | .ok o =>
    match (o.solve shared bounds).worded with
    | .ok _ | .error (.mismatch _) => true
    | .error _ => false

lemma exists_mismatch (h : isSettled shared bounds (.ok o) = true) {f : Fault}
    (hf : (o.solve shared bounds).worded = .error f) : ∃ why, f = .mismatch why := by
  cases f with
  | mismatch why => exact ⟨why, rfl⟩
  | _ => simp [isSettled, hf] at h

lemma gives_registryFor (o : Obligation) :
    Work.Gives shared (registryFor o) (o.registry.getD shared) [] := by
  unfold registryFor
  cases o.registry with
  | some r => exact Work.gives_pure
  | none => exact Work.gives_sharedRegistry

lemma kernel_getD (o : Obligation) : o.kernel (o.registry.getD shared) = o.kernel shared := by
  rw [Obligation.kernel, Obligation.kernel]
  cases o.registry <;> rfl

lemma gives_solve (o : Obligation) :
    Work.Gives shared (solve o bounds) (o.solve shared bounds).worded [] := by
  refine (gives_registryFor o).bind ?_
  rw [Obligation.solve, kernel_getD]
  exact Work.gives_ofLogged _

/-- A solution's certificate replays to the goals that the solution leaves open. -/
lemma worded_check {s : Solution} (h : (o.solve shared bounds).worded = .ok s) :
    (o.check shared s).worded = .ok s.openGoals := by
  have hsolve := Logged.outcome_of_worded h
  unfold Obligation.solve at hsolve
  split at hsolve
  · exact Kernel.worded_replay (Kernel.covers_solve hsolve)
  · cases hsolve

lemma gives_check {s : Solution} (h : (o.solve shared bounds).worded = .ok s) :
    Work.Gives shared (Work.ofLogged (o.check (o.registry.getD shared) s))
      (.ok s.openGoals) [] := by
  rw [Obligation.check, kernel_getD, ← worded_check h]
  exact Work.gives_ofLogged _

/-- The solution with the goals it leaves open. -/
def withOpenGoals (s : Solution) : Solution × List Goal :=
  (s, s.openGoals)

/-- **Replaying adds nothing**: the faults are those of the search, and the goals left open those of
the solution. -/
lemma gives_solveAndCheck (o : Obligation) :
    Work.Gives shared (solveAndCheck o bounds)
      ((o.solve shared bounds).worded.map withOpenGoals) [] := by
  refine (gives_solve o).bind ?_
  cases h : (o.solve shared bounds).worded with
  | error f => exact Work.gives_pure
  | ok s =>
    refine (gives_registryFor o).bind ?_
    exact (gives_check h).bind Work.gives_pure

/-! ### Work that may end the run -/

namespace Run

variable {σ : Type} {r : Run α} {a : α} {b : β} {ending : Ending} {cs ds : List String}

/-- The work comes to its end, with the given value and complaints. -/
def Gives (shared : Registry) (r : Run α) (a : α) (cs : List String) : Prop :=
  Work.Gives shared r.run (.ok a) cs

/-- The work ends the run as given, after the given complaints. -/
def Breaks (shared : Registry) (r : Run α) (ending : Ending) (cs : List String) : Prop :=
  Work.Gives shared r.run (.error ending) cs

lemma gives_pure : Gives shared (pure a) a [] :=
  Work.gives_pure

lemma Gives.bind {f : α → Run β} (hr : Gives shared r a cs) (hf : Gives shared (f a) b ds) :
    Gives shared (r >>= f) b (cs ++ ds) := by
  show Work.Gives shared (r.run >>= ExceptT.bindCont f) (.ok b) (cs ++ ds)
  exact Work.Gives.bind hr hf

lemma Gives.bind_breaks {f : α → Run β} (hr : Gives shared r a cs)
    (hf : Breaks shared (f a) ending ds) : Breaks shared (r >>= f) ending (cs ++ ds) := by
  show Work.Gives shared (r.run >>= ExceptT.bindCont f) (.error ending) (cs ++ ds)
  exact Work.Gives.bind hr hf

lemma Breaks.bind (hr : Breaks shared r ending cs) (f : α → Run β) :
    Breaks shared (r >>= f) ending cs := by
  have h : Work.Gives shared (r.run >>= ExceptT.bindCont f) (.error ending) (cs ++ []) :=
    Work.Gives.bind hr Work.gives_pure
  rwa [List.append_nil] at h

lemma gives_lift {w : Work α} (hw : Work.Gives shared w a cs) :
    Gives shared (ExceptT.lift w) a cs := by
  have h : Work.Gives shared (w >>= fun a => pure (Except.ok a)) (Except.ok a : Except Ending α)
      (cs ++ []) := hw.bind Work.gives_pure
  rwa [List.append_nil] at h

section Loops

variable {f : σ → α → Run σ} {g : σ → α → σ} {complaints : α → List String} (inv : σ → Prop)

/-- A loop comes to what its rounds come to one after the other, if each round keeps the
invariant. -/
lemma gives_foldlM {as : List α} {s : σ} (hs : inv s)
    (hround : ∀ a ∈ as, ∀ s, inv s → Gives shared (f s a) (g s a) (complaints a) ∧ inv (g s a)) :
    Gives shared (as.foldlM f s) (as.foldl g s) (as.flatMap complaints) := by
  induction as generalizing s with
  | nil => exact gives_pure
  | cons a as ih =>
    obtain ⟨ha, has⟩ := List.forall_mem_cons.1 hround
    rw [List.foldlM_cons, List.foldl_cons, List.flatMap_cons]
    exact (ha s hs).1.bind (ih (ha s hs).2 has)

/-- A round that ends the run ends the loop. -/
lemma breaks_foldlM {before after : List α} {s : σ} (hs : inv s)
    (hround : ∀ a ∈ before, ∀ s, inv s →
      Gives shared (f s a) (g s a) (complaints a) ∧ inv (g s a))
    (hbreaks : ∀ s, Breaks shared (f s a) ending []) :
    Breaks shared ((before ++ a :: after).foldlM f s) ending (before.flatMap complaints) := by
  rw [List.foldlM_append, ← List.append_nil (before.flatMap complaints)]
  refine (gives_foldlM inv hs hround).bind_breaks ?_
  rw [List.foldlM_cons]
  exact (hbreaks _).bind _

end Loops

end Run

/-! ### Loading -/

section Loading

variable (h : (sources path).IsPure)
include h

lemma gives_load : Run.Gives shared (ExceptT.lift (load path (Source.find sources path)))
    (loaded sources path) [] :=
  Run.gives_lift (isPure_load path h.find).gives

lemma gives_loadFile_ok (ho : loaded sources path = .ok o) :
    Run.Gives shared (loadFile sources path) (some o) [] := by
  have hload : Run.Gives shared _ _ [] := gives_load h
  rw [ho] at hload
  exact hload.bind Run.gives_pure

/-- A file without an obligation is complained of, unless it ends the run. -/
lemma gives_loadFile_error {e : LoadError} (he : loaded sources path = .error e)
    (hread : ending? (loaded sources path) = none) :
    Run.Gives shared (loadFile sources path) none [path ++ ": " ++ e.message ++ "\n"] := by
  have hload : Run.Gives shared _ _ [] := gives_load h
  rw [he] at hload hread
  refine hload.bind ?_
  cases e with
  | illegible | exited => cases hread
  | _ => exact (Run.gives_lift (Work.gives_complain _)).bind Run.gives_pure

lemma breaks_loadFile {ending : Ending} (hends : ending? (loaded sources path) = some ending) :
    Run.Breaks shared (loadFile sources path) ending [] := by
  have hload : Run.Gives shared _ _ [] := gives_load h
  cases hloaded : loaded sources path with
  | ok o =>
    rw [hloaded] at hends
    cases hends
  | error e =>
    rw [hloaded] at hload hends
    refine hload.bind_breaks ?_
    cases e with
    | illegible | exited =>
      obtain rfl := Option.some.inj hends
      exact Work.gives_pure
    | _ => cases hends

end Loading

/-! ### One round -/

/-- The reports on a file, if they are wanted as JSON values. -/
def fileReports (shared : Registry) (bounds : Bounds) (json : Bool) :
    Except LoadError Obligation → List Json
  | .error _ => []
  | .ok o =>
    match (o.solve shared bounds).worded with
    | .error _ => []
    | .ok s => if json then [s.toJson o.name] else []

/-- What a file makes of the progress of proving. -/
def Progress.after (shared : Registry) (bounds : Bounds) (json : Bool) (p : Progress)
    (x : Except LoadError Obligation) : Progress where
  status := max p.status (fileStatus shared bounds x)
  reports := p.reports ++ fileReports shared bounds json x

/-- No file has a status above 2. -/
lemma fileStatus_le_two (x : Except LoadError Obligation) : fileStatus shared bounds x ≤ 2 := by
  unfold fileStatus
  split
  · exact Nat.le_refl 2
  · split
    · exact Nat.le_refl 2
    · split <;> decide

/-- A status that is raised to 1 by open goals is the larger one of the two. -/
lemma raised_eq_max (goals : List Goal) (n : Nat) :
    (if goals.isEmpty then n else max n 1) = max n (if goals = [] then 0 else 1) := by
  cases goals <;> simp

section Rounds

variable (h : (sources path).IsPure) (hread : ending? (loaded sources path) = none)
  (hsettled : isSettled shared bounds (loaded sources path) = true)

include h hread hsettled

/-- **One round of proving.**  A failed file sets the status to 2, which is the larger one because
no status is above 2. -/
lemma gives_proveFile {p : Progress} (hp : p.status ≤ 2) (json : Bool) :
    Run.Gives shared (proveFile sources bounds json p path)
      (p.after shared bounds json (loaded sources path))
      (fileComplaints shared bounds path (loaded sources path)) := by
  rw [Progress.after]
  cases hload : loaded sources path with
  | error e =>
    simp only [fileStatus, fileReports, fileComplaints, Nat.max_eq_right hp, List.append_nil]
    exact (gives_loadFile_error h hload hread).bind Run.gives_pure
  | ok o =>
    refine (gives_loadFile_ok h hload).bind ?_
    have hsolved : Run.Gives shared (ExceptT.lift (solve o bounds)) _ [] :=
      Run.gives_lift (gives_solve o)
    cases hw : (o.solve shared bounds).worded with
    | error f =>
      obtain ⟨why, rfl⟩ := exists_mismatch (hload ▸ hsettled) hw
      simp only [fileStatus, fileReports, hw, Nat.max_eq_right hp, List.append_nil] at hsolved ⊢
      exact hsolved.bind ((Run.gives_lift (Work.gives_complain _)).bind Run.gives_pure)
    | ok s =>
      simp only [fileStatus, fileReports, hw, ← raised_eq_max] at hsolved ⊢
      refine hsolved.bind ?_
      cases json with
      | true => exact Run.gives_pure
      | false =>
        simp only [Bool.false_eq_true, if_false, List.append_nil]
        exact (Run.gives_lift (Work.gives_print _)).bind Run.gives_pure

/-- **One round of checking.** -/
lemma gives_checkFile {n : Nat} (hn : n ≤ 2) :
    Run.Gives shared (checkFile sources bounds n path)
      (max n (fileStatus shared bounds (loaded sources path)))
      (fileComplaints shared bounds path (loaded sources path)) := by
  cases hload : loaded sources path with
  | error e =>
    simp only [fileStatus, fileComplaints, Nat.max_eq_right hn]
    exact (gives_loadFile_error h hload hread).bind Run.gives_pure
  | ok o =>
    refine (gives_loadFile_ok h hload).bind ?_
    have hchecked : Run.Gives shared (ExceptT.lift (solveAndCheck o bounds)) _ [] :=
      Run.gives_lift (gives_solveAndCheck o)
    cases hw : (o.solve shared bounds).worded with
    | error f =>
      obtain ⟨why, rfl⟩ := exists_mismatch (hload ▸ hsettled) hw
      simp only [fileStatus, hw, Except.map, Nat.max_eq_right hn] at hchecked ⊢
      exact hchecked.bind ((Run.gives_lift (Work.gives_complain _)).bind Run.gives_pure)
    | ok s =>
      simp only [fileStatus, hw, Except.map, withOpenGoals, ← raised_eq_max] at hchecked ⊢
      refine hchecked.bind ?_
      dsimp only
      rw [if_pos rfl]
      exact (Run.gives_lift (Work.gives_print _)).bind Run.gives_pure

end Rounds

/-! ### Whole runs -/

/-- The largest status of a list of files. -/
def worst (shared : Registry) (bounds : Bounds) (sources : String → Source) (paths : List String) :
    Nat :=
  paths.foldl (fun n path => max n (fileStatus shared bounds (loaded sources path))) 0

/-- The status of a run is the least upper bound of those of the files. -/
lemma isLUB_worst (paths : List String) :
    IsLUB {c | ∃ path ∈ paths, fileStatus shared bounds (loaded sources path) = c}
      (worst shared bounds sources paths) := by
  have hfold : ∀ (paths : List String) (n m : Nat),
      paths.foldl (fun n path => max n (fileStatus shared bounds (loaded sources path))) n ≤ m ↔
        n ≤ m ∧ ∀ path ∈ paths, fileStatus shared bounds (loaded sources path) ≤ m := by
    intro paths
    induction paths with
    | nil => simp
    | cons path paths ih =>
      intro n m
      rw [List.foldl_cons, ih, Nat.max_le, List.forall_mem_cons, and_assoc]
  constructor
  · rintro c ⟨path, hpath, rfl⟩
    exact ((hfold paths 0 _).1 (Nat.le_refl _)).2 path hpath
  · intro m hm
    exact (hfold paths 0 m).2 ⟨Nat.zero_le m, fun path hpath => hm ⟨path, hpath, rfl⟩⟩

lemma worst_perm {paths order : List String} (h : order.Perm paths) :
    worst shared bounds sources order = worst shared bounds sources paths := by
  have hset : {c | ∃ path ∈ order, fileStatus shared bounds (loaded sources path) = c} =
      {c | ∃ path ∈ paths, fileStatus shared bounds (loaded sources path) = c} := by
    ext c
    exact exists_congr fun path => and_congr_left fun _ => h.mem_iff
  exact (isLUB_worst order).unique (hset ▸ isLUB_worst paths)

section AllFiles

variable {paths : List String} (hpure : ∀ path ∈ paths, (sources path).IsPure)
  (hread : ∀ path ∈ paths, ending? (loaded sources path) = none)
  (hsettled : ∀ path ∈ paths, isSettled shared bounds (loaded sources path) = true)

include hpure hread hsettled

/-- A round of proving, with the invariant of the loop: the status is at most 2. -/
lemma round_proveFile (json : Bool) : ∀ path ∈ paths, ∀ p : Progress, p.status ≤ 2 →
    Run.Gives shared (proveFile sources bounds json p path)
      (p.after shared bounds json (loaded sources path))
      (fileComplaints shared bounds path (loaded sources path)) ∧
    (p.after shared bounds json (loaded sources path)).status ≤ 2 := fun path hpath _ hp =>
  ⟨gives_proveFile (hpure path hpath) (hread path hpath) (hsettled path hpath) hp json,
    Nat.max_le.2 ⟨hp, fileStatus_le_two _⟩⟩

lemma round_checkFile : ∀ path ∈ paths, ∀ n, n ≤ 2 →
    Run.Gives shared (checkFile sources bounds n path)
      (max n (fileStatus shared bounds (loaded sources path)))
      (fileComplaints shared bounds path (loaded sources path)) ∧
    max n (fileStatus shared bounds (loaded sources path)) ≤ 2 := fun path hpath _ hn =>
  ⟨gives_checkFile (hpure path hpath) (hread path hpath) (hsettled path hpath) hn,
    Nat.max_le.2 ⟨hn, fileStatus_le_two _⟩⟩

lemma gives_proveAll (json : Bool) :
    Run.Gives shared (proveAll sources bounds json paths) (worst shared bounds sources paths)
      (paths.flatMap fun path => fileComplaints shared bounds path (loaded sources path)) := by
  have hloop : Run.Gives shared (paths.foldlM (proveFile sources bounds json) {}) _ _ :=
    Run.gives_foldlM (fun p => p.status ≤ 2) (Nat.zero_le 2)
      (round_proveFile hpure hread hsettled json)
  -- the status of the loop does not depend on the reports
  have hstatus : worst shared bounds sources paths = (paths.foldl (fun p path =>
      Progress.after shared bounds json p (loaded sources path)) {}).status := by
    show paths.foldl _ (Progress.status {}) = _
    exact List.foldl_hom Progress.status fun _ _ => rfl
  rw [hstatus, ← List.append_nil (List.flatMap _ _)]
  refine hloop.bind ?_
  cases json with
  | true => exact (Run.gives_lift (Work.gives_print _)).bind Run.gives_pure
  | false => exact Run.gives_pure

lemma gives_checkAll :
    Run.Gives shared (checkAll sources bounds paths) (worst shared bounds sources paths)
      (paths.flatMap fun path => fileComplaints shared bounds path (loaded sources path)) :=
  Run.gives_foldlM (· ≤ 2) (Nat.zero_le 2) (round_checkFile hpure hread hsettled)

/-- **A file for which nobody answers ends both commands**, whatever files come after it. -/
lemma breaks_all (after : List String) (h : (sources path).IsPure) {ending : Ending}
    (hends : ending? (loaded sources path) = some ending) :
    (∀ json, Run.Breaks shared (proveAll sources bounds json (paths ++ path :: after)) ending
      (paths.flatMap fun path => fileComplaints shared bounds path (loaded sources path))) ∧
    Run.Breaks shared (checkAll sources bounds (paths ++ path :: after)) ending
      (paths.flatMap fun path => fileComplaints shared bounds path (loaded sources path)) := by
  refine ⟨fun json => Run.Breaks.bind ?_ _, ?_⟩
  · exact Run.breaks_foldlM (fun p : Progress => p.status ≤ 2) (Nat.zero_le 2)
      (round_proveFile hpure hread hsettled json) fun _ => (breaks_loadFile h hends).bind _
  · exact Run.breaks_foldlM (· ≤ 2) (Nat.zero_le 2) (round_checkFile hpure hread hsettled)
      fun _ => (breaks_loadFile h hends).bind _

end AllFiles

/-- **Proving and checking agree on files that can be read.**  Take any files whose factories are
pure and whose obligations come to no fault other than a wrong shape.

* If each of them is text, or is refused by the system, and none ends the program, then both
  commands end with the same status, with or without JSON and in whatever order the files are given.
  It is the largest of the statuses of the files: 2 without an obligation or for one of the wrong
  shape, 1 if a goal is left open, 0 otherwise.  They complain of the same things, file by file.
* Otherwise neither command ends with a status.  Both are ended by the first file that is not text
  or that ends the program, after the complaints about the files before it.
* A certificate is never rejected, and it never leaves other goals open than the solution does. -/
theorem prove_agrees_with_check (sources : String → Source) (shared : Registry) (bounds : Bounds)
    (paths : List String) (hpure : ∀ path ∈ paths, (sources path).IsPure)
    (hsettled : ∀ path ∈ paths, isSettled shared bounds (loaded sources path) = true) :
    ((∀ path ∈ paths, ending? (loaded sources path) = none) →
      ∃ status,
        IsLUB {c | ∃ path ∈ paths, fileStatus shared bounds (loaded sources path) = c} status ∧
        ∀ order, order.Perm paths →
          (∀ json, Run.Gives shared (proveAll sources bounds json order) status
            (order.flatMap fun path => fileComplaints shared bounds path (loaded sources path))) ∧
          Run.Gives shared (checkAll sources bounds order) status
            (order.flatMap fun path => fileComplaints shared bounds path (loaded sources path))) ∧
    (∀ before path after ending, paths = before ++ path :: after →
      (∀ path ∈ before, ending? (loaded sources path) = none) →
      ending? (loaded sources path) = some ending →
      (∀ json, Run.Breaks shared (proveAll sources bounds json paths) ending
        (before.flatMap fun path => fileComplaints shared bounds path (loaded sources path))) ∧
      Run.Breaks shared (checkAll sources bounds paths) ending
        (before.flatMap fun path => fileComplaints shared bounds path (loaded sources path))) ∧
    ∀ path ∈ paths, ∀ o, loaded sources path = .ok o →
      (∃ why, Work.Gives shared (solveAndCheck o bounds) (.error (.mismatch why)) []) ∨
        ∃ s, Work.Gives shared (solveAndCheck o bounds) (.ok (s, s.openGoals)) [] := by
  refine ⟨fun hread => ⟨worst shared bounds sources paths, isLUB_worst paths, ?_⟩, ?_, ?_⟩
  · intro order hperm
    rw [← worst_perm hperm]
    have hmem : ∀ path ∈ order, path ∈ paths := fun path => hperm.mem_iff.1
    have hpure' := fun path h => hpure path (hmem path h)
    have hread' := fun path h => hread path (hmem path h)
    have hsettled' := fun path h => hsettled path (hmem path h)
    exact ⟨gives_proveAll hpure' hread' hsettled', gives_checkAll hpure' hread' hsettled'⟩
  · rintro before path after ending rfl hread hends
    have hmem : ∀ p ∈ before, p ∈ before ++ path :: after := fun p => List.mem_append_left _
    exact breaks_all (fun p h => hpure p (hmem p h)) hread (fun p h => hsettled p (hmem p h)) after
      (hpure path (by simp)) hends
  · intro path hpath o hload
    have hgives : Work.Gives shared (solveAndCheck o bounds) _ [] := gives_solveAndCheck o
    cases hw : (o.solve shared bounds).worded with
    | error f =>
      obtain ⟨why, rfl⟩ := exists_mismatch (hload ▸ hsettled path hpath) hw
      rw [hw] at hgives
      exact .inl ⟨why, hgives⟩
    | ok s =>
      rw [hw] at hgives
      exact .inr ⟨s, hgives⟩

end CommandLine

/-- The built-in files, and one whose contents are not text. -/
def Sample.sources : String → Source
  | "latin.py" => .illegible .undecodable
  | path => Examples.source path

lemma Sample.isPure_sources (path : String) : (Sample.sources path).IsPure := by
  unfold Sample.sources
  split
  · exact trivial
  · exact Examples.isPure_source path

/-- What is said of a file that does not exist. -/
def Sample.complaint : String :=
  "nowhere.py: Could not read file: [Errno 2] No such file or directory: 'nowhere.py'\n"

/-- A file that stays open, one that is closed and one that does not exist come to 2.  With one that
is not text there is no status, though the file that does not exist is complained of. -/
theorem CommandLine.prove_agrees_with_check_sample :
    (∀ json, Run.Gives .default (proveAll Sample.sources {} json
      ["examples/missing_decider.py", "examples/unit_pair.py", "nowhere.py"]) 2
      [Sample.complaint]) ∧
    Run.Breaks .default (checkAll Sample.sources {}
      ["nowhere.py", "latin.py", "examples/unit_pair.py"]) (.illegible .undecodable)
      [Sample.complaint] := by
  constructor
  · obtain ⟨status, hlub, hgives⟩ := (prove_agrees_with_check Sample.sources .default {}
      ["examples/missing_decider.py", "examples/unit_pair.py", "nowhere.py"]
      (fun path _ => Sample.isPure_sources path) (by decide +kernel)).1 (by decide +kernel)
    have hlargest : 2 ≤ status := hlub.1 ⟨"nowhere.py", by simp, by decide +kernel⟩
    obtain rfl : status = 2 := by
      refine Nat.le_antisymm (hlub.2 ?_) hlargest
      rintro c ⟨path, -, rfl⟩
      exact fileStatus_le_two _
    have hcomplaints :
        (["examples/missing_decider.py", "examples/unit_pair.py", "nowhere.py"].flatMap
        fun path => fileComplaints .default {} path (loaded Sample.sources path)) =
        [Sample.complaint] := by
      decide +kernel
    exact hcomplaints ▸ (hgives _ (.refl _)).1
  · exact ((prove_agrees_with_check Sample.sources .default {}
      ["nowhere.py", "latin.py", "examples/unit_pair.py"]
      (fun path _ => Sample.isPure_sources path) (by decide +kernel)).2.1
      ["nowhere.py"] "latin.py" ["examples/unit_pair.py"] _ rfl (by decide +kernel) rfl).2

end UniqueEvidence
