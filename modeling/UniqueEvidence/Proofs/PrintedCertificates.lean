/-
A printed certificate determines the proof.

* `Argument.ofJson_of_alike`: arguments are written untagged into one space of values, and still
  read back: a term is an object, a tuple a list, and an atom neither;
* `Certificate.ofJson_of_alike`: certificates are read back, in whatever order objects list their
  members;
* `Certificate.ofReport`, `Certificate.ofReports`: the certificate in a report, and those in the
  text of a list of reports;
* `Certificate.determined_by_print`: **different proofs are printed differently, and those in
  reports replay like the originals**.
-/
import UniqueEvidence.Proofs.JsonAlike
import UniqueEvidence.Proofs.JsonText
import UniqueEvidence.Proofs.Outcome
import UniqueEvidence.Proofs.Sample
import UniqueEvidence.Uniqueness.Report

namespace UniqueEvidence

open Json (Alike)

/-! ### Arguments -/

/-- Terms, and nothing else among arguments, are objects. -/
lemma Term.toJson_eq_obj (t : Term) : ∃ members, t.toJson = .obj members := by
  cases t <;> exact ⟨_, rfl⟩

namespace Argument

mutual

/-- **An argument is read back**: the kind of the value tells what it is. -/
theorem ofJson_of_alike : ∀ {a : Argument} {j : Json}, a.toJson.Alike j → ofJson j = .ok a
  | term t, j, h => by
    rw [toJson] at h
    have hterm := Term.ofJson_of_alike h
    -- The reader goes by the kind of the value, before it looks at any tag.
    obtain ⟨members, hmembers⟩ := t.toJson_eq_obj
    rw [hmembers] at h
    cases h
    rw [ofJson, hterm]
    rfl
  | atom a, j, h => by
    rw [toJson] at h
    cases a <;> cases h <;> rfl
  | tuple args, j, h => by
    rw [toJson] at h
    cases h with
    | arr h =>
      rw [ofJson, ofJsonAll_of_alike h]
      rfl

theorem ofJsonAll_of_alike :
    ∀ {args : List Argument} {items : List Json}, List.Forall₂ Alike (toJsonAll args) items →
    ofJsonAll items = .ok args
  | [], items, h => by
    rw [toJsonAll] at h
    cases h
    rfl
  | a :: args, items, h => by
    rw [toJsonAll] at h
    cases h with
    | cons ha hargs =>
      rw [ofJsonAll, ofJson_of_alike ha, ofJsonAll_of_alike hargs]
      rfl

end

lemma toJsonAll_eq_map (args : List Argument) : toJsonAll args = args.map toJson := by
  induction args with
  | nil => rw [toJsonAll, List.map_nil]
  | cons a args ih => rw [toJsonAll, ih, List.map_cons]

end Argument

/-! ### Certificates -/

lemma Atom.atom_of_alike {a : Atom} {j : Json} (h : a.toJson.Alike j) : j.atom = .ok a := by
  cases a <;> cases h <;> rfl

namespace Certificate

lemma call_of_alike {call : Call} {children : List Certificate} {j : Json}
    (h : (step call children).toJson.Alike j) : Call.ofJson j = .ok call := by
  rw [toJson] at h
  obtain ⟨rule', _, hrule', hrule⟩ := h.read "rule" rfl Atom.atom_of_alike
  have hargs := h.listField "args" (by rw [Argument.toJsonAll_eq_map]; rfl) fun a _ _ =>
    Argument.ofJson_of_alike
  rw [Call.ofJson, hrule', Except.ok_bind_decode, hrule, Except.ok_bind_decode, hargs]
  rfl

mutual

/-- **A certificate is read back.** -/
theorem ofJson_of_alike : ∀ {p : Certificate} {j : Json}, p.toJson.Alike j → ofJson j = .ok p
  | hole goal, j, h => by
    rw [toJson] at h
    obtain ⟨_, htag⟩ := h.text "type" rfl
    obtain ⟨goal', _, hgoal', hgoal⟩ := h.read "goal" rfl Goal.ofJson_of_alike
    rw [ofJson, htag]
    simp [hgoal', hgoal, pure, Except.pure]
  | step call children, j, h => by
    have hcall := call_of_alike h
    rw [toJson] at h
    obtain ⟨_, htag⟩ := h.text "type" rfl
    obtain ⟨children', _, hchildren', halike⟩ := h.field "children" rfl
    cases halike with
    | arr hitems =>
      rw [ofJson, htag]
      simp [hcall, hchildren', Json.objects, mapM_of_alike hitems, pure, Except.pure]

theorem mapM_of_alike :
    ∀ {ps : List Certificate} {items : List Json}, List.Forall₂ Alike (toJsonAll ps) items →
    items.mapM ofJson = .ok ps
  | [], items, h => by
    rw [toJsonAll] at h
    cases h
    rfl
  | p :: ps, items, h => by
    rw [toJsonAll] at h
    cases h with
    | cons hp hps =>
      rw [List.mapM_cons, ofJson_of_alike hp, mapM_of_alike hps]
      rfl

end

/-! ### Reports -/

/-- The certificate in a report. -/
def ofReport (report : Json) : Except DecodeError Certificate := do
  ofJson (← report.field "proof").1

/-- The certificates in the text of a list of reports. -/
def ofReports (text : String) : Except DecodeError (List Certificate) := do
  let reports ← (← (Json.read text).mapError .unreadable).elements
  reports.mapM ofReport

lemma ofReport_of_alike {s : Solution} {name j : Json} (h : (s.toJson name).Alike j) :
    ofReport j = .ok s.proof := by
  obtain ⟨proof', _, hproof', hproof⟩ := h.read "proof" rfl ofJson_of_alike
  rw [ofReport, hproof']
  exact hproof

/-- Reports are read back from their text. -/
lemma ofReports_write {results : List (Solution × Json)}
    (h : (Json.arr (results.map fun r => r.1.toJson r.2)).IsTextual) :
    ofReports (Json.arr (results.map fun r => r.1.toJson r.2)).write =
      .ok (results.map fun r => r.1.proof) := by
  rw [ofReports, Json.read_write h]
  exact Alike.mapM (List.forall₂_same.2 fun j _ => .refl j) fun r _ _ => ofReport_of_alike

/-- **A printed certificate determines the proof.**  Two certificates have the same value, up to the
order of members, only if they are the same.  From such a value the certificate is read back, and
replays like the original.  So do the certificates in the text of a list of reports, as far as text
denotes them: there must be no fractions in it, and no number with more digits than are read. -/
theorem determined_by_print : (∀ p q : Certificate, p.toJson.Alike q.toJson ↔ p = q) ∧
    (∀ (p : Certificate) (j : Json), p.toJson.Alike j →
      ofJson j = .ok p ∧
        ∀ (k : Kernel) (goal : Goal), (ofJson j).map (k.replay goal) = .ok (k.replay goal p)) ∧
    ∀ results : List (Solution × Json), (Json.arr (results.map fun r => r.1.toJson r.2)).IsTextual →
      ofReports (Json.arr (results.map fun r => r.1.toJson r.2)).write =
        .ok (results.map fun r => r.1.proof) := by
  refine ⟨fun p q => ⟨fun h => ?_, ?_⟩, fun p j h => ?_, fun results => ofReports_write⟩
  · have hread := ofJson_of_alike h
    rw [ofJson_of_alike (.refl q.toJson)] at hread
    exact (Except.ok.inj hread).symm
  · rintro rfl
    exact .refl _
  · rw [ofJson_of_alike h]
    exact ⟨rfl, fun _ _ => rfl⟩

/-- The report of a run that closes its goal. -/
theorem determined_by_print_sample :
    ∃ s, ((Sample.kernel Sample.registry).solve Sample.goal 1 {}).outcome = .ok s ∧
    s.isClosed = true ∧ (Json.arr [s.toJson (.str "node")]).IsTextual ∧
    ofReports (Json.arr [s.toJson (.str "node")]).write = .ok [s.proof] := by
  have hrun : ((Sample.kernel Sample.registry).solve Sample.goal 1 {}).outcome.toOption.map
      (fun s => (s.isClosed, (Json.arr [s.toJson (.str "node")]).isTextual)) =
        some (true, true) := by decide +kernel
  obtain ⟨s, hs, hreport⟩ := Option.map_eq_some_iff.1 hrun
  obtain ⟨hclosed, htextual⟩ := Prod.mk.inj hreport
  have htextual' := (Json.isTextual_iff _).1 htextual
  exact ⟨s, Except.toOption_eq_some.1 hs, hclosed, htextual',
    determined_by_print.2.2 [(s, .str "node")] htextual'⟩

end Certificate

end UniqueEvidence
