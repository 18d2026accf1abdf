/-
What is written as JSON is read back.

* `DataType.ofJson_of_alike`, `Family.ofJson_of_alike`: declarations are read back, in whatever
  order objects list their members;
* `Environment.ofJson_toJson`: **an environment is accepted again, with its declarations in their
  order**;
* `Goal.symbols`: the names in a goal; `Goal.isTextual_toJson`: if they are texts, the goal is a
  JSON value made of texts;
* `Encoding.roundTrip`: **terms, environments and goals round-trip**, goals through their printed
  text.
-/
import UniqueEvidence.Proofs.JsonAlike
import UniqueEvidence.Proofs.JsonText
import UniqueEvidence.Proofs.Resolution
import UniqueEvidence.Proofs.Sample

namespace UniqueEvidence

/-! ### Terms and goals -/

theorem Term.ofJson_toJson (t : Term) : ofJson t.toJson = .ok t :=
  ofJson_of_alike (.refl _)

theorem Goal.ofJson_toJson (g : Goal) : ofJson g.toJson = .ok g :=
  ofJson_of_alike (.refl _)

/-! ### Declarations -/

lemma DataType.ofJson_of_alike {d : DataType} {j : Json} (h : d.toJson.Alike j) :
    ofJson j = .ok d := by
  rw [ofJson, h.listField "constructors" rfl fun c _ w hw => ?_]
  · simp [h.nameField "name" rfl, pure, Except.pure]
  · rw [hw.nameField "name" rfl, Except.ok_bind_decode,
      hw.listField "arg_types" rfl fun t _ _ => Term.ofJson_of_alike]
    rfl

lemma Family.ofJson_of_alike {f : Family} {j : Json} (h : f.toJson.Alike j) : ofJson j = .ok f := by
  rw [ofJson, h.listField "constructors" rfl fun c _ w hw => ?_]
  · rw [Except.ok_bind_decode, h.nameField "name" rfl, Except.ok_bind_decode,
      h.listField "index_types" rfl fun t _ _ => Term.ofJson_of_alike]
    rfl
  · rw [hw.nameField "name" rfl, Except.ok_bind_decode, hw.listField "binders" rfl fun b _ _ =>
      Binding.ofJson_of_alike, Except.ok_bind_decode, hw.listField "indices" rfl fun t _ _ =>
        Term.ofJson_of_alike]
    rfl

/-- **An environment is accepted again, with its declarations in their order.** -/
theorem Environment.ofJson_toJson (env : Environment) : ofJson env.toJson = .ok env := by
  have hconstants : (env.constants.map fun c => (c.name, c.ty.toJson)).mapM
      (fun p : String × Json => do return { name := p.1, ty := ← Term.ofJson p.2 : Constant }) =
        .ok env.constants := by
    generalize env.constants = constants
    induction constants with
    | nil => rfl
    | cons c constants ih =>
      rw [List.map_cons, List.mapM_cons, ih]
      simp [Term.ofJson_toJson, pure, Except.pure]
  have halike := Json.Alike.refl env.toJson
  rw [ofJson, halike.listField "datatypes" rfl fun d _ _ => DataType.ofJson_of_alike,
    Except.ok_bind_decode, halike.listField "families" rfl fun f _ _ =>
    Family.ofJson_of_alike, Except.ok_bind_decode]
  simp only [toJson, Json.member?, Json.findMember?, String.reduceEq, reduceIte, Option.map_some,
    Json.mapping, Except.ok_bind_decode, hconstants, of?_of_nodup env.distinct]
  rfl

/-! ### Goals as text -/

/-- The names in a term, those that are bound among them. -/
def Term.symbols : Term → List Name
  | var x | const x => [x]
  | sort | unit | tt => []
  | app a b | prod a b | pair a b | refl a b => a.symbols ++ b.symbols
  | lam x ty body | pi x ty body => x :: (ty.symbols ++ body.symbols)
  | eq ty lhs rhs => ty.symbols ++ lhs.symbols ++ rhs.symbols
  | transport head src dst proof value =>
    head.symbols ++ src.symbols ++ dst.symbols ++ proof.symbols ++ value.symbols

/-- The names in a goal. -/
def Goal.symbols (g : Goal) : List Name :=
  g.hyps.flatMap (fun b => b.name :: b.ty.symbols) ++ g.target.symbols

open Json (IsTextual)

lemma Name.isTextual_toJson {x : Name} (h : x.isText = true) : x.toJson.IsTextual := by
  match x, h with
  | .text s, _ => exact .str s

lemma isTextual_obj {members : List (String × Json)} (hkeys : (members.map Prod.fst).Nodup)
    (h : members.map Prod.snd |>.Forall IsTextual) : (Json.obj members).IsTextual := by
  refine .obj hkeys fun p hp => ?_
  exact List.forall_iff_forall_mem.1 h _ (List.mem_map_of_mem hp)

lemma Term.isTextual_toJson {t : Term} (h : ∀ x ∈ t.symbols, x.isText = true) :
    t.toJson.IsTextual := by
  induction t with
  | var x | const x =>
    have hx := Name.isTextual_toJson (h x List.mem_cons_self)
    exact isTextual_obj (by simp) ⟨.str _, hx⟩
  | sort | unit | tt => exact isTextual_obj (by simp) (.str _)
  | lam x ty body hty hbody | pi x ty body hty hbody =>
    simp only [symbols, List.forall_mem_cons, List.forall_mem_append] at h
    exact isTextual_obj (by simp) ⟨.str _, Name.isTextual_toJson h.1, hty h.2.1, hbody h.2.2⟩
  | app a b ha hb | prod a b ha hb | pair a b ha hb | refl a b ha hb =>
    simp only [symbols, List.forall_mem_append] at h
    exact isTextual_obj (by simp) ⟨.str _, ha h.1, hb h.2⟩
  | eq ty lhs rhs hty hlhs hrhs =>
    simp only [symbols, List.forall_mem_append] at h
    exact isTextual_obj (by simp) ⟨.str _, hty h.1.1, hlhs h.1.2, hrhs h.2⟩
  | transport head src dst proof value hhead hsrc hdst hproof hvalue =>
    simp only [symbols, List.forall_mem_append] at h
    obtain ⟨⟨⟨⟨h₁, h₂⟩, h₃⟩, h₄⟩, h₅⟩ := h
    exact isTextual_obj (by simp) ⟨.str _, hhead h₁, hsrc h₂, hdst h₃, hproof h₄, hvalue h₅⟩

/-- A goal whose names are texts is a value made of texts. -/
lemma Goal.isTextual_toJson {g : Goal} (h : ∀ x ∈ g.symbols, x.isText = true) :
    g.toJson.IsTextual := by
  obtain ⟨hhyps, htarget⟩ := List.forall_mem_append.1 h
  refine isTextual_obj (by simp) ⟨.str _, .arr fun j hj => ?_, Term.isTextual_toJson htarget⟩
  obtain ⟨b, hb, rfl⟩ := List.mem_map.1 hj
  have hb' : ∀ x ∈ b.name :: b.ty.symbols, x.isText = true :=
    fun x hx => hhyps x (List.mem_flatMap.2 ⟨b, hb, hx⟩)
  obtain ⟨hname, hty⟩ := List.forall_mem_cons.1 hb'
  exact isTextual_obj (by simp) ⟨Name.isTextual_toJson hname, Term.isTextual_toJson hty⟩

/-- **Terms, environments and goals round-trip.**  A term is read back from its JSON value, whatever
its names are.  An environment is accepted again and is the same, the order of its declarations
included.  A goal whose names are texts is read back from its printed text, which consists of
printable ASCII and line ends, whatever characters the names hold. -/
theorem Encoding.roundTrip :
    (∀ t : Term, Term.ofJson t.toJson = .ok t) ∧
    (∀ env : Environment, Environment.ofJson env.toJson = .ok env) ∧
    ∀ g : Goal, (∀ x ∈ g.symbols, x.isText = true) →
      (∀ c ∈ g.write.toList, Json.IsPrinted c) ∧ Goal.read g.write = .ok g := by
  refine ⟨Term.ofJson_toJson, Environment.ofJson_toJson, fun g hg => ?_⟩
  have htextual := Goal.isTextual_toJson hg
  refine ⟨Json.isPrinted_write htextual, ?_⟩
  rw [Goal.read, Goal.write, Json.read_write htextual]
  exact g.ofJson_toJson

/-- A goal with names that hold a quote, a line end, a letter outside ASCII and one outside the
basic plane. -/
theorem Encoding.roundTrip_sample : ∃ g : Goal, g.names = ["\"\\", "a\nb", "é", "𝔹"] ∧
    (∀ x ∈ g.symbols, x.isText = true) ∧ (∀ c ∈ g.write.toList, Json.IsPrinted c) ∧
      Goal.read g.write = .ok g := by
  have htext :
      ∀ x ∈
      (Goal.mk [⟨"\"\\", .sort⟩, ⟨"a\nb", .var "\"\\"⟩, ⟨"é", .unit⟩,
      ⟨"𝔹", .eq .unit (.var "é") .tt⟩]
      (.pi "𝔹" .unit (.eq .unit (.var "𝔹") .tt))).symbols, x.isText = true := by decide
  exact ⟨_, rfl, htext, roundTrip.2.2 _ htext⟩

end UniqueEvidence
