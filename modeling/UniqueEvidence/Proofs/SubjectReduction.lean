/-
Normalisation keeps types.

* `Term.convertible_of_isNormal`: convertible normal forms are found to be so at every depth that
  looks through them;
* `Kernel.infer_of_normalize`: **the normal form of a term that has a type is not refused, and gets
  a convertible type**.

The context need not be made of types, nor do the heads of transports have to be families: a term
that is accepted has a type in the calculus, computation keeps it, and what has a type there is
accepted.
-/
import UniqueEvidence.Proofs.Preservation
import UniqueEvidence.Proofs.Sample

namespace UniqueEvidence

/-- Convertible normal forms are found to be convertible, as soon as the depth allows to look
through them. -/
lemma Term.convertible_of_isNormal {a b : Term} (h : a.nameless.Conv b.nameless)
    (ha : a.nameless.IsNormal) (hb : b.nameless.IsNormal) {depth : Nat} (hda : a.size ≤ depth)
    (hdb : b.size ≤ depth) : convertible depth a b = some true := by
  have halpha : a.alphaEq b = true := alphaEq_iff.2 (h.eq_of_normal ha hb)
  simp [convertible, normalize_of_isNormal ha hda, normalize_of_isNormal hb hdb, halpha]

namespace Kernel

/-- **Normalisation keeps types**, over closed declarations and a context that mentions only itself:
if a term over the context gets a type and has a normal form, then inference at any depth gives the
normal form a convertible type, or runs out. -/
theorem infer_of_normalize (k : Kernel) (hclosed : k.env.Closed) (ctx : Context)
    (hmentions : ∀ b ∈ ctx, b.ty.freeVars ⊆ Binding.names ctx) (t : Term)
    (ht : t.freeVars ⊆ Binding.names ctx) (T : Term) (h : k.infer ctx t = .ok T) (reach : Nat)
    (t' : Term) (hnormal : t.normalize reach = some t') (depth : Nat) :
    UpToDepth ({ k with depth }.infer ctx t') fun T' =>
      ∃ n, ∀ d ≥ n, Term.convertible d T' T = some true := by
  have hscoped : ctx.Scoped .strict := fun b hb x hx => hmentions b hb (Term.occurs_nameless.1 hx)
  have hpermits : ctx.Permits .strict t := fun x hx => ht (Term.occurs_nameless.1 hx)
  have hreduces : t.nameless.Reduces t'.nameless := (Term.normalize_spec hnormal).1
  -- down to the calculus, a step there, and back
  have htyped := inferAt_sound k hclosed .strict k.depth hscoped hpermits h
  have htyped' := htyped.reduces hreduces (Discipline.admits_strict _)
  have hresult :=
    inferAt_complete { k with depth } hclosed depth hscoped (hpermits.reduces hreduces) htyped'
  refine hresult.imp fun T' _ hT' => ⟨max T'.size T.size, fun d hd => ?_⟩
  exact Term.convertible_of_isNormal hT'.1 hT'.2 (isNormal_of_inferAt h) (by omega) (by omega)

end Kernel

namespace Sample

/-- The tree `x`. -/
def oneTree : Context :=
  [⟨"x", .const "shape"⟩]

/-- Evidence of a tree is carried from the tree to itself, by a function that is applied to `x`. -/
def carriedBack : Term :=
  .app (.lam "z" (.const "shape") (.lam "w" (.app (.const "S") (.var "z"))
      (.transport (.const "S") (.pair (.var "z") .tt) (.pair (.var "z") .tt)
        (.refl (.prod (.const "shape") .unit) (.pair (.var "z") .tt)) (.var "w"))))
    (.var "x")

/-- Evidence of `x`, as it is. -/
def identity : Term :=
  .lam "w" (.app (.const "S") (.var "x")) (.var "w")

end Sample

/-- Both steps compute in `Sample.carriedBack`, which has the type of a function from `S x` to
`S x`. -/
theorem Kernel.infer_of_normalize_sample : Sample.carriedBack.normalize 10 = some Sample.identity ∧
    UpToDepth ((Sample.kernel .default).infer Sample.oneTree Sample.identity) fun T' =>
      ∃ n, ∀ d ≥ n, Term.convertible d T'
      (.pi "w" (.app (.const "S") (.var "x")) (.app (.const "S") (.var "x"))) = some true := by
  have hnormal : Sample.carriedBack.normalize 10 = some Sample.identity := by decide +kernel
  have hinfer : (Sample.kernel .default).infer Sample.oneTree Sample.carriedBack =
      .ok (.pi "w" (.app (.const "S") (.var "x")) (.app (.const "S") (.var "x"))) :=
    Except.toOption_eq_some.1 (by decide +kernel)
  have hclosed : (Sample.kernel .default).env.Closed := by
    have hformed : (Sample.kernel .default).WellFormed :=
      ⟨by decide +kernel, by decide +kernel, by decide +kernel⟩
    exact hformed.typed.closed
  exact ⟨hnormal, infer_of_normalize (Sample.kernel .default) hclosed Sample.oneTree
    (by decide) Sample.carriedBack (by decide) _ hinfer 10 _ hnormal 40⟩

end UniqueEvidence
