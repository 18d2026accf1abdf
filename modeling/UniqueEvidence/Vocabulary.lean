/-
The vocabulary of obligation files.

* `vocabulary`: the names that a file can use without defining them, in their order.  A file may
  give them a meaning of its own, which does not change their places.
-/
namespace UniqueEvidence

/-- Names for terms, declarations, goals, certificates, deciders, results and errors, and the
functions that build them, in order. -/
def vocabulary : List String :=
  ["App", "Const", "Eq", "Lam", "Pair", "Pi", "Prod", "Refl", "Sort", "Term", "Transport", "Tt",
    "Unit", "Var", "Binder", "DataCtor", "DataType", "Environment", "Family", "FamilyCtor",
    "HTuple", "TypeList", "Goal", "Hyp", "Kernel", "Hole", "ProofStep", "replay", "Decider",
    "DeciderRegistry", "global_registry", "register_datatype", "structural_decider",
    "MissingDecider", "RuleError", "StructuralMismatch", "UniquenessError", "UnresolvedBranch",
    "EngineConfig", "BranchReport", "BranchStatus", "OpenReason", "UniquenessResult", "uniqueness",
    "Obligation", "dumps", "loads", "Ok", "Err", "Result", "app", "c", "v", "ap", "eq", "unit",
    "tt", "prod", "pair", "ctor", "data", "fctor", "family", "goal"]

end UniqueEvidence
