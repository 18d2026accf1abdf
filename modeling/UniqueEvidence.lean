import UniqueEvidence.Argument
import UniqueEvidence.Certificate
import UniqueEvidence.CommandLine.Arguments
import UniqueEvidence.CommandLine.Help
import UniqueEvidence.CommandLine.Run
import UniqueEvidence.Decider
import UniqueEvidence.Encoding.Basic
import UniqueEvidence.Encoding.Certificate
import UniqueEvidence.Encoding.Declarations
import UniqueEvidence.Encoding.ObligationFile
import UniqueEvidence.Encoding.Registry
import UniqueEvidence.Encoding.Term
import UniqueEvidence.Environment
import UniqueEvidence.Examples
import UniqueEvidence.Fault
import UniqueEvidence.Goal
import UniqueEvidence.Json.Basic
import UniqueEvidence.Json.Reader
import UniqueEvidence.Json.Writer
import UniqueEvidence.Kernel.Apply
import UniqueEvidence.Kernel.Basic
import UniqueEvidence.Kernel.Case
import UniqueEvidence.Kernel.Order
import UniqueEvidence.Kernel.Rules
import UniqueEvidence.Kernel.Search
import UniqueEvidence.Kernel.Typing
import UniqueEvidence.Log
import UniqueEvidence.Main
import UniqueEvidence.Name
import UniqueEvidence.Number.Double
import UniqueEvidence.Number.Shortest
import UniqueEvidence.Obligation
import UniqueEvidence.ObligationFile
import UniqueEvidence.Proofs.Adequacy
import UniqueEvidence.Proofs.Agreement
import UniqueEvidence.Proofs.AlphaEquality
import UniqueEvidence.Proofs.BranchWork
import UniqueEvidence.Proofs.Canonicity
import UniqueEvidence.Proofs.CaseAnalysis
import UniqueEvidence.Proofs.CasePreservation
import UniqueEvidence.Proofs.Commands
import UniqueEvidence.Proofs.Comparisons
import UniqueEvidence.Proofs.Consistency
import UniqueEvidence.Proofs.ConstructorOrder
import UniqueEvidence.Proofs.Constructors
import UniqueEvidence.Proofs.Containment
import UniqueEvidence.Proofs.Course
import UniqueEvidence.Proofs.Currying
import UniqueEvidence.Proofs.Deciders
import UniqueEvidence.Proofs.Declarations
import UniqueEvidence.Proofs.Demands
import UniqueEvidence.Proofs.DependencyOrder
import UniqueEvidence.Proofs.Destructuring
import UniqueEvidence.Proofs.Endings
import UniqueEvidence.Proofs.Equational
import UniqueEvidence.Proofs.Erasure
import UniqueEvidence.Proofs.EvidenceTyping
import UniqueEvidence.Proofs.FirstOrder
import UniqueEvidence.Proofs.FirstOrderEquations
import UniqueEvidence.Proofs.FirstOrderTyping
import UniqueEvidence.Proofs.Fresh
import UniqueEvidence.Proofs.Freshening
import UniqueEvidence.Proofs.GroundModel
import UniqueEvidence.Proofs.Holes
import UniqueEvidence.Proofs.Inference
import UniqueEvidence.Proofs.JsonAlike
import UniqueEvidence.Proofs.JsonNumbers
import UniqueEvidence.Proofs.JsonText
import UniqueEvidence.Proofs.Kinding
import UniqueEvidence.Proofs.Loading
import UniqueEvidence.Proofs.Monotonicity
import UniqueEvidence.Proofs.MotiveMeaning
import UniqueEvidence.Proofs.Motives
import UniqueEvidence.Proofs.Nameless
import UniqueEvidence.Proofs.NormalForm
import UniqueEvidence.Proofs.Normalisation
import UniqueEvidence.Proofs.Numbering
import UniqueEvidence.Proofs.Opening
import UniqueEvidence.Proofs.Outcome
import UniqueEvidence.Proofs.Preconditions
import UniqueEvidence.Proofs.Preservation
import UniqueEvidence.Proofs.PrintedCertificates
import UniqueEvidence.Proofs.Reduction
import UniqueEvidence.Proofs.Registration
import UniqueEvidence.Proofs.Regularity
import UniqueEvidence.Proofs.RenamedRules
import UniqueEvidence.Proofs.RenamedRuns
import UniqueEvidence.Proofs.Renaming
import UniqueEvidence.Proofs.Replay
import UniqueEvidence.Proofs.Reports
import UniqueEvidence.Proofs.Resolution
import UniqueEvidence.Proofs.RoundTrip
import UniqueEvidence.Proofs.Sample
import UniqueEvidence.Proofs.ScopedRuns
import UniqueEvidence.Proofs.Scoping
import UniqueEvidence.Proofs.SearchCompleteness
import UniqueEvidence.Proofs.SimpleTypes
import UniqueEvidence.Proofs.Simplification
import UniqueEvidence.Proofs.Smallness
import UniqueEvidence.Proofs.SoundRuns
import UniqueEvidence.Proofs.Soundness
import UniqueEvidence.Proofs.Spine
import UniqueEvidence.Proofs.SubjectReduction
import UniqueEvidence.Proofs.Substitution
import UniqueEvidence.Proofs.Telescope
import UniqueEvidence.Proofs.Translation
import UniqueEvidence.Proofs.TreeModel
import UniqueEvidence.Proofs.Trees
import UniqueEvidence.Proofs.Truth
import UniqueEvidence.Proofs.Typing
import UniqueEvidence.Proofs.Unification
import UniqueEvidence.Proofs.Visits
import UniqueEvidence.Proofs.Weakening
import UniqueEvidence.Session
import UniqueEvidence.Settings.Assignment
import UniqueEvidence.Settings.Basic
import UniqueEvidence.Settings.Number
import UniqueEvidence.Settings.Variables
import UniqueEvidence.Term.Alpha
import UniqueEvidence.Term.Basic
import UniqueEvidence.Term.Describe
import UniqueEvidence.Term.Fresh
import UniqueEvidence.Term.Normal
import UniqueEvidence.Term.Render
import UniqueEvidence.Term.Subst
import UniqueEvidence.Term.Tuple
import UniqueEvidence.Text.Classes
import UniqueEvidence.Text.Printable
import UniqueEvidence.Text.Quoted
import UniqueEvidence.Uniqueness.Branch
import UniqueEvidence.Uniqueness.Comparison
import UniqueEvidence.Uniqueness.IndexEquation
import UniqueEvidence.Uniqueness.Motive
import UniqueEvidence.Uniqueness.Report
import UniqueEvidence.Uniqueness.Solution
import UniqueEvidence.Uniqueness.Trail
import UniqueEvidence.Vocabulary
