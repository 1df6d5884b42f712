import Clausal.Advance
import Clausal.Ancestry
import Clausal.Apart
import Clausal.Association
import Clausal.Axioms.Equality
import Clausal.Axioms.UniqueNames
import Clausal.Chaining.Backward
import Clausal.Chaining.Base
import Clausal.Chaining.Explain
import Clausal.Chaining.Forward
import Clausal.Chaining.Store
import Clausal.Clause
import Clausal.Decimal
import Clausal.Distinct
import Clausal.Explain
import Clausal.Format.Derivation
import Clausal.Format.Formula
import Clausal.Format.Label
import Clausal.Format.Origin
import Clausal.Formula
import Clausal.Ident
import Clausal.Index.Discrimination
import Clausal.Index.Element
import Clausal.Index.Feature
import Clausal.Index.FeatureVector
import Clausal.Index.Path
import Clausal.Index.ScalarFeature
import Clausal.Index.TermIndex
import Clausal.Index.Trie
import Clausal.KnowledgeBase
import Clausal.Matching
import Clausal.Names
import Clausal.Node
import Clausal.Node.Application
import Clausal.Node.Bindings
import Clausal.Node.Build
import Clausal.Node.Lookup
import Clausal.Node.Operation
import Clausal.Node.Resolution
import Clausal.Node.Unification
import Clausal.Normal.Cnf
import Clausal.Normal.Matrix
import Clausal.Normal.Negation
import Clausal.Normal.Skolem
import Clausal.Normal.Standard
import Clausal.Ordinal
import Clausal.Part
import Clausal.Proofs.Normal.Cnf
import Clausal.Proofs.Normal.Matrix
import Clausal.Proofs.Normal.Negation
import Clausal.Proofs.Normal.Skolem
import Clausal.Proofs.Normal.Standard
import Clausal.Proofs.Normal.Universal
import Clausal.Proofs.Distinct
import Clausal.Proofs.Semantics
import Clausal.Proofs.Term
import Clausal.Reasoner
import Clausal.Resolution.Agenda
import Clausal.Resolution.Base
import Clausal.Resolution.Explain
import Clausal.Resolution.Refutation
import Clausal.Resolution.Resolvent
import Clausal.Resolution.Strategy
import Clausal.Scalar
import Clausal.Settings.LogLevel
import Clausal.Settings.Placeholder
import Clausal.Settings.Scalar
import Clausal.Settings.Value
import Clausal.Substitution
import Clausal.Subsumption
import Clausal.Term
import Clausal.Text.Case
import Clausal.Text.CharRanges
import Clausal.Text.Printable
import Clausal.Text.Quoted
import Clausal.Text.Word
import Clausal.Tptp.Document
import Clausal.Tptp.Grammar
import Clausal.Tptp.Token
import Clausal.Unification
import Clausal.Proofs.Substitution
import Clausal.Proofs.Unification
import Clausal.Proofs.Resolution.Resolvent
import Clausal.Proofs.Resolution.Search
import Clausal.Proofs.Resolution.Soundness
import Clausal.Proofs.Clause
import Clausal.Proofs.MostGeneral
import Clausal.Proofs.Resolution.Propositional
import Clausal.Proofs.Resolution.Saturation
import Clausal.Proofs.Resolution.Completeness
import Clausal.Proofs.Resolution.Factoring
import Clausal.Proofs.Resolution.Ground
import Clausal.Proofs.Chaining.Store
import Clausal.Proofs.Chaining.LinearScan
import Clausal.Proofs.Chaining.Steps
import Clausal.Proofs.Chaining.Soundness
import Clausal.Proofs.Matching
import Clausal.Proofs.Chaining.Completeness
import Clausal.Proofs.Chaining.Exhaustion
import Clausal.Proofs.Index.Trie
import Clausal.Proofs.Subsumption
import Clausal.Proofs.Index.Feature
import Clausal.Proofs.Index.Walks
import Clausal.Proofs.Index.Retrieval
import Clausal.Proofs.Index.Removal
import Clausal.Proofs.Index.Replacement
import Clausal.Proofs.Ordinal
import Clausal.Proofs.Index.TermIndex
import Clausal.Proofs.Index.Spelling
import Clausal.Proofs.Index.Alignment
import Clausal.Proofs.Index.Discrimination
import Clausal.Proofs.Index.Path
import Clausal.Proofs.Resolution.Pairing
import Clausal.Proofs.Axioms.Congruence
import Clausal.Proofs.Axioms.Telling
import Clausal.Proofs.Axioms.Equality
import Clausal.Proofs.Tptp.Derivation
import Clausal.Proofs.Tptp.Completeness
import Clausal.Proofs.Tptp.Scanning
import Clausal.Proofs.Tptp.Document
import Clausal.Proofs.Axioms.Refusal
import Clausal.Proofs.Respelling.Expression
import Clausal.Proofs.Respelling.Unification
import Clausal.Proofs.Respelling.Resolution
import Clausal.Proofs.Relabelling.Expression
import Clausal.Proofs.Relabelling.Unification
import Clausal.Proofs.Relabelling.Normal
import Clausal.Proofs.Relabelling.Resolution
import Clausal.Proofs.Relabelling.Chaining
import Clausal.Proofs.Relabelling.Growth
import Clausal.Proofs.Relabelling.Session
import Clausal.Proofs.Subsumption.Orientation
import Clausal.Proofs.Unification.Recursion
import Clausal.Proofs.Unification.Termination
import Clausal.Proofs.Normal.Scopes
import Clausal.Proofs.Normal.Freshness
import Clausal.Proofs.Matching.Exactness
import Clausal.Proofs.Substitution.Capture
import Clausal.Proofs.Substitution.Composition
import Clausal.Proofs.Subsumption.Variants
import Clausal.Proofs.Normal.Alpha
import Clausal.Proofs.Normal.Extraction
import Clausal.Proofs.Unification.Symmetry
import Clausal.Proofs.Resolution.Renaming
import Clausal.Proofs.Ancestry
import Clausal.Proofs.Resolution.Record
import Clausal.Proofs.Resolution.Graph
import Clausal.Proofs.Resolution.Explanation
import Clausal.Proofs.Vocabulary
import Clausal.Proofs.Chaining.Termination
import Clausal.Proofs.Association
import Clausal.Proofs.Chaining.Grounding
import Clausal.Proofs.Chaining.ProofSteps
import Clausal.Proofs.Chaining.Record
import Clausal.Proofs.Chaining.Usefulness
import Clausal.Proofs.Index.Monotone
import Clausal.Proofs.Index.Shape
import Clausal.Proofs.Tptp.Printing
import Clausal.Proofs.Axioms.UniqueNames
import Clausal.Proofs.Format.Label
import Clausal.Proofs.Format.Readability
import Clausal.Proofs.Format.Subscript
import Clausal.Proofs.Index.Canonical
import Clausal.Proofs.Unification.Occurrence
