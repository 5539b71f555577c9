import GraphQuery.Atom.Basic
import GraphQuery.Atom.Derivation
import GraphQuery.Atom.Family
import GraphQuery.Atom.Key
import GraphQuery.Collection.Distinct
import GraphQuery.Collection.Picks
import GraphQuery.Collection.SortedMap
import GraphQuery.Collection.SortedSet
import GraphQuery.Compilation.Insert
import GraphQuery.Compilation.Match
import GraphQuery.Compilation.Settings
import GraphQuery.Decimal.Double
import GraphQuery.Decimal.Shortest
import GraphQuery.Digest.Atom
import GraphQuery.Digest.Basic
import GraphQuery.Digest.Fragment
import GraphQuery.Digest.Statement
import GraphQuery.Insert.Draft
import GraphQuery.Insert.Error
import GraphQuery.Insert.Execution
import GraphQuery.Insert.Lowering
import GraphQuery.Insert.Plan
import GraphQuery.Insert.Producers
import GraphQuery.Insert.Schedule
import GraphQuery.Insert.Writer
import GraphQuery.Json.Basic
import GraphQuery.Json.Token
import GraphQuery.Pattern.Basic
import GraphQuery.Pattern.NormalForm
import GraphQuery.Pattern.Validation
import GraphQuery.Proofs.Atom.Classes
import GraphQuery.Proofs.Atom.Correspondence
import GraphQuery.Proofs.Atom.Family
import GraphQuery.Proofs.Atom.Index
import GraphQuery.Proofs.Atom.Invariance
import GraphQuery.Proofs.Atom.Key
import GraphQuery.Proofs.Atom.Subsumption
import GraphQuery.Proofs.Collection.Distinct
import GraphQuery.Proofs.Collection.Lexicographic
import GraphQuery.Proofs.Collection.Lists
import GraphQuery.Proofs.Compilation.Binding
import GraphQuery.Proofs.Compilation.Denial
import GraphQuery.Proofs.Compilation.Fresh
import GraphQuery.Proofs.Compilation.Match
import GraphQuery.Proofs.Digest.Shape
import GraphQuery.Proofs.Insert.Contribution
import GraphQuery.Proofs.Insert.Creation
import GraphQuery.Proofs.Insert.Cycle
import GraphQuery.Proofs.Insert.Dependencies
import GraphQuery.Proofs.Insert.Execution
import GraphQuery.Proofs.Insert.Extension
import GraphQuery.Proofs.Insert.Plan
import GraphQuery.Proofs.Insert.Schedule
import GraphQuery.Proofs.Insert.Trace
import GraphQuery.Proofs.Insert.Truth
import GraphQuery.Proofs.Pattern.Acceptance
import GraphQuery.Proofs.Pattern.Bound
import GraphQuery.Proofs.Pattern.Collapse
import GraphQuery.Proofs.Pattern.Congruence
import GraphQuery.Proofs.Pattern.Distribution
import GraphQuery.Proofs.Pattern.Equality
import GraphQuery.Proofs.Pattern.Expansion
import GraphQuery.Proofs.Pattern.Fixpoint
import GraphQuery.Proofs.Pattern.Guard
import GraphQuery.Proofs.Pattern.Lexicographic
import GraphQuery.Proofs.Pattern.Meaning
import GraphQuery.Proofs.Pattern.Order
import GraphQuery.Proofs.Pattern.Parts
import GraphQuery.Proofs.Query.Equality
import GraphQuery.Proofs.Query.Equivalence
import GraphQuery.Proofs.Query.Interchange
import GraphQuery.Proofs.Query.Meaning
import GraphQuery.Proofs.Query.Renaming
import GraphQuery.Proofs.Statement.Alignment
import GraphQuery.Proofs.Statement.Equality
import GraphQuery.Proofs.Statement.Units
import GraphQuery.Proofs.Store.Adjacency
import GraphQuery.Proofs.Store.Consistency
import GraphQuery.Proofs.Store.Datatypes
import GraphQuery.Proofs.Store.Definition
import GraphQuery.Proofs.Store.Edges
import GraphQuery.Proofs.Store.Evolution
import GraphQuery.Proofs.Store.Facts
import GraphQuery.Proofs.Store.Inheritance
import GraphQuery.Proofs.Store.Interchange
import GraphQuery.Proofs.Store.Observation
import GraphQuery.Proofs.Store.Operation
import GraphQuery.Proofs.Store.Permanence
import GraphQuery.Proofs.Store.Refusal
import GraphQuery.Proofs.Store.Repetition
import GraphQuery.Proofs.Traversal.Components
import GraphQuery.Proofs.Traversal.Lowering
import GraphQuery.Proofs.Traversal.Order
import GraphQuery.Proofs.Traversal.Plan
import GraphQuery.Proofs.Traversal.Supply
import GraphQuery.Proofs.Unifier.Algebra
import GraphQuery.Proofs.Unifier.Existence
import GraphQuery.Proofs.Unifier.Generality
import GraphQuery.Proofs.Unifier.Placement
import GraphQuery.Proofs.Unifier.RolePairing
import GraphQuery.Proofs.Unifier.Rule
import GraphQuery.Proofs.Unifier.Search
import GraphQuery.Proofs.Unifier.Substitution
import GraphQuery.Proofs.Unifier.TargetMap
import GraphQuery.Proofs.Unifier.Translation
import GraphQuery.Proofs.Unifier.Unification
import GraphQuery.Query.Basic
import GraphQuery.Query.Equivalence
import GraphQuery.Statement.Basic
import GraphQuery.Statement.Build
import GraphQuery.Statement.Shape
import GraphQuery.Statement.Text
import GraphQuery.Statement.Units
import GraphQuery.Store.Basic
import GraphQuery.Store.Error
import GraphQuery.Store.Growth
import GraphQuery.Store.LabelTable
import GraphQuery.Store.Writing
import GraphQuery.Term.Answer
import GraphQuery.Term.Concept
import GraphQuery.Term.Predicate
import GraphQuery.Term.Value
import GraphQuery.Term.Variable
import GraphQuery.Text.GraphemeExtend
import GraphQuery.Text.Quoted
import GraphQuery.Text.Unprintable
import GraphQuery.Traversal.Fragment
import GraphQuery.Traversal.Lowering
import GraphQuery.Traversal.Plan
import GraphQuery.Unifier.Basic
import GraphQuery.Unifier.RolePairing
import GraphQuery.Unifier.Substitution
import GraphQuery.Unifier.Unification
