import CompositeGraph.Assoc
import CompositeGraph.CommandLine
import CompositeGraph.Composite.Basic
import CompositeGraph.Composite.Codec
import CompositeGraph.Creation
import CompositeGraph.Decimal.Binary
import CompositeGraph.Decimal.Literal
import CompositeGraph.Decimal.Shortest
import CompositeGraph.Evaluation
import CompositeGraph.Evaluation.Arithmetic
import CompositeGraph.Evaluation.Climb
import CompositeGraph.Evaluation.Declarations
import CompositeGraph.Evaluation.Expressions
import CompositeGraph.Evaluation.Operators
import CompositeGraph.Evaluation.Places
import CompositeGraph.Evaluation.Statements
import CompositeGraph.Evaluation.Types
import CompositeGraph.Execution
import CompositeGraph.Handle
import CompositeGraph.Interpreter
import CompositeGraph.Invocation
import CompositeGraph.Json.Basic
import CompositeGraph.Json.Decoder
import CompositeGraph.Json.Draft
import CompositeGraph.Json.Reader
import CompositeGraph.Json.Writer
import CompositeGraph.Lookup
import CompositeGraph.Machine
import CompositeGraph.Main
import CompositeGraph.Natives
import CompositeGraph.Node.Basic
import CompositeGraph.Node.Decoder
import CompositeGraph.Node.Writer
import CompositeGraph.Preferences
import CompositeGraph.Program
import CompositeGraph.Proofs.Acceptance
import CompositeGraph.Proofs.Assignments
import CompositeGraph.Proofs.Balance
import CompositeGraph.Proofs.Binding
import CompositeGraph.Proofs.Branches
import CompositeGraph.Proofs.Chains
import CompositeGraph.Proofs.Collection
import CompositeGraph.Proofs.Comparisons
import CompositeGraph.Proofs.Confinement
import CompositeGraph.Proofs.Containment
import CompositeGraph.Proofs.Decoding
import CompositeGraph.Proofs.Deinitializers
import CompositeGraph.Proofs.Dependents
import CompositeGraph.Proofs.Destruction
import CompositeGraph.Proofs.Dictionaries
import CompositeGraph.Proofs.Differences
import CompositeGraph.Proofs.Discipline
import CompositeGraph.Proofs.Dispatch
import CompositeGraph.Proofs.Equality
import CompositeGraph.Proofs.Evaluation
import CompositeGraph.Proofs.Execution
import CompositeGraph.Proofs.Filling
import CompositeGraph.Proofs.Growth
import CompositeGraph.Proofs.Holding
import CompositeGraph.Proofs.Instances
import CompositeGraph.Proofs.Knowledge
import CompositeGraph.Proofs.Leftovers
import CompositeGraph.Proofs.Levels
import CompositeGraph.Proofs.Lifespans
import CompositeGraph.Proofs.Links
import CompositeGraph.Proofs.Lookups
import CompositeGraph.Proofs.Magnitudes
import CompositeGraph.Proofs.Moving
import CompositeGraph.Proofs.Mutations
import CompositeGraph.Proofs.NilBases
import CompositeGraph.Proofs.Offsets
import CompositeGraph.Proofs.Parts
import CompositeGraph.Proofs.Paths
import CompositeGraph.Proofs.Plain
import CompositeGraph.Proofs.Precedence
import CompositeGraph.Proofs.Programs
import CompositeGraph.Proofs.Reachability
import CompositeGraph.Proofs.Reconciliation
import CompositeGraph.Proofs.Remnants
import CompositeGraph.Proofs.Removal
import CompositeGraph.Proofs.Resemblance
import CompositeGraph.Proofs.Resumption
import CompositeGraph.Proofs.Safety
import CompositeGraph.Proofs.Shapes
import CompositeGraph.Proofs.Signatures
import CompositeGraph.Proofs.Snapshots
import CompositeGraph.Proofs.Stacks
import CompositeGraph.Proofs.StoreLaws
import CompositeGraph.Proofs.StoredTypes
import CompositeGraph.Proofs.Subtypes
import CompositeGraph.Proofs.Symmetry
import CompositeGraph.Proofs.SyntaxTrees
import CompositeGraph.Proofs.Texts
import CompositeGraph.Proofs.Updates
import CompositeGraph.Proofs.Variadics
import CompositeGraph.Proofs.Walks
import CompositeGraph.Report
import CompositeGraph.Retention
import CompositeGraph.Snapshot
import CompositeGraph.Store.Basic
import CompositeGraph.Store.Walk
import CompositeGraph.Transfer
import CompositeGraph.TypeTree.Accepts
import CompositeGraph.TypeTree.Basic
import CompositeGraph.TypeTree.Codec
import CompositeGraph.Value.Basic
import CompositeGraph.Value.Codec
import CompositeGraph.Word
