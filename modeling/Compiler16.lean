import Compiler16.Error
import Compiler16.Flow.Block
import Compiler16.Flow.CompilationUnit
import Compiler16.Flow.Graph
import Compiler16.Flow.Order
import Compiler16.IndexedMap
import Compiler16.Machine.Action
import Compiler16.Machine.Arithmetic
import Compiler16.Machine.Cpu
import Compiler16.Machine.Execution
import Compiler16.Machine.Fault
import Compiler16.Machine.Flags
import Compiler16.Machine.Layout
import Compiler16.Machine.Memory
import Compiler16.Machine.Opcode
import Compiler16.Machine.Program
import Compiler16.Machine.Random
import Compiler16.Machine.State
import Compiler16.Machine.Word
import Compiler16.OrderedMap
import Compiler16.Source.Operator
import Compiler16.Source.Symbols
import Compiler16.Source.Tree
import Compiler16.Source.TreeBuilder
import Compiler16.Ssa.Body
import Compiler16.Ssa.BuildError
import Compiler16.Ssa.Builder
import Compiler16.Ssa.Inst
import Compiler16.Ssa.Lowering
import Compiler16.Ssa.Reading
import Compiler16.Ssa.Removal
import Compiler16.Ssa.Value
import Compiler16.Symbolic.Inst
import Compiler16.Text.Hex
import Compiler16.Proofs.BodyCode
import Compiler16.Proofs.Invariant
import Compiler16.Proofs.Removal
import Compiler16.Proofs.Reading
import Compiler16.Proofs.Edits
import Compiler16.Proofs.Answering
import Compiler16.Proofs.Resolution
import Compiler16.Proofs.Versioning
import Compiler16.Proofs.Tracing
import Compiler16.Proofs.Accesses
import Compiler16.Proofs.Running
import Compiler16.Proofs.Interpreting
import Compiler16.Proofs.Simulating
import Compiler16.Proofs.Stages
import Compiler16.Proofs.Expressions
import Compiler16.Proofs.Statements
import Compiler16.Proofs.Control
import Compiler16.Proofs.Functions
import Compiler16.Proofs.Programs
import Compiler16.Proofs.Meaning
import Compiler16.Proofs.ControlFlow
import Compiler16.Proofs.Strictness
import Compiler16.Proofs.GlobalReads
import Compiler16.Proofs.Neat
import Compiler16.Proofs.NeatReading
import Compiler16.Proofs.NeatEdits
import Compiler16.Proofs.DefUse
import Compiler16.Proofs.Minimality
import Compiler16.Proofs.Building
import Compiler16.Proofs.Outcome
import Compiler16.Proofs.Termination
import Compiler16.Proofs.PhiPlacement
import Compiler16.Proofs.Numbering
import Compiler16.Proofs.Survivors
import Compiler16.Proofs.Cascades
import Compiler16.Proofs.Changes
import Compiler16.Proofs.ReadChanges
import Compiler16.Proofs.Invariance
import Compiler16.Proofs.Finishing
import Compiler16.Proofs.Globals
import Compiler16.Proofs.StableReads
import Compiler16.Proofs.WaitingPhis
import Compiler16.Proofs.PlainReads
import Compiler16.Proofs.StandIns
import Compiler16.Proofs.EarlyPhis
import Compiler16.Proofs.Marks
import Compiler16.Proofs.Commuting
import Compiler16.Proofs.Machine.Effects
import Compiler16.Proofs.Machine.Storage
import Compiler16.Proofs.Machine.Reachable
import Compiler16.Proofs.Machine.Atomicity
import Compiler16.Proofs.Machine.Calls
import Compiler16.Proofs.Machine.StackIntegrity
import Compiler16.Proofs.Machine.Coherence
import Compiler16.Proofs.Machine.BoundedStack
import Compiler16.Proofs.Machine.Runs
import Compiler16.Proofs.Machine.CodeRegion
import Compiler16.Proofs.Machine.Calculations
import Compiler16.Proofs.Machine.Branches
import Compiler16.Proofs.Machine.Fields
import Compiler16.Proofs.Machine.Settings
import Compiler16.Proofs.Machine.Dependence
import Compiler16.Proofs.Machine.Loading
import Compiler16.Proofs.EarlyRemoval
import Compiler16.Proofs.Flow.Search
import Compiler16.Proofs.Flow.Postorder
import Compiler16.Proofs.Flow.Edges
import Compiler16.Proofs.Flow.Units
import Compiler16.Proofs.Source.BoundTrees
