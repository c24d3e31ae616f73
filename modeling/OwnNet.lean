import OwnNet.Json
import OwnNet.Dict
import OwnNet.Dict.Pointwise
import OwnNet.Dict.Index
import OwnNet.Dict.Keyed
import OwnNet.Sorting
import OwnNet.Parsing.Grammar
import OwnNet.Parsing.Descent
import OwnNet.Dataflow.Worklist
import OwnNet.Dataflow.Termination
import OwnNet.Graph.Search
import OwnNet.Graph.Tarjan
import OwnNet.HeapEffects.Facts
import OwnNet.HeapEffects.Solve
import OwnNet.HeapEffects.Transfer
import OwnNet.HeapEffects.Runs
import OwnNet.HeapEffects.Canonical
import OwnNet.HeapEffects.Harmless
import OwnNet.HeapEffects.Indices
import OwnNet.HeapEffects.Parameters
import OwnNet.Lang.Ast
import OwnNet.Lang.Lexer
import OwnNet.Lang.Buffers
import OwnNet.Lang.Policies
import OwnNet.Lang.Cfg
import OwnNet.Lang.Lowering
import OwnNet.Lang.Scoping
import OwnNet.Lang.Exits
import OwnNet.Lang.Analysis
import OwnNet.Lang.Exclusivity
import OwnNet.Lang.Effects
import OwnNet.Lang.Notes
import OwnNet.Lang.Holding
import OwnNet.Lang.Survey
import OwnNet.Lang.Order
import OwnNet.Lang.Exactness
import OwnNet.Lang.Execution
import OwnNet.Lang.Convergence
import OwnNet.Graph.Ways
import OwnNet.Lang.Ways
import OwnNet.Lang.Leaks
import OwnNet.Lang.Departures
import OwnNet.Lang.Handles
import OwnNet.Lang.Owed
import OwnNet.Graph.Trails
import OwnNet.Di.Captives
import OwnNet.Di.Registrations
import OwnNet.Graph.Components
import OwnNet.Dataflow.Rounds
import OwnNet.Ownership.Solve
import OwnNet.Ownership.Canonical
import OwnNet.Diff.Opcodes
import OwnNet.Fix.Patch
import OwnNet.Fix.RoundTrip
import OwnNet.Dataflow.Schedule
import OwnNet.OwnAnalysis.Solver
import OwnNet.OwnAnalysis.Ownership
import OwnNet.Ownership.Orders
import OwnNet.Ownership.Returns
import OwnNet.Ownership.Consistency
import OwnNet.OwnIR.Nodes
import OwnNet.OwnIR.Names
import OwnNet.OwnIR.Skeletons
import OwnNet.OwnIR.ReleasePaths
import OwnNet.OwnIR.Summaries
import OwnNet.OwnIR.Module
import OwnNet.OwnIR.Kin
import OwnNet.OwnIR.Minting
import OwnNet.OwnIR.Hoisting
import OwnNet.OwnIR.BranchLocals
import OwnNet.Kernel.Guarded
import OwnNet.OwnIR.Regions
import OwnNet.Repro.Exact
import OwnNet.Fix.Certify
import OwnNet.Fix.Apply
import OwnNet.Fix.Gate
import OwnNet.Fix.Decisions
import OwnNet.Fix.OrderFree
import OwnNet.Facts.Total
import OwnNet.Facts.RoundTrip
import OwnNet.Kernel.Schedules
import OwnNet.Kernel.Today
import OwnNet.Kernel.Wrappers
import OwnNet.Effects.Lattice
import OwnNet.Effects.Storms
import OwnNet.Effects.Stability
import OwnNet.Lang.Module
import OwnNet.Lang.Parser
import OwnNet.Lang.Grammar
import OwnNet.Lang.Reading
import OwnNet.Lang.Lifetimes
import OwnNet.Obligations.Events
import OwnNet.Obligations.Paths
import OwnNet.Obligations.Exactness
import OwnNet.Graph.Lookups
import OwnNet.Ownership.Sccs
import OwnNet.Shadow.Base64
import OwnNet.Parsing.Unambiguous
import OwnNet.Shadow.Json
import OwnNet.Repro.Minimal
import OwnNet.Graph.Clusters
import OwnNet.Dict.Grouped
import OwnNet.Audit.Score
import OwnNet.Audit.OrderFree
import OwnNet.Ownts.Lexical
import OwnNet.Ownts.Scanners
import OwnNet.Dict.Repeats
import OwnNet.Repro.Layer2
import OwnNet.Repro.Normalize
import OwnNet.Repro.Steps
import OwnNet.Repro.Handles
import OwnNet.Repro.Derived
import OwnNet.Fix.BindDelta
import OwnNet.Graph.Attempts
import OwnNet.Emit.Lines
import OwnNet.Emit.Code
import OwnNet.Emit.Runs
import OwnNet.Emit.Nesting
import OwnNet.Lang.Quiet
import OwnNet.Lang.Check
import OwnNet.Emit.Right
import OwnNet.Emit.Faithful
import OwnNet.Emit.Hoisted
import OwnNet.Emit.Functions
import OwnNet.Graph.Breadth
import OwnNet.Retention.Walker
import OwnNet.Retention.Retainers
import OwnNet.Dict.Mapped
import OwnNet.Dataflow.Joins
import OwnNet.OwnAnalysis.Engine
import OwnNet.OwnAnalysis.Mirror
import OwnNet.OwnAnalysis.Parity
import OwnNet.OwnAnalysis.Walks
import OwnNet.Kernel.Elections
import OwnNet.Lang.Straight
import OwnNet.OwnIR.Components
import OwnNet.Obligations.Rules
import OwnNet.Lang.Traced
import OwnNet.OwnAnalysis.Surface
