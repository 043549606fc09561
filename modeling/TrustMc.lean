import TrustMc.Approx.Noninterference
import TrustMc.Arithmetic.Checked
import TrustMc.Arithmetic.UbChecks
import TrustMc.Budget.Fixpoint
import TrustMc.Budget.Walk
import TrustMc.Columns.DeadArrayArgs
import TrustMc.Columns.DeadArrayArgsExact
import TrustMc.Columns.DeadScalars
import TrustMc.ConstProp.Alignment
import TrustMc.ConstProp.ByName
import TrustMc.ConstProp.Entailed
import TrustMc.ConstProp.Faithful
import TrustMc.ConstProp.Positional
import TrustMc.ConstProp.Soundness
import TrustMc.Core.PruneOrphans
import TrustMc.Core.Vc
import TrustMc.DeadVars.Exact
import TrustMc.DirectSmt.Decision
import TrustMc.DirectSmt.ReplaySound
import TrustMc.Flow.Semidominator
import TrustMc.Fragments.Complete
import TrustMc.FreeArrays.Soundness
import TrustMc.Guards.Soundness
import TrustMc.Horn.System
import TrustMc.LoopUnroll.DominatorsExact
import TrustMc.LoopUnroll.UnrollExact
import TrustMc.Native.Grounding
import TrustMc.Native.UnrollSound
import TrustMc.Pointer.BvEval
import TrustMc.Pointer.Step
import TrustMc.Relations.Arity
import TrustMc.Relations.ArityExact
import TrustMc.Relations.Canonical
import TrustMc.Relations.CanonicalExact
import TrustMc.Scalarize.Canonical
import TrustMc.Scalarize.CarryExact
import TrustMc.Scalarize.CarryLanes
import TrustMc.Scalarize.Chains
import TrustMc.Scalarize.ConstFold
import TrustMc.Scalarize.ConstFoldApply
import TrustMc.Scalarize.ConstIdx
import TrustMc.Scalarize.Identify
import TrustMc.Scalarize.LanesAligned
import TrustMc.Scalarize.MidAliases
import TrustMc.Scalarize.MidAliasesExact
import TrustMc.Scalarize.Pass
import TrustMc.Scalarize.PruneScalars
import TrustMc.Scalarize.PruneScalarsExact
import TrustMc.Scalarize.Rewrite
import TrustMc.Smt.Eval
import TrustMc.Smt.Expr
import TrustMc.Smt.Rewrite
import TrustMc.Smt.Sorts
import TrustMc.Straightline.Cycles
import TrustMc.Straightline.Discharge
import TrustMc.Straightline.FactCapture
import TrustMc.Straightline.Soundness
import TrustMc.Switch.Guards
import TrustMc.Switch.Routing
import TrustMc.Verdict.Genuine
import TrustMc.Fragments.Chains
import TrustMc.Fragments.ComposeExact
import TrustMc.Fragments.RuleRuns
import TrustMc.Floats.Convert
import TrustMc.Smt.Numbers
import TrustMc.Floats.Exact
import TrustMc.Flow.MustAnalysis
import TrustMc.Mir.DeadLocals
import TrustMc.Flatten.LeafSorts
import TrustMc.Flatten.Projection
import TrustMc.Flatten.LeafExprs
import TrustMc.Flatten.EnumLayout
import TrustMc.Flatten.EnumValues
import TrustMc.Flatten.EnumBridge
import TrustMc.Heap.EdgeConstraints
import TrustMc.Machine.Euclid
import TrustMc.Power.Handlers
import TrustMc.Power.Exact
import TrustMc.Flow.Forever
import TrustMc.Mir.PanicFilter
import TrustMc.Mir.OnlyFail
import TrustMc.SmtIo.Datatypes
import TrustMc.SmtIo.DatatypeReading
import TrustMc.SmtIo.DatatypeBlocks
import TrustMc.SmtIo.DatatypesExact
import TrustMc.DirectSmt.Components
import TrustMc.DirectSmt.ValuesExact
import TrustMc.Arithmetic.BitIntrinsics
import TrustMc.Arithmetic.Saturating
import TrustMc.Floats.BinopTable
import TrustMc.Flow.Liveness
import TrustMc.Columns.PruneArrays
import TrustMc.Columns.PruneArraysExact
import TrustMc.ConstTrip.Values
import TrustMc.ConstTrip.Simulator
import TrustMc.ConstTrip.Execution
import TrustMc.ConstTrip.Depth
import TrustMc.Native.RetreatingEdges
import TrustMc.Straightline.SubstMemo
import TrustMc.Straightline.SubstMemoExact
import TrustMc.Relations.PadNames
import TrustMc.Relations.PadRuns
import TrustMc.Bmc.Scalars
import TrustMc.Bmc.Names
import TrustMc.Smt.Extend
import TrustMc.Bmc.Terms
import TrustMc.Bmc.Encode
import TrustMc.Bmc.WellTyped
import TrustMc.Bmc.Growth
import TrustMc.Bmc.Agrees
import TrustMc.Bmc.Statements
import TrustMc.Bmc.Terminators
import TrustMc.Bmc.Merges
import TrustMc.Bmc.Blocks
import TrustMc.Bmc.Runs
import TrustMc.Bmc.Exact
import TrustMc.LateState.Context
import TrustMc.LateState.Threaded
import TrustMc.LateState.Emission
