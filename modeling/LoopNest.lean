import LoopNest.Word
import LoopNest.Names
import LoopNest.Expr.Text
import LoopNest.Expr.Rename
import LoopNest.Expr.Linear
import LoopNest.Expr.Simplify
import LoopNest.Expr.Reduction
import LoopNest.Affine.Solvable
import LoopNest.Program.Text
import LoopNest.Json.Reader
import LoopNest.Json.Writer
import LoopNest.Schedule.Basic
import LoopNest.Main
import LoopNest.Lower.Pipeline
import LoopNest.Restructure.Reorder
import LoopNest.Arena.Restructure
import LoopNest.Arena.Simplify
import LoopNest.Restructure.Split
import LoopNest.Restructure.Fission
import LoopNest.Restructure.Parallelize
import LoopNest.Restructure.VarReorder
import LoopNest.Program.Function
import LoopNest.Program.Match
import LoopNest.Arena.Edit
import LoopNest.Dependence.Legality
import LoopNest.Semantics.AnyOrder
import LoopNest.Proofs.Conventions
import LoopNest.Proofs.AffineForms
import LoopNest.Proofs.Touches
import LoopNest.Proofs.Surroundings
import LoopNest.Proofs.Encounters
import LoopNest.Proofs.FoundDependences
import LoopNest.Proofs.ChainDependences
import LoopNest.Proofs.Logs
import LoopNest.Proofs.LoggedRuns
import LoopNest.Proofs.ParallelLoops
import LoopNest.Proofs.RefinedLevels
import LoopNest.Proofs.AcceptedCommands
import LoopNest.Proofs.Frames
import LoopNest.Proofs.Replacements
import LoopNest.Proofs.Sinking
import LoopNest.Proofs.PerfectNests
import LoopNest.Proofs.NestTurns
import LoopNest.Proofs.PermutedNests
import LoopNest.Proofs.Reorders
import LoopNest.Proofs.DistributedLoops
import LoopNest.Proofs.EnteredStatements
import LoopNest.Proofs.SplitLoops
import LoopNest.Proofs.SimplifiedExprs
import LoopNest.Proofs.SimplifiedPrograms
import LoopNest.Proofs.Updates
import LoopNest.Proofs.LoweredLoops
import LoopNest.Proofs.AnyOrders
import LoopNest.Proofs.Rows
import LoopNest.Proofs.MovedReductions
import LoopNest.Proofs.LoweredReductions
import LoopNest.Proofs.LoweredAgain
import LoopNest.Semantics.Calls
import LoopNest.Proofs.CopiedPrograms
import LoopNest.Proofs.CanonicalForms
import LoopNest.Proofs.CommittedPrograms
import LoopNest.Program.Scoping
import LoopNest.Proofs.KeptScopes
import LoopNest.Proofs.ScopedCommands
import LoopNest.Proofs.HygienicSteps
import LoopNest.Program.Vocabulary
import LoopNest.Proofs.ExpandedCalls
import LoopNest.Program.CallGraph
import LoopNest.Proofs.CallTrees
import LoopNest.Proofs.ApartExpansions
import LoopNest.Semantics.Rounding
import LoopNest.Semantics.Lexical
import LoopNest.Proofs.LexicalRuns
import LoopNest.Proofs.ComposedOrders
import LoopNest.Proofs.PermutedWrites
import LoopNest.Semantics.Cautious
import LoopNest.Semantics.CanonicalRun
import LoopNest.Proofs.CautiousRuns
import LoopNest.Proofs.CanonicalRuns
import LoopNest.Proofs.MatchedRuns
import LoopNest.Proofs.ClearedLoops
import LoopNest.Proofs.FitPrograms
import LoopNest.Proofs.ScheduledPrograms
import LoopNest.Proofs.ReadTables
import LoopNest.Session.Contents
import LoopNest.Proofs.WrittenSessions
import LoopNest.Proofs.ParameterUses
import LoopNest.Proofs.SteadyCalls
import LoopNest.Proofs.SteadyBounds
import LoopNest.Proofs.InputParameters
import LoopNest.Proofs.BoundNames
import LoopNest.Proofs.AssertedReorders
import LoopNest.Proofs.SettledPrograms
import LoopNest.Proofs.CapturedScalars
import LoopNest.Proofs.KeptBindings
import LoopNest.Proofs.PerfectChains
import LoopNest.Proofs.RenamedForms
import LoopNest.Proofs.UniqueForms
import LoopNest.Proofs.TurnedNests
import LoopNest.Proofs.UndoneReorders
import LoopNest.Proofs.PrintedCommands
import LoopNest.Proofs.NormalForms
import LoopNest.Proofs.SplitPlaces
import LoopNest.Proofs.RenamedSplits
import LoopNest.Proofs.CommutingSplits
import LoopNest.Proofs.SplitPrograms
import LoopNest.Proofs.SplitOrders
import LoopNest.Proofs.KeptLabels
import LoopNest.Proofs.RoundedRuns
import LoopNest.Proofs.SunkWrites
import LoopNest.Proofs.FoldedConstants
import LoopNest.Proofs.KeptConstants
import LoopNest.Proofs.LoweredConstants
import LoopNest.Affine.Equation
import LoopNest.Proofs.SolvedEquations
import LoopNest.Proofs.TightRanges
import LoopNest.Proofs.SuppliedNames
