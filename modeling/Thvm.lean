import Thvm.WorkerPoolQuiescence
import Thvm.TlsfBlocks
import Thvm.TlsfMerge
import Thvm.TlsfOperations
import Thvm.TlsfRuns
import Thvm.AloRealize
import Thvm.ProbeTable
import Thvm.AloSpec
import Thvm.Unfoldings
import Thvm.UnfoldingRuns
import Thvm.TermTrees
import Thvm.TriangularBindings
import Thvm.FirstOrderTerms
import Thvm.BoundedLoops
import Thvm.UnifySpec
import Thvm.CriticalPairs
import Thvm.CriticalPairsSpec
import Thvm.LinearProbing
import Thvm.CongruenceClosure
import Thvm.CongruenceInvariant
import Thvm.CongruenceExact
import Thvm.CongruenceRuns
import Thvm.FlatTerms
import Thvm.LexOrder
import Thvm.LexicographicPathOrder
import Thvm.LexicographicPathOrderFlat
import Thvm.LexicographicPathOrderRuns
import Thvm.RecursivePathOrderSpec
import Thvm.KnuthBendix
import Thvm.KnuthBendixBalance
import Thvm.KnuthBendixDescent
import Thvm.KnuthBendixFlat
import Thvm.KnuthBendixRuns
import Thvm.WeightedPathOrder
import Thvm.WeightedPathOrderRuns
import Thvm.LinearizeSpec
import Thvm.FiniteModelsExact
import Thvm.TseitinSpec
import Thvm.ClausificationSpec
import Thvm.SaturationSpec
import Thvm.RuleSlotsRuns
import Thvm.FrontSearchSpec
import Thvm.FrontLoopSpec
import Thvm.OverlapIndexPairs
import Thvm.QueueSweepRuns
import Thvm.PackedPairsSpec
import Thvm.SubsumptionIndexSpec
import Thvm.CpQueueKd
import Thvm.CpQueueRuns
import Thvm.AcExtension
import Thvm.FtScratchSpec
import Thvm.AcCanonSpec
import Thvm.ArenaReaders
import Thvm.AcUnifySpec
import Thvm.IndexBoundsSpec
import Thvm.HalfPrecision
import Thvm.OrderedCollapse
import Thvm.EvalCollapse
import Thvm.VariableNormalisation
import Thvm.SymbolPrecedenceSpec
import Thvm.DynamicLabels
import Thvm.TermEquality
import Thvm.AutoDupSpec
import Thvm.ClauseSubsumption
import Thvm.WaldPrinting
import Thvm.FtRefinement
import Thvm.IntakeIndependence
import Thvm.HeapReadback
import Thvm.IndexFastDivision
