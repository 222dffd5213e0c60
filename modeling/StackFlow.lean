import StackFlow.Assembly
import StackFlow.BitSet.Lemmas
import StackFlow.Classes
import StackFlow.Frame.Lemmas
import StackFlow.Proofs.BitSetRecipes
import StackFlow.Proofs.BuildExact
import StackFlow.Proofs.Cancellation
import StackFlow.Proofs.CanonicalOrder
import StackFlow.Proofs.FaultFree
import StackFlow.Proofs.FlushExact
import StackFlow.Proofs.FramesExact
import StackFlow.Proofs.GeneratedClasses
import StackFlow.Proofs.LabelResolution
import StackFlow.Proofs.MonotoneReads
import StackFlow.Proofs.OriginQueries
import StackFlow.Proofs.OriginSound
import StackFlow.Proofs.Provenance
import StackFlow.Proofs.QualifierChains
import StackFlow.Proofs.QueueOrder
import StackFlow.Proofs.RefusedDirectives
import StackFlow.Proofs.RegionCallers
import StackFlow.Proofs.RegionOwnership
import StackFlow.Proofs.RegionReach
import StackFlow.Proofs.RepeatedWalks
import StackFlow.Proofs.SortedSetRecipes
import StackFlow.Proofs.WorklistExact
import StackFlow.Report
