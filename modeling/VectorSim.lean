import VectorSim.RunSafety
import VectorSim.Bind
import VectorSim.Frontend.X86Words
import VectorSim.GuardSafety
import VectorSim.DataflowSafety
import VectorSim.StructuralSafety
import VectorSim.OccupancySafety
import VectorSim.RenameOrder
import VectorSim.ErrorSafety
import VectorSim.Memory.HotL1
import VectorSim.Memory.Lru
import VectorSim.Memory.Bandwidth
import VectorSim.Memory.Limits
import VectorSim.Memory.Floor
import VectorSim.BranchSafety
import VectorSim.ShiftSafety
import VectorSim.RoleSafety
import VectorSim.RangeSafety
import VectorSim.BufferSafety
import VectorSim.OverlapSafety
import VectorSim.TrackSafety
import VectorSim.DispatchSafety
import VectorSim.AssignmentSafety
import VectorSim.AncestorSafety
import VectorSim.TraceSafety
import VectorSim.CriticalPath
import VectorSim.TickScale
import VectorSim.PartSafety
import VectorSim.Links
import VectorSim.FrontendTraces
import VectorSim.RawSafety
import VectorSim.StoreOrder
import VectorSim.EpochSafety
import VectorSim.PeakSafety
import VectorSim.Backend.Peaks
import VectorSim.Memory.Resident
import VectorSim.Backend.Lockstep
import VectorSim.AgreementSafety
import VectorSim.LaneSafety
import VectorSim.ThroughputSafety
import VectorSim.EventSafety
import VectorSim.PerfettoSafety
import VectorSim.Memory.Hits
import VectorSim.Backend.Traffic
import VectorSim.TrafficSafety
import VectorSim.SkipSafety
import VectorSim.Lib.Liveness
import VectorSim.Memory.Service
import VectorSim.Backend.Progress
import VectorSim.Backend.Zen4Progress
import VectorSim.Backend.Zen4Equipped
import VectorSim.Backend.Zen4Liveness
import VectorSim.Layout
import VectorSim.LivenessSafety
import VectorSim.Backend.XsaiProgress
import VectorSim.Backend.XsaiEquipped
import VectorSim.Backend.XsaiDue
import VectorSim.XsaiLiveness
import VectorSim.XsaiStranded
import VectorSim.SemanticView
import VectorSim.SemanticTraces
import VectorSim.SemanticViewSafety
import VectorSim.Validity
import VectorSim.Flows
import VectorSim.FlowSafety
import VectorSim.ExpansionSafety
