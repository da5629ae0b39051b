import EmuFlow.Coarsener.Margin
import EmuFlow.HopRefiner.Safety
import EmuFlow.Pcs.ControlPair
import EmuFlow.Runtime.Controller
import EmuFlow.Tdm.Conservative
import EmuFlow.Tdm.Simulate
import EmuFlow.Tdm.Occupancy
import EmuFlow.StreamingJson.Walks
import EmuFlow.SystemTiming.SafePeriod
import EmuFlow.RerouteBatches.Agreement
import EmuFlow.ValidationFarm.Safety
import EmuFlow.StaProjection.Lossless
import EmuFlow.PinPlanner.Planner
import EmuFlow.ValidationArchive.Lossless
import EmuFlow.Chimew.Kernels
import EmuFlow.FrameSearch.Minimum
import EmuFlow.ExperimentStore.GcSafety
import EmuFlow.ExperimentStore.RetirementSafety
import EmuFlow.RouteChecker.Tree
import EmuFlow.Storage.SelectedAgreement
import EmuFlow.PinSolver.Assignment
import EmuFlow.TransportFanout.Promise
import EmuFlow.BankChannels.StageTwo
import EmuFlow.BankChannels.SignedSum
import EmuFlow.MfsPart.LegalizerSound
import EmuFlow.MfsPart.OrthantTree
import EmuFlow.MfsPart.Propagation
import EmuFlow.RerouteBatches.Refinement
import EmuFlow.TdmRatio.LegalizeLanes
import EmuFlow.RatioOptimizer.PostRefineSound
import EmuFlow.TritonPart.BalanceSound
import EmuFlow.RuntimeSync.Fault
import EmuFlow.Pcs.Noise
import EmuFlow.Pcs.Dejitter
import EmuFlow.Tdm.TreeHops
import EmuFlow.Netlist.TransportPorts
