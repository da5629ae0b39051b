import EmuFlow.Routing.Graph

/-!
# Assignments and routes

The partition assignment that names the cut nets, the exact-cut contract it may carry, and the
routes artifact. An optional key of a JSON object is an `Option` field.
-/

namespace EmuFlow.Routing

def SYSTEM_ROUTES_SCHEMA : String := "emuflow.system-routes/v1"

def PARTITION_ASSIGNMENT_SCHEMA : String := "emuflow.partition-assignment/v1"

def STATIC_EXACT_STRUCTURAL_CONTRACT_SCHEMA : String := "emuflow.static-exact-combinational-cut/v3"

def STATIC_EXACT_COMBINATIONAL_CUT_SCHEMAS : List String :=
  [STATIC_EXACT_STRUCTURAL_CONTRACT_SCHEMA]

def STATIC_EXACT_CANDIDATE_POLICIES : List String := ["assignment-derived-acyclic-v2"]

/-! ## exact-cut contracts -/

/-- An entry of `cut_nodes`. -/
structure CutNode where
  net : String
  cutClass : Option String := none
  sourceFpgas : List String
  sinkFpgas : List String
  dependencyLevel : Option Int := none
  combinationalDependencyDepth : Option Int := none
  predecessorCutNets : Option (List String) := none
  sourceSegmentIds : Option (List String) := none
  deriving DecidableEq

/-- An entry of `logic_segments`. -/
structure LogicSegment where
  id : String
  kind : String
  sourceSemantics : Option String := none
  sourceCutNet : Option String := none
  sinkCutNet : Option String := none
  fpga : Option String := none
  captureRequirement : Option String := none
  deriving DecidableEq

/-- An entry of `capture_requirements`. -/
structure CaptureRequirement where
  id : String
  cutNet : String
  fpga : String
  deriving DecidableEq

structure Contract where
  schema : String
  mode : String
  qualification : String
  candidateSelectionPolicy : Option String := none
  cutNodes : List CutNode
  logicSegments : List LogicSegment
  captureRequirements : List CaptureRequirement
  dependencyEdges : List (String × String)
  maximumCombinationalDependencyDepth : Int
  deriving DecidableEq

/-- The reference to a contract whose nodes are the cut nets themselves. -/
structure IndexedContract where
  schema : String
  mode : String
  qualification : String
  deriving DecidableEq

/-- The contract of an assignment or of hydrated routes; `indexed` is the one with
`"indexed": true`. -/
inductive RouteContract where
  | full (contract : Contract)
  | indexed (contract : IndexedContract)
  deriving DecidableEq

def RouteContract.schema : RouteContract → String
  | .full contract => contract.schema
  | .indexed contract => contract.schema

/-- An entry of `cut_nets`. -/
structure CutNet where
  net : String
  sourceFpgas : List String
  sinkFpgas : List String
  transportRound : Option Int := none
  cutClass : Option String := none
  dependencyLevel : Option Int := none
  combinationalDependencyDepth : Option Int := none
  predecessorCutNets : Option (List String) := none
  deriving DecidableEq

structure Assignment where
  schema : String := PARTITION_ASSIGNMENT_SCHEMA
  platform : String
  cutNets : List CutNet
  semanticContract : Option Contract := none
  semanticContractIndexed : Bool := false
  semanticContractSchema : Option String := none
  semanticContractSha256 : Option String := none

/-! ## routes -/

structure DemandDependency where
  cutClass : String
  dependencyLevel : Int
  combinationalDependencyDepth : Int
  predecessorCutNets : List String
  deriving DecidableEq

structure Demand where
  id : String
  net : String
  source : String
  sinks : List String
  widthBits : Nat
  transportRound : Option Int := none
  dependency : Option DemandDependency := none
  deriving DecidableEq

/-- An entry of `tree_edges`, from `source` to `sink`. -/
structure TreeEdge where
  link : String
  source : String
  sink : String
  deriving DecidableEq

def TreeEdge.key (edge : TreeEdge) : ArcKey := (edge.link, edge.source, edge.sink)

structure Route where
  id : String
  net : String
  source : String
  sinks : List String
  widthBits : Nat := 1
  transportRound : Option Int := none
  treeEdges : List TreeEdge
  maxLatencyCycles : Nat
  cutClass : Option String := none
  dependencyLevel : Option Int := none
  combinationalDependencyDepth : Option Int := none
  predecessorCutNets : Option (List String) := none
  tdmCompatibility : Option String := none
  deriving DecidableEq

/-- `route.get("transport_round", 0)`. -/
def Route.round (route : Route) : Int := route.transportRound.getD 0

/-- An entry of `link_utilization`: a capacity record with its use. -/
structure UtilizationRecord where
  capacity : CapacityRecord
  usedBits : Nat
  utilization : ℚ
  deriving DecidableEq

structure RouteMetrics where
  demands : Nat
  routedSinks : Nat
  treeEdges : Nat
  maxLinkUtilization : ℚ
  totalLinkBitHops : Nat
  maxRouteHopsObserved : Option Nat := none
  iterations : Option Int := none

structure CutTransition where
  net : String
  source : String
  sink : String
  deriving DecidableEq

/-- An entry of `timing.paths`. -/
structure TimingPath where
  path : String
  clockDomain : String
  clockPeriodNs : ℚ
  requiredTimeNs : Option ℚ := none
  fixedDelayNs : ℚ
  cutNets : List String
  cutTransitions : Option (List CutTransition) := none
  compressedPathIds : Option (List String) := none

structure TimingNormalization where
  positiveSlackScaleNs : ℚ
  negativeSlackScaleNs : ℚ
  maxClockPeriodNs : ℚ
  deriving DecidableEq

structure RouteTiming where
  paths : List TimingPath
  normalization : TimingNormalization

/-- A routes artifact. Phase 4 writes no `semanticContract`; later phases hydrate it. -/
structure RoutesArtifact where
  schema : String := SYSTEM_ROUTES_SCHEMA
  design : Option String := none
  constraints : Option RawConstraints := none
  demands : List Demand
  routes : List Route
  linkUtilization : List UtilizationRecord
  metrics : RouteMetrics
  semanticContract : Option RouteContract := none
  semanticContractSchema : Option String := none
  semanticContractSha256 : Option String := none
  timing : Option RouteTiming := none

/-- `{**routes, "semantic_contract": contract}`. -/
def RoutesArtifact.hydrate (routes : RoutesArtifact) (contract : Option RouteContract) :
    RoutesArtifact :=
  { routes with semanticContract := contract }

end EmuFlow.Routing
