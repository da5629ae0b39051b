import EmuFlow.Routing.Artifacts

/-!
# Ratio plans

The records of a TDM ratio plan: the routed hops with their capacity domains, the compatibility
classes, the imported timing paths, and what the optimizer and the round-barrier legalization have
assigned to each hop.
-/

namespace EmuFlow.TdmRatio

open Routing

def TDM_RATIO_PLAN_SCHEMA : String := "emuflow.tdm-ratio-plan/v1"

def TDM_RATIO_PROVIDER : String := "lagrangian-kkt-timing-aware-v1"

def TDM_TIMING_DAG_RATIO_PROVIDER : String := "aspdac26-timing-dag-lagrangian-v1"

/-- `HopKey`: demand, link, source and sink. -/
abbrev HopKey := String × String × String × String

instance hopKeyLawful : LawfulBEq HopKey := inferInstance

/-- `_hop_key` of an edge of a route. -/
def hopKey (demand : String) (edge : TreeEdge) : HopKey := (demand, edge.key)

/-! ## the model -/

structure RawHop where
  demand : String
  net : String
  transportRound : Int
  compatibilityDomain : String
  link : String
  source : String
  sink : String
  hop : Nat
  capacityKey : String
  baseDelayNs : ℚ
  betaNs : ℚ
  slotPeriodNs : Option ℚ
  delayModel : Option String
  deriving DecidableEq

def RawHop.key (hop : RawHop) : HopKey := (hop.demand, hop.link, hop.source, hop.sink)

structure RatioHop extends RawHop where
  index : Nat
  domain : Nat
  direction : Nat
  compatibility : Nat
  deriving DecidableEq

structure DomainBank where
  bankCount : Nat
  wiresPerBank : Nat
  laneOffset : Nat
  deriving DecidableEq

structure RatioDomain where
  index : Nat
  key : String
  link : String
  direction : String
  lanes : Nat
  bank : Option DomainBank
  deriving DecidableEq

/-- `domain.get("lane_offset", 0)`. -/
def RatioDomain.laneOffset (domain : RatioDomain) : Nat :=
  (domain.bank.map DomainBank.laneOffset).getD 0

structure CompatibilityClass where
  index : Nat
  protocol : String
  transportDomain : String
  clockDomains : List String
  deriving DecidableEq

structure HopCompatibility where
  hop : Nat
  compatibility : Nat
  clockDomains : List String
  deriving DecidableEq

structure Compatibility where
  provider : String
  classes : List CompatibilityClass
  hops : List HopCompatibility
  deriving DecidableEq

structure ModelTimingPath where
  index : Nat
  id : String
  clockDomain : String
  clockPeriodNs : ℚ
  requiredTimeNs : ℚ
  fixedDelayNs : ℚ
  cutNets : List String
  compressedPathIds : List String
  cutTransitions : List CutTransition
  hops : List Nat
  deriving DecidableEq

structure RatioModel where
  constraints : RouteConstraints
  normalization : TimingNormalization
  domains : List RatioDomain
  hops : List RatioHop
  timingPaths : List ModelTimingPath
  compatibility : Compatibility
  exactDependencySchedule : Bool

/-! ## the plan -/

structure PlanHop extends RatioHop where
  continuousRatio : ℚ
  discreteRatio : Int
  lane : Int

structure PlanTimingPath extends ModelTimingPath where
  delayNs : ℚ
  slackNs : ℚ
  normalizedSlack : ℚ

structure RatioConfiguration where
  maxIterations : Int
  maxRatio : Int
  ratioQuantum : Int
  minRatio : Int
  postRefinementIterations : Int
  exactDomainLimit : Int
  convergence : ℚ
  deriving DecidableEq

structure RoundBarrierLegalization where
  activeRounds : List Int
  sourceReadySemantics : String
  sourceReadySlot : Option Int
  promotedHops : Int
  promotionSteps : Int
  preLegalizationWorstNormalizedSlack : ℚ
  roundAwareLaneRebalancedHops : Int
  deriving DecidableEq

structure AlgorithmEvidence where
  provider : String
  validationStatus : Option String

structure RatioMetrics where
  iterations : Int
  continuousWorstNormalizedSlack : ℚ
  discreteWorstNormalizedSlack : ℚ
  maxDiscreteRatio : Int
  postRefinementSwaps : Int
  dpLegalizedDomains : Int
  greedyLegalizedDomains : Int
  groupMinimaxImprovements : Int
  globalMinimaxImprovements : Int
  globalMinimaxWeightExponent : ℚ
  domains : Int
  hops : Int
  timingPaths : Int
  laneGroups : Int
  roundAwareLaneRebalancedHops : Int
  roundBarrierPromotedHops : Int
  deriving DecidableEq

structure RatioPlan where
  schema : String
  design : Option String
  platform : String
  provider : String
  configuration : RatioConfiguration
  normalization : TimingNormalization
  roundBarrierLegalization : RoundBarrierLegalization
  domains : List RatioDomain
  compatibility : Compatibility
  hops : List PlanHop
  timingPaths : List PlanTimingPath
  metrics : RatioMetrics
  algorithm : Option AlgorithmEvidence

def PlanHop.planKey (hop : PlanHop) : HopKey := hop.key

/-- `ratio_plan_by_hop(plan).get(key)`; of two hops with one key the later one counts. -/
def RatioPlan.findHop (plan : RatioPlan) (key : HopKey) : Option PlanHop :=
  Keyed.find PlanHop.planKey plan.hops.reverse key

end EmuFlow.TdmRatio
