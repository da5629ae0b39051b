import EmuFlow.Tdm.BankAllocation
import EmuFlow.TdmRatio.Plan

/-!
# TDM schedules

The records of a TDM schedule. A schedule of an exact contract has a certificate of its
readiness and no transport rounds; a schedule of a ratio plan carries the plan's assignment.
An optional key of the JSON object is an `Option` field.
-/

namespace EmuFlow.Tdm

open Routing TdmRatio

def TDM_SCHEDULE_SCHEMA : String := "emuflow.tdm-schedule/v1"

def TDM_BASELINE_PROVIDER : String := "deterministic-round-barrier-earliest-slot-v2"

def TDM_EXACT_DEPENDENCY_PROVIDER : String := "deterministic-dependency-earliest-slot-v1"

def SAMPLED_VIRTUAL_WIRE_SCHEDULE_CERTIFICATE_SCHEMA : String :=
  "emuflow.sampled-virtual-wire-schedule-certificate/v1"

def INDEXED_SAMPLED_VIRTUAL_WIRE_SCHEDULE_CERTIFICATE_SCHEMA : String :=
  "emuflow.sampled-virtual-wire-schedule-certificate/v2"

def SAMPLED_VIRTUAL_WIRE_CONSTRAINTS_SCHEMA : String :=
  "emuflow.sampled-virtual-wire-timing-constraints/v1"

def TDM_ACADEMIC_LIST_SCHEDULE_PROVIDER : String := "lagrangian-kkt-ratio-aware-list-schedule-v1"

def TDM_ACADEMIC_SCHEDULE_PROVIDER : String := "lagrangian-kkt-ratio-aware-path-local-search-v2"

def COMBINATIONAL_SETTLE_SLOTS : Int := 1

structure TimingConstraints where
  schema : String
  settleSlots : Int
  commitSlot : Int
  slotEdgeConvention : String
  deriving DecidableEq

def sampledVirtualWireTimingConstraints (frameSlots : Nat) : Result TimingConstraints := do
  Check.raiseIf (frameSlots < 2)
    (ValidationError "sampled virtual-wire frame must have at least two slots")
  return { schema := SAMPLED_VIRTUAL_WIRE_CONSTRAINTS_SCHEMA
           settleSlots := COMBINATIONAL_SETTLE_SLOTS
           commitSlot := frameSlots - RUNTIME_BARRIER_SLOTS
           slotEdgeConvention := "tx-sample-before-rx-shadow-update-v1" }

/-- One transfer: the bit of `demand` leaves `source` in `slot` on a wire of the link. -/
structure TdmEntry where
  id : String
  demand : String
  net : String
  hop : Nat
  link : String
  source : String
  sink : String
  capacityKey : String
  slot : Int
  lane : Int
  readySlot : Int
  arrivalSlot : Int
  tdmRatio : Option Int := none
  ratioPlanHop : Option Nat := none
  continuousRatio : Option ℚ := none
  ratioWaitSlots : Option Int := none
  deriving DecidableEq

def TdmEntry.arcKey (entry : TdmEntry) : ArcKey := (entry.link, entry.source, entry.sink)

def TdmEntry.key (entry : TdmEntry) : HopKey := (entry.demand, entry.arcKey)

/-! ## certificates -/

inductive SegmentEvidence where
  | launchToTx (segment : String) (budgetSlots readySlot : Int)
  | rxToTx (segment predecessorCutNet : String) (arrivalSlot budgetSlots readySlot : Int)
  deriving DecidableEq

def SegmentEvidence.readySlot : SegmentEvidence → Int
  | .launchToTx _ _ ready => ready
  | .rxToTx _ _ _ _ ready => ready

structure DemandReadiness where
  demand : String
  net : String
  source : String
  sourceReadySlot : Int
  evidence : List SegmentEvidence
  deriving DecidableEq

structure CaptureReadiness where
  capture : String
  cutNet : String
  fpga : String
  segment : String
  arrivalSlot : Int
  budgetSlots : Int
  readySlot : Int
  commitSlot : Int
  slackSlots : Int
  deriving DecidableEq

structure FullCertificate where
  schema : String
  provider : String
  topologicalCutOrder : List String
  demandReadiness : List DemandReadiness
  captureReadiness : List CaptureReadiness
  minimumCaptureSlackSlots : Option Int
  deriving DecidableEq

structure IndexedCertificate where
  schema : String
  provider : String
  launchReadinessPolicy : String
  captureCoverage : String
  topologicalCutCount : Nat
  topologicalCutOrderSha256 : String
  dependencyEdges : Nat
  readinessRecords : Nat
  readinessSha256 : String
  sinkReadinessChecks : Nat
  sinkReadinessSha256 : String
  minimumSinkSlackSlots : Option Int
  deriving DecidableEq

inductive Certificate where
  | full (certificate : FullCertificate)
  | indexed (certificate : IndexedCertificate)
  deriving DecidableEq

/-! ## schedules -/

structure RatioAssignment where
  schema : String
  provider : String
  configuration : RatioConfiguration
  metrics : RatioMetrics
  roundBarrierLegalization : RoundBarrierLegalization
  deriving DecidableEq

def ratioAssignmentOf (plan : RatioPlan) : RatioAssignment :=
  { schema := plan.schema
    provider := plan.provider
    configuration := plan.configuration
    metrics := plan.metrics
    roundBarrierLegalization := plan.roundBarrierLegalization }

structure RouteMetadata where
  id : String
  net : String
  source : String
  sinks : List String
  treeEdges : List TreeEdge
  transportRound : Option Int
  deriving DecidableEq

/-- An entry of `demand_completions`. -/
structure Completion where
  demand : String
  net : String
  completionSlot : Int
  sourceReadySlot : Option Int
  transportRound : Option Int
  sinkArrivalSlots : Option (List (String × Int))
  deriving DecidableEq

structure DomainSchedule where
  key : String
  link : String
  direction : String
  lanes : Nat
  frameSlots : Nat
  scheduledBitHops : Nat
  capacityBitHops : Nat
  utilization : ℚ
  deriving DecidableEq

structure RoundBarrierRealization where
  activeRounds : List Int
  capacitySplitSlot : Option Int
  sourceReadySlot : Option Int
  shiftSlots : Int
  deriving DecidableEq

structure ScheduleMetrics where
  demands : Nat
  scheduledBitHops : Nat
  frameSlots : Nat
  completionSlot : Int
  maxDomainUtilization : ℚ
  collisions : Nat
  transportRounds : Option Nat := none
  roundBarriers : Option Nat := none
  maxTransportRound : Option Int := none
  combinationalSettleSlots : Option Int := none
  transportOrderingPolicy : Option String := none
  commitSlot : Option Int := none
  dependencyEdges : Option Nat := none
  maximumCombinationalDependencyDepth : Option Int := none
  conservativeSinkReadinessChecks : Option Nat := none
  captureRequirements : Option Nat := none
  minimumCaptureSlackSlots : Option (Option Int) := none
  ratioConstrainedHops : Option Nat := none
  maxTdmRatio : Option Int := none
  maximumRatioWaitSlots : Option Int := none
  deriving DecidableEq

/-- `slot_optimization.metrics`. -/
structure OptimizationMetrics where
  iterations : Int
  acceptedMoves : Int
  evaluatedMoves : Int
  worstNormalizedSlack : ℚ
  completionSlot : Int
  totalWaitSlots : Int
  baselineWorstNormalizedSlack : ℚ
  lnsNeighborhoods : Option Int
  lnsEvaluatedOrders : Option Int

structure SlotOptimization where
  provider : String
  maxIterations : Int
  metrics : OptimizationMetrics

structure BankAllocationRecord where
  link : String
  source : String
  sink : String
  budget : BankBudget
  deriving DecidableEq

structure TdmSchedule where
  schema : String := TDM_SCHEDULE_SCHEMA
  design : Option String := none
  platform : String
  provider : String
  transportSemantics : String
  ratioAssignment : Option RatioAssignment := none
  routeConstraints : Option RawConstraints
  bankAllocations : Option (List BankAllocationRecord) := none
  routes : List RouteMetadata
  entries : List TdmEntry
  demandCompletions : List Completion
  domainSchedules : List DomainSchedule
  metrics : ScheduleMetrics
  qualification : Option String := none
  timingConstraints : Option TimingConstraints := none
  semanticContractSchema : Option String := none
  semanticContractSha256 : Option String := none
  scheduleDependencyCertificate : Option Certificate := none
  roundBarrierRealization : Option RoundBarrierRealization := none
  slotOptimization : Option SlotOptimization := none

def bankAllocationRecords (allocations : BankAllocations) : List BankAllocationRecord :=
  (SortedSet.sortedBy (fun a => SortedSet.lex a.1.1 (SortedSet.lex a.1.2.1 a.1.2.2))
    allocations).map fun a =>
      { link := a.1.1, source := a.1.2.1, sink := a.1.2.2, budget := a.2 }

/-! ## hop latency -/

/-- The delay of a hop over a link with `model`, from its delay `base` at ratio one. -/
def delayFrom (model : RatioDelayModel) (base : ℚ) (ratio : Int) : ℚ :=
  Binary64.add base (Binary64.mul model.ratioCoefficientNs (Binary64.round (ratio - 1)))

/-- `math.ceil(delay / (1000.0 / link.fabric_clock_mhz))`. -/
def delayCycles (link : BoardLink) (delay : ℚ) : Int :=
  ⌈Binary64.div delay (Binary64.div 1000 link.fabricClockMhz)⌉

theorem delayFrom_nonneg (model : RatioDelayModel) {base : ℚ} {ratio : Int} (hb : 0 ≤ base)
    (hr : 1 ≤ ratio) : 0 ≤ delayFrom model base ratio := by
  have hp : (0 : ℚ) ≤ ratio - 1 := sub_nonneg.mpr (by exact_mod_cast hr)
  exact Binary64.round_nonneg (add_nonneg hb (Binary64.round_nonneg
    (mul_nonneg model.coefficient_nonneg (Binary64.round_nonneg hp))))

theorem delayFrom_mono (model : RatioDelayModel) {base : ℚ} {ratio ratio' : Int} (hb : 0 ≤ base)
    (hr : 1 ≤ ratio) (hle : ratio ≤ ratio') :
    delayFrom model base ratio ≤ delayFrom model base ratio' := by
  have hp : (0 : ℚ) ≤ ratio - 1 := sub_nonneg.mpr (by exact_mod_cast hr)
  have hst : (ratio - 1 : ℚ) ≤ ratio' - 1 := sub_le_sub_right (by exact_mod_cast hle) 1
  have hs := mul_nonneg model.coefficient_nonneg (Binary64.round_nonneg hp)
  have hrs := Binary64.round_mono hs
    (mul_le_mul_of_nonneg_left (Binary64.round_mono hp hst) model.coefficient_nonneg)
  exact Binary64.round_mono (add_nonneg hb (Binary64.round_nonneg hs))
    (add_le_add_right hrs base)

theorem delayCycles_mono (link : BoardLink) {delay delay' : ℚ} (hd : 0 ≤ delay)
    (hle : delay ≤ delay') : delayCycles link delay ≤ delayCycles link delay' := by
  have hp : 0 ≤ Binary64.div 1000 link.fabricClockMhz :=
    Binary64.round_nonneg (div_nonneg (by norm_num) link.clock_pos.le)
  exact Int.ceil_le_ceil (Binary64.round_mono (div_nonneg hd hp)
    (div_le_div_of_nonneg_right hle hp))

theorem delayCycles_nonneg (link : BoardLink) {delay : ℚ} (hd : 0 ≤ delay) :
    0 ≤ delayCycles link delay := by
  have hz : delayCycles link 0 = 0 := by
    simp [delayCycles, Binary64.div, Binary64.round]
  exact hz ▸ delayCycles_mono link le_rfl hd

/-- `tdm_hop_latency_cycles`: the delay of a hop in fabric cycles, rounded up. -/
def tdmHopLatencyCycles (link : BoardLink) (ratio : Int) (baseDelayNs : Option ℚ) : Result Int :=
  match link.tdmDelayModel with
  | none => .ok link.latencyCycles
  | some model => do
    Check.raiseIf (ratio < 1) (ValidationError "TDM hop latency requires a positive integer ratio")
    let delay := match baseDelayNs with
      | none => model.delayNs (Binary64.round ratio)
      | some base => delayFrom model base ratio
    return delayCycles link delay

/-!
## Link delays

`route_link_delay_ns` and `route_link_delay_coefficients_ns` of `emuflow/routing.py`: the delay of
a hop at ratio one and its slope. A link with a ratio model has the delay of its model whatever the
constraints say.

* `hopLatency_eq_ok` — the latency of a hop depends on its link and its ratio only
-/

open Check

def routeLinkDelayNs (constraints : RouteConstraints) (link : BoardLink) (arc : ArcKey) : ℚ :=
  match link.tdmDelayModel with
  | some model => model.delayNs 1
  | none =>
    match constraints.directedLinkDelayNs.lookup arc with
    | some delay => delay
    | none =>
      match constraints.linkDelayNs.lookup arc.1 with
      | some delay => delay
      | none => link.latencyCycles * 1000 / link.fabricClockMhz

/-- `route_link_delay_coefficients_ns`: the delay at ratio one and the slope. -/
def routeLinkDelayCoefficientsNs (platform : Platform) (constraints : RouteConstraints)
    (arc : ArcKey) : Result (ℚ × ℚ) := do
  let link ← lookupOrRaise arc.1 (platform.findLink arc.1)
  let slope := match link.tdmDelayModel with
    | some model => model.ratioCoefficientNs
    | none => 1000 / link.fabricClockMhz
  return (routeLinkDelayNs constraints link arc, slope)

/-- The latency of a hop over `link`, which both the builder and the validator compute from the
delay at ratio one. -/
def hopLatency (platform : Platform) (constraints : RouteConstraints) (link : BoardLink)
    (arc : ArcKey) (ratio : Int) : Result Int := do
  let (base, _) ← routeLinkDelayCoefficientsNs platform constraints arc
  tdmHopLatencyCycles link ratio (some base)

def linkLatency (link : BoardLink) (ratio : Int) : Int :=
  match link.tdmDelayModel with
  | none => link.latencyCycles
  | some model => delayCycles link (delayFrom model (model.delayNs 1) ratio)

theorem linkLatency_nonneg {link : BoardLink} {ratio : Int} (hr : 1 ≤ ratio) :
    0 ≤ linkLatency link ratio := by
  unfold linkLatency
  split
  · omega
  · next model _ =>
    exact delayCycles_nonneg link (delayFrom_nonneg model (model.delayNs_nonneg zero_le_one) hr)

theorem hopLatency_eq_ok {platform : Platform} {constraints : RouteConstraints} {link : BoardLink}
    {arc : ArcKey} (hl : platform.findLink arc.1 = some link) {ratio latency : Int} :
    hopLatency platform constraints link arc ratio = .ok latency ↔
      (link.tdmDelayModel ≠ none → 1 ≤ ratio) ∧ latency = linkLatency link ratio := by
  unfold hopLatency routeLinkDelayCoefficientsNs
  rw [lookupOrRaise_eq_ok.mpr hl]
  simp only [bind, Except.bind, pure, Except.pure]
  unfold tdmHopLatencyCycles linkLatency routeLinkDelayNs
  cases hm : link.tdmDelayModel with
  | none => simp [eq_comm]
  | some model =>
    dsimp only
    rw [raiseIf_bind, not_lt]
    simp only [ne_eq, reduceCtorEq, not_false_eq_true, forall_const, pure, Except.pure,
      Except.ok.injEq]
    exact and_congr_right fun _ => eq_comm

end EmuFlow.Tdm
