import EmuFlow.Tdm.Baseline
import EmuFlow.Tdm.Progress
import EmuFlow.Tdm.Timing

/-!
# Validation of a TDM schedule

`validate_tdm_schedule` of `emuflow/tdm.py`: the entries of the schedule are the hops of the routes,
each on a lane of its own in its slot and with the arrival its latency gives it, and every hop
leaves after the one before it has arrived.
-/

namespace EmuFlow.Tdm

open Check SortedSet Routing TdmRatio

/-! ## what an entry is checked against -/

/-- An entry of `expected`: a hop with its route and its depth. -/
structure ExpectedHop where
  key : HopKey
  route : Route
  depth : Nat

def expectedOfRoute (route : Route) : Result (List ExpectedHop) := do
  let hops ← routeHops route
  return hops.map fun hop => { key := hopKey route.id hop.2, route := route, depth := hop.1 }

def expectedHops (routes : List Route) : Result (List ExpectedHop) := do
  let hops ← routes.mapM expectedOfRoute
  return hops.flatten

/-- `expected.get(key)`; of two hops with one key the later one counts. -/
def findExpected (expected : List ExpectedHop) (key : HopKey) : Option ExpectedHop :=
  Keyed.find ExpectedHop.key expected.reverse key

def ACADEMIC_PROVIDERS : List String :=
  [TDM_ACADEMIC_LIST_SCHEDULE_PROVIDER, TDM_ACADEMIC_SCHEDULE_PROVIDER]

def EXTENDED_PROVIDERS : List String :=
  [TDM_BASELINE_PROVIDER, TDM_EXACT_DEPENDENCY_PROVIDER] ++ ACADEMIC_PROVIDERS

structure EntryContext where
  platform : Platform
  constraints : RouteConstraints
  graph : DirectedGraph
  allocations : BankAllocations
  expected : List ExpectedHop
  plan : Option RatioPlan
  baseline : List BaselineHop

instance wireSlotLawful : LawfulBEq (String × Int × Int) := inferInstance

/-- `entries_by_hop`, `occupancy` and `bank_directions`. -/
structure EntryTables where
  entries : List TdmEntry
  occupancy : List (String × Int × Int)
  bankDirections : List ((String × Int) × String × String)

def EntryTables.start : EntryTables := { entries := [], occupancy := [], bankDirections := [] }

/-! ## one entry -/

def checkEntryHop (ctx : EntryContext) (tables : EntryTables) (index : Nat) (entry : TdmEntry) :
    Result Unit :=
  match findExpected ctx.expected entry.key with
  | none => .error (.validation "schedule.entries[%s]: unexpected route hop %s" [toString index])
  | some expected => do
    raiseIf (entry.key ∈ tables.entries.map TdmEntry.key)
      (.validation "schedule.entries[%s]: duplicate route hop %s" [toString index])
    raiseIf (entry.net ≠ expected.route.net ∨ entry.hop ≠ expected.depth)
      (.validation "schedule.entries[%s]: net/hop does not match route" [toString index])

def checkEntryRange (ctx : EntryContext) (link : BoardLink) (index : Nat) (entry : TdmEntry) :
    Result Unit := do
  raiseIf (entry.slot < 0 ∨ (ctx.constraints.frameSlots : Int) ≤ entry.slot)
    (.validation "schedule.entries[%s].slot: out of range" [toString index])
  raiseIf (entry.lane < 0 ∨ (link.transportBitsPerCyclePerDirection : Int) ≤ entry.lane)
    (.validation "schedule.entries[%s].lane: out of range" [toString index])

def entryBank (budget : BankBudget) (entry : TdmEntry) : (String × Int) × String × String :=
  ((entry.link, entry.lane / budget.wiresPerBank), entry.source, entry.sink)

def checkEntryBank (ctx : EntryContext) (tables : EntryTables) (entry : TdmEntry) :
    Result (List ((String × Int) × String × String)) :=
  match ctx.allocations.lookup entry.arcKey with
  | none => .ok tables.bankDirections
  | some budget => do
    raiseIf (entry.lane < budget.laneOffset ∨ (budget.laneOffset + budget.lanes : Int) ≤ entry.lane)
      (ValidationError "schedule entry wire lies outside its allocated direction banks")
    let (bank, direction) := entryBank budget entry
    raiseIf ((tables.bankDirections.lookup bank).getD direction ≠ direction)
      (ValidationError "schedule bank is assigned to both directions")
    return tables.bankDirections ++ [(bank, direction)]

def checkEntryRatio (ctx : EntryContext) (link : BoardLink) (entry : TdmEntry) : Result Unit :=
  if link.tdmDelayModel = none then .ok ()
  else
    match entry.tdmRatio with
    | none => .error
      (ValidationError "schedule entry tdm_ratio is invalid for the net delay model")
    | some ratio =>
      raiseIf (ratio < ctx.constraints.tdmMinRatio ∨ (ctx.constraints.frameSlots : Int) < ratio ∨
          (ratio ≠ 1 ∧ ratio % ctx.constraints.tdmRatioQuantum ≠ 0))
        (ValidationError "schedule entry tdm_ratio is invalid for the net delay model")

def checkEntryPlan (ctx : EntryContext) (index : Nat) (entry : TdmEntry) : Result Unit :=
  match ctx.plan with
  | none => .ok ()
  | some plan => do
    let planned ← lookupOrRaise entry.link (plan.findHop entry.key)
    raiseIf (entry.ratioPlanHop ≠ some planned.index)
      (.validation "schedule.entries[%s].%s: does not match ratio plan"
        [toString index, "ratio_plan_hop"])
    raiseIf (entry.continuousRatio ≠ some planned.continuousRatio)
      (.validation "schedule.entries[%s].%s: does not match ratio plan"
        [toString index, "continuous_ratio"])
    raiseIf (entry.tdmRatio ≠ some planned.discreteRatio)
      (.validation "schedule.entries[%s].%s: does not match ratio plan"
        [toString index, "tdm_ratio"])
    raiseIf (entry.ratioWaitSlots ≠ some (entry.slot - entry.readySlot))
      (.validation "schedule.entries[%s].%s: does not match ratio plan"
        [toString index, "ratio_wait_slots"])
    raiseIf (entry.lane ≠ planned.lane)
      (.validation "schedule.entries[%s].lane: does not match ratio plan" [toString index])
    raiseIf (planned.discreteRatio ≤ entry.slot - entry.readySlot)
      (.validation "schedule.entries[%s]: wait exceeds TDM ratio window" [toString index])

def checkEntryBaseline (ctx : EntryContext) (entry : TdmEntry) : Result Unit :=
  match findBaseline ctx.baseline entry.key with
  | none => .ok ()
  | some baseline => do
    raiseIf (entry.lane ≠ baseline.lane ∨ entry.tdmRatio ≠ some baseline.discreteRatio)
      (ValidationError "baseline schedule wire/ratio differs from fixed group")
    raiseIf (baseline.discreteRatio ≤ entry.slot - entry.readySlot)
      (ValidationError "baseline schedule wait exceeds its ratio window")

/-- The entry arrives after the latency of its hop and before the barrier slot. -/
def checkEntryArrival (ctx : EntryContext) (link : BoardLink) (index : Nat) (entry : TdmEntry) :
    Result Unit := do
  let latency ← hopLatency ctx.platform ctx.constraints link entry.arcKey (entry.tdmRatio.getD 1)
  raiseIf (entry.arrivalSlot ≠ entry.slot + latency)
    (.validation "schedule.entries[%s].arrival_slot: expected %s"
      [toString index, toString (entry.slot + latency)])
  raiseIf ((ctx.constraints.frameSlots : Int) - RUNTIME_BARRIER_SLOTS ≤ entry.slot + latency)
    (.validation "schedule.entries[%s]: arrival reaches reserved runtime barrier slot"
      [toString index])

def checkEntry (ctx : EntryContext) (tables : EntryTables) (item : TdmEntry × Nat) :
    Result EntryTables := do
  let (entry, index) := item
  checkEntryHop ctx tables index entry
  let arc ← lookupOrRaise entry.link (ctx.graph.findArc entry.arcKey)
  raiseIf (entry.capacityKey ≠ arc.capacityKey)
    (.validation "schedule.entries[%s].capacity_key: incorrect" [toString index])
  let link ← lookupOrRaise entry.link (ctx.platform.findLink entry.link)
  checkEntryRange ctx link index entry
  let bankDirections ← checkEntryBank ctx tables entry
  checkEntryRatio ctx link entry
  raiseIf ((arc.capacityKey, entry.slot, entry.lane) ∈ tables.occupancy)
    (.validation "schedule collision in %r at slot=%s, lane=%s"
      [arc.capacityKey, toString entry.slot, toString entry.lane])
  checkEntryPlan ctx index entry
  checkEntryBaseline ctx entry
  checkEntryArrival ctx link index entry
  return { entries := tables.entries ++ [entry]
           occupancy := tables.occupancy ++ [(arc.capacityKey, entry.slot, entry.lane)]
           bankDirections := bankDirections }

def checkRouteHop (entries : List TdmEntry) (route : Route) (sourceReady : Int)
    (arrivals : ArrivalByNode) (hop : Nat × TreeEdge) : Result ArrivalByNode := do
  let entry ← lookupOrRaise hop.2.link (findEntry entries (hopKey route.id hop.2))
  let ready ← hopReady route sourceReady arrivals hop.2
  raiseIf (entry.readySlot ≠ ready)
    (.validation "schedule demand %r: ready-slot mismatch" [route.id])
  raiseIf (entry.slot < ready)
    (.validation "schedule demand %r: precedence violation" [route.id])
  return (hop.2.sink, entry.arrivalSlot) :: arrivals

def checkScheduledRoute (extended : Bool) (mode : ScheduleMode) (entries : List TdmEntry)
    (state : ProgressState) (route : Route) : Result ProgressState := do
  let state := state.enter route
  let (ready, records) ← sourceReadySlot independentlyReconstructExactSourceReadiness mode state
    route
  let hops ← routeHops route
  let arrivals ← hops.foldlM (checkRouteHop entries route ready) [(route.source, ready - 1)]
  finishRoute extended mode (.validation "schedule demand %r: missing sinks %s" [route.id]) state
    route ready records arrivals

/-! ## the schedule -/

/-- `expected_route_metadata`. -/
def routeMetadata (withRound : Bool) (routes : List Route) : List RouteMetadata :=
  (sortedBy Route.id routes).map fun route =>
    { id := route.id
      net := route.net
      source := route.source
      sinks := route.sinks
      treeEdges := route.treeEdges
      transportRound := if withRound then some route.round else none }

def academicPlan (routes : RoutesArtifact) (platform : Platform) (schedule : TdmSchedule)
    (ratioPlan : Option RatioPlan) : Result (Option RatioPlan) :=
  if schedule.provider ∈ ACADEMIC_PROVIDERS then
    match ratioPlan with
    | none => .error (ValidationError "academic TDM schedule validation requires ratio_plan")
    | some plan => do
      let _ ← validateTdmRatioPlan routes platform plan
      raiseIf (schedule.ratioAssignment ≠ some (ratioAssignmentOf plan))
        (ValidationError "schedule.ratio_assignment does not match ratio plan")
      return some plan
  else do
    raiseIf (ratioPlan ≠ none)
      (ValidationError "ratio_plan was supplied for a non-academic TDM schedule")
    return none

def baselineOf (plan : Option RatioPlan) (routes : List Route) (platform : Platform)
    (graph : DirectedGraph) (allocations : BankAllocations) (constraints : RouteConstraints) :
    Result (List BaselineHop) :=
  match plan with
  | some _ => .ok []
  | none => baselineRatioHops routes platform graph allocations constraints

def checkRealization (plan : Option RatioPlan) (activeRounds : List Int) (rounds : RoundState)
    (schedule : TdmSchedule) : Result Unit :=
  match plan with
  | none => .ok ()
  | some plan =>
    raiseIf (schedule.roundBarrierRealization ≠ some (roundBarrierRealization activeRounds rounds
        plan.roundBarrierLegalization.sourceReadySlot))
      (ValidationError "schedule.round_barrier_realization does not match recomputed values")

def checkExactBinding (mode : ScheduleMode) (routes : RoutesArtifact) (schedule : TdmSchedule) :
    Result Unit :=
  if mode.isExact then
    raiseIf (schedule.qualification ≠ some "dependency-schedule-readiness-pass" ∨
        schedule.transportSemantics ≠ "sampled-virtual-wire" ∨
        schedule.semanticContractSchema ≠ mode.contractSchema ∨
        schedule.semanticContractSha256 ≠ routes.semanticContractSha256)
      (ValidationError "cross-layer timing schedule binding is invalid")
  else .ok ()

def planMetrics (plan : Option RatioPlan) (hops : Nat) (entries : List TdmEntry)
    (metrics : ScheduleMetrics) : Result ScheduleMetrics :=
  match plan with
  | none => .ok metrics
  | some _ => ratioMetrics hops entries metrics

/-- `transport_semantics` of a mode. -/
def transportSemantics (exact : Bool) : String :=
  if exact then "sampled-virtual-wire" else "registered-boundary"

structure ScheduleSummary where
  qualification : Option String
  metrics : ScheduleMetrics
  routedSinks : Nat

def checkEntries (ctx : EntryContext) (entries : List TdmEntry) : Result EntryTables := do
  let tables ← entries.zipIdx.foldlM (checkEntry ctx) EntryTables.start
  raiseIf (¬ SameSet (tables.entries.map TdmEntry.key) (ctx.expected.map ExpectedHop.key))
    (ValidationError "schedule.entries: route-hop coverage is incomplete")
  return tables

/-! ## the metadata of the slot optimizer -/

/-- `math.isclose` with both tolerances `1e-10`. -/
def isClose (a b : ℚ) : Prop := |a - b| ≤ max (1 / 10 ^ 10 * max |a| |b|) (1 / 10 ^ 10)

instance (a b : ℚ) : Decidable (isClose a b) := inferInstanceAs (Decidable (_ ≤ _))

def LNS_PROVIDERS : List String :=
  ["timing-path-guided-lns-v2", "fixed-slot-event-guided-lns-v3", "fixed-slot-event-guided-lns-v4"]

def OPTIMIZATION_PROVIDERS : List String := "timing-path-guided-local-search-v1" :: LNS_PROVIDERS

def checkOptimizationMetrics (routes : RoutesArtifact) (platform : Platform)
    (entries : List TdmEntry) (completionSlot : Int) (optimization : SlotOptimization) :
    Result Unit := do
  let metrics := optimization.metrics
  raiseIf (optimization.provider ∉ OPTIMIZATION_PROVIDERS)
    (ValidationError "native TDM slot optimization metadata is invalid")
  raiseIf (optimization.maxIterations < 0)
    (ValidationError "native TDM slot optimization configuration is invalid")
  let counted : Bool := optimization.provider ∈ LNS_PROVIDERS
  raiseIf (metrics.lnsNeighborhoods.isSome ≠ counted ∨ metrics.lnsEvaluatedOrders.isSome ≠ counted)
    (ValidationError "native TDM slot optimization metric coverage is invalid")
  raiseIf (metrics.iterations < 0)
    (.validation "native TDM slot optimization %s is invalid" ["iterations"])
  raiseIf (metrics.acceptedMoves < 0)
    (.validation "native TDM slot optimization %s is invalid" ["accepted_moves"])
  raiseIf (metrics.evaluatedMoves < 0)
    (.validation "native TDM slot optimization %s is invalid" ["evaluated_moves"])
  raiseIf (metrics.lnsNeighborhoods.getD 0 < 0)
    (.validation "native TDM slot optimization %s is invalid" ["lns_neighborhoods"])
  raiseIf (metrics.lnsEvaluatedOrders.getD 0 < 0)
    (.validation "native TDM slot optimization %s is invalid" ["lns_evaluated_orders"])
  let waits ← entries.mapM fun entry => lookupOrRaise "ratio_wait_slots" entry.ratioWaitSlots
  raiseIf (optimization.maxIterations < metrics.iterations ∨
      metrics.iterations < metrics.acceptedMoves ∨ metrics.completionSlot ≠ completionSlot ∨
      metrics.totalWaitSlots ≠ waits.sum)
    (ValidationError "native TDM slot optimization metrics are inconsistent")
  let timing ← reconstructTdmScheduleTiming routes platform entries
  raiseIf (¬ isClose metrics.worstNormalizedSlack timing.worstNormalizedSlack ∨
      metrics.worstNormalizedSlack + 1 / 10 ^ 12 < metrics.baselineWorstNormalizedSlack)
    (ValidationError "native TDM slot optimization timing metrics are inconsistent")

def checkSlotOptimization (routes : RoutesArtifact) (platform : Platform)
    (schedule : TdmSchedule) (metrics : ScheduleMetrics) : Result Unit :=
  if schedule.provider = TDM_ACADEMIC_SCHEDULE_PROVIDER then
    match schedule.slotOptimization with
    | none => .error (ValidationError "native TDM slot optimization metadata is invalid")
    | some optimization =>
      checkOptimizationMetrics routes platform schedule.entries metrics.completionSlot optimization
  else .ok ()

def extendedSchedule (schedule : TdmSchedule) : Bool := schedule.provider ∈ EXTENDED_PROVIDERS

/-- The part before the loop over the entries: the mode, and what the entries are checked
against. -/
def scheduleContext (digests : Digests) (routes : RoutesArtifact) (platform : Platform)
    (schedule : TdmSchedule) (ratioPlan : Option RatioPlan) :
    Result (ScheduleMode × EntryContext) := do
  let exactContract ← staticExactContractFromRoutes digests routes
  raiseIf (schedule.schema ≠ TDM_SCHEDULE_SCHEMA)
    (.validation "schedule.schema: expected %r, got %r" [TDM_SCHEDULE_SCHEMA, schedule.schema])
  raiseIf (schedule.transportSemantics ≠ transportSemantics exactContract.isSome)
    (ValidationError "schedule.transport_semantics does not match the Phase 3 timing contract")
  let constraints ← normalizeRouteConstraints schedule.routeConstraints platform
  let routeConstraints ← normalizeRouteConstraints routes.constraints platform
  raiseIf (constraints ≠ routeConstraints)
    (ValidationError "schedule.route_constraints does not match routes")
  let mode ← scheduleMode exactContract constraints.frameSlots
  raiseIf (mode.isExact ∧ schedule.timingConstraints ≠ mode.timing)
    (ValidationError "sampled virtual-wire timing constraints do not match Phase 5 policy")
  let graph ← buildDirectedGraph platform constraints false
  let allocations ← bankDirectionAllocations routes.routes platform constraints
  raiseIf (allocations ≠ [] ∧ schedule.bankAllocations ≠ some (bankAllocationRecords allocations))
    (ValidationError "schedule.bank_allocations does not match routed bank allocation")
  let expected ← expectedHops routes.routes
  let plan ← academicPlan routes platform schedule ratioPlan
  raiseIf (schedule.routes ≠
      routeMetadata (extendedSchedule schedule ∧ ¬ mode.isExact) routes.routes)
    (ValidationError "schedule.routes does not match system routes")
  let baseline ← baselineOf plan routes.routes platform graph allocations constraints
  return (mode, { platform := platform, constraints := constraints, graph := graph
                  allocations := allocations, expected := expected, plan := plan
                  baseline := baseline })

def checkScheduleRecords (digests : Digests) (routes : RoutesArtifact) (schedule : TdmSchedule)
    (mode : ScheduleMode) (ctx : EntryContext) (ordered : List Route) (activeRounds : List Int)
    (state : ProgressState) : Result ScheduleSummary := do
  raiseIf (schedule.demandCompletions ≠ sortedBy Completion.demand state.completions)
    (ValidationError "schedule.demand_completions does not match recomputed values")
  checkRealization ctx.plan activeRounds state.rounds schedule
  let domains ← domainScheduleRecords ctx.platform ctx.constraints ctx.graph schedule.entries
  raiseIf (schedule.domainSchedules ≠ domains)
    (ValidationError "schedule.domain_schedules does not match recomputed occupancy")
  checkExactBinding mode routes schedule
  let certificate ← scheduleCertificate digests independentlyReconstructExactCaptures mode ordered
    state
  raiseIf (mode.isExact ∧ schedule.scheduleDependencyCertificate ≠ certificate)
    (ValidationError
      "cross-layer timing readiness certificate does not match independent reconstruction")
  let hops := (ctx.expected.map ExpectedHop.key).dedup.length
  let metrics ← modeMetrics (extendedSchedule schedule) mode ordered activeRounds certificate
    (baseMetrics routes.routes.length hops ctx.constraints.frameSlots
      (sortedBy Completion.demand state.completions) domains)
  let metrics ← planMetrics ctx.plan hops schedule.entries metrics
  raiseIf (schedule.metrics ≠ metrics)
    (ValidationError "schedule.metrics does not match independently recomputed metrics")
  return { qualification :=
             if mode.isExact then some "dependency-schedule-readiness-pass" else none
           metrics := metrics
           routedSinks := (routes.routes.map fun route => route.sinks.length).sum }

/-- `validate_tdm_schedule`, up to the metadata of the slot optimizer. -/
def validateScheduleBody (digests : Digests) (routes : RoutesArtifact) (platform : Platform)
    (schedule : TdmSchedule) (ratioPlan : Option RatioPlan) : Result ScheduleSummary := do
  let (mode, ctx) ← scheduleContext digests routes platform schedule ratioPlan
  let tables ← checkEntries ctx schedule.entries
  let (ordered, activeRounds) ← orderRoutes mode routes.routes none ctx.plan
  let state ← ordered.foldlM
    (checkScheduledRoute (extendedSchedule schedule) mode tables.entries) ProgressState.start
  checkScheduleRecords digests routes schedule mode ctx ordered activeRounds state

def validateTdmSchedule (digests : Digests) (routes : RoutesArtifact) (platform : Platform)
    (schedule : TdmSchedule) (ratioPlan : Option RatioPlan) : Result ScheduleSummary := do
  let summary ← validateScheduleBody digests routes platform schedule ratioPlan
  checkSlotOptimization routes platform schedule summary.metrics
  return summary

end EmuFlow.Tdm
