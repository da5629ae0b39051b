import EmuFlow.SystemTiming.FixedSlot

/-!
# System timing paths

The path records of `build_system_timing` in `emuflow/system_timing.py`: one for every local path
of a physical database and one for every member of a path that crosses FPGAs. The delay of a path
comes from partition maxima, from routed segments or from its fixed-slot event; its runtime slack
is what the virtual period leaves after the required-time adjustment and the delay.
-/

namespace EmuFlow.SystemTiming

open Check SortedSet Routing Tdm

inductive PathScope where
  | sameFpgaLocal
  | crossFpga

/-- An entry of `paths`. The fields of an event are there together or not at all. -/
structure SystemPath where
  path : String
  representativePath : String
  pathScope : PathScope
  clockDomain : String
  targetPeriodNs : ℚ
  targetRequiredTimeNs : ℚ
  sourceRequiredTimeAdjustmentNs : ℚ
  virtualPeriodNs : ℚ
  runtimeRequiredTimeNs : ℚ
  logicalFpgaSequence : List String
  logicalCutTransitions : List CutTransition
  routedHops : Nat
  preplacementFixedDelayNs : Option ℚ
  physicalLogicDelayBoundNs : ℚ
  physicalInterfaceDelayBoundNs : ℚ
  physicalInterfaceModel : String
  physicalLogicModel : String
  physicalLogicMemberPath : Option String
  physicalRoutedStageDelayBoundNs : ℚ
  scheduledLinkTdmDelayNs : ℚ
  scheduledLinkTdmModelDelayNs : ℚ
  scheduledLinkTdmModel : String
  systemDelayBoundNs : ℚ
  targetClockSlackBoundNs : ℚ
  runtimeClockSlackBoundNs : ℚ
  partitionChainExact : Bool
  physicalLogicSegmentsExact : Bool
  physicalLogicSegmentsConeBound : Bool
  event : Option FixedSlotEvent := none

/-! ## local paths -/

def localMeasurement (measurement : String) : Result (String × Bool) :=
  if measurement = "explicit-routed-path-chain" then
    .ok ("routed-selected-path-chain-exact", true)
  else if measurement = "endpoint-longest-path-fallback" then
    .ok ("routed-endpoint-longest-path-conservative", false)
  else .error (ValidationError "physical local path measurement is invalid")

def localSystemPath (runtime : Runtime) (fpga : String) (item : LocalPath) : Result SystemPath := do
  let virtualPeriod ← runtimeClockPeriodNs runtime item.clockDomain
  let requiredTime := item.requiredTimeNs.getD item.clockPeriodNs
  let (model, exact) ← localMeasurement item.measurement
  return { path := item.id
           representativePath := item.id
           pathScope := .sameFpgaLocal
           clockDomain := item.clockDomain
           targetPeriodNs := item.clockPeriodNs
           targetRequiredTimeNs := requiredTime
           sourceRequiredTimeAdjustmentNs := item.clockPeriodNs - requiredTime
           virtualPeriodNs := virtualPeriod
           runtimeRequiredTimeNs := virtualPeriod - (item.clockPeriodNs - requiredTime)
           logicalFpgaSequence := [fpga]
           logicalCutTransitions := []
           -- the source writes an empty list here, and a count for a crossing path
           routedHops := 0
           preplacementFixedDelayNs := none
           physicalLogicDelayBoundNs := item.delayNs
           physicalInterfaceDelayBoundNs := 0
           physicalInterfaceModel := "not-applicable-local-path"
           physicalLogicModel := model
           physicalLogicMemberPath := some item.id
           physicalRoutedStageDelayBoundNs := item.delayNs
           scheduledLinkTdmDelayNs := 0
           scheduledLinkTdmModelDelayNs := 0
           scheduledLinkTdmModel := "not-applicable-local-path"
           systemDelayBoundNs := item.delayNs
           targetClockSlackBoundNs := requiredTime - item.delayNs
           runtimeClockSlackBoundNs :=
             virtualPeriod - (item.clockPeriodNs - requiredTime) - item.delayNs
           partitionChainExact := true
           physicalLogicSegmentsExact := exact
           physicalLogicSegmentsConeBound := !exact }

section
variable {E : Type} (readers : TimingReaders E)

def addLocalPath (runtime : Runtime) (fpga : String) (records : List SystemPath)
    (item : LocalPath) : Result (List SystemPath) := do
  raiseIf (item.id ∈ records.map SystemPath.path)
    (.validation "duplicate physical local timing path %r" [item.id])
  let record ← localSystemPath runtime fpga item
  return records ++ [record]

def addLocalDatabase (runtime : Runtime) (state : List SystemPath × Option LocalPathSource)
    (item : String × LocalPathDatabase E) :
    Result (List SystemPath × Option LocalPathSource) := do
  readers.validateLocalPathTiming item.2
  raiseIf (item.2.fpga ≠ item.1) (ValidationError "physical local path FPGA identity disagrees")
  raiseIf (∃ source ∈ state.2, item.2.source ≠ source)
    (ValidationError "physical local path source seals disagree")
  let records ← item.2.paths.foldlM (addLocalPath runtime item.1) state.1
  return (records, some item.2.source)

def checkRoutesSeal (routesArtifactSha256 : Option String) :
    Option LocalPathSource → Result Unit
  | none => .ok ()
  | some source =>
    match routesArtifactSha256 with
    | none => .error (ValidationError
        "physical local path timing requires the concrete route artifact digest")
    | some digest => raiseIf (digest ≠ source.routesSha256)
        (ValidationError "physical local path timing is bound to another route artifact")

def localPathDatabase (summary : PhysicalSummary E) (runtime : Runtime)
    (routesArtifactSha256 : Option String) :
    Result (List SystemPath × Option LocalPathSource) :=
  match summary.localPathTiming with
  | none => .ok ([], none)
  | some raw => do
    raiseIf (raw = []) (ValidationError "physical local path timing map is invalid")
    let (records, source) ← (sortedBy Prod.fst raw).foldlM (addLocalDatabase readers runtime)
      ([], none)
    checkRoutesSeal routesArtifactSha256 source
    return (sortedBy SystemPath.path records, source)

end

structure TimingDatabases where
  delays : List FpgaDelays
  endpointDelays : Option (List (String × ℚ))
  logicSegments : Option (List RoutedSegment)
  boardLinkDelays : Option (List (ArcKey × ℚ))

def pathDelays (dbs : TimingDatabases) (record : PathRecord) (partitions : List String) :
    Result (List FpgaDelays) := do
  raiseIf (∃ fpga ∈ partitions, fpga ∉ dbs.delays.map FpgaDelays.fpga)
    (.validation "system timing path %s uses unknown FPGAs %s" (record.path ::
      sortedSet (partitions.filter fun fpga => fpga ∉ dbs.delays.map FpgaDelays.fpga)))
  let found ← partitions.mapM (findDelays dbs.delays)
  raiseIf (∃ delay ∈ found, delay.active = false)
    (.validation "system timing path %s crosses inactive FPGAs %s" (record.path ::
      sortedSet ((found.filter fun delay => delay.active = false).map FpgaDelays.fpga)))
  return found

def hopCrossDelay (dbs : TimingDatabases) (hop : ScheduledHop) : Result ℚ := do
  let source ← findDelays dbs.delays hop.source
  let sink ← findDelays dbs.delays hop.sink
  return source.cross + sink.cross

/-- `interface_delay` with its model. -/
def interfaceDelay (dbs : TimingDatabases) (record : PathRecord) : Result (ℚ × String) :=
  match dbs.endpointDelays with
  | none => do
    let delays ← record.scheduledHops.mapM (hopCrossDelay dbs)
    return (delays.sum, "per-partition-interface-maxima-upper-bound")
  | some endpoints => do
    let ids := record.scheduledHops.flatMap fun hop => [hop.txEndpoint, hop.rxEndpoint]
    raiseIf (∃ id ∈ ids, id ∉ endpoints.map Prod.fst)
      (.validation "system timing path %s lacks endpoint timing for %s" (record.path ::
        (sortedSet (ids.filter fun id => id ∉ endpoints.map Prod.fst)).take 10))
    let delays ← ids.mapM fun id => lookupOrRaise id (endpoints.lookup id)
    return (delays.sum, "routed-endpoint-exact")

/-! ## routed segments -/

structure MemberMeasurement where
  physicalDelay : ℚ
  localDelay : ℚ
  interfaceDelay : ℚ
  coneBoundSegments : Nat
  segments : List RoutedSegment

def coversCuts (record : PathRecord) (segments : List RoutedSegment) : Bool :=
  segments.length = record.cutNets.length + 1 ∧
    segments.countP (fun segment => segment.kind = .launch) = 1 ∧
    segments.countP (fun segment => segment.kind = .capture) = 1 ∧
    segments.countP (fun segment => segment.kind = .transition) + 1 = record.cutNets.length ∧
    sorted (segments.map RoutedSegment.cutIndex) = List.range (record.cutNets.length + 1)

def measureMember (endpoints : List (String × ℚ)) (record : PathRecord) (interfaceNs : ℚ)
    (segments : List RoutedSegment) : Result MemberMeasurement := do
  let replacements := segments.filterMap RoutedSegment.replaceTxEndpoint
  raiseIf (replacements.length ≠ record.cutNets.length ∨ ¬ replacements.Nodup ∨
      ∃ id ∈ replacements, id ∉ endpoints.map Prod.fst)
    (.validation "system timing path %s logic segment replacement coverage is invalid"
      [record.path])
  let replaced ← replacements.mapM fun id => lookupOrRaise id (endpoints.lookup id)
  let unreplaced := interfaceNs - replaced.sum
  raiseIf (unreplaced < -(1 / 100000000))
    (.validation "system timing path %s has invalid endpoint replacement accounting" [record.path])
  let segmentDelay := (segments.map RoutedSegment.delayNs).sum
  return { physicalDelay := max 0 unreplaced + segmentDelay
           localDelay := segmentDelay
           interfaceDelay := max 0 unreplaced
           coneBoundSegments := segments.countP fun segment =>
             segment.measurement = "cut-net-cone-upper-bound"
           segments := sortedBy RoutedSegment.cutIndex segments }

/-- The loop over the members; the first one without coverage ends it. -/
def measureMembers (endpoints : List (String × ℚ)) (segments : List RoutedSegment)
    (record : PathRecord) (interfaceNs : ℚ) :
    List String → Result (Option (List (String × MemberMeasurement)))
  | [] => .ok (some [])
  | member :: rest => do
    let own := segments.filter fun segment =>
      segment.systemPath = record.path ∧ segment.memberPath = member
    if coversCuts record own then
      let measurement ← measureMember endpoints record interfaceNs own
      let others ← measureMembers endpoints segments record interfaceNs rest
      return others.map fun others => (member, measurement) :: others
    else return none

def memberPhysical (dbs : TimingDatabases) (record : PathRecord) (interfaceNs : ℚ) :
    Result (Option (List (String × MemberMeasurement))) :=
  match dbs.logicSegments, dbs.endpointDelays with
  | some segments, some endpoints =>
    if record.compressedPathIds = [] then .ok none
    else measureMembers endpoints segments record interfaceNs record.compressedPathIds
  | _, _ => .ok none

def checkDutClocks (record : PathRecord) (partitions : List FpgaDelays)
    (physical : Option (List (String × MemberMeasurement))) : Result Unit :=
  raiseIf (physical.isNone ∧ ∃ delay ∈ partitions, delay.dutPresent = false)
    (.validation
      "system timing path %s crosses DUT-clockless partitions without complete routed logic segments: %s"
      (record.path ::
        (partitions.filter fun delay => delay.dutPresent = false).map FpgaDelays.fpga))

def hopTransportDelay (platform : Platform) (schedule : TdmSchedule)
    (boardLinks : List (ArcKey × ℚ)) (hop : ScheduledHop) : Result ℚ := do
  let link ← lookupOrRaise hop.link (platform.findLink hop.link)
  match link.tdmDelayModel with
  | some model => do
    let entry ← lookupOrRaise hop.scheduleEntry (findEntryById schedule.entries hop.scheduleEntry)
    ratioDelayNs model entry.tdmRatio
  | none => do
    let delay ← lookupOrRaise hop.link (boardLinks.lookup hop.arcKey)
    return delay + hop.tdmWaitSlots * hop.tdmSlotNs

/-- `transport_delay` with its model. -/
def transportDelay (dbs : TimingDatabases) (platform : Platform) (schedule : TdmSchedule)
    (record : PathRecord) : Result (ℚ × String) :=
  match dbs.boardLinkDelays with
  | none => .ok (record.transportDelayNs, "phase5-boarddb-model")
  | some boardLinks => do
    let delays ← record.scheduledHops.mapM (hopTransportDelay platform schedule boardLinks)
    return (delays.sum, "board-link-timing-db")

/-! ## crossing paths -/

structure MemberDelays where
  logicNs : ℚ
  interfaceNs : ℚ
  stageNs : ℚ
  interfaceModel : String
  logicModel : String
  transportNs : ℚ
  transportModel : String
  totalNs : ℚ
  exact : Bool
  coneBound : Bool
  measured : Bool
  event : Option FixedSlotEvent

structure CrossContext where
  platform : Platform
  /-- The fixed-slot evaluator, on a fixed-slot schedule. -/
  fixedSlot : Option TransportContext
  sampled : Bool
  localNs : ℚ
  interfaceNs : ℚ
  interfaceModel : String
  transportNs : ℚ
  transportModel : String
  physical : Option (List (String × MemberMeasurement))

def maximaDelays (ctx : CrossContext) : MemberDelays :=
  { logicNs := ctx.localNs
    interfaceNs := ctx.interfaceNs
    stageNs := ctx.localNs + ctx.interfaceNs
    interfaceModel := ctx.interfaceModel
    logicModel := "per-partition-maximum-upper-bound"
    transportNs := ctx.transportNs
    transportModel := ctx.transportModel
    totalNs := ctx.localNs + ctx.interfaceNs + ctx.transportNs
    exact := false
    coneBound := false
    measured := false
    event := none }

def measuredDelays (ctx : CrossContext) (measurement : MemberMeasurement) : MemberDelays :=
  { logicNs := measurement.localDelay
    interfaceNs := measurement.interfaceDelay
    stageNs := measurement.physicalDelay
    interfaceModel := "routed-endpoint-exact-unreplaced-stages"
    logicModel := if 0 < measurement.coneBoundSegments then "routed-staging-chain-cone-upper-bound"
      else "routed-staging-chain-exact"
    transportNs := ctx.transportNs
    transportModel := ctx.transportModel
    totalNs := measurement.physicalDelay + ctx.transportNs
    exact := measurement.coneBoundSegments = 0
    coneBound := 0 < measurement.coneBoundSegments
    measured := true
    event := none }

def eventTransportModel (ctx : CrossContext) : String :=
  if ∃ link ∈ ctx.platform.links, link.tdmDelayModel ≠ none then "linear-ratio-v1"
  else if ctx.sampled then "sampled-virtual-wire-event-propagation"
  else "registered-boundary-fixed-slot-event-propagation"

def eventDelays (ctx : CrossContext) (delays : MemberDelays) (event : FixedSlotEvent) :
    MemberDelays :=
  { delays with
    logicNs := event.physicalLogicDelayBoundNs
    interfaceNs := event.physicalInterfaceDelayBoundNs
    stageNs := event.physicalRoutedStageDelayBoundNs
    transportNs := event.scheduledLinkTdmDelayNs
    transportModel := eventTransportModel ctx
    totalNs := event.systemDelayBoundNs
    event := some event }

def memberDelays (ctx : CrossContext) (record : PathRecord) (member : String) :
    Result MemberDelays :=
  match ctx.physical with
  | none => .ok (maximaDelays ctx)
  | some measurements => do
    let measurement ← lookupOrRaise member (measurements.lookup member)
    match ctx.fixedSlot with
    | none => return measuredDelays ctx measurement
    | some transport => do
      let event ← fixedSlotTransportPathDelay transport record member measurement.segments
      return eventDelays ctx (measuredDelays ctx measurement) event

def crossSystemPath (record : PathRecord) (partitions : List String) (discontinuities : Nat)
    (virtualPeriod : ℚ) (member : String) (delays : MemberDelays) : SystemPath :=
  let adjustment := record.clockPeriodNs - record.requiredTimeNs
  { path := member
    representativePath := record.path
    pathScope := .crossFpga
    clockDomain := record.clockDomain
    targetPeriodNs := record.clockPeriodNs
    targetRequiredTimeNs := record.requiredTimeNs
    sourceRequiredTimeAdjustmentNs := adjustment
    virtualPeriodNs := virtualPeriod
    runtimeRequiredTimeNs := virtualPeriod - adjustment
    logicalFpgaSequence := partitions
    logicalCutTransitions := record.cutTransitions
    routedHops := record.routedHops
    preplacementFixedDelayNs := some record.preplacementFixedDelayNs
    physicalLogicDelayBoundNs := delays.logicNs
    physicalInterfaceDelayBoundNs := delays.interfaceNs
    physicalInterfaceModel := delays.interfaceModel
    physicalLogicModel := delays.logicModel
    physicalLogicMemberPath := if delays.measured then some member else none
    physicalRoutedStageDelayBoundNs := delays.stageNs
    scheduledLinkTdmDelayNs := delays.transportNs
    scheduledLinkTdmModelDelayNs := record.transportDelayNs
    scheduledLinkTdmModel := delays.transportModel
    systemDelayBoundNs := delays.totalNs
    targetClockSlackBoundNs := record.requiredTimeNs - delays.totalNs
    runtimeClockSlackBoundNs := virtualPeriod - adjustment - delays.totalNs
    partitionChainExact := discontinuities = 0
    physicalLogicSegmentsExact := delays.exact
    physicalLogicSegmentsConeBound := delays.coneBound
    event := delays.event }

def crossPaths (dbs : TimingDatabases) (platform : Platform) (schedule : TdmSchedule)
    (fixedSlot : Option TransportContext) (sampled : Bool) (runtime : Runtime)
    (record : PathRecord) : Result (List SystemPath) := do
  let (partitions, discontinuities) ← logicPartitionSequence record.cutTransitions
  let found ← pathDelays dbs record partitions
  let (interfaceNs, interfaceModel) ← interfaceDelay dbs record
  let physical ← memberPhysical dbs record interfaceNs
  checkDutClocks record found physical
  let (transportNs, transportModel) ← transportDelay dbs platform schedule record
  let virtualPeriod ← runtimeClockPeriodNs runtime record.clockDomain
  let ctx : CrossContext :=
    { platform := platform
      fixedSlot := fixedSlot
      sampled := sampled
      localNs := (found.map FpgaDelays.dut).sum
      interfaceNs := interfaceNs
      interfaceModel := interfaceModel
      transportNs := transportNs
      transportModel := transportModel
      physical := physical }
  record.compressedPathIds.mapM fun member => do
    let delays ← memberDelays ctx record member
    return crossSystemPath record partitions discontinuities virtualPeriod member delays

end EmuFlow.SystemTiming
