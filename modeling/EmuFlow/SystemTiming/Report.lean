import EmuFlow.SystemTiming.Paths

/-!
# The system timing report

`build_system_timing` of `emuflow/system_timing.py`: the records of all paths, the worst of them
under the target and the runtime clocks, the smallest period that is reported as safe, and the
status of the report.
-/

namespace EmuFlow.SystemTiming

open Check SortedSet Routing Tdm SystemPath

def SYSTEM_TIMING_SCHEMA : String := "emuflow.system-timing/v2"

/-! ## phase 5 -/

/-- `timing_validation` of a Phase-5 report. -/
structure Phase5Timing where
  status : String
  worstDelayNs : Option ℚ
  worstSlackNs : Option ℚ

/-- The tolerance of the comparison with Phase 5, `1.0e-8`. -/
def PHASE5_TOLERANCE_NS : ℚ := 1 / 100000000

def checkPhase5Field (field : String) (actual : Option ℚ) (expected : ℚ) : Result Unit :=
  match actual with
  | none => .error (.validation "%s must be a finite number" ["Phase 5 " ++ field])
  | some actual => raiseIf (PHASE5_TOLERANCE_NS < |actual - expected|)
      (.validation "Phase 5 %s does not match schedule reconstruction" [field])

def checkPhase5 (records : List PathRecord) (phase5 : Option Phase5Timing) : Result Unit :=
  match phase5, (sortedBy (fun r : PathRecord => lex r.normalizedSlack r.path) records).head? with
  | none, _ => .error (ValidationError "Phase 5 has no passing scheduled timing")
  | some _, none => .error (ValidationError "system timing has no cross-FPGA timing paths")
  | some reported, some worst => do
    raiseIf (reported.status ≠ "pass")
      (ValidationError "Phase 5 has no passing scheduled timing")
    checkPhase5Field "worst_delay_ns" reported.worstDelayNs worst.delayNs
    checkPhase5Field "worst_slack_ns" reported.worstSlackNs worst.slackNs

def isSampledVirtualWireSchedule (schedule : TdmSchedule) : Bool :=
  schedule.transportSemantics = "sampled-virtual-wire" ∧ schedule.semanticContractSha256.isSome ∧
    schedule.scheduleDependencyCertificate.isSome

def isFixedSlotTransportSchedule (schedule : TdmSchedule) : Bool :=
  schedule.transportSemantics = "registered-boundary" ∨
    schedule.transportSemantics = "sampled-virtual-wire"

def commitSlotOf {E : Type} (schedule : TdmSchedule) (deadlines : Option (ExactDeadlines E)) :
    Result Int :=
  match deadlines with
  | some deadlines => .ok deadlines.commitSlot
  | none => do
    let constraints ← lookupOrRaise "route_constraints" schedule.routeConstraints
    let frameSlots ← lookupOrRaise "frame_slots" constraints.frameSlots
    return frameSlots - 1

/-! ## the report -/

/-- `path_exactness`, its counters. -/
structure PathExactness where
  endpointExactLogicPaths : Nat
  coneBoundLogicPaths : Nat
  fallbackLogicPaths : Nat
  localOriginalPathsEndpointExact : Nat
  localOriginalPathsConeBound : Nat
  discontinuousCompressedPaths : Nat
  sampledEventPaths : Nat
  sampledEventFailures : Nat
  fixedSlotEventPaths : Nat
  fixedSlotEventFailures : Nat

/-- `target_clock`, and the part `runtime_clock` shares with it. -/
structure ClockSummary where
  worstPath : String
  worstSlackBoundNs : ℚ
  negativeSlackPaths : Nat
  tnsBoundNs : ℚ

structure RuntimeClockSummary extends ClockSummary where
  periodNs : ℚ
  frequencyMhz : ℚ
  minimumSafePeriodBoundNs : ℚ
  maximumSafeFrequencyBoundMhz : ℚ

structure ReportSummary where
  timingPaths : Nat
  originalPaths : Option Nat
  originalLocalPaths : Nat
  originalCrossFpgaPaths : Nat
  compressedRepresentativePaths : Nat
  originalPathCoverage : Option ℚ
  originalPathIdsSha256 : Option String
  maximumSystemDelayBoundNs : ℚ

structure SystemTimingReport (E : Type) where
  schema : String := SYSTEM_TIMING_SCHEMA
  status : TimingStatus
  design : String
  platform : String
  qualification : String
  timingScope : String
  pathExactness : PathExactness
  physicalProvider : Option String
  physicalQualification : Option String
  staticExactSegmentDeadlines : Option (ExactDeadlines E)
  sourceBinding : Option LocalPathSource
  targetClock : ClockSummary
  runtimeClock : RuntimeClockSummary
  summary : ReportSummary
  paths : List SystemPath

/-- `min(paths, key=...)` by a slack and then by the id. -/
def worstBy (slack : SystemPath → ℚ) (paths : List SystemPath) : Result SystemPath :=
  match (sortedBy (fun p => lex (slack p) p.path) paths).head? with
  | some worst => .ok worst
  | none => .error (.valueError "min() arg is an empty sequence" [])

def clockSummary (slack : SystemPath → ℚ) (paths : List SystemPath) : Result ClockSummary := do
  let worst ← worstBy slack paths
  return { worstPath := worst.path
           worstSlackBoundNs := slack worst
           negativeSlackPaths := paths.countP fun p => slack p < 0
           tnsBoundNs := (paths.map fun p => min 0 (slack p)).sum }

def maximumDelay : List SystemPath → Result ℚ
  | [] => .error (.valueError "max() arg is an empty sequence" [])
  | first :: rest => .ok ((rest.map systemDelayBoundNs).foldl max
      first.systemDelayBoundNs)

def floatDivision (a b : ℚ) : Result ℚ := do
  raiseIf (b = 0) (.raised "ZeroDivisionError" "float division by zero")
  return a / b

/-! ## status and qualification -/

structure EventCounts where
  crossPaths : Nat
  fixedSlotEventPaths : Nat
  fixedSlotEventFailures : Nat

def eventCounts (crossPaths : List SystemPath) : EventCounts :=
  { crossPaths := crossPaths.length
    fixedSlotEventPaths := crossPaths.countP fun p => p.event.isSome
    fixedSlotEventFailures := crossPaths.countP fun p =>
      ∃ event ∈ p.event, event.fixedSlotEventTimingStatus = .fail }

/-- The status a fixed-slot schedule leaves of `status`. -/
def fixedSlotStatus (fixedSlot : Bool) (counts : EventCounts) (status : TimingStatus) :
    TimingStatus :=
  if fixedSlot then
    if counts.fixedSlotEventPaths ≠ counts.crossPaths then .incomplete
    else if counts.fixedSlotEventFailures ≠ 0 then .fail
    else status
  else status

/-- The status the exact settle windows leave of `status`. A sampled schedule counts the same
events twice. -/
def exactStatus {E : Type} (deadlines : Option (ExactDeadlines E)) (counts : EventCounts)
    (status : TimingStatus) : TimingStatus :=
  match deadlines with
  | none => status
  | some deadlines =>
    if deadlines.status = .incomplete then .incomplete
    else if deadlines.status = .fail then .fail
    else if counts.fixedSlotEventPaths ≠ counts.crossPaths then .incomplete
    else if counts.fixedSlotEventFailures ≠ 0 then .fail
    else status

def reportStatus {E : Type} (runtimeWns : ℚ) (fixedSlot : Bool)
    (deadlines : Option (ExactDeadlines E)) (counts : EventCounts) : TimingStatus :=
  exactStatus deadlines counts
    (fixedSlotStatus fixedSlot counts (if 0 ≤ runtimeWns then .pass else .fail))

def reportQualification (sampled fixedSlot endpoints : Bool) (counts : EventCounts)
    (total exact measured : Nat) : String :=
  let events : Bool := counts.fixedSlotEventPaths = counts.crossPaths
  if sampled ∧ events ∧ exact = total then "sampled-virtual-wire-event-propagated-physical"
  else if fixedSlot ∧ ¬ sampled ∧ events ∧ exact = total then
    "registered-boundary-event-propagated-physical"
  else if fixedSlot ∧ ¬ sampled ∧ events ∧ measured = total then
    "registered-boundary-event-propagated-physical-bounds"
  else if sampled ∧ events ∧ measured = total then
    "sampled-virtual-wire-event-propagated-physical-bounds"
  else if exact = total then "staging-aware-physical-plus-concrete-link-tdm"
  else if measured = total then "staging-aware-routed-physical-bounds-plus-concrete-link-tdm"
  else if 0 < measured then "hybrid-staging-aware-and-partition-maxima-plus-concrete-link-tdm"
  else if endpoints then
    "partition-logic-maxima-plus-endpoint-exact-interface-plus-concrete-link-tdm"
  else "conservative-partition-physical-maxima-plus-concrete-link-tdm"

/-! ## building the report -/

section
variable {E : Type} (readers : TimingReaders E)

/-- What is read before the paths. None of it depends on the runtime. -/
structure TimingInputs (E : Type) where
  records : List PathRecord
  databases : TimingDatabases
  deadlines : Option (ExactDeadlines E)
  fixedSlot : Option TransportContext

def exactDeadlines (schedule : TdmSchedule) (summary : PhysicalSummary E) (platform : Platform)
    (semanticContract : Option E) : Result (Option (ExactDeadlines E)) :=
  if isSampledVirtualWireSchedule schedule then
    match semanticContract with
    | none => .error (ValidationError
        "sampled virtual-wire timing requires the Phase 3 semantic contract")
    | some contract => do
      let deadlines ← readers.staticExactSegmentDeadlines schedule contract summary platform
      return some deadlines
  else .ok none

/-- The evaluator of a fixed-slot schedule; without endpoint delays it is never called. -/
def transportContext (routes : RoutesArtifact) (schedule : TdmSchedule)
    (summary : PhysicalSummary E) (platform : Platform) (databases : TimingDatabases)
    (deadlines : Option (ExactDeadlines E)) : Result (Option TransportContext) :=
  if isFixedSlotTransportSchedule schedule then do
    let commitSlot ← commitSlotOf schedule deadlines
    return some
      { platform := platform
        transportSemantics := schedule.transportSemantics
        endpointDelays := databases.endpointDelays.getD []
        boardLinkDelays := databases.boardLinkDelays
        scheduleEntries := schedule.entries
        routes := routes.routes
        commitSlot := commitSlot
        uncertaintyNs := summary.staticExactClockUncertaintyNs }
  else return none

def readTimingInputs (routes : RoutesArtifact) (schedule : TdmSchedule)
    (phase5 : Option Phase5Timing) (summary : PhysicalSummary E) (platform : Platform)
    (semanticContract : Option E) : Result (TimingInputs E) := do
  let records ← reconstructTdmScheduleTimingPaths routes platform schedule
  raiseIf (records = []) (ValidationError "system timing has no cross-FPGA timing paths")
  checkPhase5 records phase5
  let delays ← physicalDelayDatabase summary
  let endpointDelays ← endpointDelayDatabase readers summary
  let logicSegments ← logicSegmentDatabase readers summary
  let boardLinkDelays ← boardLinkDelayDatabase readers summary platform
  let deadlines ← exactDeadlines readers schedule summary platform semanticContract
  let databases : TimingDatabases :=
    { delays := delays
      endpointDelays := endpointDelays
      logicSegments := logicSegments
      boardLinkDelays := boardLinkDelays }
  let fixedSlot ← transportContext routes schedule summary platform databases deadlines
  raiseIf (summary.staticExactClockUncertaintyNs < 0)
    (ValidationError "sampled virtual-wire clock uncertainty must be non-negative")
  raiseIf (¬ SameSet (delays.map FpgaDelays.fpga) platform.fpgaIds)
    (ValidationError "system timing physical delay database does not cover BoardDB")
  return { records := records, databases := databases, deadlines := deadlines
           fixedSlot := fixedSlot }

def checkCoverage (paths : List SystemPath) (source : Option LocalPathSource) : Result Unit := do
  raiseIf (¬ (paths.map path).Nodup)
    (ValidationError "same-FPGA and cross-FPGA timing path populations overlap")
  match source with
  | none => return ()
  | some source =>
    raiseIf (paths.length ≠ source.originalPaths ∨
        readers.pathIdSetSha256 (paths.map path) ≠ source.originalPathIdsSha256)
      (ValidationError
        "whole-design timing does not exactly cover the original TimingPathDB path population")

/-- The paths of a report: the local ones, the crossing ones and the seal. -/
structure TimedPaths where
  localPaths : List SystemPath
  crossing : List SystemPath
  source : Option LocalPathSource

def timedPaths (runtime : Runtime) (schedule : TdmSchedule) (summary : PhysicalSummary E)
    (platform : Platform) (routesArtifactSha256 : Option String) (inputs : TimingInputs E) :
    Result TimedPaths := do
  let crossing ← inputs.records.mapM
    (crossPaths inputs.databases platform schedule inputs.fixedSlot inputs.deadlines.isSome runtime)
  let (localPaths, source) ← localPathDatabase readers summary runtime routesArtifactSha256
  return { localPaths := localPaths, crossing := crossing.flatten, source := source }

def TimedPaths.systemPaths (timed : TimedPaths) : List SystemPath :=
  sortedBy path (timed.localPaths ++ timed.crossing)

def pathExactness (timed : TimedPaths) (sampled : Bool) : PathExactness :=
  let counts := eventCounts timed.crossing
  let measured := timed.crossing.countP (fun p => p.physicalLogicMemberPath.isSome) +
    timed.localPaths.length
  { endpointExactLogicPaths := timed.systemPaths.countP physicalLogicSegmentsExact
    coneBoundLogicPaths := timed.systemPaths.countP physicalLogicSegmentsConeBound
    fallbackLogicPaths := timed.systemPaths.length - measured
    localOriginalPathsEndpointExact := timed.localPaths.countP physicalLogicSegmentsExact
    localOriginalPathsConeBound := timed.localPaths.countP physicalLogicSegmentsConeBound
    discontinuousCompressedPaths := timed.crossing.countP fun p => !p.partitionChainExact
    sampledEventPaths := if sampled then counts.fixedSlotEventPaths else 0
    sampledEventFailures := if sampled then counts.fixedSlotEventFailures else 0
    fixedSlotEventPaths := counts.fixedSlotEventPaths
    fixedSlotEventFailures := counts.fixedSlotEventFailures }

/-- `virtual_period` after the loop over the records: the period of the last one. -/
def lastVirtualPeriod (runtime : Runtime) (records : List PathRecord) : Result ℚ :=
  match records.getLast? with
  | some record => runtimeClockPeriodNs runtime record.clockDomain
  | none => .error (.raised "UnboundLocalError" "virtual_period")

def buildSystemTiming (runtime : Runtime) (routes : RoutesArtifact) (schedule : TdmSchedule)
    (phase5 : Option Phase5Timing) (summary : PhysicalSummary E) (platform : Platform)
    (routesArtifactSha256 : Option String) (semanticContract : Option E) :
    Result (SystemTimingReport E) := do
  let inputs ← readTimingInputs readers routes schedule phase5 summary platform semanticContract
  let timed ← timedPaths readers runtime schedule summary platform routesArtifactSha256 inputs
  let paths := timed.systemPaths
  checkCoverage readers paths timed.source
  let targetClock ← clockSummary targetClockSlackBoundNs paths
  let runtimeClock ← clockSummary runtimeClockSlackBoundNs paths
  let maximum ← maximumDelay paths
  let virtualPeriod ← lastVirtualPeriod runtime inputs.records
  let frequency ← floatDivision 1000 virtualPeriod
  let maximumFrequency ← floatDivision 1000 maximum
  let sampled := inputs.deadlines.isSome
  let exactness := pathExactness timed sampled
  return { status := reportStatus runtimeClock.worstSlackBoundNs inputs.fixedSlot.isSome
             inputs.deadlines (eventCounts timed.crossing)
           design := runtime.design
           platform := platform.name
           qualification := reportQualification sampled inputs.fixedSlot.isSome
             inputs.databases.endpointDelays.isSome (eventCounts timed.crossing) paths.length
             exactness.endpointExactLogicPaths (paths.length - exactness.fallbackLogicPaths)
           timingScope := if timed.source.isSome then "whole-original-design"
             else "cross-fpga-path-subset"
           pathExactness := exactness
           physicalProvider := summary.provider
           physicalQualification := summary.qualification
           staticExactSegmentDeadlines := inputs.deadlines
           sourceBinding := timed.source
           targetClock := targetClock
           runtimeClock := { toClockSummary := runtimeClock
                             periodNs := virtualPeriod
                             frequencyMhz := frequency
                             minimumSafePeriodBoundNs := maximum
                             maximumSafeFrequencyBoundMhz := maximumFrequency }
           summary := { timingPaths := paths.length
                        originalPaths := timed.source.map LocalPathSource.originalPaths
                        originalLocalPaths := timed.localPaths.length
                        originalCrossFpgaPaths := timed.crossing.length
                        compressedRepresentativePaths := inputs.records.length
                        originalPathCoverage := timed.source.map fun _ => 1
                        originalPathIdsSha256 :=
                          timed.source.map LocalPathSource.originalPathIdsSha256
                        maximumSystemDelayBoundNs := maximum }
           paths := paths }

end

end EmuFlow.SystemTiming
