import EmuFlow.Tdm.Timing

/-!
# Timing paths of a scheduled design

`reconstruct_tdm_schedule_timing_paths` of `emuflow/tdm.py`: every imported timing path with the
hops it takes through the schedule. A platform with ratio links and paths without transitions is
read from the route trees; any other one from the prepared ratio model.
-/

namespace EmuFlow.SystemTiming

open Check Routing Tdm TdmRatio

/-- An entry of `scheduled_hops`. -/
structure ScheduledHop where
  scheduleEntry : String
  demand : String
  link : String
  source : String
  sink : String
  baseLinkDelayNs : ℚ
  tdmWaitSlots : Int
  tdmSlotNs : ℚ
  linkTdmDelayNs : ℚ
  fixedSlotTxTimeNs : ℚ
  projectedArrivalNs : ℚ

namespace ScheduledHop

def txEndpoint (hop : ScheduledHop) : String := "__emuflow_tx_" ++ hop.scheduleEntry

def rxEndpoint (hop : ScheduledHop) : String := "__emuflow_rx_" ++ hop.scheduleEntry

def arcKey (hop : ScheduledHop) : ArcKey := (hop.link, hop.source, hop.sink)

end ScheduledHop

structure PathRecord extends PathTiming where
  scheduledHops : List ScheduledHop

abbrev Travelled := List ScheduledHop × ℚ

def scheduledEntry (entries : List TdmEntry) (key : HopKey) : Result TdmEntry :=
  match findEntry entries key with
  | some entry => .ok entry
  | none => .error (.validation "schedule timing reconstruction is missing routed hop %s" [key.1])

/-- Travel one hop: send the entry of `key` after what arrived before. -/
def travel (platform : Platform) (entries : List TdmEntry) (key : HopKey) (base slope : ℚ)
    (state : Travelled) : Result Travelled := do
  let entry ← scheduledEntry entries key
  raiseIf (entry.slot - entry.readySlot < 0)
    (.validation "schedule timing reconstruction found a negative wait for hop %s" [key.1])
  let link ← lookupOrRaise key.2.1 (platform.findLink key.2.1)
  let (delay, arrival) ← entryRatioDelay link entry base slope state.2
  return (state.1 ++ [{ scheduleEntry := entry.id
                        demand := key.1
                        link := key.2.1
                        source := key.2.2.1
                        sink := key.2.2.2
                        baseLinkDelayNs := base
                        tdmWaitSlots := entry.slot - entry.readySlot
                        tdmSlotNs := 1000 / link.fabricClockMhz
                        linkTdmDelayNs := delay
                        fixedSlotTxTimeNs := entry.slot * (1000 / link.fabricClockMhz)
                        projectedArrivalNs := arrival }], arrival)

def travelModelHop (platform : Platform) (entries : List TdmEntry) (model : RatioModel)
    (state : Travelled) (index : Nat) : Result Travelled := do
  let hop ← lookupOrRaise "hops" model.hops[index]?
  travel platform entries hop.toRawHop.key hop.baseDelayNs hop.betaNs state

def modelPathRecord (platform : Platform) (entries : List TdmEntry) (model : RatioModel)
    (path : ModelTimingPath) : Result PathRecord := do
  let (hops, arrival) ← path.hops.foldlM (travelModelHop platform entries model) ([], 0)
  let delay := path.fixedDelayNs + arrival
  return { path := path.id
           clockDomain := path.clockDomain
           clockPeriodNs := path.clockPeriodNs
           requiredTimeNs := path.requiredTimeNs
           preplacementFixedDelayNs := path.fixedDelayNs
           transportDelayNs := arrival
           delayNs := delay
           slackNs := path.requiredTimeNs - delay
           normalizedSlack := normalizedSlack path.clockPeriodNs (path.requiredTimeNs - delay)
             model.normalization
           cutNets := path.cutNets
           compressedPathIds := path.compressedPathIds
           cutTransitions := path.cutTransitions
           routedHops := path.hops.length
           scheduledHops := hops }

def travelTransition (ctx : TimingContext) (timed : List TimedRoute) (state : Travelled)
    (item : String × CutTransition) : Result Travelled := do
  let t ← findTimed timed item.1
  let path ← lookupOrRaise item.2.sink (t.paths.lookup item.2.sink)
  path.foldlM (fun state edge => do
    let (base, slope) ← routeLinkDelayCoefficientsNs ctx.platform ctx.constraints edge.key
    travel ctx.platform ctx.entries (hopKey t.route.id edge) base slope state) state

def routePathRecord (ctx : TimingContext) (normalization : TimingNormalization)
    (timed : List TimedRoute) (item : TimingPath × Nat) : Result PathRecord := do
  let timing ← pathTiming ctx normalization timed item
  let (hops, _) ← (timing.cutNets.zip timing.cutTransitions).foldlM
    (travelTransition ctx timed) ([], 0)
  return { timing with scheduledHops := hops }

/-- `reconstruct_tdm_schedule_timing_paths_from_routes`, with the hops. -/
def reconstructFromRoutes (routes : RoutesArtifact) (platform : Platform)
    (entries : List TdmEntry) : Result (List PathRecord) := do
  let timing ← requirePaths routes
  let constraints ← normalizeRouteConstraints routes.constraints platform
  raiseIf (¬ (entries.map TdmEntry.key).Nodup)
    (ValidationError "schedule timing reconstruction found duplicate hop %s")
  let ctx : TimingContext :=
    { platform := platform, constraints := constraints, entries := entries }
  let timed ← routes.routes.foldlM (addTimedRoute ctx) []
  timing.paths.zipIdx.mapM (routePathRecord ctx timing.normalization timed)

/-! ## the reconstruction -/

def systemRouteTimingPaths (routes : RoutesArtifact) : Result (List TimingPath) := do
  raiseIf (routes.schema ≠ SYSTEM_ROUTES_SCHEMA)
    (.validation "%s schema: expected %r" ["system routes", SYSTEM_ROUTES_SCHEMA])
  match routes.timing with
  | some timing => return timing.paths
  | none => do
    raiseIf (routes.routes ≠ [])
      (.validation "%s with demands require timing records" ["system routes"])
    return []

def reconstructFromModel (routes : RoutesArtifact) (platform : Platform)
    (entries : List TdmEntry) : Result (List PathRecord) := do
  let model ← prepareModel routes platform
  raiseIf (¬ (entries.map TdmEntry.key).Nodup)
    (ValidationError "schedule timing reconstruction found duplicate hop %s")
  model.timingPaths.mapM (modelPathRecord platform entries model)

def packedRun (routes : RoutesArtifact) (entries : List TdmEntry) : Result Bool :=
  if routes.routes = [] ∧ entries = [] then do
    let paths ← systemRouteTimingPaths routes
    return decide (paths = [])
  else return false

def lacksTransitions (routes : RoutesArtifact) : Prop :=
  ∃ timing ∈ routes.timing, ∃ path ∈ timing.paths, path.cutTransitions = none

instance (routes : RoutesArtifact) : Decidable (lacksTransitions routes) :=
  match h : routes.timing with
  | none => isFalse (by simp [lacksTransitions, h])
  | some timing => decidable_of_iff (∃ path ∈ timing.paths, path.cutTransitions = none)
      (by simp [lacksTransitions, h])

def reconstructTdmScheduleTimingPaths (routes : RoutesArtifact) (platform : Platform)
    (schedule : TdmSchedule) : Result (List PathRecord) :=
  if (∃ link ∈ platform.links, link.tdmDelayModel ≠ none) ∧ lacksTransitions routes then
    reconstructFromRoutes routes platform schedule.entries
  else do
    let packed ← packedRun routes schedule.entries
    if packed then return []
    else reconstructFromModel routes platform schedule.entries

/-!
## Physical delay databases

The tables `emuflow/system_timing.py` reads from a physical summary: the delays of each FPGA, of
the transport endpoints, of the logic segments and of the board links. A database arrives with
evidence of type `E` that only its validator reads; the validators are parameters.
-/

open SortedSet

/-- What the report reads of a runtime: its virtual DUT clocks and their nominal periods. -/
structure Runtime where
  design : String
  virtualDutClocks : List (String × ℚ)
  names_nodup : (virtualDutClocks.map Prod.fst).Nodup

/-- `_runtime_clock_period_ns`: the period of the clock domain, or of the only clock. -/
def runtimeClockPeriodNs (runtime : Runtime) (clockDomain : String) : Result ℚ :=
  match runtime.virtualDutClocks.lookup clockDomain, runtime.virtualDutClocks with
  | _, [] => .error (ValidationError "system timing runtime lacks DUT clock domains")
  | some period, _ => .ok period
  | none, [(_, period)] => .ok period
  | none, _ => .error
    (.validation "system timing clock domain %r is not declared" [clockDomain])

/-! ## the physical summary -/

/-- An entry of `fpgas`. -/
structure PhysicalFpga where
  fpga : String
  active : Bool := true
  clockDomainDelaysNs : List (String × ℚ)
  clockDomainPresence : Option (List (String × Bool)) := none

/-- An entry of the `endpoints` of a boundary timing database. -/
structure BoundaryEndpoint where
  id : String
  delayNs : ℚ

structure BoundaryTimingDatabase (E : Type) where
  endpoints : List BoundaryEndpoint
  evidence : E

inductive SegmentKind where
  | launch
  | transition
  | capture
  deriving DecidableEq

structure RoutedSegment where
  id : String
  systemPath : String
  memberPath : String
  kind : SegmentKind
  cutIndex : Nat
  delayNs : ℚ
  replaceTxEndpoint : Option String
  measurement : String := "endpoint-exact"

structure LogicSegmentDatabase (E : Type) where
  fpga : String
  segments : List RoutedSegment
  evidence : E

structure LocalPathSource where
  pathDatabaseSha256 : String
  originalIrSha256 : String
  assignmentSha256 : String
  routesSha256 : String
  originalPaths : Nat
  originalPathIdsSha256 : String
  deriving DecidableEq

structure LocalPath where
  id : String
  clockDomain : String
  clockPeriodNs : ℚ
  delayNs : ℚ
  requiredTimeNs : Option ℚ := none
  measurement : String := "endpoint-longest-path-fallback"

structure LocalPathDatabase (E : Type) where
  fpga : String
  source : LocalPathSource
  paths : List LocalPath
  evidence : E

structure BoardLinkTimingDatabase (E : Type) where
  links : List (ArcKey × ℚ)
  evidence : E

structure PhysicalSummary (E : Type) where
  fpgas : List PhysicalFpga
  boundaryTiming : Option (List (String × BoundaryTimingDatabase E)) := none
  boundaryIdentities : Option (List (String × E)) := none
  logicSegmentTiming : Option (List (String × LogicSegmentDatabase E)) := none
  localPathTiming : Option (List (String × LocalPathDatabase E)) := none
  boardLinkTiming : Option (BoardLinkTimingDatabase E) := none
  staticExactClockUncertaintyNs : ℚ := 0
  provider : Option String := none
  qualification : Option String := none

inductive TimingStatus where
  | pass
  | fail
  | incomplete
  deriving DecidableEq

/-- The settle windows of the exact segments. -/
structure ExactDeadlines (E : Type) where
  status : TimingStatus
  commitSlot : Int
  evidence : E

/-- The validators of the databases and the builder of the exact settle windows, none of which reads
the runtime. -/
structure TimingReaders (E : Type) where
  validateBoundaryTimingDatabase : BoundaryTimingDatabase E → E → Result Unit
  validateLogicSegmentTiming : LogicSegmentDatabase E → Result Unit
  validateLocalPathTiming : LocalPathDatabase E → Result Unit
  validateBoardLinkTiming : BoardLinkTimingDatabase E → Platform → Result Unit
  staticExactSegmentDeadlines :
    TdmSchedule → E → PhysicalSummary E → Platform → Result (ExactDeadlines E)
  pathIdSetSha256 : List String → String

/-! ## delays of the FPGAs -/

structure FpgaDelays where
  fpga : String
  dut : ℚ
  cross : ℚ
  dutPresent : Bool
  active : Bool

def physicalDelay (item : PhysicalFpga) (domain : String) : Result ℚ :=
  match item.clockDomainDelaysNs.lookup domain with
  | none => .error (.validation
      "physical summary %s lacks the %s physical delay required for unified system timing"
      [item.fpga, domain])
  | some value =>
    if value < 0 then .error
      (.validation "physical summary %s.%s delay must be non-negative" [item.fpga, domain])
    else .ok value

/-- `clock_domain_presence` of an inactive FPGA. -/
def noClockPresence : List (String × Bool) := [("fabric", false), ("dut", false), ("cross", false)]

def inactiveDelays (item : PhysicalFpga) : Result FpgaDelays := do
  let fault := EmuFlowError.validation "inactive physical summary %s has physical delay" [item.fpga]
  raiseIf (¬ ∃ presence ∈ item.clockDomainPresence, SameSet presence noClockPresence) fault
  raiseIf (¬ SameSet (item.clockDomainDelaysNs.map Prod.fst) ["overall", "fabric", "dut", "cross"])
    fault
  (item.clockDomainDelaysNs.map Prod.fst).forM fun domain => do
    let value ← physicalDelay item domain
    raiseIf (value ≠ 0) fault
  return { fpga := item.fpga, dut := 0, cross := 0, dutPresent := false, active := false }

def dutPresence (item : PhysicalFpga) : Result Bool :=
  match item.clockDomainPresence with
  | none => .ok true
  | some presence => do
    raiseIf (¬ SameSet (presence.map Prod.fst) ["fabric", "dut", "cross"] ∨
        presence.lookup "fabric" ≠ some true ∨ presence.lookup "cross" ≠ presence.lookup "dut")
      (.validation "physical summary %s.clock_domain_presence is invalid" [item.fpga])
    return presence.lookup "dut" == some true

def fpgaDelays (item : PhysicalFpga) : Result FpgaDelays :=
  if ¬ item.active then inactiveDelays item
  else do
    let dutPresent ← dutPresence item
    let dut ← physicalDelay item "dut"
    let cross ← physicalDelay item "cross"
    raiseIf (¬ dutPresent ∧ (dut ≠ 0 ∨ cross ≠ 0))
      (.validation "physical summary %s assigns delay to an absent DUT clock" [item.fpga])
    return { fpga := item.fpga, dut := dut, cross := cross, dutPresent := dutPresent
             active := true }

/-- `_physical_delay_database`. Of two entries of one FPGA the later is kept, and found first. -/
def physicalDelayDatabase {E : Type} (summary : PhysicalSummary E) : Result (List FpgaDelays) := do
  let delays ← summary.fpgas.mapM fpgaDelays
  return delays.reverse

def findDelays (delays : List FpgaDelays) (fpga : String) : Result FpgaDelays :=
  lookupOrRaise fpga (Keyed.find FpgaDelays.fpga delays fpga)

/-! ## delays of the endpoints, segments and links -/

section
variable {E : Type} (readers : TimingReaders E)

def addEndpointDelay (delays : List (String × ℚ)) (endpoint : BoundaryEndpoint) :
    Result (List (String × ℚ)) := do
  raiseIf (endpoint.id ∈ delays.map Prod.fst)
    (.validation "duplicate physical boundary timing endpoint %r" [endpoint.id])
  return delays ++ [(endpoint.id, endpoint.delayNs)]

def addBoundaryDatabase (identities : List (String × E)) (delays : List (String × ℚ))
    (item : String × BoundaryTimingDatabase E) : Result (List (String × ℚ)) := do
  let identity ← lookupOrRaise item.1 (identities.lookup item.1)
  readers.validateBoundaryTimingDatabase item.2 identity
  item.2.endpoints.foldlM addEndpointDelay delays

def endpointDelayDatabase (summary : PhysicalSummary E) : Result (Option (List (String × ℚ))) :=
  match summary.boundaryTiming, summary.boundaryIdentities with
  | none, _ => .ok none
  | some _, none => .error
    (ValidationError "physical boundary timing/identity maps are invalid")
  | some timing, some identities => do
    raiseIf (¬ SameSet (timing.map Prod.fst) (identities.map Prod.fst))
      (ValidationError "physical boundary timing FPGA coverage disagrees")
    let delays ← timing.foldlM (addBoundaryDatabase readers identities) []
    return some delays

def addSegment (segments : List RoutedSegment) (segment : RoutedSegment) :
    Result (List RoutedSegment) := do
  raiseIf (segment.id ∈ segments.map RoutedSegment.id)
    (.validation "duplicate physical logic segment %r" [segment.id])
  return segments ++ [segment]

def addSegmentDatabase (segments : List RoutedSegment)
    (item : String × LogicSegmentDatabase E) : Result (List RoutedSegment) := do
  readers.validateLogicSegmentTiming item.2
  raiseIf (item.2.fpga ≠ item.1)
    (ValidationError "physical logic segment timing FPGA identity disagrees")
  item.2.segments.foldlM addSegment segments

/-- `_logic_segment_database`, kept as one list: a table by path and member is a filter of it. -/
def logicSegmentDatabase (summary : PhysicalSummary E) : Result (Option (List RoutedSegment)) :=
  match summary.logicSegmentTiming with
  | none => .ok none
  | some raw => do
    let segments ← raw.foldlM (addSegmentDatabase readers) []
    return some segments

def boardLinkDelayDatabase (summary : PhysicalSummary E) (platform : Platform) :
    Result (Option (List (ArcKey × ℚ))) :=
  match summary.boardLinkTiming with
  | none => .ok none
  | some raw => do
    readers.validateBoardLinkTiming raw platform
    return some raw.links.reverse

end

/-- One turn of the loop over the transitions: the FPGAs so far and the breaks of the chain. -/
def addTransition (state : List String × Nat) (transition : CutTransition) : List String × Nat :=
  match state.1.getLast? with
  | none => ([transition.source, transition.sink], state.2)
  | some last =>
    if last = transition.source then (state.1 ++ [transition.sink], state.2)
    else (state.1 ++ [transition.source, transition.sink], state.2 + 1)

def logicPartitionSequence (transitions : List CutTransition) : Result (List String × Nat) := do
  raiseIf (transitions = []) (ValidationError "system timing path has no logical cut transitions")
  return transitions.foldl addTransition ([], 0)

end EmuFlow.SystemTiming
