import EmuFlow.TdmRatio.Validate

/-!
# Timing of a schedule

`reconstruct_tdm_schedule_timing` of `emuflow/tdm.py` without a prepared model: the delay of every
imported timing path over the entries its cut nets travel in. A link with a ratio model adds the
delay of its ratio; any other link sends at its slot.
-/

namespace EmuFlow.Tdm

open Check SortedSet Routing TdmRatio

def findEntry (entries : List TdmEntry) (key : HopKey) : Option TdmEntry :=
  Keyed.find TdmEntry.key entries key

/-- `_entry_ratio_delay`: the delay of a hop, and the arrival after it. -/
def entryRatioDelay (link : BoardLink) (entry : TdmEntry) (base slope priorArrival : ℚ) :
    Result (ℚ × ℚ) :=
  let slotPeriod := 1000 / link.fabricClockMhz
  let txTime := entry.slot * slotPeriod
  if link.tdmDelayModel = none then
    let wait := entry.slot - entry.readySlot
    .ok (base + slotPeriod * wait, max priorArrival txTime + base)
  else
    match entry.tdmRatio with
    | none => .error
      (ValidationError "ratio-delay schedule entry requires a positive tdm_ratio")
    | some ratio => do
      raiseIf (ratio < 1)
        (ValidationError "ratio-delay schedule entry requires a positive tdm_ratio")
      let hopDelay := base + slope * (ratio - 1)
      return (hopDelay, priorArrival + hopDelay)

structure TimingContext where
  platform : Platform
  constraints : RouteConstraints
  entries : List TdmEntry

def timedEntry (ctx : TimingContext) (key : HopKey) : Result TdmEntry :=
  match findEntry ctx.entries key with
  | some entry => .ok entry
  | none => .error (.validation "schedule timing reconstruction is missing routed hop %s" [key.1])

def hopDelay (ctx : TimingContext) (route : Route) (edge : TreeEdge) : Result ℚ := do
  let link ← lookupOrRaise edge.link (ctx.platform.findLink edge.link)
  let (base, slope) ← routeLinkDelayCoefficientsNs ctx.platform ctx.constraints edge.key
  if link.tdmDelayModel = none then return base
  else
    let entry ← timedEntry ctx (hopKey route.id edge)
    let (delay, _) ← entryRatioDelay link entry base slope 0
    return delay

/-- `paths_by_node`: the delay and the edges from the source to each node. -/
abbrev EdgePaths := List (String × ℚ × List TreeEdge)

def addEdgePath (ctx : TimingContext) (route : Route) (paths : EdgePaths) (hop : Nat × TreeEdge) :
    Result EdgePaths := do
  let (delay, path) ← lookupOrRaise hop.2.source (paths.lookup hop.2.source)
  let base ← hopDelay ctx route hop.2
  return (hop.2.sink, delay + base, path ++ [hop.2]) :: paths

structure TimedRoute where
  route : Route
  longestSink : String
  paths : List (String × List TreeEdge)

def timedRoute (ctx : TimingContext) (route : Route) : Result TimedRoute := do
  let hops ← routeHops route
  let paths ← hops.foldlM (addEdgePath ctx route) [(route.source, 0, [])]
  let sinks ← route.sinks.mapM fun sink => do
    let (delay, path) ← lookupOrRaise sink (paths.lookup sink)
    return (sink, delay, path)
  let longest ← lookupOrRaise route.net
    ((sortedBy (fun s : String × ℚ × List TreeEdge => lex (-s.2.1) s.1) sinks).head?)
  return { route := route
           longestSink := longest.1
           paths := sinks.map fun s => (s.1, s.2.2) }

def addTimedRoute (ctx : TimingContext) (timed : List TimedRoute) (route : Route) :
    Result (List TimedRoute) := do
  raiseIf (route.net ∈ timed.map fun t => t.route.net)
    (.validation "duplicate route net %r" [route.net])
  let t ← timedRoute ctx route
  return timed ++ [t]

def findTimed (timed : List TimedRoute) (net : String) : Result TimedRoute :=
  lookupOrRaise net (Keyed.find (fun t => t.route.net) timed net)

def longestTransition (timed : List TimedRoute) (net : String) : Result CutTransition := do
  let t ← findTimed timed net
  return { net := net, source := t.route.source, sink := t.longestSink }

def timedTransitions (timed : List TimedRoute) (index : Nat) (path : TimingPath) :
    Result (List CutTransition) :=
  match path.cutTransitions with
  | none => path.cutNets.mapM (longestTransition timed)
  | some transitions => do
    raiseIf (transitions.length ≠ path.cutNets.length)
      (.validation "routes.timing.paths[%s].cut_transitions: invalid" [toString index])
    raiseIf (∃ pair ∈ transitions.zip transitions.tail, pair.1.sink ≠ pair.2.source)
      (.validation
        "routes.timing.paths[%s].cut_transitions: discontinuous member partition chain"
        [toString index])
    return transitions

def followHop (ctx : TimingContext) (index : Nat) (route : Route) (state : List HopKey × ℚ)
    (edge : TreeEdge) : Result (List HopKey × ℚ) := do
  raiseIf (hopKey route.id edge ∈ state.1)
    (.validation "routes.timing.paths[%s]: duplicate routed hop" [toString index])
  let entry ← timedEntry ctx (hopKey route.id edge)
  raiseIf (entry.slot - entry.readySlot < 0)
    (.validation "schedule timing reconstruction found a negative wait for hop %s" [route.id])
  let link ← lookupOrRaise edge.link (ctx.platform.findLink edge.link)
  let (base, slope) ← routeLinkDelayCoefficientsNs ctx.platform ctx.constraints edge.key
  let (_, arrival) ← entryRatioDelay link entry base slope state.2
  return (state.1 ++ [hopKey route.id edge], arrival)

def followTransition (ctx : TimingContext) (timed : List TimedRoute) (index : Nat)
    (state : List HopKey × ℚ) (item : String × CutTransition) : Result (List HopKey × ℚ) := do
  let t ← findTimed timed item.1
  raiseIf (item.2.net ≠ item.1 ∨ item.2.source ≠ t.route.source ∨ item.2.sink ∉ t.route.sinks)
    (.validation "routes.timing.paths[%s].cut_transitions: invalid" [toString index])
  let path ← lookupOrRaise item.2.sink (t.paths.lookup item.2.sink)
  path.foldlM (followHop ctx index t.route) state

structure PathTiming where
  path : String
  clockDomain : String
  clockPeriodNs : ℚ
  requiredTimeNs : ℚ
  preplacementFixedDelayNs : ℚ
  transportDelayNs : ℚ
  delayNs : ℚ
  slackNs : ℚ
  normalizedSlack : ℚ
  cutNets : List String
  compressedPathIds : List String
  cutTransitions : List CutTransition
  routedHops : Nat

def pathTiming (ctx : TimingContext) (normalization : TimingNormalization)
    (timed : List TimedRoute) (item : TimingPath × Nat) : Result PathTiming := do
  let (path, index) := item
  raiseIf (path.cutNets = [])
    (.validation "routes.timing.paths[%s].cut_nets: invalid" [toString index])
  raiseIf (∃ net ∈ path.cutNets, net ∉ timed.map fun t => t.route.net)
    (.validation "routes.timing.paths[%s]: unknown cut nets %s" (toString index ::
      sortedSet (path.cutNets.filter fun net => net ∉ timed.map fun t => t.route.net)))
  let transitions ← timedTransitions timed index path
  raiseIf (path.clockPeriodNs ≤ 0 ∨ path.fixedDelayNs < 0 ∨
      path.requiredTimeNs.getD path.clockPeriodNs ≤ 0)
    (.validation "routes.timing.paths[%s]: invalid timing values" [toString index])
  let (hops, arrival) ←
    (path.cutNets.zip transitions).foldlM (followTransition ctx timed index) ([], 0)
  let delay := path.fixedDelayNs + arrival
  let required := path.requiredTimeNs.getD path.clockPeriodNs
  return { path := path.path
           clockDomain := path.clockDomain
           clockPeriodNs := path.clockPeriodNs
           requiredTimeNs := required
           preplacementFixedDelayNs := path.fixedDelayNs
           transportDelayNs := arrival
           delayNs := delay
           slackNs := required - delay
           normalizedSlack := normalizedSlack path.clockPeriodNs (required - delay) normalization
           cutNets := path.cutNets
           compressedPathIds := path.compressedPathIds.getD [path.path]
           cutTransitions := transitions
           routedHops := hops.length }

def requirePaths (routes : RoutesArtifact) : Result RouteTiming :=
  match routes.timing with
  | some timing => .ok timing
  | none => .error
    (ValidationError "schedule timing reconstruction requires routes.timing.paths")

def reconstructTdmScheduleTimingPathsFromRoutes (routes : RoutesArtifact) (platform : Platform)
    (entries : List TdmEntry) : Result (List PathTiming) := do
  let timing ← requirePaths routes
  let constraints ← normalizeRouteConstraints routes.constraints platform
  raiseIf (¬ (entries.map TdmEntry.key).Nodup)
    (ValidationError "schedule timing reconstruction found duplicate hop %s")
  let ctx : TimingContext :=
    { platform := platform, constraints := constraints, entries := entries }
  let timed ← routes.routes.foldlM (addTimedRoute ctx) []
  timing.paths.zipIdx.mapM (pathTiming ctx timing.normalization timed)

structure ScheduleTiming where
  timingModel : String
  timingPaths : Nat
  worstPath : String
  worstDelayNs : ℚ
  worstSlackNs : ℚ
  worstNormalizedSlack : ℚ
  negativeSlackPaths : Nat
  totalNegativeSlackNs : ℚ
  totalNegativeNormalizedSlack : ℚ
  p01NormalizedSlack : ℚ
  medianNormalizedSlack : ℚ

def timingSummary (platform : Platform) (records : List PathTiming) (worst : PathTiming) :
    ScheduleTiming :=
  let normalized := records.map PathTiming.normalizedSlack
  { timingModel :=
      if ∃ link ∈ platform.links, link.tdmDelayModel ≠ none then "per-hop-ratio-delay-v1"
      else "projected-fixed-slot-event-v1"
    timingPaths := records.length
    worstPath := worst.path
    worstDelayNs := worst.delayNs
    worstSlackNs := worst.slackNs
    worstNormalizedSlack := worst.normalizedSlack
    negativeSlackPaths := records.countP fun record => record.slackNs < 0
    totalNegativeSlackNs := (records.map fun record => min 0 record.slackNs).sum
    totalNegativeNormalizedSlack := (normalized.map fun slack => min 0 slack).sum
    p01NormalizedSlack := normalized.getD (normalized.length / 100) 0
    medianNormalizedSlack := normalized.getD (normalized.length / 2) 0 }

def reconstructTdmScheduleTiming (routes : RoutesArtifact) (platform : Platform)
    (entries : List TdmEntry) : Result ScheduleTiming := do
  let records ← reconstructTdmScheduleTimingPathsFromRoutes routes platform entries
  let records := sortedBy (fun record => lex record.normalizedSlack record.path) records
  match records with
  | [] => .error (ValidationError "schedule timing reconstruction has no timing paths")
  | worst :: _ => return timingSummary platform records worst

end EmuFlow.Tdm
