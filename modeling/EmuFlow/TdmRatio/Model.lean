import EmuFlow.Tdm.Records
import EmuFlow.Tdm.RouteHops

/-!
# The ratio model of a routes artifact

`_prepare_model` of `emuflow/tdm_ratio.py` with `derive_tdm_compatibility` of
`emuflow/tdm_compatibility.py`: every routed hop with its capacity domain and direction, the
compatibility class of its route, and the imported timing paths as lists of hops.
-/

namespace EmuFlow.TdmRatio

open Check SortedSet Routing Tdm

def TDM_COMPATIBILITY_PROVIDER : String := "clock-protocol-compatibility-v1"

def linkDelayModel (platform : Platform) (constraints : RouteConstraints) :
    Result (List (ArcKey × ℚ × ℚ)) :=
  (legalArcs platform).mapM fun arc => do
    let coefficients ← routeLinkDelayCoefficientsNs platform constraints arc
    return (arc, coefficients)

def routeArc (graph : DirectedGraph) (route : Route) (edge : TreeEdge) : Result Arc :=
  match graph.findArc edge.key with
  | some arc => .ok arc
  | none => .error (.validation "route %r: unknown edge %s" [route.id, edge.link])

def rawHopOf (platform : Platform) (graph : DirectedGraph) (delays : List (ArcKey × ℚ × ℚ))
    (route : Route) (hop : Nat × TreeEdge) : Result RawHop := do
  let arc ← routeArc graph route hop.2
  let (baseNs, betaNs) ← lookupOrRaise hop.2.link (delays.lookup hop.2.key)
  let link ← lookupOrRaise hop.2.link (platform.findLink hop.2.link)
  return { demand := route.id
           net := route.net
           transportRound := route.round
           compatibilityDomain := route.tdmCompatibility.getD "global-frame-cdc"
           link := hop.2.link
           source := hop.2.source
           sink := hop.2.sink
           hop := hop.1
           capacityKey := arc.capacityKey
           baseDelayNs := baseNs
           betaNs := betaNs
           slotPeriodNs := link.tdmDelayModel.map fun _ => 1000 / link.fabricClockMhz
           delayModel := link.tdmDelayModel.map fun _ => "linear-ratio-v1" }

def addRawHops (platform : Platform) (graph : DirectedGraph) (delays : List (ArcKey × ℚ × ℚ))
    (state : List String × List RawHop) (route : Route) : Result (List String × List RawHop) := do
  raiseIf (route.net ∈ state.1) (.validation "duplicate route net %r" [route.net])
  raiseIf (route.tdmCompatibility = some "")
    (.validation "route %r.tdm_compatibility: expected a non-empty string" [route.id])
  let edges ← routeEdgesInTreeOrder route
  let hops ← edges.mapM (rawHopOf platform graph delays route)
  return (state.1 ++ [route.net], state.2 ++ hops)

/-! ## domains and directions -/

def capacityKeys (raw : List RawHop) : List String := sortedSet (raw.map RawHop.capacityKey)

def directionPairs (raw : List RawHop) (capacityKey : String) : List (String ×ₗ String) :=
  sortedSet ((raw.filter fun hop => hop.capacityKey = capacityKey).map fun hop =>
    lex hop.source hop.sink)

def rawHopOrder (hop : RawHop) := lex hop.demand (lex hop.link (lex hop.source hop.sink))

def identityOf (hop : RawHop) : String ×ₗ String := lex "static-tdm-frame" hop.compatibilityDomain

def identities (raw : List RawHop) : List (String ×ₗ String) := sortedSet (raw.map identityOf)

/-- The hop at position `index` of the sorted hops. -/
def ratioHop (raw : List RawHop) (item : RawHop × Nat) : RatioHop :=
  { item.1 with
    index := item.2
    domain := (capacityKeys raw).idxOf item.1.capacityKey
    direction := (directionPairs raw item.1.capacityKey).idxOf (lex item.1.source item.1.sink)
    compatibility := (identities raw).idxOf (identityOf item.1) }

/-- `hops`, in the order of their keys. -/
def ratioHops (raw : List RawHop) : List RatioHop :=
  (sortedBy rawHopOrder raw).zipIdx.map (ratioHop raw)

/-- The domain of a capacity key; of several directed pairs with the key the least one stands for
it. -/
def ratioDomain (platform : Platform) (graph : DirectedGraph) (allocations : BankAllocations)
    (raw : List RawHop) (capacityKey : String) : Result RatioDomain := do
  let capacity ← lookupOrRaise capacityKey
    (Keyed.find CapacityRecord.key graph.capacities capacityKey)
  let pair ← lookupOrRaise capacityKey (directionPairs raw capacityKey).head?
  let link ← lookupOrRaise capacity.link (platform.findLink capacity.link)
  let budget := allocations.lookup (capacity.link, (ofLex pair).1, (ofLex pair).2)
  return { index := (capacityKeys raw).idxOf capacityKey
           key := capacityKey
           link := capacity.link
           direction := capacity.direction
           lanes := (budget.map BankBudget.lanes).getD link.transportBitsPerCyclePerDirection
           bank := budget.map fun budget =>
             { bankCount := budget.bankCount
               wiresPerBank := budget.wiresPerBank
               laneOffset := budget.laneOffset } }

/-! ## timing paths -/

abbrev NodePaths := List (String × ℚ × List Nat)

def addNodePath (hops : List RatioHop) (route : Route) (paths : NodePaths)
    (edge : Nat × TreeEdge) : Result NodePaths := do
  let hop ← lookupOrRaise edge.2.link
    (hops.find? fun hop => hop.toRawHop.key = hopKey route.id edge.2)
  let (delay, path) ← lookupOrRaise edge.2.source (paths.lookup edge.2.source)
  return (edge.2.sink, delay + hop.baseDelayNs, path ++ [hop.index]) :: paths

structure SinkPath where
  delay : ℚ
  hops : List Nat
  sink : String

structure NetPaths where
  net : String
  source : String
  sinks : List SinkPath

def sinkPath (paths : NodePaths) (sink : String) : Result SinkPath := do
  let (delay, hops) ← lookupOrRaise sink (paths.lookup sink)
  return { delay := delay, hops := hops, sink := sink }

def netPaths (hops : List RatioHop) (route : Route) : Result NetPaths := do
  let edges ← routeEdgesInTreeOrder route
  let paths ← edges.foldlM (addNodePath hops route) [(route.source, 0, [])]
  let sinks ← route.sinks.mapM (sinkPath paths)
  return { net := route.net
           source := route.source
           sinks := sortedBy (fun s => lex (-s.delay) (lex s.hops s.sink)) sinks }

def findNet (nets : List NetPaths) (net : String) : Result NetPaths :=
  lookupOrRaise net (Keyed.find NetPaths.net nets net)

def defaultTransition (nets : List NetPaths) (net : String) : Result CutTransition := do
  let paths ← findNet nets net
  let longest ← lookupOrRaise net paths.sinks.head?
  return { net := net, source := paths.source, sink := longest.sink }

def checkTransition (nets : List NetPaths) (index : Nat) (item : String × CutTransition) :
    Result CutTransition := do
  let paths ← findNet nets item.1
  raiseIf (item.2.net ≠ item.1 ∨ item.2.source ≠ paths.source ∨
      item.2.sink ∉ paths.sinks.map SinkPath.sink)
    (.validation "routes.timing.paths[%s].cut_transitions: invalid member-specific sink"
      [toString index])
  return item.2

def pathTransitions (nets : List NetPaths) (index : Nat) (path : TimingPath) :
    Result (List CutTransition) :=
  match path.cutTransitions with
  | none => path.cutNets.mapM (defaultTransition nets)
  | some raw => do
    raiseIf (raw.length ≠ path.cutNets.length)
      (.validation "routes.timing.paths[%s].cut_transitions: invalid" [toString index])
    let transitions ← (path.cutNets.zip raw).mapM (checkTransition nets index)
    raiseIf (∃ pair ∈ transitions.zip transitions.tail, pair.1.sink ≠ pair.2.source)
      (.validation
        "routes.timing.paths[%s].cut_transitions: discontinuous member partition chain"
        [toString index])
    return transitions

/-- `hops_by_net_sink[net][to]`. -/
def transitionHops (nets : List NetPaths) (transition : CutTransition) : Result (List Nat) := do
  let paths ← findNet nets transition.net
  let sink ← lookupOrRaise transition.sink (Keyed.find SinkPath.sink paths.sinks transition.sink)
  return sink.hops

def modelTimingPath (nets : List NetPaths) (item : TimingPath × Nat) : Result ModelTimingPath := do
  let (path, index) := item
  raiseIf (path.cutNets = [])
    (.validation "routes.timing.paths[%s].cut_nets: invalid" [toString index])
  raiseIf (∃ net ∈ path.cutNets, net ∉ nets.map NetPaths.net)
    (.validation "routes.timing.paths[%s]: unknown cut nets %s" (toString index ::
      sortedSet (path.cutNets.filter fun net => net ∉ nets.map NetPaths.net)))
  let transitions ← pathTransitions nets index path
  let hops ← transitions.mapM (transitionHops nets)
  raiseIf (¬ hops.flatten.Nodup)
    (.validation "routes.timing.paths[%s]: duplicate routed hop" [toString index])
  raiseIf (path.clockPeriodNs ≤ 0 ∨ path.fixedDelayNs < 0 ∨
      path.requiredTimeNs.getD path.clockPeriodNs ≤ 0)
    (.validation "routes.timing.paths[%s]: invalid timing values" [toString index])
  return { index := index
           id := path.path
           clockDomain := path.clockDomain
           clockPeriodNs := path.clockPeriodNs
           requiredTimeNs := path.requiredTimeNs.getD path.clockPeriodNs
           fixedDelayNs := path.fixedDelayNs
           cutNets := path.cutNets
           compressedPathIds := path.compressedPathIds.getD [path.path]
           cutTransitions := transitions
           hops := hops.flatten }

def clockDomains (paths : List ModelTimingPath) (hops : List Nat) : List String :=
  match sortedSet ((paths.filter fun path => ∃ hop ∈ hops, hop ∈ path.hops).map
    ModelTimingPath.clockDomain) with
  | [] => ["unconstrained"]
  | domains => domains

def deriveTdmCompatibility (hops : List RatioHop) (paths : List ModelTimingPath) : Compatibility :=
  let identities := identities (hops.map RatioHop.toRawHop)
  { provider := TDM_COMPATIBILITY_PROVIDER
    classes := identities.zipIdx.map fun item =>
      { index := item.2
        protocol := (ofLex item.1).1
        transportDomain := (ofLex item.1).2
        clockDomains := clockDomains paths
          ((hops.filter fun hop => identityOf hop.toRawHop = item.1).map RatioHop.index) }
    hops := hops.map fun hop =>
      { hop := hop.index
        compatibility := identities.idxOf (identityOf hop.toRawHop)
        clockDomains := clockDomains paths [hop.index] } }

def checkNormalization (normalization : TimingNormalization) : Result Unit := do
  raiseIf (normalization.positiveSlackScaleNs ≤ 0)
    (.validation "routes.timing.normalization.%s: expected a positive number"
      ["positive_slack_scale_ns"])
  raiseIf (normalization.negativeSlackScaleNs ≤ 0)
    (.validation "routes.timing.normalization.%s: expected a positive number"
      ["negative_slack_scale_ns"])
  raiseIf (normalization.maxClockPeriodNs ≤ 0)
    (.validation "routes.timing.normalization.%s: expected a positive number"
      ["max_clock_period_ns"])

def requireTiming (routes : RoutesArtifact) : Result RouteTiming :=
  match routes.timing with
  | some timing => .ok timing
  | none => .error (ValidationError "timing-aware TDM assignment requires routes.timing.paths")

def prepareModel (routes : RoutesArtifact) (platform : Platform) : Result RatioModel := do
  raiseIf (routes.schema ≠ SYSTEM_ROUTES_SCHEMA)
    (.validation "routes.schema: expected %r" [SYSTEM_ROUTES_SCHEMA])
  let timing ← requireTiming routes
  checkNormalization timing.normalization
  let constraints ← normalizeRouteConstraints routes.constraints platform
  let graph ← buildDirectedGraph platform constraints false
  let delays ← linkDelayModel platform constraints
  let allocations ← bankDirectionAllocations routes.routes platform constraints
  let sortedRoutes := sortedBy Route.id routes.routes
  let (_, raw) ← sortedRoutes.foldlM (addRawHops platform graph delays) ([], [])
  raiseIf (raw = []) (ValidationError "TDM ratio optimization has no routed hops")
  let hops := ratioHops raw
  let domains ← (capacityKeys raw).mapM (ratioDomain platform graph allocations raw)
  let nets ← sortedRoutes.mapM (netPaths hops)
  let timingPaths ← timing.paths.zipIdx.mapM (modelTimingPath nets)
  return { constraints := constraints
           normalization := timing.normalization
           domains := domains
           hops := hops
           timingPaths := timingPaths
           compatibility := deriveTdmCompatibility hops timingPaths
           exactDependencySchedule := routes.semanticContract.isSome }

/-! ## what a prepared model contains -/

variable {delays : List (ArcKey × ℚ × ℚ)} {graph : DirectedGraph} {platform : Platform}

theorem rawHopOf_eq_ok
    {route : Route} {hop : Nat × TreeEdge} {raw : RawHop}
    (h : rawHopOf platform graph delays route hop = .ok raw) :
    raw.key = hopKey route.id hop.2 ∧ raw.hop = hop.1 ∧ raw.transportRound = route.round ∧
      raw.compatibilityDomain = route.tdmCompatibility.getD "global-frame-cdc" ∧
      raw.capacityKey = graph.capacityKeyOf hop.2.key ∧
      ∃ coefficients, delays.lookup hop.2.key = some coefficients ∧
        raw.baseDelayNs = coefficients.1 ∧ raw.betaNs = coefficients.2 := by
  obtain ⟨arc, ha, h⟩ := bind_eq_ok.mp h
  obtain ⟨coefficients, hd, h⟩ := bind_eq_ok.mp h
  obtain ⟨link, -, h⟩ := bind_eq_ok.mp h
  rw [← Except.ok.inj h]
  have ha' : graph.findArc hop.2.key = some arc := by
    unfold routeArc at ha
    split at ha
    · next hs => rw [hs, Except.ok.inj ha]
    · cases ha
  refine ⟨rfl, rfl, rfl, rfl, ?_, coefficients, lookupOrRaise_eq_ok.mp hd, rfl, rfl⟩
  rw [DirectedGraph.capacityKeyOf, ha']
  rfl

theorem foldlM_addRawHops
    {routes : List Route}
    {state : List String × List RawHop}
    (h : routes.foldlM (addRawHops platform graph delays) ([], []) = .ok state) :
    ∀ raw ∈ state.2, ∃ route ∈ routes, ∃ hops, routeEdgesInTreeOrder route = .ok hops ∧
      ∃ hop ∈ hops, rawHopOf platform graph delays route hop = .ok raw := by
  refine foldlM_invariant (fun state => ∀ raw ∈ state.2, ∃ route ∈ routes, ∃ hops,
    routeEdgesInTreeOrder route = .ok hops ∧
      ∃ hop ∈ hops, rawHopOf platform graph delays route hop = .ok raw) ?_ ?_ h
  · intro route hr t t' ht hs raw hrw
    obtain ⟨-, hs⟩ := raiseIf_bind.mp hs
    obtain ⟨-, hs⟩ := raiseIf_bind.mp hs
    simp only [bind_eq_ok] at hs
    obtain ⟨edges, he, hops, hh, hs⟩ := hs
    rw [← Except.ok.inj hs, List.mem_append] at hrw
    rcases hrw with hrw | hrw
    · exact ht raw hrw
    · obtain ⟨hop, hhp, hok⟩ := exists_of_mem_mapM hh hrw
      exact ⟨route, hr, edges, he, hop, hhp, hok⟩
  · intro raw hrw
    exact absurd hrw List.not_mem_nil

structure Prepared (routes : RoutesArtifact) (platform : Platform) (model : RatioModel)
    (graph : DirectedGraph) (delays : List (ArcKey × ℚ × ℚ)) (allocations : BankAllocations)
    (raw : List RawHop) : Prop where
  normalized : normalizeRouteConstraints routes.constraints platform = .ok model.constraints
  built : buildDirectedGraph platform model.constraints false = .ok graph
  delays_eq : linkDelayModel platform model.constraints = .ok delays
  allocated : bankDirectionAllocations routes.routes platform model.constraints = .ok allocations
  raw_spec : ∀ hop ∈ raw, ∃ route ∈ routes.routes, ∃ hops, routeEdgesInTreeOrder route = .ok hops ∧
      ∃ edge ∈ hops, rawHopOf platform graph delays route edge = .ok hop
  hops_eq : model.hops = ratioHops raw
  domains_eq : (capacityKeys raw).mapM (ratioDomain platform graph allocations raw) =
    .ok model.domains
  compatibility_eq : model.compatibility = deriveTdmCompatibility model.hops model.timingPaths

variable {routes : RoutesArtifact}

theorem prepareModel_eq_ok {model : RatioModel}
    (h : prepareModel routes platform = .ok model) :
    ∃ graph delays allocations raw,
      Prepared routes platform model graph delays allocations raw := by
  unfold prepareModel at h
  obtain ⟨-, h⟩ := raiseIf_bind.mp h
  obtain ⟨timing, -, h⟩ := bind_eq_ok.mp h
  obtain ⟨⟨⟩, -, h⟩ := bind_eq_ok.mp h
  obtain ⟨cs, hn, h⟩ := bind_eq_ok.mp h
  obtain ⟨graph, hg, h⟩ := bind_eq_ok.mp h
  obtain ⟨delays, hdl, h⟩ := bind_eq_ok.mp h
  obtain ⟨allocations, ha, h⟩ := bind_eq_ok.mp h
  obtain ⟨⟨nets, raw⟩, hrw, h⟩ := bind_eq_ok.mp h
  obtain ⟨-, h⟩ := raiseIf_bind.mp h
  obtain ⟨domains, hd, h⟩ := bind_eq_ok.mp h
  obtain ⟨paths, -, h⟩ := bind_eq_ok.mp h
  obtain ⟨timingPaths, -, h⟩ := bind_eq_ok.mp h
  cases h
  refine ⟨graph, delays, allocations, raw, hn, hg, hdl, ha, fun hop hh => ?_,
    rfl, hd, rfl⟩
  obtain ⟨route, hr, he⟩ := foldlM_addRawHops hrw hop hh
  exact ⟨route, mem_sortedBy.mp hr, he⟩

theorem mem_ratioHops {raw : List RawHop} {hop : RatioHop} (h : hop ∈ ratioHops raw) :
    hop.toRawHop ∈ raw ∧ hop.domain = (capacityKeys raw).idxOf hop.capacityKey ∧
      hop.direction = (directionPairs raw hop.capacityKey).idxOf (lex hop.source hop.sink) ∧
      hop.compatibility = (identities raw).idxOf (identityOf hop.toRawHop) := by
  obtain ⟨⟨r, i⟩, hr, rfl⟩ := List.mem_map.mp h
  exact ⟨mem_sortedBy.mp (List.fst_mem_of_mem_zipIdx hr), rfl, rfl, rfl⟩

theorem Prepared.hop {model : RatioModel}
    {allocations : BankAllocations}
    {raw : List RawHop} (hp : Prepared routes platform model graph delays allocations raw)
    {hop : RatioHop} (h : hop ∈ model.hops) :
    hop.capacityKey = graph.capacityKeyOf hop.toRawHop.key.2 ∧
      hop.domain = (capacityKeys raw).idxOf hop.capacityKey := by
  rw [hp.hops_eq] at h
  obtain ⟨hr, hd, -⟩ := mem_ratioHops h
  obtain ⟨route, -, hops, -, edge, -, hok⟩ := hp.raw_spec _ hr
  obtain ⟨hk, -, -, -, hc, -⟩ := rawHopOf_eq_ok hok
  refine ⟨?_, hd⟩
  rw [hk]
  exact hc

end EmuFlow.TdmRatio
