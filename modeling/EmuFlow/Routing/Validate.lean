import EmuFlow.Lib.DiscreteRatio
import EmuFlow.Routing.RouteTree

/-!
# Validation of a routes artifact

`validate_system_routes` of `emuflow/routing.py`: the routes cover the demands of the assignment,
each is a tree of legal arcs, and the use of every capacity domain and of every shared bank fits
into one frame.
-/

namespace EmuFlow.Routing

open Check SortedSet DiscreteRatio List Keyed

structure RouteTotals where
  uses : List (String × Nat)
  routedSinks : Nat
  treeEdges : Nat
  maximumObservedHops : Nat

def RouteTotals.usage (totals : RouteTotals) (key : String) : Nat :=
  ((totals.uses.filter fun use => use.1 = key).map Prod.snd).sum

structure RoutesSummary where
  metrics : RouteMetrics
  linkUtilization : List UtilizationRecord

def checkRouteFields (route : Route) (demand : Demand) : Result Unit := do
  raiseIf (route.id ≠ demand.id)
    (.validation "route %r.%s: does not match demand" [demand.id, "id"])
  raiseIf (route.net ≠ demand.net)
    (.validation "route %r.%s: does not match demand" [demand.id, "net"])
  raiseIf (route.source ≠ demand.source)
    (.validation "route %r.%s: does not match demand" [demand.id, "source"])
  raiseIf (route.sinks ≠ demand.sinks)
    (.validation "route %r.%s: does not match demand" [demand.id, "sinks"])
  raiseIf (route.widthBits ≠ demand.widthBits)
    (.validation "route %r.%s: does not match demand" [demand.id, "width_bits"])
  raiseIf (route.round ≠ demand.transportRound.getD 0)
    (.validation "route %r.transport_round: does not match demand" [demand.id])

/-- `usage[arcs[key]["capacity_key"]] += width_bits`. -/
def useOf (graph : DirectedGraph) (width : Nat) (key : ArcKey) : Result (String × Nat) := do
  let arc ← lookupOrRaise key.1 (graph.findArc key)
  return (arc.capacityKey, width)

def checkRoute (demands : List Demand) (routes : List Route) (graph : DirectedGraph)
    (constraints : RouteConstraints) (totals : RouteTotals) (demandId : String) :
    Result RouteTotals := do
  let route ← lookupOrRaise demandId (find Route.id routes demandId)
  let demand ← lookupOrRaise demandId (find Demand.id demands.reverse demandId)
  checkRouteFields route demand
  let (edgeKeys, maxLatency, maxHops) ← validateRouteTree route graph
  raiseIf (∃ limit ∈ constraints.maxRouteHops, limit < maxHops)
    (.validation "route %r: source-to-sink path uses %s hops, above the maximum"
      [demandId, toString maxHops])
  raiseIf (route.maxLatencyCycles ≠ maxLatency)
    (.validation "route %r.max_latency_cycles: expected %s, got %r"
      [demandId, toString maxLatency, toString route.maxLatencyCycles])
  let uses ← edgeKeys.mapM (useOf graph demand.widthBits)
  return { uses := totals.uses ++ uses
           routedSinks := totals.routedSinks + demand.sinks.length
           treeEdges := totals.treeEdges + edgeKeys.length
           maximumObservedHops := max totals.maximumObservedHops maxHops }

def linkUtilizationRecords (graph : DirectedGraph) (totals : RouteTotals) :
    List UtilizationRecord :=
  (sortedBy CapacityRecord.key graph.capacities).map fun capacity =>
    { capacity := capacity
      usedBits := totals.usage capacity.key
      utilization := totals.usage capacity.key / capacity.capacityBits }

def banksNeeded (banks : SharedBanks) (frameSlots : Nat) (link : BoardLink)
    (usage : String → Nat) : Nat :=
  let perBank := banks.wiresPerBank * frameSlots
  ceilDiv (usage (link.id ++ ":" ++ link.endpoints.1 ++ "->" ++ link.endpoints.2)) perBank +
    ceilDiv (usage (link.id ++ ":" ++ link.endpoints.2 ++ "->" ++ link.endpoints.1)) perBank

def checkBanks (constraints : RouteConstraints) (usage : String → Nat) (link : BoardLink) :
    Result Unit :=
  match link.banks with
  | none => .ok ()
  | some banks =>
    if link.id ∈ constraints.unavailableLinks then .ok ()
    else
      raiseIf (banks.bankCount < banksNeeded banks constraints.frameSlots link usage)
        (.validation "routes exceed shared bank capacity on %s: need %s, available %s"
          [link.id, toString (banksNeeded banks constraints.frameSlots link usage),
            toString banks.bankCount])

def expectedMetrics (constraints : RouteConstraints) (demands : List Demand)
    (totals : RouteTotals) (records : List UtilizationRecord) : RouteMetrics :=
  { demands := demands.length
    routedSinks := totals.routedSinks
    treeEdges := totals.treeEdges
    maxLinkUtilization := (records.map UtilizationRecord.utilization).foldr max 0
    totalLinkBitHops := (totals.uses.map Prod.snd).sum
    maxRouteHopsObserved := constraints.maxRouteHops.map fun _ => totals.maximumObservedHops }

def checkMetrics (expected actual : RouteMetrics) : Result Unit := do
  raiseIf (actual.demands ≠ expected.demands)
    (.validation "routes.metrics.%s: expected %s, got %r"
      ["demands", toString expected.demands, toString actual.demands])
  raiseIf (actual.routedSinks ≠ expected.routedSinks)
    (.validation "routes.metrics.%s: expected %s, got %r"
      ["routed_sinks", toString expected.routedSinks, toString actual.routedSinks])
  raiseIf (actual.treeEdges ≠ expected.treeEdges)
    (.validation "routes.metrics.%s: expected %s, got %r"
      ["tree_edges", toString expected.treeEdges, toString actual.treeEdges])
  raiseIf (actual.maxLinkUtilization ≠ expected.maxLinkUtilization)
    (.validation "routes.metrics.%s: expected %s, got %r"
      ["max_link_utilization", toString expected.maxLinkUtilization,
        toString actual.maxLinkUtilization])
  raiseIf (actual.totalLinkBitHops ≠ expected.totalLinkBitHops)
    (.validation "routes.metrics.%s: expected %s, got %r"
      ["total_link_bit_hops", toString expected.totalLinkBitHops, toString actual.totalLinkBitHops])
  raiseIf (expected.maxRouteHopsObserved ≠ none ∧
      actual.maxRouteHopsObserved ≠ expected.maxRouteHopsObserved)
    (.validation "routes.metrics.%s: expected %s, got %r" ["max_route_hops_observed"])

def validateSystemRoutes (assignment : Assignment) (platform : Platform)
    (artifact : RoutesArtifact) : Result RoutesSummary := do
  raiseIf (artifact.schema ≠ SYSTEM_ROUTES_SCHEMA)
    (.validation "routes.schema: expected %r, got %r" [SYSTEM_ROUTES_SCHEMA, artifact.schema])
  let constraints ← normalizeRouteConstraints artifact.constraints platform
  let demands ← demandsFromAssignment assignment platform
  raiseIf (artifact.demands ≠ demands)
    (ValidationError "routes.demands does not match partition cut nets")
  let exactContract ← semanticContractForRoutes assignment artifact
  let graph ← buildDirectedGraph platform constraints exactContract.isSome
  raiseIf (¬ SameSet (artifact.routes.map Route.id) (demands.map Demand.id) ∨
      ¬ (artifact.routes.map Route.id).Nodup)
    (ValidationError "routes.routes: demand coverage is not exact")
  let totals ← (sortedSet (demands.map Demand.id)).foldlM
    (checkRoute demands artifact.routes graph constraints)
    { uses := [], routedSinks := 0, treeEdges := 0, maximumObservedHops := 0 }
  let records := linkUtilizationRecords graph totals
  raiseIf (artifact.linkUtilization ≠ records)
    (ValidationError
      "routes.link_utilization does not match independently recomputed usage")
  raiseIf (∃ record ∈ records, record.capacity.capacityBits < record.usedBits)
    (.validation "routes exceed modeled link capacity: %s"
      ((records.filter fun record => record.capacity.capacityBits < record.usedBits).map
        fun record => record.capacity.key))
  forM platform.links (checkBanks constraints totals.usage)
  let expected := expectedMetrics constraints demands totals records
  checkMetrics expected artifact.metrics
  return { metrics := { expected with iterations := artifact.metrics.iterations }
           linkUtilization := records }

/-! ## what an accepted artifact satisfies -/

def DirectedGraph.capacityKeyOf (graph : DirectedGraph) (key : ArcKey) : String :=
  ((graph.findArc key).map Arc.capacityKey).getD ""

structure RouteAccepted (graph : DirectedGraph) (route : Route) : Prop where
  keys_nodup : (route.treeEdges.map TreeEdge.key).Nodup
  arcs : ∀ edge ∈ route.treeEdges, ∃ arc, graph.findArc edge.key = some arc
  indegree_one : ∀ edge ∈ route.treeEdges, edge.sink ≠ route.source → indegree route edge.sink = 1
  width_eq : route.widthBits = 1
  sinks_ne_nil : route.sinks ≠ []
  sinks_nodup : route.sinks.Nodup
  source_not_sink : route.source ∉ route.sinks
  round_nonneg : 0 ≤ route.round

structure Accepted (platform : Platform) (artifact : RoutesArtifact)
    (constraints : RouteConstraints) (graph : DirectedGraph) (totals : RouteTotals) : Prop where
  normalized : normalizeRouteConstraints artifact.constraints platform = .ok constraints
  built : ∃ reserve, buildDirectedGraph platform constraints reserve = .ok graph
  ids_nodup : (artifact.routes.map Route.id).Nodup
  nets_nodup : (artifact.routes.map Route.net).Nodup
  route : ∀ route ∈ artifact.routes, RouteAccepted graph route
  usage_eq : ∀ key, totals.usage key = (artifact.routes.flatMap Route.treeEdges).countP
    fun edge => graph.capacityKeyOf edge.key = key
  capacity : ∀ record ∈ graph.capacities, totals.usage record.key ≤ record.capacityBits
  banks : ∀ link ∈ platform.links, checkBanks constraints totals.usage link = .ok ()

theorem checkRouteFields_eq_ok {route : Route} {demand : Demand}
    (h : checkRouteFields route demand = .ok ()) :
    route.id = demand.id ∧ route.net = demand.net ∧ route.source = demand.source ∧
      route.sinks = demand.sinks ∧ route.widthBits = demand.widthBits ∧
      route.round = demand.transportRound.getD 0 := by
  unfold checkRouteFields at h
  simpa only [raiseIf_bind, raiseIf_eq_ok, ne_eq, not_not] using h

theorem mapM_useOf {graph : DirectedGraph} {width : Nat} :
    ∀ {keys : List ArcKey} {uses : List (String × Nat)},
      keys.mapM (useOf graph width) = .ok uses →
      uses = keys.map fun key => (graph.capacityKeyOf key, width)
  | [], uses, h => mapM_nil_eq_ok.mp h
  | key :: keys, uses, h => by
    obtain ⟨use, uses', hus, hu, rfl⟩ := mapM_cons_eq_ok.mp h
    obtain ⟨arc, ha, hus⟩ := bind_eq_ok.mp hus
    rw [mapM_useOf hu, map_cons, ← Except.ok.inj hus,
      DirectedGraph.capacityKeyOf, lookupOrRaise_eq_ok.mp ha]
    rfl

def usesOf (routes : List Route) (graph : DirectedGraph) (id : String) : List (String × Nat) :=
  match find Route.id routes id with
  | some route => route.treeEdges.map fun edge => (graph.capacityKeyOf edge.key, 1)
  | none => []

section Loop

variable {demands : List Demand} {routes : List Route} {graph : DirectedGraph}
  {constraints : RouteConstraints}

theorem checkRoute_eq_ok (hvl : ∀ d ∈ demands, d.Valid)
    {totals totals' : RouteTotals} {id : String}
    (h : checkRoute demands routes graph constraints totals id = .ok totals') :
    (∃ route d, find Route.id routes id = some route ∧ d ∈ demands ∧
        d.id = id ∧ route.net = d.net ∧ RouteAccepted graph route) ∧
      totals'.uses = totals.uses ++ usesOf routes graph id := by
  obtain ⟨route, hr, h⟩ := bind_eq_ok.mp h
  obtain ⟨d, hd, h⟩ := bind_eq_ok.mp h
  obtain ⟨⟨⟩, hf, h⟩ := bind_eq_ok.mp h
  obtain ⟨⟨keys, maxLatency, maxHops⟩, ht, h⟩ := bind_eq_ok.mp h
  simp only [raiseIf_bind] at h
  obtain ⟨-, -, h⟩ := h
  obtain ⟨uses, hu, h⟩ := bind_eq_ok.mp h
  cases h
  rw [lookupOrRaise_eq_ok] at hr hd
  obtain ⟨-, hn, hsr, hs, hw, hrn⟩ := checkRouteFields_eq_ok hf
  obtain ⟨rfl, hnd, ha, hin⟩ := validateRouteTree_eq_ok ht
  have hm : d ∈ demands := mem_reverse.mp (mem_of_find hd)
  have hv := hvl d hm
  constructor
  · refine ⟨route, d, hr, hm, key_of_find hd, hn,
      hnd, ha, hin, hw.trans hv.width_eq, ?_, ?_, ?_, ?_⟩
    · rw [hs]; exact hv.sinks_ne_nil
    · rw [hs]; exact hv.sinks_nodup
    · rw [hs, hsr]; exact hv.source_not_sink
    · rw [hrn]; exact hv.round_nonneg
  · simp only [usesOf, hr, mapM_useOf hu, map_map, hv.width_eq]
    rfl

theorem foldlM_checkRoute (hv : ∀ d ∈ demands, d.Valid) :
    ∀ {ids : List String} {totals totals' : RouteTotals},
      ids.foldlM (checkRoute demands routes graph constraints) totals = .ok totals' →
      (∀ id ∈ ids, ∃ route d, find Route.id routes id = some route ∧
        d ∈ demands ∧ d.id = id ∧ route.net = d.net ∧
        RouteAccepted graph route) ∧
      totals'.uses = totals.uses ++ ids.flatMap (usesOf routes graph)
  | [], totals, totals', h => by
    rw [foldlM_nil] at h
    rw [← Except.ok.inj h]
    exact ⟨fun _ hid => absurd hid not_mem_nil, by simp⟩
  | id :: ids, totals, totals', h => by
    rw [foldlM_cons] at h
    obtain ⟨totals₁, h₁, h⟩ := bind_eq_ok.mp h
    obtain ⟨hs, hu₁⟩ := checkRoute_eq_ok hv h₁
    obtain ⟨hr, hu⟩ := foldlM_checkRoute hv h
    refine ⟨forall_mem_cons.mpr ⟨hs, hr⟩, ?_⟩
    rw [hu, hu₁, flatMap_cons, append_assoc]

end Loop

theorem sum_uses {α : Type} (f : α → String) (key : String) (l : List α) :
    (((l.map fun a => (f a, 1)).filter fun use => use.1 = key).map Prod.snd).sum =
      l.countP fun a => f a = key := by
  induction l with
  | nil => rfl
  | cons a l ih =>
    by_cases hk : f a = key
    · simp [hk, ih, Nat.add_comm]
    · simp [hk, ih]

/-- What an accepted artifact has passed. -/
theorem validateSystemRoutes_eq_ok {assignment : Assignment} {platform : Platform}
    {artifact : RoutesArtifact} {summary : RoutesSummary}
    (h : validateSystemRoutes assignment platform artifact = .ok summary) :
    ∃ constraints graph totals, Accepted platform artifact constraints graph totals := by
  unfold validateSystemRoutes at h
  simp only [raiseIf_bind] at h
  obtain ⟨-, h⟩ := h
  obtain ⟨constraints, hnr, h⟩ := bind_eq_ok.mp h
  obtain ⟨demands, hdm, h⟩ := bind_eq_ok.mp h
  simp only [raiseIf_bind] at h
  obtain ⟨-, h⟩ := h
  obtain ⟨contract, -, h⟩ := bind_eq_ok.mp h
  obtain ⟨graph, hgr, h⟩ := bind_eq_ok.mp h
  simp only [raiseIf_bind, not_or, not_not] at h
  obtain ⟨⟨hst, his⟩, h⟩ := h
  obtain ⟨totals, htt, h⟩ := bind_eq_ok.mp h
  simp only [raiseIf_bind] at h
  obtain ⟨-, hov, h⟩ := h
  obtain ⟨⟨⟩, hbn, -⟩ := bind_eq_ok.mp h
  obtain ⟨hvl, hnt⟩ := demandsFromAssignment_spec hdm
  obtain ⟨hal, hus⟩ := foldlM_checkRoute hvl htt
  have hpm : (sortedSet (demands.map Demand.id)).Perm (artifact.routes.map Route.id) := by
    rw [perm_ext_iff_of_nodup (nodup_sortedSet _) his]
    intro id
    rw [mem_sortedSet]
    exact (sameSet_iff.mp hst id).symm
  have hrt : ∀ route ∈ artifact.routes, ∃ d ∈ demands, d.id = route.id ∧
      route.net = d.net ∧ RouteAccepted graph route := by
    intro route hmm
    have hid : route.id ∈ sortedSet (demands.map Demand.id) :=
      hpm.mem_iff.mpr (mem_map_of_mem hmm)
    obtain ⟨r, d, hr, hd, hdd, hnet, hac⟩ := hal route.id hid
    rw [find_of_mem his hmm] at hr
    cases hr
    exact ⟨d, hd, hdd, hnet, hac⟩
  refine ⟨constraints, graph, totals, hnr, ⟨_, hgr⟩, his, ?_, ?_, ?_, ?_, ?_⟩
  · refine Nodup.map_on ?_ his.of_map
    intro a ha b hb hab
    obtain ⟨da, hda, hida, hne, -⟩ := hrt a ha
    obtain ⟨db, hdb, hib, hnb, -⟩ := hrt b hb
    have hd : da = db := inj_on_of_nodup_map hnt hda hdb (by rw [← hne, ← hnb, hab])
    exact inj_on_of_nodup_map his ha hb (by rw [← hida, ← hib, hd])
  · intro route hmm
    obtain ⟨-, -, -, -, hac⟩ := hrt route hmm
    exact hac
  · intro key
    have hfl : (artifact.routes.map Route.id).flatMap (usesOf artifact.routes graph) =
        (artifact.routes.flatMap Route.treeEdges).map fun edge =>
          (graph.capacityKeyOf edge.key, 1) := by
      rw [flatMap_map, map_flatMap]
      refine flatMap_congr fun route hmm => ?_
      rw [usesOf, find_of_mem his hmm]
    have hpr : totals.uses.Perm ((artifact.routes.flatMap Route.treeEdges).map fun edge =>
        (graph.capacityKeyOf edge.key, 1)) := by
      rw [hus, nil_append, ← hfl]
      exact hpm.flatMap_right _
    rw [RouteTotals.usage, ((hpr.filter _).map _).sum_eq]
    exact sum_uses (fun edge : TreeEdge => graph.capacityKeyOf edge.key) key _
  · intro record hmm
    by_contra hlt
    refine hov ⟨_, mem_map_of_mem (mem_sortedBy.mpr hmm), ?_⟩
    exact not_le.mp hlt
  · exact forM_eq_ok.mp hbn

end EmuFlow.Routing
