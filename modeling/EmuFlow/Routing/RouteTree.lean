import EmuFlow.Lib.TreeWalk
import EmuFlow.Routing.Artifacts

/-!
# Demands of an assignment

`static_exact_contract_from_assignment`, `semantic_contract_for_routes` and
`demands_from_assignment` of `emuflow/routing.py`: the contract an assignment carries, its binding
to a routes artifact, and the transport demands of its cut nets.
-/

namespace EmuFlow.Routing

open Check SortedSet List TreeEdge

/-! ## the contract -/

def indexedCutValid (cut : CutNet) : Prop :=
  cut.cutClass = some "combinational" → (∃ level ∈ cut.dependencyLevel, 0 ≤ level) ∧
      (∃ depth ∈ cut.combinationalDependencyDepth, 0 ≤ depth) ∧
      ∃ nets ∈ cut.predecessorCutNets, ∀ net ∈ nets, net ≠ ""

instance (cut : CutNet) : Decidable (indexedCutValid cut) :=
  inferInstanceAs (Decidable (_ → _))

def indexedContractFromAssignment (assignment : Assignment) : Result (Option RouteContract) :=
  if assignment.semanticContractIndexed then do
    raiseIf (assignment.semanticContractSchema ≠ some STATIC_EXACT_STRUCTURAL_CONTRACT_SCHEMA ∨
        ∀ digest ∈ assignment.semanticContractSha256, digest.length ≠ 64)
      (ValidationError "indexed assignment semantic contract identity is incomplete")
    raiseIf (∃ cut ∈ assignment.cutNets, ¬ indexedCutValid cut)
      (ValidationError "indexed assignment cut dependency is invalid")
    return some (.indexed
      { schema := STATIC_EXACT_STRUCTURAL_CONTRACT_SCHEMA
        mode := "static-exact-combinational"
        qualification := "structural-partition-legality" })
  else .ok none

def checkContractNode (contract : Contract) (cut : CutNet) : Result Unit := do
  let node ← lookupOrRaise cut.net (Keyed.find CutNode.net contract.cutNodes cut.net)
  raiseIf (node.cutClass ≠ cut.cutClass)
    (.validation "exact semantic contract node %r.%s does not match assignment"
      [cut.net, "cut_class"])
  raiseIf (node.sourceFpgas ≠ cut.sourceFpgas)
    (.validation "exact semantic contract node %r.%s does not match assignment"
      [cut.net, "source_fpgas"])
  raiseIf (node.sinkFpgas ≠ cut.sinkFpgas)
    (.validation "exact semantic contract node %r.%s does not match assignment"
      [cut.net, "sink_fpgas"])
  raiseIf (cut.cutClass = some "combinational" ∧ cut.dependencyLevel ≠ node.dependencyLevel)
    (.validation "exact semantic contract node %r.%s does not match assignment"
      [cut.net, "dependency_level"])
  raiseIf (cut.cutClass = some "combinational" ∧
      cut.combinationalDependencyDepth ≠ node.combinationalDependencyDepth)
    (.validation "exact semantic contract node %r.%s does not match assignment"
      [cut.net, "combinational_dependency_depth"])
  raiseIf (cut.cutClass = some "combinational" ∧ cut.predecessorCutNets ≠ node.predecessorCutNets)
    (.validation "exact semantic contract node %r.%s does not match assignment"
      [cut.net, "predecessor_cut_nets"])

def staticExactContractFromAssignment (assignment : Assignment) : Result (Option RouteContract) :=
  match assignment.semanticContract with
  | none => indexedContractFromAssignment assignment
  | some contract => do
    raiseIf (contract.schema ∉ STATIC_EXACT_COMBINATIONAL_CUT_SCHEMAS ∨
        contract.mode ≠ "static-exact-combinational" ∨
        contract.qualification ≠ "structural-partition-legality")
      (ValidationError "assignment.semantic_contract is not a supported exact-cut contract")
    raiseIf (contract.schema = STATIC_EXACT_STRUCTURAL_CONTRACT_SCHEMA ∧
        ∀ policy ∈ contract.candidateSelectionPolicy, policy ∉ STATIC_EXACT_CANDIDATE_POLICIES)
      (ValidationError "assignment structural exact-cut certificate is incomplete")
    raiseIf (∀ digest ∈ assignment.semanticContractSha256, digest.length ≠ 64)
      (ValidationError "assignment semantic contract identity is incomplete")
    raiseIf ((∃ cut ∈ assignment.cutNets, cut.net = "") ∨ ∃ node ∈ contract.cutNodes, node.net = "")
      (ValidationError
        "exact assignment cuts and contract nodes require non-empty net identities")
    raiseIf (¬ (assignment.cutNets.map CutNet.net).Nodup ∨
        ¬ (contract.cutNodes.map CutNode.net).Nodup ∨
        ¬ SameSet (assignment.cutNets.map CutNet.net) (contract.cutNodes.map CutNode.net))
      (ValidationError "exact semantic contract cut-node coverage is not exact")
    forM (sortedBy CutNet.net assignment.cutNets) (checkContractNode contract)
    return some (.full contract)

def semanticContractForRoutes (assignment : Assignment) (routes : RoutesArtifact) :
    Result (Option RouteContract) := do
  match ← staticExactContractFromAssignment assignment with
  | none =>
    raiseIf (routes.semanticContract ≠ none ∨ routes.semanticContractSchema ≠ none ∨
        routes.semanticContractSha256 ≠ none)
      (ValidationError "safe routes may not contain an exact semantic contract")
    return none
  | some contract =>
    raiseIf (routes.semanticContract ≠ none)
      (ValidationError "routes may not duplicate the Phase 3 semantic contract")
    raiseIf (routes.semanticContractSchema ≠ some contract.schema ∨
        routes.semanticContractSha256 ≠ assignment.semanticContractSha256)
      (ValidationError "routes semantic_contract binding does not match assignment")
    return some contract

/-! ## demands -/

/-- `f"d{index:06d}"`. -/
def demandId (index : Nat) : String :=
  "d" ++ "".pushn '0' (6 - (toString index).length) ++ toString index

def contractNode (contract : RouteContract) (cut : CutNet) : Result CutNode :=
  match contract with
  | .full contract => lookupOrRaise cut.net (Keyed.find CutNode.net contract.cutNodes cut.net)
  | .indexed _ => .ok
    { net := cut.net
      cutClass := cut.cutClass
      sourceFpgas := cut.sourceFpgas
      sinkFpgas := cut.sinkFpgas
      dependencyLevel := cut.dependencyLevel
      combinationalDependencyDepth := cut.combinationalDependencyDepth
      predecessorCutNets := cut.predecessorCutNets }

def demandDependency (contract : RouteContract) (cut : CutNet) : Result DemandDependency := do
  let node ← contractNode contract cut
  let cutClass ← lookupOrRaise "cut_class" node.cutClass
  let dependencyLevel ← lookupOrRaise "dependency_level" node.dependencyLevel
  let depth ← lookupOrRaise "combinational_dependency_depth" node.combinationalDependencyDepth
  let predecessors ← lookupOrRaise "predecessor_cut_nets" node.predecessorCutNets
  return { cutClass := cutClass
           dependencyLevel := dependencyLevel
           combinationalDependencyDepth := depth
           predecessorCutNets := predecessors }

def optionalDependency (contract : Option RouteContract) (cut : CutNet) :
    Result (Option DemandDependency) :=
  match contract with
  | none => .ok none
  | some contract => some <$> demandDependency contract cut

def singleSource (index : Nat) (cut : CutNet) : Result String :=
  match cut.sourceFpgas with
  | [source] => .ok source
  | _ => .error (.validation
      "assignment.cut_nets[%s].source_fpgas: expected exactly one source FPGA" [toString index])

/-- One turn of the loop over the cut nets; `seen` are the nets of the turns before. -/
def demandOf (fpgaIds : List String) (contract : Option RouteContract) (index : Nat)
    (seen : List String) (cut : CutNet) : Result Demand := do
  raiseIf (cut.net = "")
    (.validation "assignment.cut_nets[%s].net: expected a non-empty string" [toString index])
  raiseIf (cut.net ∈ seen)
    (.validation "assignment.cut_nets[%s].net: duplicate %r" [toString index, cut.net])
  let source ← singleSource index cut
  raiseIf (cut.sinkFpgas = [])
    (.validation "assignment.cut_nets[%s].sink_fpgas: expected a non-empty string array"
      [toString index])
  raiseIf (∃ fpga ∈ source :: cut.sinkFpgas, fpga ∉ fpgaIds)
    (.validation "assignment.cut_nets[%s]: unknown FPGAs %s"
      (toString index :: sortedSet ((source :: cut.sinkFpgas).filter fun fpga => fpga ∉ fpgaIds)))
  let sinks := sortedSet (cut.sinkFpgas.filter fun sink => sink ≠ source)
  raiseIf (sinks = [])
    (.validation "assignment.cut_nets[%s]: no remote sink FPGA" [toString index])
  raiseIf (cut.transportRound.getD 0 < 0)
    (.validation "assignment.cut_nets[%s].transport_round: expected a non-negative integer"
      [toString index])
  let dependency ← optionalDependency contract cut
  return { id := demandId index
           net := cut.net
           source := source
           sinks := sinks
           widthBits := 1
           transportRound := cut.transportRound
           dependency := dependency }

/-- The loop over the cut nets, from position `index` on. -/
def demandsFrom (fpgaIds : List String) (contract : Option RouteContract) :
    Nat → List String → List CutNet → Result (List Demand)
  | _, _, [] => .ok []
  | index, seen, cut :: cuts => do
    let demand ← demandOf fpgaIds contract index seen cut
    let demands ← demandsFrom fpgaIds contract (index + 1) (seen ++ [cut.net]) cuts
    return demand :: demands

def demandsFromAssignment (assignment : Assignment) (platform : Platform) :
    Result (List Demand) := do
  raiseIf (assignment.schema ≠ PARTITION_ASSIGNMENT_SCHEMA)
    (.validation "assignment.schema: expected %r, got %r"
      [PARTITION_ASSIGNMENT_SCHEMA, assignment.schema])
  raiseIf (assignment.platform ≠ platform.name)
    (.validation "assignment.platform: expected %r, got %r" [platform.name, assignment.platform])
  let contract ← staticExactContractFromAssignment assignment
  let demands ← demandsFrom platform.fpgaIds contract 0 [] assignment.cutNets
  return sortedBy Demand.net demands

/-! ## what a demand satisfies -/

theorem demandOf_eq_ok {fpgaIds : List String} {contract : Option RouteContract} {index : Nat}
    {seen : List String} {cut : CutNet} {demand : Demand}
    (h : demandOf fpgaIds contract index seen cut = .ok demand) :
    demand.id = demandId index ∧ demand.net = cut.net ∧ demand.net ∉ seen ∧
      demand.widthBits = 1 ∧ demand.sinks ≠ [] ∧ demand.source ∉ demand.sinks ∧
      demand.sinks.Nodup ∧ 0 ≤ demand.transportRound.getD 0 := by
  unfold demandOf at h
  simp only [raiseIf_bind] at h
  obtain ⟨-, hs, h⟩ := h
  obtain ⟨source, -, h⟩ := bind_eq_ok.mp h
  simp only [raiseIf_bind] at h
  obtain ⟨-, -, hne, hr, h⟩ := h
  obtain ⟨dependency, -, h⟩ := bind_eq_ok.mp h
  rw [← Except.ok.inj h]
  refine ⟨rfl, rfl, hs, rfl, hne, ?_, nodup_sortedSet _, not_lt.mp hr⟩
  rw [mem_sortedSet, mem_filter]
  simp

structure Demand.Valid (demand : Demand) : Prop where
  width_eq : demand.widthBits = 1
  sinks_ne_nil : demand.sinks ≠ []
  sinks_nodup : demand.sinks.Nodup
  source_not_sink : demand.source ∉ demand.sinks
  round_nonneg : 0 ≤ demand.transportRound.getD 0

theorem demandsFrom_spec {fpgaIds : List String} {contract : Option RouteContract} :
    ∀ {cuts : List CutNet} {index : Nat} {seen : List String} {demands : List Demand},
      demandsFrom fpgaIds contract index seen cuts = .ok demands →
      (∀ demand ∈ demands, demand.Valid ∧ demand.net ∉ seen) ∧ (demands.map Demand.net).Nodup
  | [], _, _, demands, h => by
    rw [← Except.ok.inj h]
    exact ⟨fun _ hd => absurd hd not_mem_nil, nodup_nil⟩
  | cut :: cuts, index, seen, demands, h => by
    obtain ⟨demand, hd, h⟩ := bind_eq_ok.mp h
    obtain ⟨rest, hr, h⟩ := bind_eq_ok.mp h
    cases h
    obtain ⟨-, hn, hsn, hw, hne, hsr, hnd, hrn⟩ := demandOf_eq_ok hd
    obtain ⟨ha, hnp⟩ := demandsFrom_spec hr
    refine ⟨forall_mem_cons.mpr ⟨⟨⟨hw, hne, hnd, hsr, hrn⟩, hsn⟩, ?_⟩, ?_⟩
    · intro d hm
      exact ⟨(ha d hm).1, fun hs => (ha d hm).2 (mem_append_left _ hs)⟩
    · rw [map_cons, nodup_cons]
      refine ⟨fun hm => ?_, hnp⟩
      obtain ⟨d, hd', heq⟩ := mem_map.mp hm
      refine (ha d hd').2 (mem_append_right _ ?_)
      rw [heq, hn]
      exact mem_singleton_self _

theorem demandsFromAssignment_spec {assignment : Assignment} {platform : Platform}
    {demands : List Demand} (h : demandsFromAssignment assignment platform = .ok demands) :
    (∀ demand ∈ demands, demand.Valid) ∧ (demands.map Demand.net).Nodup := by
  unfold demandsFromAssignment at h
  simp only [raiseIf_bind] at h
  obtain ⟨-, -, h⟩ := h
  simp only [bind_eq_ok] at h
  obtain ⟨contract, -, ds, hds, h⟩ := h
  cases h
  obtain ⟨ha, hn⟩ := demandsFrom_spec hds
  refine ⟨fun d hd => (ha d (mem_sortedBy.mp hd)).1, ?_⟩
  exact ((sortedBy_perm Demand.net ds).map Demand.net).nodup_iff.mpr hn

/-!
## Route trees

`_validate_route_tree` of `emuflow/routing.py`: the edges of a route are arcs of the graph and make
a tree that hangs together with the source and reaches every sink.
-/

/-- `latency` and `hops` of a reached node. -/
structure NodeCost where
  latency : Nat
  hops : Nat

variable (route : Route) (graph : DirectedGraph)

/-- One turn of the loop over the edges: the keys so far and the next one. -/
def addEdgeKey (edgeKeys : List ArcKey) (edge : TreeEdge) : Result (List ArcKey) := do
  raiseIf (graph.findArc edge.key = none)
    (.validation "route %r: illegal directed edge %s"
      [route.id, edge.link, edge.source, edge.sink])
  raiseIf (edge.key ∈ edgeKeys)
    (.validation "route %r: duplicate edge %s" [route.id, edge.link, edge.source, edge.sink])
  return edgeKeys ++ [edge.key]

/-- `sorted(graph.get(node, []))`, each sink with its node. -/
def sortedSinks (node : String) : List (String × String) :=
  (sorted ((route.treeEdges.filter fun edge => edge.source = node).map sink)).map
    fun sink => (node, sink)

/-- `latency_by_edge[(node, sink)]`, which the last such edge has written. -/
def latencyByEdge (hop : String × String) : Nat :=
  match route.treeEdges.reverse.find? fun edge => (edge.source, edge.sink) = hop with
  | some edge => ((graph.findArc edge.key).map Arc.latencyCycles).getD 0
  | none => 0

def hopCost (cost : NodeCost) (hop : String × String) : NodeCost :=
  { latency := cost.latency + latencyByEdge route graph hop, hops := cost.hops + 1 }

def reachedHops : Result (List (NodeCost × String × String)) :=
  match TreeWalk.walk (sortedSinks route) Prod.snd (hopCost route graph)
    (route.treeEdges.length + 1) route.source { latency := 0, hops := 0 } with
  | .ok hops => .ok hops
  | .error sink => .error (.validation "route %r: tree contains a cycle or multiple path to %r"
      [route.id, sink])

/-- `latency` and `hops` of all reached nodes. -/
def nodeCosts (hops : List (NodeCost × String × String)) : List (String × NodeCost) :=
  (route.source, { latency := 0, hops := 0 }) ::
    hops.map fun x => (x.2.2, hopCost route graph x.1 x.2)

def indegree (node : String) : Nat := (route.treeEdges.map sink).count node

/-- `_validate_route_tree`: the edge keys and the largest latency and hop count of a sink. -/
def validateRouteTree : Result (List ArcKey × Nat × Nat) := do
  let edgeKeys ← route.treeEdges.foldlM (addEdgeKey route graph) []
  let hops ← reachedHops route graph
  let costs := nodeCosts route graph hops
  let reachable := costs.map Prod.fst
  raiseIf (∃ edge ∈ route.treeEdges, edge.source ∉ reachable ∨ edge.sink ∉ reachable)
    (.validation "route %r: tree has edges disconnected from source" [route.id])
  raiseIf (∃ sink ∈ route.sinks, sink ∉ reachable)
    (.validation "route %r: sinks are unreachable %s"
      (route.id :: sortedSet (route.sinks.filter fun sink => sink ∉ reachable)))
  raiseIf (∃ node ∈ route.treeEdges.map sink,
      node ≠ route.source ∧ indegree route node ≠ 1)
    (.validation "route %r: node has indegree other than one" [route.id])
  let sinkCosts ← route.sinks.mapM fun sink => lookupOrRaise sink (costs.lookup sink)
  return (edgeKeys, maxOrZero (sinkCosts.map NodeCost.latency),
    maxOrZero (sinkCosts.map NodeCost.hops))

variable {route graph}

theorem foldlM_addEdgeKey : ∀ {edges : List TreeEdge} {keys keys' : List ArcKey},
      edges.foldlM (addEdgeKey route graph) keys = .ok keys' →
      keys' = keys ++ edges.map key ∧ (keys.Nodup → keys'.Nodup) ∧
        ∀ edge ∈ edges, ∃ arc, graph.findArc edge.key = some arc
  | [], keys, keys', h => by
    rw [foldlM_nil] at h
    rw [← Except.ok.inj h]
    exact ⟨by simp, id, fun _ he => absurd he not_mem_nil⟩
  | edge :: edges, keys, keys', h => by
    rw [foldlM_cons] at h
    obtain ⟨keys₁, h₁, h⟩ := bind_eq_ok.mp h
    unfold addEdgeKey at h₁
    simp only [raiseIf_bind] at h₁
    obtain ⟨har, hnw, h₁⟩ := h₁
    cases h₁
    obtain ⟨hky, hn, hal⟩ := foldlM_addEdgeKey h
    refine ⟨by rw [hky]; simp, fun hk => hn ?_, ?_⟩
    · rw [nodup_append]
      refine ⟨hk, by simp, fun a ha b hb hab => hnw ?_⟩
      rw [mem_singleton] at hb
      exact hb ▸ hab ▸ ha
    · intro e he
      rcases mem_cons.mp he with rfl | he
      · exact Option.ne_none_iff_exists'.mp har
      · exact hal e he

/-- What an accepted route tree has passed. -/
theorem validateRouteTree_eq_ok {keys : List ArcKey} {maxLatency maxHops : Nat}
    (h : validateRouteTree route graph = .ok (keys, maxLatency, maxHops)) :
    keys = route.treeEdges.map key ∧ keys.Nodup ∧
      (∀ edge ∈ route.treeEdges, ∃ arc, graph.findArc edge.key = some arc) ∧
      ∀ edge ∈ route.treeEdges, edge.sink ≠ route.source → indegree route edge.sink = 1 := by
  unfold validateRouteTree at h
  obtain ⟨keys', hk, h⟩ := bind_eq_ok.mp h
  obtain ⟨hops, -, h⟩ := bind_eq_ok.mp h
  simp only [raiseIf_bind] at h
  obtain ⟨-, -, hin, h⟩ := h
  obtain ⟨costs, -, h⟩ := bind_eq_ok.mp h
  cases h
  obtain ⟨heq, hn, ha⟩ := foldlM_addEdgeKey hk
  rw [nil_append] at heq
  refine ⟨heq, hn nodup_nil, ha, ?_⟩
  intro edge he hne
  by_contra hc
  exact hin ⟨edge.sink, mem_map_of_mem he, hne, hc⟩

end EmuFlow.Routing
