import EmuFlow.Lib.Arborescence
import EmuFlow.Routing.RouteTree

/-!
# Which route trees are accepted

The route-tree check accepts the legal, pairwise different edges that make an arborescence rooted at
the source and covering the sinks, and it returns the largest latency and hop count of a sink.
-/

namespace EmuFlow.Routing

open Check SortedSet List

variable {route : Route} {graph : DirectedGraph}

/-! ## trees and the costs of their paths -/

def edgeLatency (graph : DirectedGraph) (edge : TreeEdge) : Nat :=
  ((graph.findArc edge.key).map Arc.latencyCycles).getD 0

inductive PathCost (route : Route) (graph : DirectedGraph) : String → NodeCost → Prop
  | source : PathCost route graph route.source { latency := 0, hops := 0 }
  | edge {edge : TreeEdge} {cost : NodeCost} : edge ∈ route.treeEdges →
      PathCost route graph edge.source cost →
      PathCost route graph edge.sink
        { latency := cost.latency + edgeLatency graph edge, hops := cost.hops + 1 }

structure IsRouteTree (route : Route) (graph : DirectedGraph) : Prop where
  legal : ∀ edge ∈ route.treeEdges, ∃ arc, graph.findArc edge.key = some arc
  distinct : (route.treeEdges.map TreeEdge.key).Nodup
  tree : ∃ nodes, Arborescence TreeEdge.source TreeEdge.sink route.source nodes route.treeEdges ∧
      ∀ sink ∈ route.sinks, sink ∈ nodes

variable {node : String}

/-- A node of a tree has one path cost. -/
theorem PathCost.unique {nodes : List String}
    (h : Arborescence TreeEdge.source TreeEdge.sink route.source nodes route.treeEdges)
    {cost cost' : NodeCost} (hc : PathCost route graph node cost)
    (hc' : PathCost route graph node cost') : cost = cost' := by
  induction hc generalizing cost' with
  | source =>
    generalize hn : route.source = node at hc'
    cases hc' with
    | source => rfl
    | edge hmem _ => exact absurd hn.symm (h.root_free _ hmem)
  | @edge edge cost hmem _ ih =>
    generalize hn : edge.sink = node at hc'
    cases hc' with
    | source => exact absurd hn (h.root_free _ hmem)
    | @edge edge' cost' hm' hp =>
      obtain rfl := h.unique edge hmem edge' hm' hn
      rw [ih hp]

theorem PathCost.reached {cost : NodeCost} (h : PathCost route graph node cost) :
    Relation.ReflTransGen (fun a b => ∃ edge ∈ route.treeEdges, edge.source = a ∧ edge.sink = b)
      route.source node := by
  induction h with
  | source => exact Relation.ReflTransGen.refl
  | edge hmem _ ih => exact ih.tail ⟨_, hmem, rfl, rfl⟩

theorem mem_sortedSinks {hop : String × String} : hop ∈ sortedSinks route node ↔
      ∃ edge ∈ route.treeEdges, edge.source = node ∧ (edge.source, edge.sink) = hop := by
  simp only [sortedSinks, mem_map, mem_sorted, mem_filter, decide_eq_true_eq]
  constructor
  · rintro ⟨sink, ⟨edge, ⟨hmem, rfl⟩, rfl⟩, rfl⟩
    exact ⟨edge, hmem, rfl, rfl⟩
  · rintro ⟨edge, hmem, rfl, rfl⟩
    exact ⟨edge.sink, ⟨edge, ⟨hmem, rfl⟩, rfl⟩, rfl⟩

theorem source_of_mem_sortedSinks (node : String) :
    ∀ hop ∈ sortedSinks route node, hop.1 = node := by
  intro hop hh
  obtain ⟨edge, -, hs, rfl⟩ := mem_sortedSinks.mp hh
  exact hs

theorem latencyByEdge_eq (graph : DirectedGraph) {hop : String × String}
    (h : hop ∈ sortedSinks route node) : ∃ edge ∈ route.treeEdges, (edge.source, edge.sink) = hop ∧
      latencyByEdge route graph hop = edgeLatency graph edge := by
  obtain ⟨edge, hmem, -, hh⟩ := mem_sortedSinks.mp h
  cases hf : route.treeEdges.reverse.find? fun edge => (edge.source, edge.sink) = hop with
  | none =>
    have hn := List.find?_eq_none.mp hf edge (mem_reverse.mpr hmem)
    simp [hh] at hn
  | some last =>
    refine ⟨last, mem_reverse.mp (List.mem_of_find?_eq_some hf), ?_, ?_⟩
    · simpa using List.find?_some hf
    · rw [latencyByEdge, hf]
      rfl

/-! ## accepted trees -/

section Accepted

variable {hops : List (NodeCost × String × String)}

theorem reachedHops_ok (h : reachedHops route graph = .ok hops) :
    TreeWalk.walk (sortedSinks route) Prod.snd (hopCost route graph)
      (route.treeEdges.length + 1) route.source { latency := 0, hops := 0 } = .ok hops := by
  unfold reachedHops at h
  split at h
  · next hops' hwalk =>
    rw [hwalk, Except.ok.inj h]
  · cases h

variable {cost : NodeCost}

theorem mem_nodeCosts {node : String} : (node, cost) ∈ nodeCosts route graph hops ↔
      TreeWalk.Reached Prod.snd (hopCost route graph) route.source { latency := 0, hops := 0 } hops
        node cost := by
  rw [nodeCosts, mem_cons, mem_map, TreeWalk.Reached, Prod.mk.injEq]
  refine or_congr_right (exists_congr fun x => and_congr_right fun _ => ?_)
  rw [Prod.mk.injEq]

theorem pathCost_of_reached
    (ho : TreeWalk.Ordered Prod.fst Prod.snd (hopCost route graph) route.source
      { latency := 0, hops := 0 } hops)
    (how : ∀ x ∈ hops, x.2 ∈ sortedSinks route x.2.1) {node : String}
    (h : TreeWalk.Reached Prod.snd (hopCost route graph) route.source { latency := 0, hops := 0 }
      hops node cost) : PathCost route graph node cost := by
  induction hops using reverseRecOn generalizing node cost with
  | nil =>
    rcases h with ⟨rfl, rfl⟩ | ⟨x, hx, -⟩
    · exact PathCost.source
    · cases hx
  | append_singleton hops last ih =>
    have hb : TreeWalk.Ordered Prod.fst Prod.snd (hopCost route graph) route.source
        { latency := 0, hops := 0 } hops := by
      intro pre x post heq
      exact ho pre x (post ++ [last]) (by rw [heq]; simp)
    have how' : ∀ x ∈ hops, x.2 ∈ sortedSinks route x.2.1 := fun x hx =>
      how x (mem_append_left _ hx)
    rcases h with ⟨rfl, rfl⟩ | ⟨x, hx, rfl, rfl⟩
    · exact PathCost.source
    · rcases List.mem_append.mp hx with hx | hx
      · exact ih hb how' (Or.inr ⟨x, hx, rfl, rfl⟩)
      · obtain rfl := mem_singleton.mp hx
        have hs := ih hb how' (ho hops x [] rfl).1
        obtain ⟨edge, hmem, hh, hl⟩ :=
          latencyByEdge_eq graph (how x (mem_append_right _ hx))
        rw [← hh] at hs
        rw [hopCost, hl, ← hh]
        exact PathCost.edge hmem hs

variable (hwalk : TreeWalk.walk (sortedSinks route) Prod.snd (hopCost route graph)
  (route.treeEdges.length + 1) route.source { latency := 0, hops := 0 } = .ok hops)
include hwalk

/-- The walk records for a node the cost of the path to it. -/
theorem pathCost_of_mem {node : String}
    (h : (node, cost) ∈ nodeCosts route graph hops) : PathCost route graph node cost :=
  pathCost_of_reached (TreeWalk.walk_ordered source_of_mem_sortedSinks hwalk)
    (TreeWalk.walk_own source_of_mem_sortedSinks hwalk) (mem_nodeCosts.mp h)

section

variable {edge : TreeEdge} (hmem : edge ∈ route.treeEdges)
  (h : edge.source ∈ (nodeCosts route graph hops).map Prod.fst)
include hmem h

theorem hop_of_reached : (edge.source, edge.sink) ∈ hops.map Prod.snd := by
  obtain ⟨⟨node, cost⟩, hc, hn⟩ := mem_map.mp h
  have hr := mem_nodeCosts.mp hc
  rw [show node = edge.source from hn] at hr
  have ha : ∀ a, ∀ hop ∈ sortedSinks route a,
      hop ∈ route.treeEdges.map fun edge => (edge.source, edge.sink) := by
    intro a hop hh
    obtain ⟨edge, hmem, -, rfl⟩ := mem_sortedSinks.mp hh
    exact mem_map_of_mem hmem
  exact TreeWalk.walk_closed source_of_mem_sortedSinks hwalk ha (by rw [length_map])
    hr _ (mem_sortedSinks.mpr ⟨edge, hmem, rfl, rfl⟩)

theorem sink_reached : edge.sink ∈ (nodeCosts route graph hops).map Prod.fst := by
  obtain ⟨x, hx, heq⟩ := mem_map.mp (hop_of_reached hwalk hmem h)
  refine mem_map.mpr ⟨(x.2.2, hopCost route graph x.1 x.2), ?_, ?_⟩
  · exact mem_nodeCosts.mpr (Or.inr ⟨x, hx, rfl, rfl⟩)
  · rw [heq]

end

omit hwalk

theorem edge_unique
    (hd : ∀ edge ∈ route.treeEdges, edge.sink ≠ route.source → indegree route edge.sink = 1)
    {edge edge' : TreeEdge} (hmem : edge ∈ route.treeEdges) (hm' : edge' ∈ route.treeEdges)
    (hr : edge.sink ≠ route.source) (heq : edge.sink = edge'.sink) : edge = edge' := by
  have hon := hd edge hmem hr
  rw [indegree, count_eq_countP, countP_map, countP_eq_length_filter] at hon
  obtain ⟨only, ho⟩ := length_eq_one_iff.mp hon
  have hin : ∀ e ∈ route.treeEdges, e.sink = edge.sink → e = only := by
    intro e he hs
    have hf : e ∈ route.treeEdges.filter ((· == edge.sink) ∘ TreeEdge.sink) :=
      mem_filter.mpr ⟨he, by simp [hs]⟩
    rw [ho] at hf
    exact mem_singleton.mp hf
  rw [hin edge hmem rfl, hin edge' hm' heq.symm]

/-- What the validator accepts is a tree from the source. -/
theorem isRouteTree_of_ok {keys : List ArcKey} {maxLatency maxHops : Nat}
    (h : validateRouteTree route graph = .ok (keys, maxLatency, maxHops)) :
    IsRouteTree route graph := by
  obtain ⟨hk, hnd, hl, hd⟩ := validateRouteTree_eq_ok h
  rw [hk] at hnd
  unfold validateRouteTree at h
  obtain ⟨keys', -, h⟩ := bind_eq_ok.mp h
  obtain ⟨hops, hh, h⟩ := bind_eq_ok.mp h
  simp only [raiseIf_bind] at h
  obtain ⟨hc, hs, -, -⟩ := h
  have hwalk := reachedHops_ok hh
  have he : ∀ edge ∈ route.treeEdges, edge.source ∈ (nodeCosts route graph hops).map Prod.fst ∧
        edge.sink ∈ (nodeCosts route graph hops).map Prod.fst := by
    intro edge hmem
    by_contra hn
    exact hc ⟨edge, hmem, not_and_or.mp hn⟩
  have hr : ∀ edge ∈ route.treeEdges, edge.sink ≠ route.source := by
    intro edge hmem
    obtain ⟨x, hx, heq⟩ := mem_map.mp (hop_of_reached hwalk hmem (he edge hmem).1)
    have hne := (TreeWalk.walk_ordered source_of_mem_sortedSinks hwalk).target_ne_root hx
    rwa [heq] at hne
  refine ⟨hl, hnd, (nodeCosts route graph hops).map Prod.fst, ?_, ?_⟩
  · refine ⟨mem_cons_self, he, hr, fun edge hmem edge' hm' heq => ?_, ?_⟩
    · exact edge_unique hd hmem hm' (hr edge hmem) heq
    · intro node hno
      obtain ⟨⟨node', cost⟩, hcs, rfl⟩ := mem_map.mp hno
      exact (pathCost_of_mem hwalk hcs).reached
  · intro sink hsk
    by_contra hn
    exact hs ⟨sink, hsk, hn⟩

end Accepted

theorem foldlM_addEdgeKey_ok : ∀ {edges : List TreeEdge} {keys : List ArcKey},
      (∀ edge ∈ edges, ∃ arc, graph.findArc edge.key = some arc) →
      (keys ++ edges.map TreeEdge.key).Nodup →
      edges.foldlM (addEdgeKey route graph) keys = .ok (keys ++ edges.map TreeEdge.key)
  | [], keys, _, _ => by
    rw [foldlM_nil, map_nil, append_nil]
    rfl
  | edge :: edges, keys, hl, hn => by
    have hf : addEdgeKey route graph keys edge = .ok (keys ++ [edge.key]) := by
      unfold addEdgeKey
      obtain ⟨arc, ha⟩ := hl edge mem_cons_self
      simp only [raiseIf_bind]
      refine ⟨by rw [ha]; simp, fun hmem => ?_, rfl⟩
      rw [map_cons, nodup_append] at hn
      exact hn.2.2 _ hmem _ mem_cons_self rfl
    rw [foldlM_cons, hf]
    show edges.foldlM (addEdgeKey route graph) (keys ++ [edge.key]) = _
    rw [foldlM_addEdgeKey_ok (fun e he => hl e (mem_cons_of_mem _ he)) ?_]
    · simp
    · simpa using hn

section Tree

variable {nodes : List String}

theorem indegree_eq_one
    (h : Arborescence TreeEdge.source TreeEdge.sink route.source nodes route.treeEdges)
    (hn : route.treeEdges.Nodup) {edge : TreeEdge} (hmem : edge ∈ route.treeEdges) :
    indegree route edge.sink = 1 := by
  rw [indegree, count_eq_countP, countP_map]
  calc route.treeEdges.countP ((· == edge.sink) ∘ TreeEdge.sink)
      = route.treeEdges.countP (· == edge) := by
        refine countP_congr fun edge' hm' => ?_
        rw [Function.comp_apply, beq_iff_eq, beq_iff_eq]
        exact ⟨h.unique edge' hm' edge hmem, congrArg TreeEdge.sink⟩
    _ = 1 := count_eq_one_of_mem hn hmem

/-- The walk of a tree meets no node twice. -/
theorem reachedHops_of_tree (graph : DirectedGraph)
    (h : Arborescence TreeEdge.source TreeEdge.sink route.source nodes route.treeEdges)
    (hnd : route.treeEdges.Nodup) : ∃ hops, reachedHops route graph = .ok hops := by
  have hs : ∀ node, (sortedSinks route node).Nodup := by
    intro node
    refine Nodup.map (fun sink sink' heq => (Prod.mk.inj heq).2) ?_
    rw [nodup_sorted]
    refine (hnd.filter _).map_on fun edge hmem edge' hm' heq => ?_
    exact h.unique edge (mem_of_mem_filter hmem) edge' (mem_of_mem_filter hm') heq
  have hr : ∀ node, ∀ hop ∈ sortedSinks route node, hop.2 ≠ route.source := by
    intro node hop hh
    obtain ⟨edge, hmem, -, rfl⟩ := mem_sortedSinks.mp hh
    exact h.root_free edge hmem
  have hu : ∀ a b, ∀ hop ∈ sortedSinks route a, ∀ hop' ∈ sortedSinks route b,
      hop.2 = hop'.2 → hop = hop' := by
    intro a b hop hh hop' hh' heq
    obtain ⟨edge, hmem, -, rfl⟩ := mem_sortedSinks.mp hh
    obtain ⟨edge', hm', -, rfl⟩ := mem_sortedSinks.mp hh'
    rw [h.unique edge hmem edge' hm' heq]
  obtain ⟨hops, hwalk⟩ : ∃ hops, TreeWalk.walk (sortedSinks route) Prod.snd (hopCost route graph)
      (route.treeEdges.length + 1) route.source { latency := 0, hops := 0 } = .ok hops :=
    TreeWalk.walk_ok source_of_mem_sortedSinks hs hr hu _
  exact ⟨hops, by rw [reachedHops, hwalk]⟩

end Tree

/-- A tree is accepted, with the largest costs of its sinks. -/
theorem validateRouteTree_of_tree (h : IsRouteTree route graph) :
    ∃ cost : String → NodeCost, (∀ sink ∈ route.sinks, PathCost route graph sink (cost sink)) ∧
      validateRouteTree route graph = .ok (route.treeEdges.map TreeEdge.key,
        maxOrZero (route.sinks.map fun sink => (cost sink).latency),
        maxOrZero (route.sinks.map fun sink => (cost sink).hops)) := by
  obtain ⟨hlg, hd, nodes, ht, hsk⟩ := h
  have hnp := hd.of_map
  obtain ⟨hops, hh⟩ := reachedHops_of_tree graph ht hnp
  have hwalk := reachedHops_ok hh
  -- every node of the tree has been reached
  have hr : ∀ node ∈ nodes, node ∈ (nodeCosts route graph hops).map Prod.fst := by
    intro node hnd
    induction ht.reached node hnd with
    | refl => exact mem_cons_self
    | tail _ he ih =>
      obtain ⟨edge, hmem, rfl, rfl⟩ := he
      exact sink_reached hwalk hmem (ih (ht.ends edge hmem).1)
  have hl : ∀ node ∈ nodes, ∃ cost, (nodeCosts route graph hops).lookup node = some cost ∧
      PathCost route graph node cost := by
    intro node hnd
    obtain ⟨⟨node', cost'⟩, hmem, rfl⟩ := mem_map.mp (hr node hnd)
    cases hf : (nodeCosts route graph hops).lookup node' with
    | none => exact absurd (lookup_eq_none_iff.mp hf _ hmem) (by simp)
    | some cost =>
      obtain ⟨before, after, hsp, -⟩ := lookup_eq_some_iff.mp hf
      refine ⟨cost, rfl, pathCost_of_mem hwalk ?_⟩
      rw [hsp]
      exact mem_append_right _ mem_cons_self
  refine ⟨fun node => ((nodeCosts route graph hops).lookup node).getD { latency := 0, hops := 0 },
    fun sink hs => ?_, ?_⟩
  · obtain ⟨cost, hf, hc⟩ := hl sink (hsk sink hs)
    simp only [hf, Option.getD_some]
    exact hc
  · have hcs : (route.sinks.mapM fun sink =>
        lookupOrRaise sink ((nodeCosts route graph hops).lookup sink)) =
        .ok (route.sinks.map fun node =>
          ((nodeCosts route graph hops).lookup node).getD { latency := 0, hops := 0 }) := by
      refine mapM_eq_ok_map fun sink hs => ?_
      obtain ⟨cost, hf, -⟩ := hl sink (hsk sink hs)
      rw [hf]
      rfl
    unfold validateRouteTree
    refine bind_eq_ok.mpr ⟨_, foldlM_addEdgeKey_ok hlg hd, ?_⟩
    refine bind_eq_ok.mpr ⟨hops, hh, ?_⟩
    simp only [raiseIf_bind]
    refine ⟨?_, ?_, ?_, ?_⟩
    · rintro ⟨edge, hmem, hn⟩
      obtain ⟨hsr, hs⟩ := ht.ends edge hmem
      exact hn.elim (· (hr _ hsr)) (· (hr _ hs))
    · rintro ⟨sink, hs, hn⟩
      exact hn (hr _ (hsk sink hs))
    · rintro ⟨node, hnd, -, hne⟩
      obtain ⟨edge, hmem, rfl⟩ := mem_map.mp hnd
      exact hne (indegree_eq_one ht hnp hmem)
    · refine bind_eq_ok.mpr ⟨_, hcs, ?_⟩
      rw [map_map, map_map]
      rfl

/-- **The validator accepts the trees from the source, and nothing else.** -/
theorem validateRouteTree_iff {keys : List ArcKey} {maxLatency maxHops : Nat} :
    validateRouteTree route graph = .ok (keys, maxLatency, maxHops) ↔
      IsRouteTree route graph ∧ keys = route.treeEdges.map TreeEdge.key ∧
        ∃ cost : String → NodeCost, (∀ sink ∈ route.sinks, PathCost route graph sink (cost sink)) ∧
          maxLatency = maxOrZero (route.sinks.map fun sink => (cost sink).latency) ∧
          maxHops = maxOrZero (route.sinks.map fun sink => (cost sink).hops) := by
  constructor
  · intro h
    have ht := isRouteTree_of_ok h
    obtain ⟨cost, hc, hok⟩ := validateRouteTree_of_tree ht
    rw [h] at hok
    obtain ⟨hk, hmax⟩ := Prod.mk.inj (Except.ok.inj hok)
    obtain ⟨hl, hh⟩ := Prod.mk.inj hmax
    exact ⟨ht, hk, cost, hc, hl, hh⟩
  · rintro ⟨ht, rfl, cost, hc, rfl, rfl⟩
    obtain ⟨cost', hc', hok⟩ := validateRouteTree_of_tree ht
    obtain ⟨nodes, ha, -⟩ := ht.tree
    have hsm : ∀ sink ∈ route.sinks, cost' sink = cost sink := fun sink hs =>
      PathCost.unique ha (hc' sink hs) (hc sink hs)
    rw [hok]
    refine congrArg _ (congrArg _ (congrArg₂ Prod.mk ?_ ?_)) <;>
      refine congrArg _ (map_congr_left fun sink hs => ?_) <;>
      rw [hsm sink hs]

end EmuFlow.Routing
