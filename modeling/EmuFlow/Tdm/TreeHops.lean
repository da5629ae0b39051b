import EmuFlow.Routing.TreeShape
import EmuFlow.Tdm.RouteHops

/-!
# The hops of an accepted tree

On every route tree that the routing check accepts, the breadth-first order of its hops exists. It
has each edge once, behind the edge it hangs on, at the depth of its source.
-/

namespace EmuFlow.Tdm

open Check SortedSet Routing

variable {route : Route} {graph : DirectedGraph} {hops : List (Nat × TreeEdge)}

theorem treeOrder_of_tree (notTree disconnected : String) (h : IsRouteTree route graph) :
    ∃ hops, treeOrder notTree disconnected route = .ok hops := by
  obtain ⟨-, hds, nodes, htr, -⟩ := h
  have hnp := hds.of_map
  have hsr : ∀ node, ∀ edge ∈ adjacency route node, edge.source = node := fun _ _ hmm =>
    (mem_adjacency.mp hmm).2
  have hed : ∀ node, (adjacency route node).Nodup := fun node =>
    nodup_sortedBy.mpr (hnp.filter _)
  have hrt : ∀ node, ∀ edge ∈ adjacency route node, edge.sink ≠ route.source :=
    fun _ edge hmm => htr.root_free edge (mem_adjacency.mp hmm).1
  have hun : ∀ a b, ∀ edge ∈ adjacency route a, ∀ edge' ∈ adjacency route b,
      edge.sink = edge'.sink → edge = edge' := fun _ _ edge hmm edge' hmm' =>
    htr.unique edge (mem_adjacency.mp hmm).1 edge' (mem_adjacency.mp hmm').1
  obtain ⟨hops, hwl⟩ : ∃ hops, TreeWalk.walk (adjacency route) TreeEdge.sink
      (fun depth _ => depth + 1) (route.treeEdges.length + 1) route.source 0 = .ok hops :=
    TreeWalk.walk_ok hsr hed hrt hun _
  -- every node of the tree has been reached
  have hrc : ∀ node ∈ nodes, ∃ depth, AtDepth route hops node depth := by
    intro node hnd
    induction htr.reached node hnd with
    | refl => exact ⟨0, Or.inl ⟨rfl, rfl⟩⟩
    | tail _ heg ih =>
      obtain ⟨edge, hmm, rfl, rfl⟩ := heg
      obtain ⟨depth, hdp⟩ := ih (htr.ends edge hmm).1
      have hls := TreeWalk.walk_closed hsr hwl (fun _ e he => (mem_adjacency.mp he).1)
        le_rfl hdp edge (mem_adjacency.mpr ⟨hmm, rfl⟩)
      obtain ⟨hop, hhp, rfl⟩ := List.mem_map.mp hls
      exact ⟨hop.1 + 1, Or.inr ⟨hop, hhp, rfl, rfl⟩⟩
  have hsn : ∀ node ∈ nodes, node ∈ route.source :: hops.map fun hop => hop.2.sink := by
    intro node hnd
    obtain ⟨depth, ⟨rfl, -⟩ | ⟨hop, hhp, rfl, -⟩⟩ := hrc node hnd
    · exact List.mem_cons_self
    · exact List.mem_cons_of_mem _ (List.mem_map.mpr ⟨hop, hhp, rfl⟩)
  refine ⟨hops, ?_⟩
  rw [treeOrder, hwl]
  refine raiseIf_bind.mpr ⟨?_, rfl⟩
  rintro ⟨edge, hmm, hnt⟩
  obtain ⟨hsr', hsk⟩ := htr.ends edge hmm
  exact hnt.elim (· (hsn _ hsr')) (· (hsn _ hsk))

namespace RouteHops

variable (h : RouteHops route hops)
include h

theorem perm (hn : route.treeEdges.Nodup) : (hops.map Prod.snd).Perm route.treeEdges := by
  refine (List.perm_ext_iff_of_nodup ?_ hn).mpr h.mem_iff
  have ht := h.ordered.nodup_targets
  rw [show (hops.map fun hop => hop.2.sink) = (hops.map Prod.snd).map TreeEdge.sink by
    rw [List.map_map]; rfl] at ht
  exact ht.of_map

theorem pathCost (graph : DirectedGraph) {depth : Nat} {edge : TreeEdge}
    (hh : (depth, edge) ∈ hops) :
    ∃ latency, PathCost route graph edge.source { latency := latency, hops := depth } := by
  induction depth generalizing edge with
  | zero =>
    rcases h.parent hh with ⟨hr, -⟩ | ⟨above, -, -, hd⟩
    · exact ⟨0, hr ▸ PathCost.source⟩
    · exact absurd hd (Nat.succ_ne_zero _).symm
  | succ depth ih =>
    rcases h.parent hh with ⟨-, hd⟩ | ⟨⟨depth', above⟩, ha, hs, hd⟩
    · exact absurd hd (Nat.succ_ne_zero _)
    · obtain rfl := Nat.succ.inj hd
      obtain ⟨latency, hp⟩ := ih ha
      have hn := PathCost.edge (h.mem_treeEdges ha) hp
      rw [hs] at hn
      exact ⟨_, hn⟩

theorem parent_before {pre post : List (Nat × TreeEdge)} {hop : Nat × TreeEdge}
    (hs : hops = pre ++ hop :: post) :
    hop.2.source = route.source ∨ ∃ above ∈ pre, above.2.sink = hop.2.source := by
  obtain ⟨hr, -⟩ := h.ordered pre hop post hs
  rcases hr with ⟨hrt, -⟩ | ⟨above, ha, hsn, -⟩
  · exact Or.inl hrt
  · exact Or.inr ⟨above, ha, hsn⟩

end RouteHops

/--
**Accepted route trees and their hops.**

A route is accepted, with its edge keys and largest costs, exactly if its edges are legal, pairwise
different and make an arborescence from the source that covers the sinks, and the costs are those of
the paths to the sinks. The hops of an accepted route are its edges, each once, behind the edge it
hangs on and at the depth of its source.
-/
theorem acceptedTree_hops (route : Route) (graph : DirectedGraph) : (∀ keys maxLatency maxHops,
      validateRouteTree route graph = .ok (keys, maxLatency, maxHops) ↔
        IsRouteTree route graph ∧ keys = route.treeEdges.map TreeEdge.key ∧
          ∃ cost : String → NodeCost,
            (∀ sink ∈ route.sinks, PathCost route graph sink (cost sink)) ∧
            maxLatency = maxOrZero (route.sinks.map fun sink => (cost sink).latency) ∧
            maxHops = maxOrZero (route.sinks.map fun sink => (cost sink).hops)) ∧
    (∀ accepted, validateRouteTree route graph = .ok accepted →
      ∃ hops, routeHops route = .ok hops ∧ (hops.map Prod.snd).Perm route.treeEdges ∧
        (∀ pre hop post, hops = pre ++ hop :: post →
          hop.2.source = route.source ∨ ∃ above ∈ pre, above.2.sink = hop.2.source) ∧
        ∀ depth edge, (depth, edge) ∈ hops →
          ∃ latency, PathCost route graph edge.source { latency := latency, hops := depth }) := by
  refine ⟨fun _ _ _ => validateRouteTree_iff, ?_⟩
  rintro ⟨keys, maxLatency, maxHops⟩ hok
  have htree := isRouteTree_of_ok hok
  obtain ⟨hops, hhops⟩ : ∃ hops, routeHops route = .ok hops := treeOrder_of_tree _ _ htree
  have hspec := routeHops_spec hhops
  exact ⟨hops, hhops, hspec.perm htree.distinct.of_map, fun _ _ _ => hspec.parent_before,
    fun _ _ => hspec.pathCost graph⟩

end EmuFlow.Tdm
