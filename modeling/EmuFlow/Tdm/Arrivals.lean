import EmuFlow.Tdm.Progress

/-!
# Arrivals along a route tree

When every hop of a route has its arrival slot, every node of the tree has the arrival of the one
hop that reaches it, and each hop leaves one slot after the arrival at its source or later.
-/

namespace EmuFlow.Tdm

open Check SortedSet Routing TdmRatio List TreeEdge

/-- `arrival_by_node` after the given hops, which arrive at the slots `arrive`. -/
def arrivalsOf (route : Route) (ready : Int) (arrive : TreeEdge → Int)
    (hops : List (Nat × TreeEdge)) : ArrivalByNode :=
  (hops.map fun hop => (hop.2.sink, arrive hop.2)).reverse ++ [(route.source, ready - 1)]

def nodeArrival (arrivals : ArrivalByNode) (node : String) : Int := (arrivals.lookup node).getD 0

def readyOf (arrivals : ArrivalByNode) (edge : TreeEdge) : Int :=
  nodeArrival arrivals edge.source + 1

section Arrivals

variable {route : Route} {ready : Int} {arrive : TreeEdge → Int} {hops : List (Nat × TreeEdge)}

theorem arrivalsOf_snoc (hop : Nat × TreeEdge) : arrivalsOf route ready arrive (hops ++ [hop]) =
      (hop.2.sink, arrive hop.2) :: arrivalsOf route ready arrive hops := by
  simp [arrivalsOf]

theorem mem_arrivalsOf {node : String} {slot : Int} :
    (node, slot) ∈ arrivalsOf route ready arrive hops ↔
      (∃ hop ∈ hops, hop.2.sink = node ∧ arrive hop.2 = slot) ∨
        node = route.source ∧ slot = ready - 1 := by
  simp only [arrivalsOf, List.mem_append, mem_reverse, mem_map, Prod.mk.injEq, mem_singleton]

theorem mem_keys_arrivalsOf {node : String} :
    node ∈ (arrivalsOf route ready arrive hops).map Prod.fst ↔
      (∃ hop ∈ hops, hop.2.sink = node) ∨ node = route.source := by
  rw [mem_map]
  constructor
  · rintro ⟨⟨n, slot⟩, hm, rfl⟩
    rcases mem_arrivalsOf.mp hm with ⟨hop, hh, hs, -⟩ | ⟨hs, -⟩
    · exact Or.inl ⟨hop, hh, hs⟩
    · exact Or.inr hs
  · rintro (⟨hop, hh, hs⟩ | hs)
    · exact ⟨(node, arrive hop.2), mem_arrivalsOf.mpr (Or.inl ⟨hop, hh, hs, rfl⟩), rfl⟩
    · exact ⟨(node, ready - 1), mem_arrivalsOf.mpr (Or.inr ⟨hs, rfl⟩), rfl⟩

theorem RouteHops.nodup_keys {pre : List (Nat × TreeEdge)}
    (h : TreeWalk.Ordered source sink (fun depth _ => depth + 1) route.source 0
      pre) : ((arrivalsOf route ready arrive pre).map Prod.fst).Nodup := by
  rw [arrivalsOf, map_append, map_reverse, map_map, nodup_append, nodup_reverse]
  refine ⟨h.nodup_targets, by simp, ?_⟩
  rintro a ha b hb rfl
  rw [map_singleton, mem_singleton] at hb
  obtain ⟨hop, hh, hs⟩ := mem_map.mp (mem_reverse.mp ha)
  exact h.target_ne_root hh (hs.trans hb)

theorem ordered_prefix {pre post : List (Nat × TreeEdge)}
    (h : TreeWalk.Ordered source sink (fun depth _ => depth + 1) route.source 0
      (pre ++ post)) :
    TreeWalk.Ordered source sink (fun depth _ => depth + 1) route.source 0
      pre := by
  intro p x q heq
  exact h p x (q ++ post) (by rw [heq]; simp)

variable (h : TreeWalk.Ordered source sink (fun depth _ => depth + 1)
  route.source 0 hops)
include h

theorem nodeArrival_source : nodeArrival (arrivalsOf route ready arrive hops) route.source =
    ready - 1 := by
  rw [nodeArrival, Keyed.lookup_of_mem (RouteHops.nodup_keys h)
    (mem_arrivalsOf.mpr (Or.inr ⟨rfl, rfl⟩)), Option.getD_some]

theorem nodeArrival_sink {hop : Nat × TreeEdge} (hh : hop ∈ hops) :
    nodeArrival (arrivalsOf route ready arrive hops) hop.2.sink = arrive hop.2 := by
  rw [nodeArrival, Keyed.lookup_of_mem (RouteHops.nodup_keys h)
    (mem_arrivalsOf.mpr (Or.inl ⟨hop, hh, rfl, rfl⟩)), Option.getD_some]

omit h in
theorem hopReady_eq {pre post : List (Nat × TreeEdge)} {hop : Nat × TreeEdge}
    (h : TreeWalk.Ordered source sink (fun depth _ => depth + 1) route.source 0
      (pre ++ hop :: post)) :
    hopReady route ready (arrivalsOf route ready arrive pre) hop.2 =
      .ok (readyOf (arrivalsOf route ready arrive (pre ++ hop :: post)) hop.2) := by
  have hp := ordered_prefix h
  unfold hopReady readyOf
  by_cases hs : hop.2.source = route.source
  · rw [if_pos hs, hs, nodeArrival_source h]
    simp
  · rw [if_neg hs]
    obtain ⟨hr, -⟩ := h pre hop post rfl
    rcases hr with ⟨heq, -⟩ | ⟨above, ha, heq, -⟩
    · exact absurd heq hs
    · have hl : (arrivalsOf route ready arrive pre).lookup hop.2.source =
          some (arrive above.2) :=
        Keyed.lookup_of_mem (RouteHops.nodup_keys hp)
          (mem_arrivalsOf.mpr (Or.inl ⟨above, ha, heq, rfl⟩))
      rw [hl, ← heq, nodeArrival_sink h (mem_append_left _ ha)]
      rfl

theorem lookup_arrivalsOf {node : String}
    (hn : node ∈ (arrivalsOf route ready arrive hops).map Prod.fst) :
    (arrivalsOf route ready arrive hops).lookup node =
      some (nodeArrival (arrivalsOf route ready arrive hops) node) := by
  obtain ⟨⟨n, slot⟩, hm, rfl⟩ := mem_map.mp hn
  rw [nodeArrival, Keyed.lookup_of_mem (RouteHops.nodup_keys h) hm, Option.getD_some]

theorem completionSlot_eq_ok {missing : EmuFlowError} {completion : Int} :
    completionSlot route (arrivalsOf route ready arrive hops) missing = .ok completion ↔
      (∀ sink ∈ route.sinks, sink ∈ (arrivalsOf route ready arrive hops).map Prod.fst) ∧
        (route.sinks.map (nodeArrival (arrivalsOf route ready arrive hops))).max? =
          some completion := by
  unfold completionSlot
  rw [raiseIf_bind]
  push Not
  refine and_congr_right fun hc => ?_
  have hm : route.sinks.mapM (fun sink =>
      lookupOrRaise sink ((arrivalsOf route ready arrive hops).lookup sink)) =
        .ok (route.sinks.map (nodeArrival (arrivalsOf route ready arrive hops))) := by
    refine mapM_eq_ok_map fun sink hs => ?_
    rw [lookup_arrivalsOf h (hc sink hs)]
    rfl
  rw [hm]
  exact maximumOf_eq_ok

end Arrivals

end EmuFlow.Tdm
