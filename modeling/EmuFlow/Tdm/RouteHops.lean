import EmuFlow.Routing.Validate

/-!
# The hops of a route

The edges of a route tree in breadth-first order with their depths, as `_route_hops` of
`emuflow/tdm.py` and `_route_edges_in_tree_order` of `emuflow/tdm_ratio.py` list them. The two
differ in the texts of their errors only.
-/

namespace EmuFlow.Tdm

open Check SortedSet Routing

/-- `adjacency[node]`, sorted by sink and link. -/
def adjacency (route : Route) (node : String) : List TreeEdge :=
  sortedBy (fun edge => lex edge.sink edge.link)
    (route.treeEdges.filter fun edge => edge.source = node)

def treeOrder (notTree disconnected : String) (route : Route) : Result (List (Nat × TreeEdge)) :=
  match TreeWalk.walk (adjacency route) TreeEdge.sink (fun depth _ => depth + 1)
    (route.treeEdges.length + 1) route.source 0 with
  | .error _ => .error (.validation notTree [route.id])
  | .ok hops => do
    raiseIf (∃ edge ∈ route.treeEdges,
        (edge.source ∉ route.source :: hops.map fun hop => hop.2.sink) ∨
          edge.sink ∉ route.source :: hops.map fun hop => hop.2.sink)
      (.validation disconnected [route.id])
    return hops

def routeHops : Route → Result (List (Nat × TreeEdge)) :=
  treeOrder "TDM input route %r is not an acyclic tree"
    "TDM input route %r has disconnected tree edges"

def routeEdgesInTreeOrder : Route → Result (List (Nat × TreeEdge)) :=
  treeOrder "TDM ratio input route %r is not a tree" "TDM ratio input route %r is disconnected"

/-! ## the tree of a route -/

/-- `node` is at `depth` below the source. -/
abbrev AtDepth (route : Route) (hops : List (Nat × TreeEdge)) (node : String) (depth : Nat) :
    Prop :=
  TreeWalk.Reached TreeEdge.sink (fun depth (_ : TreeEdge) => depth + 1) route.source 0 hops node
    depth

/-- `hops` lists the edges of the route: each leaves the source or the sink of an earlier hop and
reaches a new node. -/
structure RouteHops (route : Route) (hops : List (Nat × TreeEdge)) : Prop where
  ordered : TreeWalk.Ordered TreeEdge.source TreeEdge.sink (fun depth _ => depth + 1)
    route.source 0 hops
  mem_iff : ∀ edge, edge ∈ hops.map Prod.snd ↔ edge ∈ route.treeEdges

theorem mem_adjacency {route : Route} {node : String} {edge : TreeEdge} :
    edge ∈ adjacency route node ↔ edge ∈ route.treeEdges ∧ edge.source = node := by
  simp [adjacency]

theorem treeOrder_spec {notTree disconnected : String} {route : Route}
    {hops : List (Nat × TreeEdge)} (h : treeOrder notTree disconnected route = .ok hops) :
    RouteHops route hops := by
  unfold treeOrder at h
  split at h
  · cases h
  · next hops' hw =>
    obtain ⟨hc, h⟩ := raiseIf_bind.mp h
    obtain rfl := Except.ok.inj h
    have hs : ∀ a, ∀ e ∈ adjacency route a, e.source = a := fun a e he =>
      (mem_adjacency.mp he).2
    refine ⟨TreeWalk.walk_ordered hs hw, fun edge => ⟨fun he => ?_, fun he => ?_⟩⟩
    · obtain ⟨hop, hh, rfl⟩ := List.mem_map.mp he
      exact (mem_adjacency.mp (TreeWalk.walk_own hs hw hop hh)).1
    · -- the source of the edge has been reached, so the walk has followed the edge
      have hr : edge.source ∈ route.source :: hops'.map fun hop => hop.2.sink := by
        by_contra hn
        exact hc ⟨edge, he, Or.inl hn⟩
      obtain ⟨depth, hd⟩ : ∃ depth, AtDepth route hops' edge.source depth := by
        rcases List.mem_cons.mp hr with heq | hm
        · exact ⟨0, Or.inl ⟨heq, rfl⟩⟩
        · obtain ⟨hop, hh, heq⟩ := List.mem_map.mp hm
          exact ⟨hop.1 + 1, Or.inr ⟨hop, hh, heq, rfl⟩⟩
      exact TreeWalk.walk_closed hs hw (fun a e he => (mem_adjacency.mp he).1) le_rfl
        hd edge (mem_adjacency.mpr ⟨he, rfl⟩)

/-- The hops are the tree edges, parents first. -/
theorem routeHops_spec {route : Route} {hops : List (Nat × TreeEdge)}
    (h : routeHops route = .ok hops) : RouteHops route hops :=
  treeOrder_spec h

namespace RouteHops

variable {route : Route} {hops : List (Nat × TreeEdge)} (h : RouteHops route hops)
include h

theorem mem_treeEdges {hop : Nat × TreeEdge} (hh : hop ∈ hops) : hop.2 ∈ route.treeEdges :=
  (h.mem_iff hop.2).mp (List.mem_map_of_mem hh)

theorem exists_hop {edge : TreeEdge} (he : edge ∈ route.treeEdges) : ∃ depth,
    (depth, edge) ∈ hops := by
  obtain ⟨⟨depth, e⟩, hh, rfl⟩ := List.mem_map.mp ((h.mem_iff edge).mpr he)
  exact ⟨depth, hh⟩

theorem parent {hop : Nat × TreeEdge} (hh : hop ∈ hops) :
    (hop.2.source = route.source ∧ hop.1 = 0) ∨
      ∃ above ∈ hops, above.2.sink = hop.2.source ∧ hop.1 = above.1 + 1 := by
  obtain ⟨pre, post, rfl, hr, -⟩ := h.ordered.extends_of_mem hh
  rcases hr with ⟨hs, hd⟩ | ⟨above, ha, hs, hd⟩
  · exact Or.inl ⟨hs, hd⟩
  · exact Or.inr ⟨above, List.mem_append_left _ ha, hs, hd.symm⟩

end RouteHops

end EmuFlow.Tdm
