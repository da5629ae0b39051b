import EmuFlow.Lib.Arborescence
import EmuFlow.Lib.Check

/-!
# The VPR route checker

`read_rr_graph` and `check_route` of `native/vpr_route_checker.cpp`. A line of a file is what the
expressions of the source make of its text; the loops over the lines are as they are there.
-/

namespace EmuFlow.RouteChecker

open Check List

/-! ## the RR graph -/

structure RrNode where
  capacity : ℕ
  type : String
  xlow : ℤ
  ylow : ℤ
  xhigh : ℤ
  yhigh : ℤ
  layerLow : ℤ
  layerHigh : ℤ
  ptc : ℤ

structure Edge where
  src : ℕ
  sink : ℕ
  sw : ℕ
  deriving DecidableEq

inductive RrLine where
  | node (id : ℕ) (node : RrNode)
  | edge (edge : Edge)
  | gridLoc (x y : ℤ)
  | other

/-- The RR graph while it is read; a node is absent until its line is met. -/
structure RrReading where
  nodes : List (Option RrNode) := []
  edges : List Edge := []
  gridWidth : ℕ := 0
  gridHeight : ℕ := 0

structure RrGraph where
  nodes : List RrNode
  edges : List Edge
  gridWidth : ℕ
  gridHeight : ℕ

/-- `graph.nodes.resize(id + 1)` where it is shorter, with the sum in 32 bits, and the node at its
place. The largest id empties the vector; where the source then writes past its end nothing is
written here. -/
def setNode (nodes : List (Option RrNode)) (id : ℕ) (node : RrNode) : List (Option RrNode) :=
  let size := (id + 1) % 2 ^ 32
  let resized := if nodes.length ≤ id then
      nodes.take size ++ List.replicate (size - nodes.length) none
    else nodes
  resized.set id (some node)

/-- One turn of the loop of `read_rr_graph`. -/
def readRrLine (graph : RrReading) : RrLine → Except String RrReading
  | .node id node => do
    raiseIf (((graph.nodes[id]?).join).isSome = true) "duplicate RR node id"
    raiseIf (node.capacity = 0) "RR node has zero capacity"
    return { graph with nodes := setNode graph.nodes id node }
  | .edge edge => do
    raiseIf (edge ∈ graph.edges) "duplicate RR edge"
    return { graph with edges := graph.edges ++ [edge] }
  | .gridLoc x y => do
    raiseIf (x < 0 ∨ y < 0) "negative grid coordinate"
    return { graph with
      gridWidth := max graph.gridWidth (x.toNat + 1)
      gridHeight := max graph.gridHeight (y.toNat + 1) }
  | .other => .ok graph

def presentNode : Option RrNode → Except String RrNode
  | some node => .ok node
  | none => .error "RR graph node IDs are not dense"

def readRrGraph (lines : List RrLine) : Except String RrGraph := do
  let graph ← lines.foldlM readRrLine {}
  raiseIf (graph.nodes = [] ∨ graph.edges = []) "RR graph has no nodes or edges"
  let nodes ← graph.nodes.mapM presentNode
  raiseIf (∃ edge ∈ graph.edges, nodes.length ≤ edge.src ∨ nodes.length ≤ edge.sink)
    "RR edge references an unknown node"
  return { nodes := nodes, edges := graph.edges, gridWidth := graph.gridWidth,
           gridHeight := graph.gridHeight }

/-! ## the route file -/

/-- A `Node:` line; a switch or a pin index of `-1` is absent. -/
structure ParsedNode where
  id : ℕ
  type : String
  xlow : ℤ
  ylow : ℤ
  layerLow : ℤ
  xhigh : ℤ
  yhigh : ℤ
  layerHigh : ℤ
  ptc : ℤ
  sw : ℤ := -1
  netPinIndex : ℤ := -1
  deriving DecidableEq

inductive RouteLine where
  | blank
  | comment
  | net (id : ℕ) (name : String) (global : Bool)
  | block
  | localCluster
  | node (routed : ParsedNode)
  | malformedNode
  | other
  deriving DecidableEq

structure RouteFile where
  placementFile : String
  placementId : String
  width : ℕ
  height : ℕ
  lines : List RouteLine

structure RouteNet where
  id : ℕ
  name : String
  global : Bool
  localOnly : Bool := false
  nodes : ℕ := 0
  sinks : ℕ := 0
  endpoints : ℕ := 0

structure CheckState where
  nets : List RouteNet := []
  routeNodes : ℕ := 0
  routeEdges : ℕ := 0
  branchRestarts : ℕ := 0
  maxOccupancy : ℕ := 0
  maxCapacity : ℕ := 0
  occupancy : ℕ → ℕ := fun _ => 0
  netIds : List ℕ := []
  current : Option RouteNet := none
  currentNodes : List ℕ := []
  sinkPinIndexes : List ℤ := []
  previous : Option ParsedNode := none

def validateNode (routed : ParsedNode) (rr : RrNode) : Except String Unit := do
  raiseIf (routed.type ≠ rr.type) "route node type does not match RR graph"
  raiseIf (routed.xlow ≠ rr.xlow ∨ routed.ylow ≠ rr.ylow ∨ routed.xhigh ≠ rr.xhigh ∨
      routed.yhigh ≠ rr.yhigh ∨ routed.layerLow ≠ rr.layerLow ∨
      routed.layerHigh ≠ rr.layerHigh ∨ routed.ptc ≠ rr.ptc)
    "route node coordinates/PTC do not match RR graph"

def finishedNet (net : RouteNet) (previous : Option ParsedNode) : Except String Unit :=
  if net.global = false ∧ net.localOnly = false then do
    raiseIf (net.nodes = 0) "routed net has no route nodes"
    raiseIf (previous.all (fun node => node.type ≠ "SINK") = true)
      "routed net does not end at a SINK"
    raiseIf (net.sinks = 0) "routed net has no SINK"
  else .ok ()

def finishNet (s : CheckState) : Except String CheckState :=
  match s.current with
  | none => .ok s
  | some net => do
    finishedNet net s.previous
    return { s with nets := s.nets ++ [net], current := none, currentNodes := [],
                    sinkPinIndexes := [], previous := none }

def routeEdge (previous routed : ParsedNode) : Edge :=
  { src := previous.id, sink := routed.id, sw := previous.sw.toNat }

def checkStep (graph : RrGraph) (routed : ParsedNode) (s : CheckState) :
    Except String CheckState :=
  match s.previous with
  | none => .ok s
  | some previous =>
    if previous.type = "SINK" then do
      raiseIf (routed.id ∉ s.currentNodes)
        "route branch does not restart at an existing tree node"
      return { s with branchRestarts := s.branchRestarts + 1 }
    else do
      raiseIf (previous.sw < 0) "route edge has a negative switch id"
      raiseIf (routeEdge previous routed ∉ graph.edges)
        "route edge/switch does not exist in RR graph"
      return { s with routeEdges := s.routeEdges + 1 }

def occupy (rr : RrNode) (routed : ParsedNode) (s : CheckState) : Except String CheckState :=
  if routed.id ∈ s.currentNodes then .ok s
  else do
    let used := s.occupancy routed.id + 1
    raiseIf (rr.capacity < used) "RR node capacity is exceeded"
    return { s with
      currentNodes := s.currentNodes ++ [routed.id]
      occupancy := Function.update s.occupancy routed.id used
      maxOccupancy := max s.maxOccupancy used
      maxCapacity := max s.maxCapacity rr.capacity }

def checkPinIndex (routed : ParsedNode) (net : RouteNet) (s : CheckState) :
    Except String (RouteNet × CheckState) :=
  if routed.type = "SINK" then do
    raiseIf (routed.netPinIndex < 0) "SINK has no net pin index"
    raiseIf (routed.netPinIndex ∈ s.sinkPinIndexes) "duplicate SINK net pin index"
    return ({ net with sinks := net.sinks + 1 },
      { s with sinkPinIndexes := s.sinkPinIndexes ++ [routed.netPinIndex] })
  else do
    raiseIf (0 ≤ routed.netPinIndex) "non-SINK has a net pin index"
    return (net, s)

/-- The `Node:` line of a net. -/
def checkNode (graph : RrGraph) (net : RouteNet) (routed : ParsedNode) (s : CheckState) :
    Except String CheckState :=
  match graph.nodes[routed.id]? with
  | none => .error "route references unknown RR node"
  | some rr => do
    validateNode routed rr
    raiseIf (net.nodes = 0 ∧ routed.type ≠ "SOURCE") "first route node is not SOURCE"
    let s ← checkStep graph routed s
    let s ← occupy rr routed s
    let (net, s) ← checkPinIndex routed net s
    return { s with current := some { net with nodes := net.nodes + 1 },
                    routeNodes := s.routeNodes + 1, previous := some routed }

def checkRouted (graph : RrGraph) (net : RouteNet) (s : CheckState) :
    RouteLine → Except String CheckState
  | .localCluster => .ok { s with current := some { net with localOnly := true } }
  | .node routed => checkNode graph net routed s
  | .malformedNode => .error "malformed route node"
  | .comment => .ok s
  | _ => .error "malformed routed-net content"

/-- One turn of the loop of `check_route`. -/
def checkLine (graph : RrGraph) (s : CheckState) (line : RouteLine) : Except String CheckState :=
  match line with
  | .blank => .ok s
  | .net id name global => do
    let s ← finishNet s
    raiseIf (id ∈ s.netIds) "duplicate route net id"
    return { s with netIds := s.netIds ++ [id],
                    current := some { id := id, name := name, global := global } }
  | line =>
    match s.current with
    | none =>
      if line = .comment then .ok s else .error "content appears outside a net"
    | some net =>
      if net.global = true then
        if line = .block then
          .ok { s with current := some { net with endpoints := net.endpoints + 1 } }
        else .error "malformed global-net endpoint"
      else checkRouted graph net s line

def checkRoute (graph : RrGraph) (file : RouteFile) : Except String CheckState := do
  raiseIf (graph.gridWidth ≠ 0 ∧ file.width ≠ graph.gridWidth)
    "route width does not match RR graph grid"
  raiseIf (graph.gridHeight ≠ 0 ∧ file.height ≠ graph.gridHeight)
    "route height does not match RR graph grid"
  let s ← file.lines.foldlM (checkLine graph) {}
  let s ← finishNet s
  raiseIf (s.nets = []) "route file contains no nets"
  return s

/-! ## what a reading of the RR graph has found -/

variable {seen lines : List RrLine} {reading reading' : RrReading}

/-- The nodes and the edges are those of the lines, whatever their order. -/
structure Reads (lines : List RrLine) (nodeAt : ℕ → Option RrNode) (edges : List Edge) : Prop where
  nodes : ∀ id node, nodeAt id = some node ↔ .node id node ∈ lines
  capacity : ∀ id node, nodeAt id = some node → node.capacity ≠ 0
  edges_iff : ∀ edge, edge ∈ edges ↔ .edge edge ∈ lines
  edges_nodup : edges.Nodup

/-- The ids of the node lines leave room for `id + 1`. -/
def IdsFit (lines : List RrLine) : Prop := ∀ id node, .node id node ∈ lines → id < 2 ^ 32 - 1

theorem setNode_eq (nodes : List (Option RrNode)) {id : ℕ} (node : RrNode) (hid : id < 2 ^ 32 - 1) :
    setNode nodes id node =
      (nodes ++ List.replicate (id + 1 - nodes.length) none).set id (some node) := by
  unfold setNode
  rw [Nat.mod_eq_of_lt (by omega)]
  dsimp only
  split_ifs with hl
  · rw [take_of_length_le (by omega)]
  · rw [Nat.sub_eq_zero_of_le (by omega), replicate_zero, append_nil]

theorem getElem?_setNode (nodes : List (Option RrNode)) {id : ℕ} (i : ℕ) (node : RrNode)
    (hf : id < 2 ^ 32 - 1) :
    ((setNode nodes id node)[i]?).join = if i = id then some node else (nodes[i]?).join := by
  have hl : id < (nodes ++ List.replicate (id + 1 - nodes.length) none).length := by
    rw [length_append, length_replicate]
    omega
  rw [setNode_eq nodes node hf, getElem?_set]
  by_cases hid : i = id
  · rw [hid, if_pos rfl, if_pos rfl, if_pos hl]
    rfl
  · rw [if_neg (Ne.symm hid), if_neg hid, getElem?_append]
    split_ifs with hi
    · rfl
    · rw [getElem?_eq_none (not_lt.mp hi), getElem?_replicate]
      split_ifs <;> rfl

theorem Reads.step {line : RrLine} (hf : IdsFit [line])
    (h : Reads seen (fun id => (reading.nodes[id]?).join) reading.edges)
    (hs : readRrLine reading line = .ok reading') :
    Reads (seen ++ [line]) (fun id => (reading'.nodes[id]?).join) reading'.edges := by
  obtain ⟨hnd, hc, hed, hnp⟩ := h
  cases line with
  | node id node =>
    obtain ⟨hfr, hs⟩ := raiseIf_bind.mp hs
    obtain ⟨hcc, hs⟩ := raiseIf_bind.mp hs
    cases hs
    have hn : ∀ other, .node id other ∉ seen := fun other ho =>
      hfr (Option.isSome_of_eq_some ((hnd id other).mpr ho))
    have hg := fun i => getElem?_setNode reading.nodes i node (hf id node (mem_singleton_self _))
    simp only [hg]
    refine ⟨fun i other => ?_, fun i other ho => ?_, by simpa using hed, hnp⟩
    · split_ifs with hi
      · simp [hi, hn, eq_comm]
      · simp [hnd, hi]
    · split_ifs at ho with hi
      · cases ho
        exact hcc
      · exact hc i other ho
  | edge edge =>
    obtain ⟨hfr, hs⟩ := raiseIf_bind.mp hs
    cases hs
    refine ⟨by simpa using hnd, hc, by simp [hed], ?_⟩
    exact nodup_append.mpr ⟨hnp, nodup_singleton edge, fun e he e' he' heq =>
      hfr (mem_singleton.mp he' ▸ heq ▸ he)⟩
  | gridLoc x y =>
    obtain ⟨-, hs⟩ := raiseIf_bind.mp hs
    cases hs
    exact ⟨by simpa using hnd, hc, by simpa using hed, hnp⟩
  | other =>
    cases hs
    exact ⟨by simpa using hnd, hc, by simpa using hed, hnp⟩

theorem Reads.run (hft : IdsFit lines) : ∀ {seen : List RrLine} {reading : RrReading},
    Reads seen (fun id => (reading.nodes[id]?).join) reading.edges →
      lines.foldlM readRrLine reading = .ok reading' →
      Reads (seen ++ lines) (fun id => (reading'.nodes[id]?).join) reading'.edges := by
  induction lines with
  | nil =>
    intro seen reading h hr
    cases hr
    simpa using h
  | cons line lines ih =>
    intro seen reading h hr
    rw [foldlM_cons] at hr
    obtain ⟨next, hs, hr⟩ := bind_eq_ok.mp hr
    have hf : IdsFit [line] := fun id node hm =>
      hft id node (mem_singleton.mp hm ▸ mem_cons_self)
    simpa using ih (fun id node hm => hft id node (mem_cons_of_mem line hm))
      (h.step hf hs) hr

/-- **What `read_rr_graph` accepts is well formed**: the nodes and the edges of the lines, each of a
place of its own, and edges between these nodes. -/
theorem readRrGraph_sound {graph : RrGraph} (hfit : IdsFit lines)
    (h : readRrGraph lines = .ok graph) :
    Reads lines (fun id => graph.nodes[id]?) graph.edges ∧ graph.edges ≠ [] ∧
      ∀ edge ∈ graph.edges, edge.src < graph.nodes.length ∧ edge.sink < graph.nodes.length := by
  obtain ⟨reading, hrun, h⟩ := bind_eq_ok.mp h
  obtain ⟨hempty, h⟩ := raiseIf_bind.mp h
  obtain ⟨nodes, hnodes, h⟩ := bind_eq_ok.mp h
  obtain ⟨hends, h⟩ := raiseIf_bind.mp h
  cases h
  have hsome : nodes.map some = reading.nodes := by
    refine (map_of_mapM ?_ hnodes).trans (map_id _)
    rintro (_ | node) b hb <;> cases hb
    rfl
  have hreads := @Reads.run lines reading hfit [] {} ⟨by simp, by simp, by simp, nodup_nil⟩ hrun
  have hjoin : (fun id => (reading.nodes[id]?).join) = fun id : ℕ => nodes[id]? := by
    funext id
    rw [← hsome, getElem?_map]
    cases nodes[id]? <;> rfl
  rw [hjoin] at hreads
  refine ⟨hreads, fun hnil => hempty (Or.inr hnil), fun edge hedge => ?_⟩
  by_contra hout
  exact hends ⟨edge, hedge, by dsimp only at hout; omega⟩

def oneEdgeLines : List RrLine :=
  [.edge ⟨1, 0, 2⟩, .node 1 ⟨1, "SOURCE", 0, 0, 0, 0, 0, 0, 0⟩, .gridLoc 0 0,
    .node 0 ⟨1, "SINK", 0, 0, 0, 0, 0, 0, 0⟩]

theorem readRrGraph_sound_oneEdge : ∃ graph, readRrGraph oneEdgeLines = .ok graph ∧
    Reads oneEdgeLines (fun id => graph.nodes[id]?) graph.edges ∧ graph.edges ≠ [] ∧
      ∀ edge ∈ graph.edges, edge.src < graph.nodes.length ∧ edge.sink < graph.nodes.length := by
  obtain ⟨graph, h⟩ := exists_of_isOk
    (show (readRrGraph oneEdgeLines).isOk = true by decide +kernel)
  have hfit : IdsFit oneEdgeLines := by
    intro id node hmem
    simp only [oneEdgeLines, mem_cons, RrLine.node.injEq, reduceCtorEq, not_mem_nil, false_or,
      or_false] at hmem
    obtain ⟨rfl, -⟩ | ⟨rfl, -⟩ := hmem <;> decide
  exact ⟨graph, h, readRrGraph_sound hfit h⟩

end EmuFlow.RouteChecker
