import EmuFlow.Lib.DelayLine
import EmuFlow.Lib.Discovery
import EmuFlow.Lib.SortedSet
import EmuFlow.Platform

/-!
# The runtime-sync tree

`build_runtime_sync_topology` of `emuflow/runtime_sync.py`: a breadth-first spanning tree of the
board with the broadcast latency from the root to every FPGA, and the start margin that covers the
slowest of them.
-/

namespace EmuFlow.RuntimeSync

open Check SortedSet List

def RUNTIME_SYNC_TOPOLOGY_SCHEMA : String := "emuflow.runtime-sync-topology/v1"

/-- `parameters` of the topology artifact. -/
structure Parameters where
  epochBits : Nat
  readyStableCycles : Int
  startMarginCycles : Nat
  maxBroadcastLatencyCycles : Nat
  deriving DecidableEq

/-- One entry of `nodes`. -/
structure Node where
  fpga : String
  role : String
  parent : Option String
  parentLink : Option String
  parentControlLatencyCycles : Nat
  children : List String
  depth : Nat
  broadcastLatencyFromRootCycles : Nat
  deriving DecidableEq

structure BoardProof where
  fabricClockPhaseAlignment : String
  synchronousResetRelease : String
  controlTransport : String
  deriving DecidableEq

structure Topology where
  schema : String
  platform : String
  provider : String
  algorithm : String
  root : String
  parameters : Parameters
  nodes : List Node
  faultPolicy : String
  boardProof : BoardProof
  hardwareReleaseStatus : String
  deriving DecidableEq

/-! ## construction -/

/-- What the breadth-first search writes down about an FPGA: the values of `parent`,
`parent_link`, `edge_latency`, `depth` and `latency_from_root` at it. -/
structure Record where
  parent : Option String
  parentLink : Option String
  edgeLatency : Nat
  depth : Nat
  latencyFromRoot : Nat

def controlLatency (link : BoardLink) : Nat := max 1 link.latencyCycles

/-- `adjacency[fpga_id]`, sorted. -/
def adjacency (platform : Platform) (fpgaId : String) : List (String × String × Nat) :=
  sortedBy (fun edge => lex edge.1 (lex edge.2.1 edge.2.2)) <|
    platform.links.flatMap fun link =>
      (if link.endpoints.1 = fpgaId then
        [(link.endpoints.2, link.id, controlLatency link)] else []) ++
      (if link.endpoints.2 = fpgaId then
        [(link.endpoints.1, link.id, controlLatency link)] else [])

def rootRecord : Record :=
  { parent := none, parentLink := none, edgeLatency := 0, depth := 0, latencyFromRoot := 0 }

/-- The control word spends the link's latency and one more receiver clock edge on its way. -/
def childRecord (current : String × Record) (edge : String × String × Nat) : Record :=
  { parent := some current.1
    parentLink := some edge.2.1
    edgeLatency := edge.2.2
    depth := current.2.depth + 1
    latencyFromRoot := current.2.latencyFromRoot + edge.2.2 + 1 }

def discovered (platform : Platform) (root : String) : List (String × Record) :=
  Discovery.run (adjacency platform) childRecord platform.fpgas.length (root, rootRecord)

def selectRoot (root : Option String) (fpgaIds : List String) : Result String :=
  match root with
  | some r => if r = "" then lookupOrRaise "fpga_ids[0]" fpgaIds.head? else .ok r
  | none => lookupOrRaise "fpga_ids[0]" fpgaIds.head?

/-- `children[fpga_id]`, sorted. -/
def childrenOf (records : List (String × Record)) (fpgaIds : List String) (fpgaId : String) :
    List String :=
  sorted (fpgaIds.filter fun child => (records.lookup child).bind Record.parent = some fpgaId)

def buildNode (records : List (String × Record)) (fpgaIds : List String) (root fpgaId : String) :
    Result Node := do
  let record ← lookupOrRaise fpgaId (records.lookup fpgaId)
  return { fpga := fpgaId
           role := if fpgaId = root then "root" else "branch_or_leaf"
           parent := record.parent
           parentLink := record.parentLink
           parentControlLatencyCycles := record.edgeLatency
           children := childrenOf records fpgaIds fpgaId
           depth := record.depth
           broadcastLatencyFromRootCycles := record.latencyFromRoot }

def buildRuntimeSyncTopology (platform : Platform) (provider : String) (root : Option String)
    (readyStableCycles : Int) : Result Topology := do
  let fpgaIds := sorted platform.fpgaIds
  raiseIf (fpgaIds = []) (ValidationError "runtime sync requires at least one FPGA")
  let root ← selectRoot root fpgaIds
  raiseIf (root ∉ fpgaIds) (.validation "runtime sync root is not in BoardDB: %s" [root])
  raiseIf (readyStableCycles < 1)
    (ValidationError "runtime sync ready_stable_cycles must be positive")
  let records := discovered platform root
  raiseIf (¬ SameSet (records.map Prod.fst) fpgaIds)
    (.validation "runtime sync requires a connected BoardDB graph; unreachable: %s"
      (fpgaIds.filter fun id => id ∉ records.map Prod.fst))
  let maxBroadcastLatency := maxOrZero (records.map fun r => r.2.latencyFromRoot)
  let nodes ← fpgaIds.mapM (buildNode records fpgaIds root)
  return { schema := RUNTIME_SYNC_TOPOLOGY_SCHEMA
           platform := platform.name
           provider := provider
           algorithm := "rooted-tree-future-epoch-barrier"
           root := root
           parameters :=
             { epochBits := 32
               readyStableCycles := readyStableCycles
               startMarginCycles := maxBroadcastLatency + 2
               maxBroadcastLatencyCycles := maxBroadcastLatency }
           nodes := nodes
           faultPolicy := "sticky-fault-requires-global-reset"
           boardProof :=
             { fabricClockPhaseAlignment := "required_unproven"
               synchronousResetRelease := "required_unproven"
               controlTransport := "required_unbound" }
           hardwareReleaseStatus := "blocked_on_board_sync_binding" }

/-! ## the tree of a topology -/

structure WellRooted (topology : Topology) : Prop where
  nodup : (topology.nodes.map Node.fpga).Nodup
  root_or_child : ∀ node ∈ topology.nodes,
    (node.fpga = topology.root ∧ node.parent = none ∧ node.broadcastLatencyFromRootCycles = 0) ∨
    (node.fpga ≠ topology.root ∧ 1 ≤ node.parentControlLatencyCycles ∧
      ∃ parent ∈ topology.nodes, node.parent = some parent.fpga ∧
        node.broadcastLatencyFromRootCycles =
          parent.broadcastLatencyFromRootCycles + node.parentControlLatencyCycles + 1)
  margin : ∀ node ∈ topology.nodes,
    node.broadcastLatencyFromRootCycles + 2 ≤ topology.parameters.startMarginCycles
  root_mem : ∃ node ∈ topology.nodes, node.fpga = topology.root

variable {edge : String × String × Nat} {fpgaId : String} {platform : Platform}

theorem mem_adjacency : edge ∈ adjacency platform fpgaId ↔ ∃ link ∈ platform.links,
      (link.endpoints.1 = fpgaId ∧ edge = (link.endpoints.2, link.id, controlLatency link)) ∨
      (link.endpoints.2 = fpgaId ∧ edge = (link.endpoints.1, link.id, controlLatency link)) := by
  unfold adjacency
  rw [mem_sortedBy, mem_flatMap]
  refine exists_congr fun link => and_congr_right fun _ => ?_
  rw [List.mem_append]
  split <;> split <;> simp_all

theorem adjacency_known (h : edge ∈ adjacency platform fpgaId) : edge.1 ∈ platform.fpgaIds := by
  obtain ⟨link, hl, ⟨-, rfl⟩ | ⟨-, rfl⟩⟩ := mem_adjacency.mp h
  · exact (platform.endpoints_known link hl).2
  · exact (platform.endpoints_known link hl).1

theorem adjacency_latency_pos (h : edge ∈ adjacency platform fpgaId) : 1 ≤ edge.2.2 := by
  obtain ⟨link, -, ⟨-, rfl⟩ | ⟨-, rfl⟩⟩ := mem_adjacency.mp h <;> exact le_max_left _ _

variable {fpgaIds : List String} {records : List (String × Record)}

theorem buildNode_eq_ok
    {root fpgaId : String} {node : Node} (h : buildNode records fpgaIds root fpgaId = .ok node) :
    node.fpga = fpgaId ∧ ∃ record, records.lookup fpgaId = some record ∧
      node.parent = record.parent ∧ node.parentControlLatencyCycles = record.edgeLatency ∧
      node.broadcastLatencyFromRootCycles = record.latencyFromRoot := by
  obtain ⟨record, hr, h⟩ := bind_eq_ok.mp h
  rw [← Except.ok.inj h]
  exact ⟨rfl, record, lookupOrRaise_eq_ok.mp hr, rfl, rfl, rfl⟩

variable {root : Option String}

theorem selectRoot_mem {r : String}
    (hr : ∀ s, root = some s → s = "" ∨ s ∈ fpgaIds) (h : selectRoot root fpgaIds = .ok r) :
    r ∈ fpgaIds := by
  have hh : lookupOrRaise "fpga_ids[0]" fpgaIds.head? = .ok r → r ∈ fpgaIds := fun h =>
    List.mem_of_mem_head? (lookupOrRaise_eq_ok.mp h)
  unfold selectRoot at h
  split at h
  · next s =>
    split at h
    · exact hh h
    · next hs =>
      rcases hr s rfl with hs' | hs'
      · exact absurd hs' hs
      · exact Except.ok.inj h ▸ hs'
  · exact hh h

variable {provider : String} {readyStableCycles : Int} {topology : Topology}

theorem buildRuntimeSyncTopology_eq_ok
    (h : buildRuntimeSyncTopology platform provider root readyStableCycles = .ok topology) :
    topology.root ∈ platform.fpgaIds ∧ 1 ≤ readyStableCycles ∧
      SameSet ((discovered platform topology.root).map Prod.fst) (sorted platform.fpgaIds) ∧
      (sorted platform.fpgaIds).mapM (buildNode (discovered platform topology.root)
        (sorted platform.fpgaIds) topology.root) = .ok topology.nodes ∧
      topology.parameters.startMarginCycles =
        maxOrZero ((discovered platform topology.root).map fun r => r.2.latencyFromRoot) + 2 := by
  simp only [buildRuntimeSyncTopology, raiseIf_bind] at h
  obtain ⟨-, h⟩ := h
  obtain ⟨r, hr, h⟩ := bind_eq_ok.mp h
  simp only [raiseIf_bind, not_not] at h
  obtain ⟨hm, hrs, hs, h⟩ := h
  obtain ⟨nodes, hn, h⟩ := bind_eq_ok.mp h
  rw [← Except.ok.inj h]
  exact ⟨mem_sorted.mp hm, by omega, hs, hn, rfl⟩

variable {name : String} {record : Record}

theorem lookup_eq_some_of_mem : ∀ {records : List (String × Record)}, (records.map Prod.fst).Nodup →
      (name, record) ∈ records → records.lookup name = some record
  | [], _, h => absurd h not_mem_nil
  | (k, r) :: records, hnd, h => by
    rw [map_cons, nodup_cons] at hnd
    rcases mem_cons.mp h with heq | h
    · cases heq
      exact lookup_cons_self
    · have hne : (name == k) = false :=
        beq_eq_false_iff_ne.mpr fun heq => hnd.1 (heq ▸ mem_map.mpr ⟨_, h, rfl⟩)
      rw [lookup_cons, hne]
      exact lookup_eq_some_of_mem hnd.2 h

theorem mem_of_lookup_eq_some (h : records.lookup name = some record) :
    (name, record) ∈ records := by
  obtain ⟨l₁, l₂, rfl, -⟩ := lookup_eq_some_iff.mp h
  simp

def Built (node : Node) (name : String) (record : Record) : Prop :=
  node.fpga = name ∧ node.parent = record.parent ∧
    node.parentControlLatencyCycles = record.edgeLatency ∧
    node.broadcastLatencyFromRootCycles = record.latencyFromRoot

section

variable {root : String} {nodes : List Node}
  (h : fpgaIds.mapM (buildNode records fpgaIds root) = .ok nodes)
include h

theorem exists_record {node : Node} (hn : node ∈ nodes) :
    ∃ record, (node.fpga, record) ∈ records ∧ Built node node.fpga record := by
  obtain ⟨name, -, hb⟩ := exists_of_mem_mapM h hn
  obtain ⟨rfl, record, hl, hf⟩ := buildNode_eq_ok hb
  exact ⟨record, mem_of_lookup_eq_some hl, rfl, hf⟩

theorem exists_node
    (hnd : (records.map Prod.fst).Nodup) (hs : SameSet (records.map Prod.fst) fpgaIds)
    (hr : (name, record) ∈ records) : ∃ node ∈ nodes, Built node name record := by
  obtain ⟨node, hn, hb⟩ := mem_mapM_of_mem h (hs.1 name (mem_map_of_mem hr))
  obtain ⟨hid, record', hl, hf⟩ := buildNode_eq_ok hb
  rw [lookup_eq_some_of_mem hnd hr] at hl
  exact ⟨node, hn, hid, Option.some.inj hl ▸ hf⟩

end

theorem nodes_map_fpga
    (h : buildRuntimeSyncTopology platform provider root readyStableCycles = .ok topology) :
    topology.nodes.map Node.fpga = sorted platform.fpgaIds := by
  obtain ⟨-, -, -, hn, -⟩ := buildRuntimeSyncTopology_eq_ok h
  rw [map_of_mapM (k := id) (fun _ _ hb => (buildNode_eq_ok hb).1) hn, map_id]

/-- A topology that was built is a tree from its root. -/
theorem buildRuntimeSyncTopology_wellRooted
    (h : buildRuntimeSyncTopology platform provider root readyStableCycles = .ok topology) :
    WellRooted topology := by
  obtain ⟨-, -, hs, hns, hmr⟩ := buildRuntimeSyncTopology_eq_ok h
  set records := discovered platform topology.root
  have hnd : (records.map Prod.fst).Nodup := Discovery.run_nodup
  have hln : Discovery.Linked (adjacency platform) childRecord (topology.root, rootRecord)
      records := Discovery.run_linked
  have hrt : (topology.root, rootRecord) ∈ records := Discovery.root_mem_run
  refine ⟨?_, ?_, ?_, ?_⟩
  · rw [nodes_map_fpga h, nodup_sorted]
    exact platform.fpga_ids_nodup
  · intro node hno
    obtain ⟨record, hr, -, hpr, he, hl⟩ := exists_record hns hno
    rcases hln _ hr with heq | ⟨p, hp, edge, hed, heq⟩
    · obtain ⟨hid, rfl⟩ := Prod.mk.inj heq
      exact Or.inl ⟨hid, hpr, hl⟩
    · obtain ⟨hid, rfl⟩ := Prod.mk.inj heq
      obtain ⟨parent, hpn, hpd, -, -, hpl⟩ := exists_node hns hnd hs hp
      refine Or.inr ⟨?_, ?_, parent, hpn, ?_, ?_⟩
      · -- the root already has its own record, and a node has only one
        intro hi
        rw [hi] at hr
        have := (lookup_eq_some_of_mem hnd hr).symm.trans (lookup_eq_some_of_mem hnd hrt)
        exact absurd (congrArg (Option.map Record.parent) this) (by simp [childRecord, rootRecord])
      · rw [he]
        exact adjacency_latency_pos hed
      · rw [hpr, hpd]
        rfl
      · rw [hl, he, hpl]
        rfl
  · intro node hno
    obtain ⟨record, hr, -, -, -, hl⟩ := exists_record hns hno
    rw [hl, hmr]
    have hm : record.latencyFromRoot ∈ records.map fun r => r.2.latencyFromRoot :=
      mem_map.mpr ⟨_, hr, rfl⟩
    exact Nat.add_le_add_right (le_maxOrZero hm) 2
  · obtain ⟨node, hn, hid, -⟩ := exists_node hns hnd hs hrt
    exact ⟨node, hn, hid⟩

/-! ## connected boards -/

def Linked (platform : Platform) (a b : String) : Prop :=
  ∃ link ∈ platform.links, link.endpoints = (a, b) ∨ link.endpoints = (b, a)

def Connected (platform : Platform) : Prop :=
  ∀ a ∈ platform.fpgaIds, ∀ b ∈ platform.fpgaIds, Relation.ReflTransGen (Linked platform) a b

theorem adjacent_of_linked {a b : String} (h : Linked platform a b) :
    Discovery.Adjacent (adjacency platform) a b := by
  obtain ⟨link, hln, hl | hl⟩ := h
  · exact ⟨(b, link.id, controlLatency link),
      mem_adjacency.mpr ⟨link, hln, Or.inl ⟨by rw [hl], by rw [hl]⟩⟩, rfl⟩
  · exact ⟨(b, link.id, controlLatency link),
      mem_adjacency.mpr ⟨link, hln, Or.inr ⟨by rw [hl], by rw [hl]⟩⟩, rfl⟩

theorem discovered_sameSet (hc : Connected platform) {root : String}
    (hrt : root ∈ platform.fpgaIds) :
    SameSet ((discovered platform root).map Prod.fst) (sorted platform.fpgaIds) := by
  constructor
  · intro a ha
    obtain ⟨r, hr, rfl⟩ := mem_map.mp ha
    rw [mem_sorted]
    have hl : Discovery.Linked (adjacency platform) childRecord (root, rootRecord)
        (discovered platform root) := Discovery.run_linked
    rcases hl r hr with rfl | ⟨p, -, edge, he, rfl⟩
    · exact hrt
    · exact adjacency_known he
  · intro a ha
    rw [mem_sorted] at ha
    refine Discovery.mem_run_of_reachable platform.fpgaIds hrt
      (fun _ _ => adjacency_known) (by simp [Platform.fpgaIds]) ?_
    exact Relation.ReflTransGen.mono (fun _ _ => adjacent_of_linked) _ _ (hc root hrt a ha)

theorem buildRuntimeSyncTopology_of_connected (provider : String) (hc : Connected platform)
    (hrt : ∀ r, root = some r → r = "" ∨ r ∈ platform.fpgaIds) (hrs : 1 ≤ readyStableCycles) :
    ∃ topology,
      buildRuntimeSyncTopology platform provider root readyStableCycles = .ok topology := by
  have hne : sorted platform.fpgaIds ≠ [] := by
    intro h
    have hln : (sorted platform.fpgaIds).length = platform.fpgas.length := by
      simp [Platform.fpgaIds]
    rw [h] at hln
    exact platform.fpgas_ne_nil (length_eq_zero_iff.mp hln.symm)
  obtain ⟨r, hr⟩ : ∃ r, selectRoot root (sorted platform.fpgaIds) = .ok r := by
    obtain ⟨x, xs, hx⟩ := exists_cons_of_ne_nil hne
    unfold selectRoot
    rw [hx]
    split
    · split <;> exact ⟨_, rfl⟩
    · exact ⟨_, rfl⟩
  have hm : r ∈ sorted platform.fpgaIds :=
    selectRoot_mem (fun s hs => (hrt s hs).imp_right mem_sorted.mpr) hr
  have hst := discovered_sameSet hc (mem_sorted.mp hm)
  obtain ⟨nodes, hnd⟩ : ∃ nodes, (sorted platform.fpgaIds).mapM
      (buildNode (discovered platform r) (sorted platform.fpgaIds) r) = .ok nodes := by
    refine exists_mapM_eq_ok fun id hid => ?_
    obtain ⟨rec, hrec, rfl⟩ := mem_map.mp (hst.2 id hid)
    have hl := lookup_eq_some_of_mem Discovery.run_nodup hrec
    exact ⟨_, bind_eq_ok.mpr ⟨rec.2, lookupOrRaise_eq_ok.mpr hl, rfl⟩⟩
  refine exists_bind_eq_ok.mpr ⟨(), raiseIf_eq_ok.mpr hne, ?_⟩
  refine exists_bind_eq_ok.mpr ⟨r, hr, ?_⟩
  refine exists_bind_eq_ok.mpr ⟨(), raiseIf_eq_ok.mpr (not_not.mpr hm), ?_⟩
  refine exists_bind_eq_ok.mpr ⟨(), raiseIf_eq_ok.mpr (by omega), ?_⟩
  refine exists_bind_eq_ok.mpr ⟨(), raiseIf_eq_ok.mpr (not_not.mpr hst), ?_⟩
  exact exists_bind_eq_ok.mpr ⟨nodes, hnd, _, rfl⟩

/-!
## One node of the startup barrier

The registers and wires of `emuflow_runtime_sync_tree_node.sv`. `w` is its parameter `EPOCH_BITS`.
-/

/-- The parameters of the module. Both integer parameters are 32-bit. -/
structure NodeParams where
  activeChildMask : List Bool
  isRoot : Bool
  startMarginCycles : Nat
  readyStableCycles : BitVec 32

/-- The input ports besides clock and reset; `childSubtreeReady[i]` is bit `i` of the port. -/
structure NodeInputs (w : Nat) where
  localReady : Bool
  childSubtreeReady : List Bool
  parentStartValid : Bool
  parentStartEpoch : BitVec w

structure NodeRegs (w : Nat) where
  epoch : BitVec w
  readyStableCount : BitVec 32
  startArmed : Bool
  released : Bool
  stickyFault : Bool
  targetEpoch : BitVec w

variable {w : Nat}

def NodeRegs.reset : NodeRegs w :=
  { epoch := 0, readyStableCount := 0, startArmed := false, released := false
    stickyFault := false, targetEpoch := 0 }

def NodeRegs.globalReady (regs : NodeRegs w) : Bool := regs.released && !regs.stickyFault

/-- `&(child_subtree_ready | ~ACTIVE_CHILD_MASK)`. -/
def allChildrenReady (p : NodeParams) (inputs : NodeInputs w) : Bool :=
  (List.zipWith (fun ready active => ready || !active)
    inputs.childSubtreeReady p.activeChildMask).all id

def subtreeReady (p : NodeParams) (inputs : NodeInputs w) : Bool :=
  inputs.localReady && allChildrenReady p inputs

def rootArms (p : NodeParams) (regs : NodeRegs w) (inputs : NodeInputs w) : Bool :=
  subtreeReady p inputs && (p.readyStableCycles - 1).ule regs.readyStableCount

def NodeRegs.step (p : NodeParams) (regs : NodeRegs w) (inputs : NodeInputs w) : NodeRegs w :=
  let ready := subtreeReady p inputs
  let arms :=
    !regs.startArmed && if p.isRoot then rootArms p regs inputs else inputs.parentStartValid
  { epoch := regs.epoch + 1
    readyStableCount :=
      if ready then
        if regs.readyStableCount.ult p.readyStableCycles then regs.readyStableCount + 1
        else regs.readyStableCount
      else 0
    startArmed := regs.startArmed || arms
    released := regs.released || (regs.startArmed && regs.epoch == regs.targetEpoch)
    stickyFault := regs.stickyFault || (regs.released && !ready)
    targetEpoch :=
      if arms then
        if p.isRoot then regs.epoch + BitVec.ofNat w p.startMarginCycles
        else inputs.parentStartEpoch
      else regs.targetEpoch }

variable {p : NodeParams} {regs : NodeRegs w} {inputs : NodeInputs w}

@[simp] theorem step_epoch : (regs.step p inputs).epoch = regs.epoch + 1 := rfl

theorem step_released : (regs.step p inputs).released =
    (regs.released || (regs.startArmed && regs.epoch == regs.targetEpoch)) := rfl

theorem step_stickyFault_of_not_released (hf : regs.stickyFault = false)
    (hr : regs.released = false) : (regs.step p inputs).stickyFault = false := by
  simp [NodeRegs.step, hf, hr]

theorem step_of_armed (h : regs.startArmed = true) : (regs.step p inputs).startArmed = true ∧
      (regs.step p inputs).targetEpoch = regs.targetEpoch := by
  simp [NodeRegs.step, h]

theorem step_root (hr : p.isRoot = true) (h : regs.startArmed = false) :
    (regs.step p inputs).startArmed = rootArms p regs inputs ∧ (rootArms p regs inputs = true →
        (regs.step p inputs).targetEpoch = regs.epoch + BitVec.ofNat w p.startMarginCycles) := by
  constructor
  · simp [NodeRegs.step, hr, h]
  · intro ha
    simp [NodeRegs.step, hr, h, ha]

theorem step_child (hr : p.isRoot = false) (h : regs.startArmed = false) :
    (regs.step p inputs).startArmed = inputs.parentStartValid ∧ (inputs.parentStartValid = true →
        (regs.step p inputs).targetEpoch = inputs.parentStartEpoch) := by
  constructor
  · simp [NodeRegs.step, hr, h]
  · intro ha
    simp [NodeRegs.step, hr, h, ha]

end EmuFlow.RuntimeSync
