import EmuFlow.RuntimeSync.Tree

/-!
# Faults of a released tree

A node that loses its local readiness after the release faults, and its `subtree_ready` falls in the
same cycle without a register. The drop passes every edge in the latency of the edge, whatever the
other nodes do, and each released node it passes latches a fault of its own.
-/

namespace EmuFlow.RuntimeSync

open Check SortedSet List

variable {w : Nat} {topology : Topology} {s : TreeState w} {inputs : CycleInputs}

theorem child_mem_children {platform : Platform} {provider : String} {root : Option String}
    {readyStableCycles : Int}
    (h : buildRuntimeSyncTopology platform provider root readyStableCycles = .ok topology)
    {child parent : Node} (hc : child ∈ topology.nodes) (hpr : parent ∈ topology.nodes)
    (hp : child.parent = some parent.fpga) : child.fpga ∈ parent.children := by
  obtain ⟨-, -, -, hnd, -⟩ := buildRuntimeSyncTopology_eq_ok h
  obtain ⟨id, hid, hb⟩ := exists_of_mem_mapM hnd hc
  obtain ⟨rfl, r, hl, hr, -⟩ := buildNode_eq_ok hb
  obtain ⟨parentId, -, hb'⟩ := exists_of_mem_mapM hnd hpr
  obtain ⟨rfl, -⟩ := buildNode_eq_ok hb'
  obtain ⟨record', -, hno⟩ := bind_eq_ok.mp hb'
  rw [← Except.ok.inj hno]
  show child.fpga ∈ childrenOf _ _ _
  rw [childrenOf, mem_sorted, mem_filter]
  refine ⟨hid, ?_⟩
  rw [hl, Option.bind_some, ← hr, hp]
  exact decide_eq_true rfl

/-! ## one cycle -/

theorem subtreeReady_of_not_local {node : Node} (hdrop : inputs.localReady node.fpga = false) :
    subtreeReady (nodeParams topology node) (nodeInputs topology s inputs node) = false := by
  rw [subtreeReady, nodeInputs, hdrop, Bool.false_and]

theorem subtreeReady_of_child {node : Node} {child : String} (hc : child ∈ node.children)
    (hdrop : DelayLine.output false (s.edge child).readyPipe = false) :
    subtreeReady (nodeParams topology node) (nodeInputs topology s inputs node) = false := by
  have hne : node.children ≠ [] := ne_nil_of_mem hc
  have ha : allChildrenReady (nodeParams topology node) (nodeInputs topology s inputs node) =
      false := by
    rw [allChildrenReady, nodeParams, nodeInputs, if_neg hne, if_neg hne, all_eq_false]
    refine ⟨false, ?_, by decide⟩
    rw [zipWith_map, zipWith_self, mem_map]
    exact ⟨child, hc, by rw [hdrop]; rfl⟩
  rw [subtreeReady, ha, Bool.and_false]

section Step

variable (ht : WellRooted topology) (hreset : inputs.reset = false) {node : Node}
  (hn : node ∈ topology.nodes)
include ht hreset hn

theorem step_keeps_released (h : (s.node node.fpga).released = true) :
    ((step topology s inputs).node node.fpga).released = true := by
  rw [step_node ht hreset hn, step_released, h, Bool.true_or]

theorem step_keeps_stickyFault (h : (s.node node.fpga).stickyFault = true) :
    ((step topology s inputs).node node.fpga).stickyFault = true := by
  rw [step_node ht hreset hn]
  show ((s.node node.fpga).stickyFault || _) = true
  rw [h, Bool.true_or]

theorem step_faults (hr : (s.node node.fpga).released = true)
    (hrd : subtreeReady (nodeParams topology node) (nodeInputs topology s inputs node) = false) :
    ((step topology s inputs).node node.fpga).stickyFault = true := by
  rw [step_node ht hreset hn]
  show (_ || ((s.node node.fpga).released && !subtreeReady _ _)) = true
  rw [hr, hrd]
  exact Bool.or_true _

theorem step_readyPipe {parent : String} (hp : node.parent = some parent) :
    ((step topology s inputs).edge node.fpga).readyPipe = DelayLine.shift
        (subtreeReady (nodeParams topology node) (nodeInputs topology s inputs node))
        (s.edge node.fpga).readyPipe := by
  rw [step_edge ht hreset hn hp, edgeStep]

end Step

/-! ## runs -/

/-- The way up from `node`: the latencies of its edges in sum, and its nodes. -/
inductive Ascends (topology : Topology) (node : Node) : Node → Nat → Nat → Prop
  | here : node ∈ topology.nodes → Ascends topology node node 0 1
  | up {below parent : Node} {latency registers : Nat} :
      Ascends topology node below latency registers → parent ∈ topology.nodes →
      below.parent = some parent.fpga →
      Ascends topology node parent (latency + below.parentControlLatencyCycles) (registers + 1)

section

variable {node above : Node} {latency registers : Nat}
  (h : Ascends topology node above latency registers)
include h

theorem Ascends.mem : above ∈ topology.nodes := by
  cases h with
  | here hn => exact hn
  | up _ hp _ => exact hp

theorem Ascends.registers_pos : 1 ≤ registers := by
  cases h with
  | here _ => exact le_rfl
  | up _ _ _ => omega

end

theorem WellRooted.latency_pos (ht : WellRooted topology) {node : Node}
    (hn : node ∈ topology.nodes) {parent : String} (hp : node.parent = some parent) :
    1 ≤ node.parentControlLatencyCycles := by
  rcases ht.root_or_child node hn with ⟨-, hnn, -⟩ | ⟨-, hl, -⟩
  · rw [hnn] at hp
    cases hp
  · exact hl

/-- The way up ends at the root; it spends what the start word spends on its way down. -/
theorem exists_ascends_root (ht : WellRooted topology) {node : Node} (hn : node ∈ topology.nodes) :
    ∃ top latency registers, Ascends topology node top latency registers ∧
      top.fpga = topology.root ∧ latency + registers = node.broadcastLatencyFromRootCycles + 1 := by
  -- climbing on from any node of the way; each step leaves a smaller broadcast latency
  have hc : ∀ budget above latency registers, Ascends topology node above latency registers →
      above.broadcastLatencyFromRootCycles ≤ budget →
      latency + registers + above.broadcastLatencyFromRootCycles =
        node.broadcastLatencyFromRootCycles + 1 →
      ∃ top latency registers, Ascends topology node top latency registers ∧
        top.fpga = topology.root ∧
        latency + registers = node.broadcastLatencyFromRootCycles + 1 := by
    intro budget
    induction budget with
    | zero =>
      intro above latency registers hu hb hs
      by_cases hr : above.fpga = topology.root
      · exact ⟨above, latency, registers, hu, hr, by omega⟩
      · obtain ⟨-, parent, -, -, hl⟩ := exists_parent ht hu.mem hr
        omega
    | succ budget ih =>
      intro above latency registers hu hb hs
      by_cases hr : above.fpga = topology.root
      · refine ⟨above, latency, registers, hu, hr, ?_⟩
        rw [root_latency ht hu.mem hr] at hs
        exact hs
      · obtain ⟨hps, parent, hpr, hp, hl⟩ := exists_parent ht hu.mem hr
        exact ih parent _ _ (hu.up hpr hp) (by omega) (by omega)
  exact hc _ node 0 1 (.here hn) le_rfl (by omega)

section Run

variable (ht : WellRooted topology) {inputs : Nat → CycleInputs}
include ht

theorem length_readyPipe {node : Node} (hn : node ∈ topology.nodes) {parent : String}
    (hp : node.parent = some parent) (t : Nat) :
    ((trace topology inputs t : TreeState w).edge node.fpga).readyPipe.length =
      node.parentControlLatencyCycles := by
  have hs : ((resetState topology : TreeState w).edge node.fpga).readyPipe.length =
      node.parentControlLatencyCycles := by
    simp only [resetState, EdgePipes.reset, findNode_of_mem ht hn, Option.map_some,
      Option.getD_some, length_replicate]
  induction t with
  | zero => exact hs
  | succ t ih =>
    rw [trace]
    cases hreset : (inputs t).reset with
    | true =>
      rw [step, hreset, if_pos rfl]
      exact hs
    | false => rw [step_readyPipe ht hreset hn hp, DelayLine.length_shift, ih]

theorem keeps_released {node : Node} (hn : node ∈ topology.nodes) {t : Nat}
    (h : ((trace topology inputs t : TreeState w).node node.fpga).released = true) (k : Nat)
    (hreset : ∀ u, t ≤ u → u < t + k → (inputs u).reset = false) :
    ((trace topology inputs (t + k) : TreeState w).node node.fpga).released = true := by
  induction k with
  | zero => exact h
  | succ k ih =>
    exact step_keeps_released ht (hreset (t + k) (by omega) (by omega)) hn
      (ih fun u hu hlt => hreset u hu (by omega))

theorem keeps_stickyFault {node : Node} (hn : node ∈ topology.nodes) {t : Nat}
    (h : ((trace topology inputs t : TreeState w).node node.fpga).stickyFault = true) (k : Nat)
    (hreset : ∀ u, t ≤ u → u < t + k → (inputs u).reset = false) :
    ((trace topology inputs (t + k) : TreeState w).node node.fpga).stickyFault = true := by
  induction k with
  | zero => exact h
  | succ k ih =>
    exact step_keeps_stickyFault ht (hreset (t + k) (by omega) (by omega)) hn
      (ih fun u hu hlt => hreset u hu (by omega))

end Run

section Drop

variable {platform : Platform} {provider : String} {root : Option String}
  {readyStableCycles : Int}
  (h : buildRuntimeSyncTopology platform provider root readyStableCycles = .ok topology)
  {inputs : Nat → CycleInputs} {t : Nat} {node : Node}
  (hdrop : (inputs t).localReady node.fpga = false)
include h hdrop

theorem not_ready_above {above : Node} {latency registers : Nat}
    (hup : Ascends topology node above latency registers)
    (hreset : ∀ u, t ≤ u → u < t + latency → (inputs u).reset = false) :
    subtreeReady (nodeParams topology above) (nodeInputs topology
      (trace topology inputs (t + latency) : TreeState w) (inputs (t + latency)) above)
        = false := by
  have ht := buildRuntimeSyncTopology_wellRooted h
  induction hup with
  | here _ => exact subtreeReady_of_not_local hdrop
  | @up below parent latency registers hb hpr hp ih =>
    have hs := ih fun u hu hlt => hreset u hu (by omega)
    obtain ⟨n, hn⟩ : ∃ n, below.parentControlLatencyCycles = n + 1 :=
      ⟨_, (Nat.sub_add_cancel (ht.latency_pos hb.mem hp)).symm⟩
    refine subtreeReady_of_child (child_mem_children h hb.mem hpr hp) ?_
    rw [hn, ← Nat.add_assoc t latency, ← Nat.add_assoc (t + latency) n]
    rw [← hs]
    refine DelayLine.output_run
      (fun u => ((trace topology inputs u : TreeState w).edge below.fpga).readyPipe)
      (fun u => subtreeReady (nodeParams topology below)
        (nodeInputs topology (trace topology inputs u : TreeState w) (inputs u) below))
      ?_ ?_
    · rw [length_readyPipe ht hb.mem hp, hn]
    · intro u hu hle
      exact step_readyPipe ht (hreset u (by omega) (by omega)) hb.mem hp

theorem fault_above {above : Node} {latency registers : Nat}
    (hup : Ascends topology node above latency registers)
    (hr : ((trace topology inputs t : TreeState w).node above.fpga).released = true)
    (hreset : ∀ u, t ≤ u → u < t + latency + 1 → (inputs u).reset = false) :
    ((trace topology inputs (t + latency + 1) : TreeState w).node above.fpga).stickyFault =
      true := by
  have ht := buildRuntimeSyncTopology_wellRooted h
  refine step_faults ht (hreset (t + latency) (by omega) (by omega)) hup.mem ?_ ?_
  · exact keeps_released ht hup.mem hr latency fun u hu hlt => hreset u hu (by omega)
  · exact not_ready_above h hdrop hup fun u hu hlt => hreset u hu (by omega)

end Drop

def Released (topology : Topology) (s : TreeState w) : Prop :=
  ∀ node ∈ topology.nodes, (s.node node.fpga).released = true

instance : Decidable (Released topology s) :=
  inferInstanceAs (Decidable (∀ node ∈ topology.nodes, (s.node node.fpga).released = true))

/--
**A fault is sticky and reaches the root.**

In a run of a derived tree, let a node drop its local readiness in a cycle after the release. The
node and every ancestor are faulted once the latencies of the edges in between and one register for
each node on the way have passed, and stay so until a reset. The root is among the ancestors. In no
cycle does a node lose a fault without reset.
-/
theorem sticky_fault_propagates {platform : Platform} {provider : String} {root : Option String}
    {readyStableCycles : Int} {topology : Topology}
    (h : buildRuntimeSyncTopology platform provider root readyStableCycles = .ok topology)
    (inputs : Nat → CycleInputs) : (∀ t, Released topology (trace topology inputs t : TreeState w) →
      ∀ node ∈ topology.nodes, (inputs t).localReady node.fpga = false →
        (∀ above latency registers, Ascends topology node above latency registers →
          ∀ u, t + latency + registers ≤ u → (∀ v, t ≤ v → v < u → (inputs v).reset = false) →
            ((trace topology inputs u : TreeState w).node above.fpga).stickyFault = true) ∧
        ∃ top latency registers, Ascends topology node top latency registers ∧
          top.fpga = topology.root) ∧ ∀ t, ∀ node ∈ topology.nodes, (inputs t).reset = false →
      ((trace topology inputs t : TreeState w).node node.fpga).stickyFault = true →
        ((trace topology inputs (t + 1) : TreeState w).node node.fpga).stickyFault = true := by
  have ht := buildRuntimeSyncTopology_wellRooted h
  constructor
  · intro t hreleased node hn hdrop
    constructor
    · intro above latency registers hup u hu hreset
      have hpos := hup.registers_pos
      have hfault := fault_above h hdrop hup (hreleased above hup.mem)
        fun v hv hlt => hreset v hv (by omega)
      obtain ⟨k, rfl⟩ : ∃ k, u = t + latency + 1 + k := ⟨u - (t + latency + 1), by omega⟩
      exact keeps_stickyFault ht hup.mem hfault k fun v hv hlt => hreset v (by omega) hlt
    · obtain ⟨top, latency, registers, hup, htop, -⟩ := exists_ascends_root ht hn
      exact ⟨top, latency, registers, hup, htop⟩
  · intro t node hn hreset hfault
    exact step_keeps_stickyFault ht hreset hn hfault

def twoFpgaTopology : Topology :=
  { schema := RUNTIME_SYNC_TOPOLOGY_SCHEMA
    platform := "two-fpga"
    provider := "runtime-sync"
    algorithm := "rooted-tree-future-epoch-barrier"
    root := "fpga0"
    parameters :=
      { epochBits := 32, readyStableCycles := 1, startMarginCycles := 5
        maxBroadcastLatencyCycles := 3 }
    nodes :=
      [{ fpga := "fpga0", role := "root", parent := none, parentLink := none
         parentControlLatencyCycles := 0, children := ["fpga1"], depth := 0
         broadcastLatencyFromRootCycles := 0 },
       { fpga := "fpga1", role := "branch_or_leaf", parent := some "fpga0"
         parentLink := some "l0", parentControlLatencyCycles := 2, children := [], depth := 1
         broadcastLatencyFromRootCycles := 3 }]
    faultPolicy := "sticky-fault-requires-global-reset"
    boardProof :=
      { fabricClockPhaseAlignment := "required_unproven"
        synchronousResetRelease := "required_unproven"
        controlTransport := "required_unbound" }
    hardwareReleaseStatus := "blocked_on_board_sync_binding" }

def droppedReady (t : Nat) : CycleInputs :=
  { reset := false, localReady := fun id => !(id == "fpga1" && t == 9) }

/-- The root of the two-FPGA board faults four cycles after the drop. -/
theorem sticky_fault_droppedReady :
    Released twoFpgaTopology (trace twoFpgaTopology droppedReady 9 : TreeState 32) ∧
      ((trace twoFpgaTopology droppedReady 13 : TreeState 32).node "fpga0").stickyFault = true := by
  have hbuild : buildRuntimeSyncTopology twoFpgaBoard "runtime-sync" none 1 =
      .ok twoFpgaTopology := by decide +kernel
  have hreleased : Released twoFpgaTopology
      (trace twoFpgaTopology droppedReady 9 : TreeState 32) := by decide +kernel
  refine ⟨hreleased, ?_⟩
  obtain ⟨hfault, -⟩ := (sticky_fault_propagates (w := 32) hbuild droppedReady).1 9 hreleased
    _ (mem_cons_of_mem _ mem_cons_self) (by decide)
  exact hfault _ _ _ (.up (.here (mem_cons_of_mem _ mem_cons_self)) mem_cons_self rfl)
    13 (by decide) fun _ _ _ => rfl

end EmuFlow.RuntimeSync
