import EmuFlow.RuntimeSync.Topology

/-!
# The startup barrier of a whole board

The tree nodes of a topology, wired as `runtime_sync_testbench` wires them: every edge is a pipeline
of the edge's declared control latency.

A run is in one of two phases. Before the root has chosen a start epoch no node is armed and no
start word is on its way (`Idle`). From then on the state is determined by the number of cycles
since (`Armed`): a node is armed once the start word has travelled its broadcast latency, and every
node releases when the start margin has passed.
-/

namespace EmuFlow.RuntimeSync

open List DelayLine

variable {w : Nat}

/-! ## the wiring -/

structure EdgePipes (w : Nat) where
  readyPipe : List Bool
  startValidPipe : List Bool
  startEpochPipe : List (BitVec w)

structure TreeState (w : Nat) where
  node : String → NodeRegs w
  edge : String → EdgePipes w

/-- What the environment drives in one cycle: the common reset and every local readiness. -/
structure CycleInputs where
  reset : Bool
  localReady : String → Bool

def Topology.findNode (topology : Topology) (fpgaId : String) : Option Node :=
  Keyed.find Node.fpga topology.nodes fpgaId

variable (topology : Topology)

def nodeParams (node : Node) : NodeParams :=
  { activeChildMask :=
      if node.children = [] then [false] else node.children.map fun _ => true
    isRoot := node.fpga = topology.root
    startMarginCycles := topology.parameters.startMarginCycles
    readyStableCycles := BitVec.ofInt 32 topology.parameters.readyStableCycles }

def nodeInputs (s : TreeState w) (inputs : CycleInputs) (node : Node) : NodeInputs w :=
  { localReady := inputs.localReady node.fpga
    childSubtreeReady :=
      if node.children = [] then [false]
      else node.children.map fun child => DelayLine.output false (s.edge child).readyPipe
    parentStartValid :=
      node.fpga ≠ topology.root && DelayLine.output false (s.edge node.fpga).startValidPipe
    parentStartEpoch :=
      if node.fpga = topology.root then 0
      else DelayLine.output 0 (s.edge node.fpga).startEpochPipe }

def EdgePipes.reset (latency : Nat) : EdgePipes w :=
  { readyPipe := List.replicate latency false
    startValidPipe := List.replicate latency false
    startEpochPipe := List.replicate latency 0 }

/-- One clock of the edge between `child` and `parent`. -/
def edgeStep (s : TreeState w) (inputs : CycleInputs) (child : Node) (parent : String) :
    EdgePipes w :=
  let pipes := s.edge child.fpga
  { readyPipe := DelayLine.shift
      (subtreeReady (nodeParams topology child) (nodeInputs topology s inputs child))
      pipes.readyPipe
    startValidPipe := DelayLine.shift (s.node parent).startArmed pipes.startValidPipe
    startEpochPipe := DelayLine.shift (s.node parent).targetEpoch pipes.startEpochPipe }

def resetState : TreeState w :=
  { node := fun _ => NodeRegs.reset
    edge := fun id => EdgePipes.reset
      (((topology.findNode id).map Node.parentControlLatencyCycles).getD 0) }

def step (s : TreeState w) (inputs : CycleInputs) : TreeState w :=
  if inputs.reset then resetState topology
  else
    { node := fun id =>
        match topology.findNode id with
        | some node =>
          (s.node id).step (nodeParams topology node) (nodeInputs topology s inputs node)
        | none => s.node id
      edge := fun id =>
        match topology.findNode id with
        | some child =>
          match child.parent with
          | some parent => edgeStep topology s inputs child parent
          | none => s.edge id
        | none => s.edge id }

/-- The state after `t` cycles, starting from reset. -/
def trace (inputs : Nat → CycleInputs) : Nat → TreeState w
  | 0 => resetState topology
  | t + 1 => step topology (trace inputs t) (inputs t)

variable {topology} {s : TreeState w} {inputs : CycleInputs}

/-! ## one cycle at a member of the tree -/

variable {node : Node}

section

variable (ht : WellRooted topology)
include ht

theorem findNode_of_mem (h : node ∈ topology.nodes) : topology.findNode node.fpga = some node :=
  Keyed.find_of_mem ht.nodup h

theorem step_node (hreset : inputs.reset = false) (h : node ∈ topology.nodes) :
    (step topology s inputs).node node.fpga =
      (s.node node.fpga).step (nodeParams topology node) (nodeInputs topology s inputs node) := by
  simp [step, hreset, findNode_of_mem ht h]

theorem step_edge (hreset : inputs.reset = false)
    (h : node ∈ topology.nodes) {parent : String} (hp : node.parent = some parent) :
    (step topology s inputs).edge node.fpga = edgeStep topology s inputs node parent := by
  simp [step, hreset, findNode_of_mem ht h, hp]

theorem exists_parent (h : node ∈ topology.nodes) (hr : node.fpga ≠ topology.root) :
    1 ≤ node.parentControlLatencyCycles ∧ ∃ parent ∈ topology.nodes,
      node.parent = some parent.fpga ∧ node.broadcastLatencyFromRootCycles =
        parent.broadcastLatencyFromRootCycles + node.parentControlLatencyCycles + 1 := by
  rcases ht.root_or_child node h with ⟨hid, -, -⟩ | ⟨-, hl, hp⟩
  · exact absurd hid hr
  · exact ⟨hl, hp⟩

theorem root_latency (h : node ∈ topology.nodes)
    (hr : node.fpga = topology.root) : node.broadcastLatencyFromRootCycles = 0 := by
  rcases ht.root_or_child node h with ⟨-, -, hl⟩ | ⟨hid, -, -⟩
  · exact hl
  · exact absurd hr hid

end

/-- What holds in every state: the epoch counters agree and the pipelines have their length. -/
structure Coherent (topology : Topology) (s : TreeState w) (epoch : BitVec w) : Prop where
  epoch_eq : ∀ node ∈ topology.nodes, (s.node node.fpga).epoch = epoch
  valid_length : ∀ node ∈ topology.nodes, node.fpga ≠ topology.root →
    (s.edge node.fpga).startValidPipe.length = node.parentControlLatencyCycles
  epoch_length : ∀ node ∈ topology.nodes, node.fpga ≠ topology.root →
    (s.edge node.fpga).startEpochPipe.length = node.parentControlLatencyCycles
  fault_released : ∀ node ∈ topology.nodes,
    (s.node node.fpga).stickyFault = true → (s.node node.fpga).released = true

/-- The root has not chosen a start epoch yet. -/
structure Idle (topology : Topology) (s : TreeState w) : Prop where
  armed : ∀ node ∈ topology.nodes, (s.node node.fpga).startArmed = false
  released : ∀ node ∈ topology.nodes, (s.node node.fpga).released = false
  valid : ∀ node ∈ topology.nodes, node.fpga ≠ topology.root →
    ∀ j < node.parentControlLatencyCycles, (s.edge node.fpga).startValidPipe[j]? = some false

/-- `k` cycles ago, at epoch `start`, the root chose the start epoch. -/
structure Armed (topology : Topology) (s : TreeState w) (start : BitVec w) (k : Nat) : Prop where
  pos : 1 ≤ k
  armed : ∀ node ∈ topology.nodes,
    (s.node node.fpga).startArmed = decide (1 + node.broadcastLatencyFromRootCycles ≤ k)
  target : ∀ node ∈ topology.nodes, 1 + node.broadcastLatencyFromRootCycles ≤ k →
    (s.node node.fpga).targetEpoch = start + BitVec.ofNat w topology.parameters.startMarginCycles
  released : ∀ node ∈ topology.nodes, (s.node node.fpga).released =
    decide (topology.parameters.startMarginCycles + 1 ≤ k)
  valid : ∀ node ∈ topology.nodes, ∀ parent ∈ topology.nodes,
    node.fpga ≠ topology.root → node.parent = some parent.fpga →
    ∀ j < node.parentControlLatencyCycles, (s.edge node.fpga).startValidPipe[j]? =
      some (decide (2 + parent.broadcastLatencyFromRootCycles + j ≤ k))
  word : ∀ node ∈ topology.nodes, ∀ parent ∈ topology.nodes,
    node.fpga ≠ topology.root → node.parent = some parent.fpga →
    ∀ j < node.parentControlLatencyCycles, 2 + parent.broadcastLatencyFromRootCycles + j ≤ k →
      (s.edge node.fpga).startEpochPipe[j]? =
        some (start + BitVec.ofNat w topology.parameters.startMarginCycles)

def Phase (topology : Topology) (s : TreeState w) : Prop :=
  (Idle topology s ∧ ∃ epoch, Coherent topology s epoch) ∨
    ∃ start k, Armed topology s start k ∧ Coherent topology s (start + BitVec.ofNat w k)

/-! ## what one cycle preserves -/

section Step

variable (ht : WellRooted topology) (hreset : inputs.reset = false)
include ht hreset

variable {epoch : BitVec w}

theorem coherent_step (h : Coherent topology s epoch) :
    Coherent topology (step topology s inputs) (epoch + 1) where
  epoch_eq := by
    intro node hn
    rw [step_node ht hreset hn, step_epoch, h.epoch_eq node hn]
  valid_length := by
    intro node hn hrt
    obtain ⟨-, parent, -, hp, -⟩ := exists_parent ht hn hrt
    rw [step_edge ht hreset hn hp, edgeStep, length_shift, h.valid_length node hn hrt]
  epoch_length := by
    intro node hn hrt
    obtain ⟨-, parent, -, hp, -⟩ := exists_parent ht hn hrt
    rw [step_edge ht hreset hn hp, edgeStep, length_shift, h.epoch_length node hn hrt]
  fault_released := by
    intro node hn hf
    rw [step_node ht hreset hn] at hf ⊢
    rw [step_released]
    cases hr : (s.node node.fpga).released with
    | true => rfl
    | false =>
      have hnf : (s.node node.fpga).stickyFault = false := by
        cases hs : (s.node node.fpga).stickyFault with
        | false => rfl
        | true => rw [h.fault_released node hn hs] at hr; exact hr
      rw [step_stickyFault_of_not_released hnf hr] at hf
      exact absurd hf (by simp)

section

variable (hc : Coherent topology s epoch) (h : Idle topology s)
include hc h

theorem Idle.child_armed {node : Node} (hn : node ∈ topology.nodes)
    (hid : node.fpga ≠ topology.root) :
    ((step topology s inputs).node node.fpga).startArmed = false := by
  rw [step_node ht hreset hn, (step_child (by simp [nodeParams, hid]) (h.armed node hn)).1]
  obtain ⟨hlt, -⟩ := exists_parent ht hn hid
  have hln := hc.valid_length node hn hid
  have hl := h.valid node hn hid (node.parentControlLatencyCycles - 1) (by omega)
  simp only [nodeInputs, output_eq (by omega) hl, Bool.and_false]

theorem Idle.edge_valid {node parent : Node} (hn : node ∈ topology.nodes)
    (hpn : parent ∈ topology.nodes) (hid : node.fpga ≠ topology.root)
    (hp : node.parent = some parent.fpga) {j : ℕ} (hj : j < node.parentControlLatencyCycles) :
    ((step topology s inputs).edge node.fpga).startValidPipe[j]? = some false := by
  have hl := hc.valid_length node hn hid
  rw [step_edge ht hreset hn hp, edgeStep]
  cases j with
  | zero => rw [shift_zero (by omega), h.armed parent hpn]
  | succ j =>
    rw [shift_succ (by omega)]
    exact h.valid node hn hid j (by omega)

theorem idle_step (hr : ∀ node ∈ topology.nodes, node.fpga = topology.root →
      rootArms (nodeParams topology node) (s.node node.fpga)
        (nodeInputs topology s inputs node) = false) : Idle topology (step topology s inputs) where
  armed := by
    intro node hn
    by_cases hid : node.fpga = topology.root
    · rw [step_node ht hreset hn, (step_root (by simp [nodeParams, hid]) (h.armed node hn)).1]
      exact hr node hn hid
    · exact h.child_armed ht hreset hc hn hid
  released := by
    intro node hn
    rw [step_node ht hreset hn, step_released, h.released node hn, h.armed node hn]
    rfl
  valid := by
    intro node hn hid j hj
    obtain ⟨-, parent, hpn, hp, -⟩ := exists_parent ht hn hid
    exact h.edge_valid ht hreset hc hn hpn hid hp hj

theorem armed_of_idle (hr : ∀ node ∈ topology.nodes, node.fpga = topology.root →
      rootArms (nodeParams topology node) (s.node node.fpga)
        (nodeInputs topology s inputs node) = true) :
    Armed topology (step topology s inputs) epoch 1 where
  pos := le_refl 1
  armed := by
    intro node hn
    by_cases hid : node.fpga = topology.root
    · rw [step_node ht hreset hn, (step_root (by simp [nodeParams, hid]) (h.armed node hn)).1,
        hr node hn hid, root_latency ht hn hid]
      rfl
    · rw [h.child_armed ht hreset hc hn hid]
      obtain ⟨hl, parent, -, -, hs⟩ := exists_parent ht hn hid
      exact (decide_eq_false (by omega)).symm
  target := by
    intro node hn hk
    by_cases hid : node.fpga = topology.root
    · rw [step_node ht hreset hn,
        (step_root (by simp [nodeParams, hid]) (h.armed node hn)).2 (hr node hn hid),
        hc.epoch_eq node hn]
      rfl
    · obtain ⟨-, parent, -, -, hs⟩ := exists_parent ht hn hid
      omega
  released := by
    intro node hn
    have hm := ht.margin node hn
    rw [step_node ht hreset hn, step_released, h.released node hn, h.armed node hn]
    exact (decide_eq_false (by omega)).symm
  valid := by
    intro node hn parent hpn hid hp j hj
    rw [h.edge_valid ht hreset hc hn hpn hid hp hj, decide_eq_false (by omega)]
  word := by
    intro node hn parent hpn hid hp j hj hk
    omega

end

section

variable {start : BitVec w} {k : Nat} (hc : Coherent topology s (start + BitVec.ofNat w k))
  (h : Armed topology s start k)

omit hreset
include hc h

/-- A node that is not armed yet is armed by its parent's word. -/
theorem Armed.unarmed (hn : node ∈ topology.nodes)
    (har : ¬ 1 + node.broadcastLatencyFromRootCycles ≤ k) :
    node.fpga ≠ topology.root ∧ (s.node node.fpga).startArmed = false ∧
      (nodeInputs topology s inputs node).parentStartValid =
        decide (1 + node.broadcastLatencyFromRootCycles ≤ k + 1) := by
  have hid : node.fpga ≠ topology.root := by
    intro hid
    have := root_latency ht hn hid
    have := h.pos
    omega
  obtain ⟨hla, parent, hpn, hp, hsm⟩ := exists_parent ht hn hid
  have hln := hc.valid_length node hn hid
  have hls := h.valid node hn parent hpn hid hp (node.parentControlLatencyCycles - 1) (by omega)
  refine ⟨hid, by rw [h.armed node hn, decide_eq_false har], ?_⟩
  simp only [nodeInputs, output_eq (by omega) hls, hid, ne_eq, not_false_eq_true, decide_true,
    Bool.true_and, decide_eq_decide]
  omega

omit hc

/-- Before the margin has passed, the counter has not come round to the target. -/
theorem Armed.release_due (hm : topology.parameters.startMarginCycles < 2 ^ w)
    (hn : node ∈ topology.nodes) :
    (decide (topology.parameters.startMarginCycles + 1 ≤ k) ||
      decide (1 + node.broadcastLatencyFromRootCycles ≤ k) &&
        (start + BitVec.ofNat w k == (s.node node.fpga).targetEpoch)) =
      decide (topology.parameters.startMarginCycles + 1 ≤ k + 1) := by
  have hmr := ht.margin node hn
  set margin := topology.parameters.startMarginCycles
  by_cases hlt : k < margin
  · have hne : ∀ h : 1 + node.broadcastLatencyFromRootCycles ≤ k,
        (start + BitVec.ofNat w k == (s.node node.fpga).targetEpoch) = false := by
      intro hk
      rw [h.target node hn hk, beq_eq_false_iff_ne, ne_eq, BitVec.add_right_inj]
      intro heq
      have := congrArg BitVec.toNat heq
      rw [BitVec.toNat_ofNat, BitVec.toNat_ofNat, Nat.mod_eq_of_lt (by omega),
        Nat.mod_eq_of_lt hm] at this
      omega
    rw [decide_eq_false (p := margin + 1 ≤ k) (by omega),
      decide_eq_false (p := margin + 1 ≤ k + 1) (by omega)]
    by_cases hk : 1 + node.broadcastLatencyFromRootCycles ≤ k
    · rw [hne hk, Bool.and_false, Bool.or_false]
    · rw [decide_eq_false hk, Bool.false_and, Bool.or_false]
  · rw [decide_eq_true (p := margin + 1 ≤ k + 1) (by omega)]
    by_cases heq : k = margin
    · rw [h.target node hn (by omega), heq, beq_self_eq_true,
        decide_eq_true (p := 1 + node.broadcastLatencyFromRootCycles ≤ margin) (by omega),
        Bool.and_true, Bool.or_true]
    · rw [decide_eq_true (p := margin + 1 ≤ k) (by omega), Bool.true_or]

include hreset hc

/-- One cycle later the same picture holds with `k + 1`. -/
theorem armed_step (hm : topology.parameters.startMarginCycles < 2 ^ w) :
    Armed topology (step topology s inputs) start (k + 1) where
  pos := by omega
  armed := by
    intro node hn
    rw [step_node ht hreset hn]
    by_cases har : 1 + node.broadcastLatencyFromRootCycles ≤ k
    · rw [(step_of_armed (by rw [h.armed node hn, decide_eq_true har])).1]
      exact (decide_eq_true (by omega)).symm
    · obtain ⟨hid, hnt, hvl⟩ := h.unarmed ht hc hn har
      rw [(step_child (by simp [nodeParams, hid]) hnt).1, hvl]
  target := by
    intro node hn hk
    rw [step_node ht hreset hn]
    by_cases har : 1 + node.broadcastLatencyFromRootCycles ≤ k
    · rw [(step_of_armed (by rw [h.armed node hn, decide_eq_true har])).2]
      exact h.target node hn har
    · obtain ⟨hid, hnt, hvl⟩ := h.unarmed ht hc hn har
      obtain ⟨hla, parent, hpn, hp, hsm⟩ := exists_parent ht hn hid
      have hln := hc.epoch_length node hn hid
      have hwr := h.word node hn parent hpn hid hp (node.parentControlLatencyCycles - 1)
        (by omega) (by omega)
      rw [(step_child (by simp [nodeParams, hid]) hnt).2 (hvl.trans (decide_eq_true hk)),
        nodeInputs, if_neg hid, output_eq (by omega) hwr]
  released := by
    intro node hn
    rw [step_node ht hreset hn, step_released, h.released node hn, h.armed node hn,
      hc.epoch_eq node hn]
    exact h.release_due ht hm hn
  valid := by
    intro node hn parent hpn hid hp j hj
    have hln := hc.valid_length node hn hid
    rw [step_edge ht hreset hn hp, edgeStep]
    cases j with
    | zero =>
      rw [shift_zero (by omega), h.armed parent hpn]
      exact congrArg some (decide_eq_decide.mpr (by omega))
    | succ j =>
      rw [shift_succ (by omega), h.valid node hn parent hpn hid hp j (by omega)]
      exact congrArg some (decide_eq_decide.mpr (by omega))
  word := by
    intro node hn parent hpn hid hp j hj hk
    have hln := hc.epoch_length node hn hid
    rw [step_edge ht hreset hn hp, edgeStep]
    cases j with
    | zero => rw [shift_zero (by omega), h.target parent hpn (by omega)]
    | succ j =>
      rw [shift_succ (by omega)]
      exact h.word node hn parent hpn hid hp j (by omega) (by omega)

end

end Step

/-! ## runs -/

theorem phase_reset (ht : WellRooted topology) :
    Phase topology (resetState topology : TreeState w) := by
  have hl : ∀ node ∈ topology.nodes,
      ((topology.findNode node.fpga).map Node.parentControlLatencyCycles).getD 0 =
        node.parentControlLatencyCycles := by
    intro node hn
    rw [findNode_of_mem ht hn, Option.map_some, Option.getD_some]
  refine Or.inl ⟨⟨fun _ _ => rfl, fun _ _ => rfl, ?_⟩, 0, ⟨fun _ _ => rfl, ?_, ?_, ?_⟩⟩
  · intro node hn _ j hj
    simp only [resetState, EdgePipes.reset, hl node hn]
    rw [List.getElem?_replicate, if_pos hj]
  · intro node hn _
    simp only [resetState, EdgePipes.reset, hl node hn, length_replicate]
  · intro node hn _
    simp only [resetState, EdgePipes.reset, hl node hn, length_replicate]
  · intro node _ hf
    exact absurd hf (by simp [resetState, NodeRegs.reset])

theorem phase_step (ht : WellRooted topology)
    (hm : topology.parameters.startMarginCycles < 2 ^ w) (h : Phase topology s) :
    Phase topology (step topology s inputs) := by
  cases hreset : inputs.reset with
  | true =>
    have : step topology s inputs = resetState topology := by simp [step, hreset]
    rw [this]
    exact phase_reset ht
  | false =>
    rcases h with ⟨hi, epoch, hc⟩ | ⟨start, k, har, hc⟩
    · obtain ⟨root, hrn, hr⟩ := ht.root_mem
      have hu : ∀ node ∈ topology.nodes, node.fpga = topology.root → node = root :=
        fun node hn hid => inj_on_of_nodup_map ht.nodup hn hrn (hid.trans hr.symm)
      cases ha : rootArms (nodeParams topology root) (s.node root.fpga)
        (nodeInputs topology s inputs root) with
      | false =>
        refine Or.inl ⟨idle_step ht hreset hc hi ?_, epoch + 1, coherent_step ht hreset hc⟩
        intro node hn hid
        rw [hu node hn hid, ha]
      | true =>
        refine Or.inr ⟨epoch, 1, armed_of_idle ht hreset hc hi ?_, ?_⟩
        · intro node hn hid
          rw [hu node hn hid, ha]
        · exact coherent_step ht hreset hc
    · refine Or.inr ⟨start, k + 1, armed_step ht hreset hc har hm, ?_⟩
      rw [BitVec.ofNat_add, ← BitVec.add_assoc]
      exact coherent_step ht hreset hc

theorem trace_phase (ht : WellRooted topology)
    (hm : topology.parameters.startMarginCycles < 2 ^ w) (inputs : Nat → CycleInputs) (t : Nat) :
    Phase topology (trace topology inputs t : TreeState w) := by
  induction t with
  | zero => exact phase_reset ht
  | succ t ih => exact phase_step ht hm ih

theorem Phase.released_eq (h : Phase topology s) {a b : Node} (ha : a ∈ topology.nodes)
    (hb : b ∈ topology.nodes) : (s.node a.fpga).released = (s.node b.fpga).released := by
  rcases h with ⟨hi, -⟩ | ⟨start, k, har, -⟩
  · rw [hi.released a ha, hi.released b hb]
  · rw [har.released a ha, har.released b hb]

theorem Phase.globalReady_of_rise (ht : WellRooted topology) (h : Phase topology s)
    (hn : node ∈ topology.nodes) (hb : (s.node node.fpga).released = false)
    (ha : ((step topology s inputs).node node.fpga).released = true) :
    ((step topology s inputs).node node.fpga).globalReady = true := by
  have hf : (s.node node.fpga).stickyFault = false := by
    have hfr : (s.node node.fpga).stickyFault = true → (s.node node.fpga).released = true := by
      rcases h with ⟨-, epoch, hc⟩ | ⟨start, k, -, hc⟩ <;> exact hc.fault_released node hn
    cases hs : (s.node node.fpga).stickyFault with
    | false => rfl
    | true => exact absurd (hfr hs) (by rw [hb]; simp)
  cases hreset : inputs.reset with
  | true => simp [step, hreset, resetState, NodeRegs.reset] at ha
  | false =>
    rw [NodeRegs.globalReady, ha, step_node ht hreset hn,
      step_stickyFault_of_not_released hf hb]
    rfl

/-- What the barrier promises between cycle `t` and the next one of a run. -/
def ReleasesTogether (fpgaIds : List String) (run : Nat → TreeState w) (t : Nat) : Prop :=
  (∀ a ∈ fpgaIds, ∀ b ∈ fpgaIds, ((run t).node a).released = ((run t).node b).released) ∧
  ∀ a ∈ fpgaIds, ((run t).node a).released = false → ((run (t + 1)).node a).released = true →
    ∀ b ∈ fpgaIds, ((run t).node b).globalReady = false ∧ ((run (t + 1)).node b).globalReady = true

theorem releasesTogether_of_wellRooted (ht : WellRooted topology)
    (hm : topology.parameters.startMarginCycles < 2 ^ w) (inputs : Nat → CycleInputs) (t : Nat) :
    ReleasesTogether (topology.nodes.map Node.fpga)
      (trace topology inputs : Nat → TreeState w) t := by
  have hp : Phase topology (trace topology inputs t : TreeState w) := trace_phase ht hm inputs t
  have hn : Phase topology (trace topology inputs (t + 1) : TreeState w) :=
    trace_phase ht hm inputs (t + 1)
  constructor
  · rintro _ ha _ hb
    obtain ⟨a, han, rfl⟩ := mem_map.mp ha
    obtain ⟨b, hbn, rfl⟩ := mem_map.mp hb
    exact hp.released_eq han hbn
  · rintro _ ha hbf haf _ hb
    obtain ⟨a, han, rfl⟩ := mem_map.mp ha
    obtain ⟨b, hbn, rfl⟩ := mem_map.mp hb
    rw [hp.released_eq han hbn] at hbf
    rw [hn.released_eq han hbn] at haf
    exact ⟨by rw [NodeRegs.globalReady, hbf, Bool.false_and],
      hp.globalReady_of_rise ht hbn hbf haf⟩

/--
**All FPGAs of a connected board release in the same cycle.**

The board has a topology, and in every run of its tree from reset, whatever the local readiness of
each node and whenever the common reset is pulsed again, all `released` registers agree in every
cycle and all `global_ready` outputs rise together.
-/
theorem released_together {platform : Platform} (hconn : Connected platform) (provider : String)
    {root : Option String} (hroot : ∀ r, root = some r → r = "" ∨ r ∈ platform.fpgaIds)
    {readyStableCycles : Int} (hrsc : 1 ≤ readyStableCycles) :
    ∃ topology, buildRuntimeSyncTopology platform provider root readyStableCycles = .ok topology ∧
      (topology.parameters.startMarginCycles < 2 ^ 32 →
        ∀ (inputs : Nat → CycleInputs) (t : Nat), ReleasesTogether platform.fpgaIds
          (trace topology inputs : Nat → TreeState 32) t) := by
  obtain ⟨topology, h⟩ := buildRuntimeSyncTopology_of_connected provider hconn hroot hrsc
  refine ⟨topology, h, fun hm inputs t => ?_⟩
  have hall := releasesTogether_of_wellRooted (buildRuntimeSyncTopology_wellRooted h) hm inputs t
  simpa only [ReleasesTogether, nodes_map_fpga h, SortedSet.mem_sorted] using hall

def twoFpgaBoard : Platform :=
  { name := "two-fpga"
    fpgas := [⟨"fpga0"⟩, ⟨"fpga1"⟩]
    links := [{ id := "l0", endpoints := ("fpga0", "fpga1"), direction := .full_duplex
                mode := .parallel, dataLanesPerDirection := 4, fabricClockMhz := 250
                latencyCycles := 2
                endpoints_ne := by decide, lanes_pos := by decide, clock_pos := by norm_num
                payload_pos := Nat.one_pos, payload_serial := parallel_payload
                shared_full_duplex := fun _ => rfl, banks_shared := by simp }]
    fpgas_ne_nil := by simp
    fpga_ids_nodup := by decide
    link_ids_nodup := by decide
    endpoints_known := by simp }

theorem connected_twoFpgaBoard : Connected twoFpgaBoard := by
  have h01 : Linked twoFpgaBoard "fpga0" "fpga1" := ⟨_, mem_cons_self, Or.inl rfl⟩
  have h10 : Linked twoFpgaBoard "fpga1" "fpga0" := ⟨_, mem_cons_self, Or.inr rfl⟩
  intro a ha b hb
  simp only [Platform.fpgaIds, twoFpgaBoard, map_cons, map_nil, mem_cons,
    not_mem_nil, or_false] at ha hb
  rcases ha with rfl | rfl <;> rcases hb with rfl | rfl
  · exact .refl
  · exact .single h01
  · exact .single h10
  · exact .refl

/-- The two-FPGA board with its default root. -/
theorem released_together_twoFpgaBoard : ∃ topology,
    buildRuntimeSyncTopology twoFpgaBoard "runtime-sync" none 4 = .ok topology ∧
    (topology.parameters.startMarginCycles < 2 ^ 32 →
      ∀ (inputs : Nat → CycleInputs) (t : Nat), ReleasesTogether twoFpgaBoard.fpgaIds
        (trace topology inputs : Nat → TreeState 32) t) :=
  released_together connected_twoFpgaBoard "runtime-sync" (by simp) (by decide)

/-- The epoch counters agree, the armed nodes wait for one epoch, and no node is released before
the start word has reached all. -/
structure StartsTogether (topology : Topology) (s : TreeState w) : Prop where
  epochs : ∀ a ∈ topology.nodes, ∀ b ∈ topology.nodes,
    (s.node a.fpga).epoch = (s.node b.fpga).epoch
  targets : ∀ a ∈ topology.nodes, ∀ b ∈ topology.nodes, (s.node a.fpga).startArmed = true →
    (s.node b.fpga).startArmed = true → (s.node a.fpga).targetEpoch = (s.node b.fpga).targetEpoch
  armed : ∀ a ∈ topology.nodes, ∀ b ∈ topology.nodes, (s.node a.fpga).released = true →
    (s.node b.fpga).startArmed = true

theorem startsTogether {platform : Platform} {provider : String} {root : Option String}
    {readyStableCycles : Int} {topology : Topology}
    (h : buildRuntimeSyncTopology platform provider root readyStableCycles = .ok topology)
    (hm : topology.parameters.startMarginCycles < 2 ^ w) (inputs : Nat → CycleInputs) (t : Nat) :
    StartsTogether topology (trace topology inputs t : TreeState w) := by
  have ht := buildRuntimeSyncTopology_wellRooted h
  rcases trace_phase ht hm inputs t with ⟨hidle, epoch, hc⟩ | ⟨start, k, harmed, hc⟩
  · refine ⟨fun a ha b hb => (hc.epoch_eq a ha).trans (hc.epoch_eq b hb).symm,
      fun a ha b _ harm => ?_, fun a ha b _ hreleased => ?_⟩
    · exact absurd ((hidle.armed a ha).symm.trans harm) Bool.false_ne_true
    · exact absurd ((hidle.released a ha).symm.trans hreleased) Bool.false_ne_true
  · refine ⟨fun a ha b hb => (hc.epoch_eq a ha).trans (hc.epoch_eq b hb).symm,
      fun a ha b hb harm harm' => ?_, fun a ha b hb hreleased => ?_⟩
    · rw [harmed.armed a ha, decide_eq_true_eq] at harm
      rw [harmed.armed b hb, decide_eq_true_eq] at harm'
      rw [harmed.target a ha harm, harmed.target b hb harm']
    · rw [harmed.released a ha, decide_eq_true_eq] at hreleased
      have hmargin := ht.margin b hb
      rw [harmed.armed b hb]
      exact decide_eq_true (by omega)

theorem startsTogether_twoFpgaBoard : ∃ topology,
    buildRuntimeSyncTopology twoFpgaBoard "runtime-sync" none 4 = .ok topology ∧
      ∀ (inputs : Nat → CycleInputs) (t : Nat),
        StartsTogether topology (trace topology inputs t : TreeState 32) := by
  obtain ⟨topology, h⟩ : ∃ topology,
      buildRuntimeSyncTopology twoFpgaBoard "runtime-sync" none 4 = .ok topology :=
    buildRuntimeSyncTopology_of_connected "runtime-sync" connected_twoFpgaBoard (by simp)
      (by decide)
  have hm : (match buildRuntimeSyncTopology twoFpgaBoard "runtime-sync" none 4 with
      | .ok topology => topology.parameters.startMarginCycles
      | .error _ => 2 ^ 32) < 2 ^ 32 := by decide +kernel
  rw [h] at hm
  exact ⟨topology, h, startsTogether h hm⟩

end EmuFlow.RuntimeSync
