import EmuFlow.Lib.Components
import EmuFlow.Lib.ReadyQueue
import EmuFlow.Lib.Worklist
import EmuFlow.Partition.CutMetrics

/-!
# Which nets may be cut

`_instance_class` and `_build_combinational_cut_candidate_index` of `emuflow/combinational_cut.py`:
the combinational nets between soft logic and safe register inputs that lie on no combinational
cycle. Of the index only the eligible nets are modelled, which is what the contract reads.
-/

namespace EmuFlow.CombinationalCut

open SortedSet ReadyQueue Prod

/-- The results of `_instance_class`. -/
inductive InstanceClass
  | architecturalStateOrMemory
  | hardCombinationalMacro
  | supportedSoftCombinational
  | unsupportedInstance
  deriving DecidableEq

def instanceClass (inst : Instance) : InstanceClass :=
  let r := inst.resources
  if r.ff ≠ 0 ∨ r.bram ≠ 0 ∨ r.bram18k ≠ 0 ∨ r.uram288 ≠ 0 then .architecturalStateOrMemory
  else if r.dsp ≠ 0 ∨ r.carry ≠ 0 ∨ r.dsp48 ≠ 0 ∨ r.carry8 ≠ 0 then .hardCombinationalMacro
  else if 0 < r.lut ∧ r.io = 0 ∧ r.clock = 0 ∧ r.other = 0 then .supportedSoftCombinational
  else .unsupportedInstance

/-- `classes.get(id)`. -/
def classOf (ir : EmuIR) (id : String) : Option InstanceClass :=
  (ir.findInstance id).map instanceClass

/-- The instance holds state: paths begin and end there. -/
def isState (ir : EmuIR) (id : String) : Bool :=
  classOf ir id == some .architecturalStateOrMemory

def TRANSPORT_SAFE_SEQUENTIAL_INPUTS : List (String × List String) :=
  [("FDCE", ["D", "CE"]), ("FDPE", ["D", "CE"]), ("FDRE", ["D", "CE", "R"]),
    ("FDSE", ["D", "CE", "S"])]

def safeSequentialInput (instanceType port : String) : Bool :=
  if instanceType.startsWith "$_DFF_" then port == "D"
  else decide (port ∈ (TRANSPORT_SAFE_SEQUENTIAL_INPUTS.lookup instanceType).getD [])

def endpointInstances (endpoints : List Endpoint) : List String :=
  sortedSet (endpoints.filterMap Endpoint.inst)

def combinationalNodes (ir : EmuIR) : List String :=
  sorted ((ir.instances.map Instance.id).filter fun id => !isState ir id)

/-- `adjacency[source]`: along nets of one driver that are neither clock nor reset. -/
def combinationalSuccessors (ir : EmuIR) (source : String) : List String :=
  ir.nets.flatMap fun net =>
    if endpointInstances net.drivers = [source] ∧ net.cutClass ≠ .clock ∧ net.cutClass ≠ .reset ∧
        source ∈ combinationalNodes ir then
      (endpointInstances net.sinks).filter fun sink => sink ∈ combinationalNodes ir
    else []

def cyclicInstances (ir : EmuIR) : List String :=
  ((Components.stronglyConnectedComponents (combinationalNodes ir)
    (combinationalSuccessors ir)).filter fun component =>
      1 < component.length ∨ ∃ id ∈ component.head?, id ∈ combinationalSuccessors ir id).flatten

/-- The sink is soft logic off every cycle, a safe register input, or a top-level output. -/
def sinkEligible (ir : EmuIR) (cyclic : List String) (e : Endpoint) : Bool :=
  match e.inst with
  | none => true
  | some id =>
    match ir.findInstance id with
    | none => false
    | some inst =>
      match instanceClass inst with
      | .supportedSoftCombinational => decide (id ∉ cyclic)
      | .architecturalStateOrMemory => safeSequentialInput inst.type e.port
      | _ => false

def driverEligible (ir : EmuIR) (cyclic : List String) (drivers : List Endpoint) : Bool :=
  match drivers.map Endpoint.inst with
  | [some source] =>
    classOf ir source == some .supportedSoftCombinational && decide (source ∉ cyclic)
  | _ => false

/-- A combinational net without a reason against cutting it. -/
def netEligible (ir : EmuIR) (cyclic : List String) (net : Net) : Bool :=
  net.cutClass == .combinational && driverEligible ir cyclic net.drivers && !net.sinks.isEmpty &&
    net.sinks.all (sinkEligible ir cyclic)

def eligibleIds (ir : EmuIR) : List String :=
  (ir.nets.filter fun net => netEligible ir (cyclicInstances ir) net).map Net.id

/-!
## The dependencies of exact cuts

`_analyze_static_exact_dependencies` of `emuflow/combinational_cut.py`: what feeds the driver of
each cut inside its source FPGA, and the order this puts the cuts in.

* `cutSources_spec` — the search from the driver of a cut finds exactly what its source cone reads
* `dependencyOrder_spec` — the order fails exactly on a cycle of cuts
-/

open Check Routing EmuFlow.Partition List

/-! ## the source cone of one cut -/

inductive Feed
  | launch
  | cut (net : String)
  deriving DecidableEq

def Feed.cut? : Feed → Option String
  | .launch => none
  | .cut net => some net

def delivered (cuts : List CutNet) (fpga : String) (net : Net) : Bool :=
  match Keyed.find CutNet.net cuts net.id with
  | some cut => decide (fpga ∈ cut.sinkFpgas)
  | none => false

def upstream (assignment : InstanceAssignment) (cuts : List CutNet) (fpga : String) (net : Net) :
    List String :=
  if delivered cuts fpga net then []
  else (net.drivers.filterMap Endpoint.inst).filter fun i => assignment.lookup i = some fpga

def netFeeds (cuts : List CutNet) (fpga : String) (net : Net) : List Feed :=
  if delivered cuts fpga net then [.cut net.id]
  else (net.drivers.filter fun e => e.inst = none).map fun _ => .launch

def coneSearch (ir : EmuIR) (assignment : InstanceAssignment) (cuts : List CutNet)
    (cut fpga : String) : Worklist.Search EmuFlowError String Feed String :=
  { mark := some
    expand := fun i => do
      raiseIf (assignment.lookup i ≠ some fpga)
        (.validation "exact cut %r source cone crosses an unmodelled boundary" [cut])
      return if isState ir i then ([], [.launch])
        else ((ir.incoming i).flatMap (upstream assignment cuts fpga),
          (ir.incoming i).flatMap (netFeeds cuts fpga)) }

def pinPairs (ir : EmuIR) : Nat :=
  (ir.nets.map fun net => net.sinks.length * net.drivers.length).sum

def searchFuel (ir : EmuIR) (start : Nat) : Nat := start + pinPairs ir * ir.instances.length

/-- `dependencies[net]` and `local_launches[net]`. -/
structure CutSources where
  net : String
  predecessors : List String
  localLaunch : Bool

def cutSources (ir : EmuIR) (assignment : InstanceAssignment) (cuts : List CutNet) (cut : CutNet) :
    Result CutSources := do
  let net ← lookupOrRaise cut.net (ir.findNet cut.net)
  let fpga ← lookupOrRaise "source_fpgas" cut.sourceFpgas.head?
  let driverInstances := endpointInstances net.drivers
  raiseIf (driverInstances.length ≠ 1)
    (.validation "exact cut %r lacks one logic driver" [cut.net])
  let feeds ← (coneSearch ir assignment cuts cut.net fpga).run (searchFuel ir 1) driverInstances
  return { net := cut.net
           predecessors := sortedSet (feeds.filterMap Feed.cut?)
           localLaunch := decide (.launch ∈ feeds) }

/-! ## the order of the cuts -/

/-- `dependency_level` and `combinational_depth`. -/
structure CutLevel where
  net : String
  dependencyLevel : Nat
  combinationalDepth : Nat

/-- `successors[source]`, sorted. -/
def cutSuccessors (sources : List CutSources) (source : String) : List String :=
  sorted ((sources.filter fun s => source ∈ s.predecessors).map CutSources.net)

/-- `dependencies[net]`. -/
def cutPredecessors (sources : List CutSources) (net : String) : List String :=
  ((Keyed.find CutSources.net sources net).map CutSources.predecessors).getD []

def dependencyOrder (sources : List CutSources) : Result (List String) :=
  run (fun _ => (.ok 0 : Result Nat)) (cutSuccessors sources) sources.length
    (sorted ((sources.filter fun s => s.predecessors = []).map CutSources.net))
    fun net => (cutPredecessors sources net).length

def addLevel (ir : EmuIR) (sources : List CutSources) (levels : List CutLevel) (net : String) :
    List CutLevel :=
  let before := levels.filter fun l => l.net ∈ cutPredecessors sources net
  let combinational := (ir.findNet net).any fun n => n.cutClass = .combinational
  levels ++ [{ net := net
               dependencyLevel := 1 + maxOrZero (before.map CutLevel.dependencyLevel)
               combinationalDepth :=
                maxOrZero (before.map CutLevel.combinationalDepth) + combinational.toNat }]

def cycleError : EmuFlowError := ValidationError "exact cut dependency graph contains a cycle"

def cutLevels (ir : EmuIR) (sources : List CutSources) : Result (List CutLevel) := do
  let order ← dependencyOrder sources
  raiseIf (order.length ≠ sources.length) cycleError
  return order.foldl (addLevel ir sources) []

def checkCut (ir : EmuIR) (cut : CutNet) : Result Unit :=
  match ir.findNet cut.net with
  | none => .error (.validation "exact semantic contract has unknown net %r" [cut.net])
  | some net => do
    raiseIf (cut.sourceFpgas.length ≠ 1)
      (.validation "exact cut %r must have one source FPGA" [cut.net])
    raiseIf (net.cutClass = .combinational ∧ cut.net ∉ eligibleIds ir)
      (.validation "combinational cut %r is not in the independently reconstructed eligible set"
        [cut.net])

structure CutAnalysis where
  sources : List CutSources
  levels : List CutLevel
  maximumDepth : Nat

def analyzeSources (ir : EmuIR) (assignment : InstanceAssignment) (cuts : List CutNet)
    (candidateSelectionPolicy : String) : Result (List CutSources) := do
  raiseIf (candidateSelectionPolicy ∉ STATIC_EXACT_CANDIDATE_POLICIES)
    (ValidationError "unknown exact combinational-cut candidate policy")
  raiseIf (¬ (cuts.map CutNet.net).Nodup)
    (ValidationError "exact semantic contract cut nets are not unique")
  forM cuts (checkCut ir)
  (sortedBy CutNet.net cuts).mapM (cutSources ir assignment cuts)

/-- The policy limit on the depth; zero disables it. -/
def checkDepth (maxDependencyDepth : Nat) (levels : List CutLevel) : Result Nat := do
  let maximum := maxOrZero (levels.map CutLevel.combinationalDepth)
  raiseIf (maxDependencyDepth ≠ 0 ∧ maxDependencyDepth < maximum)
    (.validation ("exact combinational-cut dependency depth exceeds the configured limit: " ++
        "net %r has depth %s, limit %s")
      [((sorted ((levels.filter fun l => l.combinationalDepth = maximum).map
        CutLevel.net)).head?).getD
        "", toString maximum, toString maxDependencyDepth])
  return maximum

def analyzeStaticExactDependencies (ir : EmuIR) (assignment : InstanceAssignment)
    (cuts : List CutNet) (maxDependencyDepth : Nat) (candidateSelectionPolicy : String) :
    Result CutAnalysis := do
  let sources ← analyzeSources ir assignment cuts candidateSelectionPolicy
  let levels ← cutLevels ir sources
  let maximumDepth ← checkDepth maxDependencyDepth levels
  return { sources := sources, levels := levels, maximumDepth := maximumDepth }

/-! ## what the source cone of a cut is -/

section Cone

variable {ir : EmuIR} {assignment : InstanceAssignment} {cuts : List CutNet} {net : Net}
  {cut fpga : String} {i : String}

/-- The instances of the source cone of a net on an FPGA: its drivers, and on the FPGA what drives
the inputs of its logic through nets that are not delivered from elsewhere. -/
inductive InCone (ir : EmuIR) (assignment : InstanceAssignment) (cuts : List CutNet) (fpga : String)
    (net : Net) : String → Prop
  | driver {e : Endpoint} {i : String} (he : e ∈ net.drivers) (hi : e.inst = some i) :
      InCone ir assignment cuts fpga net i
  | up {i j : String} {n : Net} {e : Endpoint} (h : InCone ir assignment cuts fpga net j)
      (hlogic : isState ir j = false) (hn : n ∈ ir.incoming j)
      (hlocal : delivered cuts fpga n = false) (he : e ∈ n.drivers) (hi : e.inst = some i)
      (hat : assignment.lookup i = some fpga) : InCone ir assignment cuts fpga net i

inductive ConeReads (ir : EmuIR) (assignment : InstanceAssignment) (cuts : List CutNet)
    (fpga : String) (net : Net) : Feed → Prop
  | state {i : String} (h : InCone ir assignment cuts fpga net i) (hstate : isState ir i = true) :
      ConeReads ir assignment cuts fpga net .launch
  | top {i : String} {n : Net} {e : Endpoint} (h : InCone ir assignment cuts fpga net i)
      (hlogic : isState ir i = false) (hn : n ∈ ir.incoming i)
      (hlocal : delivered cuts fpga n = false) (he : e ∈ n.drivers) (htop : e.inst = none) :
      ConeReads ir assignment cuts fpga net .launch
  | cut {i : String} {n : Net} (h : InCone ir assignment cuts fpga net i)
      (hlogic : isState ir i = false) (hn : n ∈ ir.incoming i)
      (hremote : delivered cuts fpga n = true) : ConeReads ir assignment cuts fpga net (.cut n.id)

theorem mem_upstream {n : Net} : i ∈ upstream assignment cuts fpga n ↔
    delivered cuts fpga n = false ∧ (∃ e ∈ n.drivers, e.inst = some i) ∧
      assignment.lookup i = some fpga := by
  unfold upstream
  cases delivered cuts fpga n with
  | true => simp
  | false => simp [mem_filterMap]

theorem mem_netFeeds {n : Net} {feed : Feed} : feed ∈ netFeeds cuts fpga n ↔
    (delivered cuts fpga n = true ∧ feed = .cut n.id) ∨
      (delivered cuts fpga n = false ∧ (∃ e ∈ n.drivers, e.inst = none) ∧ feed = .launch) := by
  unfold netFeeds
  cases delivered cuts fpga n with
  | true => simp
  | false =>
    simp only [Bool.false_eq_true, if_false, mem_map, mem_filter, decide_eq_true_eq,
      false_and, true_and, false_or]
    constructor
    · rintro ⟨e, ⟨he, htop⟩, rfl⟩
      exact ⟨⟨e, he, htop⟩, rfl⟩
    · rintro ⟨⟨e, he, htop⟩, rfl⟩
      exact ⟨e, ⟨he, htop⟩, rfl⟩

theorem coneSearch_expand {next : List String} {feeds : List Feed} :
    (coneSearch ir assignment cuts cut fpga).expand i = .ok (next, feeds) ↔
      assignment.lookup i = some fpga ∧ (next, feeds) = if isState ir i then ([], [.launch])
          else ((ir.incoming i).flatMap (upstream assignment cuts fpga),
            (ir.incoming i).flatMap (netFeeds cuts fpga)) := by
  unfold coneSearch
  simp only [raiseIf_bind, not_not]
  refine and_congr_right fun _ => ?_
  constructor
  · intro h
    exact (Except.ok.inj h).symm
  · intro h
    rw [h]
    rfl

theorem coneSearch_uniform : (coneSearch ir assignment cuts cut fpga).Uniform where
  same := by
    intro a b k ha hb
    obtain rfl : a = k := Option.some.inj ha
    obtain rfl : b = a := Option.some.inj hb
    rfl
  leaf := by
    intro a next out ha
    cases ha

theorem length_flatMap_incoming_le {f : Net → List String}
    (hf : ∀ n, (f n).length ≤ n.drivers.length) :
    ((ir.incoming i).flatMap f).length ≤ pinPairs ir := by
  unfold pinPairs EmuIR.incoming
  induction ir.nets with
  | nil => simp
  | cons n nets ih =>
    rw [flatMap_cons, flatMap_append, length_append, map_cons, sum_cons]
    refine Nat.add_le_add ?_ ih
    rw [flatMap_map, length_flatMap, map_const', sum_replicate, smul_eq_mul]
    exact Nat.mul_le_mul (length_filter_le _ _) (hf n)

theorem length_upstream_le (n : Net) :
    (upstream assignment cuts fpga n).length ≤ n.drivers.length := by
  unfold upstream
  split
  · exact Nat.zero_le _
  · exact (length_filter_le _ _).trans (length_filterMap_le _ _)

theorem coneSearch_weight {next : List String} {feeds : List Feed}
    (h : (coneSearch ir assignment cuts cut fpga).expand i = .ok (next, feeds)) :
    next.length ≤ pinPairs ir := by
  obtain ⟨-, h⟩ := coneSearch_expand.mp h
  split at h
  · rw [(mk.inj h).1]
    exact Nat.zero_le _
  · rw [(mk.inj h).1]
    exact length_flatMap_incoming_le length_upstream_le

theorem InCone.known (hnt : net ∈ ir.nets) (h : InCone ir assignment cuts fpga net i) :
    i ∈ ir.instances.map Instance.id := by
  cases h with
  | driver he hi => exact EmuIR.exists_instance hnt (mem_append_left _ he) hi
  | up _ _ hn _ he hi _ =>
    exact EmuIR.exists_instance (EmuIR.mem_incoming.mp hn).1 (mem_append_left _ he) hi

theorem mem_endpointInstances {endpoints : List Endpoint} :
    i ∈ endpointInstances endpoints ↔ ∃ e ∈ endpoints, e.inst = some i := by
  rw [endpointInstances, mem_sortedSet, mem_filterMap]

theorem InCone.of_reached
    (h : (coneSearch ir assignment cuts cut fpga).Reached (endpointInstances net.drivers) i) :
    InCone ir assignment cuts fpga net i := by
  induction h with
  | start hs =>
    obtain ⟨e, he, hi⟩ := mem_endpointInstances.mp hs
    exact .driver he hi
  | step _ hex hb ih =>
    obtain ⟨-, hnx⟩ := coneSearch_expand.mp hex
    split at hnx
    · rw [(mk.inj hnx).1] at hb
      exact absurd hb not_mem_nil
    · next hlogic =>
      rw [(mk.inj hnx).1] at hb
      obtain ⟨n, hn, hu⟩ := mem_flatMap.mp hb
      obtain ⟨hlocal, ⟨e, he, hi⟩, hat⟩ := mem_upstream.mp hu
      exact .up ih (Bool.not_eq_true _ ▸ hlogic) hn hlocal he hi hat

theorem coneSearch_spec {feeds : List Feed} (hnt : net ∈ ir.nets)
    (hon : (endpointInstances net.drivers).length = 1)
    (h : (coneSearch ir assignment cuts cut fpga).run (searchFuel ir 1)
      (endpointInstances net.drivers) = .ok feeds) :
    (∀ i, InCone ir assignment cuts fpga net i → assignment.lookup i = some fpga) ∧
      ∀ feed, feed ∈ feeds ↔ ConeReads ir assignment cuts fpga net feed := by
  have hun : ∀ {a k : String},
      (coneSearch ir assignment cuts cut fpga).Reached (endpointInstances net.drivers) a →
        (coneSearch ir assignment cuts cut fpga).mark a = some k →
          k ∈ ir.instances.map Instance.id := by
    intro a k ha hk
    obtain rfl : a = k := Option.some.inj hk
    exact (InCone.of_reached ha).known hnt
  have hfl : (endpointInstances net.drivers).length +
      pinPairs ir * (ir.instances.map Instance.id).length ≤ searchFuel ir 1 := by
    rw [hon, length_map, searchFuel]
  obtain ⟨hcm, hsn⟩ := Worklist.run_spec coneSearch_uniform hun coneSearch_weight hfl h
  -- the search comes to every instance of the cone
  have hrc : ∀ i, InCone ir assignment cuts fpga net i →
      (coneSearch ir assignment cuts cut fpga).Reached (endpointInstances net.drivers) i := by
    intro i hi
    induction hi with
    | driver he hi => exact .start (mem_endpointInstances.mpr ⟨_, he, hi⟩)
    | up _ hlogic hn hlocal he hi hat ih =>
      obtain ⟨next, feeds', hex, -⟩ := hcm _ ih
      obtain ⟨-, hnx⟩ := coneSearch_expand.mp hex
      rw [hlogic, if_neg Bool.false_ne_true] at hnx
      refine .step ih hex ?_
      rw [(mk.inj hnx).1]
      exact mem_flatMap.mpr ⟨_, hn, mem_upstream.mpr ⟨hlocal, ⟨_, he, hi⟩, hat⟩⟩
  have hex : ∀ i, InCone ir assignment cuts fpga net i → assignment.lookup i = some fpga ∧
      ∀ feed ∈ (if isState ir i then [.launch] else (ir.incoming i).flatMap (netFeeds cuts fpga)),
        feed ∈ feeds := by
    intro i hi
    obtain ⟨next, feeds', hex, hal⟩ := hcm i (hrc i hi)
    obtain ⟨hat, hnx⟩ := coneSearch_expand.mp hex
    refine ⟨hat, fun feed hfd => hal feed ?_⟩
    split at hnx
    · next hstate =>
      rw [if_pos hstate] at hfd
      rw [(mk.inj hnx).2]
      exact hfd
    · next hlogic =>
      rw [if_neg hlogic] at hfd
      rw [(mk.inj hnx).2]
      exact hfd
  refine ⟨fun i hi => (hex i hi).1, fun feed => ⟨fun hfd => ?_, fun hrd => ?_⟩⟩
  · obtain ⟨i, next, outs, hi, hep, hmm⟩ := hsn feed hfd
    have hcn := InCone.of_reached hi
    obtain ⟨-, hnx⟩ := coneSearch_expand.mp hep
    split at hnx
    · next hstate =>
      rw [(mk.inj hnx).2, mem_singleton] at hmm
      rw [hmm]
      exact .state hcn hstate
    · next hlogic =>
      rw [(mk.inj hnx).2] at hmm
      have hlg' : isState ir i = false := Bool.not_eq_true _ ▸ hlogic
      obtain ⟨n, hn, hfd'⟩ := mem_flatMap.mp hmm
      rcases mem_netFeeds.mp hfd' with ⟨hremote, rfl⟩ | ⟨hlocal, ⟨e, he, htop⟩, rfl⟩
      · exact .cut hcn hlg' hn hremote
      · exact .top hcn hlg' hn hlocal he htop
  · cases hrd with
    | state hi hstate =>
      refine (hex _ hi).2 _ ?_
      rw [if_pos hstate]
      exact mem_singleton_self _
    | top hi hlogic hn hlocal he htop =>
      refine (hex _ hi).2 _ ?_
      rw [hlogic, if_neg Bool.false_ne_true]
      exact mem_flatMap.mpr ⟨_, hn, mem_netFeeds.mpr (Or.inr ⟨hlocal, ⟨_, he, htop⟩, rfl⟩)⟩
    | cut hi hlogic hn hremote =>
      refine (hex _ hi).2 _ ?_
      rw [hlogic, if_neg Bool.false_ne_true]
      exact mem_flatMap.mpr ⟨_, hn, mem_netFeeds.mpr (Or.inl ⟨hremote, rfl⟩)⟩

/-- The record of a cut: its one driver, and what its source cone reads. -/
structure SourcesOf (ir : EmuIR) (assignment : InstanceAssignment) (cuts : List CutNet)
    (cut : CutNet) (sources : CutSources) (net : Net) (fpga : String) : Prop where
  net_mem : net ∈ ir.nets
  net_id : net.id = cut.net
  sources_net : sources.net = cut.net
  fpga_eq : cut.sourceFpgas.head? = some fpga
  one_driver : (endpointInstances net.drivers).length = 1
  on_fpga : ∀ i, InCone ir assignment cuts fpga net i → assignment.lookup i = some fpga
  mem_predecessors : ∀ p, p ∈ sources.predecessors ↔ ConeReads ir assignment cuts fpga net (.cut p)
  predecessors_sorted : sources.predecessors = sortedSet sources.predecessors
  localLaunch_iff : sources.localLaunch = true ↔ ConeReads ir assignment cuts fpga net .launch

theorem cutSources_spec {cut : CutNet} {sources : CutSources}
    (h : cutSources ir assignment cuts cut = .ok sources) :
    ∃ net fpga, SourcesOf ir assignment cuts cut sources net fpga := by
  obtain ⟨net, hnt, h⟩ := bind_eq_ok.mp h
  obtain ⟨fpga, hfp, h⟩ := bind_eq_ok.mp h
  obtain ⟨⟨⟩, ho, h⟩ := bind_eq_ok.mp h
  obtain ⟨feeds, hf, h⟩ := bind_eq_ok.mp h
  rw [raiseIf_eq_ok, not_not] at ho
  obtain ⟨hm, hid⟩ := EmuIR.findNet_eq_some.mp (lookupOrRaise_eq_ok.mp hnt)
  obtain ⟨hon, hs⟩ := coneSearch_spec hm ho hf
  rw [← Except.ok.inj h]
  refine ⟨net, fpga, hm, hid, rfl, lookupOrRaise_eq_ok.mp hfp, ho, hon, fun p => ?_,
    (sortedSet_idem _).symm, ?_⟩
  · rw [mem_sortedSet, mem_filterMap, ← hs]
    constructor
    · rintro ⟨feed, hfd, hp⟩
      cases feed with
      | launch => cases hp
      | cut q =>
        obtain rfl : q = p := Option.some.inj hp
        exact hfd
    · intro hp
      exact ⟨.cut p, hp, rfl⟩
  · rw [decide_eq_true_eq, hs]

end Cone

section Order

variable {sources : List CutSources} {order : List String}

theorem mem_cutPredecessors (hnd : (sources.map CutSources.net).Nodup) {p net : String} :
    p ∈ cutPredecessors sources net ↔ ∃ s ∈ sources, s.net = net ∧ p ∈ s.predecessors := by
  unfold cutPredecessors
  constructor
  · intro hp
    cases hf : Keyed.find CutSources.net sources net with
    | none =>
      rw [hf] at hp
      exact absurd hp not_mem_nil
    | some s =>
      rw [hf] at hp
      exact ⟨s, Keyed.mem_of_find hf, Keyed.key_of_find hf, hp⟩
  · rintro ⟨s, hs, rfl, hp⟩
    rw [Keyed.find_of_mem hnd hs]
    exact hp

def DependsOn (sources : List CutSources) (p c : String) : Prop :=
  ∃ s ∈ sources, s.net = c ∧ p ∈ s.predecessors

/-- **The order has all cuts exactly when no cut depends on itself**; it never fails. -/
theorem dependencyOrder_spec (hnp : (sources.map CutSources.net).Nodup)
    (hst : ∀ s ∈ sources, s.predecessors.Nodup)
    (hkn : ∀ s ∈ sources, ∀ p ∈ s.predecessors, p ∈ sources.map CutSources.net)
    (h : dependencyOrder sources = .ok order) :
    order.Nodup ∧ (∀ c ∈ order, c ∈ sources.map CutSources.net) ∧
      ReadyQueue.Sorted (cutPredecessors sources) order ∧
      (order.length = sources.length ↔ ∀ c, ¬ Relation.TransGen (DependsOn sources) c c) := by
  set nodes := sources.map CutSources.net with hns
  have hpr : ∀ s ∈ sources, cutPredecessors sources s.net = s.predecessors := by
    intro s hs
    unfold cutPredecessors
    rw [Keyed.find_of_mem hnp hs]
    rfl
  have hsc : ∀ a b, (cutSuccessors sources a).count b =
      if b ∈ nodes then (cutPredecessors sources b).count a else 0 := by
    intro a b
    have hnd : (cutSuccessors sources a).Nodup :=
      nodup_sorted.mpr (Nodup.sublist (Sublist.map _ filter_sublist) hnp)
    have hmm : b ∈ cutSuccessors sources a ↔ ∃ s ∈ sources, s.net = b ∧ a ∈ s.predecessors := by
      rw [cutSuccessors, mem_sorted, mem_map]
      simp only [mem_filter, decide_eq_true_eq]
      constructor
      · rintro ⟨s, ⟨hs, ha⟩, rfl⟩
        exact ⟨s, hs, rfl, ha⟩
      · rintro ⟨s, hs, rfl, ha⟩
        exact ⟨s, ⟨hs, ha⟩, rfl⟩
    by_cases hb : b ∈ nodes
    · obtain ⟨s, hs, rfl⟩ := mem_map.mp hb
      rw [if_pos hb, hpr s hs]
      by_cases ha : a ∈ s.predecessors
      · rw [count_eq_one_of_mem hnd (hmm.mpr ⟨s, hs, rfl, ha⟩), count_eq_one_of_mem (hst s hs) ha]
      · rw [count_eq_zero.mpr ha, count_eq_zero]
        intro hin
        obtain ⟨s', hs', hnt, ha'⟩ := hmm.mp hin
        rw [inj_on_of_nodup_map hnp hs' hs hnt] at ha'
        exact ha ha'
    · rw [if_neg hb, count_eq_zero]
      intro hin
      obtain ⟨s, hs, rfl, -⟩ := hmm.mp hin
      exact hb (mem_map_of_mem hs)
  have hrs : ∀ a, a ∈ sorted ((sources.filter fun s => s.predecessors = []).map CutSources.net) ↔
      a ∈ nodes ∧ cutPredecessors sources a = [] := by
    intro a
    rw [mem_sorted, mem_map]
    simp only [mem_filter, decide_eq_true_eq]
    constructor
    · rintro ⟨s, ⟨hs, hnl⟩, rfl⟩
      exact ⟨mem_map_of_mem hs, (hpr s hs).trans hnl⟩
    · rintro ⟨ha, hnl⟩
      obtain ⟨s, hs, rfl⟩ := mem_map.mp ha
      exact ⟨s, ⟨hs, (hpr s hs).symm.trans hnl⟩, rfl⟩
  have hrt : (sorted ((sources.filter fun s => s.predecessors = []).map
      CutSources.net)).Nodup :=
    nodup_sorted.mpr (Nodup.sublist (Sublist.map _ filter_sublist) hnp)
  have hid : ∀ a ∈ nodes, ((cutPredecessors sources a).length : Int) =
      (cutPredecessors sources a).length := fun _ _ => rfl
  have hfl : nodes.length ≤ sources.length := by rw [hns, length_map]
  have hcl : ∀ a ∈ nodes, ∀ p ∈ cutPredecessors sources a, p ∈ nodes := by
    intro a ha p hp
    obtain ⟨s, hs, -, hp⟩ := (mem_cutPredecessors hnp).mp hp
    exact hkn s hs p hp
  obtain ⟨hon, hsb⟩ := run_spec hsc hid hrs hrt h
  have hal := run_all_iff hsc hid hrs hrt hfl h hcl
  obtain ⟨hsr, -⟩ := run_sorted hsc hid hrs hrt h
  have hrl : (fun p b => b ∈ nodes ∧ p ∈ cutPredecessors sources b) = DependsOn sources := by
    funext p b
    rw [eq_iff_iff, DependsOn, mem_cutPredecessors hnp]
    constructor
    · exact fun hpb => hpb.2
    · rintro ⟨s, hs, rfl, hp⟩
      exact ⟨mem_map_of_mem hs, s, hs, rfl, hp⟩
  rw [hrl] at hal
  refine ⟨hon, hsb, hsr, ?_⟩
  rw [← hal]
  have hln : nodes.length = sources.length := length_map _
  constructor
  · intro heq a ha
    exact (subperm_of_subset hon hsb).perm_of_length_le (by omega) |>.mem_iff.mpr ha
  · intro hcv
    have hle : order.length ≤ nodes.length := (subperm_of_subset hon hsb).length_le
    have hge : nodes.length ≤ order.length := (subperm_of_subset hnp hcv).length_le
    omega

theorem exists_dependencyOrder (sources : List CutSources) :
    ∃ order, dependencyOrder sources = .ok order :=
  exists_run (P := fun _ => True) (fun _ _ => ⟨0, rfl⟩) (fun _ _ => trivial)
    fun _ _ _ => trivial

end Order

end EmuFlow.CombinationalCut
