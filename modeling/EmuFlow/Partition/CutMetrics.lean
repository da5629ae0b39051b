import EmuFlow.EmuIR
import EmuFlow.Routing.Artifacts

/-!
# The cut nets of an assignment

`compute_cut_nets` of `emuflow/partition.py`: the nets with a sink on an FPGA that has no driver of
the net, with these FPGAs. Global and replicated nets are no cuts.
-/

namespace EmuFlow.Partition

open Check SortedSet Routing

abbrev InstanceAssignment := List (String × String)

def endpointFpgas (assignment : InstanceAssignment) (endpoints : List Endpoint) :
    Result (List String) :=
  (endpoints.filterMap Endpoint.inst).mapM fun id => lookupOrRaise id (assignment.lookup id)

def cutOf (net : Net) (driverFpgas sinkFpgas : List String) : Option CutNet :=
  let remote := sinkFpgas.filter fun f => f ∉ driverFpgas
  if net.cutClass = .clock ∨ net.cutClass = .reset then none
  else if driverFpgas = [] ∧ (net.cutClass = .undriven ∨ net.cutClass = .primaryInput) then none
  else if remote = [] then none
  else some
    { net := net.id
      cutClass := some net.cutClass.text
      sourceFpgas := driverFpgas
      sinkFpgas := remote
      -- register inputs are transported after every register output
      transportRound := if net.cutClass = .registerInput then some 1 else none }

def netCut (assignment : InstanceAssignment) (net : Net) : Result (Option CutNet) := do
  let drivers ← endpointFpgas assignment net.drivers
  let sinks ← endpointFpgas assignment net.sinks
  return cutOf net (sortedSet drivers) (sortedSet sinks)

/-- `compute_cut_nets`, without its metrics. -/
def computeCutNets (ir : EmuIR) (assignment : InstanceAssignment) : Result (List CutNet) := do
  let cuts ← ir.nets.mapM (netCut assignment)
  return sortedBy CutNet.net (cuts.filterMap id)

variable {ir : EmuIR} {assignment : InstanceAssignment} {cuts : List CutNet} {net : Net}

theorem mem_endpointFpgas {endpoints : List Endpoint} {fpgas : List String}
    (h : endpointFpgas assignment endpoints = .ok fpgas) {f : String} :
    f ∈ fpgas ↔ ∃ e ∈ endpoints, ∃ i, e.inst = some i ∧ assignment.lookup i = some f := by
  constructor
  · intro hf
    obtain ⟨i, hi, hl⟩ := exists_of_mem_mapM h hf
    obtain ⟨e, he, hin⟩ := List.mem_filterMap.mp hi
    exact ⟨e, he, i, hin, lookupOrRaise_eq_ok.mp hl⟩
  · rintro ⟨e, he, i, hin, hl⟩
    obtain ⟨g, hg, hl'⟩ := mem_mapM_of_mem h (List.mem_filterMap.mpr ⟨e, he, hin⟩)
    rw [lookupOrRaise_eq_ok, hl, Option.some.injEq] at hl'
    rw [hl']
    exact hg

def PinnedAt (assignment : InstanceAssignment) (endpoints : List Endpoint) (f : String) : Prop :=
  ∃ e ∈ endpoints, ∃ i, e.inst = some i ∧ assignment.lookup i = some f

/-- A cut is a net of the design; its sources are the FPGAs of its drivers, and it is delivered to
the FPGAs that have a sink of it and no driver. -/
structure IsCut (assignment : InstanceAssignment) (net : Net) (cut : CutNet) : Prop where
  net_eq : cut.net = net.id
  class_eq : cut.cutClass = some net.cutClass.text
  mem_source : ∀ f, f ∈ cut.sourceFpgas ↔ PinnedAt assignment net.drivers f
  mem_sink : ∀ f, f ∈ cut.sinkFpgas ↔
    PinnedAt assignment net.sinks f ∧ ¬ PinnedAt assignment net.drivers f
  sink_nodup : cut.sinkFpgas.Nodup

theorem cutOf_eq_some {driverFpgas sinkFpgas : List String} {cut : CutNet}
    (h : cutOf net driverFpgas sinkFpgas = some cut) :
    cut = { net := net.id
            cutClass := some net.cutClass.text
            sourceFpgas := driverFpgas
            sinkFpgas := sinkFpgas.filter fun f => f ∉ driverFpgas
            transportRound := if net.cutClass = .registerInput then some 1 else none } := by
  unfold cutOf at h
  dsimp only at h
  split at h
  · cases h
  · split at h
    · cases h
    · split at h
      · cases h
      · exact (Option.some.inj h).symm

/-- Every cut stands for a net of the design. -/
theorem mem_computeCutNets (h : computeCutNets ir assignment = .ok cuts) {cut : CutNet}
    (hc : cut ∈ cuts) : ∃ net ∈ ir.nets, IsCut assignment net cut := by
  obtain ⟨found, hf, h⟩ := bind_eq_ok.mp h
  rw [← Except.ok.inj h, mem_sortedBy, List.mem_filterMap] at hc
  obtain ⟨o, ho, rfl⟩ := hc
  obtain ⟨net, hn, hc⟩ := exists_of_mem_mapM hf ho
  obtain ⟨drivers, hd, hc⟩ := bind_eq_ok.mp hc
  obtain ⟨sinks, hs, hc⟩ := bind_eq_ok.mp hc
  refine ⟨net, hn, ?_⟩
  rw [cutOf_eq_some (Except.ok.inj hc)]
  refine ⟨rfl, rfl, fun f => ?_, fun f => ?_, ?_⟩
  · rw [mem_sortedSet]
    exact mem_endpointFpgas hd
  · rw [List.mem_filter, mem_sortedSet, decide_eq_true_eq, mem_sortedSet, mem_endpointFpgas hs,
      mem_endpointFpgas hd]
    rfl
  · exact (nodup_sortedSet _).filter _

theorem nodup_computeCutNets (h : computeCutNets ir assignment = .ok cuts) :
    (cuts.map CutNet.net).Nodup := by
  obtain ⟨found, hf, h⟩ := bind_eq_ok.mp h
  rw [← Except.ok.inj h, ((sortedBy_perm CutNet.net _).map CutNet.net).nodup_iff]
  have hn : ∀ net found cut, netCut assignment net = .ok found → id found = some cut →
      cut.net = net.id := by
    intro net found cut hf hc
    obtain ⟨drivers, -, hf⟩ := bind_eq_ok.mp hf
    obtain ⟨sinks, -, hf⟩ := bind_eq_ok.mp hf
    rw [← Except.ok.inj hf] at hc
    rw [cutOf_eq_some hc]
  exact (sublist_of_mapM hn hf).nodup ir.net_ids_nodup

/-!
## The cut nets with their metrics

`compute_cut_nets` of `emuflow/partition.py` again, with the numbers of endpoints and the metrics
that the flow reports.
-/

/-- An entry of `cut_nets`, with the number of its remote sinks. -/
structure CutRecord where
  net : String
  cutClass : CutClass
  sourceFpgas : List String
  sinkFpgas : List String
  sinkEndpoints : ℕ
  transportRound : Option Int
  deriving DecidableEq

/-- The metrics; the last one stands with `transport_rounds` and `round_barriers`, which are fixed
numbers, and none of the three is there without a cut register input. -/
structure CutMetrics where
  cutNets : ℕ
  cutSinkEndpoints : ℕ
  replicatedPrimaryInputs : ℕ
  globalNets : ℕ
  registerInputCutNets : Option ℕ
  deriving DecidableEq

structure NetOutcome where
  cut : Option CutRecord := none
  replicatedPrimaryInput : Bool := false
  globalNet : Bool := false

def cutMetrics (outcomes : List NetOutcome) : CutMetrics :=
  let cuts := outcomes.filterMap NetOutcome.cut
  let registerInputs := cuts.countP fun cut => cut.cutClass = .registerInput
  { cutNets := cuts.length
    cutSinkEndpoints := (cuts.map CutRecord.sinkEndpoints).sum
    replicatedPrimaryInputs := outcomes.countP NetOutcome.replicatedPrimaryInput
    globalNets := outcomes.countP NetOutcome.globalNet
    registerInputCutNets := if registerInputs = 0 then none else some registerInputs }

/-- The cut of a net with these driver FPGAs and these sinks, one FPGA for each of them, unless no
FPGA in `remote` is to be delivered. -/
def cutRecord (net : Net) (driverFpgas sinks remote : List String) : Option CutRecord :=
  if remote = [] then none
  else some
    { net := net.id
      cutClass := net.cutClass
      sourceFpgas := driverFpgas
      sinkFpgas := remote
      sinkEndpoints := (remote.map fun f => sinks.count f).sum
      transportRound := if net.cutClass = .registerInput then some 1 else none }

/-- One turn of the loop of `compute_cut_nets`, with the FPGAs of the drivers and of the sinks. -/
def netOutcome (net : Net) (drivers sinks : List String) : NetOutcome :=
  let driverFpgas := sortedSet drivers
  let sinkFpgas := sortedSet sinks
  if net.cutClass = .clock ∨ net.cutClass = .reset then
    { globalNet := 1 < (sortedSet (drivers ++ sinks)).length }
  else if driverFpgas = [] ∧ net.cutClass = .undriven then {}
  else if driverFpgas = [] ∧ net.cutClass = .primaryInput then
    { replicatedPrimaryInput := 1 < sinkFpgas.length }
  else { cut := cutRecord net driverFpgas sinks (sinkFpgas.filter fun f => f ∉ driverFpgas) }

def cutTurn (assignment : InstanceAssignment) (net : Net) : Result NetOutcome := do
  let drivers ← endpointFpgas assignment net.drivers
  let sinks ← endpointFpgas assignment net.sinks
  return netOutcome net drivers sinks

def computeCutNetsWithMetrics (ir : EmuIR) (assignment : InstanceAssignment) :
    Result (List CutRecord × CutMetrics) := do
  let outcomes ← ir.nets.mapM (cutTurn assignment)
  return (sortedBy CutRecord.net (outcomes.filterMap NetOutcome.cut), cutMetrics outcomes)

/-- An entry without the number of its remote sinks. -/
def CutRecord.toCutNet (record : CutRecord) : CutNet where
  net := record.net
  cutClass := some record.cutClass.text
  sourceFpgas := record.sourceFpgas
  sinkFpgas := record.sinkFpgas
  transportRound := record.transportRound

theorem map_cut_netOutcome (net : Net) (drivers sinks : List String) :
    (netOutcome net drivers sinks).cut.map CutRecord.toCutNet =
      cutOf net (sortedSet drivers) (sortedSet sinks) := by
  unfold netOutcome cutOf
  dsimp only
  by_cases hg : net.cutClass = .clock ∨ net.cutClass = .reset
  · rw [if_pos hg, if_pos hg]
    rfl
  rw [if_neg hg, if_neg hg]
  by_cases hu : sortedSet drivers = [] ∧ net.cutClass = .undriven
  · rw [if_pos hu, if_pos ⟨hu.1, .inl hu.2⟩]
    rfl
  rw [if_neg hu]
  by_cases hi : sortedSet drivers = [] ∧ net.cutClass = .primaryInput
  · rw [if_pos hi, if_pos ⟨hi.1, .inr hi.2⟩]
    rfl
  rw [if_neg hi, if_neg fun h => h.2.elim (hu ⟨h.1, ·⟩) (hi ⟨h.1, ·⟩), cutRecord]
  split <;> rfl

/-- The two readings of the source's one function agree. -/
theorem computeCutNets_eq {records : List CutRecord} {metrics : CutMetrics}
    (h : computeCutNetsWithMetrics ir assignment = .ok (records, metrics)) :
    computeCutNets ir assignment = .ok (records.map CutRecord.toCutNet) := by
  obtain ⟨outcomes, htr, heq⟩ := bind_eq_ok.mp h
  cases heq
  have hc : ir.nets.mapM (netCut assignment) =
      .ok (outcomes.map fun outcome => outcome.cut.map CutRecord.toCutNet) := by
    refine mapM_eq_ok_of_mapM (fun net outcome ht => ?_) htr
    obtain ⟨drivers, hd, ht⟩ := bind_eq_ok.mp ht
    obtain ⟨sinks, hsn, ht⟩ := bind_eq_ok.mp ht
    cases ht
    exact bind_eq_ok.mpr ⟨drivers, hd, bind_eq_ok.mpr
      ⟨sinks, hsn, congrArg Except.ok (map_cut_netOutcome net drivers sinks).symm⟩⟩
  refine bind_eq_ok.mpr ⟨_, hc, congrArg Except.ok ?_⟩
  have hs : (sortedBy CutRecord.net (outcomes.filterMap NetOutcome.cut)).map
      CutRecord.toCutNet =
        sortedBy CutNet.net ((outcomes.filterMap NetOutcome.cut).map CutRecord.toCutNet) := by
    refine map_sortedBy (fun record => ?_) _
    rfl
  rw [hs, List.filterMap_map, List.map_filterMap]
  rfl

end EmuFlow.Partition
