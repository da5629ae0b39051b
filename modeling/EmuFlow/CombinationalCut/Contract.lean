import EmuFlow.CombinationalCut.Dependencies

/-!
# The exact-cut contract

`build_static_exact_semantic_contract` of `emuflow/combinational_cut.py`: the captures that each
delivery of a cut can reach, the logic segments between launches, cuts and captures, and the records
of the cuts. The hashes of `source_identity` and the counts of `metrics` are left out.
-/

namespace EmuFlow.CombinationalCut

open Check SortedSet Routing EmuFlow.Partition List

/-! ## captures -/

structure Capture where
  cutNet : String
  fpga : String
  kind : String
  endpoint : String
  /-- Only a state input has a port and a bit. -/
  pin : Option (String × Nat)
  deriving DecidableEq

def stateCapture (cutNet fpga inst : String) (e : Endpoint) : Capture :=
  { cutNet := cutNet, fpga := fpga, kind := "architectural-state", endpoint := inst
    pin := some (e.port, e.bit) }

def topCapture (cutNet fpga : String) (e : Endpoint) : Capture :=
  { cutNet := cutNet, fpga := fpga, kind := "top-output"
    endpoint := "top:" ++ e.port ++ "[" ++ toString e.bit ++ "]", pin := none }

def sinkAt (assignment : InstanceAssignment) (fpga : String) (e : Endpoint) : Bool :=
  e.inst.any fun i => decide (assignment.lookup i = some fpga)

def ownedDownstream (assignment : InstanceAssignment) (cuts : List CutNet)
    (fpga : String) (net : Net)
    (e : Endpoint) : Bool :=
  match Keyed.find CutNet.net cuts net.id with
  | some cut => decide (cut.sourceFpgas.head? = some fpga) && e.inst.isSome &&
      !sinkAt assignment fpga e
  | none => false

def followed (assignment : InstanceAssignment) (cuts : List CutNet) (fpga : String) (net : Net) :
    List Endpoint :=
  net.sinks.filter fun e => !ownedDownstream assignment cuts fpga net e

def captureSearch (ir : EmuIR) (assignment : InstanceAssignment) (cuts : List CutNet)
    (cutNet fpga : String) : Worklist.Search EmuFlowError Endpoint Capture String where
  mark e := e.inst.filter fun i => !isState ir i
  expand e :=
    match e.inst with
    | none => .error (ValidationError "exact capture endpoint is unexpectedly top-level")
    | some i =>
      if isState ir i then .ok ([], [stateCapture cutNet fpga i e])
      else .ok
        ((ir.outgoing i).flatMap fun n =>
            (followed assignment cuts fpga n).filter (sinkAt assignment fpga),
          (ir.outgoing i).flatMap fun n =>
            ((followed assignment cuts fpga n).filter fun e => e.inst = none).map
              (topCapture cutNet fpga))

def fpgaCaptures (ir : EmuIR) (assignment : InstanceAssignment) (cuts : List CutNet) (net : Net)
    (fpga : String) : Result (List Capture) := do
  let start := net.sinks.filter (sinkAt assignment fpga)
  let found ← (captureSearch ir assignment cuts net.id fpga).run
    (searchFuel ir start.length) start
  return ((net.sinks.filter fun e => e.inst = none).map (topCapture net.id fpga)) ++ found

def cutCaptures (ir : EmuIR) (assignment : InstanceAssignment) (cuts : List CutNet) (cut : CutNet) :
    Result (List Capture) := do
  let net ← lookupOrRaise cut.net (ir.findNet cut.net)
  let found ← (sorted cut.sinkFpgas).mapM (fpgaCaptures ir assignment cuts net)
  return found.flatten

/-- The order of the records: `(cut_net, fpga, kind, endpoint, port, bit)`. -/
def Capture.key (c : Capture) :
    String ×ₗ String ×ₗ String ×ₗ String ×ₗ String ×ₗ Nat :=
  lex c.cutNet (lex c.fpga (lex c.kind (lex c.endpoint
    (lex ((c.pin.map Prod.fst).getD "") ((c.pin.map Prod.snd).getD 0)))))

/-! ## numbered records -/

/-- `f"{tag}{index:06d}"`. -/
def indexedId (tag : String) (index : Nat) : String :=
  tag ++ String.ofList
    (List.replicate (6 - (Nat.toDigits 10 index).length) '0' ++ Nat.toDigits 10 index)

def numbered {α : Type} (tag : String) (records : List (String → α)) : List α :=
  records.zipIdx.map fun record => record.1 (indexedId tag record.2)

theorem exists_numbered {α : Type} (tag : String) {records : List (String → α)} {f : String → α}
    (hf : f ∈ records) : ∃ id, f id ∈ numbered tag records := by
  obtain ⟨index, hin, rfl⟩ := mem_iff_getElem.mp hf
  refine ⟨indexedId tag index, mem_map.mpr ⟨(records[index], index), ?_, rfl⟩⟩
  rw [List.mem_zipIdx_iff_getElem?]
  exact List.getElem?_eq_getElem hin

variable {tag : String}

theorem of_mem_numbered {α : Type} {records : List (String → α)} {a : α}
    (ha : a ∈ numbered tag records) : ∃ f ∈ records, ∃ id, a = f id := by
  obtain ⟨⟨f, index⟩, hf, rfl⟩ := mem_map.mp ha
  rw [List.mem_zipIdx_iff_getElem?] at hf
  exact ⟨f, mem_of_getElem? hf, _, rfl⟩

theorem indexedId_inj {a b : Nat} (h : indexedId tag a = indexedId tag b) : a = b := by
  have hl := congrArg String.toList h
  simp only [indexedId, String.toList_append, String.toList_ofList] at hl
  have hd := congrArg (fun l => Nat.ofDigitChars 10 l 0) (append_cancel_left hl)
  simpa only [Nat.ofDigitChars_append, Nat.ofDigitChars_replicate_zero, Nat.mul_zero,
    Nat.ofDigitChars_ten_toDigits] using hd

theorem indexedId_ne_empty {index : Nat} (h : tag ≠ "") : indexedId tag index ≠ "" := by
  intro hem
  have hl := congrArg String.toList hem
  rw [indexedId, String.toList_append, String.toList_empty, append_eq_nil_iff] at hl
  exact h (String.toList_eq_nil_iff.mp hl.1)

section Numbered

variable {α β : Type} {tag : String} {records : List (String → α)}

theorem nodup_numbered {key : α → String} (h : ∀ f ∈ records, ∀ id, key (f id) = id) :
    ((numbered tag records).map key).Nodup := by
  have hk : (numbered tag records).map key =
      (records.zipIdx.map Prod.snd).map (indexedId tag) := by
    unfold numbered
    rw [map_map, map_map]
    refine map_congr_left fun record hr => ?_
    exact h record.1 (fst_mem_of_mem_zipIdx hr) _
  rw [hk, zipIdx_map_snd]
  exact (nodup_range').map fun a b => indexedId_inj

theorem filterMap_numbered {g : α → Option β} {k : (String → α) → Option β}
    (h : ∀ f ∈ records, ∀ id, g (f id) = k f) :
    (numbered tag records).filterMap g = records.filterMap k := by
  unfold numbered
  rw [filterMap_map]
  calc records.zipIdx.filterMap (g ∘ fun record => record.1 (indexedId tag record.2))
      = records.zipIdx.filterMap (k ∘ Prod.fst) :=
        filterMap_congr fun record hr => h record.1 (fst_mem_of_mem_zipIdx hr) _
    _ = (records.zipIdx.map Prod.fst).filterMap k := filterMap_map.symm
    _ = records.filterMap k := by rw [zipIdx_map_fst]

theorem countP_numbered {p : α → Bool} {q : (String → α) → Bool}
    (h : ∀ f ∈ records, ∀ id, p (f id) = q f) :
    (numbered tag records).countP p = records.countP q := by
  unfold numbered
  rw [countP_map]
  calc records.zipIdx.countP (p ∘ fun record => record.1 (indexedId tag record.2))
      = records.zipIdx.countP (q ∘ Prod.fst) :=
        countP_congr fun record hr => by
          rw [Function.comp_apply, Function.comp_apply, h record.1 (fst_mem_of_mem_zipIdx hr)]
    _ = (records.zipIdx.map Prod.fst).countP q := countP_map.symm
    _ = records.countP q := by rw [zipIdx_map_fst]

end Numbered

/-- An entry of `capture_requirements`. -/
structure CaptureRecord where
  id : String
  capture : Capture
  deriving DecidableEq

def CaptureRecord.requirement (record : CaptureRecord) : CaptureRequirement :=
  { id := record.id, cutNet := record.capture.cutNet, fpga := record.capture.fpga }

def captureRecords (captures : List Capture) : List CaptureRecord :=
  numbered "capture"
    ((sortedBy Capture.key captures.dedup).map fun capture id => { id := id, capture := capture })

/-! ## logic segments -/

def sourceFpga (cuts : List CutNet) (net : String) : Option String :=
  (Keyed.find CutNet.net cuts net).bind fun cut => cut.sourceFpgas.head?

/-- A cone with a launch, or one that nothing feeds: it is stable from configuration. -/
def launchSegment (cuts : List CutNet) (s : CutSources) (id : String) : LogicSegment :=
  { id := id
    kind := "launch_to_tx"
    fpga := sourceFpga cuts s.net
    sinkCutNet := some s.net
    sourceSemantics :=
      if s.localLaunch = false ∧ s.predecessors = [] then some "configuration-stable-constant"
      else none }

def dependencySegment (cuts : List CutNet) (source sink : String) (id : String) : LogicSegment :=
  { id := id
    kind := "rx_to_tx"
    fpga := sourceFpga cuts sink
    sourceCutNet := some source
    sinkCutNet := some sink }

def captureSegment (record : CaptureRecord) (id : String) : LogicSegment :=
  { id := id
    kind := "rx_to_capture"
    fpga := some record.capture.fpga
    sourceCutNet := some record.capture.cutNet
    captureRequirement := some record.id }

/-- `logic_segments`. Predecessors do not suppress the launch: a cone may be fed by both. -/
def logicSegments (cuts : List CutNet) (sources : List CutSources) (records : List CaptureRecord) :
    List LogicSegment :=
  numbered "segment"
    (((sources.filter fun s => s.localLaunch ∨ s.predecessors = []).map (launchSegment cuts)) ++
      (sources.flatMap fun s =>
        s.predecessors.map fun source => dependencySegment cuts source s.net) ++
      records.map captureSegment)

/-- `source_segment_ids`: the launch, then the segments from the predecessors in their order. -/
def sourceSegmentIds (segments : List LogicSegment) (net : String) : List String :=
  (segments.filter fun s => s.sinkCutNet = some net).map LogicSegment.id

def cutNode (ir : EmuIR) (segments : List LogicSegment) (analysis : CutAnalysis) (cut : CutNet) :
    CutNode :=
  let level := Keyed.find CutLevel.net analysis.levels cut.net
  { net := cut.net
    cutClass := (ir.findNet cut.net).map fun net => net.cutClass.text
    sourceFpgas := cut.sourceFpgas
    sinkFpgas := cut.sinkFpgas
    dependencyLevel := level.map fun l => (l.dependencyLevel : Int)
    combinationalDependencyDepth := level.map fun l => (l.combinationalDepth : Int)
    predecessorCutNets := some (cutPredecessors analysis.sources cut.net)
    sourceSegmentIds := some (sourceSegmentIds segments cut.net) }

/-- The contract that the later phases read, with the full capture records. -/
structure SemanticContract extends Contract where
  maxCrossFpgaDependencyDepth : Nat
  captures : List CaptureRecord
  deriving DecidableEq

def buildStaticExactSemanticContract (ir : EmuIR) (assignment : InstanceAssignment)
    (cuts : List CutNet) (maxDependencyDepth : Nat) (candidateSelectionPolicy : String) :
    Result SemanticContract := do
  let analysis ← analyzeStaticExactDependencies ir assignment cuts maxDependencyDepth
    candidateSelectionPolicy
  let found ← (sortedBy CutNet.net cuts).mapM (cutCaptures ir assignment cuts)
  let records := captureRecords found.flatten
  let segments := logicSegments cuts analysis.sources records
  return { schema := STATIC_EXACT_STRUCTURAL_CONTRACT_SCHEMA
           mode := "static-exact-combinational"
           qualification := "structural-partition-legality"
           candidateSelectionPolicy := some candidateSelectionPolicy
           cutNodes := (sortedBy CutNet.net cuts).map (cutNode ir segments analysis)
           logicSegments := segments
           captureRequirements := records.map CaptureRecord.requirement
           dependencyEdges := analysis.sources.flatMap fun s =>
             s.predecessors.map fun source => (source, s.net)
           maximumCombinationalDependencyDepth := analysis.maximumDepth
           maxCrossFpgaDependencyDepth := maxDependencyDepth
           captures := records }

/-! ## the segments of a contract -/

def SemanticContract.LaunchesTo (contract : SemanticContract) (c fpga : String) : Prop :=
  ∃ s ∈ contract.logicSegments, s.kind = "launch_to_tx" ∧ s.sinkCutNet = some c ∧ s.fpga = some fpga

/-- The contract has the segment from the receiver of one cut to the transmitter of another. -/
def SemanticContract.Transfers (contract : SemanticContract) (p c fpga : String) : Prop :=
  ∃ s ∈ contract.logicSegments, s.kind = "rx_to_tx" ∧ s.sourceCutNet = some p ∧
    s.sinkCutNet = some c ∧ s.fpga = some fpga

def SemanticContract.Captures (contract : SemanticContract) (c fpga : String) (capture : Capture) :
    Prop :=
  ∃ record ∈ contract.captures, record.capture = capture ∧
    ∃ s ∈ contract.logicSegments, s.kind = "rx_to_capture" ∧ s.sourceCutNet = some c ∧
      s.fpga = some fpga ∧ s.captureRequirement = some record.id

section Segments

variable {cuts : List CutNet} {sources : List CutSources} {records : List CaptureRecord}
  {segment : LogicSegment}

theorem mem_logicSegments (h : segment ∈ logicSegments cuts sources records) :
    (∃ s ∈ sources, (s.localLaunch ∨ s.predecessors = []) ∧
        ∃ id, segment = launchSegment cuts s id) ∨
      (∃ s ∈ sources, ∃ p ∈ s.predecessors, ∃ id, segment = dependencySegment cuts p s.net id) ∨
      ∃ record ∈ records, ∃ id, segment = captureSegment record id := by
  obtain ⟨f, hf, id, rfl⟩ := of_mem_numbered h
  rcases List.mem_append.mp hf with hf | hf
  · rcases List.mem_append.mp hf with hf | hf
    · obtain ⟨s, hs, rfl⟩ := mem_map.mp hf
      obtain ⟨hs, hl⟩ := mem_filter.mp hs
      exact Or.inl ⟨s, hs, of_decide_eq_true hl, id, rfl⟩
    · obtain ⟨s, hs, hf⟩ := mem_flatMap.mp hf
      obtain ⟨p, hp, rfl⟩ := mem_map.mp hf
      exact Or.inr (Or.inl ⟨s, hs, p, hp, id, rfl⟩)
  · obtain ⟨record, hr, rfl⟩ := mem_map.mp hf
    exact Or.inr (Or.inr ⟨record, hr, id, rfl⟩)

variable (cuts records) in
theorem exists_launchSegment {s : CutSources} (hs : s ∈ sources)
    (hl : s.localLaunch ∨ s.predecessors = []) :
    ∃ id, launchSegment cuts s id ∈ logicSegments cuts sources records :=
  exists_numbered _ (mem_append_left _ (mem_append_left _
    (mem_map_of_mem (mem_filter.mpr ⟨hs, decide_eq_true hl⟩))))

variable (cuts records) in
theorem exists_dependencySegment {s : CutSources} {p : String} (hs : s ∈ sources)
    (hp : p ∈ s.predecessors) :
    ∃ id, dependencySegment cuts p s.net id ∈ logicSegments cuts sources records :=
  exists_numbered _ (mem_append_left _ (mem_append_right _
    (mem_flatMap.mpr ⟨s, hs, mem_map_of_mem hp⟩)))

variable {record : CaptureRecord}

variable (cuts sources) in
theorem exists_captureSegment (h : record ∈ records) :
    ∃ id, captureSegment record id ∈ logicSegments cuts sources records :=
  exists_numbered _ (mem_append_right _ (mem_map_of_mem h))

variable {captures : List Capture}

theorem exists_captureRecord {c : Capture} (h : c ∈ captures) :
    ∃ record ∈ captureRecords captures, record.capture = c := by
  have hm : c ∈ sortedBy Capture.key captures.dedup := mem_sortedBy.mpr (mem_dedup.mpr h)
  obtain ⟨id, hid⟩ := exists_numbered "capture" (mem_map_of_mem
    (f := fun capture id => ({ id := id, capture := capture } : CaptureRecord)) hm)
  exact ⟨_, hid, rfl⟩

theorem mem_captureRecords (h : record ∈ captureRecords captures) : record.capture ∈ captures := by
  obtain ⟨f, hf, id, rfl⟩ := of_mem_numbered h
  obtain ⟨c, hc, rfl⟩ := mem_map.mp hf
  exact mem_dedup.mp (mem_sortedBy.mp hc)

end Segments

/-! ## what a delivery reaches -/

inductive Fed (ir : EmuIR) (assignment : InstanceAssignment) (cuts : List CutNet) (fpga : String) :
    Feed → String → Prop
  | cut {j : String} {n : Net} (hat : assignment.lookup j = some fpga)
    (hlogic : isState ir j = false)
      (hn : n ∈ ir.incoming j) (hremote : delivered cuts fpga n = true) :
      Fed ir assignment cuts fpga (.cut n.id) j
  | top {j : String} {n : Net} {e : Endpoint} (hat : assignment.lookup j = some fpga)
      (hlogic : isState ir j = false) (hn : n ∈ ir.incoming j)
        (hlocal : delivered cuts fpga n = false)
      (he : e ∈ n.drivers) (htop : e.inst = none) : Fed ir assignment cuts fpga .launch j
  | state {i j : String} {n : Net} (hat : assignment.lookup j = some fpga)
      (hlogic : isState ir j = false) (hstate : isState ir i = true)
      (hi : assignment.lookup i = some fpga) (hout : n ∈ ir.outgoing i) (hn : n ∈ ir.incoming j) :
      Fed ir assignment cuts fpga .launch j
  | step {feed : Feed} {i j : String} {n : Net} (h : Fed ir assignment cuts fpga feed i)
      (hat : assignment.lookup j = some fpga) (hlogic : isState ir j = false)
      (hout : n ∈ ir.outgoing i) (hn : n ∈ ir.incoming j) : Fed ir assignment cuts fpga feed j

section

variable {ir : EmuIR} {assignment : InstanceAssignment} {cuts : List CutNet} {fpga i : String}
  {feed : Feed} (h : Fed ir assignment cuts fpga feed i)
include h

theorem Fed.at_fpga : assignment.lookup i = some fpga := by
  cases h with
  | cut hat => exact hat
  | top hat => exact hat
  | state hat => exact hat
  | step _ hat => exact hat

theorem Fed.logic : isState ir i = false := by
  cases h with
  | cut _ hlogic => exact hlogic
  | top _ hlogic => exact hlogic
  | state _ hlogic => exact hlogic
  | step _ _ hlogic => exact hlogic

end

/-- The pins that a delivery of the net to the FPGA comes to: its own sinks, and those of the nets
that the logic it feeds there drives. -/
def Branch (ir : EmuIR) (assignment : InstanceAssignment) (cuts : List CutNet) (net : Net)
    (fpga : String) (e : Endpoint) : Prop :=
  e ∈ net.sinks ∨
    ∃ i, Fed ir assignment cuts fpga (.cut net.id) i ∧ ∃ n ∈ ir.outgoing i, e ∈ n.sinks

def endpointCapture (ir : EmuIR) (assignment : InstanceAssignment) (cutNet fpga : String)
    (e : Endpoint) : Option Capture :=
  match e.inst with
  | none => some (topCapture cutNet fpga e)
  | some i =>
    if isState ir i = true ∧ assignment.lookup i = some fpga then
      some (stateCapture cutNet fpga i e)
    else none

section Captures

variable {ir : EmuIR} {assignment : InstanceAssignment} {cuts : List CutNet} {net : Net}
  {cutNet fpga : String} {e : Endpoint} {c : Capture}

theorem endpointCapture_place (h : endpointCapture ir assignment cutNet fpga e = some c) :
    c.cutNet = cutNet ∧ c.fpga = fpga := by
  unfold endpointCapture at h
  split at h
  · rw [← Option.some.inj h]
    exact ⟨rfl, rfl⟩
  · split at h
    · rw [← Option.some.inj h]
      exact ⟨rfl, rfl⟩
    · cases h

theorem sinkAt_iff : sinkAt assignment fpga e = true ↔
    ∃ i, e.inst = some i ∧ assignment.lookup i = some fpga := by
  unfold sinkAt
  cases e.inst with
  | none => simp
  | some i => simp

theorem mem_followed (h : sinkAt assignment fpga e = true ∨ e.inst = none) :
    e ∈ followed assignment cuts fpga net ↔ e ∈ net.sinks := by
  unfold followed
  rw [mem_filter]
  refine and_iff_left ?_
  unfold ownedDownstream
  cases Keyed.find CutNet.net cuts net.id with
  | none => rfl
  | some cut =>
    rcases h with h | h
    · simp [h]
    · simp [h]

variable {i : String}

theorem captureSearch_mark : (captureSearch ir assignment cuts cutNet fpga).mark e = some i ↔
      e.inst = some i ∧ isState ir i = false := by
  unfold captureSearch
  dsimp only
  rw [Option.filter_eq_some_iff, Bool.not_eq_true']

variable {next : List Endpoint} {out : List Capture}

theorem captureSearch_expand_state (hi : e.inst = some i) (hstate : isState ir i = true) :
    (captureSearch ir assignment cuts cutNet fpga).expand e = .ok (next, out) ↔
      (next, out) = ([], [stateCapture cutNet fpga i e]) := by
  simp only [captureSearch, hi, hstate, if_true, Except.ok.injEq]
  exact eq_comm

theorem captureSearch_expand_logic (hi : e.inst = some i) (hlogic : isState ir i = false) :
    (captureSearch ir assignment cuts cutNet fpga).expand e = .ok (next, out) ↔ (next, out) =
        ((ir.outgoing i).flatMap fun n =>
            (followed assignment cuts fpga n).filter (sinkAt assignment fpga),
          (ir.outgoing i).flatMap fun n =>
            ((followed assignment cuts fpga n).filter fun e => e.inst = none).map
              (topCapture cutNet fpga)) := by
  simp only [captureSearch, hi, hlogic, Bool.false_eq_true, if_false, Except.ok.injEq]
  exact eq_comm

theorem captureSearch_expand_top (hi : e.inst = none) :
    (captureSearch ir assignment cuts cutNet fpga).expand e ≠ .ok (next, out) := by
  simp only [captureSearch, hi]
  intro h
  cases h

theorem captureSearch_uniform : (captureSearch ir assignment cuts cutNet fpga).Uniform where
  same := by
    intro a b k ha hb
    obtain ⟨ha, -⟩ := captureSearch_mark.mp ha
    obtain ⟨hb, hlogic⟩ := captureSearch_mark.mp hb
    simp only [captureSearch, ha, hb, hlogic, Bool.false_eq_true, if_false]
  leaf := by
    intro a next out ha hex
    cases hi : a.inst with
    | none => exact absurd hex (captureSearch_expand_top hi)
    | some i =>
      cases hstate : isState ir i with
      | false => rw [captureSearch_mark.mpr ⟨hi, hstate⟩] at ha; cases ha
      | true => exact (Prod.mk.inj ((captureSearch_expand_state hi hstate).mp hex)).1

theorem length_flatMap_outgoing_le {f : Net → List Endpoint}
    (hf : ∀ n, (f n).length ≤ n.sinks.length) :
    ((ir.outgoing i).flatMap f).length ≤ pinPairs ir := by
  unfold pinPairs EmuIR.outgoing
  induction ir.nets with
  | nil => simp
  | cons n nets ih =>
    rw [flatMap_cons, flatMap_append, length_append, map_cons, sum_cons]
    refine Nat.add_le_add ?_ ih
    rw [flatMap_map, length_flatMap, map_const', sum_replicate, smul_eq_mul, Nat.mul_comm]
    exact Nat.mul_le_mul (hf n) (length_filter_le _ _)

theorem captureSearch_weight
    (h : (captureSearch ir assignment cuts cutNet fpga).expand e = .ok (next, out)) :
    next.length ≤ pinPairs ir := by
  cases hi : e.inst with
  | none => exact absurd h (captureSearch_expand_top hi)
  | some i =>
    cases hstate : isState ir i with
    | true =>
      rw [(Prod.mk.inj ((captureSearch_expand_state hi hstate).mp h)).1]
      exact Nat.zero_le _
    | false =>
      rw [(Prod.mk.inj ((captureSearch_expand_logic hi hstate).mp h)).1]
      exact length_flatMap_outgoing_le fun n =>
        (length_filter_le _ _).trans (length_filter_le _ _)

theorem delivered_iff : delivered cuts fpga net = true ↔
    ∃ cut, Keyed.find CutNet.net cuts net.id = some cut ∧ fpga ∈ cut.sinkFpgas := by
  unfold delivered
  cases Keyed.find CutNet.net cuts net.id with
  | none => simp
  | some cut => simp

/-- A pin of the net, or of a net that the fed logic drives, on logic of the FPGA: that is fed. -/
theorem Branch.fed (hnt : net ∈ ir.nets) (hremote : delivered cuts fpga net = true)
    (h : Branch ir assignment cuts net fpga e) (hi : e.inst = some i)
    (hat : assignment.lookup i = some fpga) (hlogic : isState ir i = false) :
    Fed ir assignment cuts fpga (.cut net.id) i := by
  rcases h with he | ⟨j, hj, n, hn, he⟩
  · exact .cut hat hlogic (EmuIR.mem_incoming.mpr ⟨hnt, e, he, hi⟩) hremote
  · exact .step hj hat hlogic hn (EmuIR.mem_incoming.mpr ⟨(EmuIR.mem_outgoing.mp hn).1, e, he, hi⟩)

theorem captureSearch_reached (hnt : net ∈ ir.nets) (hremote : delivered cuts fpga net = true)
    (h : (captureSearch ir assignment cuts net.id fpga).Reached
      (net.sinks.filter (sinkAt assignment fpga)) e) :
    Branch ir assignment cuts net fpga e ∧ sinkAt assignment fpga e = true := by
  induction h with
  | start hs =>
    obtain ⟨he, hat⟩ := mem_filter.mp hs
    exact ⟨Or.inl he, hat⟩
  | @step a b next out _ hex hb ih =>
    obtain ⟨hbr, hat⟩ := ih
    obtain ⟨i, hi, hat⟩ := sinkAt_iff.mp hat
    cases hstate : isState ir i with
    | true =>
      rw [(Prod.mk.inj ((captureSearch_expand_state hi hstate).mp hex)).1] at hb
      exact absurd hb not_mem_nil
    | false =>
      rw [(Prod.mk.inj ((captureSearch_expand_logic hi hstate).mp hex)).1] at hb
      obtain ⟨n, hn, hb⟩ := mem_flatMap.mp hb
      obtain ⟨hb, ha'⟩ := mem_filter.mp hb
      rw [mem_followed (Or.inl ha')] at hb
      exact ⟨Or.inr ⟨i, hbr.fed hnt hremote hi hat hstate, n, hn, hb⟩, ha'⟩

theorem fpgaCaptures_spec {captures : List Capture} (hnt : net ∈ ir.nets)
    (hremote : delivered cuts fpga net = true)
    (h : fpgaCaptures ir assignment cuts net fpga = .ok captures) :
    c ∈ captures ↔ ∃ e, Branch ir assignment cuts net fpga e ∧
      endpointCapture ir assignment net.id fpga e = some c := by
  obtain ⟨found, hfn, h⟩ := bind_eq_ok.mp h
  rw [← Except.ok.inj h]
  set search := captureSearch ir assignment cuts net.id fpga with hsr
  set start := net.sinks.filter (sinkAt assignment fpga) with hst
  have hun : ∀ {a : Endpoint} {k : String}, search.Reached start a → search.mark a = some k →
      k ∈ ir.instances.map Instance.id := by
    intro a k ha hk
    obtain ⟨hi, -⟩ := captureSearch_mark.mp hk
    obtain ⟨hbr, -⟩ := captureSearch_reached hnt hremote ha
    rcases hbr with he | ⟨_, _, n, hn, he⟩
    · exact EmuIR.exists_instance hnt (mem_append_right _ he) hi
    · exact EmuIR.exists_instance (EmuIR.mem_outgoing.mp hn).1 (mem_append_right _ he) hi
  have hfl : start.length + pinPairs ir * (ir.instances.map Instance.id).length ≤
      searchFuel ir start.length := by
    rw [length_map, searchFuel]
  obtain ⟨hcm, hsn⟩ :=
    Worklist.run_spec captureSearch_uniform hun captureSearch_weight hfl hfn
  -- the logic that the delivery feeds is reached through one of its pins
  have hfed : ∀ i, Fed ir assignment cuts fpga (.cut net.id) i →
      ∃ e, search.Reached start e ∧ e.inst = some i := by
    intro i hi
    generalize hfd : Feed.cut net.id = feed at hi
    induction hi with
    | cut hat hlogic hn hrm' =>
      obtain ⟨hmm, e, he, hin⟩ := EmuIR.mem_incoming.mp hn
      rw [← EmuIR.net_ext hnt hmm (Feed.cut.inj hfd)] at he
      exact ⟨e, .start (mem_filter.mpr ⟨he, sinkAt_iff.mpr ⟨_, hin, hat⟩⟩), hin⟩
    | top => cases hfd
    | state => cases hfd
    | @step feed i j n hi hat hlogic hout hn ih =>
      obtain ⟨e, hrc, hin⟩ := ih hfd
      obtain ⟨next, outs, hex, -⟩ := hcm e hrc
      obtain ⟨-, e', he', hin'⟩ := EmuIR.mem_incoming.mp hn
      have hat' : sinkAt assignment fpga e' = true := sinkAt_iff.mpr ⟨j, hin', hat⟩
      refine ⟨e', .step hrc hex ?_, hin'⟩
      rw [(Prod.mk.inj ((captureSearch_expand_logic hin hi.logic).mp hex)).1]
      exact mem_flatMap.mpr ⟨n, hout, mem_filter.mpr ⟨(mem_followed (Or.inl hat')).mpr he', hat'⟩⟩
  rw [List.mem_append, mem_map]
  constructor
  · rintro (⟨e, he, rfl⟩ | hc)
    · obtain ⟨he, htop⟩ := mem_filter.mp he
      refine ⟨e, Or.inl he, ?_⟩
      rw [endpointCapture, of_decide_eq_true htop]
    · obtain ⟨e, next, outs, hrc, hex, hc⟩ := hsn c hc
      obtain ⟨hbr, hat⟩ := captureSearch_reached hnt hremote hrc
      obtain ⟨i, hi, hat⟩ := sinkAt_iff.mp hat
      cases hstate : isState ir i with
      | true =>
        rw [(Prod.mk.inj ((captureSearch_expand_state hi hstate).mp hex)).2,
          mem_singleton] at hc
        refine ⟨e, hbr, ?_⟩
        rw [endpointCapture, hi, hc]
        exact if_pos ⟨hstate, hat⟩
      | false =>
        rw [(Prod.mk.inj ((captureSearch_expand_logic hi hstate).mp hex)).2] at hc
        obtain ⟨n, hn, hc⟩ := mem_flatMap.mp hc
        obtain ⟨e', he', rfl⟩ := mem_map.mp hc
        obtain ⟨he', htop⟩ := mem_filter.mp he'
        have htop : e'.inst = none := of_decide_eq_true htop
        rw [mem_followed (Or.inr htop)] at he'
        refine ⟨e', Or.inr ⟨i, hbr.fed hnt hremote hi hat hstate, n, hn, he'⟩, ?_⟩
        rw [endpointCapture, htop]
  · rintro ⟨e, hbr, hc⟩
    unfold endpointCapture at hc
    cases hi : e.inst with
    | none =>
      rw [hi] at hc
      cases hc
      rcases hbr with he | ⟨i, hfe, n, hn, he⟩
      · exact Or.inl ⟨e, mem_filter.mpr ⟨he, decide_eq_true hi⟩, rfl⟩
      · right
        obtain ⟨a, hrc, ha⟩ := hfed i hfe
        obtain ⟨next, outs, hex, hal⟩ := hcm a hrc
        refine hal _ ?_
        rw [(Prod.mk.inj ((captureSearch_expand_logic ha hfe.logic).mp hex)).2]
        exact mem_flatMap.mpr ⟨n, hn, mem_map.mpr ⟨e, mem_filter.mpr
          ⟨(mem_followed (Or.inr hi)).mpr he, decide_eq_true hi⟩, rfl⟩⟩
    | some i =>
      rw [hi] at hc
      dsimp only at hc
      split at hc
      · next hstate =>
        obtain ⟨hstate, hat⟩ := hstate
        cases hc
        right
        have hat' : sinkAt assignment fpga e = true := sinkAt_iff.mpr ⟨i, hi, hat⟩
        have hrc : search.Reached start e := by
          rcases hbr with he | ⟨j, hfj, n, hn, he⟩
          · exact .start (mem_filter.mpr ⟨he, hat'⟩)
          · obtain ⟨a, hrc, ha⟩ := hfed j hfj
            obtain ⟨next, outs, hex, -⟩ := hcm a hrc
            refine .step hrc hex ?_
            rw [(Prod.mk.inj ((captureSearch_expand_logic ha hfj.logic).mp hex)).1]
            exact mem_flatMap.mpr
              ⟨n, hn, mem_filter.mpr ⟨(mem_followed (Or.inl hat')).mpr he, hat'⟩⟩
        obtain ⟨next, outs, hex, hal⟩ := hcm e hrc
        refine hal _ ?_
        rw [(Prod.mk.inj ((captureSearch_expand_state hi hstate).mp hex)).2]
        exact mem_singleton_self _
      · cases hc

end Captures

end EmuFlow.CombinationalCut
