import EmuFlow.CombinationalCut.Paths
import EmuFlow.Tdm.Accepted

/-!
# Indexed certificates are conservative

A schedule under an indexed contract is certified from the routes alone, one under a full contract
from the logic segments. On one schedule, the indexed certificate implies the full one wherever the
segments are complete, with readiness no later and slack no smaller.
-/

namespace EmuFlow.Tdm

open Check SortedSet Routing TdmRatio List Keyed CombinationalCut Except

/-- `validate_tdm_schedule` up to its certificate: the mode, the ordered routes, and the state that
the certificate is computed from. -/
def scheduleRun (digests : Digests) (routes : RoutesArtifact) (platform : Platform)
    (schedule : TdmSchedule) (ratioPlan : Option RatioPlan) :
    Result (ScheduleMode × List Route × ProgressState) := do
  let (mode, ctx) ← scheduleContext digests routes platform schedule ratioPlan
  let tables ← checkEntries ctx schedule.entries
  let (ordered, _) ← orderRoutes mode routes.routes none ctx.plan
  let state ← ordered.foldlM
    (checkScheduledRoute (extendedSchedule schedule) mode tables.entries) ProgressState.start
  return (mode, ordered, state)

def fullReadiness (contract : Contract) (arrivals : ExactArrivals) (timing : TimingConstraints)
    (route : Route) : Result (Int × List SegmentEvidence) := do
  let node ← lookupOrRaise route.net (Keyed.find CutNode.net contract.cutNodes route.net)
  exactSourceReadiness node contract.logicSegments arrivals timing

def fullCertificate (contract : Contract) (ordered : List Route) (arrivals : ExactArrivals)
    (timing : TimingConstraints) :
    Result (List (Int × List SegmentEvidence) × List CaptureReadiness × Option Int) := do
  exactContractIndexes contract
  let readiness ← ordered.mapM (fullReadiness contract arrivals timing)
  let captures ← exactCaptureCertificate contract.logicSegments contract.captureRequirements
    arrivals
    timing
  return (readiness, captures)

def transferSource (segment : LogicSegment) : Option String :=
  if segment.kind = "rx_to_tx" then segment.sourceCutNet else none

/-- A segment that can be among the source segments of a cut: a launch, or a transfer from one of
its predecessors on its source FPGA. -/
def SourceSegment (node : CutNode) (segment : LogicSegment) : Prop :=
  segment.sinkCutNet = some node.net ∧ (segment.kind = "launch_to_tx" ∨ segment.kind = "rx_to_tx" ∧
    segment.fpga = node.sourceFpgas.head? ∧ ∃ p, segment.sourceCutNet = some p ∧
      p ∈ node.predecessorCutNets.getD [])

structure SourcesComplete (segments : List LogicSegment) (node : CutNode) : Prop where
  nonempty : node.sourceSegmentIds.getD [] ≠ []
  resolved : ∀ id ∈ node.sourceSegmentIds.getD [], ∃ segment,
    Keyed.find LogicSegment.id segments id = some segment ∧ SourceSegment node segment
  predecessors : sorted (node.predecessorCutNets.getD []) =
    sorted ((node.sourceSegmentIds.getD []).filterMap fun id =>
      (Keyed.find LogicSegment.id segments id).bind transferSource)

structure CaptureComplete (contract : Contract) (capture : CaptureRequirement) : Prop where
  segment : ∃ segment, (contract.logicSegments.filter fun s =>
      s.kind = "rx_to_capture" ∧ s.captureRequirement = some capture.id) = [segment] ∧
    segment.sourceCutNet = some capture.cutNet ∧ segment.fpga = some capture.fpga
  delivered : ∃ node ∈ contract.cutNodes, node.net = capture.cutNet ∧ capture.fpga ∈ node.sinkFpgas

/-- The segments of the contract are complete: the relation that an indexed contract leaves to the
partition. -/
structure RelationComplete (contract : Contract) : Prop where
  indexes : exactContractIndexes contract = .ok ()
  sources : ∀ node ∈ contract.cutNodes, SourcesComplete contract.logicSegments node
  captures : ∀ capture ∈ contract.captureRequirements, CaptureComplete contract capture

/-! ## budgets -/

section Segments

variable {node : CutNode} {segments : List LogicSegment} {arrivals : ExactArrivals}
  {timing : TimingConstraints} {id : String} {segment : LogicSegment}

variable (segment) in
theorem exists_budget (hsettle : 0 ≤ timing.settleSlots) :
    ∃ budget, sampledLogicSegmentBudgetSlots segment timing = .ok budget ∧
      budget ≤ timing.settleSlots := by
  unfold sampledLogicSegmentBudgetSlots
  split
  · exact ⟨0, rfl, hsettle⟩
  · exact ⟨timing.settleSlots, raiseIf_bind.mpr ⟨not_lt.mpr hsettle, rfl⟩, le_rfl⟩

def EvidenceBounded (node : CutNode) (arrivals : ExactArrivals) (timing : TimingConstraints)
    (evidence : SegmentEvidence) : Prop :=
  evidence.readySlot ≤ timing.settleSlots ∨ ∃ p ∈ node.predecessorCutNets.getD [],
    ∃ f, node.sourceFpgas.head? = some f ∧ ∃ arrival, arrivals.lookup (p, f) = some arrival ∧
      evidence.readySlot ≤ arrival + timing.settleSlots

theorem segmentEvidence_of (hsettle : 0 ≤ timing.settleSlots) {evidence : SegmentEvidence}
    (h : segmentEvidence node segments arrivals timing id = .ok evidence) :
    ∃ segment, Keyed.find LogicSegment.id segments id = some segment ∧ SourceSegment node segment ∧
      evidence.predecessor? = transferSource segment ∧
        EvidenceBounded node arrivals timing evidence := by
  unfold segmentEvidence at h
  split at h
  · cases h
  · next segment hfn =>
    refine ⟨segment, hfn, ?_⟩
    obtain ⟨budget, hbd, h⟩ := bind_eq_ok.mp h
    obtain ⟨budget', hbd', hle⟩ := exists_budget segment hsettle
    obtain rfl := ok.inj (hbd.symm.trans hbd')
    split at h
    · next hk =>
      obtain ⟨hs, h⟩ := raiseIf_bind.mp h
      rw [← ok.inj h]
      refine ⟨⟨not_not.mp hs, Or.inl hk⟩, ?_, Or.inl hle⟩
      rw [transferSource, hk]
      rfl
    · split at h
      · next hk =>
        obtain ⟨f, hf, h⟩ := bind_eq_ok.mp h
        rw [lookupOrRaise_eq_ok] at hf
        unfold transferEvidence at h
        split at h
        · cases h
        · next p hp =>
          obtain ⟨hg, h⟩ := raiseIf_bind.mp h
          push Not at hg
          obtain ⟨hs, hfp, hm⟩ := hg
          split at h
          · cases h
          · next arrival ha =>
            rw [← ok.inj h]
            refine ⟨⟨hs, Or.inr ⟨hk, hfp.trans hf.symm, p, hp, hm⟩⟩, ?_,
              Or.inr ⟨p, hm, f, hf, arrival, ha, ?_⟩⟩
            · rw [transferSource, if_pos hk, hp]
              rfl
            · exact Int.add_le_add_left hle arrival
      · cases h

section

variable (hsettle : 0 ≤ timing.settleSlots)
  (harrived : ∀ p ∈ node.predecessorCutNets.getD [], ∀ f, node.sourceFpgas.head? = some f →
    ∃ arrival, arrivals.lookup (p, f) = some arrival)
  (hsource : ∃ f, node.sourceFpgas.head? = some f)
include hsettle harrived hsource

theorem exists_segmentEvidence (hfn : Keyed.find LogicSegment.id segments id = some segment)
    (hs : SourceSegment node segment) :
    ∃ evidence, segmentEvidence node segments arrivals timing id = .ok evidence := by
  obtain ⟨budget, hbd, -⟩ := exists_budget segment hsettle
  obtain ⟨f, hf⟩ := hsource
  obtain ⟨hsn, hk⟩ := hs
  unfold segmentEvidence
  rw [hfn]
  refine exists_bind_eq_ok.mpr ⟨budget, hbd, ?_⟩
  rcases hk with hk | ⟨hk, hfp, p, hp, hm⟩
  · rw [if_pos hk]
    exact ⟨_, raiseIf_bind.mpr ⟨not_not.mpr hsn, rfl⟩⟩
  · rw [if_neg (by rw [hk]; decide), if_pos hk]
    refine exists_bind_eq_ok.mpr ⟨f, lookupOrRaise_eq_ok.mpr hf, ?_⟩
    obtain ⟨arrival, ha⟩ := harrived p hm f hf
    unfold transferEvidence
    rw [hp]
    refine exists_bind_eq_ok.mpr ⟨(), raiseIf_eq_ok.mpr ?_, ?_⟩
    · push Not
      exact ⟨hsn, hfp.trans hf, hm⟩
    · rw [ha]
      exact ⟨_, rfl⟩

theorem exactSourceReadiness_isOk_iff :
    (∃ r, exactSourceReadiness node segments arrivals timing = .ok r) ↔
      SourcesComplete segments node := by
  have hmp : ∀ {evidence : List SegmentEvidence},
      (node.sourceSegmentIds.getD []).mapM (segmentEvidence node segments arrivals timing) =
        .ok evidence →
      evidence.filterMap SegmentEvidence.predecessor? =
        (node.sourceSegmentIds.getD []).filterMap fun id =>
          (find LogicSegment.id segments id).bind transferSource := by
    intro evidence hev
    have hm := map_of_mapM (g := SegmentEvidence.predecessor?)
      (k := fun id => (find LogicSegment.id segments id).bind transferSource)
      (fun id e he => by
        obtain ⟨segment, hf, -, hp, -⟩ := segmentEvidence_of hsettle he
        rw [hp, hf]
        rfl) hev
    have hid := congrArg (List.filterMap id) hm
    rwa [filterMap_map, filterMap_map, Function.id_comp, Function.id_comp] at hid
  constructor
  · rintro ⟨⟨ready, evidence'⟩, h⟩
    obtain ⟨evidence, hev, h⟩ := bind_eq_ok.mp h
    obtain ⟨hne, h⟩ := raiseIf_bind.mp h
    obtain ⟨⟨⟩, hc, -⟩ := bind_eq_ok.mp h
    refine ⟨fun hn => ?_, fun id hid => ?_, ?_⟩
    · rw [hn, mapM_nil_eq_ok] at hev
      exact hne hev
    · obtain ⟨e, -, he⟩ := mem_mapM_of_mem hev hid
      obtain ⟨segment, hf, hs, -⟩ := segmentEvidence_of hsettle he
      exact ⟨segment, hf, hs⟩
    · rw [← hmp hev]
      exact not_not.mp (raiseIf_eq_ok.mp hc)
  · intro h
    obtain ⟨evidence, hev⟩ := exists_mapM_eq_ok fun id hid => by
      obtain ⟨segment, hf, hs⟩ := h.resolved id hid
      exact exists_segmentEvidence hsettle harrived hsource hf hs
    have hne : evidence ≠ [] := by
      rintro rfl
      obtain ⟨id, hid⟩ := exists_mem_of_ne_nil _ h.nonempty
      obtain ⟨e, he, -⟩ := mem_mapM_of_mem hev hid
      exact not_mem_nil he
    obtain ⟨ready, hr⟩ : ∃ ready, (evidence.map SegmentEvidence.readySlot).max? = some ready := by
      rw [← Option.isSome_iff_exists, List.isSome_max?_iff]
      exact fun hn => hne (map_eq_nil_iff.mp hn)
    refine ⟨(ready, evidence), bind_eq_ok.mpr ⟨evidence, hev, ?_⟩⟩
    refine raiseIf_bind.mpr ⟨hne, bind_eq_ok.mpr ⟨(), raiseIf_eq_ok.mpr ?_, ?_⟩⟩
    · rw [not_not, hmp hev]
      exact h.predecessors
    · rw [latestReady, hr]
      rfl

end

theorem exactSourceReadiness_bounded (hsettle : 0 ≤ timing.settleSlots) {ready : Int}
    {evidence : List SegmentEvidence}
    (h : exactSourceReadiness node segments arrivals timing = .ok (ready, evidence)) :
    ∃ e, e.readySlot = ready ∧ EvidenceBounded node arrivals timing e := by
  obtain ⟨evidence', hev, h⟩ := bind_eq_ok.mp h
  obtain ⟨-, h⟩ := raiseIf_bind.mp h
  obtain ⟨⟨⟩, -, h⟩ := bind_eq_ok.mp h
  obtain ⟨ready', hr, h⟩ := bind_eq_ok.mp h
  cases h
  unfold latestReady at hr
  split at hr
  · next slot hmax =>
    cases hr
    obtain ⟨e, he, hs⟩ := mem_map.mp (List.max?_mem hmax)
    obtain ⟨id, -, hid⟩ := exists_of_mem_mapM hev he
    obtain ⟨-, -, -, -, hbn⟩ := segmentEvidence_of hsettle hid
    exact ⟨e, hs, hbn⟩
  · cases hr

end Segments

/-! ## the indexed check -/

section Indexed

variable {digests : Digests} {contract : Contract} {ordered : List Route}
  {arrivals : ExactArrivals} {timing : TimingConstraints} {certificate : IndexedCertificate}
  {route : Route} {node : CutNode}

theorem indexedSourceReadiness_spec (hn : ∀ a ∈ arrivals, 0 ≤ a.2) {ready : Int}
    {evidence : List (String × Int)}
    (h : indexedSourceReadiness route arrivals timing = .ok (ready, evidence)) :
    0 ≤ timing.settleSlots ∧ timing.settleSlots ≤ ready ∧
      ∃ predecessors, route.predecessorCutNets = some predecessors ∧ ∀ p ∈ predecessors,
        ∃ arrival, arrivals.lookup (p, route.source) = some arrival ∧
          arrival + timing.settleSlots ≤ ready := by
  obtain ⟨predecessors, hpr, h⟩ := bind_eq_ok.mp h
  obtain ⟨hg, h⟩ := raiseIf_bind.mp h
  obtain ⟨evidence', hev, h⟩ := bind_eq_ok.mp h
  obtain ⟨rfl, rfl⟩ := Prod.mk.inj (ok.inj h)
  push Not at hg
  have ho : ∀ {p : String} {e : String × Int}, predecessorArrival arrivals route.source p = .ok e →
        arrivals.lookup (p, route.source) = some e.2 := by
    intro p e he
    unfold predecessorArrival at he
    split at he
    · next arrival ha =>
      rw [← ok.inj he]
      exact ha
    · cases he
  have hle : ∀ e ∈ evidence', e.2 + timing.settleSlots ≤
      ((evidence'.map fun e => e.2 + timing.settleSlots).max?).getD timing.settleSlots := by
    intro e he
    obtain ⟨m, hm⟩ : ∃ m, (evidence'.map fun e => e.2 + timing.settleSlots).max? = some m := by
      rw [← Option.isSome_iff_exists, List.isSome_max?_iff]
      exact fun hnl => not_mem_nil (map_eq_nil_iff.mp hnl ▸ he)
    rw [hm, Option.getD_some]
    exact (List.max?_eq_some_iff.mp hm).2 _ (mem_map_of_mem he)
  refine ⟨hg.1, ?_, predecessors, lookupOrRaise_eq_ok.mp hpr, fun p hp => ?_⟩
  · cases evidence' with
    | nil => exact le_rfl
    | cons e rest =>
      obtain ⟨p, -, hp⟩ := exists_of_mem_mapM hev mem_cons_self
      have hps := hn _ (mem_of_lookup (ho hp))
      have := hle e mem_cons_self
      dsimp only at hps
      omega
  · obtain ⟨e, he, hp⟩ := mem_mapM_of_mem hev (mem_sorted.mpr hp)
    exact ⟨e.2, ho hp, hle e he⟩

theorem indexedCertificate_route
    (h : indexedCertificate digests ordered arrivals timing = .ok certificate)
    (hrt : route ∈ ordered) :
    (∃ ready evidence, indexedSourceReadiness route arrivals timing = .ok (ready, evidence)) ∧
      ∀ sink ∈ route.sinks, ∃ arrival, arrivals.lookup (route.net, sink) = some arrival ∧
        0 ≤ timing.commitSlot - (arrival + timing.settleSlots) ∧
        ∃ least, certificate.minimumSinkSlackSlots = some least ∧
          least ≤ timing.commitSlot - (arrival + timing.settleSlots) := by
  obtain ⟨records, hrr, h⟩ := bind_eq_ok.mp h
  obtain ⟨⟨r, sinks⟩, hm, hr⟩ := mem_mapM_of_mem hrr hrt
  obtain ⟨⟨ready, evidence⟩, hrd, hr⟩ := bind_eq_ok.mp hr
  obtain ⟨sinks', hsn, hr⟩ := bind_eq_ok.mp hr
  obtain ⟨-, rfl⟩ := Prod.mk.inj (ok.inj hr)
  refine ⟨⟨ready, evidence, hrd⟩, fun sink hsk => ?_⟩
  obtain ⟨s, hs, hsl⟩ := mem_mapM_of_mem hsn (mem_sorted.mpr hsk)
  unfold sinkReadiness at hsl
  split at hsl
  · cases hsl
  · next arrival ha =>
    obtain ⟨hp, hsl⟩ := raiseIf_bind.mp hsl
    have hin : s ∈ records.flatMap Prod.snd := mem_flatMap.mpr ⟨_, hm, hs⟩
    obtain ⟨least, hl⟩ :
        ∃ least, ((records.flatMap Prod.snd).map SinkReadiness.slackSlots).min? = some least := by
      rw [← Option.isSome_iff_exists, List.isSome_min?_iff]
      exact fun hn => not_mem_nil (map_eq_nil_iff.mp hn ▸ hin)
    refine ⟨arrival, ha, not_lt.mp hp, least, ?_, ?_⟩
    · rw [← ok.inj h]
      exact hl
    · have := (List.min?_eq_some_iff.mp hl).2 _ (mem_map_of_mem hin)
      rwa [← ok.inj hsl] at this

structure Bound (contract : Contract) (ordered : List Route) : Prop where
  node_of_route : ∀ route ∈ ordered, ∃ node ∈ contract.cutNodes,
    Keyed.find CutNode.net contract.cutNodes route.net = some node ∧ node.net = route.net ∧
      node.sourceFpgas = [route.source] ∧ node.sinkFpgas = route.sinks ∧
      node.predecessorCutNets = route.predecessorCutNets
  route_of_node : ∀ node ∈ contract.cutNodes, ∃ route ∈ ordered, route.net = node.net ∧
    Keyed.find CutNode.net contract.cutNodes route.net = some node

/-- The arrivals of a schedule are at sinks of its routes, and not before the frame begins. -/
structure ArrivalsOk (ordered : List Route) (arrivals : ExactArrivals) : Prop where
  nonneg : ∀ a ∈ arrivals, 0 ≤ a.2
  sink : ∀ a ∈ arrivals, ∃ route ∈ ordered, route.net = a.1.1 ∧ a.1.2 ∈ route.sinks

theorem fullReadiness_of_indexed (harrivals : ArrivalsOk ordered arrivals)
    (hcert : indexedCertificate digests ordered arrivals timing = .ok certificate)
    (hrt : route ∈ ordered)
    (hfn : Keyed.find CutNode.net contract.cutNodes route.net = some node)
    (hsource : node.sourceFpgas = [route.source])
    (hpr : node.predecessorCutNets = route.predecessorCutNets) :
    ((∃ r, fullReadiness contract arrivals timing route = .ok r) ↔
        SourcesComplete contract.logicSegments node) ∧
      ∀ ready evidence, fullReadiness contract arrivals timing route = .ok (ready, evidence) →
        ∀ indexed evidence', indexedSourceReadiness route arrivals timing = .ok (indexed, evidence')
          →
          ready ≤ indexed := by
  obtain ⟨⟨indexed, evidence', hin⟩, -⟩ := indexedCertificate_route hcert hrt
  obtain ⟨hsettle, hls, predecessors, hsm, hal⟩ :=
    indexedSourceReadiness_spec harrivals.nonneg hin
  have hnd : node.predecessorCutNets.getD [] = predecessors := by
    rw [hpr, hsm]
    rfl
  have hhd : node.sourceFpgas.head? = some route.source := by
    rw [hsource]
    rfl
  have hfl : fullReadiness contract arrivals timing route =
      exactSourceReadiness node contract.logicSegments arrivals timing := by
    unfold fullReadiness
    rw [hfn]
    rfl
  rw [hfl]
  constructor
  · refine exactSourceReadiness_isOk_iff hsettle (fun p hp f hf => ?_) ⟨_, hhd⟩
    rw [hnd] at hp
    obtain rfl := Option.some.inj (hhd.symm.trans hf)
    obtain ⟨arrival, har, -⟩ := hal p hp
    exact ⟨arrival, har⟩
  · intro ready evidence hrd indexed₂ evidence₂ hin₂
    obtain ⟨rfl, -⟩ := Prod.mk.inj (ok.inj (hin.symm.trans hin₂))
    obtain ⟨e, rfl, hbn⟩ := exactSourceReadiness_bounded hsettle hrd
    rcases hbn with hle | ⟨p, hp, f, hf, arrival, har, hle⟩
    · exact hle.trans hls
    · rw [hnd] at hp
      obtain rfl := Option.some.inj (hhd.symm.trans hf)
      obtain ⟨arrival', har', hle'⟩ := hal p hp
      rw [har] at har'
      cases har'
      exact hle.trans hle'

theorem exists_sinkReadiness {net sink : String} {arrival : Int}
    (h : arrivals.lookup (net, sink) = some arrival)
    (hp : 0 ≤ timing.commitSlot - (arrival + timing.settleSlots)) :
    ∃ r, sinkReadiness arrivals timing net sink = .ok r ∧
      r.slackSlots = timing.commitSlot - (arrival + timing.settleSlots) := by
  refine ⟨{ net := net, fpga := sink, arrivalSlot := arrival, budgetSlots := timing.settleSlots
            readySlot := arrival + timing.settleSlots, commitSlot := timing.commitSlot
            slackSlots := timing.commitSlot - (arrival + timing.settleSlots) }, ?_, rfl⟩
  unfold sinkReadiness
  rw [h]
  exact raiseIf_bind.mpr ⟨not_lt.mpr hp, rfl⟩

section

variable (hsettle : 0 ≤ timing.settleSlots) (harrivals : ArrivalsOk ordered arrivals)
  (hcert : indexedCertificate digests ordered arrivals timing = .ok certificate)
  (hbound : Bound contract ordered)
include hsettle harrivals hcert hbound

theorem captureRecord_of_indexed (late : String → EmuFlowError) {capture : CaptureRequirement} :
    ((∃ r, captureRecord contract.logicSegments arrivals timing late capture = .ok r) ↔
        CaptureComplete contract capture) ∧
      ∀ r, captureRecord contract.logicSegments arrivals timing late capture = .ok r →
        ∃ sink least, sinkReadiness arrivals timing r.cutNet r.fpga = .ok sink ∧
          sink.slackSlots ≤ r.slackSlots ∧
          certificate.minimumSinkSlackSlots = some least ∧ least ≤ r.slackSlots := by
  -- an arrival at the capture is one that the indexed certificate has checked
  have hin : ∀ arrival, arrivals.lookup (capture.cutNet, capture.fpga) = some arrival →
      (∃ route ∈ ordered, route.net = capture.cutNet ∧ capture.fpga ∈ route.sinks) ∧
        0 ≤ timing.commitSlot - (arrival + timing.settleSlots) ∧
        ∃ least, certificate.minimumSinkSlackSlots = some least ∧
          least ≤ timing.commitSlot - (arrival + timing.settleSlots) := by
    intro arrival har
    obtain ⟨route, hrt, hnt, hsn⟩ := harrivals.sink _ (Keyed.mem_of_lookup har)
    dsimp only at hnt hsn
    obtain ⟨arrival', har', hch⟩ := (indexedCertificate_route hcert hrt).2 _ hsn
    rw [hnt, har] at har'
    obtain rfl := Option.some.inj har'
    exact ⟨⟨route, hrt, hnt, hsn⟩, hch⟩
  constructor
  · constructor
    · rintro ⟨r, h⟩
      obtain ⟨segment, hsg, h⟩ := bind_eq_ok.mp h
      obtain ⟨arrival, har, -⟩ := bind_eq_ok.mp h
      unfold captureSegment at hsg
      split at hsg
      · next s hs =>
        obtain rfl := ok.inj hsg
        unfold captureArrival at har
        split at har
        · next slot hsl =>
          split at har
          · next hpl =>
            obtain ⟨route, hrt, hnt, hsn⟩ := (hin slot hsl).1
            obtain ⟨node, hnd, -, hid, -, hsk, -⟩ := hbound.node_of_route route hrt
            exact ⟨⟨s, hs, hpl⟩, node, hnd, hid.trans hnt, hsk ▸ hsn⟩
          · cases har
        · cases har
      · cases hsg
    · rintro ⟨⟨segment, hsg, hct, hfp⟩, node, hnd, hnt, hsn⟩
      obtain ⟨route, hrt, hid, hfn⟩ := hbound.route_of_node node hnd
      obtain ⟨node', -, hfn', -, -, hsk, -⟩ := hbound.node_of_route route hrt
      obtain rfl := Option.some.inj (hfn.symm.trans hfn')
      obtain ⟨arrival, har, hps, -⟩ :=
        (indexedCertificate_route hcert hrt).2 _ (hsk ▸ hsn)
      rw [hid, hnt] at har
      obtain ⟨budget, hbd, hle⟩ := exists_budget segment hsettle
      refine ⟨_, bind_eq_ok.mpr ⟨segment, ?_, bind_eq_ok.mpr ⟨arrival, ?_,
        bind_eq_ok.mpr ⟨budget, hbd, raiseIf_bind.mpr ⟨by omega, rfl⟩⟩⟩⟩⟩
      · unfold captureSegment
        rw [hsg]
      · unfold captureArrival
        rw [har]
        exact if_pos ⟨hct, hfp⟩
  · intro r h
    obtain ⟨segment, -, h⟩ := bind_eq_ok.mp h
    obtain ⟨arrival, har, h⟩ := bind_eq_ok.mp h
    obtain ⟨budget, hbd, h⟩ := bind_eq_ok.mp h
    obtain ⟨-, h⟩ := raiseIf_bind.mp h
    obtain ⟨budget', hbd', hle⟩ := exists_budget segment hsettle
    obtain rfl := ok.inj (hbd.symm.trans hbd')
    unfold captureArrival at har
    split at har
    · next slot hsl =>
      split at har
      · obtain rfl := ok.inj har
        obtain ⟨-, hps, least, hls, hsc⟩ := hin slot hsl
        obtain ⟨sink, hsn, hss⟩ := exists_sinkReadiness hsl hps
        rw [← ok.inj h]
        refine ⟨sink, least, hsn, ?_, hls, ?_⟩
        · dsimp only
          omega
        · dsimp only
          omega
      · cases har
    · cases har

theorem fullCertificate_of_indexed :
    ((∃ res, fullCertificate contract ordered arrivals timing = .ok res) ↔
        RelationComplete contract) ∧ ∀ readiness captures slack,
        fullCertificate contract ordered arrivals timing = .ok (readiness, captures, slack) →
        ∀ record ∈ captures, ∃ sink least,
          sinkReadiness arrivals timing record.cutNet record.fpga = .ok sink ∧
            sink.slackSlots ≤ record.slackSlots ∧
            certificate.minimumSinkSlackSlots = some least ∧ least ≤ record.slackSlots := by
  refine ⟨⟨?_, fun hcm => ?_⟩, ?_⟩
  · rintro ⟨res, h⟩
    obtain ⟨⟨⟩, hin, h⟩ := bind_eq_ok.mp h
    obtain ⟨readiness, hrd, h⟩ := bind_eq_ok.mp h
    obtain ⟨captures, hc, -⟩ := bind_eq_ok.mp h
    refine ⟨hin, fun node hnd => ?_, fun capture hct => ?_⟩
    · obtain ⟨route, hrt, hid, hf⟩ := hbound.route_of_node node hnd
      obtain ⟨node', -, hf', -, hsource, -, hp⟩ := hbound.node_of_route route hrt
      obtain rfl := Option.some.inj (hf.symm.trans hf')
      obtain ⟨r, -, hr⟩ := mem_mapM_of_mem hrd hrt
      exact (fullReadiness_of_indexed harrivals hcert hrt hf hsource hp).1.mp ⟨r, hr⟩
    · obtain ⟨records, hrc, -⟩ := bind_eq_ok.mp hc
      obtain ⟨r, -, hr⟩ := mem_mapM_of_mem hrc (mem_sortedBy.mpr hct)
      exact (captureRecord_of_indexed hsettle harrivals hcert hbound _).1.mp ⟨r, hr⟩
  · obtain ⟨readiness, hrd⟩ := exists_mapM_eq_ok fun route hrt => by
      obtain ⟨node, hnd, hf, -, hsource, -, hp⟩ := hbound.node_of_route route hrt
      exact (fullReadiness_of_indexed harrivals hcert hrt hf hsource hp).1.mpr
        (hcm.sources node hnd)
    obtain ⟨records, hrc⟩ := exists_mapM_eq_ok
        (l := sortedBy CaptureRequirement.id contract.captureRequirements) fun capture hct =>
      (captureRecord_of_indexed hsettle harrivals hcert hbound (fun captureId =>
        .validation "exact schedule is infeasible at capture %r" [captureId])).1.mpr
        (hcm.captures capture (mem_sortedBy.mp hct))
    exact ⟨_, bind_eq_ok.mpr ⟨(), hcm.indexes, bind_eq_ok.mpr ⟨readiness, hrd,
      bind_eq_ok.mpr ⟨_, bind_eq_ok.mpr ⟨records, hrc, rfl⟩, rfl⟩⟩⟩⟩
  · intro readiness captures slack h record hrr
    obtain ⟨⟨⟩, -, h⟩ := bind_eq_ok.mp h
    obtain ⟨readiness', -, h⟩ := bind_eq_ok.mp h
    obtain ⟨captures', hc, h⟩ := bind_eq_ok.mp h
    obtain ⟨-, h⟩ := Prod.mk.inj (ok.inj h)
    obtain ⟨records, hrc, hc⟩ := bind_eq_ok.mp hc
    rw [h] at hc
    cases hc
    obtain ⟨capture, -, hct⟩ := exists_of_mem_mapM hrc hrr
    exact (captureRecord_of_indexed hsettle harrivals hcert hbound _).2 record hct

end

end Indexed

section Run

variable {digests : Digests} {artifact : RoutesArtifact} {platform : Platform}
  {schedule : TdmSchedule} {ratioPlan : Option RatioPlan} {mode : ScheduleMode}
  {ordered : List Route} {state state' : ProgressState} {entries : List TdmEntry}
  {extended : Bool} {indexed : IndexedContract} {timing : TimingConstraints} {route : Route}

def EntriesOk (entries : List TdmEntry) : Prop := ∀ entry ∈ entries, 0 ≤ entry.arrivalSlot

theorem checkScheduledRoute_arrivals (her : EntriesOk entries) (hsettle : 1 ≤ timing.settleSlots)
    (hst : ArrivalsOk ordered state.exactArrivals) (hrt : route ∈ ordered)
    (h : checkScheduledRoute extended (.indexed indexed timing) entries state route = .ok state') :
    ArrivalsOk ordered state'.exactArrivals := by
  obtain ⟨ready, records, hops, hr, hhp, hsc, hf⟩ := checkScheduledRoute_eq_ok.mp h
  obtain ⟨completion, sinks, -, hsk, rfl⟩ := finishRoute_eq_ok.mp hf
  obtain ⟨⟨ready', evidence⟩, hin, hr⟩ := bind_eq_ok.mp hr
  cases hr
  obtain ⟨-, hl, -⟩ := indexedSourceReadiness_spec hst.nonneg hin
  -- the arrival at a sink is that of an entry, or one slot before the source is ready
  have hsn : ∀ s ∈ sinks, s.1 ∈ route.sinks ∧ 0 ≤ s.2 := by
    intro s hs
    obtain ⟨sink, hm, hs⟩ := exists_of_mem_mapM hsk hs
    obtain ⟨arrival, hav, hs⟩ := bind_eq_ok.mp hs
    rw [← ok.inj hs]
    refine ⟨mem_sorted.mp hm, ?_⟩
    rcases mem_arrivalsOf.mp (mem_of_lookup (lookupOrRaise_eq_ok.mp hav)) with
      ⟨hop, hh, -, har⟩ | ⟨-, har⟩
    · obtain ⟨e, he, -⟩ := hsc hop hh
      rw [entryArrival_eq he] at har
      rw [← har]
      exact her e (mem_of_find he)
    · dsimp only
      omega
  constructor
  · intro a ha
    rcases List.mem_append.mp ha with ha | ha
    · obtain ⟨s, hs, rfl⟩ := mem_map.mp (mem_reverse.mp ha)
      exact (hsn s hs).2
    · exact hst.nonneg a ha
  · intro a ha
    rcases List.mem_append.mp ha with ha | ha
    · obtain ⟨s, hs, rfl⟩ := mem_map.mp (mem_reverse.mp ha)
      exact ⟨route, hrt, rfl, (hsn s hs).1⟩
    · exact hst.sink a ha

theorem scheduleRun_arrivals (hnt : (artifact.routes.map Route.net).Nodup)
    (h : scheduleRun digests artifact platform schedule ratioPlan =
      .ok (.indexed indexed timing, ordered, state)) :
    0 ≤ timing.settleSlots ∧ ordered.Perm artifact.routes ∧
      ArrivalsOk ordered state.exactArrivals := by
  obtain ⟨⟨mode, ctx⟩, hct, h⟩ := bind_eq_ok.mp h
  obtain ⟨tables, htb, h⟩ := bind_eq_ok.mp h
  obtain ⟨⟨ordered', rounds⟩, hor, h⟩ := bind_eq_ok.mp h
  obtain ⟨state', hst, h⟩ := bind_eq_ok.mp h
  obtain ⟨rfl, hpr⟩ := Prod.mk.inj (ok.inj h)
  obtain ⟨rfl, rfl⟩ := Prod.mk.inj hpr
  have hc := scheduleContext_eq_ok hct
  obtain ⟨hall, -, -, -, hta⟩ := (checkEntries_eq_ok hc.wellFormed hc.allocated).mp htb
  rw [hta] at hst
  have hen : EntriesOk schedule.entries := by
    intro e her
    obtain ⟨link, -, hlc⟩ := (hall e her).link
    have hsl := hlc.slot_nonneg
    rw [hlc.arrival]
    have hlt : 0 ≤ linkLatency link e.ratio := by
      by_cases hm : link.tdmDelayModel = none
      · rw [linkLatency, hm]
        exact Int.natCast_nonneg _
      · exact linkLatency_nonneg (hlc.ratio_pos hc.wellFormed hm)
    omega
  have hsettle : timing.settleSlots = 1 := by
    unfold scheduleContext at hct
    obtain ⟨contract, -, hct⟩ := bind_eq_ok.mp hct
    simp only [raiseIf_bind] at hct
    obtain ⟨-, -, hct⟩ := hct
    obtain ⟨cs, -, hct⟩ := bind_eq_ok.mp hct
    obtain ⟨routeConstraints, -, hct⟩ := bind_eq_ok.mp hct
    obtain ⟨-, hct⟩ := raiseIf_bind.mp hct
    obtain ⟨mode', hmd, hct⟩ := bind_eq_ok.mp hct
    obtain ⟨-, hct⟩ := raiseIf_bind.mp hct
    obtain ⟨graph, -, hct⟩ := bind_eq_ok.mp hct
    obtain ⟨allocations, -, hct⟩ := bind_eq_ok.mp hct
    obtain ⟨-, hct⟩ := raiseIf_bind.mp hct
    obtain ⟨expected, -, hct⟩ := bind_eq_ok.mp hct
    obtain ⟨plan, -, hct⟩ := bind_eq_ok.mp hct
    obtain ⟨-, hct⟩ := raiseIf_bind.mp hct
    obtain ⟨baseline, -, hct⟩ := bind_eq_ok.mp hct
    obtain ⟨rfl, -⟩ := Prod.mk.inj (ok.inj hct)
    unfold scheduleMode at hmd
    split at hmd
    · cases hmd
    · obtain ⟨timing', htm, hmd⟩ := bind_eq_ok.mp hmd
      obtain ⟨-, rfl⟩ := ScheduleMode.indexed.inj (ok.inj hmd)
      obtain ⟨-, htm⟩ := raiseIf_bind.mp htm
      rw [← ok.inj htm]
      rfl
    · obtain ⟨timing', -, hmd⟩ := bind_eq_ok.mp hmd
      cases hmd
  refine ⟨by omega, orderRoutes_perm hnt hor, ?_⟩
  refine foldlM_invariant (fun state => ArrivalsOk ordered' state.exactArrivals) ?_ ?_ hst
  · intro route hrt t t' ht hsp
    exact checkScheduledRoute_arrivals hen (by omega) ht hrt hsp
  · exact ⟨fun a ha => absurd ha not_mem_nil, fun a ha => absurd ha not_mem_nil⟩

theorem bound_of_checkFullContract {contract : Contract} {digest : String}
    (h : checkFullContract digests contract digest artifact = .ok ())
    (hp : ordered.Perm artifact.routes) :
    (artifact.routes.map Route.net).Nodup ∧ Bound contract ordered := by
  unfold checkFullContract at h
  simp only [raiseIf_bind] at h
  obtain ⟨-, -, -, hcv, h⟩ := h
  push Not at hcv
  obtain ⟨hn, hnt, hs⟩ := hcv
  rw [sameSet_iff] at hs
  have hnd : ∀ node ∈ contract.cutNodes, ∀ route ∈ artifact.routes, route.net = node.net →
      node.sourceFpgas = [route.source] ∧ node.sinkFpgas = route.sinks ∧
        node.predecessorCutNets = route.predecessorCutNets := by
    intro node hnd route hr hid
    have hc := forM_eq_ok.mp h node.net (mem_sorted.mpr (mem_map_of_mem hnd))
    obtain ⟨node', hnd', hc⟩ := bind_eq_ok.mp hc
    obtain ⟨route', hr', hc⟩ := bind_eq_ok.mp hc
    rw [lookupOrRaise_eq_ok, Keyed.find_of_mem hn hnd, Option.some.injEq] at hnd'
    rw [lookupOrRaise_eq_ok, ← hid, Keyed.find_of_mem hnt hr, Option.some.injEq] at hr'
    subst hnd' hr'
    simp only [raiseIf_bind, raiseIf_eq_ok, not_not] at hc
    exact ⟨hc.2.1, hc.2.2.1, hc.2.2.2.2.2⟩
  refine ⟨hnt, fun route hr => ?_, fun node hm => ?_⟩
  · have hr := hp.mem_iff.mp hr
    obtain ⟨node, hm, hid⟩ := mem_map.mp ((hs route.net).mpr (mem_map_of_mem hr))
    obtain ⟨hsource, hsn, hpd⟩ := hnd node hm route hr hid.symm
    exact ⟨node, hm, hid ▸ Keyed.find_of_mem hn hm, hid, hsource, hsn, hpd⟩
  · obtain ⟨route, hr, hid⟩ := mem_map.mp ((hs node.net).mp (mem_map_of_mem hm))
    exact ⟨route, hp.mem_iff.mpr hr, hid, hid ▸ Keyed.find_of_mem hn hm⟩

end Run

/-! ## the contracts of the partition are complete -/

section Built

open CombinationalCut EmuFlow.Partition

variable {ir : EmuIR} {assignment : InstanceAssignment} {cuts : List CutNet}
  {sources : List CutSources} {contract : SemanticContract} {records : List CaptureRecord}

def segmentRecords (cuts : List CutNet) (sources : List CutSources) (records : List CaptureRecord) :
    List (String → LogicSegment) :=
  ((sources.filter fun s => s.localLaunch ∨ s.predecessors = []).map (launchSegment cuts)) ++
    (sources.flatMap fun s =>
      s.predecessors.map fun source => dependencySegment cuts source s.net) ++
    records.map CombinationalCut.captureSegment

theorem id_of_mem_segmentRecords {f : String → LogicSegment}
    (h : f ∈ segmentRecords cuts sources records) (id : String) : (f id).id = id := by
  rcases List.mem_append.mp h with h | h
  · rcases List.mem_append.mp h with h | h
    · obtain ⟨s, -, rfl⟩ := mem_map.mp h
      rfl
    · obtain ⟨s, -, h⟩ := mem_flatMap.mp h
      obtain ⟨p, -, rfl⟩ := mem_map.mp h
      rfl
  · obtain ⟨r, -, rfl⟩ := mem_map.mp h
    rfl

theorem nodup_segmentIds : ((logicSegments cuts sources records).map LogicSegment.id).Nodup :=
  nodup_numbered fun _ hf id => id_of_mem_segmentRecords hf id

theorem nodup_captureIds (captures : List Capture) :
    ((CombinationalCut.captureRecords captures).map CaptureRecord.id).Nodup := by
  refine nodup_numbered fun f hf id => ?_
  obtain ⟨c, -, rfl⟩ := mem_map.mp hf
  rfl

theorem transferSources_eq (hn : (sources.map CutSources.net).Nodup) {s : CutSources}
    (hs : s ∈ sources) : ((logicSegments cuts sources records).filter fun segment =>
      segment.sinkCutNet = some s.net).filterMap transferSource = s.predecessors := by
  set k : LogicSegment → Option String := fun segment =>
    if segment.sinkCutNet = some s.net then transferSource segment else none with hk
  have hkp : ∀ f ∈ segmentRecords cuts sources records, ∀ id, k (f id) = k (f "") := by
    intro f hf id
    rcases List.mem_append.mp hf with hf | hf
    · rcases List.mem_append.mp hf with hf | hf
      · obtain ⟨_, -, rfl⟩ := mem_map.mp hf
        rfl
      · obtain ⟨_, -, hf⟩ := mem_flatMap.mp hf
        obtain ⟨_, -, rfl⟩ := mem_map.mp hf
        rfl
    · obtain ⟨_, -, rfl⟩ := mem_map.mp hf
      rfl
  have hl : ∀ l : List CutSources,
      (l.map (launchSegment cuts)).filterMap (fun f => k (f "")) = [] := by
    intro l
    rw [filterMap_map, filterMap_eq_nil_iff]
    intro s' _
    simp [hk, launchSegment, transferSource]
  have hc :
      (records.map CombinationalCut.captureSegment).filterMap (fun f => k (f "")) = [] := by
    rw [filterMap_map, filterMap_eq_nil_iff]
    intro r _
    simp [hk, CombinationalCut.captureSegment]
  have ht : ∀ s' : CutSources,
      (s'.predecessors.map fun source => dependencySegment cuts source s'.net).filterMap
        (fun f => k (f "")) = if s'.net = s.net then s'.predecessors else [] := by
    intro s'
    rw [filterMap_map]
    by_cases heq : s'.net = s.net
    · rw [if_pos heq]
      have hsm : ((fun f => k (f "")) ∘ fun source => dependencySegment cuts source s'.net) =
          some := by
        funext p
        simp [hk, dependencySegment, transferSource, heq]
      rw [hsm, filterMap_some]
    · rw [if_neg heq, filterMap_eq_nil_iff]
      intro p _
      simp [hk, dependencySegment, heq]
  have ho : ∀ l : List CutSources, (l.map CutSources.net).Nodup → s ∈ l →
      (l.flatMap fun s' => if s'.net = s.net then s'.predecessors else []) = s.predecessors := by
    intro l
    induction l with
    | nil => exact fun _ h => absurd h not_mem_nil
    | cons a l ih =>
      intro hnd hm
      rw [map_cons, nodup_cons] at hnd
      rw [flatMap_cons]
      rcases mem_cons.mp hm with rfl | hm
      · have hr : (l.flatMap fun s' => if s'.net = s.net then s'.predecessors else []) = [] := by
          rw [flatMap_eq_nil_iff]
          intro s' hs'
          have hne : s'.net ≠ s.net := fun h => hnd.1 (h ▸ mem_map_of_mem hs')
          exact if_neg hne
        rw [hr, if_pos rfl, append_nil]
      · have hne : a.net ≠ s.net := fun h => hnd.1 (h ▸ mem_map_of_mem hm)
        rw [if_neg hne, nil_append, ih hnd.2 hm]
  have hnm : (logicSegments cuts sources records).filterMap k =
      (segmentRecords cuts sources records).filterMap fun f => k (f "") := filterMap_numbered hkp
  rw [filterMap_filter]
  calc (logicSegments cuts sources records).filterMap (fun segment =>
          if (decide (segment.sinkCutNet = some s.net)) = true then transferSource segment else
            none)
      = (logicSegments cuts sources records).filterMap k := by simp only [hk, decide_eq_true_eq]
    _ = s.predecessors := by
        rw [hnm, segmentRecords, filterMap_append, filterMap_append, hl,
          hc, filterMap_flatMap, append_nil, nil_append]
        simp only [ht]
        exact ho sources hn hs

section

variable (hb : Built ir assignment cuts sources contract)
include hb

theorem sourcesComplete_of_built {cut : CutNet}
    (hc : cut ∈ cuts) {analysis : CutAnalysis} (hsr : analysis.sources = sources) :
    SourcesComplete contract.logicSegments
      (CombinationalCut.cutNode ir contract.logicSegments analysis cut) := by
  obtain ⟨s, hs, net, fpga, hsp⟩ := hb.ok.of_cut cut hc
  have hn : s.net = cut.net := hsp.sources_net
  have hpr : cutPredecessors sources cut.net = s.predecessors := by
    unfold cutPredecessors
    rw [← hn, find_of_mem hb.ok.nodup hs]
    rfl
  have hsm := hb.segments
  have hi : (contract.logicSegments.map LogicSegment.id).Nodup := hsm ▸ nodup_segmentIds
  have hf : ∀ id ∈ sourceSegmentIds contract.logicSegments cut.net, ∃ segment,
      segment ∈ contract.logicSegments ∧ segment.sinkCutNet = some cut.net ∧
        find LogicSegment.id contract.logicSegments id = some segment := by
    intro id hid
    obtain ⟨segment, hsg, rfl⟩ := mem_map.mp hid
    obtain ⟨hsg, hsn⟩ := mem_filter.mp hsg
    exact ⟨segment, hsg, of_decide_eq_true hsn, find_of_mem hi hsg⟩
  refine ⟨?_, fun id hid => ?_, ?_⟩
  · -- a cut without a launch has predecessors
    have hso : ∃ segment ∈ contract.logicSegments, segment.sinkCutNet = some cut.net := by
      rw [hsm]
      by_cases hl : s.localLaunch = true ∨ s.predecessors = []
      · obtain ⟨id, hid⟩ := exists_launchSegment cuts contract.captures hs hl
        exact ⟨_, hid, congrArg some hn⟩
      · obtain ⟨p, hp⟩ := exists_mem_of_ne_nil _ (not_or.mp hl).2
        obtain ⟨id, hid⟩ := exists_dependencySegment cuts contract.captures hs hp
        exact ⟨_, hid, congrArg some hn⟩
    obtain ⟨segment, hsg, hsn⟩ := hso
    exact ne_nil_of_mem (mem_map_of_mem (mem_filter.mpr ⟨hsg, decide_eq_true hsn⟩))
  · obtain ⟨segment, hsg, hsn, hfd⟩ := hf id hid
    refine ⟨segment, hfd, hsn, ?_⟩
    rw [hsm] at hsg
    rcases mem_logicSegments hsg with
      ⟨_, _, _, id, rfl⟩ | ⟨s', hs', p, hp, id, rfl⟩ | ⟨_, _, id, rfl⟩
    · exact Or.inl rfl
    · obtain rfl := inj_on_of_nodup_map hb.ok.nodup hs' hs ((Option.some.inj hsn).trans hn.symm)
      refine Or.inr ⟨rfl, ?_, p, rfl, ?_⟩
      · show sourceFpga cuts s'.net = cut.sourceFpgas.head?
        rw [hn, hb.ok.sourceFpga_eq hc]
      · show p ∈ cutPredecessors analysis.sources cut.net
        rwa [hsr, hpr]
    · cases hsn
  · show sorted (cutPredecessors analysis.sources cut.net) = sorted
      ((sourceSegmentIds contract.logicSegments cut.net).filterMap _)
    have hsa : ((sourceSegmentIds contract.logicSegments cut.net).filterMap fun id =>
        (find LogicSegment.id contract.logicSegments id).bind transferSource) =
        s.predecessors := by
      calc ((sourceSegmentIds contract.logicSegments cut.net).filterMap fun id =>
            (find LogicSegment.id contract.logicSegments id).bind transferSource)
          = (contract.logicSegments.filter fun segment =>
              segment.sinkCutNet = some cut.net).filterMap transferSource := by
            rw [sourceSegmentIds, filterMap_map]
            refine filterMap_congr fun segment hsg => ?_
            rw [Function.comp_apply, find_of_mem hi (mem_filter.mp hsg).1]
            rfl
        _ = s.predecessors := by
            rw [hsm, ← hn]
            exact transferSources_eq hb.ok.nodup hs
    rw [hsa, hsr, hpr]

theorem captureComplete_of_built {record : CaptureRecord} (hrc : record ∈ contract.captures) :
    CaptureComplete contract.toContract record.requirement := by
  obtain ⟨found, hfn, hrr⟩ := hb.captures
  have hids : (contract.captures.map CaptureRecord.id).Nodup :=
    hrr ▸ nodup_captureIds found.flatten
  set p : LogicSegment → Bool := fun s =>
    decide (s.kind = "rx_to_capture" ∧ s.captureRequirement = some record.id) with hp
  constructor
  · have hcn : contract.logicSegments.countP p = 1 := by
      have hkp : ∀ f ∈ segmentRecords cuts sources contract.captures, ∀ id,
          p (f id) = p (f "") := by
        intro f hf id
        rcases List.mem_append.mp hf with hf | hf
        · rcases List.mem_append.mp hf with hf | hf
          · obtain ⟨_, -, rfl⟩ := mem_map.mp hf
            rfl
          · obtain ⟨_, -, hf⟩ := mem_flatMap.mp hf
            obtain ⟨_, -, rfl⟩ := mem_map.mp hf
            rfl
        · obtain ⟨_, -, rfl⟩ := mem_map.mp hf
          rfl
      have hnm : (logicSegments cuts sources contract.captures).countP p =
          (segmentRecords cuts sources contract.captures).countP fun f => p (f "") :=
        countP_numbered hkp
      have hot : ((((sources.filter fun s => s.localLaunch ∨ s.predecessors = []).map
          (launchSegment cuts)) ++ sources.flatMap fun s => s.predecessors.map fun source =>
            dependencySegment cuts source s.net).countP fun f => p (f "")) = 0 := by
        rw [countP_eq_zero]
        intro f hf
        rcases List.mem_append.mp hf with hf | hf
        · obtain ⟨_, -, rfl⟩ := mem_map.mp hf
          simp [hp, launchSegment]
        · obtain ⟨_, -, hf⟩ := mem_flatMap.mp hf
          obtain ⟨_, -, rfl⟩ := mem_map.mp hf
          simp [hp, dependencySegment]
      rw [hb.segments, hnm, segmentRecords, countP_append, hot, Nat.zero_add, countP_map]
      have hone := count_eq_one_of_mem hids (mem_map_of_mem hrc)
      rw [count_eq_countP, countP_map] at hone
      rw [← hone]
      refine countP_congr fun r _ => ?_
      simp [hp, CombinationalCut.captureSegment]
    rw [countP_eq_length_filter, length_eq_one_iff] at hcn
    obtain ⟨segment, hsg⟩ := hcn
    have hmm : segment ∈ contract.logicSegments.filter p := hsg ▸ mem_singleton_self _
    obtain ⟨hmm, his⟩ := mem_filter.mp hmm
    obtain ⟨hkn, hrq⟩ := of_decide_eq_true his
    refine ⟨segment, hsg, ?_⟩
    rw [hb.segments] at hmm
    rcases mem_logicSegments hmm with ⟨_, _, _, id, rfl⟩ | ⟨_, _, _, _, id, rfl⟩ | ⟨r, hr, id, rfl⟩
    · cases (by decide : "launch_to_tx" ≠ "rx_to_capture") hkn
    · cases (by decide : "rx_to_tx" ≠ "rx_to_capture") hkn
    · obtain rfl := inj_on_of_nodup_map hids hr hrc (Option.some.inj hrq)
      exact ⟨rfl, rfl⟩
  · have hct : record.capture ∈ found.flatten := mem_captureRecords (hrr ▸ hrc)
    obtain ⟨captures, hcp, hin⟩ := mem_flatten.mp hct
    obtain ⟨cut, hcut, hcp⟩ := exists_of_mem_mapM hfn hcp
    have hcut := mem_sortedBy.mp hcut
    obtain ⟨net, hnt, hcp⟩ := bind_eq_ok.mp hcp
    obtain ⟨hmm, hid⟩ := EmuIR.findNet_eq_some.mp (lookupOrRaise_eq_ok.mp hnt)
    obtain ⟨onFpgas, hfg, hcp⟩ := bind_eq_ok.mp hcp
    rw [← ok.inj hcp] at hin
    obtain ⟨onFpga, hon, hin⟩ := mem_flatten.mp hin
    obtain ⟨fpga, hfpg, hcp⟩ := exists_of_mem_mapM hfg hon
    have hsn := mem_sorted.mp hfpg
    have hrm : delivered cuts fpga net = true :=
      delivered_iff.mpr ⟨cut, hid ▸ Keyed.find_of_mem hb.ok.cuts_nodup hcut, hsn⟩
    obtain ⟨e, -, hat⟩ := (fpgaCaptures_spec hmm hrm hcp).mp hin
    obtain ⟨hcu, hfp⟩ := endpointCapture_place hat
    obtain ⟨analysis, -, hnd⟩ := hb.nodes
    refine ⟨CombinationalCut.cutNode ir contract.logicSegments analysis cut, ?_, ?_, ?_⟩
    · rw [hnd]
      exact mem_map_of_mem (mem_sortedBy.mpr hcut)
    · show cut.net = record.capture.cutNet
      rw [hcu, hid]
    · show record.capture.fpga ∈ cut.sinkFpgas
      rwa [hfp]

theorem relationComplete_of_built
    (hnm : ∀ cut ∈ cuts, cut.net ≠ "") : RelationComplete contract.toContract := by
  obtain ⟨analysis, hsr, hnd⟩ := hb.nodes
  obtain ⟨found, -, hrc⟩ := hb.captures
  refine ⟨?_, fun node hn => ?_, fun capture hc => ?_⟩
  · unfold exactContractIndexes
    simp only [raiseIf_bind, raiseIf_eq_ok]
    push Not
    refine ⟨fun node hn => ?_, ⟨fun segment hs => ?_, fun capture hc => ?_⟩,
      ?_, ?_, ?_⟩
    · rw [hnd] at hn
      obtain ⟨cut, hct, rfl⟩ := mem_map.mp hn
      exact hnm cut (mem_sortedBy.mp hct)
    · rw [hb.segments] at hs
      obtain ⟨⟨f, index⟩, hf, rfl⟩ := mem_map.mp hs
      rw [id_of_mem_segmentRecords (fst_mem_of_mem_zipIdx hf)]
      exact indexedId_ne_empty (by decide)
    · rw [hb.requirements] at hc
      obtain ⟨r, hr, rfl⟩ := mem_map.mp hc
      rw [hrc] at hr
      obtain ⟨⟨f, index⟩, hf, rfl⟩ := mem_map.mp hr
      obtain ⟨c, -, rfl⟩ := mem_map.mp (fst_mem_of_mem_zipIdx hf)
      exact indexedId_ne_empty (by decide)
    · rw [hnd, map_map]
      exact ((sortedBy_perm CutNet.net cuts).map CutNet.net).nodup_iff.mpr hb.ok.cuts_nodup
    · exact hb.segments ▸ nodup_segmentIds
    · rw [hb.requirements, map_map]
      exact hrc ▸ nodup_captureIds found.flatten
  · rw [hnd] at hn
    obtain ⟨cut, hct, rfl⟩ := mem_map.mp hn
    exact sourcesComplete_of_built hb (mem_sortedBy.mp hct) hsr
  · rw [hb.requirements] at hc
    obtain ⟨r, hr, rfl⟩ := mem_map.mp hc
    exact captureComplete_of_built hb hr

end

end Built

/-- **On a schedule that the indexed certificate accepts, the full check accepts exactly the
complete contracts**, among them those that the partition builds; readiness is never later than the
indexed one, and the slack of a capture never smaller than that of the delivery it follows. -/
theorem indexedCertificate_conservative {digests : Digests} {artifact : RoutesArtifact}
    {platform : Platform} {schedule : TdmSchedule} {ratioPlan : Option RatioPlan}
    {indexed : IndexedContract} {timing : TimingConstraints} {ordered : List Route}
    {state : ProgressState} {certificate : IndexedCertificate} {contract : Contract}
    (hrun : scheduleRun digests (artifact.hydrate (some (.indexed indexed))) platform schedule
      ratioPlan = .ok (.indexed indexed timing, ordered, state))
    (hcert : indexedCertificate digests ordered state.exactArrivals timing = .ok certificate)
    (hbound : staticExactContractFromRoutes digests (artifact.hydrate (some (.full contract))) =
      .ok (some (.full contract))) :
    ((∃ result, fullCertificate contract ordered state.exactArrivals timing = .ok result) ↔
        RelationComplete contract) ∧
      (∀ ir assignment cuts depth policy built, Partition.computeCutNets ir assignment = .ok cuts →
        CombinationalCut.buildStaticExactSemanticContract ir assignment cuts depth policy =
          .ok built → contract = built.toContract → RelationComplete contract) ∧
      (∀ route ∈ ordered, ∀ ready evidence,
        fullReadiness contract state.exactArrivals timing route = .ok (ready, evidence) →
        ∀ indexedReady evidence',
          indexedSourceReadiness route state.exactArrivals timing = .ok (indexedReady, evidence') →
          ready ≤ indexedReady) ∧
      ∀ readiness captures slack, fullCertificate contract ordered state.exactArrivals timing =
          .ok (readiness, captures, slack) → ∀ record ∈ captures, ∃ sink least,
          sinkReadiness state.exactArrivals timing record.cutNet record.fpga = .ok sink ∧
            sink.slackSlots ≤ record.slackSlots ∧
            certificate.minimumSinkSlackSlots = some least ∧ least ≤ record.slackSlots := by
  obtain ⟨digest, hfull⟩ : ∃ digest, checkFullContract digests contract digest
      (artifact.hydrate (some (.full contract))) = .ok () := by
    unfold staticExactContractFromRoutes at hbound
    split at hbound
    · cases hbound
    · obtain ⟨⟨⟩, -, hbound⟩ := bind_eq_ok.mp hbound
      cases hbound
    · next c digest hc _ =>
      obtain rfl := RouteContract.full.inj (Option.some.inj hc)
      obtain ⟨⟨⟩, hcheck, -⟩ := bind_eq_ok.mp hbound
      exact ⟨digest, hcheck⟩
    · cases hbound
  have hnets : ((artifact.hydrate (some (.indexed indexed))).routes.map Route.net).Nodup :=
    (bound_of_checkFullContract hfull (Perm.refl _)).1
  obtain ⟨hsettle, hperm, harrivals⟩ := scheduleRun_arrivals hnets hrun
  obtain ⟨-, hbound'⟩ := bound_of_checkFullContract hfull hperm
  obtain ⟨hiff, hslack⟩ := fullCertificate_of_indexed hsettle harrivals hcert hbound'
  refine ⟨hiff, ?_, ?_, hslack⟩
  · rintro ir assignment cuts depth policy built hcuts hbuild rfl
    obtain ⟨sources, hb⟩ := CombinationalCut.built hcuts hbuild
    refine relationComplete_of_built hb fun cut hcut hempty => ?_
    -- the routes are bound to contracts with named nets only
    unfold checkFullContract at hfull
    obtain ⟨-, hfull⟩ := raiseIf_bind.mp hfull
    obtain ⟨-, hfull⟩ := raiseIf_bind.mp hfull
    obtain ⟨hnamed, -⟩ := raiseIf_bind.mp hfull
    obtain ⟨analysis, -, hnodes⟩ := hb.nodes
    refine hnamed (Or.inl ⟨CombinationalCut.cutNode ir built.logicSegments analysis cut, ?_,
      hempty⟩)
    rw [hnodes]
    exact mem_map_of_mem (mem_sortedBy.mpr hcut)
  · intro route hroute ready evidence hready indexedReady evidence' hindexed
    obtain ⟨node, -, hfind, -, hsource, -, hpreds⟩ := hbound'.node_of_route route hroute
    exact (fullReadiness_of_indexed harrivals hcert hroute hfind hsource hpreds).2 ready evidence
      hready indexedReady evidence' hindexed

/-! ## a handoff and its schedule -/

/-- Two one-lane links between `g` and `f`. -/
def handoffBoard : Platform :=
  { name := "handoff"
    fpgas := [⟨"f"⟩, ⟨"g"⟩]
    links := [oneLaneLink "there" "g" "f" 1 (by decide), oneLaneLink "back" "f" "g" 1 (by decide)]
    fpgas_ne_nil := by decide
    fpga_ids_nodup := by decide
    link_ids_nodup := by decide
    endpoints_known := by decide }

/-- The net `p` goes there, and the net `c` that depends on it comes back. -/
def handoffRoutes : RoutesArtifact :=
  { constraints := some { schema := some SYSTEM_ROUTE_CONSTRAINTS_SCHEMA, frameSlots := some 8 }
    demands := []
    routes :=
      [{ id := "d0", net := "p", source := "g", sinks := ["f"], treeEdges := [⟨"there", "g", "f"⟩]
         maxLatencyCycles := 1, cutClass := some "register_output", dependencyLevel := some 1
         combinationalDependencyDepth := some 0, predecessorCutNets := some [] },
       { id := "d1", net := "c", source := "f", sinks := ["g"], treeEdges := [⟨"back", "f", "g"⟩]
         maxLatencyCycles := 1, cutClass := some "register_input", dependencyLevel := some 2
         combinationalDependencyDepth := some 0, predecessorCutNets := some ["p"] }]
    linkUtilization := []
    metrics := { demands := 2, routedSinks := 2, treeEdges := 2, maxLinkUtilization := 0
                 totalLinkBitHops := 2 }
    semanticContractSchema := some STATIC_EXACT_STRUCTURAL_CONTRACT_SCHEMA
    semanticContractSha256 := some "" }

def handoffContract : IndexedContract :=
  { schema := STATIC_EXACT_STRUCTURAL_CONTRACT_SCHEMA, mode := "static-exact-combinational"
    qualification := "structural-partition-legality" }

def handoffTiming : TimingConstraints :=
  { schema := SAMPLED_VIRTUAL_WIRE_CONSTRAINTS_SCHEMA, settleSlots := 1, commitSlot := 7
    slotEdgeConvention := "tx-sample-before-rx-shadow-update-v1" }

/-- `p` leaves in slot one, and `c` in slot three. -/
def handoffSchedule : TdmSchedule :=
  { platform := "handoff"
    provider := TDM_EXACT_DEPENDENCY_PROVIDER
    transportSemantics := "sampled-virtual-wire"
    routeConstraints := handoffRoutes.constraints
    routes := routeMetadata false handoffRoutes.routes
    entries :=
      [{ id := "e0", demand := "d0", net := "p", hop := 0, link := "there", source := "g"
         sink := "f", capacityKey := "there:g->f", slot := 1, lane := 0, readySlot := 1
         arrivalSlot := 2 },
       { id := "e1", demand := "d1", net := "c", hop := 0, link := "back", source := "f"
         sink := "g", capacityKey := "back:f->g", slot := 3, lane := 0, readySlot := 3
         arrivalSlot := 4 }]
    demandCompletions := []
    domainSchedules := []
    metrics := { demands := 2, scheduledBitHops := 2, frameSlots := 8, completionSlot := 4
                 maxDomainUtilization := 0, collisions := 0 }
    timingConstraints := some handoffTiming }

def handoffState : ProgressState :=
  ((scheduleRun Digests.unused (handoffRoutes.hydrate (some (.indexed handoffContract)))
    handoffBoard handoffSchedule none).toOption.map fun run => run.2.2).getD ProgressState.start

theorem handoff_run :
    scheduleRun Digests.unused (handoffRoutes.hydrate (some (.indexed handoffContract)))
      handoffBoard
      handoffSchedule none =
        .ok (.indexed handoffContract handoffTiming, handoffRoutes.routes, handoffState) := by
  decide +kernel

def handoffBuilt : CombinationalCut.SemanticContract :=
  (CombinationalCut.buildStaticExactSemanticContract CombinationalCut.handoffIr
    CombinationalCut.handoffAssignment (CombinationalCut.handoffCuts CombinationalCut.handoffIr) 0
    "assignment-derived-acyclic-v2").toOption.get (by decide +kernel)

theorem handoff_conservative : ∃ result,
    fullCertificate handoffBuilt.toContract handoffRoutes.routes handoffState.exactArrivals
      handoffTiming = .ok result := by
  obtain ⟨certificate, hcert⟩ := exists_of_isOk (x := indexedCertificate Digests.unused
    handoffRoutes.routes handoffState.exactArrivals handoffTiming) (by decide +kernel)
  have hbound : staticExactContractFromRoutes Digests.unused
      (handoffRoutes.hydrate (some (.full handoffBuilt.toContract))) =
        .ok (some (.full handoffBuilt.toContract)) := by
    decide +kernel
  have hcuts : Partition.computeCutNets handoffIr
      handoffAssignment =
        .ok (handoffCuts handoffIr) := by
    decide +kernel
  have hbuild : buildStaticExactSemanticContract handoffIr
      handoffAssignment (handoffCuts handoffIr) 0
      "assignment-derived-acyclic-v2" = .ok handoffBuilt := by
    decide +kernel
  obtain ⟨hiff, hbuilt, -⟩ := indexedCertificate_conservative handoff_run hcert hbound
  exact hiff.mpr (hbuilt _ _ _ _ _ _ hcuts hbuild rfl)

def unsegmentedContract : Contract :=
  { handoffBuilt.toContract with
    cutNodes := handoffBuilt.cutNodes.map fun node => { node with sourceSegmentIds := none }
    logicSegments := [] }

/-- The indexed certificate does not look at the segments. -/
theorem unsegmented_rejected : ∃ certificate,
    scheduleRun Digests.unused (handoffRoutes.hydrate (some (.indexed handoffContract)))
      handoffBoard
      handoffSchedule none =
        .ok (.indexed handoffContract handoffTiming, handoffRoutes.routes, handoffState) ∧
    indexedCertificate Digests.unused handoffRoutes.routes
      handoffState.exactArrivals handoffTiming =
      .ok certificate ∧ staticExactContractFromRoutes Digests.unused
      (handoffRoutes.hydrate (some (.full unsegmentedContract))) =
        .ok (some (.full unsegmentedContract)) ∧
    ¬ ∃ result, fullCertificate unsegmentedContract handoffRoutes.routes handoffState.exactArrivals
      handoffTiming = .ok result := by
  obtain ⟨certificate, hcert⟩ := exists_of_isOk (x := indexedCertificate Digests.unused
    handoffRoutes.routes handoffState.exactArrivals handoffTiming) (by decide +kernel)
  refine ⟨certificate, handoff_run, hcert, by decide +kernel, ?_⟩
  rintro ⟨result, h⟩
  have hno : (fullCertificate unsegmentedContract handoffRoutes.routes handoffState.exactArrivals
      handoffTiming).isOk = false := by
    decide +kernel
  rw [h] at hno
  cases hno

end EmuFlow.Tdm
