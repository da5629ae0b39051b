import EmuFlow.SystemTiming.Databases
import Mathlib.Order.WithBot

/-!
# Fixed-slot events

`_fixed_slot_transport_path_delay` of `emuflow/system_timing.py`: a transported path is propagated
through its scheduled slots. Every TX event and the final capture has a slack; an event passes
when none of them is below `-EVENT_TOLERANCE_NS`.
-/

namespace EmuFlow.SystemTiming

open Check SortedSet Routing Tdm

/-- The slack an event may lack, `1.0e-9`. -/
def EVENT_TOLERANCE_NS : ℚ := 1 / 1000000000

structure TransportContext where
  platform : Platform
  transportSemantics : String
  endpointDelays : List (String × ℚ)
  boardLinkDelays : Option (List (ArcKey × ℚ))
  scheduleEntries : List TdmEntry
  routes : List Route
  commitSlot : Int
  uncertaintyNs : ℚ

/-- `schedule_entries[id]`, the last entry of that id. -/
def findEntryById (entries : List TdmEntry) (id : String) : Option TdmEntry :=
  Keyed.find TdmEntry.id entries.reverse id

/-- `routes_by_net.get(net)`, the last route of that net. -/
def findRouteByNet (routes : List Route) (net : String) : Option Route :=
  Keyed.find Route.net routes.reverse net

def hopModel (platform : Platform) (hop : ScheduledHop) : Option RatioDelayModel :=
  (platform.findLink hop.link).bind BoardLink.tdmDelayModel

/-- `RatioDelayModel.delay_ns` of the ratio of an entry. -/
def ratioDelayNs (model : RatioDelayModel) : Option Int → Result ℚ
  | some ratio =>
    if ratio < 1 then .error (ValidationError "net TDM ratio: expected a finite value >= 1")
    else .ok (model.delayNs ratio)
  | none => .error (ValidationError "net TDM ratio: expected a finite value >= 1")

def hopsOfCut (ctx : TransportContext) (record : PathRecord) (net : String) :
    Result (List ScheduledHop) := do
  let route ← match findRouteByNet ctx.routes net with
    | some route => pure route
    | none => throw (EmuFlowError.validation "sampled path %r has no route for cut %r"
        [record.path, net])
  let hops := record.scheduledHops.filter fun hop => hop.demand = route.id
  raiseIf (hops = [])
    (.validation "sampled path %r has no scheduled hops for cut %r" [record.path, net])
  return hops

/-- `used_entries.add(entry_id)`. -/
def useEntry (record : PathRecord) (used : List String) (hop : ScheduledHop) :
    Result (List String) := do
  raiseIf (hop.scheduleEntry ∈ used)
    (.validation "sampled path %r reuses schedule entry %r" [record.path, hop.scheduleEntry])
  return used ++ [hop.scheduleEntry]

def addCutHops (ctx : TransportContext) (record : PathRecord)
    (state : List String × List (List ScheduledHop)) (net : String) :
    Result (List String × List (List ScheduledHop)) := do
  let hops ← hopsOfCut ctx record net
  let used ← hops.foldlM (useEntry record) state.1
  return (used, state.2 ++ [hops])

def hopsByCut (ctx : TransportContext) (record : PathRecord) :
    Result (List (List ScheduledHop)) := do
  let (used, hops) ← record.cutNets.foldlM (addCutHops ctx record) ([], [])
  raiseIf (used.length ≠ record.scheduledHops.length)
    (.validation "sampled path %r scheduled-hop binding is not exact" [record.path])
  return hops

/-- The accumulated times. `minimumTxSlackNs` starts at infinity. -/
structure Propagation where
  arrivalNs : ℚ := 0
  readyNs : ℚ := 0
  physicalLogicNs : ℚ := 0
  physicalInterfaceNs : ℚ := 0
  boardNs : ℚ := 0
  minimumTxSlackNs : WithTop ℚ := ⊤

def linkDelayNs (ctx : TransportContext) (ratioMode : Bool) (hop : ScheduledHop)
    (entry : TdmEntry) : Result ℚ := do
  let delay ← match ctx.boardLinkDelays with
    | some delays => lookupOrRaise hop.link (delays.lookup hop.arcKey)
    | none => pure hop.baseLinkDelayNs
  match ratioMode, hopModel ctx.platform hop with
  | true, some model => ratioDelayNs model entry.tdmRatio
  | _, _ => return delay

/-- Send one hop. A relay waits for what its FPGA received before. -/
def propagateHop (ctx : TransportContext) (record : PathRecord) (ratioMode : Bool)
    (state : Propagation) (item : ScheduledHop × Nat) : Result Propagation := do
  let (hop, hopIndex) := item
  let entry ← match findEntryById ctx.scheduleEntries hop.scheduleEntry with
    | some entry => pure entry
    | none => throw (EmuFlowError.validation "sampled path %r references missing schedule entry %r"
        [record.path, hop.scheduleEntry])
  let txTimeNs : ℚ := entry.slot * hop.tdmSlotNs
  let relayNs ← if hopIndex = 0 then pure 0
    else lookupOrRaise hop.txEndpoint (ctx.endpointDelays.lookup hop.txEndpoint)
  let readyNs := if hopIndex = 0 then state.readyNs else state.arrivalNs + relayNs
  -- a registered boundary is stable for the whole frame, so its first TX waits for nothing
  let txSlackNs := if ctx.transportSemantics = "registered-boundary" ∧ hopIndex = 0 then txTimeNs
    else txTimeNs - ctx.uncertaintyNs - readyNs
  let linkDelay ← linkDelayNs ctx ratioMode hop entry
  let rxDelay ← lookupOrRaise hop.rxEndpoint (ctx.endpointDelays.lookup hop.rxEndpoint)
  let arrivalNs := txTimeNs + linkDelay + rxDelay
  return { arrivalNs := arrivalNs
           readyNs := arrivalNs
           physicalLogicNs := state.physicalLogicNs
           physicalInterfaceNs := state.physicalInterfaceNs + relayNs + rxDelay
           boardNs := state.boardNs + linkDelay
           minimumTxSlackNs := min state.minimumTxSlackNs txSlackNs }

def propagateCut (ctx : TransportContext) (record : PathRecord) (member : String)
    (ratioMode : Bool) (state : Propagation)
    (item : (List ScheduledHop × RoutedSegment) × Nat) : Result Propagation := do
  let ((hops, segment), cutIndex) := item
  raiseIf (segment.replaceTxEndpoint ≠ hops.head?.map ScheduledHop.txEndpoint)
    (.validation "sampled path %r/%r logic segment %s does not terminate at its first TX"
      [record.path, member, toString cutIndex])
  hops.zipIdx.foldlM (propagateHop ctx record ratioMode)
    { state with readyNs := state.arrivalNs + segment.delayNs
                 physicalLogicNs := state.physicalLogicNs + segment.delayNs }

/-! ## the event -/

structure FixedSlotEvent where
  systemDelayBoundNs : ℚ
  physicalLogicDelayBoundNs : ℚ
  physicalInterfaceDelayBoundNs : ℚ
  physicalRoutedStageDelayBoundNs : ℚ
  scheduledLinkTdmDelayNs : ℚ
  fixedSlotEventTimingStatus : TimingStatus
  minimumTxReadinessSlackNs : WithTop ℚ
  captureCommitSlackNs : ℚ
  clockUncertaintyNs : ℚ
  boardDelayBoundNs : ℚ

def ratioModeOf (ctx : TransportContext) (record : PathRecord) : Result Bool := do
  let ratioMode := record.scheduledHops.any fun hop => (hopModel ctx.platform hop).isSome
  raiseIf (ratioMode ∧ ¬ record.scheduledHops.all fun hop => (hopModel ctx.platform hop).isSome)
    (ValidationError "one path cannot mix total net-ratio and fixed-slot delay models")
  return ratioMode

def captureSegment (record : PathRecord) (member : String) (segments : List RoutedSegment) :
    Result RoutedSegment := do
  let fault := EmuFlowError.validation
    "sampled path %r/%r lacks one final physical capture segment" [record.path, member]
  match segments.getLast? with
  | some capture => do
    raiseIf (capture.kind ≠ .capture ∨ capture.replaceTxEndpoint ≠ none) fault
    return capture
  | none => throw fault

def slotPeriodOf (record : PathRecord) : Result ℚ :=
  match (record.scheduledHops.map ScheduledHop.tdmSlotNs).dedup with
  | [period] => .ok period
  | _ => .error
    (ValidationError "sampled virtual-wire global timing requires one slot period")

def eventOf (ctx : TransportContext) (ratioMode : Bool) (state : Propagation)
    (captureDelayNs slotPeriodNs : ℚ) : FixedSlotEvent :=
  let physicalLogicNs := state.physicalLogicNs + captureDelayNs
  let captureReadyNs := state.arrivalNs + captureDelayNs
  let captureSlackNs := ctx.commitSlot * slotPeriodNs - ctx.uncertaintyNs - captureReadyNs
  let stageNs := physicalLogicNs + state.physicalInterfaceNs
  { systemDelayBoundNs :=
      (if ratioMode then stageNs + state.boardNs else captureReadyNs) + ctx.uncertaintyNs
    physicalLogicDelayBoundNs := physicalLogicNs
    physicalInterfaceDelayBoundNs := state.physicalInterfaceNs
    physicalRoutedStageDelayBoundNs := stageNs
    scheduledLinkTdmDelayNs := max 0 (if ratioMode then state.boardNs else captureReadyNs - stageNs)
    fixedSlotEventTimingStatus :=
      if ((-EVENT_TOLERANCE_NS : ℚ) : WithTop ℚ) ≤ min state.minimumTxSlackNs captureSlackNs
      then .pass else .fail
    minimumTxReadinessSlackNs := state.minimumTxSlackNs
    captureCommitSlackNs := captureSlackNs
    clockUncertaintyNs := ctx.uncertaintyNs
    boardDelayBoundNs := state.boardNs }

def fixedSlotTransportPathDelay (ctx : TransportContext) (record : PathRecord) (member : String)
    (segments : List RoutedSegment) : Result FixedSlotEvent := do
  raiseIf (ctx.transportSemantics ≠ "registered-boundary" ∧
      ctx.transportSemantics ≠ "sampled-virtual-wire")
    (ValidationError "fixed-slot transport semantics are invalid")
  let ordered := sortedBy RoutedSegment.cutIndex segments
  raiseIf (ordered.length ≠ record.cutNets.length + 1)
    (.validation "sampled path %r/%r has incomplete physical logic-segment coverage"
      [record.path, member])
  let hops ← hopsByCut ctx record
  let ratioMode ← ratioModeOf ctx record
  let state ← (hops.zip ordered).zipIdx.foldlM (propagateCut ctx record member ratioMode) {}
  let capture ← captureSegment record member ordered
  let slotPeriodNs ← slotPeriodOf record
  return eventOf ctx ratioMode state capture.delayNs slotPeriodNs

def FixedSlotEvent.WithinTolerance (event : FixedSlotEvent) : Prop :=
  ((-EVENT_TOLERANCE_NS : ℚ) : WithTop ℚ) ≤ event.minimumTxReadinessSlackNs ∧
    -EVENT_TOLERANCE_NS ≤ event.captureCommitSlackNs

/-- The verdict of an event: it passes within the tolerance and fails beyond it. -/
def FixedSlotEvent.Judged (event : FixedSlotEvent) : Prop :=
  event.fixedSlotEventTimingStatus = .pass ∧ event.WithinTolerance ∨
    event.fixedSlotEventTimingStatus = .fail ∧ ¬ event.WithinTolerance

variable {ctx : TransportContext} {event : FixedSlotEvent} {segments : List RoutedSegment}

section

variable {record : PathRecord} {member : String}
  (h : fixedSlotTransportPathDelay ctx record member segments = .ok event)
include h

theorem fixedSlotTransportPathDelay_eq_ok : ∃ ratioMode state captureDelayNs slotPeriodNs,
      event = eventOf ctx ratioMode state captureDelayNs slotPeriodNs := by
  obtain ⟨-, h⟩ := raiseIf_bind.mp h
  obtain ⟨-, h⟩ := raiseIf_bind.mp h
  simp only [bind_eq_ok] at h
  obtain ⟨hops, -, ratioMode, -, state, -, capture, -, slotPeriodNs, -, h⟩ := h
  exact ⟨ratioMode, state, capture.delayNs, slotPeriodNs, (Except.ok.inj h).symm⟩

theorem fixedSlotEvent_judged : event.Judged := by
  obtain ⟨ratioMode, state, captureDelayNs, slotPeriodNs, rfl⟩ :=
    fixedSlotTransportPathDelay_eq_ok h
  unfold FixedSlotEvent.Judged FixedSlotEvent.WithinTolerance eventOf
  dsimp only
  split
  · next hle =>
    rw [le_min_iff, WithTop.coe_le_coe] at hle
    exact Or.inl ⟨rfl, hle⟩
  · next hle =>
    rw [le_min_iff, WithTop.coe_le_coe] at hle
    exact Or.inr ⟨rfl, hle⟩

end

end EmuFlow.SystemTiming
