import EmuFlow.Tdm.Records

/-!
# The exact contract of hydrated routes

`_static_exact_contract_from_routes`, `_indexed_exact_nodes` and `_exact_contract_indexes` of
`emuflow/tdm.py`: what the contract of a routes artifact has to satisfy before it is scheduled.
The SHA-256 digests of JSON records are functions of the records that nothing is assumed of.
-/

namespace EmuFlow.Tdm

open Check SortedSet Routing TdmRatio

structure IndexedReadiness where
  net : String
  source : String
  sourceReadySlot : Int
  predecessorArrivals : List (String × Int)

structure SinkReadiness where
  net : String
  fpga : String
  arrivalSlot : Int
  budgetSlots : Int
  readySlot : Int
  commitSlot : Int
  slackSlots : Int

/-- The hexadecimal digests of what the code hashes. -/
structure Digests where
  /-- `semantic_contract_sha256`. -/
  contract : Contract → String
  order : List String → String
  readiness : List IndexedReadiness → String
  sinks : List SinkReadiness → String

/-- Digests for schedules without a contract, which never compute one. -/
def Digests.unused : Digests :=
  { contract := fun _ => "", order := fun _ => "", readiness := fun _ => "", sinks := fun _ => "" }

/-! ## the contract -/

def indexedRouteValid (route : Route) : Prop :=
  (∃ cutClass ∈ route.cutClass, cutClass ∈ ["combinational", "register_input", "register_output"]) ∧
    (∃ level ∈ route.dependencyLevel, 0 ≤ level) ∧
    (∃ depth ∈ route.combinationalDependencyDepth, 0 ≤ depth) ∧
    ∃ nets ∈ route.predecessorCutNets, ∀ net ∈ nets, net ≠ ""

instance (route : Route) : Decidable (indexedRouteValid route) :=
  inferInstanceAs (Decidable (_ ∧ _))

def checkRouteNode (contract : Contract) (routes : List Route) (net : String) : Result Unit := do
  let node ← lookupOrRaise net (Keyed.find CutNode.net contract.cutNodes net)
  let route ← lookupOrRaise net (Keyed.find Route.net routes net)
  raiseIf (node.cutClass ≠ route.cutClass)
    (.validation "exact route %r does not match contract %s" [net, "cut_class"])
  raiseIf (node.sourceFpgas ≠ [route.source])
    (.validation "exact route %r does not match contract %s" [net, "source_fpgas"])
  raiseIf (node.sinkFpgas ≠ route.sinks)
    (.validation "exact route %r does not match contract %s" [net, "sink_fpgas"])
  raiseIf (node.dependencyLevel ≠ route.dependencyLevel)
    (.validation "exact route %r does not match contract %s" [net, "dependency_level"])
  raiseIf (node.combinationalDependencyDepth ≠ route.combinationalDependencyDepth)
    (.validation "exact route %r does not match contract %s"
      [net, "combinational_dependency_depth"])
  raiseIf (node.predecessorCutNets ≠ route.predecessorCutNets)
    (.validation "exact route %r does not match contract %s" [net, "predecessor_cut_nets"])

def checkIndexedContract (contract : IndexedContract) (routes : RoutesArtifact) : Result Unit := do
  raiseIf (some contract.schema ≠ routes.semanticContractSchema ∨
      contract.mode ≠ "static-exact-combinational" ∨
      contract.qualification ≠ "structural-partition-legality")
    (ValidationError "routes indexed exact semantic contract binding is invalid")
  raiseIf (∃ route ∈ routes.routes, ¬ indexedRouteValid route)
    (ValidationError "indexed exact route dependency metadata is invalid")

def checkFullContract (digests : Digests) (contract : Contract) (digest : String)
    (routes : RoutesArtifact) : Result Unit := do
  raiseIf (contract.schema ∉ STATIC_EXACT_COMBINATIONAL_CUT_SCHEMAS ∨
      contract.mode ≠ "static-exact-combinational" ∨
      contract.qualification ≠ "structural-partition-legality" ∨
      digests.contract contract ≠ digest)
    (ValidationError "routes exact semantic contract binding is invalid")
  raiseIf (contract.schema = STATIC_EXACT_STRUCTURAL_CONTRACT_SCHEMA ∧
      ∀ policy ∈ contract.candidateSelectionPolicy, policy ∉ STATIC_EXACT_CANDIDATE_POLICIES)
    (ValidationError "routes structural exact-cut certificate is incomplete")
  raiseIf ((∃ node ∈ contract.cutNodes, node.net = "") ∨ ∃ route ∈ routes.routes, route.net = "")
    (ValidationError
      "exact contract nodes and routed demands require non-empty net identities")
  raiseIf (¬ (contract.cutNodes.map CutNode.net).Nodup ∨ ¬ (routes.routes.map Route.net).Nodup ∨
      ¬ SameSet (contract.cutNodes.map CutNode.net) (routes.routes.map Route.net))
    (ValidationError "exact contract node coverage does not match routed demands")
  forM (sorted (contract.cutNodes.map CutNode.net)) (checkRouteNode contract routes.routes)

def staticExactContractFromRoutes (digests : Digests) (routes : RoutesArtifact) :
    Result (Option RouteContract) :=
  match routes.semanticContract, routes.semanticContractSha256 with
  | none, none => .ok none
  | some (.indexed contract), some _ => do
    checkIndexedContract contract routes
    return some (.indexed contract)
  | some (.full contract), some digest => do
    checkFullContract digests contract digest routes
    return some (.full contract)
  | _, _ => .error (ValidationError "routes exact semantic contract binding is incomplete")

def indexedExactNodes (routes : List Route) : Result Unit :=
  raiseIf (¬ (routes.map Route.net).Nodup ∨ "" ∈ routes.map Route.net)
    (ValidationError "indexed exact route identities are invalid")

/-- `_exact_contract_indexes`: the identities of a contract are present and unique. -/
def exactContractIndexes (contract : Contract) : Result Unit := do
  raiseIf (∃ node ∈ contract.cutNodes, node.net = "")
    (ValidationError "exact cut nodes require non-empty net identities")
  raiseIf ((∃ segment ∈ contract.logicSegments, segment.id = "") ∨
      ∃ capture ∈ contract.captureRequirements, capture.id = "")
    (ValidationError "exact logic segments and captures require non-empty identities")
  raiseIf (¬ (contract.cutNodes.map CutNode.net).Nodup ∨
      ¬ (contract.logicSegments.map LogicSegment.id).Nodup ∨
      ¬ (contract.captureRequirements.map CaptureRequirement.id).Nodup)
    (ValidationError "exact semantic contract identities are not unique")

/-!
## Readiness under an exact contract

When the source of a cut may be sampled, and the certificate that every capture is ready before
the commit slot: the scheduler's functions of `emuflow/tdm.py`, and the ones that reconstruct the
same values for its independent validator.
-/

/-- `exact_arrivals`, the latest assignment first. -/
abbrev ExactArrivals := List ((String × String) × Int)

def predecessorArrival (arrivals : ExactArrivals) (source predecessor : String) :
    Result (String × Int) :=
  match arrivals.lookup (predecessor, source) with
  | some arrival => .ok (predecessor, arrival)
  | none => .error (.validation "indexed exact predecessor %r has not arrived at %r"
      [predecessor, source])

def indexedSourceReadiness (route : Route) (arrivals : ExactArrivals)
    (timing : TimingConstraints) : Result (Int × List (String × Int)) := do
  let predecessors ← lookupOrRaise "predecessor_cut_nets" route.predecessorCutNets
  raiseIf (timing.settleSlots < 0 ∨ ¬ predecessors.Nodup ∨ "" ∈ predecessors)
    (ValidationError "indexed exact readiness metadata is invalid")
  let evidence ← (sorted predecessors).mapM (predecessorArrival arrivals route.source)
  return (((evidence.map fun e => e.2 + timing.settleSlots).max?).getD timing.settleSlots, evidence)

def sinkReadiness (arrivals : ExactArrivals) (timing : TimingConstraints) (net sink : String) :
    Result SinkReadiness :=
  match arrivals.lookup (net, sink) with
  | none => .error (.validation "indexed exact sink %r@%r lacks an arrival" [net, sink])
  | some arrival => do
    let readySlot := arrival + timing.settleSlots
    raiseIf (timing.commitSlot - readySlot < 0)
      (.validation "indexed exact sink %r@%r misses the commit deadline" [net, sink])
    return { net := net
             fpga := sink
             arrivalSlot := arrival
             budgetSlots := timing.settleSlots
             readySlot := readySlot
             commitSlot := timing.commitSlot
             slackSlots := timing.commitSlot - readySlot }

/-- One turn of the loop of `_indexed_certificate`: the readiness records of a route. -/
def routeReadiness (arrivals : ExactArrivals) (timing : TimingConstraints) (route : Route) :
    Result (IndexedReadiness × List SinkReadiness) := do
  let (ready, evidence) ← indexedSourceReadiness route arrivals timing
  let sinks ← (sorted route.sinks).mapM (sinkReadiness arrivals timing route.net)
  return ({ net := route.net
            source := route.source
            sourceReadySlot := ready
            predecessorArrivals := evidence }, sinks)

def indexedCertificate (digests : Digests) (ordered : List Route) (arrivals : ExactArrivals)
    (timing : TimingConstraints) : Result IndexedCertificate := do
  let records ← ordered.mapM (routeReadiness arrivals timing)
  let sinks := records.flatMap Prod.snd
  return { schema := INDEXED_SAMPLED_VIRTUAL_WIRE_SCHEDULE_CERTIFICATE_SCHEMA
           provider := "indexed-conservative-readiness-certificate-v2"
           launchReadinessPolicy := "one-settle-slot-conservative-v1"
           captureCoverage := "all-routed-sinks-conservative-v1"
           topologicalCutCount := ordered.length
           topologicalCutOrderSha256 := digests.order (ordered.map Route.net)
           dependencyEdges := (records.map fun r => r.1.predecessorArrivals.length).sum
           readinessRecords := records.length
           readinessSha256 := digests.readiness (records.map Prod.fst)
           sinkReadinessChecks := sinks.length
           sinkReadinessSha256 := digests.sinks sinks
           minimumSinkSlackSlots := (sinks.map SinkReadiness.slackSlots).min? }

/-! ## source segments of full contracts -/

def sampledLogicSegmentBudgetSlots (segment : LogicSegment) (timing : TimingConstraints) :
    Result Int :=
  if segment.kind = "launch_to_tx" ∧
      segment.sourceSemantics = some "configuration-stable-constant" then .ok 0
  else do
    raiseIf (timing.settleSlots < 0)
      (ValidationError "sampled virtual-wire settle slots are invalid")
    return timing.settleSlots

def transferEvidence (node : CutNode) (segment : LogicSegment) (arrivals : ExactArrivals)
    (sourceFpga : String) (budget : Int) : Result SegmentEvidence :=
  match segment.sourceCutNet with
  | none => .error (.validation "exact dependency segment %r is inconsistent" [segment.id])
  | some predecessor => do
    raiseIf (segment.sinkCutNet ≠ some node.net ∨ segment.fpga ≠ some sourceFpga ∨
        predecessor ∉ node.predecessorCutNets.getD [])
      (.validation "exact dependency segment %r is inconsistent" [segment.id])
    match arrivals.lookup (predecessor, sourceFpga) with
    | none => throw (.validation "exact predecessor %r has not arrived at %r"
        [predecessor, sourceFpga])
    | some arrival => return .rxToTx segment.id predecessor arrival budget (arrival + budget)

def segmentEvidence (node : CutNode) (segments : List LogicSegment) (arrivals : ExactArrivals)
    (timing : TimingConstraints) (segmentId : String) : Result SegmentEvidence :=
  match Keyed.find LogicSegment.id segments segmentId with
  | none => .error (.validation "exact cut %r references unknown segment %r" [node.net, segmentId])
  | some segment => do
    let budget ← sampledLogicSegmentBudgetSlots segment timing
    if segment.kind = "launch_to_tx" then
      raiseIf (segment.sinkCutNet ≠ some node.net)
        (.validation "exact launch segment %r has wrong sink" [segmentId])
      return .launchToTx segmentId budget budget
    else if segment.kind = "rx_to_tx" then
      let sourceFpga ← lookupOrRaise "source_fpgas" node.sourceFpgas.head?
      transferEvidence node segment arrivals sourceFpga budget
    else throw (.validation "exact source segment %r has unsupported kind" [segmentId])

def SegmentEvidence.predecessor? : SegmentEvidence → Option String
  | .launchToTx _ _ _ => none
  | .rxToTx _ predecessor _ _ _ => some predecessor

/-- `max(item["ready_slot"] for item in evidence)`. -/
def latestReady (evidence : List SegmentEvidence) : Result Int :=
  match (evidence.map SegmentEvidence.readySlot).max? with
  | some ready => .ok ready
  | none => .error (.valueError "max() arg is an empty sequence" [])

def readinessOf (node : CutNode) (evidence : List SegmentEvidence) :
    Result (Int × List SegmentEvidence) := do
  raiseIf (sorted (node.predecessorCutNets.getD []) ≠
      sorted (evidence.filterMap SegmentEvidence.predecessor?))
    (.validation "exact cut %r predecessor coverage is incomplete" [node.net])
  let ready ← latestReady evidence
  return (ready, evidence)

def exactSourceReadiness (node : CutNode) (segments : List LogicSegment) (arrivals : ExactArrivals)
    (timing : TimingConstraints) : Result (Int × List SegmentEvidence) := do
  let evidence ← (node.sourceSegmentIds.getD []).mapM
    (segmentEvidence node segments arrivals timing)
  raiseIf (evidence = [])
    (.validation "exact cut %r has no source-readiness segment" [node.net])
  readinessOf node evidence

def readinessWellFormed (node : CutNode) : Prop :=
  (∃ ids ∈ node.sourceSegmentIds, ids ≠ [] ∧ ids.Nodup) ∧
    (∃ nets ∈ node.predecessorCutNets, nets.Nodup) ∧ node.sourceFpgas.length = 1

instance (node : CutNode) : Decidable (readinessWellFormed node) :=
  inferInstanceAs (Decidable (_ ∧ _))

def independentlyReconstructExactSourceReadiness (node : CutNode) (segments : List LogicSegment)
    (arrivals : ExactArrivals) (timing : TimingConstraints) :
    Result (Int × List SegmentEvidence) := do
  raiseIf (¬ readinessWellFormed node)
    (.validation "exact cut %r has malformed readiness metadata" [node.net])
  let evidence ← (node.sourceSegmentIds.getD []).mapM
    (segmentEvidence node segments arrivals timing)
  readinessOf node evidence

/-! ## captures -/

def captureSegment (segments : List LogicSegment) (captureId : String) : Result LogicSegment :=
  match segments.filter fun segment =>
    segment.kind = "rx_to_capture" ∧ segment.captureRequirement = some captureId with
  | [segment] => .ok segment
  | _ => .error (.validation "exact capture %r must have one timing segment" [captureId])

def captureArrival (segment : LogicSegment) (capture : CaptureRequirement)
    (arrivals : ExactArrivals) : Result Int :=
  match arrivals.lookup (capture.cutNet, capture.fpga) with
  | some arrival =>
    if segment.sourceCutNet = some capture.cutNet ∧ segment.fpga = some capture.fpga then .ok
      arrival
    else .error (.validation "exact capture %r is not bound to an arrival" [capture.id])
  | none => .error (.validation "exact capture %r is not bound to an arrival" [capture.id])

/-- One turn of the loop over the captures; `late` is the error of a missed commit slot. -/
def captureRecord (segments : List LogicSegment) (arrivals : ExactArrivals)
    (timing : TimingConstraints) (late : String → EmuFlowError) (capture : CaptureRequirement) :
    Result CaptureReadiness := do
  let segment ← captureSegment segments capture.id
  let arrival ← captureArrival segment capture arrivals
  let budget ← sampledLogicSegmentBudgetSlots segment timing
  let ready := arrival + budget
  raiseIf (timing.commitSlot - ready < 0) (late capture.id)
  return { capture := capture.id
           cutNet := capture.cutNet
           fpga := capture.fpga
           segment := segment.id
           arrivalSlot := arrival
           budgetSlots := budget
           readySlot := ready
           commitSlot := timing.commitSlot
           slackSlots := timing.commitSlot - ready }

def captureRecords (segments : List LogicSegment) (captures : List CaptureRequirement)
    (arrivals : ExactArrivals) (timing : TimingConstraints) (late : String → EmuFlowError) :
    Result (List CaptureReadiness × Option Int) := do
  let records ← (sortedBy CaptureRequirement.id captures).mapM
    (captureRecord segments arrivals timing late)
  return (records, (records.map CaptureReadiness.slackSlots).min?)

def exactCaptureCertificate (segments : List LogicSegment) (captures : List CaptureRequirement)
    (arrivals : ExactArrivals) (timing : TimingConstraints) :
    Result (List CaptureReadiness × Option Int) :=
  captureRecords segments captures arrivals timing fun captureId =>
    .validation "exact schedule is infeasible at capture %r" [captureId]

def capturesCovered (segments : List LogicSegment) (captures : List CaptureRequirement) : Prop :=
  (∀ segment ∈ segments, segment.kind = "rx_to_capture" →
      ∃ id ∈ segment.captureRequirement, id ∈ captures.map CaptureRequirement.id) ∧
    ∀ capture ∈ captures, ∃ segment ∈ segments,
      segment.kind = "rx_to_capture" ∧ segment.captureRequirement = some capture.id

instance (segments : List LogicSegment) (captures : List CaptureRequirement) :
    Decidable (capturesCovered segments captures) :=
  inferInstanceAs (Decidable (_ ∧ _))

def independentlyReconstructExactCaptures (segments : List LogicSegment)
    (captures : List CaptureRequirement) (arrivals : ExactArrivals) (timing : TimingConstraints) :
    Result (List CaptureReadiness × Option Int) := do
  raiseIf (timing.commitSlot < 0) (ValidationError "exact contract commit slot is invalid")
  raiseIf (∃ segment ∈ segments, segment.kind = "rx_to_capture" ∧ segment.captureRequirement = none)
    (ValidationError "exact capture segment lacks a capture identity")
  raiseIf (¬ capturesCovered segments captures)
    (ValidationError "exact capture segment coverage is incomplete")
  captureRecords segments captures arrivals timing fun captureId =>
    .validation "exact capture %r misses the commit deadline" [captureId]

end EmuFlow.Tdm
