import Mathlib.Data.Rat.Defs
import EmuFlow.Partition.Clusters

/-!
# Replicable clusters

`replicable_clusters` of `emuflow/replication.py`: the clusters of look-up tables that can be
copied, with the proof that their fan-in is closed. The source scans the nets once and keeps its
tables by cluster; here every cluster has a scan of its own.
-/

namespace EmuFlow.Replication

open Check SortedSet CombinationalCut EmuFlow.Partition

def REPLICABLE_BOUNDARY_CLASSES : List CutClass :=
  [.clock, .primaryInput, .registerOutput, .reset]

def isKnownCombinational (inst : Instance) : Bool :=
  let r := inst.resources
  -- `_STATEFUL_RESOURCES`
  if r.bram18k ≠ 0 ∨ r.clock ≠ 0 ∨ r.dsp48 ≠ 0 ∨ r.ff ≠ 0 ∨ r.io ≠ 0 ∨ r.uram288 ≠ 0 then false
  else decide (inst.type ∈ ["LUT1", "LUT2", "LUT3", "LUT4", "LUT5", "LUT6"])

/-- An entry of `boundary_inputs`. -/
structure BoundaryInput where
  net : String
  cutClass : CutClass
  externalDrivers : List String
  deriving DecidableEq

/-- The entry of a cluster in `fanin_proofs`; its three flags are always true. -/
structure FaninProof where
  cluster : String
  instances : ℕ
  internalNets : ℕ
  boundaryInputs : List BoundaryInput
  deriving DecidableEq

structure Scan where
  adjacency : List (String × String) := []
  boundaryInputs : List BoundaryInput := []
  internalNets : ℕ := 0

/-- `adjacency[driver].add(sink)` -/
def Scan.connect (scan : Scan) (edge : String × String) : Scan :=
  if edge ∈ scan.adjacency then scan
  else { scan with adjacency := scan.adjacency ++ [edge] }

/-- One net of the scan; `none` when the cluster is invalid. -/
def scanNet (members : List String) (scan : Scan) (net : Net) : Option Scan :=
  let driverInstances := endpointInstances net.drivers
  let sinkInstances := endpointInstances net.sinks
  let internalDrivers := driverInstances.filter fun id => id ∈ members
  let internalSinks := sinkInstances.filter fun id => id ∈ members
  let externalDrivers := driverInstances.filter fun id => id ∉ members
  if internalSinks = [] then some scan
  else if 1 < driverInstances.length ∨ net.cutClass = .multiDriver then none
  else if (externalDrivers ≠ [] ∨ driverInstances = []) ∧
      net.cutClass ∉ REPLICABLE_BOUNDARY_CLASSES then none
  else
    let scan :=
      if externalDrivers ≠ [] ∨ driverInstances = [] then
        { scan with boundaryInputs := scan.boundaryInputs ++
            [{ net := net.id, cutClass := net.cutClass, externalDrivers := externalDrivers }] }
      else scan
    let scan :=
      if internalDrivers ≠ [] then { scan with internalNets := scan.internalNets + 1 } else scan
    some ((internalDrivers.flatMap fun driver => internalSinks.map fun sink => (driver, sink)).foldl
      Scan.connect scan)

def visited (members : List String) (adjacency : List (String × String)) : Result (List String) :=
  let indegree := fun id => ((adjacency.countP fun edge => edge.2 = id : ℕ) : ℤ)
  ReadyQueue.run (fun _ => (.ok 0 : Result Nat))
    (fun id => sorted ((adjacency.filter fun edge => edge.1 = id).map Prod.snd)) members.length
    (sorted (members.filter fun id => indegree id = 0)) indegree

def replicable (ir : EmuIR) (cluster : Cluster) : Result (Option FaninProof) := do
  let instances ← cluster.instances.mapM fun id => lookupOrRaise id (ir.findInstance id)
  if !instances.all isKnownCombinational then return none
  match ir.nets.foldlM (scanNet cluster.instances) {} with
  | none => return none
  | some scan =>
    let order ← visited cluster.instances scan.adjacency
    if order.length ≠ cluster.instances.length then return none
    return some
      { cluster := cluster.id
        instances := cluster.instances.length
        internalNets := scan.internalNets
        boundaryInputs := sortedBy (fun input => lex input.net input.cutClass.text)
          scan.boundaryInputs }

/-- `replicable_clusters`: the legal clusters with their proofs, of which the caller reads those of
`proof_clusters`. -/
def replicableClusters (ir : EmuIR) (clusters : List Cluster) : Result (List FaninProof) := do
  let proofs ← (sortedBy Cluster.id clusters).mapM (replicable ir)
  return proofs.filterMap id

/-!
## The replication artifact

`emuflow/replication.py`: the copies of the clusters that are asked for, what they cost, and which
nets are cut with them. The digest of the cuts is a parameter; the name of the design, the constant
policy and the utilization of the partitions are left out.
-/

/-! ## replicas and locations -/

structure FpgaCapacity where
  id : String
  effectiveCapacity : ResourceVector

abbrev Replicas := List (String × List String)

/-- One turn of the loop of `_normalize_replicas`. -/
def normalizeTargets (clusterAssignment : List (String × String)) (fpgaIds : List String)
    (entry : String × List String) : Result (Option (String × List String)) := do
  let duplicateTargets := sortedSet (entry.2.filter fun target => 1 < entry.2.count target)
  raiseIf (duplicateTargets ≠ [])
    (.validation "replicas[%r] contains duplicate targets %s" (entry.1 :: duplicateTargets))
  let unknownTargets := sortedSet (entry.2.filter fun target => target ∉ fpgaIds)
  raiseIf (unknownTargets ≠ [])
    (.validation "replicas[%r] references unknown FPGAs %s" (entry.1 :: unknownTargets))
  let primary ← lookupOrRaise entry.1 (clusterAssignment.lookup entry.1)
  raiseIf (primary ∈ entry.2) (.validation "replicas[%r] repeats its primary FPGA" [entry.1])
  return if entry.2 = [] then none else some (entry.1, sorted entry.2)

def normalizeReplicas (replicas : Replicas) (clusterAssignment : List (String × String))
    (fpgaIds : List String) : Result Replicas := do
  let unknownClusters := sortedSet ((replicas.map Prod.fst).filter fun id =>
    id ∉ clusterAssignment.map Prod.fst)
  raiseIf (unknownClusters ≠ [])
    (.validation "replicas reference unknown clusters %s" (unknownClusters.take 8))
  let normalized ← (sortedBy Prod.fst replicas).mapM (normalizeTargets clusterAssignment fpgaIds)
  return normalized.filterMap id

abbrev Locations := List (String × List String)

def instanceLocations (clusterAssignment : List (String × String)) (clusters : List Cluster)
    (replicas : Replicas) : Result Locations := do
  let parts ← clusters.mapM fun cluster => do
    let primary ← lookupOrRaise cluster.id (clusterAssignment.lookup cluster.id)
    return cluster.instances.map fun id =>
      (id, primary :: (replicas.lookup cluster.id).getD [])
  return parts.flatten

/-! ## the effective cuts -/

def endpointLocations (locations : Locations) (endpoints : List Endpoint) :
    Result (List String) := do
  let lists ← (endpoints.filterMap Endpoint.inst).mapM fun id =>
    lookupOrRaise id (locations.lookup id)
  return lists.flatten

/-- One turn of the loop of `_compute_effective_cuts`, with the FPGAs of the primary drivers, of all
drivers and of all sinks. -/
def effectiveOutcome (net : Net) (primaryDrivers drivers sinks : List String) : NetOutcome :=
  let primaryDriverFpgas := sortedSet primaryDrivers
  let sinkFpgas := sortedSet sinks
  if net.cutClass = .clock ∨ net.cutClass = .reset then
    { globalNet := 1 < (sortedSet (drivers ++ sinks)).length }
  else if primaryDriverFpgas = [] ∧ net.cutClass = .primaryInput then
    { replicatedPrimaryInput := 1 < sinkFpgas.length }
  else { cut := cutRecord net primaryDriverFpgas sinks (sinkFpgas.filter fun f => f ∉ drivers) }

abbrev EndpointCounts := List ((String × String) × ℕ)

/-- The entries of a net in `endpoint_counts`. -/
def endpointCounts (net : Net) (sinks : List String) (outcome : NetOutcome) : EndpointCounts :=
  outcome.cut.elim [] fun cut => cut.sinkFpgas.map fun f => ((net.id, f), sinks.count f)

def effectiveTurn (primary : InstanceAssignment) (locations : Locations) (net : Net) :
    Result (NetOutcome × EndpointCounts) := do
  let primaryDrivers ← endpointFpgas primary net.drivers
  raiseIf (1 < (sortedSet primaryDrivers).length)
    (.validation "replication requires a unique primary driver for net %r" [net.id])
  let drivers ← endpointLocations locations net.drivers
  let sinks ← endpointLocations locations net.sinks
  let outcome := effectiveOutcome net primaryDrivers drivers sinks
  return (outcome, endpointCounts net sinks outcome)

def computeEffectiveCuts (ir : EmuIR) (primary : InstanceAssignment) (locations : Locations) :
    Result (List CutRecord × CutMetrics × EndpointCounts) := do
  let outcomes ← ir.nets.mapM (effectiveTurn primary locations)
  return (sortedBy CutRecord.net ((outcomes.map Prod.fst).filterMap NetOutcome.cut),
    cutMetrics (outcomes.map Prod.fst), (outcomes.map Prod.snd).flatten)

/-! ## the artifact -/

structure ReplicaRecord where
  cluster : String
  primaryFpga : String
  targetFpga : String
  resources : ResourceVector
  instances : List (String × String)
  deriving DecidableEq

structure CutDelta where
  net : String
  fpga : String
  baseSinkEndpoints : ℕ
  effectiveSinkEndpoints : ℕ
  delta : ℤ
  deriving DecidableEq

structure FpgaResources where
  fpga : String
  primary : ResourceVector
  replica : ResourceVector
  effective : ResourceVector
  effectiveCapacity : ResourceVector
  deriving DecidableEq

structure ReplicationMetrics where
  replicaClusters : ℕ
  replicaCopies : ℕ
  replicaInstances : ℕ
  replicaLuts : ℕ
  baseCutNets : ℕ
  effectiveCutNets : ℕ
  cutNetReduction : ℤ
  baseCutSinkEndpoints : ℕ
  effectiveCutSinkEndpoints : ℕ
  cutSinkEndpointReduction : ℤ
  cutSinkEndpointReductionPerReplica : ℚ
  deriving DecidableEq

structure ReplicationArtifact where
  replicas : List ReplicaRecord
  replicaInstanceAssignment : List (String × String)
  faninProofs : List FaninProof
  cutDeltas : List CutDelta
  resourcesByFpga : List FpgaResources
  metrics : ReplicationMetrics
  baseCutNetsSha256 : String
  effectiveCutNetsSha256 : String
  deriving DecidableEq

structure PartitionAssignment where
  clusterAssignment : List (String × String)
  instanceAssignment : InstanceAssignment
  cutNets : List CutRecord
  cutMetrics : CutMetrics
  replication : Option ReplicationArtifact := none

def copyId (id target : String) : String := id ++ "__emuflow_replica__" ++ target

/-- `replica_instance_assignment[copy_id] = target` -/
def copyInstance (originals : List String) (target : String) (copies : List (String × String))
    (id : String) : Result (List (String × String)) := do
  raiseIf (copyId id target ∈ originals ∨ copyId id target ∈ copies.map Prod.fst)
    (.validation "generated replica id %r is not unique" [copyId id target])
  return copies ++ [(copyId id target, target)]

def cutDeltas (base effective : EndpointCounts) : List CutDelta :=
  (sortedBy (fun key => lex key.1 key.2) ((base ++ effective).map Prod.fst).dedup).filterMap
    fun key =>
      let before := (base.lookup key).getD 0
      let after := (effective.lookup key).getD 0
      if before ≠ after then
        some
          { net := key.1
            fpga := key.2
            baseSinkEndpoints := before
            effectiveSinkEndpoints := after
            delta := after - before }
      else none

def fpgaResources (ir : EmuIR) (primary : InstanceAssignment) (clusters : List Cluster)
    (replicas : Replicas) (fpga : FpgaCapacity) : Result FpgaResources := do
  let instances ← ir.instances.mapM fun inst => do
    let assigned ← lookupOrRaise inst.id (primary.lookup inst.id)
    return if assigned = fpga.id then some inst.resources else none
  let copies ← (replicas.filter fun entry => fpga.id ∈ entry.2).mapM fun entry =>
    lookupOrRaise entry.1 (Keyed.find Cluster.id clusters entry.1)
  let primaryResources := ResourceVector.sum (instances.filterMap id)
  let replicaResources := ResourceVector.sum (copies.map Cluster.resources)
  let effective := primaryResources.add replicaResources
  raiseIf (effective.fitsCapacity fpga.effectiveCapacity = false)
    (.validation "replicas exceed effective capacity of %r" [fpga.id])
  return { fpga := fpga.id
           primary := primaryResources
           replica := replicaResources
           effective := effective
           effectiveCapacity := fpga.effectiveCapacity }

def replicaRecords (clusters : List Cluster) (clusterAssignment : List (String × String))
    (entry : String × List String) : Result (List ReplicaRecord) := do
  let cluster ← lookupOrRaise entry.1 (Keyed.find Cluster.id clusters entry.1)
  let primary ← lookupOrRaise entry.1 (clusterAssignment.lookup entry.1)
  return entry.2.map fun target =>
    { cluster := entry.1
      primaryFpga := primary
      targetFpga := target
      resources := cluster.resources
      instances := cluster.instances.map fun id => (id, copyId id target) }

section artifact

variable (digest : List CutRecord → String) (ir : EmuIR) (fpgas : List FpgaCapacity)
  (clusters : List Cluster)

def buildReplicationArtifact (primary : PartitionAssignment) (replicas : Replicas) :
    Result (ReplicationArtifact × List CutRecord × CutMetrics) := do
  let normalized ← normalizeReplicas replicas primary.clusterAssignment
    (fpgas.map FpgaCapacity.id)
  let legal ← replicableClusters ir clusters
  let illegal := sorted ((normalized.map Prod.fst).filter fun id =>
    id ∉ legal.map FaninProof.cluster)
  raiseIf (illegal ≠ [])
    (.validation ("RePart requested replicas for clusters that failed the " ++
      "combinational-fanin proof: %s") (illegal.take 8))
  let proofs ← (sorted (normalized.map Prod.fst)).mapM fun id =>
    lookupOrRaise id (Keyed.find FaninProof.cluster legal id)
  let locations ← instanceLocations primary.clusterAssignment clusters normalized
  let resources ← fpgas.mapM
    (fpgaResources ir primary.instanceAssignment clusters normalized)
  let base ← computeCutNetsWithMetrics ir primary.instanceAssignment
  let effective ← computeEffectiveCuts ir primary.instanceAssignment locations
  let baseEffective ← computeEffectiveCuts ir primary.instanceAssignment
    (primary.instanceAssignment.map fun item => (item.1, [item.2]))
  let records ← normalized.mapM (replicaRecords clusters primary.clusterAssignment)
  let copies ← records.flatten.foldlM (fun copies record =>
    (record.instances.map Prod.fst).foldlM
      (copyInstance (primary.instanceAssignment.map Prod.fst) record.targetFpga) copies) []
  let reduction : ℤ := base.2.cutSinkEndpoints - effective.2.1.cutSinkEndpoints
  let cells := (records.flatten.map fun record => record.instances.length).sum
  let artifact : ReplicationArtifact :=
    { replicas := records.flatten
      replicaInstanceAssignment := sortedBy Prod.fst copies
      faninProofs := proofs
      cutDeltas := cutDeltas baseEffective.2.2 effective.2.2
      resourcesByFpga := resources
      metrics :=
        { replicaClusters := normalized.length
          replicaCopies := records.flatten.length
          replicaInstances := cells
          replicaLuts := (records.flatten.map fun record => record.resources.lut).sum
          baseCutNets := base.2.cutNets
          effectiveCutNets := effective.2.1.cutNets
          cutNetReduction := base.2.cutNets - effective.2.1.cutNets
          baseCutSinkEndpoints := base.2.cutSinkEndpoints
          effectiveCutSinkEndpoints := effective.2.1.cutSinkEndpoints
          cutSinkEndpointReduction := reduction
          cutSinkEndpointReductionPerReplica := if cells ≠ 0 then reduction / cells else 0 }
      baseCutNetsSha256 := digest base.1
      effectiveCutNetsSha256 := digest effective.1 }
  return (artifact, effective.1, effective.2.1)

def applyReplication (primary : PartitionAssignment) (replicas : Replicas) :
    Result PartitionAssignment := do
  let built ← buildReplicationArtifact digest ir fpgas clusters primary replicas
  return { primary with
    replication := some built.1
    cutNets := built.2.1
    -- the entries of the new metrics replace those of the same name
    cutMetrics := { built.2.2 with
      registerInputCutNets :=
        built.2.2.registerInputCutNets.or primary.cutMetrics.registerInputCutNets } }

def validateReplicationArtifact (assignment : PartitionAssignment) :
    Result (ReplicationArtifact × List CutRecord × CutMetrics) := do
  let raw ← match assignment.replication with
    | none => .error (ValidationError "assignment.replication: expected an object")
    | some raw => .ok raw
  let replicas := raw.replicas.foldl
    (fun replicas record => Keyed.append record.cluster record.targetFpga replicas) []
  let expected ← buildReplicationArtifact digest ir fpgas clusters
    { assignment with replication := none } replicas
  raiseIf (raw ≠ expected.1)
    (ValidationError ("assignment.replication does not match independently recomputed " ++
      "replica legality, resources, or communication deltas"))
  return expected

end artifact

end EmuFlow.Replication
