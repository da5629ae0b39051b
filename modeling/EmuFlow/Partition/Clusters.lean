import EmuFlow.CombinationalCut.Dependencies
import EmuFlow.Lib.UnionFind
import EmuFlow.Partition.Constraints

/-!
# Clusters

`build_clusters` of `emuflow/partition.py`, and what `build_partition_assignment` and
`validate_partition_artifacts` make of them. The name of the design is left out.
-/

namespace EmuFlow.Partition

open Check SortedSet CombinationalCut List Keyed

/-! ## which nets may be cut -/

def TRANSPORTED_CUT_CLASSES : List CutClass := [.registerOutput, .registerInput]

def LEGAL_CUT_CLASSES : List CutClass := TRANSPORTED_CUT_CLASSES ++ [.primaryInput]

def REPLICATED_NET_CLASSES : List CutClass := [.clock, .reset, .primaryInput]

/-- `STATIC_EXACT_CANDIDATE_POLICIES` -/
inductive CandidatePolicy
  | assignmentV2

inductive CutMode
  | sequentialOnly
  | staticExact (maxDependencyDepth : ℕ) (policy : CandidatePolicy)

/-- `released_combinational_nets` -/
def CutMode.releasedNets (ir : EmuIR) : CutMode → List String
  | .sequentialOnly => []
  | .staticExact _ _ => eligibleIds ir

def instanceIdsOnNet (net : Net) : List String := endpointInstances (net.drivers ++ net.sinks)

/-! ## the clusters -/

def sumResources (ir : EmuIR) (members : List String) : Result ResourceVector := do
  let instances ← members.mapM fun id => lookupOrRaise id (ir.findInstance id)
  return ResourceVector.sum (instances.map Instance.resources)

structure Cluster where
  id : String
  instances : List String
  resources : ResourceVector
  fixedFpga : Option String
  groups : List String

structure CutPolicy where
  maxDependencyDepth : ℕ
  eligibleCombinationalCutNets : List String
  transportedCutClasses : List CutClass
  candidateSelectionPolicy : CandidatePolicy

structure ClustersArtifact where
  clusters : List Cluster
  instances : ℕ
  cutPolicy : Option CutPolicy

def indexById (ids : List String) (id : String) : Result (Fin ids.length) :=
  lookupOrRaise id (ids.finIdxOf? id)

/-- The loop over `members[1:]`. -/
def unionMembers (ids : List String) (unionFind : UnionFind (Fin ids.length)) :
    List String → Result (UnionFind (Fin ids.length))
  | [] => .ok unionFind
  | first :: rest => rest.foldlM (fun unionFind member => do
      let left ← indexById ids first
      let right ← indexById ids member
      return unionFind.union left right) unionFind

def unionNet (ids released : List String) (unionFind : UnionFind (Fin ids.length)) (net : Net) :
    Result (UnionFind (Fin ids.length)) :=
  let members := instanceIdsOnNet net
  if members.length < 2 then .ok unionFind
  else if net.cutClass ∉ LEGAL_CUT_CLASSES ++ REPLICATED_NET_CLASSES ∧ net.id ∉ released then
    unionMembers ids unionFind members
  else .ok unionFind

def atomicSets (ir : EmuIR) (constraints : PartitionConstraints) (ids released : List String) :
    Result (UnionFind (Fin ids.length)) := do
  let unionFind ← constraints.groups.foldlM
    (fun unionFind group => unionMembers ids unionFind group.instances) (UnionFind.init _)
  ir.nets.foldlM (unionNet ids released) unionFind

/-- `members_by_root`: the roots are found one after the other, in the forest the walks before
have left. -/
def membersByRoot (ids : List String) (unionFind : UnionFind (Fin ids.length)) :
    List (Fin ids.length × List (Fin ids.length)) :=
  ((finRange ids.length).foldl (fun state index =>
    let found := state.1.find index
    (found.1, append found.2 index state.2)) (unionFind, [])).2

def rawClusters (ids : List String) (unionFind : UnionFind (Fin ids.length)) :
    List (List String) :=
  sortedBy (fun members => members.head?.getD "")
    ((membersByRoot ids unionFind).map fun entry => sorted (entry.2.map ids.get))

/-- `fixed_by_instance.get(id)`; the last item decides. -/
def fixedByInstance (constraints : PartitionConstraints) (id : String) : Option String :=
  (constraints.fixed.reverse.find? fun item => item.inst = id).map Fixed.fpga

/-- `groups_by_instance.get(id, [])` -/
def groupsByInstance (constraints : PartitionConstraints) (id : String) : List String :=
  (constraints.groups.filter fun group => id ∈ group.instances).map Group.id

/-- `f"c{index:06d}"` -/
def clusterId (index : ℕ) : String :=
  let digits := toString index
  "c" ++ "".pushn '0' (6 - digits.length) ++ digits

/-- One turn of the loop over `raw_clusters`. -/
def buildCluster (ir : EmuIR) (constraints : PartitionConstraints) (raw : List String × ℕ) :
    Result Cluster := do
  let members := raw.1
  let fixedFpgas := sortedSet (members.filterMap (fixedByInstance constraints))
  raiseIf (1 < fixedFpgas.length)
    (.validation "cluster containing %r has conflicting fixed FPGA constraints %s"
      (members.head?.toList ++ fixedFpgas))
  let resources ← sumResources ir members
  return { id := clusterId raw.2
           instances := members
           resources := resources
           fixedFpga := fixedFpgas.head?
           groups := sortedSet (members.flatMap (groupsByInstance constraints)) }

def CutMode.cutPolicy (ir : EmuIR) : CutMode → Option CutPolicy
  | .sequentialOnly => none
  | .staticExact maxDependencyDepth policy => some
    { maxDependencyDepth := maxDependencyDepth
      eligibleCombinationalCutNets := sorted (eligibleIds ir)
      transportedCutClasses := TRANSPORTED_CUT_CLASSES ++ [.combinational]
      candidateSelectionPolicy := policy }

def buildClusters (ir : EmuIR) (constraints : PartitionConstraints) (mode : CutMode) :
    Result ClustersArtifact := do
  let ids := sorted (ir.instances.map Instance.id)
  let unionFind ← atomicSets ir constraints ids (mode.releasedNets ir)
  let clusters ← (rawClusters ids unionFind).zipIdx.mapM (buildCluster ir constraints)
  return { clusters := clusters, instances := ids.length, cutPolicy := mode.cutPolicy ir }

/-! ## the sets of the union-find -/

section sets

variable {ids : List String} {β : Type} {f : String → β}

def ConstantOn (f : String → β) (members : List String) : Prop :=
  ∀ a ∈ members, ∀ b ∈ members, f a = f b

theorem get_of_indexById {id : String} {index : Fin ids.length} (h : indexById ids id = .ok index) :
    ids.get index = id :=
  (List.finIdxOf?_eq_some_iff.mp (lookupOrRaise_eq_ok.mp h)).1

theorem unionMembers_respects {u u' : UnionFind (Fin ids.length)} :
    ∀ {members : List String}, unionMembers ids u members = .ok u' →
      (u'.Respects (f ∘ ids.get) ↔ u.Respects (f ∘ ids.get) ∧ ConstantOn f members)
  | [], h => by
    cases h
    exact ⟨fun hu => ⟨hu, fun _ ha => absurd ha not_mem_nil⟩, And.left⟩
  | first :: rest, h => by
    have hfl := foldlM_iff (P := fun u => u.Respects (f ∘ ids.get))
      (Q := fun member => f first = f member) (fun member _ v v' hs => by
        simp only [bind_eq_ok] at hs
        obtain ⟨left, hl, right, hr, hs⟩ := hs
        rw [← Except.ok.inj hs, UnionFind.union_respects, Function.comp_apply,
          Function.comp_apply, get_of_indexById hl, get_of_indexById hr]) h
    rw [hfl]
    refine and_congr_right fun _ => ⟨fun hrs a ha b hb => ?_, fun hc member hm =>
      hc first mem_cons_self member (mem_cons_of_mem _ hm)⟩
    have hf : ∀ member ∈ first :: rest, f first = f member := forall_mem_cons.mpr ⟨rfl, hrs⟩
    rw [← hf a ha, hf b hb]

theorem constantOn_of_length_lt {members : List String} (h : members.length < 2) :
    ConstantOn f members := by
  intro a ha b hb
  match members, h with
  | [member], _ => rw [mem_singleton.mp ha, mem_singleton.mp hb]

def MayCut (released : List String) (net : Net) : Prop :=
  net.cutClass ∈ LEGAL_CUT_CLASSES ++ REPLICATED_NET_CLASSES ∨ net.id ∈ released

variable {released : List String}

theorem unionNet_respects {u u' : UnionFind (Fin ids.length)} {net : Net}
    (h : unionNet ids released u net = .ok u') :
    u'.Respects (f ∘ ids.get) ↔
      u.Respects (f ∘ ids.get) ∧ (¬ MayCut released net → ConstantOn f (instanceIdsOnNet net)) := by
  rw [unionNet] at h
  split_ifs at h with hs hct
  · cases h
    exact ⟨fun hu => ⟨hu, fun _ => constantOn_of_length_lt hs⟩, And.left⟩
  · rw [unionMembers_respects h]
    have hn : ¬ MayCut released net := by
      rintro (hc | hr)
      · exact hct.1 hc
      · exact hct.2 hr
    exact and_congr_right fun _ => ⟨fun hcn _ => hcn, fun hcn => hcn hn⟩
  · cases h
    refine ⟨fun hu => ⟨hu, fun hn => absurd ?_ hn⟩, And.left⟩
    by_contra hm
    exact hct ⟨fun hc => hm (.inl hc), fun hr => hm (.inr hr)⟩

variable {u : UnionFind (Fin ids.length)}

theorem atomicSets_respects {ir : EmuIR} {constraints : PartitionConstraints}
    (h : atomicSets ir constraints ids released = .ok u) :
    u.Respects (f ∘ ids.get) ↔ (∀ group ∈ constraints.groups, ConstantOn f group.instances) ∧
      ∀ net ∈ ir.nets, ¬ MayCut released net → ConstantOn f (instanceIdsOnNet net) := by
  obtain ⟨v, hv, h⟩ := bind_eq_ok.mp h
  rw [foldlM_iff (fun net _ _ _ hs => unionNet_respects hs) h,
    foldlM_iff (P := fun u => u.Respects (f ∘ ids.get))
      (fun group _ _ _ hs => unionMembers_respects hs) hv]
  exact and_congr_left fun _ => and_iff_right UnionFind.respects_init

theorem membersByRoot_eq (u : UnionFind (Fin ids.length)) :
    membersByRoot ids u = groupBy u.root (finRange ids.length) := by
  have hf : ∀ (l : List (Fin ids.length)) (v : UnionFind (Fin ids.length))
      (groups : List (Fin ids.length × List (Fin ids.length))), (∀ i, v.root i = u.root i) →
        (l.foldl (fun state index =>
          let found := state.1.find index
          (found.1, append found.2 index state.2)) (v, groups)).2 =
            l.foldl (fun groups index => append (u.root index) index groups) groups := by
    intro l
    induction l with
    | nil => exact fun _ _ _ => rfl
    | cons index l ih =>
      intro v groups hr
      rw [foldl_cons, foldl_cons, ih _ _ fun i => by rw [UnionFind.find_root, hr]]
      show l.foldl _ (append (v.root index) index groups) = _
      rw [hr]
  exact hf _ u [] fun _ => rfl

theorem mem_rawClusters {members : List String} : members ∈ rawClusters ids u ↔ ∃ i, members =
      sorted (((finRange ids.length).filter fun j => u.root j = u.root i).map ids.get) := by
  rw [rawClusters, mem_sortedBy, mem_map, membersByRoot_eq]
  constructor
  · rintro ⟨⟨root, indices⟩, he, rfl⟩
    obtain ⟨hr, rfl⟩ := mem_groupBy.mp he
    obtain ⟨i, -, rfl⟩ := mem_map.mp hr
    exact ⟨i, rfl⟩
  · rintro ⟨i, rfl⟩
    exact ⟨_, mem_groupBy.mpr ⟨mem_map_of_mem (mem_finRange i), rfl⟩, rfl⟩

theorem respects_iff_rawClusters :
    u.Respects (f ∘ ids.get) ↔ ∀ members ∈ rawClusters ids u, ConstantOn f members := by
  constructor
  · intro h members hm a ha b hb
    obtain ⟨i, rfl⟩ := mem_rawClusters.mp hm
    simp only [mem_sorted, mem_map, mem_filter, decide_eq_true_eq] at ha hb
    obtain ⟨j, ⟨-, hj⟩, rfl⟩ := ha
    obtain ⟨k, ⟨-, hk⟩, rfl⟩ := hb
    exact h j k (hj.trans hk.symm)
  · intro h i j hr
    refine h _ (mem_rawClusters.mpr ⟨i, rfl⟩) _ ?_ _ ?_ <;>
      simp only [mem_sorted, mem_map, mem_filter, decide_eq_true_eq]
    · exact ⟨i, ⟨mem_finRange i, rfl⟩, rfl⟩
    · exact ⟨j, ⟨mem_finRange j, hr.symm⟩, rfl⟩

theorem mem_flatten_rawClusters {id : String} : id ∈ (rawClusters ids u).flatten ↔ id ∈ ids := by
  rw [mem_flatten]
  constructor
  · rintro ⟨members, hm, hid⟩
    obtain ⟨i, rfl⟩ := mem_rawClusters.mp hm
    obtain ⟨j, -, rfl⟩ := mem_map.mp (mem_sorted.mp hid)
    exact get_mem ids j
  · intro hid
    obtain ⟨i, rfl⟩ := List.get_of_mem hid
    refine ⟨_, mem_rawClusters.mpr ⟨i, rfl⟩, mem_sorted.mpr (mem_map_of_mem ?_)⟩
    simp

theorem nodup_flatten_rawClusters (hn : ids.Nodup) (u : UnionFind (Fin ids.length)) :
    (rawClusters ids u).flatten.Nodup := by
  have hin : Function.Injective ids.get := nodup_iff_injective_get.mp hn
  rw [rawClusters, ((sortedBy_perm _ _).flatten).nodup_iff, membersByRoot_eq, nodup_flatten]
  constructor
  · intro members hm
    obtain ⟨⟨root, indices⟩, he, rfl⟩ := mem_map.mp hm
    obtain ⟨-, rfl⟩ := mem_groupBy.mp he
    exact nodup_sorted.mpr (((nodup_finRange _).filter _).map hin)
  · rw [pairwise_map]
    have hk := nodup_groupBy u.root (finRange ids.length)
    refine (pairwise_map.mp hk).imp_of_mem fun {entry entry'} he he' hne => ?_
    intro id hid hid'
    obtain ⟨i, hi, rfl⟩ := mem_map.mp (mem_sorted.mp hid)
    obtain ⟨j, hj, hij⟩ := mem_map.mp (mem_sorted.mp hid')
    obtain rfl := hin hij
    rw [(mem_groupBy.mp he).2, mem_filter, decide_eq_true_eq] at hi
    rw [(mem_groupBy.mp he').2, mem_filter, decide_eq_true_eq] at hj
    exact hne (hi.2.symm.trans hj.2)

end sets

/-! ## assignments -/

/-- The expansion of a cluster assignment in `build_partition_assignment`. -/
def expandClusterAssignment (clusters : List Cluster) (fpgaIds : List String)
    (clusterAssignment : List (String × String)) : Result InstanceAssignment := do
  let missing := sorted ((clusters.map Cluster.id).filter fun id =>
    id ∉ clusterAssignment.map Prod.fst)
  let extra := sorted ((clusterAssignment.map Prod.fst).filter fun id =>
    id ∉ clusters.map Cluster.id)
  raiseIf (missing ++ extra ≠ [])
    (.validation "cluster assignment exact coverage failed; missing=%s, extra=%s"
      (missing.take 8 ++ extra.take 8))
  let unknownFpgas := sortedSet ((clusterAssignment.map Prod.snd).filter fun f => f ∉ fpgaIds)
  raiseIf (unknownFpgas ≠ [])
    (.validation "cluster assignment references unknown FPGAs %s" unknownFpgas)
  let parts ← clusters.mapM fun cluster => do
    let fpga ← lookupOrRaise cluster.id (clusterAssignment.lookup cluster.id)
    return cluster.instances.map fun id => (id, fpga)
  return parts.flatten

def assignedFpgas (assignment : InstanceAssignment) (members : List String) :
    Result (List String) := do
  let fpgas ← members.mapM fun id => lookupOrRaise id (assignment.lookup id)
  return sortedSet fpgas

/-- The group check of `validate_partition_artifacts`. -/
def validateGroups (groups : List Group) (assignment : InstanceAssignment) : Result Unit :=
  groups.forM fun group => do
    let fpgas ← assignedFpgas assignment group.instances
    raiseIf (fpgas.length ≠ 1) (.validation "group %r spans FPGAs %s" (group.id :: fpgas))

def illegalCut (policy : Option CutPolicy) (assignment : InstanceAssignment) (net : Net) :
    Result (List String) := do
  let legal := LEGAL_CUT_CLASSES ++ if policy.isSome then [.combinational] else []
  let eligible := policy.elim [] CutPolicy.eligibleCombinationalCutNets
  let fpgas ← assignedFpgas assignment (instanceIdsOnNet net)
  return (if 1 < fpgas.length ∧ net.cutClass ∉ legal ++ REPLICATED_NET_CLASSES then [net.id]
      else []) ++
    if 1 < fpgas.length ∧ net.cutClass = .combinational ∧ net.id ∉ eligible then [net.id] else []

/-- The cut check of `validate_partition_artifacts`. -/
def validateCuts (ir : EmuIR) (policy : Option CutPolicy) (assignment : InstanceAssignment) :
    Result Unit := do
  policy.toList.forM fun policy =>
    raiseIf (¬ SameSet policy.transportedCutClasses (TRANSPORTED_CUT_CLASSES ++ [.combinational]))
      (ValidationError "static exact mode requires combinational transport")
  let illegal ← ir.nets.mapM (illegalCut policy assignment)
  raiseIf (illegal.flatten ≠ [])
    (.validation "assignment contains forbidden combinational cuts: %s" (illegal.flatten.take 8))

section assignments

variable {ir : EmuIR} {constraints : PartitionConstraints} {mode : CutMode}
  {artifact : ClustersArtifact} {assignment : InstanceAssignment}

theorem buildClusters_eq_ok (h : buildClusters ir constraints mode = .ok artifact) :
    ∃ u, atomicSets ir constraints (sorted (ir.instances.map Instance.id)) (mode.releasedNets ir) =
        .ok u ∧
      artifact.clusters.map Cluster.instances =
        rawClusters (sorted (ir.instances.map Instance.id)) u ∧
      artifact.cutPolicy = mode.cutPolicy ir := by
  obtain ⟨u, hu, h⟩ := bind_eq_ok.mp h
  obtain ⟨clusters, hcl, h⟩ := bind_eq_ok.mp h
  cases h
  refine ⟨u, hu, ?_, rfl⟩
  have hm := map_of_mapM (g := Cluster.instances) (k := Prod.fst) (fun raw cluster hc => by
    obtain ⟨-, hc⟩ := raiseIf_bind.mp hc
    obtain ⟨resources, -, hc⟩ := bind_eq_ok.mp hc
    rw [← Except.ok.inj hc]) hcl
  rw [hm, zipIdx_map_fst]

theorem buildClusters_constantOn {β : Type} {f : String → β}
    (h : buildClusters ir constraints mode = .ok artifact) :
    (∀ cluster ∈ artifact.clusters, ConstantOn f cluster.instances) ↔
      (∀ group ∈ constraints.groups, ConstantOn f group.instances) ∧
        ∀ net ∈ ir.nets, ¬ MayCut (mode.releasedNets ir) net →
          ConstantOn f (instanceIdsOnNet net) := by
  obtain ⟨u, hu, hc, -⟩ := buildClusters_eq_ok h
  rw [← atomicSets_respects hu, respects_iff_rawClusters, ← hc, forall_mem_map]

theorem buildClusters_cover (h : buildClusters ir constraints mode = .ok artifact) :
    (artifact.clusters.map Cluster.instances).flatten.Nodup ∧
      ∀ id, id ∈ (artifact.clusters.map Cluster.instances).flatten ↔
        id ∈ ir.instances.map Instance.id := by
  obtain ⟨u, -, hc, -⟩ := buildClusters_eq_ok h
  rw [hc]
  exact ⟨nodup_flatten_rawClusters (nodup_sorted.mpr ir.instance_ids_nodup) u, fun id => by
    rw [mem_flatten_rawClusters, mem_sorted]⟩

theorem lookup_expandClusterAssignment {clusters : List Cluster} {fpgaIds : List String}
    {clusterAssignment : List (String × String)}
    (hn : (clusters.map Cluster.instances).flatten.Nodup)
    (h : expandClusterAssignment clusters fpgaIds clusterAssignment = .ok assignment)
    {cluster : Cluster} (hc : cluster ∈ clusters) :
    ∃ fpga, ∀ id ∈ cluster.instances, assignment.lookup id = some fpga := by
  obtain ⟨-, h⟩ := raiseIf_bind.mp h
  obtain ⟨-, h⟩ := raiseIf_bind.mp h
  obtain ⟨parts, hpt, h⟩ := bind_eq_ok.mp h
  cases h
  have hk : parts.flatten.map Prod.fst = (clusters.map Cluster.instances).flatten := by
    rw [map_flatten, map_of_mapM (k := Cluster.instances) (fun cluster part hp => by
      obtain ⟨fpga, -, hp⟩ := bind_eq_ok.mp hp
      rw [← Except.ok.inj hp, map_map]
      exact map_id _) hpt]
  obtain ⟨part, hp, hpr⟩ := mem_mapM_of_mem hpt hc
  obtain ⟨fpga, -, hpr⟩ := bind_eq_ok.mp hpr
  cases hpr
  refine ⟨fpga, fun id hid => lookup_of_mem (hk ▸ hn) ?_⟩
  exact mem_flatten.mpr ⟨_, hp, mem_map.mpr ⟨id, hid, rfl⟩⟩

theorem assignedFpgas_of_constantOn {members : List String}
    (hc : ∀ id ∈ members, ∃ fpga, assignment.lookup id = some fpga)
    (hcn : ConstantOn (fun id => assignment.lookup id) members) :
    ∃ fpgas, assignedFpgas assignment members = .ok fpgas ∧ fpgas.length ≤ 1 ∧
      (members ≠ [] → fpgas.length = 1) := by
  obtain ⟨found, hf⟩ := exists_mapM_eq_ok
    (f := fun id => lookupOrRaise id (assignment.lookup id)) (l := members) fun id hid => by
      obtain ⟨fpga, hfp⟩ := hc id hid
      exact ⟨fpga, lookupOrRaise_eq_ok.mpr hfp⟩
  refine ⟨sortedSet found, bind_eq_ok.mpr ⟨found, hf, rfl⟩, ?_⟩
  have ho : ∀ a ∈ sortedSet found, ∀ b ∈ sortedSet found, a = b := by
    intro a ha b hb
    obtain ⟨id, hid, hi⟩ := exists_of_mem_mapM hf (mem_sortedSet.mp ha)
    obtain ⟨id', hid', hib⟩ := exists_of_mem_mapM hf (mem_sortedSet.mp hb)
    have hs : assignment.lookup id = assignment.lookup id' := hcn id hid id' hid'
    rw [lookupOrRaise_eq_ok.mp hi, lookupOrRaise_eq_ok.mp hib] at hs
    exact Option.some.inj hs
  have hle : (sortedSet found).length ≤ 1 := by
    have hnd := nodup_sortedSet found
    match sortedSet found, ho, hnd with
    | [], _, _ => exact Nat.zero_le 1
    | [_], _, _ => exact le_rfl
    | a :: b :: rest, ho, hnd =>
      obtain rfl := ho a mem_cons_self b (mem_cons_of_mem a mem_cons_self)
      exact absurd mem_cons_self (nodup_cons.mp hnd).1
  refine ⟨hle, fun hne => ?_⟩
  obtain ⟨id, hid⟩ := exists_mem_of_ne_nil _ hne
  obtain ⟨fpga, hfp, -⟩ := mem_mapM_of_mem hf hid
  have hp := length_pos_of_mem (mem_sortedSet.mpr hfp)
  omega

theorem cutClass_of_mem_eligibleIds {net : Net} (hn : net ∈ ir.nets)
    (h : net.id ∈ eligibleIds ir) : net.cutClass = .combinational := by
  obtain ⟨net', hn', hid⟩ := mem_map.mp h
  obtain ⟨hm, he⟩ := mem_filter.mp hn'
  obtain rfl := ir.net_ext hm hn hid
  simp only [netEligible, Bool.and_eq_true, beq_iff_eq] at he
  exact he.1.1.1

theorem mem_instanceIdsOnNet {net : Net} (hn : net ∈ ir.nets) {id : String}
    (hid : id ∈ instanceIdsOnNet net) : id ∈ ir.instances.map Instance.id := by
  obtain ⟨e, he, hi⟩ := mem_filterMap.mp (mem_sortedSet.mp hid)
  exact ir.exists_instance hn he hi

theorem illegalCut_eq_nil {net : Net} (hnt : net ∈ ir.nets)
    (hcv : ∀ id ∈ ir.instances.map Instance.id, ∃ fpga, assignment.lookup id = some fpga)
    (hcn : ¬ MayCut (mode.releasedNets ir) net →
      ConstantOn (fun id => assignment.lookup id) (instanceIdsOnNet net)) :
    illegalCut (mode.cutPolicy ir) assignment net = .ok [] := by
  have ha : ∃ fpgas, assignedFpgas assignment (instanceIdsOnNet net) = .ok fpgas ∧
      (¬ MayCut (mode.releasedNets ir) net → fpgas.length ≤ 1) := by
    by_cases hm : MayCut (mode.releasedNets ir) net
    · obtain ⟨found, hfn⟩ := exists_mapM_eq_ok
        (f := fun id => lookupOrRaise id (assignment.lookup id)) (l := instanceIdsOnNet net)
        fun id hid => by
          obtain ⟨fpga, hfg⟩ := hcv id (mem_instanceIdsOnNet hnt hid)
          exact ⟨fpga, lookupOrRaise_eq_ok.mpr hfg⟩
      exact ⟨sortedSet found, bind_eq_ok.mpr ⟨found, hfn, rfl⟩, absurd hm⟩
    · obtain ⟨fpgas, hf, hle, -⟩ := assignedFpgas_of_constantOn
        (fun id hid => hcv id (mem_instanceIdsOnNet hnt hid)) (hcn hm)
      exact ⟨fpgas, hf, fun _ => hle⟩
  obtain ⟨fpgas, hf, hle⟩ := ha
  refine bind_eq_ok.mpr ⟨fpgas, hf, ?_⟩
  have hcl : ¬ (1 < fpgas.length ∧ net.cutClass ∉
      (LEGAL_CUT_CLASSES ++ if (mode.cutPolicy ir).isSome then [.combinational] else []) ++
        REPLICATED_NET_CLASSES) := by
    rintro ⟨hlt, hn⟩
    refine absurd (hle ?_) (by omega)
    rintro (hl | hr)
    · simp only [List.mem_append] at hn hl
      tauto
    · cases mode with
      | sequentialOnly => exact absurd hr not_mem_nil
      | staticExact depth policy =>
        rw [cutClass_of_mem_eligibleIds hnt hr] at hn
        exact hn (by simp [CutMode.cutPolicy])
  have hc : ¬ (1 < fpgas.length ∧ net.cutClass = .combinational ∧
      net.id ∉ (mode.cutPolicy ir).elim [] CutPolicy.eligibleCombinationalCutNets) := by
    rintro ⟨hlt, hc, hn⟩
    refine absurd (hle ?_) (by omega)
    rintro (hl | hr)
    · rw [hc] at hl
      exact absurd hl (by decide)
    · cases mode with
      | sequentialOnly => exact absurd hr not_mem_nil
      | staticExact depth policy => exact hn (mem_sorted.mpr hr)
  rw [if_neg hcl, if_neg hc]
  rfl

/-- **Clusters are the exact atomic closure.** An assignment is constant on the clusters exactly
when it keeps the groups together and cuts only nets that may be cut, and what a cluster assignment
expands to passes the group and the cut check of the validator. -/
theorem buildClusters_atomic {fnmatchcase : String → String → Bool} {fpgaIds : List String}
    {raw : RawConstraints}
    (hconstraints : normalizeConstraints fnmatchcase (sorted (ir.instances.map Instance.id)) fpgaIds
      raw = .ok constraints) (h : buildClusters ir constraints mode = .ok artifact) :
    (∀ assignment : String → String,
      ((∀ group ∈ constraints.groups, ConstantOn assignment group.instances) ∧
        ∀ net ∈ ir.nets, ¬ ConstantOn assignment (instanceIdsOnNet net) →
          MayCut (mode.releasedNets ir) net) ↔
        ∀ cluster ∈ artifact.clusters, ConstantOn assignment cluster.instances) ∧
    ∀ (activeFpgas : List String) (clusterAssignment : List (String × String))
      (assignment : InstanceAssignment),
      expandClusterAssignment artifact.clusters activeFpgas clusterAssignment = .ok assignment →
        normalizeConstraints fnmatchcase (sorted (ir.instances.map Instance.id)) fpgaIds
            constraints.sealed = .ok constraints ∧
          validateGroups constraints.groups assignment = .ok () ∧
          validateCuts ir artifact.cutPolicy assignment = .ok () := by
  have hnormal := normalizeConstraints_normal hconstraints
  constructor
  · intro assignment
    rw [buildClusters_constantOn h]
    exact and_congr_right fun _ => forall₂_congr fun net _ => not_imp_comm
  · intro activeFpgas clusterAssignment assignment hexpand
    obtain ⟨hnodup, hmem⟩ := buildClusters_cover h
    have hcover : ∀ id ∈ ir.instances.map Instance.id,
        ∃ fpga, assignment.lookup id = some fpga := by
      intro id hid
      obtain ⟨members, hmembers, hid⟩ := mem_flatten.mp ((hmem id).mpr hid)
      obtain ⟨cluster, hcluster, rfl⟩ := mem_map.mp hmembers
      obtain ⟨fpga, hfpga⟩ := lookup_expandClusterAssignment hnodup hexpand hcluster
      exact ⟨fpga, hfpga id hid⟩
    have hconst : ∀ cluster ∈ artifact.clusters,
        ConstantOn (fun id => assignment.lookup id) cluster.instances := by
      intro cluster hcluster a ha b hb
      obtain ⟨fpga, hfpga⟩ := lookup_expandClusterAssignment hnodup hexpand hcluster
      exact (hfpga a ha).trans (hfpga b hb).symm
    obtain ⟨hgroups, hnets⟩ := (buildClusters_constantOn h).mp hconst
    refine ⟨normalizeConstraints_sealed hnormal, ?_, ?_⟩
    · refine forM_eq_ok.mpr fun group hgroup => ?_
      obtain ⟨fpgas, hfpgas, -, hone⟩ := assignedFpgas_of_constantOn
        (fun id hid => hcover id (mem_sorted.mp (hnormal.group_known group hgroup id hid)))
        (hgroups group hgroup)
      refine bind_eq_ok.mpr ⟨fpgas, hfpgas, raiseIf_eq_ok.mpr (not_not.mpr ?_)⟩
      exact hone (hnormal.group_ne group hgroup)
    · obtain ⟨u, -, -, hpolicy⟩ := buildClusters_eq_ok h
      rw [hpolicy]
      refine bind_eq_ok.mpr ⟨(), ?_, ?_⟩
      · cases mode with
        | sequentialOnly => rfl
        | staticExact depth policy =>
          exact forM_eq_ok.mpr (forall_mem_singleton.mpr
            (raiseIf_eq_ok.mpr (not_not.mpr ⟨fun _ h => h, fun _ h => h⟩)))
      · have hillegal := mapM_eq_ok_map (f := illegalCut (mode.cutPolicy ir) assignment)
          (g := fun _ => []) fun net hnet => illegalCut_eq_nil hnet hcover (hnets net hnet)
        refine bind_eq_ok.mpr ⟨_, hillegal, raiseIf_eq_ok.mpr (not_not.mpr ?_)⟩
        rw [flatten_eq_nil_iff]
        intro cuts hcuts
        obtain ⟨-, -, rfl⟩ := mem_map.mp hcuts
        rfl

end assignments

/-- A look-up table in front of another one and a register behind it; the third is in a group with
the first. -/
def smallDesign : EmuIR where
  ports := []
  instances := [{ id := "lut0", type := "LUT2", resources := { lut := 1 } },
    { id := "lut1", type := "LUT2", resources := { lut := 1 } },
    { id := "lut2", type := "LUT2", resources := { lut := 1 } },
    { id := "ff0", type := "FDRE", resources := { ff := 1 } }]
  nets := [{ id := "n0", cutClass := .combinational, drivers := [⟨some "lut0", "O", 0⟩]
             sinks := [⟨some "lut1", "I0", 0⟩] },
    { id := "n1", cutClass := .registerInput, drivers := [⟨some "lut1", "O", 0⟩]
      sinks := [⟨some "ff0", "D", 0⟩] },
    { id := "q0", cutClass := .registerOutput, drivers := [⟨some "ff0", "Q", 0⟩]
      sinks := [⟨some "lut0", "I0", 0⟩, ⟨some "lut2", "I0", 0⟩] }]
  instance_ids_nodup := by decide
  net_ids_nodup := by decide
  endpoints_known := by decide

def smallConstraints : PartitionConstraints where
  groups := [{ id := "g", instances := ["lut0", "lut2"] }]
  fixed := [{ inst := "ff0", fpga := "f1" }]

theorem smallDesign_atomic :
    ∃ artifact, buildClusters smallDesign smallConstraints .sequentialOnly = .ok artifact ∧
      ∀ assignment : String → String,
        ((∀ group ∈ smallConstraints.groups, ConstantOn assignment group.instances) ∧
          ∀ net ∈ smallDesign.nets, ¬ ConstantOn assignment (instanceIdsOnNet net) →
            MayCut (CutMode.sequentialOnly.releasedNets smallDesign) net) ↔
          ∀ cluster ∈ artifact.clusters, ConstantOn assignment cluster.instances := by
  have hnormal : normalizeConstraints (fun id pattern => id = pattern)
      (sorted (smallDesign.instances.map Instance.id)) ["f0", "f1"] smallConstraints.sealed =
        .ok smallConstraints :=
    normalizeConstraints_sealed
      { group_ids := by decide
        group_id_ne := by decide
        group_ne := by decide
        group_sorted := by decide +kernel
        group_known := by decide +kernel
        fixed_known := by decide +kernel
        fixed_unique := by decide +kernel }
  obtain ⟨artifact, h⟩ := exists_of_isOk (x := buildClusters smallDesign smallConstraints
    .sequentialOnly) (by decide +kernel)
  exact ⟨artifact, h, (buildClusters_atomic hnormal h).1⟩

end EmuFlow.Partition
