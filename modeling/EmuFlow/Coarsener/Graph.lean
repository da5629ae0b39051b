import Mathlib.Data.Finset.Sort
import Mathlib.Data.List.Sort
import EmuFlow.Lib.MachineNumber
import EmuFlow.Lib.OrderedMap

/-!
# MFSPart coarsener: graphs and levels

A level groups the nodes of a graph into clusters, each a node of the coarse graph, and rebuilds
the nets over them. The sinks of a net, a sorted vector without repetitions, are a finite set here.
The weights of a node are 64-bit integers, the weight of a net is a double.
-/

namespace EmuFlow.Coarsener

open List

structure Node (dims : ℕ) where
  /-- `-1` in the file when the node may go anywhere. -/
  fixedPart : Option ℕ
  protectedRadius : Bool
  /-- `long long` in the file. -/
  weights : Fin dims → ℤ

structure NetKey (n : ℕ) where
  source : Fin n
  sinks : Finset (Fin n)
  source_not_sink : source ∉ sinks
  sinks_nonempty : sinks.Nonempty
deriving DecidableEq

structure Net (n : ℕ) extends NetKey n where
  /-- A finite `double`. -/
  weight : ℚ

structure Graph (dims : ℕ) where
  size : ℕ
  nodes : Fin size → Node dims
  nets : List (Net size)

def sinkList {n : ℕ} (sinks : Finset (Fin n)) : List (Fin n) :=
  (finRange n).filter (· ∈ sinks)

@[simp] theorem mem_sinkList {n : ℕ} {sinks : Finset (Fin n)} {x : Fin n} :
    x ∈ sinkList sinks ↔ x ∈ sinks := by
  simp [sinkList]

/-- `std::pair` and `std::vector` compare lexicographically. -/
def NetKey.less {n : ℕ} (left right : NetKey n) : Bool :=
  left.source < right.source ||
    (left.source = right.source && decide (sinkList left.sinks < sinkList right.sinks))

/-- The pins over the coarse nodes, unless all of them fall together. -/
def mapKey {n m : ℕ} (fineToCoarse : Fin n → Fin m) (key : NetKey n) : Option (NetKey m) :=
  if h : ((key.sinks.image fineToCoarse).erase (fineToCoarse key.source)).Nonempty then
    some
      { source := fineToCoarse key.source
        sinks := (key.sinks.image fineToCoarse).erase (fineToCoarse key.source)
        source_not_sink := Finset.notMem_erase _ _
        sinks_nonempty := h }
  else
    none

def aggregate {n m : ℕ} (fineToCoarse : Fin n → Fin m) (aggregated : List (NetKey m × ℚ))
    (net : Net n) : List (NetKey m × ℚ) :=
  match mapKey fineToCoarse net.toNetKey with
  | none => aggregated
  | some key => OrderedMap.add Binary64.add NetKey.less key net.weight aggregated

def rebuildNets {n m : ℕ} (nets : List (Net n)) (fineToCoarse : Fin n → Fin m) : List (Net m) :=
  (nets.foldl (aggregate fineToCoarse) []).map fun entry =>
    { toNetKey := entry.1, weight := entry.2 }

/-! ## clusters -/

def absorb {dims : ℕ} (coarse other : Node dims) : Node dims :=
  { fixedPart := coarse.fixedPart <|> other.fixedPart
    protectedRadius := coarse.protectedRadius || other.protectedRadius
    weights := fun dimension =>
      MachineInt.int64 (coarse.weights dimension + other.weights dimension) }

/-- The node `append_cluster` appends. No cluster is empty. -/
def clusterNode {dims n : ℕ} (nodes : Fin n → Node dims) : List (Fin n) → Node dims
  | [] => { fixedPart := none, protectedRadius := false, weights := fun _ => 0 }
  | first :: rest => rest.foldl (fun coarse member => absorb coarse (nodes member)) (nodes first)

/-- `fine_to_coarse[node] >= 0`: some cluster has the node. -/
def assigned {n : ℕ} (clusters : List (List (Fin n))) (node : Fin n) : Bool :=
  clusters.any fun cluster => cluster.contains node

/-- The pass over the nodes that gives every unassigned one a cluster of `members`. -/
def appendUnassigned {n : ℕ} (members : Fin n → List (Fin n)) (clusters : List (List (Fin n))) :
    List (List (Fin n)) :=
  (finRange n).foldl (fun clusters node =>
    if assigned clusters node then clusters else clusters ++ [members node]) clusters

structure Counters where
  rejectedProtected : ℕ := 0
  rejectedMargin : ℕ := 0
  rejectedBound : ℕ := 0
  rejectedFixed : ℕ := 0
  marginRepairRounds : ℕ := 0
  marginDistanceSearches : ℕ := 0
deriving DecidableEq

structure Merge (n : ℕ) where
  coarse : ℕ
  left : Fin n
  right : Fin n
  affinity : ℚ

/-- The clusters in the order of the coarse nodes; every fine node has one. -/
structure LevelResult {dims : ℕ} (fine : Graph dims) where
  clusters : List (List (Fin fine.size))
  covered : ∀ node, ∃ cluster ∈ clusters, node ∈ cluster
  merges : List (Merge fine.size) := []
  /-- Coarse nodes made of the nodes fixed to one part. -/
  fixedMerges : List (ℕ × List (Fin fine.size)) := []
  counters : Counters := {}

namespace LevelResult

variable {dims : ℕ} {fine : Graph dims} (level : LevelResult fine)

def fineToCoarse (node : Fin fine.size) : Fin level.clusters.length :=
  ⟨level.clusters.findIdx fun cluster => cluster.contains node,
    findIdx_lt_length_of_exists (by simpa using level.covered node)⟩

def graph : Graph dims where
  size := level.clusters.length
  nodes coarse := clusterNode fine.nodes (level.clusters.get coarse)
  nets := rebuildNets fine.nets level.fineToCoarse

end LevelResult

section unassigned

variable {n : ℕ} {members : Fin n → List (Fin n)} {clusters : List (List (Fin n))}

theorem assigned_iff {node : Fin n} :
    assigned clusters node = true ↔ ∃ cluster ∈ clusters, node ∈ cluster := by
  simp [assigned]

theorem assigned_append {node : Fin n} {cluster : List (Fin n)} :
    assigned (clusters ++ [cluster]) node = true ↔
      assigned clusters node = true ∨ node ∈ cluster := by
  simp [assigned_iff, or_and_right, exists_or]

/-- Every node ends in one cluster. -/
theorem appendUnassigned_covers (hs : ∀ node, node ∈ members node) (node : Fin n) :
    ∃ cluster ∈ appendUnassigned members clusters, node ∈ cluster := by
  have hf : ∀ (nodes : List (Fin n)) (clusters : List (List (Fin n))),
      (∀ x ∈ nodes, assigned (nodes.foldl (fun clusters node =>
        if assigned clusters node then clusters else clusters ++ [members node]) clusters) x =
          true) ∧
      ∀ x, assigned clusters x = true → assigned (nodes.foldl (fun clusters node =>
        if assigned clusters node then clusters else clusters ++ [members node]) clusters) x =
          true := by
    intro nodes
    induction nodes with
    | nil => exact fun _ => ⟨fun _ h => absurd h not_mem_nil, fun _ h => h⟩
    | cons node nodes ih =>
      intro clusters
      rw [foldl_cons]
      obtain ⟨ha, hk⟩ := ih (if assigned clusters node then clusters
        else clusters ++ [members node])
      have hn : assigned (if assigned clusters node then clusters
          else clusters ++ [members node]) node = true := by
        split_ifs with h
        · exact h
        · exact assigned_append.mpr (.inr (hs node))
      refine ⟨forall_mem_cons.mpr ⟨hk node hn, ha⟩, fun x hx => hk x ?_⟩
      split_ifs
      · exact hx
      · exact assigned_append.mpr (.inl hx)
  exact assigned_iff.mp ((hf (finRange n) clusters).1 node (mem_finRange node))

end unassigned

section fixed

variable {dims : ℕ} (fine : Graph dims)

def membersByPart (part : ℕ) : List (Fin fine.size) :=
  (finRange fine.size).filter fun node => (fine.nodes node).fixedPart = some part

def fixedMembers (node : Fin fine.size) : List (Fin fine.size) :=
  match (fine.nodes node).fixedPart with
  | none => [node]
  | some part =>
    if (membersByPart fine part).length > 1 then membersByPart fine part else [node]

theorem mem_fixedMembers (node : Fin fine.size) : node ∈ fixedMembers fine node := by
  rw [fixedMembers]
  split
  · exact mem_singleton_self node
  · next part hp =>
    split_ifs
    · simp [membersByPart, hp]
    · exact mem_singleton_self node

def mergeSameFixedParts : LevelResult fine where
  clusters := appendUnassigned (fixedMembers fine) []
  covered := appendUnassigned_covers (mem_fixedMembers fine)
  fixedMerges := ((appendUnassigned (fixedMembers fine) []).zipIdx.filter fun entry =>
    entry.1.length > 1).map fun entry => (entry.2, entry.1)

end fixed

end EmuFlow.Coarsener
