import EmuFlow.Lib.CertificatePotentials
import EmuFlow.Lib.SortedSet
import EmuFlow.Lib.Transport

/-!
# Chimew bank and channel assignment: `assign`

`native/chimew_bank_channel_assigner.cpp`: lefts bound to rights along candidate edges at the least
cost. Lefts with one candidate each are bound at once, lefts with equal rows of unit rights are
bound by their type, and all others by a minimum-cost flow; each way ends with potentials over the
source, the rights, the lefts and the sink.
-/

namespace EmuFlow.BankChannels

open Check ResidualGraph SortedSet Transport List

/-- `CandidateEdge`: right, left and cost. -/
abbrev CandidateEdge := Lane

/-- `std::numeric_limits<std::int64_t>::max()` -/
def int64Max : ℤ := 9223372036854775807

def infinity : ℤ := int64Max / 4

structure AssignmentResult where
  rightForLeft : List ℕ
  costForLeft : List ℤ
  totalCost : ℤ
  potentials : Vertex → ℤ

def AssignmentResult.assignment (result : AssignmentResult) : List CandidateEdge :=
  (result.rightForLeft.zip result.costForLeft).zipIdx.map fun entry =>
    { right := entry.1.1, left := entry.2, cost := entry.1.2 }

def resultOf (edges : List CandidateEdge) (totalCost : ℤ) (potentials : Vertex → ℤ) :
    AssignmentResult where
  rightForLeft := edges.map Lane.right
  costForLeft := edges.map Lane.cost
  totalCost := totalCost
  potentials := potentials

def noAssignment : String := "no complete Chimew assignment exists"

def negativeCycle : String := "negative residual cycle in Chimew assignment"

def invalidCertificate : String := "invalid Chimew optimality certificate"

/-- `flow.solve(source, sink, left_count)`. Its test for an unreached node never holds of a node
that was in the queue. -/
def solveFlow (fuel : ℕ) (leftCount : ℕ) (network : List (Arc Vertex)) :
    Option (Except String (Solved Vertex)) :=
  match solve fuel infinity .source .sink leftCount network 0 0 with
  | none => none
  | some (.error _) => some (.error "broken Chimew augmenting path")
  | some (.ok solved) => some (.ok solved)

def flowNodes (rightCount leftCount : ℕ) : List Vertex :=
  .source :: (range rightCount).map .right ++ (range leftCount).map .left ++ [.sink]

/-- One turn of the loop that fills `unique_right` and `unique_cost`; `none` ends it. -/
def addUnique (rightCount leftCount : ℕ) (unique : List (Option CandidateEdge))
    (candidate : CandidateEdge) : Option (List (Option CandidateEdge)) :=
  if candidate.left ≥ leftCount ∨ candidate.right ≥ rightCount ∨
      (unique[candidate.left]?).join.isSome then none
  else some (unique.set candidate.left (some candidate))

def uniqueCandidates (rightCount leftCount : ℕ) (candidates : List CandidateEdge) :
    Option (List CandidateEdge) := do
  let unique ← candidates.foldlM (addUnique rightCount leftCount) (replicate leftCount none)
  unique.mapM id

/-- One turn of the loop over the lefts: `used` and the total. -/
def bindUnique (capacities : List ℤ) (state : (ℕ → ℤ) × ℤ) (edge : CandidateEdge) :
    Except String ((ℕ → ℤ) × ℤ) := do
  let used := Function.update state.1 edge.right (state.1 edge.right + 1)
  raiseIf (used edge.right > capacities.getD edge.right 0) noAssignment
  raiseIf (edge.cost > int64Max - state.2) "Chimew assignment cost is out of range"
  return (used, state.2 + edge.cost)

def uniquePotentials (unique : List CandidateEdge) : Vertex → ℤ
  | .left left => ((unique[left]?).map Lane.cost).getD 0
  | .sink => (unique.map Lane.cost).foldl max 0
  | _ => 0

def assignUnique (capacities : List ℤ) (unique : List CandidateEdge) :
    Except String AssignmentResult := do
  let (_, totalCost) ← unique.foldlM (bindUnique capacities) ((fun _ => 0), 0)
  return resultOf unique totalCost (uniquePotentials unique)

/-! ## equal rows -/

abbrev CostRow := List (ℕ × ℤ)

def rowKey (entry : ℕ × ℤ) : ℕ ×ₗ ℤ := lex entry.1 entry.2

def costRow (candidates : List CandidateEdge) (left : ℕ) : CostRow :=
  sortedBy rowKey ((candidates.filter fun candidate => candidate.left = left).map
    fun candidate => (candidate.right, candidate.cost))

def repeatedRight (row : CostRow) : Bool :=
  (row.zip row.tail).any fun pair => pair.1.1 = pair.2.1

/-- `type_rows`: the distinct rows, in the order in which they appear. -/
def typeRows (rows : List CostRow) : List CostRow :=
  rows.foldl (fun types row => if row ∈ types then types else types ++ [row]) []

/-- `members_by_type[type]` -/
def membersOf (rows : List CostRow) (row : CostRow) : List ℕ :=
  (range rows.length).filter fun left => rows[left]? = some row

def compressibleRows (capacities : List ℤ) (leftCount : ℕ) (candidates : List CandidateEdge) :
    Option (List CostRow) :=
  let rows := (range leftCount).map (costRow candidates)
  if (∃ capacity ∈ capacities, capacity ≠ 1) ∨ (∃ candidate ∈ candidates,
        candidate.left ≥ leftCount ∨ candidate.right ≥ capacities.length) ∨
      (∃ row ∈ rows, row = [] ∨ repeatedRight row = true) ∨
      (typeRows rows).length = 0 ∨ (typeRows rows).length > leftCount / 4 then none
  else some rows

/-- The edges in the order in which they are added: those to the rights, then for each type its row
and its edge to the sink. -/
def compressedNetwork (rightCount : ℕ) (rows : List CostRow) : List (Arc Vertex) :=
  (range rightCount).map (fun right => supplyArc right 1) ++
    (typeRows rows).zipIdx.flatMap fun type =>
      type.1.map (fun entry => laneArc { right := entry.1, left := type.2, cost := entry.2 }) ++
        [demandArc type.2 (membersOf rows type.1).length]

/-- `selected_by_type[type]`, sorted. -/
def selectedOf (graph : List (Arc Vertex)) (type : ℕ) : List (ℕ × ℤ) :=
  sortedBy rowKey (((chosen graph).filter fun lane => lane.left = type).map
    fun lane => (lane.right, lane.cost))

/-- The members of each type take its selected rights in order. -/
def expandedEdges (rows : List CostRow) (graph : List (Arc Vertex)) : List CandidateEdge :=
  (typeRows rows).zipIdx.flatMap fun type =>
    ((membersOf rows type.1).zip (selectedOf graph type.2)).map fun entry =>
      { right := entry.2.1, left := entry.1, cost := entry.2.2 }

def expandedPotentials (rows : List CostRow) (potentials : Vertex → ℤ) : Vertex → ℤ
  | .left left => potentials (.left ((typeRows rows).idxOf ((rows[left]?).getD [])))
  | node => potentials node

def residualHolds (rightCount : ℕ) (candidates edges : List CandidateEdge)
    (potentials : Vertex → ℤ) : Prop :=
  (edges.map Lane.right).Nodup ∧ (∀ edge ∈ edges, 0 ≤ -edge.cost + potentials (.left edge.left) -
      potentials (.right edge.right)) ∧
    (∀ candidate ∈ candidates, (∃ edge ∈ edges, edge.left = candidate.left ∧
        edge.right = candidate.right) ∨
      0 ≤ candidate.cost + potentials (.right candidate.right) -
        potentials (.left candidate.left)) ∧
    (∀ right < rightCount, if right ∈ edges.map Lane.right
      then potentials .source ≤ potentials (.right right)
      else potentials (.right right) ≤ potentials .source) ∧
    ∀ edge ∈ edges, potentials (.left edge.left) ≤ potentials .sink

instance (rightCount : ℕ) (candidates edges : List CandidateEdge) (potentials : Vertex → ℤ) :
    Decidable (residualHolds rightCount candidates edges potentials) := by
  unfold residualHolds
  infer_instance

/-- From a flow of the compressed network; `none` when a type has another number of rights than
members or a residual edge undercuts the potentials. -/
def expand (rightCount : ℕ) (candidates : List CandidateEdge) (rows : List CostRow)
    (solved : Solved Vertex) (potentials : Vertex → ℤ) : Option AssignmentResult :=
  let edges := (range rows.length).flatMap fun left =>
    (expandedEdges rows solved.graph).filter fun edge => edge.left = left
  if (∃ type ∈ (typeRows rows).zipIdx,
      (selectedOf solved.graph type.2).length ≠ (membersOf rows type.1).length) ∨
      ¬ residualHolds rightCount candidates edges (expandedPotentials rows potentials) then none
  else some (resultOf edges solved.totalCost (expandedPotentials rows potentials))

/-- `compressed_assignment`; the outer `none` is a lack of fuel. -/
def compressedAssignment (fuel : ℕ) (capacities : List ℤ) (leftCount : ℕ)
    (candidates : List CandidateEdge) : Option (Except String (Option AssignmentResult)) :=
  match compressibleRows capacities leftCount candidates with
  | none => some (.ok none)
  | some rows =>
    match solveFlow fuel leftCount (compressedNetwork capacities.length rows) with
    | none => none
    | some (.error e) => some (.error e)
    | some (.ok solved) =>
      if solved.flow ≠ leftCount then some (.error noAssignment)
      else
        match certificatePotentials negativeCycle invalidCertificate
            (flowNodes capacities.length (typeRows rows).length) solved.graph fuel with
        | none => none
        | some (.error e) => some (.error e)
        | some (.ok potentials) =>
          some (.ok (expand capacities.length candidates rows solved potentials))

def flowNetwork (capacities : List ℤ) (leftCount : ℕ) (candidates : List CandidateEdge) :
    List (Arc Vertex) :=
  capacities.zipIdx.map (fun capacity => supplyArc capacity.2 capacity.1) ++
    candidates.map laneArc ++ (range leftCount).map fun left => demandArc left 1

/-- `right_for_left` and `cost_for_left` from the saturated edges. -/
def reconstruct (leftCount : ℕ) (saturated : List CandidateEdge) :
    Except String (List CandidateEdge) := do
  raiseIf (¬ (saturated.map Lane.left).Nodup) "ambiguous Chimew assignment"
  raiseIf (∃ left < leftCount, left ∉ saturated.map Lane.left)
    "incomplete Chimew assignment reconstruction"
  return (range leftCount).flatMap fun left =>
    saturated.filter fun edge => edge.left = left

def assignByFlow (fuel : ℕ) (capacities : List ℤ) (leftCount : ℕ)
    (candidates : List CandidateEdge) : Option (Except String AssignmentResult) :=
  match solveFlow fuel leftCount (flowNetwork capacities leftCount candidates) with
  | none => none
  | some (.error e) => some (.error e)
  | some (.ok solved) =>
    if solved.flow ≠ leftCount then some (.error noAssignment)
    else
      match reconstruct leftCount (chosen solved.graph) with
      | .error e => some (.error e)
      | .ok edges =>
        (certificatePotentials negativeCycle invalidCertificate
          (flowNodes capacities.length leftCount) solved.graph fuel).map fun potentials => do
            return resultOf edges solved.totalCost (← potentials)

/-- `assign`, with `right_count` the number of capacities; `none` when a loop of a flow or a
certificate does not end within the fuel. -/
def assign (fuel : ℕ) (capacities : List ℤ) (leftCount : ℕ) (candidates : List CandidateEdge) :
    Option (Except String AssignmentResult) :=
  match uniqueCandidates capacities.length leftCount candidates with
  | some unique => some (assignUnique capacities unique)
  | none =>
    match compressedAssignment fuel capacities leftCount candidates with
    | none => none
    | some (.error e) => some (.error e)
    | some (.ok (some result)) => some (.ok result)
    | some (.ok none) => assignByFlow fuel capacities leftCount candidates

end EmuFlow.BankChannels
