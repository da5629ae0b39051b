import EmuFlow.Lib.Check
import EmuFlow.Lib.MinCostFlow
import EmuFlow.Lib.SortedSet

/-!
# The package-pin solver

`native/bsp_pin_solver.cpp`: demands bound to channels along compatible edges, one to one, by a
minimum-cost flow from a source over demands and channels to a sink.
-/

namespace EmuFlow.PinSolver

open Check ResidualGraph

structure Demand where
  domain : ℤ

structure Channel where
  domain : ℤ

structure CompatibleEdge where
  demand : ℤ
  channel : ℤ
  cost : ℤ
  deriving DecidableEq

structure Input where
  demands : List Demand := []
  channels : List Channel := []
  edges : List CompatibleEdge := []

inductive Record where
  | demand (index domain : ℤ)
  | channel (index domain : ℤ)
  | edge (edge : CompatibleEdge)
  | unknown (kind : String)

/-! ## reading -/

def readRecord (input : Input) : Record → Except String Input
  | .demand index domain => do
    raiseIf (index ≠ input.demands.length) "DEMAND indices must be contiguous"
    return { input with demands := input.demands ++ [⟨domain⟩] }
  | .channel index domain => do
    raiseIf (index ≠ input.channels.length) "CHANNEL indices must be contiguous"
    return { input with channels := input.channels ++ [⟨domain⟩] }
  | .edge edge => .ok { input with edges := input.edges ++ [edge] }
  | .unknown kind => .error ("unknown input record: " ++ kind)

def invalidEdge (input : Input) (edge : CompatibleEdge) : Prop :=
  edge.demand < 0 ∨ edge.demand ≥ input.demands.length ∨
    edge.channel < 0 ∨ edge.channel ≥ input.channels.length ∨ edge.cost < 0 ∨
    (input.demands[edge.demand.toNat]?).map Demand.domain ≠
      (input.channels[edge.channel.toNat]?).map Channel.domain

instance (input : Input) (edge : CompatibleEdge) : Decidable (invalidEdge input edge) :=
  inferInstanceAs (Decidable (_ ∨ _))

/-- `std::tie(demand, channel, cost)` -/
def CompatibleEdge.key (edge : CompatibleEdge) : ℤ ×ₗ ℤ ×ₗ ℤ :=
  SortedSet.lex edge.demand (SortedSet.lex edge.channel edge.cost)

def duplicateEdge (edges : List CompatibleEdge) : Bool :=
  (edges.zip edges.tail).any fun pair =>
    pair.1.demand = pair.2.demand && pair.1.channel = pair.2.channel

/-- `read_input`, from the lines. -/
def readInput (records : List Record) : Except String Input := do
  let input ← records.foldlM readRecord {}
  raiseIf (input.demands = [] ∨ input.channels = []) "pin-binding model is empty"
  input.demands.forM fun demand =>
    raiseIf (demand.domain < 0) "demand domain must be non-negative"
  input.channels.forM fun channel =>
    raiseIf (channel.domain < 0) "channel domain must be non-negative"
  input.edges.forM fun edge => raiseIf (invalidEdge input edge) "invalid compatible edge"
  let edges := SortedSet.sortedBy CompatibleEdge.key input.edges
  raiseIf (duplicateEdge edges = true) "duplicate compatible edge"
  return { input with edges := edges }

/-! ## solving -/

/-- `std::numeric_limits<std::int64_t>::max() / 4` -/
def infinity : ℤ := 9223372036854775807 / 4

def firstChannel (input : Input) : ℤ := 1 + input.demands.length

def sinkOf (input : Input) : ℤ := firstChannel input + input.channels.length

/-- `flow.add_edge(from, to, 1, cost)` -/
def unitArc (source target cost : ℤ) : Arc ℤ :=
  { source := source, target := target, capacity := 1, reverse := 0, cost := cost }

def demandArcs (input : Input) : List (Arc ℤ) :=
  (List.range input.demands.length).map fun (demand : ℕ) => unitArc 0 (1 + demand) 0

def edgeArcs (input : Input) : List (Arc ℤ) :=
  input.edges.map fun edge =>
    unitArc (1 + edge.demand) (firstChannel input + edge.channel) edge.cost

def channelArcs (input : Input) : List (Arc ℤ) :=
  (List.range input.channels.length).map fun (channel : ℕ) =>
    unitArc (firstChannel input + channel) (sinkOf input) 0

/-- The edges in the order in which `run` adds them. -/
def network (input : Input) : List (Arc ℤ) :=
  demandArcs input ++ edgeArcs input ++ channelArcs input

def assignedTo (input : Input) (graph : List (Arc ℤ)) (demand : ℕ) : List CompatibleEdge :=
  ((edgesFrom graph (1 + demand)).filter fun edge =>
    ¬ (edge.target < firstChannel input ∨ edge.target ≥ sinkOf input ∨ edge.capacity ≠ 0)).map
      fun edge => { demand := demand, channel := edge.target - firstChannel input, cost :=
        edge.cost }

structure Output where
  assigned : ℤ
  totalCost : ℤ
  assignment : List CompatibleEdge
  deriving DecidableEq

/-- `run` after the flow. -/
def finish (input : Input) (solved : Solved ℤ) : Except String Output := do
  raiseIf (solved.flow ≠ input.demands.length)
    "no complete electrically legal package-pin assignment exists"
  let assignment := (List.range input.demands.length).flatMap (assignedTo input solved.graph)
  raiseIf (assignment.length ≠ input.demands.length)
    "could not reconstruct min-cost assignment"
  return { assigned := solved.flow, totalCost := solved.totalCost,
           assignment := SortedSet.sortedBy CompatibleEdge.key assignment }

/-- `run`; `none` when a search or a walk of the flow does not end within the fuel. -/
def run (fuel : ℕ) (records : List Record) : Option (Except String Output) :=
  match readInput records with
  | .error e => some (.error e)
  | .ok input =>
    match solve fuel infinity 0 (sinkOf input) input.demands.length (network input) 0 0 with
    | none => none
    | some (.error e) => some (.error e)
    | some (.ok solved) => some (finish input solved)

end EmuFlow.PinSolver
