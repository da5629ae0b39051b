import EmuFlow.Lib.MachineNumber
import EmuFlow.Lib.Reassign
import EmuFlow.Lib.SortedSet

/-!
# Filling parts

`run` of `native/mfspart_legalizer.cpp`: while fewer than `min_used` parts hold a node, the best
movable node goes to the lowest-numbered empty part. The deltas are doubles, added up in the order
of the loops; loads stay within the capacities, which are `long long`. An `Input` is one the reader
accepts: its fields state the checks of `read_input`.
-/

namespace EmuFlow.MfsPart.Legalizer

open SortedSet

structure Node (numParts dims : ℕ) where
  /-- `-1` in the file when the node may move. -/
  fixedPart : Option (Fin numParts)
  weights : Fin dims → ℕ

structure Net (n : ℕ) where
  weight : ℚ
  source : Fin n
  sinks : List (Fin n)
  weight_pos : 0 < weight
  sinks_ne : sinks ≠ []
  sinks_nodup : sinks.Nodup
  source_not_sink : source ∉ sinks

structure Input (numParts n dims m : ℕ) where
  minUsed : ℕ
  capacities : Fin numParts → Fin dims → ℤ
  nodes : Fin n → Node numParts dims
  nets : Fin m → Net n
  assignment : Fin n → Fin numParts
  nodes_pos : 0 < n
  dimensions_pos : 0 < dims
  minUsed_pos : 0 < minUsed
  minUsed_le : minUsed ≤ numParts
  capacities_pos : ∀ part dimension, 0 < capacities part dimension
  front_pos : ∀ node, 0 < (nodes node).weights ⟨0, dimensions_pos⟩
  fixed_eq : ∀ node fixed, (nodes node).fixedPart = some fixed → fixed = assignment node

variable {numParts n dims m : ℕ}

def Net.pins (net : Net n) : List (Fin n) := net.source :: net.sinks

theorem Net.nodup_pins (net : Net n) : net.pins.Nodup :=
  List.nodup_cons.mpr ⟨net.source_not_sink, net.sinks_nodup⟩

structure Move (numParts n : ℕ) where
  node : Fin n
  source : Fin numParts
  target : Fin numParts
  pairDelta : ℚ
  connectivityDelta : ℚ

/-- The assignment and what is kept beside it. A map of part counts has no entry for a part with
count zero. -/
structure State (numParts n dims m : ℕ) where
  assignment : Fin n → Fin numParts
  counts : Fin numParts → ℤ
  loads : Fin numParts → Fin dims → ℤ
  netPartCounts : Fin m → Fin numParts → ℤ
  moves : List (Move numParts n)

local instance nodeLawful (size : ℕ) : LawfulBEq (Fin size) := inferInstance

section run

variable (input : Input numParts n dims m)

def addWeight (node : Fin n) (loads : Fin numParts → Fin dims → ℤ)
    (dimension : Fin dims) : Except String (Fin numParts → Fin dims → ℤ) :=
  let part := input.assignment node
  let load := loads part dimension + (input.nodes node).weights dimension
  if input.capacities part dimension < load then .error "initial assignment exceeds capacity"
  else .ok (Function.update loads part (Function.update (loads part) dimension load))

def initialLoads : Except String (Fin numParts → Fin dims → ℤ) :=
  (List.finRange n).foldlM
    (fun loads node => (List.finRange dims).foldlM (addWeight input node) loads)
    fun _ _ => 0

def countParts (nodes : List (Fin n)) : Fin numParts → ℤ :=
  nodes.foldl (fun counts node =>
    Function.update counts (input.assignment node) (counts (input.assignment node) + 1)) fun _ => 0

def initialState : Except String (State numParts n dims m) := do
  let loads ← initialLoads input
  return { assignment := input.assignment
           counts := countParts input (List.finRange n)
           loads := loads
           netPartCounts := fun net => countParts input (input.nets net).pins
           moves := [] }

/-! ## one turn -/

def incident (node : Fin n) : List (Fin m) :=
  (List.finRange m).filter fun net => node ∈ (input.nets net).pins

/-- `used_parts`, and the size of a map of part counts. -/
def usedParts (counts : Fin numParts → ℤ) : ℤ := Reassign.used counts

/-- `int(left != right)`. -/
def differ (left right : Fin numParts) : ℤ := if left ≠ right then 1 else 0

def connectivityDelta (state : State numParts n dims m)
    (node : Fin n) (source target : Fin numParts) : ℚ :=
  (incident input node).foldl (fun delta net =>
    Binary64.add delta (Binary64.mul (input.nets net).weight
      (usedParts (Reassign.shift (state.netPartCounts net) source target 1) -
        usedParts (state.netPartCounts net) : ℤ))) 0

/-- The turns of the two nested loops over some nets and their sinks. -/
def arcs (nets : List (Fin m)) : List (Fin m × Fin n) :=
  nets.flatMap fun net => (input.nets net).sinks.map fun sink => (net, sink)

def pairDelta (state : State numParts n dims m) (node : Fin n)
    (target : Fin numParts) : ℚ :=
  (arcs input (incident input node)).foldl (fun delta (net, sink) =>
    let beforeSource := state.assignment (input.nets net).source
    let afterSource := if (input.nets net).source = node then target else beforeSource
    let beforeSink := state.assignment sink
    let afterSink := if sink = node then target else beforeSink
    Binary64.add delta (Binary64.mul (input.nets net).weight
      (differ afterSource afterSink - differ beforeSource beforeSink : ℤ))) 0

def fits (state : State numParts n dims m) (target : Fin numParts)
    (node : Fin n) : Bool :=
  (List.finRange dims).all fun dimension =>
    state.loads target dimension + (input.nodes node).weights dimension ≤
      input.capacities target dimension

def movable (state : State numParts n dims m) (node : Fin n) : Bool :=
  1 < state.counts (state.assignment node) && (input.nodes node).fixedPart.isNone

def candidates (state : State numParts n dims m) (target : Fin numParts) :
    List (Move numParts n) :=
  ((List.finRange n).filter fun node =>
    movable input state node && fits input state target node).map fun node =>
      { node := node
        source := state.assignment node
        target := target
        pairDelta := pairDelta input state node target
        connectivityDelta := connectivityDelta input state node (state.assignment node) target }

def moveKey (move : Move numParts n) :=
  lex move.pairDelta (lex move.connectivityDelta
    (lex ((input.nodes move.node).weights ⟨0, input.dimensions_pos⟩) (lex move.node move.source)))

def better (best : Option (Move numParts n)) (move : Move numParts n) :
    Option (Move numParts n) :=
  match best with
  | none => some move
  | some kept => if moveKey input move < moveKey input kept then some move else some kept

def applyMove (state : State numParts n dims m)
    (move : Move numParts n) : State numParts n dims m :=
  { assignment := Function.update state.assignment move.node move.target
    counts := Reassign.shift state.counts move.source move.target 1
    loads := fun part dimension => Reassign.shift (fun q => state.loads q dimension) move.source
      move.target ((input.nodes move.node).weights dimension) part
    netPartCounts := fun net =>
      if net ∈ incident input move.node then
        Reassign.shift (state.netPartCounts net) move.source move.target 1
      else state.netPartCounts net
    moves := state.moves ++ [move] }

/-- One turn of the loop, `none` once enough parts are used. There is an empty part whenever too
few are used. -/
def turn (state : State numParts n dims m) :
    Except String (Option (State numParts n dims m)) :=
  if usedParts state.counts < input.minUsed then
    match (List.finRange numParts).find? fun part => state.counts part = 0 with
    | none => .error "no empty part"
    | some target =>
      match (candidates input state target).foldl (better input) none with
      | none => .error "no legal move can satisfy min_used"
      | some best => .ok (some (applyMove input state best))
  else .ok none

/-- The loop; `none` where the fuel runs out. -/
def legalize : ℕ → State numParts n dims m →
    Option (Except String (State numParts n dims m))
  | 0, _ => none
  | fuel + 1, state =>
    match turn input state with
    | .error error => some (.error error)
    | .ok none => some (.ok state)
    | .ok (some next) => legalize fuel next

end run

end EmuFlow.MfsPart.Legalizer
