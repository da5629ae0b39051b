import EmuFlow.Lib.BalancedFill
import EmuFlow.Lib.Check
import EmuFlow.Lib.SortedSet
import Mathlib.Data.List.MinMax
import Mathlib.Data.Rat.Defs
import Mathlib.Algebra.Order.Ring.Rat

/-!
# Placement-aware pin planner: groups of signals

`initial_grouping` of `native/placement_aware_pin_planner.cpp`. The signals of a domain are grouped
by their ratio: a group takes at most that many signals, of distinct slots. Real arithmetic is
exact.
-/

namespace EmuFlow.PinPlanner

open Check SortedSet

/-- A region signature. -/
abbrev Crossing := BitVec 64

structure Signal where
  domain : ℕ
  ratio : ℕ
  slot : ℕ
  crossing : Crossing
  sourceY : ℚ
  sinkY : ℚ

/-- What `read_input` accepts. -/
structure Input where
  refinementIterations : ℕ
  crossingWeight : ℚ
  positionWeight : ℚ
  /-- The lanes of each domain. -/
  lanes : List ℕ
  size : ℕ
  signals : Fin size → Signal
  crossingWeight_nonneg : 0 ≤ crossingWeight
  positionWeight_nonneg : 0 ≤ positionWeight
  lanes_ne_nil : lanes ≠ []
  lanes_pos : ∀ lane ∈ lanes, 0 < lane
  size_pos : 0 < size
  domain_lt : ∀ i, (signals i).domain < lanes.length
  ratio_pos : ∀ i, 0 < (signals i).ratio

structure Group (n : ℕ) where
  ratio : ℕ
  crossing : Crossing := 0
  signals : List (Fin n) := []
  slots : Finset ℕ := ∅
  bitCounts : Fin 64 → ℤ := fun _ => 0
  sumY : ℚ := 0
  sumY2 : ℚ := 0

def popcount (value : Crossing) : ℕ := (List.finRange 64).countP fun bit => value.getLsbD bit

def Signal.sumY (signal : Signal) : ℚ := signal.sourceY + signal.sinkY

def Signal.sumY2 (signal : Signal) : ℚ :=
  signal.sourceY * signal.sourceY + signal.sinkY * signal.sinkY

def Signal.meanY (signal : Signal) : ℚ := 1 / 2 * (signal.sourceY + signal.sinkY)

namespace Input

variable (input : Input)

def cost (crossing : Crossing) (sum sum2 values : ℚ) : ℚ :=
  input.crossingWeight * popcount crossing +
    input.positionWeight * max 0 (sum2 - sum * sum / values)

def groupCost (group : Group input.size) : ℚ :=
  if group.signals = [] then 0
  else input.cost group.crossing group.sumY group.sumY2 (2 * group.signals.length)

def costIfAdded (group : Group input.size) (signal : Signal) : ℚ :=
  input.cost (group.crossing ||| signal.crossing) (group.sumY + signal.sumY)
    (group.sumY2 + signal.sumY2) (2 * (group.signals.length + 1))

end Input

def Group.count {n : ℕ} (group : Group n) (signal : Signal) : Group n :=
  { group with
    slots := insert signal.slot group.slots
    crossing := group.crossing ||| signal.crossing
    sumY := group.sumY + signal.sumY
    sumY2 := group.sumY2 + signal.sumY2
    bitCounts := fun bit =>
      group.bitCounts bit + if signal.crossing.getLsbD bit then 1 else 0 }

def Group.place {n : ℕ} (signals : Fin n → Signal) (group : Group n) (i : Fin n) : Group n :=
  { group.count (signals i) with signals := group.signals ++ [i] }

/-! ## initial grouping -/

namespace Input

variable (input : Input)

def domainSignals (domain : ℕ) : List (Fin input.size) :=
  (List.finRange input.size).filter fun i => (input.signals i).domain = domain

def ratioSignals (domain ratio : ℕ) : List (Fin input.size) :=
  (input.domainSignals domain).filter fun i => (input.signals i).ratio = ratio

def bucket (domain ratio slot : ℕ) : List (Fin input.size) :=
  sortedBy (fun i => lex (-(popcount (input.signals i).crossing : ℤ))
      (lex (input.signals i).meanY i))
    ((input.ratioSignals domain ratio).filter fun i => (input.signals i).slot = slot)

def slotOrder (domain ratio : ℕ) : List ℕ :=
  sortedBy (fun slot => lex (-((input.bucket domain ratio slot).length : ℤ)) slot)
    (sortedSet ((input.ratioSignals domain ratio).map fun i => (input.signals i).slot))

variable {count : ℕ}

def pickGroup (ratio : ℕ) (groups : Fin count → Group input.size) (used : Finset (Fin count))
    (signal : Signal) : Option (Fin count) :=
  ((List.finRange count).filter fun index =>
    index ∉ used ∧ (groups index).signals.length < ratio).argmin fun index =>
      lex (groups index).signals.length
        (lex (input.costIfAdded (groups index) signal - input.groupCost (groups index)) index)

def placeSignal (ratio : ℕ) (state : (Fin count → Group input.size) × Finset (Fin count))
    (i : Fin input.size) :
    Except String ((Fin count → Group input.size) × Finset (Fin count)) :=
  match input.pickGroup ratio state.1 state.2 (input.signals i) with
  | none => .error "balanced TDM grouping could not construct a legal solution"
  | some best =>
    .ok (Function.update state.1 best ((state.1 best).place input.signals i), insert best state.2)

def placeSlot (domain ratio : ℕ) (groups : Fin count → Group input.size) (slot : ℕ) :
    Except String (Fin count → Group input.size) := do
  let state ← (input.bucket domain ratio slot).foldlM (input.placeSignal ratio) (groups, ∅)
  return state.1

def fillRatio (domain ratio count : ℕ) : Except String (List (Group input.size)) := do
  let groups ← (input.slotOrder domain ratio).foldlM (input.placeSlot domain ratio)
    fun _ : Fin count => { ratio := ratio }
  raiseIf (∃ index, (groups index).signals = []) "TDM grouping produced an empty group"
  return List.ofFn groups

def maximumSlotMultiplicity (domain ratio : ℕ) : ℕ :=
  maxOrZero ((input.slotOrder domain ratio).map fun slot =>
    (input.bucket domain ratio slot).length)

def groupCount (domain ratio : ℕ) : ℕ :=
  max (((input.ratioSignals domain ratio).length + ratio - 1) / ratio)
    (input.maximumSlotMultiplicity domain ratio)

def ratios (domain : ℕ) : List ℕ :=
  sortedSet ((input.domainSignals domain).map fun i => (input.signals i).ratio)

def groupRatio (domain : ℕ) (groups : List (Group input.size)) (ratio : ℕ) :
    Except String (List (Group input.size)) := do
  raiseIf (input.lanes.getD domain 0 < groups.length + input.groupCount domain ratio)
    "minimum legal TDM grouping exceeds physical lane capacity"
  let filled ← input.fillRatio domain ratio (input.groupCount domain ratio)
  return groups ++ filled

def initialGrouping (domain : ℕ) : Except String (List (Group input.size)) :=
  (input.ratios domain).foldlM (input.groupRatio domain) []

end Input

end EmuFlow.PinPlanner
