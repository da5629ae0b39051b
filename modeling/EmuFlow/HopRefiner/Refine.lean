import Mathlib.Data.List.Sort
import EmuFlow.HopRefiner.Objective

/-!
# Hop-limit refinement: the search

`refine`: tentative moves and exchanges with best-prefix rollback, at most 32 rounds, and the
exhaustive fallback for tiny inputs. Loads are 64-bit integers.
-/

namespace EmuFlow.HopRefiner

open List Function

variable {numParts n dims : ℕ}

structure Transfer (numParts n : ℕ) where
  cluster : Fin n
  source : Fin numParts
  target : Fin numParts
deriving DecidableEq

/-- `second` is the donor of a pair exchange. -/
structure Move (numParts n : ℕ) where
  first : Transfer numParts n
  second : Option (Transfer numParts n)
  objective : Objective

def Move.transfers (move : Move numParts n) : List (Transfer numParts n) :=
  move.first :: move.second.toList

/-- The assignment with the loads and counts kept beside it. -/
structure Placement (numParts n dims : ℕ) where
  assignment : Fin n → Fin numParts
  loads : Fin numParts → Fin dims → ℤ
  counts : Fin numParts → ℤ

/-- The weights on a part, without wrapping. -/
def partLoads (input : Input numParts n dims)
    (assignment : Fin n → Fin numParts) (part : Fin numParts)
    (dimension : Fin dims) : ℤ :=
  ∑ cluster, if assignment cluster = part then
    ((input.clusters cluster).weights dimension : ℤ) else 0

def Placement.ofAssignment (input : Input numParts n dims)
    (assignment : Fin n → Fin numParts) :
    Placement numParts n dims :=
  { assignment := assignment
    loads := fun part dimension => MachineInt.int64 (partLoads input assignment part dimension)
    counts := partCounts assignment }

def Placement.transfer (input : Input numParts n dims)
    (s : Placement numParts n dims) (t : Transfer numParts n) :
    Placement numParts n dims :=
  { assignment := update s.assignment t.cluster t.target
    loads := fun part dimension => MachineInt.int64 (Reassign.shift (fun q => s.loads q dimension)
      t.source t.target ((input.clusters t.cluster).weights dimension) part)
    counts := Reassign.shift s.counts t.source t.target 1 }

structure Best (numParts n dims : ℕ) where
  placement : Placement numParts n dims
  objective : Objective
  prefixLength : ℕ

structure Pass (numParts n dims : ℕ) where
  placement : Placement numParts n dims
  locked : Fin n → Bool
  working : Objective
  sequence : List (Transfer numParts n)
  tentativeMoves : ℕ
  best : Best numParts n dims

/-! ## candidate moves -/

section candidates

variable (input : Input numParts n dims)

def withinBound (part : Fin numParts) (dimension : Fin dims) (projected : ℤ) : Bool :=
  projected ≤ input.hardCapacity part dimension &&
    Binary64.round projected ≤ Binary64.add (input.balanceBound part dimension) kEps

def fits (loads : Fin numParts → Fin dims → ℤ) (cluster : Fin n)
    (target : Fin numParts) : Bool :=
  (finRange dims).all fun dimension =>
    withinBound input target dimension
      (MachineInt.int64 (loads target dimension + (input.clusters cluster).weights dimension))

def movable (s : Pass numParts n dims) (cluster : Fin n) : Bool :=
  !s.locked cluster && (input.clusters cluster).fixedPart.isNone

def candidates (s : Pass numParts n dims) : List (Fin n) :=
  (finRange n).filter fun cluster =>
    decide (s.working.usedPartDeficit > 0) ||
      input.nets.any fun net =>
        (netObjective input net s.placement.assignment).violations ≠ 0 && net.touches cluster

def incidentNets (cluster : Fin n) : List (Net n) :=
  input.nets.filter fun net => net.touches cluster

def singleMove (s : Pass numParts n dims) (cluster : Fin n)
    (source target : Fin numParts) : Option (Move numParts n) :=
  if fits input s.placement.loads cluster target then
    let nets := incidentNets input cluster
    let before := netsObjective input nets s.placement.assignment
    let after := netsObjective input nets (update s.placement.assignment cluster target)
    let used := Reassign.used s.placement.counts -
      (if s.placement.counts source = 1 then 1 else 0) +
      (if s.placement.counts target = 0 then 1 else 0)
    some
      { first := { cluster := cluster, source := source, target := target }
        second := none
        objective := { (s.working.subtract before).add after with
          usedPartDeficit := max 0 (input.minUsedParts - used) } }
  else
    none

def donates (s : Pass numParts n dims) (cluster : Fin n)
    (source target : Fin numParts) (donor : Fin n) : Bool :=
  let donorSource := s.placement.assignment donor
  donor ≠ cluster && movable input s donor && donorSource ≠ source &&
    !(s.placement.counts source ≠ 1 && donorSource ≠ target) &&
    !(s.placement.counts source = 1 && donorSource ≠ target &&
      s.placement.counts donorSource = 1)

def resourceDistance (cluster donor : Fin n) : ℚ :=
  (finRange dims).foldl (fun distance dimension =>
    let difference : ℤ := (input.clusters donor).weights dimension -
      (input.clusters cluster).weights dimension
    Binary64.add distance (Binary64.round (|Binary64.round difference| /
      max 1 (Binary64.round ((input.clusters cluster).weights dimension))))) 0

def kMaximumPairDonors : ℕ := 64

def donorCandidates (s : Pass numParts n dims) (cluster : Fin n)
    (source target : Fin numParts) : List (Fin n) :=
  let donors := (finRange n).filter (donates input s cluster source target)
  (donors.insertionSort fun a b =>
    resourceDistance input cluster a < resourceDistance input cluster b ∨
      (resourceDistance input cluster a = resourceDistance input cluster b ∧ a ≤ b)).take
    kMaximumPairDonors

def pairFits (s : Pass numParts n dims) (cluster donor : Fin n)
    (source target donorSource : Fin numParts) : Bool :=
  [source, target, donorSource].all fun part =>
    (finRange dims).all fun dimension =>
      let clusterWeight : ℤ := (input.clusters cluster).weights dimension
      let donorWeight : ℤ := (input.clusters donor).weights dimension
      let projected := MachineInt.int64 (s.placement.loads part dimension +
        (if part = source then donorWeight - clusterWeight else 0) +
        (if part = target then clusterWeight else 0) -
        (if part = donorSource then donorWeight else 0))
      0 ≤ projected && withinBound input part dimension projected

/-- An exchange: the cluster to the target and the donor to the source. Its deficit is taken to
be zero. -/
def pairMove (s : Pass numParts n dims) (cluster : Fin n)
    (source target : Fin numParts) (donor : Fin n) :
    Option (Move numParts n) :=
  let donorSource := s.placement.assignment donor
  if pairFits input s cluster donor source target donorSource then
    let nets := input.nets.filter fun net => net.touches cluster || net.touches donor
    let before := netsObjective input nets s.placement.assignment
    let after := netsObjective input nets
      (update (update s.placement.assignment cluster target) donor source)
    some
      { first := { cluster := cluster, source := source, target := target }
        second := some { cluster := donor, source := donorSource, target := source }
        objective := { (s.working.subtract before).add after with usedPartDeficit := 0 } }
  else
    none

def candidateMoves (s : Pass numParts n dims) :
    List (Move numParts n) :=
  ((candidates input s).filter (movable input s)).flatMap fun cluster =>
    let source := s.placement.assignment cluster
    ((finRange numParts).filter (· ≠ source)).flatMap fun target =>
      (singleMove input s cluster source target).toList ++
        (donorCandidates input s cluster source target).filterMap
          (pairMove input s cluster source target)

/-- The third entry of the selection key: `-1` without a donor. -/
def Move.secondIndex (move : Move numParts n) : ℤ :=
  match move.second with
  | none => -1
  | some second => second.cluster

def keyLess (left right : Move numParts n) : Bool :=
  left.first.cluster < right.first.cluster ||
    (left.first.cluster = right.first.cluster &&
      (left.first.target < right.first.target ||
        (left.first.target = right.first.target && left.secondIndex < right.secondIndex)))

def consider (selected : Option (Move numParts n))
    (candidate : Move numParts n) : Option (Move numParts n) :=
  match selected with
  | none => some candidate
  | some current =>
    if lessObjective candidate.objective current.objective ||
        (equalObjective candidate.objective current.objective && keyLess candidate current) then
      some candidate
    else
      some current

def selectMove (s : Pass numParts n dims) :
    Option (Move numParts n) :=
  (candidateMoves input s).foldl consider none

end candidates

/-! ## rounds -/

section rounds

variable (input : Input numParts n dims)

def Best.update (best : Best numParts n dims)
    (placement : Placement numParts n dims) (working : Objective)
    (length : ℕ) : Best numParts n dims :=
  if working.usedPartDeficit = 0 && lessObjective working best.objective then
    { placement := placement, objective := working, prefixLength := length }
  else
    best

def Pass.accept (s : Pass numParts n dims) (move : Move numParts n) :
    Pass numParts n dims :=
  let placement := move.transfers.foldl (Placement.transfer input) s.placement
  let sequence := s.sequence ++ move.transfers
  { placement := placement
    locked := fun cluster => s.locked cluster ||
      (move.transfers.map Transfer.cluster).contains cluster
    working := move.objective
    sequence := sequence
    tentativeMoves := s.tentativeMoves + 1
    best := s.best.update placement move.objective sequence.length }

def step (s : Pass numParts n dims) :
    Option (Pass numParts n dims) :=
  (selectMove input s).map (s.accept input)

def Objective.isFeasible (value : Objective) : Bool :=
  value.violations = 0 && value.usedPartDeficit = 0

def runPass : ℕ → Pass numParts n dims →
    Pass numParts n dims
  | 0, s => s
  | steps + 1, s =>
    match step input s with
    | none => s
    | some s' => if s'.working.isFeasible then s' else runPass steps s'

structure Progress (numParts n dims : ℕ) where
  placement : Placement numParts n dims
  incumbent : Objective
  rounds : ℕ
  tentativeMoves : ℕ
  committedMoves : List (Transfer numParts n)

def Progress.begin (r : Progress numParts n dims) :
    Pass numParts n dims :=
  { placement := r.placement
    locked := fun _ => false
    working := r.incumbent
    sequence := []
    tentativeMoves := r.tentativeMoves
    best := { placement := r.placement, objective := r.incumbent, prefixLength := 0 } }

def Progress.active (r : Progress numParts n dims) : Bool :=
  r.incumbent.violations > 0 || r.incumbent.usedPartDeficit > 0

def Progress.commit (r : Progress numParts n dims)
    (s : Pass numParts n dims) : Progress numParts n dims :=
  { placement := s.best.placement
    incumbent := s.best.objective
    rounds := r.rounds + 1
    tentativeMoves := s.tentativeMoves
    committedMoves := r.committedMoves ++ s.sequence.take s.best.prefixLength }

def runRounds : ℕ → Progress numParts n dims →
    Progress numParts n dims
  | 0, r => r
  | rounds + 1, r =>
    if r.active then
      let s := runPass input n r.begin
      if lessObjective s.best.objective r.incumbent then
        runRounds rounds (r.commit s)
      else
        { r with tentativeMoves := s.tentativeMoves }
    else
      r

end rounds

/-! ## the exhaustive fallback -/

section fallback

variable (input : Input numParts n dims)

def kMaximumExactAssignments : ℤ := 2000000

def choices (cluster : Fin n) : List (Fin numParts) :=
  match (input.clusters cluster).fixedPart with
  | none => finRange numParts
  | some fixed => [fixed]

def assignmentBound : Option ℤ :=
  (finRange n).foldl (fun bound cluster => bound.bind fun product =>
    let count : ℤ := (choices input cluster).length
    if product > kMaximumExactAssignments / count then none else some (product * count)) (some 1)

abbrev Found (numParts n : ℕ) := Option ((Fin n → Fin numParts) × Objective)

def considerLeaf (candidate : Placement numParts n dims)
    (best : Found numParts n) : Found numParts n :=
  if Reassign.used candidate.counts < input.minUsedParts then
    best
  else
    let value := totalObjective input candidate.assignment
    if value.violations ≠ 0 || value.usedPartDeficit ≠ 0 then
      best
    else
      match best with
      | none => some (candidate.assignment, value)
      | some (bestAssignment, bestValue) =>
        if lessObjective value bestValue ||
            (equalObjective value bestValue &&
              decide (ofFn candidate.assignment < ofFn bestAssignment)) then
          some (candidate.assignment, value)
        else
          best

def Placement.place (candidate : Placement numParts n dims)
    (cluster : Fin n) (part : Fin numParts) :
    Placement numParts n dims :=
  { assignment := update candidate.assignment cluster part
    loads := fun q dimension => MachineInt.int64 (candidate.loads q dimension +
      if q = part then ((input.clusters cluster).weights dimension : ℤ) else 0)
    counts := fun q => candidate.counts q + if q = part then 1 else 0 }

def search : List (Fin n) → Placement numParts n dims →
    Found numParts n → Found numParts n
  | [], candidate, best => considerLeaf input candidate best
  | cluster :: rest, candidate, best =>
    (choices input cluster).foldl (fun best part =>
      if fits input candidate.loads cluster part then
        search rest (candidate.place input cluster part) best
      else
        best) best

/-- A cluster not placed yet has no part in the source (`-1`) and its own here; only the placed
ones are read. -/
def exactFeasibleFallback : Found numParts n :=
  if n > 10 then
    none
  else if (assignmentBound input).isNone then
    none
  else
    search input (finRange n)
      { assignment := fun cluster => (input.clusters cluster).part
        loads := fun _ _ => 0
        counts := fun _ => 0 } none

end fallback

/-! ## `refine` -/

structure Result (numParts n : ℕ) where
  assignment : Fin n → Fin numParts
  initial : Objective
  final : Objective
  rounds : ℕ := 0
  tentativeMoves : ℕ := 0
  exactFallback : Bool := false
  scaleGuard : Bool := false
  committedMoves : List (Transfer numParts n) := []

section refine

variable (input : Input numParts n dims)

def initialAssignment (cluster : Fin n) : Fin numParts := (input.clusters cluster).part

def kMaximumFmClusters : ℕ := 50000

def Progress.initial : Progress numParts n dims :=
  { placement := Placement.ofAssignment input (initialAssignment input)
    incumbent := totalObjective input (initialAssignment input)
    rounds := 0
    tentativeMoves := 0
    committedMoves := [] }

def scaleGuard : Bool :=
  n > kMaximumFmClusters && (Progress.initial input).active

def fallbackMoves (assignment : Fin n → Fin numParts) :
    List (Transfer numParts n) :=
  (finRange n).filterMap fun cluster =>
    if initialAssignment input cluster ≠ assignment cluster then
      some { cluster := cluster, source := initialAssignment input cluster,
             target := assignment cluster }
    else
      none

def finish (r : Progress numParts n dims) : Result numParts n :=
  let result : Result numParts n :=
    { assignment := r.placement.assignment
      initial := totalObjective input (initialAssignment input)
      final := totalObjective input r.placement.assignment
      rounds := r.rounds
      tentativeMoves := r.tentativeMoves
      committedMoves := r.committedMoves }
  if result.final.violations > 0 || result.final.usedPartDeficit > 0 then
    match exactFeasibleFallback input with
    | none => result
    | some (assignment, objective) =>
      { result with
        assignment := assignment
        final := objective
        exactFallback := true
        committedMoves := fallbackMoves input assignment }
  else
    result

def refine : Result numParts n :=
  if scaleGuard input then
    { assignment := initialAssignment input
      initial := totalObjective input (initialAssignment input)
      final := totalObjective input (initialAssignment input)
      scaleGuard := true }
  else
    finish input (runRounds input 32 (Progress.initial input))

end refine

end EmuFlow.HopRefiner
