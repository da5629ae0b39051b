import Mathlib
import EmuFlow.Lib.MachineNumber
import EmuFlow.Lib.Reassign
import EmuFlow.Lib.SortedDict
import EmuFlow.Lib.SortedSet

/-!
# Balance legalization

The legalizer of `native/tritonpart_balance_legalizer.cpp`. While a part is overloaded, the first
repair that applies is made: vertices go one by one to parts that have room, a chain of moves that
worked before is played again, a vertex goes where another one makes room for it, or a beam search
finds a chain of moves. Weights and loads are 64-bit integers; weights of edges and the scores made
of them are exact rationals.

A `Problem` is one the reader accepts: its fields state the checks of `read_problem`.
-/

namespace EmuFlow.TritonPart

open SortedSet Function
open MachineInt (int64)

structure Sizes where
  parts : ℕ
  dimensions : ℕ
  vertices : ℕ
  edges : ℕ

variable {n : Sizes}

local instance vertexLawful (size : ℕ) : LawfulBEq (Fin size) := inferInstance

/-- `std::vector<Weight>`, one weight for each dimension. -/
@[ext] structure Weights (n : Sizes) where
  amount : Fin n.dimensions → ℤ

theorem Weights.ofFn_injective :
    Function.Injective fun weights : Weights n => List.ofFn weights.amount :=
  fun _ _ h => Weights.ext (List.ofFn_injective h)

/-- Vectors are compared from the first dimension on. -/
instance : LinearOrder (Weights n) :=
  LinearOrder.lift' (fun weights => List.ofFn weights.amount) Weights.ofFn_injective

structure Edge (n : Sizes) where
  weight : ℚ
  combinational : Bool
  vertices : List (Fin n.vertices)
  two_le : 2 ≤ vertices.length

structure Problem (n : Sizes) where
  allowed : Fin n.parts → Fin n.dimensions → ℤ
  vertexWeights : Fin n.vertices → Weights n
  /-- `-1` in the file when the vertex may move. -/
  fixed : Fin n.vertices → Option (Fin n.parts)
  assignment : Fin n.vertices → Fin n.parts
  edges : Fin n.edges → Edge n
  parts_gt : 1 < n.parts
  dimensions_pos : 0 < n.dimensions
  vertices_pos : 0 < n.vertices
  edges_pos : 0 < n.edges
  allowed_nonneg : ∀ part dimension, 0 ≤ allowed part dimension
  allowed_lt : ∀ part dimension, allowed part dimension < 2 ^ 63
  weights_nonneg : ∀ vertex dimension, 0 ≤ (vertexWeights vertex).amount dimension
  fixed_eq : ∀ vertex part, fixed vertex = some part → assignment vertex = part

/-! ## the index of the movable vertices -/

/-- A set of vertices with its least element apart: an empty one is not kept. -/
structure Group (n : Sizes) where
  first : Fin n.vertices
  rest : List (Fin n.vertices)

def Group.vertices (group : Group n) : List (Fin n.vertices) := group.first :: group.rest

/-- `std::map<std::vector<Weight>, std::set<int>>`. -/
abbrev Groups (n : Sizes) := List (Weights n × Group n)

def verticesAt (weights : Weights n) (groups : Groups n) :
    List (Fin n.vertices) :=
  match SortedDict.get weights groups with
  | none => []
  | some group => group.vertices

def setVertices (weights : Weights n) (vertices : List (Fin n.vertices))
    (groups : Groups n) : Groups n :=
  match vertices with
  | [] => SortedDict.without [weights] groups
  | first :: rest => SortedDict.set weights ⟨first, rest⟩ groups

def insertVertex (weights : Weights n) (vertex : Fin n.vertices)
    (groups : Groups n) : Groups n :=
  setVertices weights (sortedSet (vertex :: verticesAt weights groups)) groups

/-- `found->second.erase(vertex)`, `none` where it does not erase one. -/
def eraseVertex (weights : Weights n) (vertex : Fin n.vertices)
    (groups : Groups n) : Option (Groups n) :=
  if vertex ∈ verticesAt weights groups then
    some (setVertices weights ((verticesAt weights groups).filter fun v => v ≠ vertex) groups)
  else none

/-! ## the state -/

/-- `ChainTemplateMove`: a number of vertices of some weights that change parts. -/
structure ChainTemplateMove (n : Sizes) where
  weights : Weights n
  count : ℕ
  source : Fin n.parts
  target : Fin n.parts
  count_pos : 0 < count

structure State (n : Sizes) where
  labels : Fin n.vertices → Fin n.parts
  loads : Fin n.parts → Fin n.dimensions → ℤ
  movableGroups : Fin n.parts → Groups n
  preferredChainWeights : Fin n.parts → Option (Weights n)
  preferredChainTargets : Fin n.parts → Option (Fin n.parts)
  preferredChainTemplates : Fin n.parts → List (ChainTemplateMove n)
  edgePartCounts : Fin n.edges → Fin n.parts → ℤ

section run

variable (problem : Problem n)

/-- The weights on a part, without wrapping. -/
def loadsOf (labels : Fin n.vertices → Fin n.parts) (part : Fin n.parts)
    (dimension : Fin n.dimensions) : ℤ :=
  Reassign.total (fun vertex => (problem.vertexWeights vertex).amount dimension) labels part

def initialGroups (part : Fin n.parts) : Groups n :=
  ((List.finRange n.vertices).filter fun vertex =>
      problem.assignment vertex = part ∧ problem.fixed vertex = none).foldl
    (fun groups vertex => insertVertex (problem.vertexWeights vertex) vertex groups) []

/-- The constructor of `Legalizer`. -/
def initialState : State n :=
  { labels := problem.assignment
    loads := fun part dimension => int64 (loadsOf problem problem.assignment part dimension)
    movableGroups := initialGroups problem
    preferredChainWeights := fun _ => none
    preferredChainTargets := fun _ => none
    preferredChainTemplates := fun _ => []
    edgePartCounts := fun edge part =>
      (problem.edges edge).vertices.countP fun vertex => problem.assignment vertex = part }

def combinationalPenalty : ℚ :=
  ((List.finRange n.edges).map fun edge => |(problem.edges edge).weight|).sum + 1

/-! ## scores -/

def share (part : Fin n.parts) (dimension : Fin n.dimensions) (amount : ℤ) : ℚ :=
  amount / (max 1 (problem.allowed part dimension) : ℤ)

def overload (s : State n) (part : Fin n.parts)
    (dimension : Fin n.dimensions) : ℤ :=
  max 0 (int64 (s.loads part dimension - problem.allowed part dimension))

/-- `overload_score` of a part with some loads. -/
def overloadScore (part : Fin n.parts) (values : Fin n.dimensions → ℤ) : ℚ :=
  ((List.finRange n.dimensions).map fun dimension =>
    share problem part dimension
      (max 0 (int64 (values dimension - problem.allowed part dimension)))).sum

def fits (s : State n) (weights : Weights n)
    (part : Fin n.parts) : Bool :=
  (List.finRange n.dimensions).all fun dimension =>
    int64 (s.loads part dimension + weights.amount dimension) ≤ problem.allowed part dimension

def relief (part : Fin n.parts) (amounts excess : Fin n.dimensions → ℤ) : ℚ :=
  ((List.finRange n.dimensions).map fun dimension =>
    share problem part dimension (min (amounts dimension) (excess dimension))).sum

def contributes (excess : Fin n.dimensions → ℤ) (weights : Weights n) : Bool :=
  (List.finRange n.dimensions).any fun dimension =>
    0 < excess dimension && 0 < weights.amount dimension

/-- `incident[vertex]`: an edge as often as the vertex is in it. -/
def incident (vertex : Fin n.vertices) : List (Fin n.edges) :=
  (List.finRange n.edges).flatMap fun edge =>
    List.replicate ((problem.edges edge).vertices.count vertex) edge

def cut (parts : ℤ) : ℤ := if 1 < parts then 1 else 0

def edgeDelta (s : State n) (vertex : Fin n.vertices)
    (source target : Fin n.parts) : ℚ :=
  ((incident problem vertex).map fun edge =>
    let beforeParts : ℤ := ((List.finRange n.parts).filter fun part =>
      0 < s.edgePartCounts edge part).length
    let afterParts := beforeParts - (if s.edgePartCounts edge source = 1 then 1 else 0) +
      (if s.edgePartCounts edge target = 0 then 1 else 0)
    let weight := (problem.edges edge).weight +
      if (problem.edges edge).combinational then combinationalPenalty problem else 0
    ((cut afterParts - cut beforeParts : ℤ) : ℚ) * weight).sum

def moveLoads (loads : Fin n.parts → Fin n.dimensions → ℤ) (source target : Fin n.parts)
    (amounts : Fin n.dimensions → ℤ) (part : Fin n.parts) (dimension : Fin n.dimensions) : ℤ :=
  int64 (Reassign.shift (fun q => loads q dimension) source target (amounts dimension) part)

def apply (s : State n) (vertex : Fin n.vertices)
    (source target : Fin n.parts) :
    Except String (State n) :=
  if s.labels vertex ≠ source ∨ (problem.fixed vertex).isSome then
    .error "internal illegal balance move"
  else
    let weights := problem.vertexWeights vertex
    match eraseVertex weights vertex (s.movableGroups source) with
    | none => .error "internal missing balance-index vertex"
    | some erased =>
      let groups := update s.movableGroups source erased
      .ok { s with
        labels := update s.labels vertex target
        loads := moveLoads s.loads source target weights.amount
        movableGroups := update groups target (insertVertex weights vertex (groups target))
        edgePartCounts := (incident problem vertex).foldl (fun counts edge =>
          update counts edge (Reassign.shift (counts edge) source target 1))
          s.edgePartCounts }

def peakOverload (s : State n) (part : Fin n.parts) :
    ℚ :=
  ((List.finRange n.dimensions).map fun dimension =>
    share problem part dimension
      (int64 (s.loads part dimension - problem.allowed part dimension))).foldl max 0

def overloadedSources (s : State n) :
    List (Fin n.parts) :=
  sortedBy (fun part => lex (-peakOverload problem s part) part)
    ((List.finRange n.parts).filter fun part => 0 < peakOverload problem s part)

/-! ## direct moves -/

structure Direct (n : Sizes) where
  normalized : ℚ
  delta : ℚ
  negativeRelief : ℚ
  vertex : Fin n.vertices

def Direct.key (move : Direct n) :=
  lex move.negativeRelief (lex move.normalized (lex move.delta move.vertex))

def projectedPeak (s : State n)
    (weights : Weights n) (target : Fin n.parts) : ℚ :=
  ((List.finRange n.dimensions).map fun dimension =>
    share problem target dimension
      (int64 (s.loads target dimension + weights.amount dimension))).foldl max 0

def bestTarget (s : State n)
    (weights : Weights n) (vertex : Fin n.vertices) (source : Fin n.parts) :
    Option (Fin n.parts) :=
  ((List.finRange n.parts).filter fun target =>
    target ≠ source ∧ fits problem s weights target = true).argmin fun target =>
      lex (projectedPeak problem s weights target)
        (lex (edgeDelta problem s vertex source target) target)

def directOf (s : State n) (source : Fin n.parts)
    (relief : ℚ) (weights : Weights n) (vertex : Fin n.vertices) :
    Except String (Direct n) :=
  match bestTarget problem s weights vertex source with
  | none => .error "internal missing direct-move target"
  | some target =>
    let delta := edgeDelta problem s vertex source target
    .ok { normalized := delta / relief
          delta := delta
          negativeRelief := -relief
          vertex := vertex }

def directGroup (s : State n) (source : Fin n.parts)
    (excess : Fin n.dimensions → ℤ) (entry : Weights n × Group n) :
    Except String (List (Direct n)) :=
  let relief := relief problem source entry.1.amount excess
  if relief ≤ 0 then .ok []
  else if (List.finRange n.parts).any fun target =>
      target ≠ source && fits problem s entry.1 target then
    entry.2.vertices.mapM (directOf problem s source relief entry.1)
  else .ok []

def directLoop (source : Fin n.parts) : List (Direct n) →
    State n → Bool →
    Except String (Option (State n))
  | [], s, changed => .ok (if changed then some s else none)
  | candidate :: candidates, s, changed =>
    let weights := problem.vertexWeights candidate.vertex
    if (List.finRange n.dimensions).all fun dimension =>
        overload problem s source dimension ≤ 0 then
      .ok (if changed then some s else none)
    else if s.labels candidate.vertex ≠ source then directLoop source candidates s changed
    else if !contributes (overload problem s source) weights then
      directLoop source candidates s changed
    else
      match bestTarget problem s weights candidate.vertex source with
      | none => directLoop source candidates s changed
      | some target =>
        match apply problem s candidate.vertex source target with
        | .error error => .error error
        | .ok next => directLoop source candidates next true

def direct (s : State n) (source : Fin n.parts) :
    Except String (Option (State n)) := do
  let candidates ← (s.movableGroups source).mapM
    (directGroup problem s source (overload problem s source))
  directLoop problem source (sortedBy Direct.key candidates.flatten) s false

/-! ## paired moves -/

structure Pair (n : Sizes) where
  sourceScore : ℚ
  normalized : ℚ
  delta : ℚ
  vertex : Fin n.vertices
  blocker : Fin n.vertices
  target : Fin n.parts
  destination : Fin n.parts

def Pair.key (pair : Pair n) :=
  lex pair.sourceScore (lex pair.normalized (lex pair.delta (lex pair.vertex
    (lex pair.blocker (lex pair.target pair.destination)))))

def selectVertex (delta : Fin n.vertices → ℚ) (group : Group n) : Fin n.vertices :=
  group.rest.foldl (fun vertex candidate =>
    if lex (delta candidate) candidate < lex (delta vertex) vertex then candidate else vertex)
    group.first

def without (loads : Fin n.dimensions → ℤ) (weights : Weights n)
    (dimension : Fin n.dimensions) : ℤ :=
  int64 (loads dimension - weights.amount dimension)

def pairFor (s : State n) (source : Fin n.parts)
    (relief : ℚ) (weights : Weights n) (vertex : Fin n.vertices)
    (target : Fin n.parts) (blockerWeights : Weights n) (blocker : Fin n.vertices)
    (destination : Fin n.parts) : Option (Pair n) :=
  let sourceWithout := without (s.loads source) weights
  let base := if destination = source then sourceWithout else s.loads destination
  let projected := fun dimension => int64 (base dimension + blockerWeights.amount dimension)
  if !(List.finRange n.dimensions).all fun dimension =>
      projected dimension ≤ problem.allowed destination dimension then none
  else
    let afterScore := overloadScore problem source
      (if destination = source then projected else sourceWithout)
    if destination = source ∧ overloadScore problem source (s.loads source) ≤ afterScore then none
    else
      let delta := edgeDelta problem s vertex source target +
        edgeDelta problem s blocker target destination
      some { sourceScore := afterScore
             normalized := delta / relief
             delta := delta
             vertex := vertex
             blocker := blocker
             target := target
             destination := destination }

def pairsTo (s : State n) (source : Fin n.parts)
    (entry : Weights n × Group n) (target : Fin n.parts) :
    List (Pair n) :=
  let vertex := selectVertex (fun candidate => edgeDelta problem s candidate source target) entry.2
  let deficits := fun dimension => max 0 (int64
    (s.loads target dimension + entry.1.amount dimension - problem.allowed target dimension))
  let relief := relief problem source entry.1.amount (overload problem s source)
  if fits problem s entry.1 target then []
  else
    ((s.movableGroups target).filter fun blockers =>
      (List.finRange n.dimensions).all fun dimension =>
        deficits dimension ≤ blockers.1.amount dimension).flatMap fun blockers =>
      blockers.2.vertices.flatMap fun blocker =>
        ((List.finRange n.parts).filter fun destination => destination ≠ target).filterMap
          (pairFor problem s source relief entry.1 vertex target blockers.1 blocker)

def paired (s : State n) (source : Fin n.parts) :
    Except String (Option (State n)) :=
  let sourceGroups := (s.movableGroups source).filter fun entry =>
    contributes (overload problem s source) entry.1
  let pairs := sourceGroups.flatMap fun entry =>
    ((List.finRange n.parts).filter fun target => target ≠ source).flatMap
      (pairsTo problem s source entry)
  match pairs.argmin Pair.key with
  | none => .ok none
  | some best => do
    let freed ← apply problem s best.blocker best.target best.destination
    let next ← apply problem freed best.vertex source best.target
    return some next

/-! ## chains -/

structure Move (n : Sizes) where
  vertices : List (Fin n.vertices)
  source : Fin n.parts
  target : Fin n.parts

def Move.key (move : Move n) :=
  lex move.vertices (lex move.source move.target)

/-- `apply` of the vertices of a move, one after the other. -/
def applyMove (s : State n)
    (move : Move n) :
    Except String (State n) :=
  move.vertices.foldlM (fun s vertex => apply problem s vertex move.source move.target) s

def applySequence (s : State n)
    (sequence : List (Move n)) :
    Except String (State n) :=
  sequence.foldlM (applyMove problem) s

structure Violation where
  count : ℕ
  normalizedSum : ℚ
  normalizedPeak : ℚ
  absolute : ℤ

def Violation.key (violation : Violation) :=
  lex violation.count (lex violation.normalizedSum
    (lex violation.normalizedPeak violation.absolute))

def exceededOf (loads limits : Fin n.parts → Fin n.dimensions → ℤ) (part : Fin n.parts) :
    List (Fin n.dimensions) :=
  (List.finRange n.dimensions).filter fun dimension =>
    0 < int64 (loads part dimension - limits part dimension)

def violationKey (loads limits : Fin n.parts → Fin n.dimensions → ℤ) : Violation :=
  let exceeded := (List.finRange n.parts).flatMap fun part =>
    (exceededOf loads limits part).map fun dimension => (part, dimension)
  let excess := fun place : Fin n.parts × Fin n.dimensions =>
    int64 (loads place.1 place.2 - limits place.1 place.2)
  let normalized := exceeded.map fun place => share problem place.1 place.2 (excess place)
  { count := exceeded.length
    normalizedSum := normalized.sum
    normalizedPeak := normalized.foldl max 0
    absolute := int64 (exceeded.map excess).sum }

def limitsOf (s : State n) (source : Fin n.parts)
    (rootWeights : Weights n) (part : Fin n.parts) (dimension : Fin n.dimensions) :
    ℤ :=
  if part = source then
    max (problem.allowed source dimension)
      (int64 (s.loads source dimension - rootWeights.amount dimension))
  else max (problem.allowed part dimension) (s.loads part dimension)

structure Replay (n : Sizes) where
  selected : List (Fin n.vertices)
  sequence : List (Move n)
  loads : Fin n.parts → Fin n.dimensions → ℤ

/-- As many vertices of the weights as the step moves, or `none`. -/
def replayStep (s : State n)
    (replay : Replay n)
    (step : ChainTemplateMove n) :
    Option (Replay n) :=
  let vertices := ((verticesAt step.weights (s.movableGroups step.source)).filter fun vertex =>
    vertex ∉ replay.selected).take step.count
  if vertices.length = step.count then
    some { selected := replay.selected ++ vertices
           sequence := replay.sequence ++ [⟨vertices, step.source, step.target⟩]
           loads := moveLoads replay.loads step.source step.target fun dimension =>
             int64 (step.weights.amount dimension * step.count) }
  else none

def replayChainTemplate (s : State n)
    (source : Fin n.parts) :
    Except String (Option (State n)) :=
  match s.preferredChainTemplates source with
  | [] => .ok none
  | front :: rest =>
    if front.source ≠ source then .ok none
    else
      match (front :: rest).foldlM (replayStep s) ⟨[], [], s.loads⟩ with
      | none => .ok none
      | some replay =>
        if !contributes (overload problem s source) front.weights then .ok none
        else if (violationKey problem replay.loads
            (limitsOf problem s source front.weights)).count ≠ 0 then .ok none
        else (applySequence problem s replay.sequence).map some

/-! ## ejection chains -/

structure Root (n : Sizes) where
  preference : ℕ
  negativeRelief : ℚ
  sourceScore : ℚ
  normalizedDelta : ℚ
  delta : ℚ
  vertex : Fin n.vertices
  target : Fin n.parts

def Root.key (root : Root n) :=
  lex root.preference (lex root.negativeRelief (lex root.sourceScore (lex root.normalizedDelta
    (lex root.delta (lex root.vertex root.target)))))

def preferenceOf (s : State n) (source : Fin n.parts)
    (weights : Weights n) (target : Fin n.parts) : ℕ :=
  if s.preferredChainWeights source = some weights then
    if s.preferredChainTargets source = some target then 0 else 1
  else 2

def rootsOf (s : State n) (source : Fin n.parts)
    (entry : Weights n × Group n) :
    List (Root n) :=
  let relief := relief problem source entry.1.amount (overload problem s source)
  let sourceScore := overloadScore problem source (without (s.loads source) entry.1)
  if relief ≤ 0 then []
  else if overloadScore problem source (s.loads source) ≤ sourceScore then []
  else
    ((List.finRange n.parts).filter fun target => target ≠ source).map fun target =>
      let selected :=
        selectVertex (fun vertex => edgeDelta problem s vertex source target) entry.2
      let delta := edgeDelta problem s selected source target
      { preference := preferenceOf s source entry.1 target
        negativeRelief := -relief
        sourceScore := sourceScore
        normalizedDelta := delta / relief
        delta := delta
        vertex := selected
        target := target }

def roots (s : State n) (source : Fin n.parts)
    (preferredOnly : Bool) : List (Root n) :=
  ((sortedBy Root.key ((s.movableGroups source).flatMap (rootsOf problem s source))).filter
    fun root => !preferredOnly || root.preference ≤ 1).take 64

structure ChainState (n : Sizes) where
  loads : Fin n.parts → Fin n.dimensions → ℤ
  moved : List (Fin n.vertices)
  sequence : List (Move n)
  approximateDelta : ℚ
  violation : Violation

def ChainState.key (state : ChainState n) :=
  lex state.violation.key (lex state.approximateDelta (state.sequence.map Move.key))

structure Transition (n : Sizes) where
  violation : Violation
  normalizedDelta : ℚ
  delta : ℚ
  vertices : List (Fin n.vertices)
  target : Fin n.parts
  loads : Fin n.parts → Fin n.dimensions → ℤ

def Transition.key (transition : Transition n) :=
  lex transition.violation.key (lex transition.normalizedDelta (lex transition.delta
    (lex transition.vertices transition.target)))

def blockedPart (s : State n)
    (loads limits : Fin n.parts → Fin n.dimensions → ℤ) :
    Option (Fin n.parts × Fin n.dimensions) := do
  let blocked ← ((List.finRange n.parts).filter fun part =>
    exceededOf loads limits part ≠ []).argmin fun part =>
      lex (-((exceededOf loads limits part).map fun dimension => share problem part dimension
        (int64 (loads part dimension - limits part dimension))).foldl max 0) part
  -- a blocked part exceeds a limit, so there is a dimension to choose
  let pivot ← (exceededOf loads limits blocked).argmin fun dimension =>
    lex ((s.movableGroups blocked).countP fun entry => 0 < entry.1.amount dimension) dimension
  return (blocked, pivot)

def batches (moved : List (Fin n.vertices)) (deficits : Fin n.dimensions → ℤ)
    (pivot : Fin n.dimensions) (entry : Weights n × Group n) :
    List (List (Fin n.vertices)) :=
  if entry.1.amount pivot = 0 then []
  else
    -- the quotient as a `std::size_t`; where it is zero the scan stops at no vertex
    let wanted := ((int64 (max 1 (deficits pivot) + entry.1.amount pivot - 1)).tdiv
      (entry.1.amount pivot) % 2 ^ 64).toNat
    let free := entry.2.vertices.filter fun vertex => vertex ∉ moved
    let available := if wanted = 0 then free else free.take wanted
    if available = [] then []
    else (sortedSet [1, min wanted available.length]).map fun size => available.take size

def transitionsOf (s : State n)
    (limits : Fin n.parts → Fin n.dimensions → ℤ) (loads : Fin n.parts → Fin n.dimensions → ℤ)
    (blocked : Fin n.parts) (deficits : Fin n.dimensions → ℤ)
    (weights : Weights n) (vertices : List (Fin n.vertices)) :
    List (Transition n) :=
  let amounts := fun dimension => int64 (weights.amount dimension * vertices.length)
  let relief := relief problem blocked amounts deficits
  if relief ≤ 0 then []
  else
    ((List.finRange n.parts).filter fun target => target ≠ blocked).map fun target =>
      let candidateLoads := moveLoads loads blocked target amounts
      let delta := (vertices.map fun vertex => edgeDelta problem s vertex blocked target).sum
      { violation := violationKey problem candidateLoads limits
        normalizedDelta := delta / relief
        delta := delta
        vertices := vertices
        target := target
        loads := candidateLoads }

def transitions (s : State n)
    (limits : Fin n.parts → Fin n.dimensions → ℤ)
    (state : ChainState n) (blocked : Fin n.parts)
    (pivot : Fin n.dimensions) : List (Transition n) :=
  let deficits := fun dimension =>
    max 0 (int64 (state.loads blocked dimension - limits blocked dimension))
  (sortedBy Transition.key ((s.movableGroups blocked).flatMap fun entry =>
    (batches state.moved deficits pivot entry).flatMap
      (transitionsOf problem s limits state.loads blocked deficits entry.1))).take 128

def extend (state : ChainState n) (blocked : Fin n.parts)
    (transition : Transition n) :
    ChainState n :=
  { loads := transition.loads
    moved := sorted (state.moved ++ transition.vertices)
    sequence := state.sequence ++ [⟨transition.vertices, blocked, transition.target⟩]
    approximateDelta := state.approximateDelta + transition.delta
    violation := transition.violation }

/-- How a search stops early: without a chain, or with one. -/
abbrev Stop (n : Sizes) := Option (List (Move n))

def extendChain (s : State n)
    (limits : Fin n.parts → Fin n.dimensions → ℤ)
    (next : List (ChainState n))
    (state : ChainState n) :
    Except (Stop n) (List (ChainState n)) :=
  match blockedPart problem s state.loads limits with
  | none => .error none
  | some (blocked, pivot) =>
    (transitions problem s limits state blocked pivot).foldlM (fun next transition =>
      let candidate := extend state blocked transition
      if candidate.violation.count = 0 then .error (some candidate.sequence)
      else .ok (next ++ [candidate])) next

def maxChainMoves (n : Sizes) : ℕ := max 3 (min 16 (n.parts * 2 + n.dimensions))

def searchFrom (s : State n)
    (limits : Fin n.parts → Fin n.dimensions → ℤ) : ℕ →
    List (ChainState n) →
    Except (Stop n) Unit
  | 0, _ => .ok ()
  | depth + 1, beam => do
    let next ← beam.foldlM (extendChain problem s limits) []
    let kept := (sortedBy ChainState.key next).take 128
    if kept = [] then .ok () else searchFrom s limits depth kept

def rootChain (s : State n) (source : Fin n.parts)
    (root : Root n) :
    ChainState n :=
  let weights := problem.vertexWeights root.vertex
  let loads := moveLoads s.loads source root.target weights.amount
  { loads := loads
    moved := [root.vertex]
    sequence := [⟨[root.vertex], source, root.target⟩]
    approximateDelta := root.delta
    violation := violationKey problem loads (limitsOf problem s source weights) }

def searchRoot (s : State n) (source : Fin n.parts)
    (root : Root n) :
    Except (Option (Root n × List (Move n)))
      Unit :=
  let initial := rootChain problem s source root
  let limits := limitsOf problem s source (problem.vertexWeights root.vertex)
  if initial.violation.count = 0 then .error (some (root, initial.sequence))
  else
    (searchFrom problem s limits (maxChainMoves n - 1) [initial]).mapError
      fun stop => stop.map fun sequence => (root, sequence)

/-- One step of `remember_chain`. -/
def templateOf (move : Move n) :
    Except String (ChainTemplateMove n) :=
  match move.vertices with
  | [] => .error "internal empty balance-chain move"
  | first :: rest =>
    .ok { weights := problem.vertexWeights first
          count := rest.length + 1
          source := move.source
          target := move.target
          count_pos := Nat.succ_pos rest.length }

/-- `preferred_chain_weights`, `preferred_chain_targets` and the template of the source. -/
def remember (s : State n) (source : Fin n.parts) (root : Root n)
    (template : List (ChainTemplateMove n)) : State n :=
  { s with
    preferredChainWeights :=
      update s.preferredChainWeights source (some (problem.vertexWeights root.vertex))
    preferredChainTargets := update s.preferredChainTargets source (some root.target)
    preferredChainTemplates := update s.preferredChainTemplates source template }

def makeChain (s : State n) (source : Fin n.parts)
    (root : Root n)
    (sequence : List (Move n)) :
    Except String (State n) := do
  let template ← sequence.mapM (templateOf problem)
  applySequence problem (remember problem s source root template) sequence

def ejectionChain (preferredOnly : Bool) (s : State n)
    (source : Fin n.parts) :
    Except String (Option (State n)) :=
  match (roots problem s source preferredOnly).forM (searchRoot problem s source) with
  | .ok _ => .ok none
  | .error none => .ok none
  | .error (some (root, sequence)) => (makeChain problem s source root sequence).map some

def preferredChain (s : State n)
    (source : Fin n.parts) :
    Except String (Option (State n)) :=
  if (s.preferredChainWeights source).isSome then ejectionChain problem true s source
  else .ok none

def repairs : List (State n → Fin n.parts →
    Except String (Option (State n))) :=
  [direct problem, replayChainTemplate problem, preferredChain problem, paired problem,
    ejectionChain problem false]

def firstChange (repair : Fin n.parts →
      Except String (Option (State n))) :
    List (Fin n.parts) →
    Except String (Option (State n))
  | [] => .ok none
  | source :: sources =>
    match repair source with
    | .error error => .error error
    | .ok (some next) => .ok (some next)
    | .ok none => firstChange repair sources

def firstRepair (s : State n)
    (sources : List (Fin n.parts)) :
    List (State n → Fin n.parts → Except String (Option (State n))) →
    Except String (State n)
  | [] => .error "no deterministic direct, paired, or bounded-chain balance repair"
  | repair :: rest =>
    match firstChange (repair s) sources with
    | .error error => .error error
    | .ok (some next) => .ok next
    | .ok none => firstRepair s sources rest

/-- One turn of the loop of `run`, `none` once no part is overloaded. -/
def turn (s : State n) :
    Except String (Option (State n)) :=
  if overloadedSources problem s = [] then .ok none
  else (firstRepair s (overloadedSources problem s) (repairs problem)).map some

/-- The loop of `run`; `none` where the fuel runs out. -/
def legalize : ℕ → State n →
    Option (Except String (State n))
  | 0, _ => none
  | fuel + 1, s =>
    match turn problem s with
    | .error error => some (.error error)
    | .ok none => some (.ok s)
    | .ok (some next) => legalize fuel next

end run

end EmuFlow.TritonPart
