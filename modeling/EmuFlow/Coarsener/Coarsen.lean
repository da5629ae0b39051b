import Mathlib.Data.ENat.Basic
import Mathlib.Data.Prod.Lex
import EmuFlow.Coarsener.Graph
import EmuFlow.Lib.Discovery
import EmuFlow.Lib.LabelCorrecting

/-!
# MFSPart coarsener: `coarsen_once` and `run`

Affinity matching, the repair that drops merges until the fixed anchors are far enough apart, and
the levels. The loops whose end is not obvious, the distance search, the walk along its parents and
the repair rounds, take fuel; they give `none` when it runs out. An affinity is a double, computed
from long doubles.
-/

namespace EmuFlow.Coarsener

structure Margin where
  parts : ℕ
  fixedRadius : ℕ
  fixedMargin : ℕ
  partDistances : ℕ → ℕ → ℕ
  distance_self : ∀ part < parts, partDistances part part = 0
  distance_symm : ∀ part < parts, ∀ other < parts,
    partDistances part other = partDistances other part

/-- The marked nodes the reader leaves: those within `fixed_radius` of a fixed one. The rest of
the development needs the fixed nodes only, which are within any radius. -/
def AnchorsProtected {dims : ℕ} (graph : Graph dims) : Prop :=
  ∀ node, (graph.nodes node).fixedPart.isSome = true → (graph.nodes node).protectedRadius = true

structure Input (dims : ℕ) [NeZero dims] where
  stopDelta : ℕ
  maxLevels : ℕ
  seed : UInt64
  coarseBounds : Fin dims → ℤ
  margin : Option Margin
  graph : Graph dims
  size_pos : 0 < graph.size
  maxLevels_pos : 0 < maxLevels
  bounds_pos : ∀ dimension, 0 < coarseBounds dimension
  front_pos : ∀ node, 0 < (graph.nodes node).weights 0
  weights_nonneg : ∀ node dimension, 0 ≤ (graph.nodes node).weights dimension
  weight_pos : ∀ net ∈ graph.nets, 0 < net.weight
  fixed_lt : ∀ mode, margin = some mode → ∀ node part,
    (graph.nodes node).fixedPart = some part → part < mode.parts
  anchors_protected : margin.isSome = true → AnchorsProtected graph

/-- What a step gives: nothing without fuel, a `std::runtime_error`, or a value. -/
abbrev Outcome (α : Type) := Option (Except String α)

def Outcome.ok {α : Type} (a : α) : Outcome α := some (.ok a)

def Outcome.andThen {α β : Type} (x : Outcome α) (f : α → Outcome β) : Outcome β :=
  match x with
  | none => none
  | some (.error e) => some (.error e)
  | some (.ok a) => f a

@[simp] theorem Outcome.andThen_ok {α β : Type} (a : α) (f : α → Outcome β) :
    (Outcome.ok a).andThen f = f a := rfl

theorem Outcome.andThen_eq_ok {α β : Type} {x : Outcome α} {f : α → Outcome β} {b : β} :
    x.andThen f = .ok b ↔ ∃ a, x = .ok a ∧ f a = .ok b := by
  cases x with
  | none => simp [Outcome.andThen, Outcome.ok]
  | some result =>
    cases result with
    | error e => simp [Outcome.andThen, Outcome.ok]
    | ok a => simp [Outcome.andThen, Outcome.ok]

theorem Outcome.andThen_eq_error {α β : Type} {x : Outcome α} {f : α → Outcome β} {e : String} :
    x.andThen f = some (.error e) ↔
      x = some (.error e) ∨ ∃ a, x = .ok a ∧ f a = some (.error e) := by
  cases x with
  | none => simp [Outcome.andThen, Outcome.ok]
  | some result =>
    cases result with
    | error e => simp [Outcome.andThen, Outcome.ok]
    | ok a => simp [Outcome.andThen, Outcome.ok]

def splitmix64 (value : UInt64) : UInt64 :=
  let value := value + 0x9e3779b97f4a7c15
  let value := (value ^^^ (value >>> 30)) * 0xbf58476d1ce4e5b9
  let value := (value ^^^ (value >>> 27)) * 0x94d049bb133111eb
  value ^^^ (value >>> 31)

def tieKey (seed : UInt64) (level left right : ℕ) : UInt64 :=
  let value := seed ^^^ splitmix64 (UInt64.ofNat (level + 1))
  let value := value ^^^ splitmix64 ((UInt64.ofNat (left + 1) <<< 32) |||
    UInt64.ofNat ((right + 1) % 4294967296))
  splitmix64 value

/-! ## anchors -/

section anchors

variable {dims : ℕ} (graph : Graph dims)

def neighbors (node : Fin graph.size) : List (Fin graph.size) :=
  graph.nets.flatMap fun net => (sinkList net.sinks).flatMap fun sink =>
    (if net.source = node then [sink] else []) ++ (if sink = node then [net.source] else [])

def anchors : List (Fin graph.size) :=
  (List.finRange graph.size).filter fun node => (graph.nodes node).fixedPart.isSome

/-- `AnchorDistances`: the breadth-first distance from an anchor; `none` for `-1`. -/
def anchorDistance (anchor node : Fin graph.size) : Option ℕ :=
  (Discovery.run (fun x => (neighbors graph x).map fun y => (y, ())) (fun record _ => record.2 + 1)
    graph.size (anchor, 0)).lookup node

def infinity : ℤ := 536870911

def combine (left right : Option ℕ) : ℤ :=
  match left, right with
  | some a, some b => (a : ℤ) + b
  | _, _ => infinity

/-- `fixed_part` of an anchor. -/
def anchorPart (anchor : Fin graph.size) : ℕ := (graph.nodes anchor).fixedPart.getD 0

/-- The sum of two `int`. -/
def requiredDistance (mode : Margin) (first second : Fin graph.size) : ℤ :=
  MachineInt.int32 (mode.partDistances (anchorPart graph first) (anchorPart graph second) +
    mode.fixedMargin)

def minimumAllowed (mode : Margin) (first second : Fin graph.size) : ℤ :=
  match anchorDistance graph first second with
  | none => requiredDistance graph mode first second
  | some baseline => min (baseline : ℤ) (requiredDistance graph mode first second)

def marginAllows (mode : Margin) (left right : Fin graph.size) : Bool :=
  decide ((anchors graph).Pairwise fun first second =>
    anchorPart graph first = anchorPart graph second ∨
      let contracted : ℤ := ((anchorDistance graph first second).map Nat.cast).getD infinity
      let contracted := min contracted
        (combine (anchorDistance graph first left) (anchorDistance graph second right))
      let contracted := min contracted
        (combine (anchorDistance graph first right) (anchorDistance graph second left))
      minimumAllowed graph mode first second ≤ contracted)

end anchors

/-! ## matching -/

structure Candidate (n : ℕ) where
  left : Fin n
  right : Fin n
  affinity : ℚ
  tie : UInt64

section matching

variable {dims : ℕ} [NeZero dims] (input : Input dims) (fine : Graph dims)

def pairLess {n : ℕ} (left right : Fin n × Fin n) : Bool :=
  left.1 < right.1 || (left.1 = right.1 && left.2 < right.2)

def pairWeight : List ((Fin fine.size × Fin fine.size) × ℚ) :=
  fine.nets.foldl (fun weights net => (sinkList net.sinks).foldl (fun weights sink =>
    OrderedMap.add Binary64.add pairLess (min net.source sink, max net.source sink)
      net.weight weights)
    weights) []

inductive Verdict
  | protectedRadius
  | fixed
  | bound
  | margin
  | candidate
deriving DecidableEq

def verdict (left right : Fin fine.size) : Verdict :=
  if input.margin.isSome &&
      ((fine.nodes left).protectedRadius || (fine.nodes right).protectedRadius) then
    .protectedRadius
  else if (fine.nodes left).fixedPart.isSome && (fine.nodes right).fixedPart.isSome &&
      (fine.nodes left).fixedPart ≠ (fine.nodes right).fixedPart then
    .fixed
  else if ¬∀ dimension, MachineInt.int64 ((fine.nodes left).weights dimension +
      (fine.nodes right).weights dimension) ≤ input.coarseBounds dimension then
    .bound
  else if input.margin.any fun mode => !marginAllows fine mode left right then
    .margin
  else
    .candidate

def affinity (weight : ℚ) (left right : Fin fine.size) : ℚ :=
  Binary64.round (Binary64.roundLong (weight / Binary64.roundLong
    ((fine.nodes left).weights 0 * (fine.nodes right).weights 0 : ℤ)))

def candidates (level : ℕ) : List (Candidate fine.size) :=
  (pairWeight fine).filterMap fun entry =>
    if verdict input fine entry.1.1 entry.1.2 = .candidate then
      some
        { left := entry.1.1
          right := entry.1.2
          affinity := affinity fine entry.2 entry.1.1 entry.1.2
          tie := tieKey input.seed level entry.1.1 entry.1.2 }
    else
      none

/-- The order of the candidates. -/
def Candidate.before {n : ℕ} (left right : Candidate n) : Bool :=
  if left.affinity ≠ right.affinity then
    left.affinity > right.affinity
  else if left.tie ≠ right.tie then
    left.tie < right.tie
  else
    pairLess (left.left, left.right) (right.left, right.right)

def matched {n : ℕ} (selected : List (Candidate n)) (node : Fin n) : Bool :=
  selected.any fun candidate => candidate.left = node || candidate.right = node

def select {n : ℕ} (candidates : List (Candidate n)) : List (Candidate n) :=
  candidates.foldl (fun selected candidate =>
    if matched selected candidate.left || matched selected candidate.right then selected
    else selected ++ [candidate]) []

def selectedMerges (level : ℕ) : List (Candidate fine.size) :=
  select ((candidates input fine level).insertionSort fun a b => !b.before a)

end matching

/-! ## repair -/

section repair

variable {n k : ℕ}

structure Arc (n k : ℕ) where
  target : Fin n
  cost : ℕ
  merge : Option (Fin k)

/-- Distance, parent and parent merge; an offer replaces a label exactly when it is smaller in
this order. -/
abbrev Label (n k : ℕ) := ℕ∞ ×ₗ WithBot (Fin n) ×ₗ WithBot (Fin k)

def Label.distance (label : Label n k) : ℕ∞ := (ofLex label).1

def Label.parent (label : Label n k) : Option (Fin n) := (ofLex (ofLex label).2).1

def Label.parentMerge (label : Label n k) : Option (Fin k) := (ofLex (ofLex label).2).2

def Label.make (distance : ℕ∞) (parent : Option (Fin n)) (merge : Option (Fin k)) :
    Label n k :=
  toLex (distance, toLex ((parent : WithBot (Fin n)), (merge : WithBot (Fin k))))

def offers (adjacency : Fin n → List (Arc n k)) (node : Fin n) (label : Label n k) :
    List (LabelCorrecting.Offer (Fin n) (Label n k)) :=
  match label.distance with
  | none => []
  | some distance =>
    (adjacency node).map fun arc =>
      { target := arc.target
        label := Label.make ((distance + arc.cost : ℕ) : ℕ∞) (some node) arc.merge
        front := decide (arc.cost = 0) }

def startState (source : Fin n) : LabelCorrecting.State (Fin n) (Label n k) :=
  { labels := fun node => if node = source then Label.make (0 : ℕ) none none
      else Label.make ⊤ none none
    queue := [source] }

def search (fuel : ℕ) (adjacency : Fin n → List (Arc n k)) (source : Fin n) :
    Option (Fin n → Label n k) :=
  (LabelCorrecting.loop (offers adjacency) fuel (startState source)).map
    LabelCorrecting.State.labels

def reconstruct (labels : Fin n → Label n k) (source : Fin n) : ℕ → Fin n →
    Option (List (Fin k))
  | 0, _ => none
  | fuel + 1, node =>
    if node = source then some []
    else
      match (labels node).parent with
      | none => some []
      | some parent =>
        (reconstruct labels source fuel parent).map fun merges =>
          (labels node).parentMerge.toList ++ merges

end repair

section repairs

variable {dims : ℕ} (mode : Margin) (fine : Graph dims) {k : ℕ}
  (selected : Fin k → Candidate fine.size)

def adjacency (active : Fin k → Bool) (node : Fin fine.size) : List (Arc fine.size k) :=
  ((neighbors fine node).map fun target => { target := target, cost := 1, merge := none }) ++
    (List.finRange k).flatMap fun merge =>
      if active merge then
        (if (selected merge).left = node then
          [{ target := (selected merge).right, cost := 0, merge := some merge }] else []) ++
        (if (selected merge).right = node then
          [{ target := (selected merge).left, cost := 0, merge := some merge }] else [])
      else
        []

def removedBefore (left right : Fin k) : Bool :=
  if (selected left).affinity ≠ (selected right).affinity then
    (selected left).affinity < (selected right).affinity
  else if (selected left).tie ≠ (selected right).tie then
    (selected left).tie > (selected right).tie
  else
    left > right

def pathMerges (merges : List (Fin k)) : List (Fin k) :=
  (merges.insertionSort fun a b => !removedBefore fine selected b a).dedup

def repairTarget (fuel : ℕ) (labels : Fin fine.size → Label fine.size k)
    (source : Fin fine.size) (remove : Finset (Fin k)) (target : Fin fine.size) :
    Outcome (Finset (Fin k)) :=
  if anchorPart fine source = anchorPart fine target then
    .ok remove
  else
    match (labels target).distance with
    | none => .ok remove
    | some distance =>
      let deficit := minimumAllowed fine mode source target - (distance : ℤ)
      if deficit ≤ 0 then
        .ok remove
      else
        match reconstruct labels source fuel target with
        | none => none
        | some merges =>
          let path := pathMerges fine selected merges
          if (path.length : ℤ) < deficit then
            some (.error "margin repair cannot identify enough merges")
          else
            .ok (remove ∪ (path.take deficit.toNat).toFinset)

def repairTargets (fuel : ℕ) (labels : Fin fine.size → Label fine.size k)
    (source : Fin fine.size) :
    List (Fin fine.size) → Finset (Fin k) → Outcome (Finset (Fin k))
  | [], remove => .ok remove
  | target :: targets, remove =>
    (repairTarget mode fine selected fuel labels source remove target).andThen fun remove =>
      repairTargets fuel labels source targets remove

def repairSources (fuel : ℕ) (active : Fin k → Bool) :
    List (Fin fine.size) → Finset (Fin k) × ℕ → Outcome (Finset (Fin k) × ℕ)
  | [], state => .ok state
  | source :: later, (remove, searches) =>
    if later.any fun target => anchorPart fine source ≠ anchorPart fine target then
      match search fuel (adjacency fine selected active) source with
      | none => none
      | some labels =>
        (repairTargets mode fine selected fuel labels source later remove).andThen fun remove =>
          repairSources fuel active later (remove, searches + 1)
    else
      repairSources fuel active later (remove, searches)

def repairRound (fuel : ℕ) (active : Fin k → Bool) : Outcome (Finset (Fin k) × ℕ) :=
  repairSources mode fine selected fuel active (anchors fine) (∅, 0)

def repair (fuel : ℕ) : ℕ → (Fin k → Bool) → Counters → Outcome ((Fin k → Bool) × Counters)
  | 0, _, _ => none
  | rounds + 1, active, counters =>
    (repairRound mode fine selected fuel active).andThen fun result =>
      let counters := { counters with
        marginDistanceSearches := counters.marginDistanceSearches + result.2 }
      if result.1 = ∅ then
        .ok (active, counters)
      else
        repair fuel rounds (fun merge => active merge && decide (merge ∉ result.1))
          { counters with
            rejectedMargin := counters.rejectedMargin + result.1.card
            marginRepairRounds := counters.marginRepairRounds + 1 }

def hasDistinctAnchors : Bool :=
  !decide ((anchors fine).Pairwise fun first second =>
    anchorPart fine first = anchorPart fine second)

end repairs

/-! ## `coarsen_once` -/

section coarsen

variable {dims : ℕ} [NeZero dims] (input : Input dims) (fine : Graph dims)

def countVerdicts (value : Verdict) : ℕ :=
  (pairWeight fine).countP fun entry => verdict input fine entry.1.1 entry.1.2 = value

def pairCounters : Counters :=
  { rejectedProtected := countVerdicts input fine .protectedRadius
    rejectedMargin := countVerdicts input fine .margin
    rejectedBound := countVerdicts input fine .bound
    rejectedFixed := countVerdicts input fine .fixed }

def mergeClusters {n : ℕ} (selected : List (Candidate n)) (active : Fin selected.length → Bool) :
    List (List (Fin n)) :=
  ((List.finRange selected.length).filter active).map fun merge =>
    [(selected.get merge).left, (selected.get merge).right]

def buildLevel (selected : List (Candidate fine.size)) (active : Fin selected.length → Bool)
    (counters : Counters) : LevelResult fine where
  clusters := appendUnassigned (fun node => [node]) (mergeClusters selected active)
  covered := appendUnassigned_covers fun node => List.mem_singleton_self node
  merges := ((List.finRange selected.length).filter active).zipIdx.map fun entry =>
    { coarse := entry.2
      left := (selected.get entry.1).left
      right := (selected.get entry.1).right
      affinity := (selected.get entry.1).affinity }
  counters := counters

def coarsenOnce (fuel level : ℕ) : Outcome (LevelResult fine) :=
  let selected := selectedMerges input fine level
  match input.margin with
  | none => .ok (buildLevel fine selected (fun _ => true) (pairCounters input fine))
  | some mode =>
    if hasDistinctAnchors fine then
      (repair mode fine selected.get fuel fuel (fun _ => true) (pairCounters input fine)).andThen
        fun result => .ok (buildLevel fine selected result.1 result.2)
    else
      .ok (buildLevel fine selected (fun _ => true) (pairCounters input fine))

end coarsen

inductive Levels {dims : ℕ} : Graph dims → Type
  | done (graph : Graph dims) : Levels graph
  | next {fine : Graph dims} (level : LevelResult fine) (rest : Levels level.graph) : Levels fine

section run

variable {dims : ℕ} [NeZero dims] (input : Input dims)

/-- The level loop; `remaining` counts the levels up to `max_levels`. -/
def coarsenLevels (fuel : ℕ) : ℕ → ℕ → (fine : Graph dims) → Outcome (Levels fine)
  | 0, _, fine => .ok (.done fine)
  | remaining + 1, level, fine =>
    (coarsenOnce input fine fuel level).andThen fun result =>
      if (fine.size : ℤ) - result.graph.size ≤ input.stopDelta then
        .ok (.done fine)
      else if result.graph.size ≤ 1 then
        .ok (.next result (.done result.graph))
      else
        (coarsenLevels fuel remaining (level + 1) result.graph).andThen fun rest =>
          .ok (.next result rest)

def hasRepeatedPart (graph : Graph dims) : Bool :=
  !decide ((anchors graph).Pairwise fun first second =>
    anchorPart graph first ≠ anchorPart graph second)

def run (fuel : ℕ) : Outcome (Levels input.graph) :=
  if input.margin.isSome && hasRepeatedPart input.graph then
    let fixed := mergeSameFixedParts input.graph
    (coarsenLevels input fuel (input.maxLevels - 1) 1 fixed.graph).andThen fun rest =>
      .ok (.next fixed rest)
  else
    coarsenLevels input fuel input.maxLevels 0 input.graph

end run

end EmuFlow.Coarsener
