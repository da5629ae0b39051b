import EmuFlow.TdmRatio.Boundary

/-!
# Round-barrier legalization

`_round_barrier_legalize` of `emuflow/tdm_ratio.py`: while a domain needs more lanes than it has, a
bucket of such a domain is promoted to a larger ratio; then every bucket gets its lanes.
-/

namespace EmuFlow.TdmRatio

open Check SortedSet Routing Tdm DifferenceArray

/-! ## buckets of hops -/

def PlanHop.bucketKey (hop : PlanHop) : BucketKey :=
  { domain := hop.domain, direction := hop.direction, ratio := hop.discreteRatio }

/-- The keys in use. The order of the dictionary is never observed. -/
def bucketKeys (hops : List PlanHop) : List BucketKey := (hops.map PlanHop.bucketKey).dedup

def bucketHops (hops : List PlanHop) (key : BucketKey) : List PlanHop :=
  hops.filter fun hop => hop.bucketKey = key

def roundCounts (hops : List PlanHop) : RoundCounts :=
  { zero := hops.countP fun hop => hop.transportRound = 0
    one := hops.countP fun hop => hop.transportRound = 1 }

def countsByBucket (hops : List PlanHop) : BucketCounts :=
  (bucketKeys hops).map fun key => (key, roundCounts (bucketHops hops key))

/-- `counts.get(key)`. -/
def countsOf (counts : BucketCounts) (key : BucketKey) : Option RoundCounts := counts.lookup key

/-- `Counter.update`. -/
def RoundCounts.add (a b : RoundCounts) : RoundCounts :=
  { zero := a.zero + b.zero, one := a.one + b.one }

def BucketKey.withRatio (key : BucketKey) (target : Int) : BucketKey := { key with ratio := target }

def keyOrder (key : BucketKey) := lex key.domain (lex key.direction key.ratio)

/-! ## timing -/

/-- `_discrete_timing_records`: the records and the worst slack, which without paths is infinite. -/
def discreteTimingRecords (model : RatioModel) (hops : List PlanHop) :
    List PlanTimingPath × Option ℚ :=
  let records := model.timingPaths.map fun path =>
    let delay := pathDelay model (discreteRatioAt hops) path
    { path with
      delayNs := delay
      slackNs := path.requiredTimeNs - delay
      normalizedSlack :=
        normalizedSlack path.clockPeriodNs (path.requiredTimeNs - delay) model.normalization }
  (records, (records.map PlanTimingPath.normalizedSlack).min?)

/-- `path_impacts_by_bucket[key]`: the paths over the bucket, with the sum of the slopes of their
hops in it. -/
def pathImpacts (model : RatioModel) (hops : List PlanHop) (key : BucketKey) : List (Nat × ℚ) :=
  model.timingPaths.zipIdx.filterMap fun entry =>
    let crossed := (entry.1.hops.filterMap fun index => hops[index]?).filter fun hop =>
      hop.bucketKey = key
    if crossed = [] then none else some (entry.2, (crossed.map fun hop => hop.betaNs).sum)

/-- The smaller of two slacks, of which `none` is infinite. -/
def minSlack (a : Option ℚ) (b : ℚ) : Option ℚ :=
  match a with
  | none => some b
  | some a => some (min a b)

/-- `unaffected_worst`: the least slack of a path that is not over the bucket. -/
def unaffectedWorst (timing : List PlanTimingPath) (impacts : List (Nat × ℚ)) : Option ℚ :=
  ((sortedBy (fun entry : PlanTimingPath × Nat => entry.1.normalizedSlack) timing.zipIdx).find?
    fun entry => entry.2 ∉ impacts.map Prod.fst).map fun entry => entry.1.normalizedSlack

/-- `candidate_worst`, after all hops of the bucket have gone up by `delta`. -/
def candidateWorst (model : RatioModel) (timing : List PlanTimingPath) (impacts : List (Nat × ℚ))
    (delta : Int) : Option ℚ :=
  impacts.foldl (fun worst impact =>
    match timing[impact.1]? with
    | none => worst
    | some path =>
      minSlack worst (normalizedSlack path.clockPeriodNs
        (path.requiredTimeNs - (path.delayNs + impact.2 * delta)) model.normalization))
    (unaffectedWorst timing impacts)

/-- `max(0.0, current_worst - candidate_worst)`. Both are infinite where there are no paths; the
difference is then no number and counts as zero. -/
def slackLoss (current candidate : Option ℚ) : ℚ :=
  match current, candidate with
  | some current, some candidate => max 0 (current - candidate)
  | _, _ => 0

/-! ## promotions -/

structure LegalizeState where
  hops : List PlanHop
  promotedIndices : List Nat
  promotionSteps : Nat
  boundary : Boundary

/-- `score[0]`. -/
def Boundary.maxExcess (boundary : Boundary) : Int := (ofLex boundary.score).1

def Barrier.failing (barrier : Barrier) (boundary : Boundary) (domain : Nat) : Bool :=
  boundary.required.any fun entry => decide (entry.1 = domain) &&
    barrier.model.domains.any fun record =>
      decide (record.index = domain) && decide ((record.lanes : Int) < entry.2)

/-- `target` for a number of lanes: the ratio that fits `total` hops on them. -/
def thresholdRatio (quantum total : Int) (desiredLanes : Int) : Int :=
  let requiredRatio := ceilDiv total desiredLanes
  if requiredRatio ≤ 1 then 1 else ceilDiv requiredRatio quantum * quantum

def ratioThresholds (quantum maxRatio ratio total before : Int) : List Int :=
  ((slots 1 (max 1 (before - 1))).map (thresholdRatio quantum total)).filter fun target =>
    ratio < target ∧ target ≤ maxRatio

def higherRatios (hops : List PlanHop) (quantum maxRatio : Int) (key : BucketKey)
    (total before : Int) : List Int :=
  let existingHigher := ((bucketKeys hops).filter fun other =>
    other.domain = key.domain ∧ other.direction = key.direction ∧ key.ratio < other.ratio).map
      BucketKey.ratio
  sortedSet (existingHigher ++ ratioThresholds quantum maxRatio key.ratio total before ++
    [maxRatio])

/-- A promotion of the bucket `key` to the ratio `target`. -/
structure Candidate where
  loss : ℚ
  saving : Int
  size : Nat
  key : BucketKey
  target : Int

def Candidate.order (c : Candidate) :=
  lex (c.loss / c.saving) (lex c.loss (lex (-c.saving) (lex (c.target - c.key.ratio)
    (lex c.size (lex (keyOrder c.key) c.target)))))

/-- A promotion that saves no lane at the fixed boundary, with its own boundary's score. -/
structure Migration extends Candidate where
  boundaryScore : Score

def Migration.order (m : Migration) :=
  lex m.boundaryScore (lex m.loss (lex (m.target - m.key.ratio) (lex m.size
    (lex (keyOrder m.key) m.target))))

/-- `after`: the lanes of the domain once the bucket is merged into its target. -/
def Barrier.lanesAfter (barrier : Barrier) (counts : BucketCounts) (sourceReadySlot before : Int)
    (key targetKey : BucketKey) (count merged : RoundCounts) : Result Int := do
  let own ← barrier.laneNeed key count sourceReadySlot
  let other ← match countsOf counts targetKey with
    | none => .ok 0
    | some targetCount => barrier.laneNeed targetKey targetCount sourceReadySlot
  let together ← barrier.laneNeed targetKey merged sourceReadySlot
  return before - own - other + together

def mergedCount (counts : BucketCounts) (targetKey : BucketKey) (count : RoundCounts) :
    RoundCounts :=
  match countsOf counts targetKey with
  | none => count
  | some targetCount => count.add targetCount

def candidateCounts (counts : BucketCounts) (key targetKey : BucketKey) (merged : RoundCounts) :
    BucketCounts :=
  (counts.filter fun entry => entry.1 ≠ key ∧ entry.1 ≠ targetKey) ++ [(targetKey, merged)]

def Barrier.evaluateTarget (barrier : Barrier) (s : LegalizeState) (key : BucketKey)
    (count : RoundCounts) (before target : Int) : Result (Candidate ⊕ Migration) := do
  let counts := countsByBucket s.hops
  let targetKey := key.withRatio target
  let merged := mergedCount counts targetKey count
  let after ← barrier.lanesAfter counts s.boundary.sourceReadySlot before key targetKey count merged
  let (timing, currentWorst) := discreteTimingRecords barrier.model s.hops
  let loss := slackLoss currentWorst (candidateWorst barrier.model timing
    (pathImpacts barrier.model s.hops key) (target - key.ratio))
  let candidate : Candidate :=
    { loss := loss, saving := before - after, size := (bucketHops s.hops key).length
      key := key, target := target }
  if 0 < before - after then return .inl candidate
  else do
    let boundary ← barrier.boundaryScore (candidateCounts counts key targetKey merged)
    return .inr { candidate with boundaryScore := boundary.score }

def Barrier.evaluateBucket (barrier : Barrier) (maxRatio quantum : Int) (s : LegalizeState)
    (entry : BucketKey × RoundCounts) : Result (List (Candidate ⊕ Migration)) := do
  let before ← barrier.plainSum (countsByBucket s.hops) entry.1.domain s.boundary.sourceReadySlot
  (higherRatios s.hops quantum maxRatio entry.1 entry.2.total before).mapM
    (barrier.evaluateTarget s entry.1 entry.2 before)

def Barrier.promotable (barrier : Barrier) (maxRatio : Int) (s : LegalizeState) : BucketCounts :=
  (sortedBy (fun entry : BucketKey × RoundCounts => keyOrder entry.1)
    (countsByBucket s.hops)).filter fun entry =>
      barrier.failing s.boundary entry.1.domain ∧ entry.1.ratio < maxRatio

/-- `selected_key` and `selected_target`. -/
def selectPromotion (choices : List (Candidate ⊕ Migration)) : Result Candidate :=
  match (sortedBy Candidate.order (choices.filterMap Sum.getLeft?)).head? with
  | some candidate => .ok candidate
  | none =>
    match (sortedBy Migration.order (choices.filterMap Sum.getRight?)).head? with
    | some migration => .ok migration.toCandidate
    | none => .error (ValidationError ("TDM round-barrier legalization cannot reduce lane " ++
        "fragmentation to a feasible solution"))

def promoteHops (hops : List PlanHop) (key : BucketKey) (target : Int) : List PlanHop :=
  hops.map fun hop => if hop.bucketKey = key then { hop with discreteRatio := target } else hop

def Barrier.promote (barrier : Barrier) (maxRatio quantum : Int) (s : LegalizeState) :
    Result LegalizeState := do
  let choices ← (barrier.promotable maxRatio s).mapM (barrier.evaluateBucket maxRatio quantum s)
  let selected ← selectPromotion choices.flatten
  let hops := promoteHops s.hops selected.key selected.target
  raiseIf (1024 < s.promotionSteps + 1)
    (ValidationError "TDM round-barrier legalization did not converge")
  let boundary ← barrier.boundaryScore (countsByBucket hops)
  return { hops := hops
           promotedIndices := s.promotedIndices.union
             ((bucketHops s.hops selected.key).map fun hop => hop.index)
           promotionSteps := s.promotionSteps + 1
           boundary := boundary }

/-! ## lanes -/

def splitScore (entry : (BucketKey × RoundCounts) × Int) :=
  lex (max (ceilDiv entry.1.2.zero entry.2) (ceilDiv entry.1.2.one entry.2))
    (lex (ceilDiv entry.1.2.total entry.2)
      (lex (-(entry.1.1.domain : ℤ)) (lex (-(entry.1.1.direction : ℤ)) (-entry.1.1.ratio))))

/-- The loop that hands out the remaining lanes of a domain; `laneCounts` are the lanes of its
buckets. -/
def splitLanes : Nat → List ((BucketKey × RoundCounts) × Int) →
    List ((BucketKey × RoundCounts) × Int)
  | 0, laneCounts => laneCounts
  | remaining + 1, laneCounts =>
    match (sortedBy splitScore
      (laneCounts.filter fun entry => entry.2 < entry.1.2.total)).getLast? with
    | none => laneCounts
    | some selected =>
      splitLanes remaining (laneCounts.map fun entry =>
        if entry.1.1 = selected.1.1 then (entry.1, entry.2 + 1) else entry)

def laneOrder (hop : PlanHop) :=
  lex hop.transportRound (lex hop.demand (lex hop.hop hop.index))

/-- The lanes of one bucket from `state.1` on, and the lanes assigned so far. -/
def assignBucket (hops : List PlanHop) (state : Int × List (Nat × Int))
    (entry : (BucketKey × RoundCounts) × Int) : Result (Int × List (Nat × Int)) := do
  let bucket := sortedBy laneOrder (bucketHops hops entry.1.1)
  raiseIf (max 0 entry.2 * entry.1.1.ratio < bucket.length)
    (ValidationError "TDM round-barrier lane group exceeds its ratio")
  return (state.1 + entry.2, state.2 ++ bucket.zipIdx.map fun hop =>
    (hop.1.index, state.1 + hop.2 % entry.2))

/-- The lanes of one domain: what its buckets need, the remaining lanes where they help, and the
hops of each bucket dealt over its lanes. -/
def Barrier.assignDomain (barrier : Barrier) (hops : List PlanHop) (sourceReadySlot : Int)
    (record : RatioDomain) : Result (List (Nat × Int)) := do
  let counts := (countsByBucket hops).filter fun entry => entry.1.domain = record.index
  let entries := sortedBy (fun entry : BucketKey × RoundCounts => keyOrder entry.1) counts
  let laneCounts ← entries.mapM fun entry => do
    let need ← barrier.laneNeed entry.1 entry.2 sourceReadySlot
    return (entry, need)
  let remaining := record.lanes - (laneCounts.map Prod.snd).sum
  let (nextLane, lanes) ← (splitLanes remaining.toNat laneCounts).foldlM (assignBucket hops) (0, [])
  raiseIf ((record.lanes : Int) < nextLane)
    (ValidationError "TDM round-barrier lane assignment exceeds domain")
  return lanes

/-- What the legalization returns, with the hop records it has changed. -/
structure LegalizeResult where
  hops : List PlanHop
  activeRounds : List Int
  sourceReadySlot : Option Int
  promotedHops : Nat
  promotionSteps : Nat
  preLegalizationWorstNormalizedSlack : Option ℚ
  roundAwareLaneRebalancedHops : Nat

def Barrier.finish (barrier : Barrier) (initialWorst : Option ℚ) (s : LegalizeState) :
    Result LegalizeResult := do
  let lanes ← (sortedBy RatioDomain.index barrier.model.domains).mapM
    (barrier.assignDomain s.hops s.boundary.sourceReadySlot)
  let laneOf (hop : PlanHop) := (lanes.flatten.lookup hop.index).getD hop.lane
  return { hops := s.hops.map fun hop => { hop with lane := laneOf hop }
           activeRounds := barrier.rounds
           sourceReadySlot :=
             if barrier.rounds.length = 2 then some s.boundary.sourceReadySlot else none
           promotedHops := s.promotedIndices.length
           promotionSteps := s.promotionSteps
           preLegalizationWorstNormalizedSlack := initialWorst
           roundAwareLaneRebalancedHops := s.hops.countP fun hop => hop.lane ≠ laneOf hop }

def Barrier.legalizeLoop (barrier : Barrier) (maxRatio quantum : Int) :
    Nat → LegalizeState → Result LegalizeState
  | fuel, s =>
    if s.boundary.maxExcess ≤ 0 then .ok s
    else match fuel with
      | 0 => .error unfinished
      | fuel + 1 => do
        let next ← barrier.promote maxRatio quantum s
        barrier.legalizeLoop maxRatio quantum fuel next

def barrierOf (platform : Platform) (model : RatioModel) (hops : List PlanHop) : Barrier :=
  { platform := platform
    model := model
    hops := hops
    rounds := sortedSet (hops.map fun hop => hop.transportRound) }

def Barrier.initialState (barrier : Barrier) : Result LegalizeState := do
  raiseIf (barrier.rounds = [] ∨ ∃ round ∈ barrier.rounds, round ≠ 0 ∧ round ≠ 1)
    (ValidationError "academic TDM assignment supports transport rounds 0 and 1")
  raiseIf (2 < barrier.rounds.length) (ValidationError
    ("academic TDM round-barrier legalization currently supports " ++
      "at most two transport rounds"))
  let boundary ← barrier.boundaryScore (countsByBucket barrier.hops)
  return { hops := barrier.hops, promotedIndices := [], promotionSteps := 0, boundary := boundary }

/-- `_round_barrier_legalize`. Its loop runs at most 1024 times before it raises. -/
def roundBarrierLegalize (hops : List PlanHop) (model : RatioModel) (platform : Platform)
    (maxRatio ratioQuantum : Int) : Result LegalizeResult := do
  let barrier := barrierOf platform model hops
  let initial ← barrier.initialState
  let final ← barrier.legalizeLoop maxRatio ratioQuantum 1025 initial
  barrier.finish (discreteTimingRecords model hops).2 final

end EmuFlow.TdmRatio
