import EmuFlow.Lib.DifferenceArray
import EmuFlow.TdmRatio.Validate

/-!
# The round boundary

`lane_need` and `boundary_score` of `_round_barrier_legalize` in `emuflow/tdm_ratio.py`: the lanes
a bucket of hops needs when the second round starts at a given slot, and the slot with the best
score. With two rounds the needs of a domain are entered into a difference array, one interval for
each quotient, and read back slot by slot.
-/

namespace EmuFlow.TdmRatio

open Check SortedSet Routing Tdm DifferenceArray List

/-- `math.ceil(a / b)`, with Python's exception for a zero divisor. -/
def ceilDivide (a b : Int) : Result Int :=
  if b = 0 then .error (.raised "ZeroDivisionError" "division by zero")
  else .ok (-((-a).fdiv b))

def maxDefault (l : List Int) : Int := l.max?.getD 0

/-! ## buckets -/

structure BucketKey where
  domain : Nat
  direction : Nat
  ratio : Int
  deriving DecidableEq

structure RoundCounts where
  zero : Nat
  one : Nat
  deriving DecidableEq

def RoundCounts.get (counts : RoundCounts) (round : Int) : Nat :=
  if round = 0 then counts.zero else if round = 1 then counts.one else 0

/-- `sum(counts.values())`. -/
def RoundCounts.total (counts : RoundCounts) : Nat := counts.zero + counts.one

abbrev BucketCounts := List (BucketKey × RoundCounts)

/-- What the inner functions of `_round_barrier_legalize` refer to: `hops` are its hop records,
`rounds` the sorted set of their rounds. -/
structure Barrier where
  platform : Platform
  model : RatioModel
  hops : List PlanHop
  rounds : List Int

/-- `latency_for`, with the base delay of the first hop of the domain. -/
def Barrier.latencyFor (barrier : Barrier) (domain : Nat) (ratio : Int) : Result Int := do
  let record ← findDomain barrier.model domain
  let link ← lookupOrRaise record.link (barrier.platform.findLink record.link)
  let hop ← lookupOrRaise (toString domain) (barrier.hops.find? fun hop => hop.domain = domain)
  tdmHopLatencyCycles link ratio (some hop.baseDelayNs)

/-- The slots after the latest launch: `frame_slots - RUNTIME_BARRIER_SLOTS - latency`. -/
def Barrier.lastLaunch (barrier : Barrier) (latency : Int) : Int :=
  (barrier.model.constraints.frameSlots : Int) - RUNTIME_BARRIER_SLOTS - latency

def Barrier.laneNeed (barrier : Barrier) (key : BucketKey) (counts : RoundCounts)
    (sourceReadySlot : Int) : Result Int := do
  let latency ← barrier.latencyFor key.domain key.ratio
  match barrier.rounds with
  | [round] =>
    let available := barrier.lastLaunch latency
    if available ≤ 0 then return barrier.model.constraints.frameSlots + 1
    else ceilDivide (counts.get round) (min key.ratio available)
  | _ =>
    let roundZeroSlots := sourceReadySlot - latency
    let roundOneSlots := barrier.lastLaunch latency - sourceReadySlot
    if roundZeroSlots ≤ 0 ∨ roundOneSlots ≤ 0 then
      return barrier.model.constraints.frameSlots + 1
    else
      let totalSlots := roundZeroSlots + roundOneSlots
      let shared ← ceilDivide counts.total (min key.ratio totalSlots)
      let zero ← ceilDivide counts.zero roundZeroSlots
      let one ← ceilDivide counts.one roundOneSlots
      return max (max shared zero) one

def Barrier.plainSum (barrier : Barrier) (counts : BucketCounts) (domain : Nat)
    (sourceReadySlot : Int) : Result Int := do
  let needs ← (counts.filter fun entry => entry.1.domain = domain).mapM fun entry =>
    barrier.laneNeed entry.1 entry.2 sourceReadySlot
  return needs.sum

/-! ## scores -/

/-- `required` at one slot, as plain sums. -/
def Barrier.requiredSums (barrier : Barrier) (counts : BucketCounts) (slot : Int) :
    Result (List (RatioDomain × Int)) :=
  barrier.model.domains.mapM fun domain => do
    let sum ← barrier.plainSum counts domain.index slot
    return (domain, sum)

abbrev Score := ℤ ×ₗ ℤ ×ₗ ℤ ×ₗ ℤ ×ₗ ℤ

/-- A candidate of `boundary_score`. -/
structure Boundary where
  score : Score
  sourceReadySlot : Int
  required : List (Nat × Int)

/-- `required[domain] - lanes`, where that is positive. -/
def excesses (required : List (RatioDomain × Int)) : List Int :=
  required.map fun entry => max 0 (entry.2 - entry.1.lanes)

def boundaryAt (required : List (RatioDomain × Int)) (slot distance : Int) : Boundary :=
  { score := lex (maxDefault (excesses required)) (lex (excesses required).sum
      (lex (maxDefault (required.map Prod.snd)) (lex (required.map Prod.snd).sum distance)))
    sourceReadySlot := slot
    required := required.map fun entry => (entry.1.index, entry.2) }

def bestBoundary (best : Option Boundary) (candidate : Boundary) : Option Boundary :=
  match best with
  | none => some candidate
  | some boundary => if candidate.score < boundary.score then some candidate else some boundary

/-! ## difference arrays -/

def addDecreasingCeil (numerator denominatorOffset floor stop : Int) :
    Nat → List Int → Int → Option (List Int)
  | fuel, differences, slot =>
    if stop < slot then some differences
    else match fuel with
      | 0 => none
      | fuel + 1 =>
        let quotient := ceilDiv numerator (slot - denominatorOffset)
        let value := max floor quotient
        if quotient ≤ floor ∨ quotient ≤ 1 then some (addInterval differences slot stop value)
        else
          let lastDenominator := (numerator - 1) / (quotient - 1)
          let lastSlot := min stop (denominatorOffset + lastDenominator)
          addDecreasingCeil numerator denominatorOffset floor stop fuel
            (addInterval differences slot lastSlot value) (lastSlot + 1)

def addIncreasingCeil (numerator denominatorSum floor start : Int) :
    Nat → List Int → Int → Option (List Int)
  | fuel, differences, denominator =>
    if denominatorSum - start < denominator then some differences
    else match fuel with
      | 0 => none
      | fuel + 1 =>
        let quotient := ceilDiv numerator denominator
        let value := max floor quotient
        if quotient ≤ floor ∨ quotient ≤ 1 then
          some (addInterval differences start (denominatorSum - denominator) value)
        else
          let lastDenominator := min (denominatorSum - start) ((numerator - 1) / (quotient - 1))
          addIncreasingCeil numerator denominatorSum floor start fuel
            (addInterval differences (denominatorSum - lastDenominator)
              (denominatorSum - denominator) value) (lastDenominator + 1)

structure Bucket where
  key : BucketKey
  counts : RoundCounts
  latency : Int
  /-- `denominator_sum` -/
  denominatorSum : Int
  base : Int

def Barrier.bucketOf (barrier : Barrier) (entry : BucketKey × RoundCounts) : Result Bucket := do
  let latency ← barrier.latencyFor entry.1.domain entry.1.ratio
  let totalSlots := (barrier.model.constraints.frameSlots : Int) - RUNTIME_BARRIER_SLOTS - 2 *
    latency
  let base ← ceilDivide entry.2.total (min entry.1.ratio totalSlots)
  return { key := entry.1
           counts := entry.2
           latency := latency
           denominatorSum := barrier.lastLaunch latency
           base := base }

def Bucket.leftDominates (bucket : Bucket) (sourceReady : Int) : Bool :=
  decide (ceilDiv bucket.counts.one (bucket.denominatorSum - sourceReady) ≤
    max bucket.base (ceilDiv bucket.counts.zero (sourceReady - bucket.latency)))

def addBucket (fuel : Nat) (first last : Int) (differences : List Int) (bucket : Bucket) :
    Option (List Int) := do
  let crossover ← Bisection.lastTrue bucket.leftDominates fuel first last (first - 1)
  let differences ← addDecreasingCeil bucket.counts.zero bucket.latency bucket.base crossover fuel
    differences first
  addIncreasingCeil bucket.counts.one bucket.denominatorSum bucket.base (crossover + 1) fuel
    differences (bucket.denominatorSum - last)

/-- `required_by_slot[domain]`: the array of one domain, from its buckets in turn. -/
def requiredValues (fuel frameSlots : Nat) (first last : Int) (buckets : List Bucket)
    (domain : Nat) : Option (List Int) := do
  let differences ← (buckets.filter fun bucket => bucket.key.domain = domain).foldlM
    (addBucket fuel first last) (List.replicate (frameSlots + 1) 0)
  return values frameSlots first last differences

def requiredBySlot (fuel : Nat) (barrier : Barrier) (first last : Int) (buckets : List Bucket) :
    Option (List (RatioDomain × List Int)) :=
  barrier.model.domains.mapM fun domain => do
    let values ← requiredValues fuel barrier.model.constraints.frameSlots first last buckets
      domain.index
    return (domain, values)

/-- `first_source_ready` and `last_source_ready`. -/
def Barrier.slotRange (barrier : Barrier) (counts : BucketCounts) : Result (Int × Int) := do
  let latencies ← counts.mapM fun entry => barrier.latencyFor entry.1.domain entry.1.ratio
  let minimumLatency ← maximumOf latencies
  let first := minimumLatency + 1
  let last := barrier.lastLaunch minimumLatency - 1
  raiseIf (last < first)
    (ValidationError "TDM round-barrier legalization has no boundary candidate")
  return (first, last)

/-- A loop that has not ended within its fuel. The source has no such exception, and none of its
loops runs that long. -/
def unfinished : EmuFlowError := .raised "Unfinished" ""

/-- `required` at one slot, from the arrays of the domains. -/
def requiredAt (bySlot : List (RatioDomain × List Int)) (slot : Int) : List (RatioDomain × Int) :=
  bySlot.map fun entry => (entry.1, entry.2.getD slot.toNat 0)

def Barrier.boundaryScore (barrier : Barrier) (counts : BucketCounts) : Result Boundary :=
  let frameSlots := barrier.model.constraints.frameSlots
  match barrier.rounds with
  | [_] => do
    let required ← barrier.requiredSums counts 0
    return boundaryAt required 0 |(frameSlots : Int) / 2|
  | _ => do
    let (first, last) ← barrier.slotRange counts
    let buckets ← counts.mapM barrier.bucketOf
    match requiredBySlot (frameSlots + 1) barrier first last buckets with
    | none => .error unfinished
    | some bySlot =>
      let candidates := (slots first last).map fun slot =>
        boundaryAt (requiredAt bySlot slot) slot |slot - (frameSlots : Int) / 2|
      match candidates.foldl bestBoundary none with
      | none => .error (ValidationError "TDM round-barrier legalization has no boundary candidate")
      | some best => return best

/-! ## one bucket -/

variable {barrier : Barrier} {counts : BucketCounts} {bucket : Bucket} {fuel frameSlots : Nat}
  {first last slot start stop numerator offset floor : Int} {differences : List Int}

theorem ceilDivide_eq {a b : Int} (hb : 0 < b) : ceilDivide a b = .ok (ceilDiv a b) := by
  rw [ceilDivide, if_neg (by omega), Int.fdiv_eq_ediv_of_nonneg _ hb.le, ceilDiv]

theorem ceilDiv_eq_of_le_one {a b d : ℤ} (ha : 0 ≤ a) (hb : 0 < b) (hbd : b ≤ d)
    (hq : ceilDiv a b ≤ 1) : ceilDiv a d = ceilDiv a b := by
  rcases ha.eq_or_lt with rfl | ha
  · simp [ceilDiv]
  · have h1 : 0 < ceilDiv a d := (lt_ceilDiv_iff (hb.trans_le hbd)).mpr (by simpa using ha)
    have h2 := ceilDiv_antitone ha.le hb hbd
    omega

theorem max_ceilDiv_eq {a b d floor : ℤ} (ha : 0 ≤ a) (hb : 0 < b) (hbd : b ≤ d)
    (hq : ceilDiv a b ≤ floor ∨ ceilDiv a b ≤ 1) :
    max floor (ceilDiv a d) = max floor (ceilDiv a b) := by
  rcases hq with hq | hq
  · rw [max_eq_left hq, max_eq_left ((ceilDiv_antitone ha hb hbd).trans hq)]
  · rw [ceilDiv_eq_of_le_one ha hb hbd hq]

theorem addDecreasingCeil_adds (hn : 0 ≤ numerator) (hof : offset < slot) (h0 : 0 ≤ slot)
    (hs : stop + 1 < differences.length) (hf : (stop + 1 - slot).toNat ≤ fuel) :
    ∃ next, addDecreasingCeil numerator offset floor stop fuel differences slot = some next ∧
      Adds differences next slot stop fun s => max floor (ceilDiv numerator (s - offset)) := by
  induction fuel generalizing differences slot with
  | zero =>
    rw [addDecreasingCeil, if_pos (by omega)]
    exact ⟨_, rfl, .of_empty (by omega)⟩
  | succ fuel ih =>
    rw [addDecreasingCeil]
    by_cases hdn : stop < slot
    · rw [if_pos hdn]
      exact ⟨_, rfl, .of_empty hdn⟩
    rw [if_neg hdn]
    dsimp only
    have hd : 0 < slot - offset := by omega
    by_cases hq : ceilDiv numerator (slot - offset) ≤ floor ∨ ceilDiv numerator (slot - offset) ≤ 1
    · rw [if_pos hq]
      exact ⟨_, rfl, adds_addInterval h0 hs fun s h1 _ =>
        max_ceilDiv_eq hn hd (by omega) hq⟩
    · rw [if_neg hq]
      have ho : 1 < ceilDiv numerator (slot - offset) := by omega
      have hl := le_lastDenominator hd ho
      have hbn : min stop (offset + (numerator - 1) / (ceilDiv numerator (slot - offset) - 1)) ≤
          offset + (numerator - 1) / (ceilDiv numerator (slot - offset) - 1) :=
        min_le_right _ _
      have hle : min stop (offset + (numerator - 1) / (ceilDiv numerator (slot - offset) - 1)) ≤
          stop :=
        min_le_left _ _
      have hge : slot ≤
          min stop (offset + (numerator - 1) / (ceilDiv numerator (slot - offset) - 1)) := by
        omega
      generalize min stop (offset + (numerator - 1) / (ceilDiv numerator (slot - offset) - 1)) =
        lastSlot at hbn hle hge ⊢
      have hb : Adds differences (addInterval differences slot lastSlot
          (max floor (ceilDiv numerator (slot - offset)))) slot lastSlot
          fun s => max floor (ceilDiv numerator (s - offset)) :=
        adds_addInterval h0 (by omega) fun s h1 h2 => by
          rw [ceilDiv_eq_of_le hn hd ho (by omega) (by omega)]
      obtain ⟨next, hnx, ha⟩ := @ih (lastSlot + 1) _ (by omega) (by omega)
        (by rw [hb.length_eq]; exact hs) (by omega)
      exact ⟨next, hnx, hb.append ha (by omega) hle⟩

theorem addIncreasingCeil_adds {denominatorSum denominator : Int} (hn : 0 ≤ numerator)
    (hd : 0 < denominator) (h0 : 0 ≤ start)
    (hs : denominatorSum - denominator + 1 < differences.length)
    (hf : (denominatorSum - start + 1 - denominator).toNat ≤ fuel) :
    ∃ next, addIncreasingCeil numerator denominatorSum floor start fuel differences denominator =
        some next ∧
      Adds differences next start (denominatorSum - denominator)
        fun s => max floor (ceilDiv numerator (denominatorSum - s)) := by
  induction fuel generalizing differences denominator with
  | zero =>
    rw [addIncreasingCeil, if_pos (by omega)]
    exact ⟨_, rfl, .of_empty (by omega)⟩
  | succ fuel ih =>
    rw [addIncreasingCeil]
    by_cases hdn : denominatorSum - start < denominator
    · rw [if_pos hdn]
      exact ⟨_, rfl, .of_empty (by omega)⟩
    rw [if_neg hdn]
    dsimp only
    by_cases hq : ceilDiv numerator denominator ≤ floor ∨ ceilDiv numerator denominator ≤ 1
    · rw [if_pos hq]
      exact ⟨_, rfl, adds_addInterval h0 hs fun s _ h2 =>
        max_ceilDiv_eq hn hd (by omega) hq⟩
    · rw [if_neg hq]
      have ho : 1 < ceilDiv numerator denominator := by omega
      have hl := le_lastDenominator hd ho
      have hbn : min (denominatorSum - start)
          ((numerator - 1) / (ceilDiv numerator denominator - 1)) ≤
          (numerator - 1) / (ceilDiv numerator denominator - 1) :=
        min_le_right _ _
      have hle : min (denominatorSum - start)
          ((numerator - 1) / (ceilDiv numerator denominator - 1)) ≤ denominatorSum - start :=
        min_le_left _ _
      have hge : denominator ≤ min (denominatorSum - start)
          ((numerator - 1) / (ceilDiv numerator denominator - 1)) := by
        omega
      generalize min (denominatorSum - start)
        ((numerator - 1) / (ceilDiv numerator denominator - 1)) = lastDenominator
        at hbn hle hge ⊢
      -- the interval of this quotient lies at the far end of the open slots
      have hb : Adds differences (addInterval differences (denominatorSum - lastDenominator)
          (denominatorSum - denominator) (max floor (ceilDiv numerator denominator)))
          (denominatorSum - (lastDenominator + 1) + 1) (denominatorSum - denominator)
          fun s => max floor (ceilDiv numerator (denominatorSum - s)) := by
        rw [show denominatorSum - (lastDenominator + 1) + 1 = denominatorSum - lastDenominator by
          omega]
        refine adds_addInterval (by omega) hs fun s h1 h2 => ?_
        rw [ceilDiv_eq_of_le hn hd ho (by omega) (by omega)]
      obtain ⟨next, hnx, ha⟩ := @ih _ (lastDenominator + 1) (by omega)
        (by rw [hb.length_eq]; omega) (by omega)
      exact ⟨next, hnx, hb.prepend ha (by omega) (by omega)⟩

def Bucket.need (bucket : Bucket) (slot : Int) : Int :=
  max (max bucket.base (ceilDiv bucket.counts.zero (slot - bucket.latency)))
    (ceilDiv bucket.counts.one (bucket.denominatorSum - slot))

/-- A bucket whose rounds both have a slot at every boundary of the range. -/
structure Bucket.Fits (bucket : Bucket) (first last : Int) : Prop where
  latency_lt : bucket.latency < first
  lt_denominatorSum : last < bucket.denominatorSum

theorem Bucket.Fits.leftDominates (h : bucket.Fits first last) {s t : Int} (hs : first ≤ s)
    (hst : s ≤ t) (ht : t ≤ last) (hd : bucket.leftDominates t) : bucket.leftDominates s := by
  have hl := h.latency_lt
  have hsm := h.lt_denominatorSum
  simp only [Bucket.leftDominates, decide_eq_true_eq] at hd ⊢
  calc ceilDiv bucket.counts.one (bucket.denominatorSum - s)
      ≤ ceilDiv bucket.counts.one (bucket.denominatorSum - t) :=
        ceilDiv_antitone (by omega) (by omega) (by omega)
    _ ≤ max bucket.base (ceilDiv bucket.counts.zero (t - bucket.latency)) := hd
    _ ≤ max bucket.base (ceilDiv bucket.counts.zero (s - bucket.latency)) :=
        max_le_max le_rfl (ceilDiv_antitone (by omega) (by omega) (by omega))

theorem addBucket_adds (h : bucket.Fits first last) (h0 : 0 ≤ first) (hle : first ≤ last)
    (hls : last + 1 < differences.length) (hf : (last + 1 - first).toNat ≤ fuel) :
    ∃ next, addBucket fuel first last differences bucket = some next ∧
      Adds differences next first last bucket.need := by
  have hlt := h.latency_lt
  have hsm := h.lt_denominatorSum
  obtain ⟨crossover, hc, hc1, hc2, hl, hr⟩ :=
    @Bisection.lastTrue_eq_some bucket.leftDominates first last
      (fun s t hs hst ht => h.leftDominates hs hst ht) fuel first last hf le_rfl (by omega) le_rfl
      (fun s h1 h2 => absurd h1 (by omega)) (fun s h1 h2 => absurd h1 (by omega))
  obtain ⟨mid, hm, hdc⟩ : ∃ mid, addDecreasingCeil bucket.counts.zero bucket.latency
        bucket.base crossover fuel differences first = some mid ∧
      Adds differences mid first crossover _ :=
    addDecreasingCeil_adds (by omega) hlt h0 (by omega) (by omega)
  obtain ⟨next, hn, hi⟩ : ∃ next, addIncreasingCeil bucket.counts.one bucket.denominatorSum
        bucket.base (crossover + 1) fuel mid (bucket.denominatorSum - last) = some next ∧
      Adds mid next (crossover + 1) (bucket.denominatorSum - (bucket.denominatorSum - last)) _ :=
    addIncreasingCeil_adds (by omega) (by omega) (by omega) (by rw [hdc.length_eq]; omega)
      (by omega)
  refine ⟨next, ?_, ?_⟩
  · rw [addBucket, hc]
    simp only [Option.bind_eq_bind, Option.bind_some, hm]
    exact hn
  rw [sub_sub_cancel] at hi
  -- up to the crossover the left term is the maximum, after it the right one
  refine (hdc.congr fun s h1 h2 => ?_).append (hi.congr fun s h1 h2 => ?_) (by omega) hc2
  · have hd := hl s h1 h2
    rw [Bucket.leftDominates, decide_eq_true_eq] at hd
    rw [Bucket.need, max_eq_left hd]
  · have hd := hr s (by omega) h2
    rw [Bucket.leftDominates, decide_eq_false_iff_not, not_le, max_lt_iff] at hd
    rw [Bucket.need, max_eq_right hd.1.le, max_eq_right (max_lt hd.1 hd.2).le]

variable {buckets : List Bucket}

theorem foldlM_addBucket (hft : ∀ bucket ∈ buckets, bucket.Fits first last)
    (h0 : 0 ≤ first) (hle : first ≤ last) (hl : last + 1 < differences.length)
    (hfl : (last + 1 - first).toNat ≤ fuel) :
    ∃ next, buckets.foldlM (addBucket fuel first last) differences = some next ∧
      Adds differences next first last fun s => (buckets.map fun bucket => bucket.need s).sum := by
  induction buckets generalizing differences with
  | nil =>
    refine ⟨differences, rfl, rfl, fun s => ?_⟩
    simp
  | cons bucket rest ih =>
    obtain ⟨mid, hm, hf⟩ := addBucket_adds (hft bucket (by simp)) h0 hle hl hfl
    obtain ⟨next, hn, hr⟩ := @ih mid
      (fun b hb => hft b (mem_cons_of_mem _ hb)) (by rw [hf.length_eq]; exact hl)
    refine ⟨next, ?_, ?_⟩
    · rw [foldlM_cons, hm]
      exact hn
    · simpa using hf.trans hr

theorem requiredValues_eq (domain : Nat)
    (hf : ∀ bucket ∈ buckets, bucket.Fits first last) (h0 : 0 < first) (hle : first ≤ last)
    (hl : last < frameSlots) (hfl : frameSlots ≤ fuel) :
    ∃ values, requiredValues fuel frameSlots first last buckets domain = some values ∧
      ∀ slot, first ≤ slot → slot ≤ last → values.getD slot.toNat 0 =
        ((buckets.filter fun bucket => bucket.key.domain = domain).map fun bucket =>
          bucket.need slot).sum := by
  have hz : last + 1 < (List.replicate (frameSlots + 1) (0 : ℤ)).length := by
    rw [length_replicate]
    omega
  have ho : ∀ bucket ∈ buckets.filter fun bucket => bucket.key.domain = domain,
      bucket.Fits first last :=
    fun bucket hb => hf bucket (mem_of_mem_filter hb)
  obtain ⟨next, hn, ha⟩ :=
    foldlM_addBucket ho h0.le hle hz (show (last + 1 - first).toNat ≤ fuel by omega)
  refine ⟨values frameSlots first last next, by rw [requiredValues, hn]; rfl,
    fun slot h1 h2 => ?_⟩
  have hbf : sumTo next (first - 1) = 0 := by
    rw [ha.sumTo_eq, if_neg (by omega), sumTo_replicate, add_zero]
  rw [values_eq h0.le hl hbf h1 h2, ha.sumTo_eq, if_pos ⟨h1, h2⟩, sumTo_replicate,
    zero_add]

/-! ## latencies and lane needs -/

theorem tdmHopLatencyCycles_nonneg {link : BoardLink} {ratio latency : Int} {base : ℚ}
    (hb : 0 ≤ base) (h : tdmHopLatencyCycles link ratio (some base) = .ok latency) :
    0 ≤ latency := by
  unfold tdmHopLatencyCycles at h
  cases hm : link.tdmDelayModel with
  | none =>
    simp only [hm, Except.ok.injEq] at h
    omega
  | some model =>
    simp only [hm] at h
    obtain ⟨hr, h⟩ := raiseIf_bind.mp h
    cases h
    exact delayCycles_nonneg link (delayFrom_nonneg model hb (not_lt.mp hr))

/-- The hops of the records have non-negative base delays, as those of a prepared model have. -/
def Barrier.DelaysNonneg (barrier : Barrier) : Prop :=
  ∀ hop ∈ barrier.hops, 0 ≤ hop.baseDelayNs

theorem Barrier.DelaysNonneg.latency (h : barrier.DelaysNonneg) {domain : Nat} {ratio latency : Int}
    (hl : barrier.latencyFor domain ratio = .ok latency) : 0 ≤ latency := by
  unfold Barrier.latencyFor at hl
  obtain ⟨r, -, hl⟩ := bind_eq_ok.mp hl
  obtain ⟨link, -, hl⟩ := bind_eq_ok.mp hl
  obtain ⟨hop, hh, hl⟩ := bind_eq_ok.mp hl
  have hm : hop ∈ barrier.hops := List.mem_of_find?_eq_some (lookupOrRaise_eq_ok.mp hh)
  exact tdmHopLatencyCycles_nonneg (h hop hm) hl

theorem maximumOf_spec {l : List Int} {m : Int} (h : maximumOf l = .ok m) :
    m ∈ l ∧ ∀ a ∈ l, a ≤ m :=
  List.max?_eq_some_iff.mp (maximumOf_eq_ok.mp h)

/-- What a slot range says: it is not empty, and every bucket has its latency before it and as much
room after it. -/
structure Barrier.InRange (barrier : Barrier) (counts : BucketCounts)
  (first last : Int) : Prop where
  first_le : first ≤ last
  latency : ∀ entry ∈ counts, ∃ latency,
    barrier.latencyFor entry.1.domain entry.1.ratio = .ok latency ∧ latency < first ∧
      last < barrier.lastLaunch latency
  sum_eq : first + last = barrier.lastLaunch 0
  attained : ∃ entry ∈ counts, barrier.latencyFor entry.1.domain entry.1.ratio = .ok (first - 1)

theorem Barrier.slotRange_eq_ok (h : barrier.slotRange counts = .ok (first, last)) :
    barrier.InRange counts first last := by
  unfold Barrier.slotRange at h
  obtain ⟨latencies, hm, h⟩ := bind_eq_ok.mp h
  obtain ⟨minimumLatency, hmax, h⟩ := bind_eq_ok.mp h
  obtain ⟨hle, h⟩ := raiseIf_bind.mp h
  cases Except.ok.inj h
  refine ⟨not_lt.mp hle, fun entry he => ?_, ?_, ?_⟩
  · obtain ⟨latency, hl, hf⟩ := mem_mapM_of_mem hm he
    have := (maximumOf_spec hmax).2 latency hl
    refine ⟨latency, hf, by omega, ?_⟩
    simp only [Barrier.lastLaunch]
    omega
  · simp only [Barrier.lastLaunch]
    omega
  · obtain ⟨entry, he, hl⟩ := exists_of_mem_mapM hm (maximumOf_spec hmax).1
    exact ⟨entry, he, by rwa [add_sub_cancel_right]⟩

variable {entry : BucketKey × RoundCounts}

theorem Barrier.bucketOf_eq_ok (h : barrier.bucketOf entry = .ok bucket) :
    bucket.key = entry.1 ∧ bucket.counts = entry.2 ∧
      barrier.latencyFor entry.1.domain entry.1.ratio = .ok bucket.latency ∧
      bucket.denominatorSum = barrier.lastLaunch bucket.latency ∧
      ceilDivide entry.2.total
        (min entry.1.ratio (bucket.denominatorSum - bucket.latency)) = .ok bucket.base := by
  unfold Barrier.bucketOf at h
  obtain ⟨latency, hl, h⟩ := bind_eq_ok.mp h
  obtain ⟨base, hb, h⟩ := bind_eq_ok.mp h
  cases Except.ok.inj h
  refine ⟨rfl, rfl, hl, rfl, ?_⟩
  dsimp only
  rw [← hb, Barrier.lastLaunch]
  congr 2
  ring

theorem Barrier.laneNeed_eq (hr : ∀ round, barrier.rounds ≠ [round])
    (h : barrier.bucketOf entry = .ok bucket) (h1 : bucket.latency < slot)
    (h2 : slot < bucket.denominatorSum) :
    barrier.laneNeed entry.1 entry.2 slot = .ok (bucket.need slot) := by
  obtain ⟨-, hc, hl, hs, hb⟩ := barrier.bucketOf_eq_ok h
  have hrm : slot - bucket.latency + (bucket.denominatorSum - slot) =
      bucket.denominatorSum - bucket.latency := by
    ring
  unfold Barrier.laneNeed
  rw [hl]
  dsimp only [bind, Except.bind]
  split
  · next round hrn => exact absurd hrn (hr round)
  rw [← hs, if_neg (by omega), hrm, hb, ceilDivide_eq (by omega), ceilDivide_eq (by omega)]
  show Except.ok _ = Except.ok _
  rw [Bucket.need, hc]

theorem Barrier.plainSum_eq {domain : Nat}
    (hr : ∀ round, barrier.rounds ≠ [round]) (hbc : counts.mapM barrier.bucketOf = .ok buckets)
    (hs : ∀ bucket ∈ buckets, bucket.latency < slot ∧ slot < bucket.denominatorSum) :
    barrier.plainSum counts domain slot =
      .ok ((buckets.filter fun bucket => bucket.key.domain = domain).map fun bucket =>
        bucket.need slot).sum := by
  suffices hn : ((counts.filter fun entry => entry.1.domain = domain).mapM fun entry =>
      barrier.laneNeed entry.1 entry.2 slot) =
        .ok ((buckets.filter fun bucket => bucket.key.domain = domain).map fun bucket =>
          bucket.need slot) by
    rw [Barrier.plainSum, hn]
    rfl
  induction counts generalizing buckets with
  | nil =>
    rw [mapM_nil_eq_ok.mp hbc]
    rfl
  | cons entry rest ih =>
    obtain ⟨bucket, buckets', hb, hrs, rfl⟩ := mapM_cons_eq_ok.mp hbc
    have hk : bucket.key = entry.1 := (barrier.bucketOf_eq_ok hb).1
    have ht := ih hrs fun b hm => hs b (mem_cons_of_mem _ hm)
    obtain ⟨h1, h2⟩ := hs bucket mem_cons_self
    by_cases hd : entry.1.domain = domain
    · rw [filter_cons_of_pos (by simpa using hd),
        filter_cons_of_pos (by simpa [hk] using hd), map_cons, mapM_cons_eq_ok]
      exact ⟨_, _, Barrier.laneNeed_eq hr hb h1 h2, ht, rfl⟩
    · rw [filter_cons_of_neg (by simpa using hd),
        filter_cons_of_neg (by simpa [hk] using hd)]
      exact ht

theorem Barrier.InRange.fits (h : barrier.InRange counts first last)
    (hbc : counts.mapM barrier.bucketOf = .ok buckets) :
    ∀ bucket ∈ buckets, bucket.Fits first last := by
  intro bucket hm
  obtain ⟨entry, he, hb⟩ := exists_of_mem_mapM hbc hm
  obtain ⟨-, -, hl, hs, -⟩ := barrier.bucketOf_eq_ok hb
  obtain ⟨latency, hl', h1, h2⟩ := h.latency entry he
  obtain rfl : bucket.latency = latency := Except.ok.inj (hl.symm.trans hl')
  exact ⟨h1, hs ▸ h2⟩

theorem Barrier.InRange.inFrame (h : barrier.InRange counts first last)
    (hd : barrier.DelaysNonneg) :
    0 < first ∧ last < barrier.model.constraints.frameSlots := by
  obtain ⟨entry, -, ha⟩ := h.attained
  have h0 := hd.latency ha
  have hs := h.sum_eq
  simp only [Barrier.lastLaunch] at hs
  omega

/-! ## the whole range -/

theorem requiredBySlot_sound (hd : barrier.DelaysNonneg)
    (hr : ∀ round, barrier.rounds ≠ [round]) (hrg : barrier.slotRange counts = .ok (first, last))
    (hbc : counts.mapM barrier.bucketOf = .ok buckets)
    (hfl : barrier.model.constraints.frameSlots ≤ fuel) :
    ∃ bySlot, requiredBySlot fuel barrier first last buckets = some bySlot ∧
      bySlot.map Prod.fst = barrier.model.domains ∧
      ∀ entry ∈ bySlot, ∀ slot, first ≤ slot → slot ≤ last →
        barrier.plainSum counts entry.1.index slot = .ok (entry.2.getD slot.toNat 0) := by
  have hin := Barrier.slotRange_eq_ok hrg
  obtain ⟨h0, hl⟩ := hin.inFrame hd
  have hf := hin.fits hbc
  have hv : ∀ domain : RatioDomain, ∃ values,
      requiredValues fuel barrier.model.constraints.frameSlots first last buckets domain.index =
        some values ∧
      ∀ slot, first ≤ slot → slot ≤ last →
        barrier.plainSum counts domain.index slot = .ok (values.getD slot.toNat 0) := by
    intro domain
    obtain ⟨values, hv, hs⟩ :=
      requiredValues_eq domain.index hf h0 hin.first_le hl hfl
    refine ⟨values, hv, fun slot h1 h2 => ?_⟩
    rw [hs slot h1 h2]
    refine Barrier.plainSum_eq hr hbc fun bucket hb => ?_
    have := (hf bucket hb).latency_lt
    have := (hf bucket hb).lt_denominatorSum
    exact ⟨by omega, by omega⟩
  unfold requiredBySlot
  induction barrier.model.domains with
  | nil => exact ⟨[], rfl, rfl, by simp⟩
  | cons domain rest ih =>
    obtain ⟨bySlot, hby, hdm, hsm⟩ := ih
    obtain ⟨values, hva, hs⟩ := hv domain
    refine ⟨(domain, values) :: bySlot, ?_, by rw [map_cons, hdm], ?_⟩
    · rw [mapM_cons, hby, hva]
      rfl
    · intro entry he
      rcases mem_cons.mp he with rfl | he
      · exact hs
      · exact hsm entry he

/-- The score without the arrays: every lane need of every domain at every slot. -/
def Barrier.directScore (barrier : Barrier) (counts : BucketCounts) : Result Boundary :=
  let frameSlots := barrier.model.constraints.frameSlots
  match barrier.rounds with
  | [_] => do
    let required ← barrier.requiredSums counts 0
    return boundaryAt required 0 |(frameSlots : Int) / 2|
  | _ => do
    let (first, last) ← barrier.slotRange counts
    let candidates ← (slots first last).mapM fun slot => do
      let required ← barrier.requiredSums counts slot
      return boundaryAt required slot |slot - (frameSlots : Int) / 2|
    match candidates.foldl bestBoundary none with
    | none => .error (ValidationError "TDM round-barrier legalization has no boundary candidate")
    | some best => return best

theorem requiredSums_eq {bySlot : List (RatioDomain × List Int)}
    (hd : bySlot.map Prod.fst = barrier.model.domains)
    (hs : ∀ entry ∈ bySlot,
      barrier.plainSum counts entry.1.index slot = .ok (entry.2.getD slot.toNat 0)) :
    barrier.requiredSums counts slot = .ok (requiredAt bySlot slot) := by
  rw [Barrier.requiredSums, ← hd, requiredAt, mapM_map]
  refine mapM_eq_ok_map fun entry he => ?_
  show barrier.plainSum counts entry.1.index slot >>= _ = _
  rw [hs entry he]
  rfl

theorem Barrier.InRange.exists_buckets (h : barrier.InRange counts first last)
    (hr : ∀ entry ∈ counts, 0 < entry.1.ratio) :
    ∃ buckets, counts.mapM barrier.bucketOf = .ok buckets := by
  refine exists_mapM_eq_ok fun entry he => ?_
  obtain ⟨latency, hl, h1, h2⟩ := h.latency entry he
  have hp := hr entry he
  have hle := h.first_le
  simp only [Barrier.lastLaunch] at h2
  have hm : 0 < min entry.1.ratio
      ((barrier.model.constraints.frameSlots : Int) - RUNTIME_BARRIER_SLOTS - 2 * latency) :=
    lt_min hp (by omega)
  unfold Barrier.bucketOf
  rw [hl]
  show ∃ bucket, (ceilDivide _ _ >>= _) = _
  rw [ceilDivide_eq hm]
  exact ⟨_, rfl⟩

theorem Barrier.boundaryScore_eq (hdl : barrier.DelaysNonneg)
    (hrt : ∀ entry ∈ counts, 0 < entry.1.ratio) :
    barrier.boundaryScore counts = barrier.directScore counts := by
  unfold Barrier.boundaryScore Barrier.directScore
  dsimp only
  split
  · rfl
  next hrn =>
  cases hr : barrier.slotRange counts with
  | error e => rfl
  | ok range =>
    obtain ⟨first, last⟩ := range
    have hin := Barrier.slotRange_eq_ok hr
    obtain ⟨buckets, hb⟩ := hin.exists_buckets hrt
    obtain ⟨bySlot, hby, hd, hs⟩ :=
      requiredBySlot_sound hdl hrn hr hb (Nat.le_succ _)
    have hc : ((slots first last).mapM fun slot => do
        let required ← barrier.requiredSums counts slot
        return boundaryAt required slot
          |slot - (barrier.model.constraints.frameSlots : Int) / 2|) =
        .ok ((slots first last).map fun slot => boundaryAt (requiredAt bySlot slot) slot
          |slot - (barrier.model.constraints.frameSlots : Int) / 2|) := by
      refine mapM_eq_ok_map fun slot hsl => ?_
      obtain ⟨h1, h2⟩ := mem_slots.mp hsl
      rw [requiredSums_eq hd fun entry he => hs entry he slot h1 h2]
      rfl
    show (counts.mapM barrier.bucketOf >>= _) = ((slots first last).mapM _ >>= _)
    rw [hb, hc]
    show (match requiredBySlot _ barrier first last buckets with | none => _ | some _ => _) = _
    rw [hby]
    rfl

/-- **The arrays hold the plain sums.** Whatever the buckets and their positive ratios are, the
arrays of all domains are filled, each holds the plain sum of its domain at every slot of the
range, and the score is the one computed from these sums directly. -/
theorem boundaryScore_sound (barrier : Barrier) (counts : BucketCounts)
    (hdelays : barrier.DelaysNonneg) (hratio : ∀ entry ∈ counts, 0 < entry.1.ratio) :
    barrier.boundaryScore counts = barrier.directScore counts ∧
      ((∀ round, barrier.rounds ≠ [round]) → ∀ first last,
        barrier.slotRange counts = .ok (first, last) →
        ∃ buckets, counts.mapM barrier.bucketOf = .ok buckets ∧
          ∀ fuel, barrier.model.constraints.frameSlots ≤ fuel →
            ∃ bySlot, requiredBySlot fuel barrier first last buckets = some bySlot ∧
              bySlot.map Prod.fst = barrier.model.domains ∧
              ∀ entry ∈ bySlot, ∀ slot, first ≤ slot → slot ≤ last →
                barrier.plainSum counts entry.1.index slot = .ok (entry.2.getD slot.toNat 0)) := by
  refine ⟨Barrier.boundaryScore_eq hdelays hratio, fun hrounds first last hrange => ?_⟩
  obtain ⟨buckets, hbuckets⟩ := (Barrier.slotRange_eq_ok hrange).exists_buckets hratio
  exact ⟨buckets, hbuckets, fun fuel hfuel =>
    requiredBySlot_sound hdelays hrounds hrange hbuckets hfuel⟩

/-! ## a board of two links -/

theorem pairBoard_lanes : 0 < 3 := by decide

def pairBoard : Platform :=
  { name := "pair"
    fpgas := [⟨"pa"⟩, ⟨"pb"⟩, ⟨"pc"⟩]
    links := [oneLaneLink "near" "pa" "pb" 0 (by decide),
      { oneLaneLink "far" "pb" "pc" 0 (by decide) with
        dataLanesPerDirection := 3, lanes_pos := pairBoard_lanes,
          banks_shared := by simp [oneLaneLink] }]
    fpgas_ne_nil := by decide
    fpga_ids_nodup := by decide
    link_ids_nodup := by decide
    endpoints_known := by decide }

def pairConstraints : RouteConstraints :=
  { schema := SYSTEM_ROUTE_CONSTRAINTS_SCHEMA
    frameSlots := 13
    maxIterations := 20
    maxRouteHops := none
    unavailableLinks := []
    linkDelayNs := []
    directedLinkDelayNs := []
    sllLinks := []
    sharedCapacityLinks := []
    treeEdgeSumTdm := false
    hardSllCapacity := false
    rerouteRounds := 8
    lambdaLoad := 2
    lambdaTiming := 4
    lambdaHistory := 1
    lambdaTdm := 1 / 10
    tdmRatioQuantum := 4
    tdmMinRatio := 1 }

def pairModel : RatioModel :=
  { constraints := pairConstraints
    normalization :=
      { positiveSlackScaleNs := 1, negativeSlackScaleNs := 1, maxClockPeriodNs := 1 }
    domains := [⟨0, "near:pa->pb", "near", "pa->pb", 1, none⟩,
      ⟨1, "far:pb->pc", "far", "pb->pc", 3, none⟩]
    hops := []
    timingPaths := []
    compatibility := { provider := TDM_COMPATIBILITY_PROVIDER, classes := [], hops := [] }
    exactDependencySchedule := false }

def pairHop (index domain : Nat) (round ratio lane : Int) : PlanHop :=
  { demand := "d" ++ toString index
    net := "n" ++ toString index
    transportRound := round
    compatibilityDomain := "global-frame-cdc"
    link := if domain = 0 then "near" else "far"
    source := if domain = 0 then "pa" else "pb"
    sink := if domain = 0 then "pb" else "pc"
    hop := 0
    capacityKey := if domain = 0 then "near:pa->pb" else "far:pb->pc"
    baseDelayNs := 0
    betaNs := 10
    slotPeriodNs := none
    delayModel := none
    index := index
    domain := domain
    direction := 0
    compatibility := 0
    continuousRatio := ratio
    discreteRatio := ratio
    lane := lane }

def pairBarrier : Barrier :=
  { platform := pairBoard
    model := pairModel
    hops := [pairHop 0 0 0 12 0, pairHop 1 1 1 8 0]
    rounds := [0, 1] }

def pairCounts : BucketCounts :=
  [(⟨0, 0, 12⟩, ⟨8, 0⟩), (⟨1, 0, 8⟩, ⟨0, 5⟩), (⟨1, 0, 12⟩, ⟨0, 5⟩)]

theorem pairBarrier_sums :
    pairBarrier.boundaryScore pairCounts = pairBarrier.directScore pairCounts ∧
      ∃ buckets, pairCounts.mapM pairBarrier.bucketOf = .ok buckets ∧
        ∃ bySlot, requiredBySlot 13 pairBarrier 1 11 buckets = some bySlot ∧
          bySlot.map Prod.fst = pairModel.domains ∧
          ∀ entry ∈ bySlot, ∀ slot, 1 ≤ slot → slot ≤ 11 →
            pairBarrier.plainSum pairCounts entry.1.index slot =
              .ok (entry.2.getD slot.toNat 0) := by
  have hdelays : pairBarrier.DelaysNonneg := by
    intro hop hhop
    have hzero : ∀ hop ∈ pairBarrier.hops, hop.baseDelayNs = 0 := by
      simp [pairBarrier, pairHop]
    exact (hzero hop hhop).ge
  obtain ⟨heq, harrays⟩ := boundaryScore_sound pairBarrier pairCounts hdelays (by decide)
  obtain ⟨buckets, hbuckets, hfuel⟩ := harrays (fun round h => by cases h) 1 11 (by decide +kernel)
  exact ⟨heq, buckets, hbuckets, hfuel 13 (by decide)⟩

end EmuFlow.TdmRatio
