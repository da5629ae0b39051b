import EmuFlow.TdmRatio.Model

/-!
# Validation of a ratio plan

`validate_tdm_ratio_plan` of `emuflow/tdm_ratio.py`: the plan covers the hops of the model, every
ratio is one the configuration allows, and the hops on one lane of a domain have one direction, one
compatibility class and one ratio, which bounds their number.
-/

namespace EmuFlow.TdmRatio

open Check SortedSet Routing Tdm List

def RatioConfiguration.allows (configuration : RatioConfiguration) (ratio : Int) : Prop :=
  (configuration.minRatio = 1 ∧ ratio = 1) ∨
    let start := if configuration.minRatio = 1 then configuration.ratioQuantum
      else configuration.minRatio
    start ≤ ratio ∧ ratio ≤ configuration.maxRatio ∧
      (ratio - start) % configuration.ratioQuantum = 0

instance (configuration : RatioConfiguration) (ratio : Int) :
    Decidable (configuration.allows ratio) :=
  inferInstanceAs (Decidable (_ ∨ _))

def checkConfiguration (configuration : RatioConfiguration) (model : RatioModel) :
    Result Unit := do
  raiseIf (configuration.maxRatio ≤ 0 ∨ configuration.ratioQuantum ≤ 0 ∨
      configuration.minRatio ≤ 0 ∨ configuration.maxRatio < configuration.minRatio ∨
      configuration.exactDomainLimit < 0 ∨ configuration.convergence ≤ 0)
    (ValidationError "ratio plan.configuration is invalid")
  raiseIf (configuration.minRatio ≠ 1 ∧ configuration.minRatio % configuration.ratioQuantum ≠ 0)
    (ValidationError "ratio plan.configuration min_ratio is invalid")
  raiseIf (configuration.minRatio ≠ model.constraints.tdmMinRatio)
    (ValidationError "ratio plan.configuration min_ratio differs from routes")

/-! ## hops -/

def hopMismatches (expected actual : RatioHop) : List String :=
  ([("index", decide (expected.index = actual.index)),
    ("demand", decide (expected.demand = actual.demand)),
    ("net", decide (expected.net = actual.net)),
    ("transport_round", decide (expected.transportRound = actual.transportRound)),
    ("compatibility_domain", decide (expected.compatibilityDomain = actual.compatibilityDomain)),
    ("link", decide (expected.link = actual.link)),
    ("from", decide (expected.source = actual.source)),
    ("to", decide (expected.sink = actual.sink)),
    ("hop", decide (expected.hop = actual.hop)),
    ("capacity_key", decide (expected.capacityKey = actual.capacityKey)),
    ("base_delay_ns", decide (expected.baseDelayNs = actual.baseDelayNs)),
    ("beta_ns", decide (expected.betaNs = actual.betaNs)),
    ("slot_period_ns", decide (expected.slotPeriodNs = actual.slotPeriodNs)),
    ("delay_model", decide (expected.delayModel = actual.delayModel)),
    ("domain", decide (expected.domain = actual.domain)),
    ("direction", decide (expected.direction = actual.direction)),
    ("compatibility", decide (expected.compatibility = actual.compatibility))].filter
      fun field => field.2 = false).map Prod.fst

def PlanHop.laneKey (hop : PlanHop) : Nat × Int := (hop.domain, hop.lane)

def laneMembers (hops : List PlanHop) (key : Nat × Int) : List PlanHop :=
  hops.filter fun hop => hop.laneKey = key

def sameClass (a b : PlanHop) : Prop :=
  a.direction = b.direction ∧ a.compatibility = b.compatibility ∧ a.discreteRatio = b.discreteRatio

instance (a b : PlanHop) : Decidable (sameClass a b) := inferInstanceAs (Decidable (_ ∧ _))

def findDomain (model : RatioModel) (index : Nat) : Result RatioDomain :=
  lookupOrRaise (toString index) (Keyed.find RatioDomain.index model.domains index)

/-- One turn of the loop over the hops; `seen` are the hops before. A lane group is known by the
first of its hops. -/
def checkHop (configuration : RatioConfiguration) (model : RatioModel) (seen : List PlanHop)
    (item : RatioHop × PlanHop) : Result (List PlanHop) := do
  let (expected, actual) := item
  raiseIf (actual.toRatioHop ≠ expected)
    (.validation "ratio plan hop %s.%s: does not match routes"
      [toString expected.index, (hopMismatches expected actual.toRatioHop).headD ""])
  raiseIf (actual.continuousRatio < configuration.minRatio - 1 / 1000000000 ∨
      configuration.maxRatio + 1 / 1000000000 < actual.continuousRatio)
    (.validation "ratio plan hop %s: continuous ratio is invalid" [toString expected.index])
  raiseIf (¬ configuration.allows actual.discreteRatio)
    (.validation "ratio plan hop %s: discrete ratio is illegal" [toString expected.index])
  let domain ← findDomain model expected.domain
  raiseIf (actual.lane < domain.laneOffset ∨ domain.laneOffset + domain.lanes ≤ actual.lane)
    (.validation "ratio plan hop %s: lane is invalid" [toString expected.index])
  raiseIf (∃ first ∈ (laneMembers seen actual.laneKey).head?, ¬ sameClass first actual)
    (.validation "ratio plan lane group %s: direction or ratio is not homogeneous"
      [toString actual.laneKey])
  return seen ++ [actual]

def continuousUsage (hops : List PlanHop) (domain : Nat) : ℚ :=
  ((hops.filter fun hop => hop.domain = domain).map fun hop => 1 / hop.continuousRatio).sum

def checkContinuousUsage (model : RatioModel) (hops : List PlanHop) (hop : PlanHop) :
    Result Unit := do
  let domain ← findDomain model hop.domain
  raiseIf (domain.lanes + 1 / 100000000 < continuousUsage hops hop.domain)
    (.validation "ratio plan domain %s: continuous capacity is exceeded" [toString hop.domain])

def checkGroupSize (hops : List PlanHop) (hop : PlanHop) : Result Unit :=
  raiseIf (hop.discreteRatio < (laneMembers hops hop.laneKey).length)
    (.validation "ratio plan lane group %s: signal count exceeds discrete ratio"
      [toString hop.laneKey])

/-! ## the round barrier -/

def roundCount (hops : List PlanHop) (key : Nat × Int) (round : Int) : Nat :=
  (laneMembers hops key).countP fun hop => hop.transportRound = round

/-- One turn of the loop over the lanes, for the lane of `hop`. -/
def checkLaneBarrier (platform : Platform) (model : RatioModel) (hops : List PlanHop)
    (sourceReady : Int) (hop : PlanHop) : Result Unit := do
  let domain ← findDomain model hop.domain
  let link ← lookupOrRaise domain.link (platform.findLink domain.link)
  let laneHop ← lookupOrRaise "lane" (laneMembers hops hop.laneKey).head?
  let latency ← tdmHopLatencyCycles link laneHop.discreteRatio (some laneHop.baseDelayNs)
  raiseIf (sourceReady - latency < roundCount hops hop.laneKey 0)
    (.validation "ratio plan domain %s lane %s: round 0 exceeds barrier capacity"
      [toString hop.domain, toString hop.lane])
  raiseIf (model.constraints.frameSlots - RUNTIME_BARRIER_SLOTS - latency - sourceReady <
      roundCount hops hop.laneKey 1)
    (.validation "ratio plan domain %s lane %s: round 1 exceeds barrier capacity"
      [toString hop.domain, toString hop.lane])

def checkTwoRounds (platform : Platform) (model : RatioModel) (hops : List PlanHop)
    (sourceReadySlot : Option Int) : Result Unit :=
  match sourceReadySlot with
  | none => .error (ValidationError "ratio plan round-barrier source-ready slot is invalid")
  | some sourceReady => do
    raiseIf (sourceReady ≤ 0 ∨ model.constraints.frameSlots ≤ sourceReady)
      (ValidationError "ratio plan round-barrier source-ready slot is invalid")
    forM hops (checkLaneBarrier platform model hops sourceReady)

def checkBarrierSlot (platform : Platform) (model : RatioModel) (hops : List PlanHop)
    (barrier : RoundBarrierLegalization) (activeRounds : List Int) : Result Unit :=
  if model.exactDependencySchedule then
    raiseIf (barrier.sourceReadySlot ≠ none ∨ barrier.promotedHops ≠ 0 ∨
        barrier.promotionSteps ≠ 0 ∨ barrier.roundAwareLaneRebalancedHops ≠ 0)
      (ValidationError
        "Static Exact ratio plan must treat transport rounds as diagnostic labels")
  else if activeRounds.length = 2 then
    checkTwoRounds platform model hops barrier.sourceReadySlot
  else
    raiseIf (barrier.sourceReadySlot ≠ none)
      (ValidationError "single-round ratio plan must not set a barrier slot")

def activeRounds (model : RatioModel) : List Int :=
  sortedSet (model.hops.map fun hop => hop.transportRound)

def checkBarrier (platform : Platform) (model : RatioModel) (hops : List PlanHop)
    (barrier : RoundBarrierLegalization) : Result Unit := do
  raiseIf (barrier.activeRounds ≠ activeRounds model)
    (ValidationError "ratio plan round-barrier active rounds are inconsistent")
  raiseIf (barrier.sourceReadySemantics ≠
      if model.exactDependencySchedule then "dependency-dag-only" else "capacity_split_estimate")
    (ValidationError "ratio plan round-barrier source-ready semantics are invalid")
  raiseIf (barrier.promotedHops < 0 ∨ (model.hops.length : Int) < barrier.promotedHops)
    (.validation "ratio plan round-barrier %s is invalid" ["promoted_hops"])
  raiseIf (barrier.roundAwareLaneRebalancedHops < 0 ∨
      (model.hops.length : Int) < barrier.roundAwareLaneRebalancedHops)
    (.validation "ratio plan round-barrier %s is invalid" ["round_aware_lane_rebalanced_hops"])
  raiseIf (barrier.promotionSteps < 0 ∨ 1024 < barrier.promotionSteps)
    (ValidationError "ratio plan round-barrier promotion_steps is invalid")
  checkBarrierSlot platform model hops barrier (activeRounds model)

/-! ## timing paths and metrics -/

def normalizedSlack (period slack : ℚ) (normalization : TimingNormalization) : ℚ :=
  if 0 ≤ slack then
    slack * period / (normalization.positiveSlackScaleNs * normalization.maxClockPeriodNs)
  else slack / (normalization.negativeSlackScaleNs * period)

def pathDelay (model : RatioModel) (ratio : Nat → ℚ) (path : ModelTimingPath) : ℚ :=
  path.fixedDelayNs + (path.hops.map fun index =>
    match model.hops[index]? with
    | some hop => hop.baseDelayNs + hop.betaNs * (ratio index - 1)
    | none => 0).sum

def pathNormalizedSlack (model : RatioModel) (ratio : Nat → ℚ) (path : ModelTimingPath) : ℚ :=
  normalizedSlack path.clockPeriodNs (path.requiredTimeNs - pathDelay model ratio path)
    model.normalization

def discreteRatioAt (hops : List PlanHop) (index : Nat) : ℚ :=
  ((hops[index]?.map PlanHop.discreteRatio).getD 1 : Int)

def continuousRatioAt (hops : List PlanHop) (index : Nat) : ℚ :=
  (hops[index]?.map PlanHop.continuousRatio).getD 1

def checkTimingPath (model : RatioModel) (hops : List PlanHop)
    (item : ModelTimingPath × PlanTimingPath) : Result Unit := do
  let (expected, actual) := item
  raiseIf (actual.toModelTimingPath ≠ expected)
    (.validation "ratio plan timing path %s: does not match routes" [toString expected.index])
  let delay := pathDelay model (discreteRatioAt hops) expected
  raiseIf (1 / 100000000 < |actual.delayNs - delay|)
    (.validation "ratio plan timing path %s.%s: does not match independent recomputation"
      [toString expected.index, "delay_ns"])
  raiseIf (1 / 100000000 < |actual.slackNs - (expected.requiredTimeNs - delay)|)
    (.validation "ratio plan timing path %s.%s: does not match independent recomputation"
      [toString expected.index, "slack_ns"])
  raiseIf (1 / 100000000 <
      |actual.normalizedSlack - pathNormalizedSlack model (discreteRatioAt hops) expected|)
    (.validation "ratio plan timing path %s.%s: does not match independent recomputation"
      [toString expected.index, "normalized_slack"])

/-- `min(values)`, which raises without values. -/
def minimumOf (values : List ℚ) : Result ℚ :=
  match values.min? with
  | some value => .ok value
  | none => .error (.valueError "min() arg is an empty sequence" [])

/-- `max(values)`, which raises without values. -/
def maximumOf (values : List Int) : Result Int :=
  match values.max? with
  | some value => .ok value
  | none => .error (.valueError "max() arg is an empty sequence" [])

theorem maximumOf_eq_ok {values : List Int} {value : Int} :
    maximumOf values = .ok value ↔ values.max? = some value := by
  unfold maximumOf
  cases values.max? with
  | none => simp
  | some v => simp

structure RatioSummary where
  provider : String
  domains : Nat
  hops : Nat
  timingPaths : Nat
  laneGroups : Nat
  continuousMaxDomainUsage : ℚ
  discreteWorstNormalizedSlack : ℚ
  maxDiscreteRatio : Int
  postRefinementSwaps : Int

def checkMetric (metrics : List (String × Int × Int)) : Result Unit :=
  forM metrics fun metric => raiseIf (metric.2.1 ≠ metric.2.2)
    (.validation "ratio plan metric %r is inconsistent" [metric.1])

def checkRatioMetrics (model : RatioModel) (plan : RatioPlan) (laneGroups : Nat)
    (continuousWorst discreteWorst : ℚ) (maxRatio : Int) : Result Unit := do
  let metrics := plan.metrics
  raiseIf (1 / 100000000 < |metrics.continuousWorstNormalizedSlack - continuousWorst|)
    (ValidationError "ratio plan continuous worst slack metric is inconsistent")
  raiseIf (1 / 100000000 < |metrics.discreteWorstNormalizedSlack - discreteWorst|)
    (ValidationError "ratio plan discrete worst slack metric is inconsistent")
  raiseIf (metrics.maxDiscreteRatio ≠ maxRatio)
    (ValidationError "ratio plan maximum discrete ratio metric is inconsistent")
  raiseIf (metrics.iterations < 0 ∨ plan.configuration.maxIterations < metrics.iterations)
    (.validation "ratio plan metric %r is outside configuration" ["iterations"])
  raiseIf (metrics.postRefinementSwaps < 0 ∨
      plan.configuration.postRefinementIterations < metrics.postRefinementSwaps)
    (.validation "ratio plan metric %r is outside configuration" ["post_refinement_swaps"])
  checkMetric [("domains", metrics.domains, model.domains.length),
    ("hops", metrics.hops, model.hops.length),
    ("timing_paths", metrics.timingPaths, model.timingPaths.length),
    ("lane_groups", metrics.laneGroups, laneGroups)]
  raiseIf (metrics.dpLegalizedDomains < 0)
    (.validation "ratio plan metric %r is invalid" ["dp_legalized_domains"])
  raiseIf (metrics.greedyLegalizedDomains < 0)
    (.validation "ratio plan metric %r is invalid" ["greedy_legalized_domains"])
  raiseIf (metrics.dpLegalizedDomains + metrics.greedyLegalizedDomains ≠ model.domains.length)
    (ValidationError "ratio plan legalization-domain metrics are inconsistent")
  raiseIf (metrics.roundAwareLaneRebalancedHops < 0 ∨
      (model.hops.length : Int) < metrics.roundAwareLaneRebalancedHops)
    (ValidationError "ratio plan round-aware lane rebalance metric is invalid")
  raiseIf (metrics.roundAwareLaneRebalancedHops ≠
      plan.roundBarrierLegalization.roundAwareLaneRebalancedHops)
    (ValidationError "ratio plan lane rebalance metric does not match barrier record")
  raiseIf (metrics.roundBarrierPromotedHops ≠ plan.roundBarrierLegalization.promotedHops)
    (ValidationError "ratio plan promotion metric does not match barrier record")

/-! ## the plan -/

def algorithmValid (plan : RatioPlan) : Prop :=
  plan.provider = TDM_TIMING_DAG_RATIO_PROVIDER →
    ∃ algorithm ∈ plan.algorithm, algorithm.provider = "aspdac26-timing-dag-equations-v1" ∧
      algorithm.validationStatus = some "pass"

instance (plan : RatioPlan) : Decidable (algorithmValid plan) :=
  inferInstanceAs (Decidable (_ → _))

def laneGroups (hops : List PlanHop) : List (Nat × Int) := (hops.map PlanHop.laneKey).dedup

/-- `continuous_usage[index] / lanes` of a domain in use. -/
def domainUsage (model : RatioModel) (hops : List PlanHop) (hop : PlanHop) : Result ℚ := do
  let domain ← findDomain model hop.domain
  return continuousUsage hops hop.domain / domain.lanes

def validateAgainstModel (platform : Platform) (model : RatioModel) (plan : RatioPlan) :
    Result RatioSummary := do
  raiseIf (plan.normalization ≠ model.normalization)
    (ValidationError "ratio plan.normalization does not match routes")
  raiseIf (plan.domains ≠ model.domains)
    (ValidationError "ratio plan.domains do not match routed capacity domains")
  raiseIf (plan.compatibility ≠ model.compatibility)
    (ValidationError "ratio plan compatibility does not match routed timing domains")
  raiseIf (plan.compatibility ≠ deriveTdmCompatibility model.hops model.timingPaths)
    (ValidationError "TDM clock/protocol compatibility does not match routes")
  checkConfiguration plan.configuration model
  raiseIf (plan.hops.length ≠ model.hops.length)
    (ValidationError "ratio plan.hops coverage is not exact")
  let hops ← (model.hops.zip plan.hops).foldlM (checkHop plan.configuration model) []
  forM hops (checkContinuousUsage model hops)
  forM hops (checkGroupSize hops)
  checkBarrier platform model hops plan.roundBarrierLegalization
  raiseIf (plan.timingPaths.length ≠ model.timingPaths.length)
    (ValidationError "ratio plan.timing_paths coverage is not exact")
  forM (model.timingPaths.zip plan.timingPaths) (checkTimingPath model hops)
  let discreteWorst ← minimumOf
    (model.timingPaths.map (pathNormalizedSlack model (discreteRatioAt hops)))
  let continuousWorst ← minimumOf
    (model.timingPaths.map (pathNormalizedSlack model (continuousRatioAt hops)))
  let maxRatio ← maximumOf (hops.map PlanHop.discreteRatio)
  checkRatioMetrics model plan (laneGroups hops).length continuousWorst discreteWorst maxRatio
  let usages ← hops.mapM (domainUsage model hops)
  return { provider := plan.provider
           domains := model.domains.length
           hops := model.hops.length
           timingPaths := model.timingPaths.length
           laneGroups := (laneGroups hops).length
           continuousMaxDomainUsage := usages.foldr max 0
           discreteWorstNormalizedSlack := discreteWorst
           maxDiscreteRatio := maxRatio
           postRefinementSwaps := plan.metrics.postRefinementSwaps }

def validateTdmRatioPlan (routes : RoutesArtifact) (platform : Platform) (plan : RatioPlan) :
    Result RatioSummary := do
  raiseIf (plan.schema ≠ TDM_RATIO_PLAN_SCHEMA)
    (.validation "ratio plan.schema: expected %r" [TDM_RATIO_PLAN_SCHEMA])
  raiseIf (plan.provider ∉ [TDM_RATIO_PROVIDER, TDM_TIMING_DAG_RATIO_PROVIDER])
    (ValidationError "ratio plan.provider is unsupported")
  raiseIf (¬ algorithmValid plan)
    (ValidationError "timing-DAG ratio plan algorithm evidence is invalid")
  raiseIf (plan.design ≠ routes.design) (ValidationError "ratio plan.design does not match routes")
  raiseIf (plan.platform ≠ platform.name)
    (ValidationError "ratio plan.platform does not match BoardDB")
  let model ← prepareModel routes platform
  validateAgainstModel platform model plan

/-! ## what an accepted plan satisfies -/

def Homogeneous (hops : List PlanHop) : Prop :=
  ∀ a ∈ hops, ∀ b ∈ hops, a.laneKey = b.laneKey → sameClass a b

structure HopValid (configuration : RatioConfiguration) (model : RatioModel)
    (item : RatioHop × PlanHop) : Prop where
  expected : item.2.toRatioHop = item.1
  continuous_ge : (configuration.minRatio : ℚ) - 1 / 1000000000 ≤ item.2.continuousRatio
  continuous_le : item.2.continuousRatio ≤ configuration.maxRatio + 1 / 1000000000
  discrete : configuration.allows item.2.discreteRatio
  lane : ∃ domain, findDomain model item.1.domain = .ok domain ∧
    (domain.laneOffset : Int) ≤ item.2.lane ∧ item.2.lane < domain.laneOffset + domain.lanes

section Hops

variable {configuration : RatioConfiguration} {model : RatioModel}

theorem Homogeneous.nil : Homogeneous [] := fun _ ha => absurd ha not_mem_nil

theorem sameClass.symm {a b : PlanHop} (h : sameClass a b) : sameClass b a :=
  ⟨h.1.symm, h.2.1.symm, h.2.2.symm⟩

theorem sameClass.trans {a b c : PlanHop} (ha : sameClass a b) (hb : sameClass b c) :
    sameClass a c :=
  ⟨ha.1.trans hb.1, ha.2.1.trans hb.2.1, ha.2.2.trans hb.2.2⟩

theorem mem_laneMembers {hops : List PlanHop} {key : Nat × Int} {hop : PlanHop} :
    hop ∈ laneMembers hops key ↔ hop ∈ hops ∧ hop.laneKey = key := by
  simp [laneMembers]

theorem homogeneous_snoc {seen : List PlanHop} {hop : PlanHop} (h : Homogeneous seen) :
    Homogeneous (seen ++ [hop]) ↔
      ¬ ∃ first ∈ (laneMembers seen hop.laneKey).head?, ¬ sameClass first hop := by
  constructor
  · rintro hal ⟨first, hfr, hd⟩
    obtain ⟨hmm, hk⟩ := mem_laneMembers.mp (List.mem_of_mem_head? hfr)
    exact hd (hal first (mem_append_left _ hmm) hop
      (mem_append_right _ (mem_singleton_self _)) hk)
  · intro hfr
    have hs : ∀ a ∈ seen, a.laneKey = hop.laneKey → sameClass a hop := by
      intro a ha hk
      cases hm : laneMembers seen hop.laneKey with
      | nil =>
        have : a ∈ laneMembers seen hop.laneKey := mem_laneMembers.mpr ⟨ha, hk⟩
        rw [hm] at this
        exact absurd this not_mem_nil
      | cons first rest =>
        have hf : first ∈ laneMembers seen hop.laneKey := hm ▸ mem_cons_self
        obtain ⟨hfs, hfk⟩ := mem_laneMembers.mp hf
        have hc : sameClass first hop := by
          by_contra hn
          exact hfr ⟨first, by simp [hm], hn⟩
        exact (h a ha first hfs (hk.trans hfk.symm)).trans hc
    intro a ha b hb hk
    rcases List.mem_append.mp ha with ha | ha <;> rcases List.mem_append.mp hb with hb | hb
    · exact h a ha b hb hk
    · rw [mem_singleton.mp hb] at hk ⊢
      exact hs a ha hk
    · rw [mem_singleton.mp ha] at hk ⊢
      exact (hs b hb hk.symm).symm
    · rw [mem_singleton.mp ha, mem_singleton.mp hb]
      exact ⟨rfl, rfl, rfl⟩

theorem checkHop_eq_ok {seen seen' : List PlanHop} {item : RatioHop × PlanHop}
    (h : Homogeneous seen) :
    checkHop configuration model seen item = .ok seen' ↔
      seen' = seen ++ [item.2] ∧ HopValid configuration model item ∧ Homogeneous seen' := by
  unfold checkHop
  simp only [raiseIf_bind, not_not, not_or, not_lt]
  constructor
  · rintro ⟨he, ⟨hge, hle⟩, hds, hr⟩
    obtain ⟨domain, hd, hr⟩ := bind_eq_ok.mp hr
    simp only [raiseIf_bind, not_or, not_lt, not_le] at hr
    obtain ⟨⟨hl, hhi⟩, hf, hr⟩ := hr
    cases hr
    exact ⟨rfl, ⟨he, hge, hle, hds, domain, hd, hl, hhi⟩, (homogeneous_snoc h).mpr hf⟩
  · rintro ⟨rfl, ⟨he, hge, hle, hds, domain, hd, hl, hhi⟩, hh⟩
    refine ⟨he, ⟨hge, hle⟩, hds, bind_eq_ok.mpr ⟨domain, hd, ?_⟩⟩
    simp only [raiseIf_bind, not_or, not_lt, not_le]
    exact ⟨⟨hl, hhi⟩, (homogeneous_snoc h).mp hh, rfl⟩

theorem foldlM_checkHop :
    ∀ {items : List (RatioHop × PlanHop)} {seen hops : List PlanHop}, Homogeneous seen →
      (items.foldlM (checkHop configuration model) seen = .ok hops ↔
        hops = seen ++ items.map Prod.snd ∧ (∀ item ∈ items, HopValid configuration model item) ∧
          Homogeneous hops)
  | [], seen, hops, h => by
    rw [foldlM_nil]
    constructor
    · intro hok
      rw [← Except.ok.inj hok]
      exact ⟨by simp, fun _ hi => absurd hi not_mem_nil, h⟩
    · rintro ⟨rfl, -, -⟩
      simp [pure, Except.pure]
  | item :: items, seen, hops, h => by
    rw [foldlM_cons, bind_eq_ok, forall_mem_cons]
    constructor
    · rintro ⟨seen', hst, hr⟩
      obtain ⟨rfl, hv, hh⟩ := (checkHop_eq_ok h).mp hst
      obtain ⟨rfl, hal, hh'⟩ := (foldlM_checkHop hh).mp hr
      exact ⟨by simp, ⟨hv, hal⟩, hh'⟩
    · rintro ⟨rfl, ⟨hv, hal⟩, hh⟩
      have hp : Homogeneous (seen ++ [item.2]) := by
        intro a ha b hb
        have hs : ∀ x ∈ seen ++ [item.2], x ∈ seen ++ (item :: items).map Prod.snd := by
          intro x hx
          rw [map_cons, append_cons]
          exact mem_append_left _ hx
        exact hh a (hs a ha) b (hs b hb)
      refine ⟨seen ++ [item.2], (checkHop_eq_ok h).mpr ⟨rfl, hv, hp⟩,
        (foldlM_checkHop hp).mpr ⟨by simp, hal, hh⟩⟩

end Hops

theorem map_eq_of_zip {α β : Type} {f : β → α} :
    ∀ {l : List α} {m : List β}, m.length = l.length →
      (∀ item ∈ l.zip m, f item.2 = item.1) → m.map f = l
  | [], [], _, _ => rfl
  | [], _ :: _, hl, _ => by simp at hl
  | _ :: _, [], hl, _ => by simp at hl
  | a :: l, b :: m, hl, h => by
    rw [zip_cons_cons, forall_mem_cons] at h
    rw [map_cons, h.1, map_eq_of_zip (Nat.succ.inj hl) h.2]

structure LanesAccepted (model : RatioModel) (plan : RatioPlan) : Prop where
  hops_eq : plan.hops.map PlanHop.toRatioHop = model.hops
  discrete : ∀ hop ∈ plan.hops, plan.configuration.allows hop.discreteRatio
  minRatio_pos : 0 < plan.configuration.minRatio
  homogeneous : Homogeneous plan.hops
  size : ∀ hop ∈ plan.hops, (laneMembers plan.hops hop.laneKey).length ≤ hop.discreteRatio

theorem LanesAccepted.ratio_eq {routes : RoutesArtifact} {platform : Platform}
    {model : RatioModel} {plan : RatioPlan} {graph : DirectedGraph}
    {delays : List (ArcKey × ℚ × ℚ)} {allocations : BankAllocations} {raw : List RawHop}
    (hl : LanesAccepted model plan)
    (hp : Prepared routes platform model graph delays allocations raw) {a b : PlanHop}
    (ha : a ∈ plan.hops) (hb : b ∈ plan.hops)
    (hk : graph.capacityKeyOf a.planKey.2 = graph.capacityKeyOf b.planKey.2)
    (hln : a.lane = b.lane) : a.discreteRatio = b.discreteRatio := by
  have hm : ∀ hop ∈ plan.hops, hop.toRatioHop ∈ model.hops := by
    intro hop hh
    rw [← hl.hops_eq]
    exact mem_map_of_mem hh
  obtain ⟨hca, hd⟩ := hp.hop (hm a ha)
  obtain ⟨hcb, hdb⟩ := hp.hop (hm b hb)
  have hc : a.capacityKey = b.capacityKey := hca.trans (hk.trans hcb.symm)
  have hdm : a.domain = b.domain := by rw [hd, hdb, hc]
  exact (hl.homogeneous a ha b hb (Prod.ext hdm hln)).2.2

theorem validateTdmRatioPlan_eq_ok {routes : RoutesArtifact} {platform : Platform}
    {plan : RatioPlan} {summary : RatioSummary}
    (h : validateTdmRatioPlan routes platform plan = .ok summary) :
    ∃ model, prepareModel routes platform = .ok model ∧ LanesAccepted model plan := by
  unfold validateTdmRatioPlan at h
  simp only [raiseIf_bind] at h
  obtain ⟨-, -, -, -, -, h⟩ := h
  obtain ⟨model, hm, h⟩ := bind_eq_ok.mp h
  unfold validateAgainstModel at h
  simp only [raiseIf_bind] at h
  obtain ⟨-, -, -, -, h⟩ := h
  obtain ⟨⟨⟩, hc, h⟩ := bind_eq_ok.mp h
  simp only [raiseIf_bind, not_not] at h
  obtain ⟨hl, h⟩ := h
  obtain ⟨hops, hhp, h⟩ := bind_eq_ok.mp h
  obtain ⟨⟨⟩, -, h⟩ := bind_eq_ok.mp h
  obtain ⟨⟨⟩, hs, -⟩ := bind_eq_ok.mp h
  obtain ⟨rfl, ha, hhm⟩ := (foldlM_checkHop Homogeneous.nil).mp hhp
  rw [nil_append, map_snd_zip hl.le] at hhm hs
  have hp : 0 < plan.configuration.minRatio := by
    unfold checkConfiguration at hc
    simp only [raiseIf_bind, not_or, not_le] at hc
    exact hc.1.2.2.1
  have hvl : ∀ hop ∈ plan.hops, ∃ expected,
      HopValid plan.configuration model (expected, hop) := by
    intro hop hh
    have hz : hop ∈ (model.hops.zip plan.hops).map Prod.snd := by
      rwa [map_snd_zip hl.le]
    obtain ⟨⟨expected, hop'⟩, hi, rfl⟩ := mem_map.mp hz
    exact ⟨expected, ha _ hi⟩
  refine ⟨model, hm, ?_, fun hop hh => ?_, hp, hhm, fun hop hh => ?_⟩
  · exact map_eq_of_zip hl fun item hi => (ha item hi).expected
  · obtain ⟨expected, hv⟩ := hvl hop hh
    exact hv.discrete
  · exact not_lt.mp (raiseIf_eq_ok.mp (forM_eq_ok.mp hs hop hh))

end EmuFlow.TdmRatio
