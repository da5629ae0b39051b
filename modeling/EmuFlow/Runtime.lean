import EmuFlow.Tdm.Accepted

/-!
# Virtual runtime

`build_virtual_runtime` of `emuflow/runtime.py`: the frame of a schedule, and the event calendar of
the DUT clocks. The runtime takes the completion of a schedule to be its last arrival, whoever
arrives; the schedule takes it to be the last arrival at a sink.
-/

namespace EmuFlow.Runtime

open Check SortedSet Routing Tdm TdmRatio List

def VIRTUAL_RUNTIME_SCHEMA : String := "emuflow.virtual-runtime/v2"

/-! ## the event calendar -/

def commonFabricClockMhz (platform : Platform) : Result ℚ :=
  match platform.links.map BoardLink.fabricClockMhz with
  | [] => .error (ValidationError "virtual runtime requires at least one BoardDB link")
  | reference :: rest => do
    raiseIf (∃ value ∈ rest, 1 / 10 ^ 9 < |value - reference|)
      (ValidationError "virtual runtime v1 requires one common fabric clock frequency")
    return reference

/-- An entry of `clocks`. -/
structure VirtualClock where
  clock : String
  targetPeriodNs : ℚ
  periodTicks : Nat
  nominalPeriodNs : ℚ
  nominalFrequencyMhz : ℚ
  deriving DecidableEq

/-- An entry of `events`: the clocks with an edge at a tick. -/
structure ClockEvent where
  offsetTicks : Nat
  clocks : List String
  deriving DecidableEq

/-- The result of `build_virtual_clock_contract`. -/
structure ClockContract where
  timebasePeriodNs : ℚ
  calendarTicks : Nat
  events : List ClockEvent
  clocks : List VirtualClock
  fastestNominalPeriodNs : ℚ
  deriving DecidableEq

/-- `dict(clock_periods or {"clk": 1.0})`. -/
def clockPeriodsOrDefault : Option (List (String × ℚ)) → List (String × ℚ)
  | none | some [] => [("clk", 1)]
  | some periods => periods

def buildVirtualClockContract (clockPeriods : Option (List (String × ℚ))) (framePeriodNs : ℚ) :
    Result ClockContract := do
  let normalized := sortedBy Prod.fst (clockPeriodsOrDefault clockPeriods)
  raiseIf (∃ item ∈ normalized, item.1 = "" ∨ item.2 ≤ 0)
    (ValidationError "virtual runtime DUT clock periods are invalid")
  let denominator := (normalized.map fun item => item.2.den).foldl Nat.lcm 1
  let periodUnits := normalized.map fun item => (item.1, (item.2 * (denominator : ℚ)).num.toNat)
  let quantumUnits := (periodUnits.map Prod.snd).foldl Nat.gcd 0
  let periodTicks := periodUnits.map fun item => (item.1, item.2 / quantumUnits)
  let calendarTicks := (periodTicks.map Prod.snd).foldl Nat.lcm 1
  raiseIf (4096 < calendarTicks)
    (ValidationError "virtual runtime multi-clock event calendar exceeds 4096 ticks")
  let clocks := (normalized.zip periodTicks).map fun item =>
    { clock := item.1.1
      targetPeriodNs := item.1.2
      periodTicks := item.2.2
      nominalPeriodNs := item.2.2 * framePeriodNs
      nominalFrequencyMhz := 1000 / (item.2.2 * framePeriodNs) : VirtualClock }
  let fastest ← minimumOf (clocks.map VirtualClock.nominalPeriodNs)
  return { timebasePeriodNs := quantumUnits / denominator
           calendarTicks := calendarTicks
           events := (range' 1 calendarTicks).map fun tick =>
             { offsetTicks := tick
               clocks := (periodTicks.filter fun item => tick % item.2 = 0).map Prod.fst }
           clocks := clocks
           fastestNominalPeriodNs := fastest }

structure VirtualRuntime where
  schema : String := VIRTUAL_RUNTIME_SCHEMA
  design : Option String
  platform : String
  fabricClockMhz : ℚ
  slots : Nat
  completionSlot : Int
  barrierReleaseSlot : Int
  shadowSettleSlots : Int
  shadowSettleNs : ℚ
  nominalVirtualPeriodNs : ℚ
  contract : ClockContract
  deriving DecidableEq

def checkFrame (schedule : TdmSchedule) (platform : Platform) : Result Unit := do
  raiseIf (schedule.schema ≠ TDM_SCHEDULE_SCHEMA)
    (.validation "schedule.schema: expected %r" [TDM_SCHEDULE_SCHEMA])
  raiseIf (schedule.platform ≠ platform.name)
    (ValidationError "schedule.platform does not match BoardDB")
  raiseIf (schedule.metrics.frameSlots < 2)
    (ValidationError "runtime frame_slots must be an integer of at least two")
  raiseIf (schedule.metrics.completionSlot < 0 ∨
      (schedule.metrics.frameSlots : Int) - RUNTIME_BARRIER_SLOTS ≤ schedule.metrics.completionSlot)
    (ValidationError "schedule must complete before the runtime barrier release slot")

def expectedCompletion (schedule : TdmSchedule) : Int :=
  (schedule.entries.map TdmEntry.arrivalSlot).max?.getD 0

def checkCompletionSlot (schedule : TdmSchedule) : Result Unit :=
  raiseIf (schedule.metrics.completionSlot ≠ expectedCompletion schedule)
    (ValidationError "schedule completion_slot does not match scheduled arrivals")

def buildVirtualRuntime (schedule : TdmSchedule) (platform : Platform)
    (clockPeriods : Option (List (String × ℚ))) : Result VirtualRuntime := do
  checkFrame schedule platform
  checkCompletionSlot schedule
  let fabricClockMhz ← commonFabricClockMhz platform
  let fabricPeriodNs := 1000 / fabricClockMhz
  let releaseSlot := (schedule.metrics.frameSlots : Int) - RUNTIME_BARRIER_SLOTS
  let shadowSettleSlots := releaseSlot - schedule.metrics.completionSlot
  let nominalVirtualPeriodNs := schedule.metrics.frameSlots * fabricPeriodNs
  let contract ← buildVirtualClockContract clockPeriods nominalVirtualPeriodNs
  return { design := schedule.design
           platform := platform.name
           fabricClockMhz := fabricClockMhz
           slots := schedule.metrics.frameSlots
           completionSlot := schedule.metrics.completionSlot
           barrierReleaseSlot := releaseSlot
           shadowSettleSlots := shadowSettleSlots
           shadowSettleNs := shadowSettleSlots * fabricPeriodNs
           nominalVirtualPeriodNs := nominalVirtualPeriodNs
           contract := contract }

/-! ## the two completions -/

theorem max_getD_eq_iff {l m : List Int} (hm : ∀ b ∈ m, ∃ a ∈ l, b ≤ a) (hl : m = [] → l = []) :
    m.max?.getD 0 = l.max?.getD 0 ↔ ∀ a ∈ l, ∃ b ∈ m, a ≤ b := by
  cases hmax : l.max? with
  | none =>
    obtain rfl := List.max?_eq_none_iff.mp hmax
    have hn : m = [] := by
      cases m with
      | nil => rfl
      | cons b m =>
        obtain ⟨a, ha, -⟩ := hm b mem_cons_self
        exact absurd ha not_mem_nil
    simp [hn]
  | some top =>
    obtain ⟨ht, hle⟩ := List.max?_eq_some_iff.mp hmax
    cases hmax' : m.max? with
    | none =>
      rw [hl (List.max?_eq_none_iff.mp hmax')] at ht
      exact absurd ht not_mem_nil
    | some top' =>
      obtain ⟨ht', hle'⟩ := List.max?_eq_some_iff.mp hmax'
      rw [Option.getD_some, Option.getD_some]
      constructor
      · rintro rfl a ha
        exact ⟨top', ht', hle a ha⟩
      · intro hr
        obtain ⟨a, ha, hba⟩ := hm top' ht'
        obtain ⟨b, hb, hab⟩ := hr top ht
        have h₁ : top' ≤ top := hba.trans (hle a ha)
        have h₂ : top ≤ top' := hab.trans (hle' b hb)
        exact le_antisymm h₁ h₂

def ReachesSink (routes : List Route) (entry : TdmEntry) : Prop :=
  ∃ route ∈ routes, route.id = entry.demand ∧ entry.sink ∈ route.sinks

def SinksLast (routes : List Route) (entries : List TdmEntry) : Prop :=
  ∀ entry ∈ entries, ∃ last ∈ entries, ReachesSink routes last ∧
    entry.arrivalSlot ≤ last.arrivalSlot

section Completion

variable {artifact : RoutesArtifact} {platform : Platform} {schedule : TdmSchedule}
  {ratioPlan : Option RatioPlan} {mode : ScheduleMode} {ctx : EntryContext}
  {ordered : List Route} {state : ProgressState}

theorem exists_sink_entry {route : Route} {slot : Int} {entries : List TdmEntry}
    (hsr : route.source ∉ route.sinks) (h : RouteCompletes entries route slot) :
    ∃ e ∈ entries, e.demand = route.id ∧ e.sink ∈ route.sinks ∧
      e.arrivalSlot = slot := by
  obtain ⟨ready, hops, hsc, hmax⟩ := h
  obtain ⟨hm, -⟩ := List.max?_eq_some_iff.mp hmax
  obtain ⟨sink, hsn, heq⟩ := mem_map.mp hm
  obtain ⟨hop, hh, rfl⟩ := hsc.exists_sink_hop hsr hsn
  obtain ⟨e, he, -⟩ := hsc.exists_entry hh
  have hk : e.key = hopKey route.id hop.2 := Keyed.key_of_find he
  have hs : e.sink = hop.2.sink := congrArg (fun k : HopKey => k.2.2.2) hk
  refine ⟨e, Keyed.mem_of_find he, congrArg Prod.fst hk, hs ▸ hsn, ?_⟩
  rw [← heq, routeArrivals, nodeArrival_sink hsc.tree.ordered hh, entryArrival_eq he]

variable (h : AcceptedSchedule artifact platform schedule ratioPlan mode ctx ordered state)
  (hids : (artifact.routes.map Route.id).Nodup)
include h hids

theorem arrival_le_completion {route : Route} (hr : route ∈ artifact.routes) {slot : Int}
    (hc : RouteCompletes schedule.entries route slot) {entry : TdmEntry}
    (he : entry ∈ schedule.entries) (hd : route.id = entry.demand)
    (hsn : entry.sink ∈ route.sinks) : entry.arrivalSlot ≤ slot := by
  obtain ⟨ready, hops, hsc, hmax⟩ := hc
  obtain ⟨route', hr', edge, hed, hk⟩ := h.exists_edge he
  have hsm : route' = route :=
    inj_on_of_nodup_map hids hr' hr ((congrArg Prod.fst hk).symm.trans hd.symm)
  subst hsm
  obtain ⟨depth, hh⟩ := hsc.tree.exists_hop hed
  have hs : entry.sink = edge.sink := congrArg (fun k : HopKey => k.2.2.2) hk
  have ha : nodeArrival (routeArrivals schedule.entries route' ready hops) entry.sink =
      entry.arrivalSlot := by
    rw [hs, routeArrivals, nodeArrival_sink hsc.tree.ordered hh]
    exact entryArrival_eq (hk ▸ h.findEntry_of_mem he)
  rw [← ha]
  exact (List.max?_eq_some_iff.mp hmax).2 _ (mem_map_of_mem hsn)

theorem completion_eq_iff (hsr : ∀ route ∈ artifact.routes, route.source ∉ route.sinks) :
    schedule.metrics.completionSlot = expectedCompletion schedule ↔
      SinksLast artifact.routes schedule.entries := by
  obtain ⟨slots, hst, hof, hal⟩ := foldlM_checkScheduledRoute h.run
  have hsta : state.completions.map Completion.completionSlot = slots := by
    simpa [ProgressState.start] using hst
  have hmm : ∀ slot, slot ∈ (sortedBy Completion.demand state.completions).map
      Completion.completionSlot ↔ slot ∈ slots := by
    intro slot
    rw [← hsta]
    exact ((sortedBy_perm Completion.demand state.completions).map _).mem_iff
  have hen : ∀ slot ∈ slots, ∃ e ∈ schedule.entries,
      ReachesSink artifact.routes e ∧ e.arrivalSlot = slot := by
    intro slot hsl
    obtain ⟨route, hrt, hc⟩ := hof slot hsl
    have hrt' := h.order.mem_iff.mp hrt
    obtain ⟨e, he, hdm, hsn, har⟩ := exists_sink_entry (hsr route hrt') hc
    exact ⟨e, he, ⟨route, hrt', hdm.symm, hsn⟩, har⟩
  rw [h.completion_eq, expectedCompletion, max_getD_eq_iff]
  · constructor
    · intro hrc e he
      obtain ⟨slot, hsl, hle⟩ := hrc _ (mem_map_of_mem he)
      obtain ⟨last, hls, hsn, rfl⟩ := hen slot ((hmm slot).mp hsl)
      exact ⟨last, hls, hsn, hle⟩
    · intro hls arrival har
      obtain ⟨e, he, rfl⟩ := mem_map.mp har
      obtain ⟨last, hl, ⟨route, hrt, hdm, hsn⟩, hle⟩ := hls e he
      obtain ⟨slot, hsl, hc⟩ := hal route (h.order.mem_iff.mpr hrt)
      exact ⟨slot, (hmm slot).mpr hsl,
        hle.trans (arrival_le_completion h hids hrt hc hl hdm hsn)⟩
  · intro slot hsl
    obtain ⟨e, he, -, rfl⟩ := hen slot ((hmm slot).mp hsl)
    exact ⟨_, mem_map_of_mem he, le_rfl⟩
  · -- without a completion there is no route, and so no entry
    intro hnl
    rw [map_eq_nil_iff]
    refine eq_nil_iff_forall_not_mem.mpr fun e he => ?_
    obtain ⟨route, hrt, -⟩ := h.exists_edge he
    obtain ⟨slot, hsl, -⟩ := hal route (h.order.mem_iff.mpr hrt)
    have hmm' := (hmm slot).mpr hsl
    rw [hnl] at hmm'
    exact absurd hmm' not_mem_nil

end Completion

theorem checkFrame_eq_ok {artifact : RoutesArtifact} {platform : Platform} {schedule : TdmSchedule}
    {ratioPlan : Option RatioPlan} {mode : ScheduleMode} {ctx : EntryContext}
    {ordered : List Route} {state : ProgressState}
    (h : AcceptedSchedule artifact platform schedule ratioPlan mode ctx ordered state)
    (hc : schedule.metrics.completionSlot = expectedCompletion schedule) :
    checkFrame schedule platform = .ok () ↔
      schedule.platform = platform.name ∧ 2 ≤ schedule.metrics.frameSlots := by
  unfold checkFrame
  simp only [raiseIf_bind, raiseIf_eq_ok, not_or, not_not, not_lt, not_le, ne_eq, h.schema_eq,
    true_and]
  refine and_congr_right fun _ => and_iff_left_of_imp fun hf => ?_
  rw [hc, expectedCompletion]
  cases hmax : (schedule.entries.map TdmEntry.arrivalSlot).max? with
  | none =>
    simp only [Option.getD_none, le_refl, true_and, RUNTIME_BARRIER_SLOTS]
    omega
  | some slot =>
    obtain ⟨hm, -⟩ := List.max?_eq_some_iff.mp hmax
    obtain ⟨e, he, rfl⟩ := mem_map.mp hm
    obtain ⟨hn, hle, hlt⟩ := h.slot_range he
    exact ⟨hn.trans hle, hlt⟩

def RuntimeInputs (schedule : TdmSchedule) (platform : Platform)
    (clockPeriods : Option (List (String × ℚ))) : Prop :=
  schedule.platform = platform.name ∧ 2 ≤ schedule.metrics.frameSlots ∧
    ∃ clock, commonFabricClockMhz platform = .ok clock ∧ ∃ contract,
      buildVirtualClockContract clockPeriods (schedule.metrics.frameSlots * (1000 / clock)) =
        .ok contract

/-- **The runtime's completion check passes exactly when no hop arrives after every sink**, and no
accepted schedule is rejected for another reason than its platform, a frame of one slot, or the
clocks. -/
theorem completionSlot_consistent_iff {assignment : Assignment} {platform : Platform}
    {artifact : RoutesArtifact} {routesSummary : RoutesSummary}
    (hroutes : validateSystemRoutes assignment platform artifact = .ok routesSummary)
    {contract : Option RouteContract} {digests : Digests} {schedule : TdmSchedule}
    {ratioPlan : Option RatioPlan} {summary : ScheduleSummary}
    (hschedule : validateTdmSchedule digests (artifact.hydrate contract) platform schedule
      ratioPlan = .ok summary)
    (clockPeriods : Option (List (String × ℚ))) :
    (checkCompletionSlot schedule = .ok () ↔ SinksLast artifact.routes schedule.entries) ∧
      ((∃ runtime, buildVirtualRuntime schedule platform clockPeriods = .ok runtime) ↔
        SinksLast artifact.routes schedule.entries ∧
          RuntimeInputs schedule platform clockPeriods) := by
  obtain ⟨constraints, graph, totals, ha⟩ := validateSystemRoutes_eq_ok hroutes
  have hnets : ((artifact.hydrate contract).routes.map Route.net).Nodup := ha.nets_nodup
  obtain ⟨mode, ctx, ordered, state, hs⟩ := validateTdmSchedule_eq_ok hnets hschedule
  have hiff : schedule.metrics.completionSlot = expectedCompletion schedule ↔
      SinksLast (artifact.hydrate contract).routes schedule.entries :=
    completion_eq_iff hs ha.ids_nodup fun route hroute => (ha.route route hroute).source_not_sink
  have hcheck : checkCompletionSlot schedule = .ok () ↔
      SinksLast artifact.routes schedule.entries := by
    rw [checkCompletionSlot, raiseIf_eq_ok, not_not]
    exact hiff
  refine ⟨hcheck, ?_⟩
  unfold buildVirtualRuntime RuntimeInputs
  simp only [exists_bind_eq_ok]
  constructor
  · rintro ⟨⟨⟩, hframe, ⟨⟩, hcompletion, clock, hclock, contract, hcontract, -⟩
    rw [checkCompletionSlot, raiseIf_eq_ok, not_not] at hcompletion
    obtain ⟨hplatform, hslots⟩ := (checkFrame_eq_ok hs hcompletion).mp hframe
    exact ⟨hiff.mp hcompletion, hplatform, hslots, clock, hclock, contract, hcontract⟩
  · rintro ⟨hlast, hplatform, hslots, clock, hclock, contract, hcontract⟩
    have hcompletion := hiff.mpr hlast
    exact ⟨⟨⟩, (checkFrame_eq_ok hs hcompletion).mpr ⟨hplatform, hslots⟩, ⟨⟩,
      hcheck.mpr hlast, clock, hclock, contract, hcontract, _, rfl⟩

/-! ## one net on a line of three FPGAs -/

def lineBoard : Platform :=
  { name := "line"
    fpgas := [⟨"f0"⟩, ⟨"f1"⟩, ⟨"f2"⟩]
    links := [oneLaneLink "l01" "f0" "f1" 1 (by decide), oneLaneLink "l12" "f1" "f2" 1 (by decide)]
    fpgas_ne_nil := by decide
    fpga_ids_nodup := by decide
    link_ids_nodup := by decide
    endpoints_known := by decide }

def oneNet : Assignment :=
  { platform := "line"
    cutNets := [{ net := "n", sourceFpgas := ["f0"], sinkFpgas := ["f1"] }] }

/-- The hops of its route, which goes on to the third FPGA where `dangling`. -/
def oneNetHops (dangling : Bool) : List (Nat × TreeEdge) :=
  (0, ⟨"l01", "f0", "f1"⟩) :: if dangling then [(1, ⟨"l12", "f1", "f2"⟩)] else []

/-- The two directed links, and whether the route uses them. -/
def lineUses (dangling : Bool) : List (String × String × Nat) :=
  [("l01", "f0->f1", 1), ("l12", "f1->f2", dangling.toNat)]

def oneNetRoutes (dangling : Bool) : RoutesArtifact :=
  { constraints := some { schema := some SYSTEM_ROUTE_CONSTRAINTS_SCHEMA, frameSlots := some 8 }
    demands := [{ id := "d000000", net := "n", source := "f0", sinks := ["f1"], widthBits := 1 }]
    routes := [{ id := "d000000", net := "n", source := "f0", sinks := ["f1"], widthBits := 1
                 treeEdges := (oneNetHops dangling).map Prod.snd, maxLatencyCycles := 1 }]
    linkUtilization := (lineUses dangling).map fun u =>
      { capacity := { key := u.1 ++ ":" ++ u.2.1, link := u.1, direction := u.2.1
                      capacityBits := 8, bank := none }
        usedBits := u.2.2
        utilization := u.2.2 / 8 }
    metrics := { demands := 1, routedSinks := 1, treeEdges := (oneNetHops dangling).length
                 maxLinkUtilization := 1 / 8, totalLinkBitHops := (oneNetHops dangling).length } }

def oneNetSchedule (dangling : Bool) : TdmSchedule :=
  { platform := "line"
    provider := TDM_BASELINE_PROVIDER
    transportSemantics := "registered-boundary"
    routeConstraints := (oneNetRoutes dangling).constraints
    routes := routeMetadata true (oneNetRoutes dangling).routes
    entries := (oneNetHops dangling).map fun hop =>
      { id := "s00000" ++ toString hop.1, demand := "d000000", net := "n", hop := hop.1
        link := hop.2.link, source := hop.2.source, sink := hop.2.sink
        capacityKey := hop.2.link ++ ":" ++ hop.2.source ++ "->" ++ hop.2.sink
        slot := 2 * hop.1, lane := 0, readySlot := 2 * hop.1, arrivalSlot := 2 * hop.1 + 1
        tdmRatio := some 1 }
    demandCompletions :=
      [{ demand := "d000000", net := "n", completionSlot := 1, sourceReadySlot := some 0
         transportRound := some 0, sinkArrivalSlots := none }]
    domainSchedules := (lineUses dangling).map fun u =>
      { key := u.1 ++ ":" ++ u.2.1, link := u.1, direction := u.2.1, lanes := 1, frameSlots := 8
        scheduledBitHops := u.2.2, capacityBitHops := 8, utilization := u.2.2 / 8 }
    metrics := { demands := 1, scheduledBitHops := (oneNetHops dangling).length, frameSlots := 8
                 completionSlot := 1, maxDomainUtilization := 1 / 8, collisions := 0
                 transportRounds := some 1, roundBarriers := some 0, maxTransportRound := some 0
                 combinationalSettleSlots := some 1 } }

/-- The hop beyond the only sink arrives last, and the runtime refuses the schedule. -/
theorem danglingHop_inconsistent :
    (∃ summary, validateSystemRoutes oneNet lineBoard (oneNetRoutes true) = .ok summary) ∧
      (∃ summary, validateTdmSchedule Digests.unused (oneNetRoutes true) lineBoard
        (oneNetSchedule true) none = .ok summary) ∧
      buildVirtualRuntime (oneNetSchedule true) lineBoard none =
        .error (ValidationError "schedule completion_slot does not match scheduled arrivals") :=
  ⟨exists_of_isOk (by decide +kernel), exists_of_isOk (by decide +kernel), by decide +kernel⟩

/-- Without that hop the runtime is built. -/
theorem oneNet_consistent :
    ∃ runtime, buildVirtualRuntime (oneNetSchedule false) lineBoard none = .ok runtime := by
  obtain ⟨routesSummary, hroutes⟩ : ∃ summary,
      validateSystemRoutes oneNet lineBoard (oneNetRoutes false) = .ok summary :=
    exists_of_isOk (by decide +kernel)
  obtain ⟨summary, hschedule⟩ : ∃ summary,
      validateTdmSchedule Digests.unused ((oneNetRoutes false).hydrate none) lineBoard
        (oneNetSchedule false) none = .ok summary :=
    exists_of_isOk (by decide +kernel)
  refine (completionSlot_consistent_iff hroutes hschedule none).2.mpr ⟨?_, rfl, by decide, ?_⟩
  · unfold SinksLast ReachesSink
    decide +kernel
  · have hclock : commonFabricClockMhz lineBoard = .ok 100 := by decide +kernel
    exact ⟨100, hclock, exists_of_isOk (by decide +kernel)⟩

end EmuFlow.Runtime
