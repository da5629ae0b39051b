import EmuFlow.Tdm.Arrivals
import EmuFlow.Tdm.Entries

/-!
# Accepted schedules

What an accepted schedule satisfies: its entries are the hops of the routes, and the hops of each
route leave and arrive along its tree.
-/

namespace EmuFlow.Tdm

open Check SortedSet Routing TdmRatio List Except TreeEdge

/-! ## one route -/

def entryArrival (entries : List TdmEntry) (route : Route) (edge : TreeEdge) : Int :=
  ((findEntry entries (hopKey route.id edge)).map TdmEntry.arrivalSlot).getD 0

/-- `arrival_by_node` once every hop of the route has arrived. -/
def routeArrivals (entries : List TdmEntry) (route : Route) (ready : Int)
    (hops : List (Nat × TreeEdge)) : ArrivalByNode :=
  arrivalsOf route ready (entryArrival entries route) hops

def HopScheduled (entries : List TdmEntry) (route : Route) (arrivals : ArrivalByNode)
    (edge : TreeEdge) : Prop :=
  ∃ entry, findEntry entries (hopKey route.id edge) = some entry ∧
    entry.readySlot = readyOf arrivals edge ∧ entry.readySlot ≤ entry.slot

variable {entries : List TdmEntry}

theorem entryArrival_eq {route : Route} {edge : TreeEdge}
    {entry : TdmEntry} (h : findEntry entries (hopKey route.id edge) = some entry) :
    entryArrival entries route edge = entry.arrivalSlot := by
  rw [entryArrival, h]
  rfl

section Route

variable {entries : List TdmEntry} {route : Route} {ready : Int}

variable {hops : List (Nat × TreeEdge)}

theorem routeArrivals_snoc (hop : Nat × TreeEdge) :
    routeArrivals entries route ready (hops ++ [hop]) =
      (hop.2.sink, entryArrival entries route hop.2) :: routeArrivals entries route ready hops :=
  arrivalsOf_snoc hop

variable {arrivals : ArrivalByNode}

theorem checkRouteHop_eq_ok {pre post : List (Nat × TreeEdge)} {hop : Nat × TreeEdge}
    (h : TreeWalk.Ordered source sink (fun depth _ => depth + 1) route.source 0
      (pre ++ hop :: post)) :
    checkRouteHop entries route ready (routeArrivals entries route ready pre) hop = .ok arrivals ↔
      HopScheduled entries route (routeArrivals entries route ready (pre ++ hop :: post)) hop.2 ∧
        arrivals = routeArrivals entries route ready (pre ++ [hop]) := by
  have hr : hopReady route ready (routeArrivals entries route ready pre) hop.2 =
      .ok (readyOf (routeArrivals entries route ready (pre ++ hop :: post)) hop.2) := hopReady_eq h
  unfold checkRouteHop HopScheduled
  rw [hr]
  simp only [bind_eq_ok, lookupOrRaise_eq_ok, raiseIf_eq_ok, ne_eq, not_not, not_lt,
    ok.injEq]
  constructor
  · rintro ⟨entry, he, _, rfl, ⟨⟩, heq, ⟨⟩, hle, hrs⟩
    refine ⟨⟨entry, he, heq, heq ▸ hle⟩, ?_⟩
    rw [← ok.inj hrs, routeArrivals_snoc, entryArrival_eq he]
  · rintro ⟨⟨entry, he, heq, hle⟩, rfl⟩
    refine ⟨entry, he, _, rfl, ⟨⟩, heq, ⟨⟩, heq ▸ hle, ?_⟩
    rw [routeArrivals_snoc, entryArrival_eq he]
    rfl

theorem foldlM_checkRouteHop : ∀ {post pre : List (Nat × TreeEdge)} {arrivals : ArrivalByNode},
      TreeWalk.Ordered source sink (fun depth _ => depth + 1) route.source 0
        (pre ++ post) →
      (post.foldlM (checkRouteHop entries route ready) (routeArrivals entries route ready pre) =
          .ok arrivals ↔
        (∀ hop ∈ post,
          HopScheduled entries route (routeArrivals entries route ready (pre ++ post)) hop.2) ∧
          arrivals = routeArrivals entries route ready (pre ++ post))
  | [], pre, arrivals, _ => by
    rw [foldlM_nil, append_nil]
    constructor
    · intro h
      exact ⟨fun _ hh => absurd hh not_mem_nil, (ok.inj h).symm⟩
    · rintro ⟨-, rfl⟩
      rfl
  | hop :: post, pre, arrivals, h => by
    have ha : pre ++ hop :: post = pre ++ [hop] ++ post := append_cons ..
    have h' : TreeWalk.Ordered source sink (fun depth _ => depth + 1)
        route.source 0 (pre ++ [hop] ++ post) := ha ▸ h
    rw [foldlM_cons, bind_eq_ok, forall_mem_cons, and_assoc]
    constructor
    · rintro ⟨arrivals', hh, hr⟩
      obtain ⟨hs, rfl⟩ := (checkRouteHop_eq_ok h).mp hh
      rw [foldlM_checkRouteHop h', ← ha] at hr
      exact ⟨hs, hr⟩
    · rintro ⟨hs, hr⟩
      refine ⟨_, (checkRouteHop_eq_ok h).mpr ⟨hs, rfl⟩, ?_⟩
      rw [foldlM_checkRouteHop h', ← ha]
      exact hr

theorem foldlM_routeHops (h : routeHops route = .ok hops) :
    hops.foldlM (checkRouteHop entries route ready) [(route.source, ready - 1)] = .ok arrivals ↔
      (∀ hop ∈ hops, HopScheduled entries route (routeArrivals entries route ready hops) hop.2) ∧
        arrivals = routeArrivals entries route ready hops := by
  have ho : TreeWalk.Ordered source sink (fun depth _ => depth + 1)
      route.source 0 ([] ++ hops) := (routeHops_spec h).ordered
  exact foldlM_checkRouteHop ho

variable {state state' : ProgressState}

theorem checkScheduledRoute_eq_ok {extended : Bool} {mode : ScheduleMode} :
    checkScheduledRoute extended mode entries state route = .ok state' ↔ ∃ ready records hops,
        sourceReadySlot independentlyReconstructExactSourceReadiness mode (state.enter route)
          route = .ok (ready, records) ∧
        routeHops route = .ok hops ∧
        (∀ hop ∈ hops, HopScheduled entries route (routeArrivals entries route ready hops) hop.2) ∧
        finishRoute extended mode (.validation "schedule demand %r: missing sinks %s" [route.id])
          (state.enter route) route ready records (routeArrivals entries route ready hops) =
            .ok state' := by
  unfold checkScheduledRoute
  constructor
  · intro h
    simp only [bind_eq_ok] at h
    obtain ⟨⟨ready, records⟩, hr, hops, hh, arrivals, ha, h⟩ := h
    obtain ⟨hs, rfl⟩ := (foldlM_routeHops hh).mp ha
    exact ⟨ready, records, hops, hr, hh, hs, h⟩
  · rintro ⟨ready, records, hops, hr, hh, hs, h⟩
    have ha := (foldlM_routeHops hh).mpr ⟨hs, rfl⟩
    exact bind_eq_ok.mpr ⟨_, hr, bind_eq_ok.mpr ⟨hops, hh, bind_eq_ok.mpr ⟨_, ha, h⟩⟩⟩

theorem finishRoute_eq_ok {extended : Bool} {mode : ScheduleMode} {missing : EmuFlowError}
    {records : List DemandReadiness} :
    finishRoute extended mode missing state route ready records arrivals = .ok state' ↔
      ∃ completion sinks, completionSlot route arrivals missing = .ok completion ∧
        sinkArrivals route arrivals = .ok sinks ∧
        state' =
          { rounds := state.rounds.record route.round completion
            exactArrivals :=
              if mode.isExact then
                (sinks.map fun s => ((route.net, s.1), s.2)).reverse ++ state.exactArrivals
              else state.exactArrivals
            readinessRecords := state.readinessRecords ++ records
            completions := state.completions ++
              [completionRecord extended mode route ready completion sinks] } := by
  unfold finishRoute
  simp only [bind_eq_ok]
  constructor
  · rintro ⟨completion, hc, sinks, hs, h⟩
    exact ⟨completion, sinks, hc, hs, (ok.inj h).symm⟩
  · rintro ⟨completion, sinks, hc, hs, rfl⟩
    exact ⟨completion, hc, sinks, hs, rfl⟩

end Route

/-! ## the arrivals of one route -/

structure RouteScheduled (entries : List TdmEntry) (route : Route) (ready : Int)
    (hops : List (Nat × TreeEdge)) : Prop where
  routeHops_eq : routeHops route = .ok hops
  scheduled : ∀ hop ∈ hops, HopScheduled entries route (routeArrivals entries route ready hops)
    hop.2
  covered : ∀ sink ∈ route.sinks, sink ∈ (routeArrivals entries route ready hops).map Prod.fst

namespace RouteScheduled

variable {entries : List TdmEntry} {route : Route} {ready : Int} {hops : List (Nat × TreeEdge)}
  (h : RouteScheduled entries route ready hops)
include h

theorem tree : RouteHops route hops := routeHops_spec h.routeHops_eq

theorem ready_above {above hop : Nat × TreeEdge} (ha : above ∈ hops)
    (hs : above.2.sink = hop.2.source) :
    readyOf (routeArrivals entries route ready hops) hop.2 =
      entryArrival entries route above.2 + 1 := by
  rw [readyOf, ← hs, routeArrivals, nodeArrival_sink h.tree.ordered ha]

theorem exists_entry {hop : Nat × TreeEdge} (hh : hop ∈ hops) :
    ∃ entry, findEntry entries (hopKey route.id hop.2) = some entry ∧
      entry.readySlot = readyOf (routeArrivals entries route ready hops) hop.2 ∧
      entry.readySlot ≤ entry.slot :=
  h.scheduled hop hh

theorem exists_sink_hop (hsr : route.source ∉ route.sinks) {sink : String}
    (hs : sink ∈ route.sinks) : ∃ hop ∈ hops, hop.2.sink = sink := by
  rcases mem_keys_arrivalsOf.mp (h.covered sink hs) with hh | heq
  · exact hh
  · exact absurd (heq ▸ hs) hsr

end RouteScheduled

variable {extended : Bool} {mode : ScheduleMode}

theorem checkScheduledRoute_spec {route : Route}
    {state state' : ProgressState}
    (h : checkScheduledRoute extended mode entries state route = .ok state') :
    ∃ ready hops completion r, RouteScheduled entries route ready hops ∧
      (route.sinks.map (nodeArrival (routeArrivals entries route ready hops))).max? =
        some completion ∧
      r.demand = route.id ∧ r.completionSlot = completion ∧
      state'.completions = state.completions ++ [r] := by
  obtain ⟨ready, records, hops, -, hh, hs, hf⟩ := checkScheduledRoute_eq_ok.mp h
  obtain ⟨completion, sinks, hc, -, rfl⟩ := finishRoute_eq_ok.mp hf
  obtain ⟨hcv, hmax⟩ := (completionSlot_eq_ok (routeHops_spec hh).ordered).mp hc
  exact ⟨ready, hops, completion, _, ⟨hh, hs, hcv⟩, hmax, rfl, rfl, rfl⟩

/-! ## the schedule -/

structure ScheduleContext (artifact : RoutesArtifact) (platform : Platform)
    (schedule : TdmSchedule) (ratioPlan : Option RatioPlan) (mode : ScheduleMode)
    (ctx : EntryContext) : Prop where
  schema_eq : schedule.schema = TDM_SCHEDULE_SCHEMA
  platform_eq : ctx.platform = platform
  normalized : normalizeRouteConstraints artifact.constraints platform = .ok ctx.constraints
  graph : buildDirectedGraph platform ctx.constraints false = .ok ctx.graph
  allocations : bankDirectionAllocations artifact.routes platform ctx.constraints =
    .ok ctx.allocations
  expected : expectedHops artifact.routes = .ok ctx.expected
  plan : academicPlan artifact platform schedule ratioPlan = .ok ctx.plan
  baseline : baselineOf ctx.plan artifact.routes platform ctx.graph ctx.allocations
    ctx.constraints = .ok ctx.baseline

structure AcceptedSchedule (artifact : RoutesArtifact) (platform : Platform)
    (schedule : TdmSchedule) (ratioPlan : Option RatioPlan) (mode : ScheduleMode)
    (ctx : EntryContext) (ordered : List Route) (state : ProgressState) : Prop extends
    ScheduleContext artifact platform schedule ratioPlan mode ctx where
  entries : ∀ entry ∈ schedule.entries, EntryLocal ctx entry
  keys_nodup : (schedule.entries.map TdmEntry.key).Nodup
  wires_nodup : (schedule.entries.map TdmEntry.wireSlot).Nodup
  cover : SameSet (schedule.entries.map TdmEntry.key) (ctx.expected.map ExpectedHop.key)
  order : ordered.Perm artifact.routes
  run : ordered.foldlM (checkScheduledRoute (extendedSchedule schedule) mode schedule.entries)
    ProgressState.start = .ok state
  frameSlots_eq : schedule.metrics.frameSlots = ctx.constraints.frameSlots
  completion_eq : schedule.metrics.completionSlot =
    ((sortedBy Completion.demand state.completions).map Completion.completionSlot).max?.getD 0

variable {rounds : List Int}

theorem orderRoutes_perm {routes ordered : List Route}
    {roundPlan exactPlan : Option RatioPlan} (hn : (routes.map Route.net).Nodup)
    (h : orderRoutes mode routes roundPlan exactPlan = .ok (ordered, rounds)) :
    ordered.Perm routes := by
  cases mode with
  | registered => exact (roundOrder_spec h).1
  | indexed contract timing =>
    obtain ⟨⟨⟩, -, h⟩ := bind_eq_ok.mp h
    obtain ⟨ordered', ho, h⟩ := bind_eq_ok.mp h
    cases h
    refine exactDependencyOrder_perm ?_ ho
    rwa [map_map]
  | full contract timing =>
    obtain ⟨⟨⟩, hi, h⟩ := bind_eq_ok.mp h
    obtain ⟨ordered', ho, h⟩ := bind_eq_ok.mp h
    cases h
    refine exactDependencyOrder_perm ?_ ho
    unfold exactContractIndexes at hi
    simp only [raiseIf_bind, raiseIf_eq_ok, not_or, not_not] at hi
    rw [map_map]
    exact hi.2.2.1

variable {metrics metrics' : ScheduleMetrics}

theorem modeMetrics_spec {ordered : List Route}
    {certificate : Option Certificate}
    (h : modeMetrics extended mode ordered rounds certificate metrics = .ok metrics') :
    metrics'.completionSlot = metrics.completionSlot ∧
      metrics'.frameSlots = metrics.frameSlots := by
  unfold modeMetrics at h
  split at h
  · obtain ⟨depth, -, h⟩ := bind_eq_ok.mp h
    rw [← ok.inj h]
    exact ⟨rfl, rfl⟩
  · rw [← ok.inj h]
    exact ⟨rfl, rfl⟩
  · split at h
    · rw [← ok.inj h]
      exact ⟨rfl, rfl⟩
    · rw [← ok.inj h]
      exact ⟨rfl, rfl⟩

theorem planMetrics_spec {plan : Option RatioPlan} {hops : Nat}
    (h : planMetrics plan hops entries metrics = .ok metrics') :
    metrics'.completionSlot = metrics.completionSlot ∧
      metrics'.frameSlots = metrics.frameSlots := by
  cases plan with
  | none =>
    rw [← ok.inj h]
    exact ⟨rfl, rfl⟩
  | some plan =>
    obtain ⟨ratios, -, h⟩ := bind_eq_ok.mp h
    obtain ⟨waits, -, h⟩ := bind_eq_ok.mp h
    obtain ⟨maxRatio, -, h⟩ := bind_eq_ok.mp h
    obtain ⟨maxWait, -, h⟩ := bind_eq_ok.mp h
    rw [← ok.inj h]
    exact ⟨rfl, rfl⟩

variable {artifact : RoutesArtifact} {digests : Digests} {platform : Platform}
  {ratioPlan : Option RatioPlan} {schedule : TdmSchedule}

theorem ScheduleContext.wellFormed {ctx : EntryContext}
    (h : ScheduleContext artifact platform schedule ratioPlan mode ctx) :
    ctx.constraints.WellFormed ctx.platform :=
  h.platform_eq ▸ normalizeRouteConstraints_wellFormed h.normalized

theorem ScheduleContext.allocated {ctx : EntryContext}
    (h : ScheduleContext artifact platform schedule ratioPlan mode ctx) :
    bankDirectionAllocations artifact.routes ctx.platform ctx.constraints = .ok ctx.allocations :=
  h.platform_eq ▸ h.allocations

theorem scheduleContext_eq_ok {ctx : EntryContext}
    (h : scheduleContext digests artifact platform schedule ratioPlan = .ok (mode, ctx)) :
    ScheduleContext artifact platform schedule ratioPlan mode ctx := by
  unfold scheduleContext at h
  obtain ⟨contract, -, h⟩ := bind_eq_ok.mp h
  simp only [raiseIf_bind] at h
  obtain ⟨hs, -, h⟩ := h
  obtain ⟨cs, -, h⟩ := bind_eq_ok.mp h
  obtain ⟨routeConstraints, hn, h⟩ := bind_eq_ok.mp h
  obtain ⟨hsm, h⟩ := raiseIf_bind.mp h
  rw [not_not.mp hsm] at h
  obtain ⟨mode', -, h⟩ := bind_eq_ok.mp h
  obtain ⟨-, h⟩ := raiseIf_bind.mp h
  obtain ⟨graph, hg, h⟩ := bind_eq_ok.mp h
  obtain ⟨allocations, ha, h⟩ := bind_eq_ok.mp h
  obtain ⟨-, h⟩ := raiseIf_bind.mp h
  obtain ⟨expected, he, h⟩ := bind_eq_ok.mp h
  obtain ⟨plan, hp, h⟩ := bind_eq_ok.mp h
  obtain ⟨-, h⟩ := raiseIf_bind.mp h
  obtain ⟨baseline, hb, h⟩ := bind_eq_ok.mp h
  cases h
  exact
    { schema_eq := not_not.mp hs, platform_eq := rfl, normalized := hn, graph := hg
      allocations := ha, expected := he, plan := hp, baseline := hb }

variable {summary : ScheduleSummary}

theorem checkScheduleRecords_eq_ok
    {ctx : EntryContext} {ordered : List Route}
    {state : ProgressState}
    (h : checkScheduleRecords digests artifact schedule mode ctx ordered rounds state =
      .ok summary) :
    schedule.metrics.frameSlots = ctx.constraints.frameSlots ∧
      schedule.metrics.completionSlot = ((sortedBy Completion.demand state.completions).map
        Completion.completionSlot).max?.getD 0 := by
  unfold checkScheduleRecords at h
  obtain ⟨-, h⟩ := raiseIf_bind.mp h
  obtain ⟨⟨⟩, -, h⟩ := bind_eq_ok.mp h
  obtain ⟨domains, -, h⟩ := bind_eq_ok.mp h
  obtain ⟨-, h⟩ := raiseIf_bind.mp h
  obtain ⟨⟨⟩, -, h⟩ := bind_eq_ok.mp h
  obtain ⟨cert, -, h⟩ := bind_eq_ok.mp h
  obtain ⟨-, h⟩ := raiseIf_bind.mp h
  obtain ⟨metrics₁, hm₁, h⟩ := bind_eq_ok.mp h
  obtain ⟨metrics, hm, h⟩ := bind_eq_ok.mp h
  obtain ⟨hs, -⟩ := raiseIf_bind.mp h
  obtain ⟨hc₁, hf₁⟩ := modeMetrics_spec hm₁
  obtain ⟨hc₂, hf₂⟩ := planMetrics_spec hm
  rw [not_not.mp hs, hf₂, hf₁, hc₂, hc₁]
  exact ⟨rfl, rfl⟩

theorem validateScheduleBody_eq_ok (hn : (artifact.routes.map Route.net).Nodup)
    (h : validateScheduleBody digests artifact platform schedule ratioPlan = .ok summary) :
    ∃ mode ctx ordered state,
      AcceptedSchedule artifact platform schedule ratioPlan mode ctx ordered state := by
  unfold validateScheduleBody at h
  simp only [bind_eq_ok] at h
  obtain ⟨⟨mode, ctx⟩, hct, tables, htb, ⟨ordered, rounds⟩, ho, state, hs, h⟩ := h
  have hc := scheduleContext_eq_ok hct
  obtain ⟨hf, hcm⟩ := checkScheduleRecords_eq_ok h
  obtain ⟨ha, hk, hw, hcv, ht⟩ := (checkEntries_eq_ok hc.wellFormed hc.allocated).mp htb
  rw [ht] at hs
  exact ⟨mode, ctx, ordered, state,
    { hc with
      entries := ha, keys_nodup := hk, wires_nodup := hw, cover := hcv
      order := orderRoutes_perm hn ho, run := hs
      frameSlots_eq := hf, completion_eq := hcm }⟩

/-- What an accepted schedule has passed. -/
theorem validateTdmSchedule_eq_ok (hn : (artifact.routes.map Route.net).Nodup)
    (h : validateTdmSchedule digests artifact platform schedule ratioPlan = .ok summary) :
    ∃ mode ctx ordered state,
      AcceptedSchedule artifact platform schedule ratioPlan mode ctx ordered state := by
  obtain ⟨summary', hb, -⟩ := bind_eq_ok.mp h
  exact validateScheduleBody_eq_ok hn hb

/-! ## entries and hops -/

theorem mem_expectedHops {routes : List Route} {expected : List ExpectedHop}
    (h : expectedHops routes = .ok expected) {hop : ExpectedHop} :
    hop ∈ expected ↔ ∃ route ∈ routes, ∃ hops, routeHops route = .ok hops ∧ ∃ item ∈ hops,
        { key := hopKey route.id item.2, route := route, depth := item.1 } = hop := by
  obtain ⟨lists, hls, h⟩ := bind_eq_ok.mp h
  rw [← ok.inj h, mem_flatten]
  constructor
  · rintro ⟨l, hl, hhp⟩
    obtain ⟨route, hr, ho⟩ := exists_of_mem_mapM hls hl
    obtain ⟨hops, hh, ho⟩ := bind_eq_ok.mp ho
    rw [← ok.inj ho] at hhp
    obtain ⟨item, hi, heq⟩ := mem_map.mp hhp
    exact ⟨route, hr, hops, hh, item, hi, heq⟩
  · rintro ⟨route, hr, hops, hh, item, hi, heq⟩
    obtain ⟨l, hl, ho⟩ := mem_mapM_of_mem hls hr
    obtain ⟨hops', hh', ho⟩ := bind_eq_ok.mp ho
    rw [hh] at hh'
    rw [← ok.inj hh'] at ho
    refine ⟨l, hl, ?_⟩
    rw [← ok.inj ho]
    exact mem_map.mpr ⟨item, hi, heq⟩

namespace AcceptedSchedule

variable {artifact : RoutesArtifact} {platform : Platform} {schedule : TdmSchedule}
  {ratioPlan : Option RatioPlan} {mode : ScheduleMode} {ctx : EntryContext}
  {ordered : List Route} {state : ProgressState}
  (h : AcceptedSchedule artifact platform schedule ratioPlan mode ctx ordered state)
include h

theorem routeScheduled {route : Route} (hr : route ∈ artifact.routes) :
    ∃ ready hops, RouteScheduled schedule.entries route ready hops := by
  obtain ⟨s, s', hst⟩ := exists_step_of_foldlM h.run (h.order.mem_iff.mpr hr)
  obtain ⟨ready, hops, -, -, hs, -⟩ := checkScheduledRoute_spec hst
  exact ⟨ready, hops, hs⟩

variable {entry : TdmEntry}

theorem exists_edge (he : entry ∈ schedule.entries) :
    ∃ route ∈ artifact.routes, ∃ edge ∈ route.treeEdges, entry.key = hopKey route.id edge := by
  have hk : entry.key ∈ ctx.expected.map ExpectedHop.key :=
    (sameSet_iff.mp h.cover _).mp (mem_map_of_mem he)
  obtain ⟨hop, hhp, heq⟩ := mem_map.mp hk
  obtain ⟨route, hr, hops, hh, item, hi, rfl⟩ := (mem_expectedHops h.expected).mp hhp
  exact ⟨route, hr, item.2, (routeHops_spec hh).mem_treeEdges hi, heq.symm⟩

theorem findEntry_of_mem (he : entry ∈ schedule.entries) :
    findEntry schedule.entries entry.key = some entry :=
  Keyed.find_of_mem h.keys_nodup he

theorem wellFormed : ctx.constraints.WellFormed ctx.platform :=
  h.platform_eq ▸ normalizeRouteConstraints_wellFormed h.normalized

theorem slot_range (he : entry ∈ schedule.entries) :
    0 ≤ entry.slot ∧ entry.slot ≤ entry.arrivalSlot ∧
      entry.arrivalSlot < (schedule.metrics.frameSlots : Int) - RUNTIME_BARRIER_SLOTS := by
  obtain ⟨link, -, hl⟩ := (h.entries entry he).link
  have hd := hl.deadline
  have hs := hl.slot_nonneg
  have hw := h.wellFormed
  rw [h.frameSlots_eq]
  rw [hl.arrival] at hd ⊢
  have hlt : 0 ≤ linkLatency link entry.ratio := by
    by_cases hm : link.tdmDelayModel = none
    · rw [linkLatency, hm]
      exact Int.natCast_nonneg _
    · exact linkLatency_nonneg (hl.ratio_pos hw hm)
  omega

end AcceptedSchedule

def RouteCompletes (entries : List TdmEntry) (route : Route) (slot : Int) : Prop :=
  ∃ ready hops, RouteScheduled entries route ready hops ∧
    (route.sinks.map (nodeArrival (routeArrivals entries route ready hops))).max? = some slot

theorem foldlM_checkScheduledRoute : ∀ {ordered : List Route} {state state' : ProgressState},
      ordered.foldlM (checkScheduledRoute extended mode entries) state = .ok state' →
      ∃ slots, state'.completions.map Completion.completionSlot =
          state.completions.map Completion.completionSlot ++ slots ∧
        (∀ slot ∈ slots, ∃ route ∈ ordered, RouteCompletes entries route slot) ∧
        ∀ route ∈ ordered, ∃ slot ∈ slots, RouteCompletes entries route slot
  | [], state, state', h => by
    rw [foldlM_nil] at h
    rw [← ok.inj h]
    exact ⟨[], (append_nil _).symm, by simp, by simp⟩
  | route :: ordered, state, state', h => by
    rw [foldlM_cons] at h
    obtain ⟨state₁, hst, h⟩ := bind_eq_ok.mp h
    obtain ⟨ready, hops, completion, record, hs, hmax, -, hslo, hcm⟩ :=
      checkScheduledRoute_spec hst
    obtain ⟨slots, hsl, ho, ha⟩ := foldlM_checkScheduledRoute h
    have hf : RouteCompletes entries route completion := ⟨ready, hops, hs, hmax⟩
    refine ⟨completion :: slots, ?_, ?_, ?_⟩
    · rw [hsl, hcm, map_append, append_assoc, map_singleton, hslo]
      rfl
    · rw [forall_mem_cons]
      refine ⟨⟨route, mem_cons_self, hf⟩, fun slot hm => ?_⟩
      obtain ⟨r, hr, hc⟩ := ho slot hm
      exact ⟨r, mem_cons_of_mem route hr, hc⟩
    · rw [forall_mem_cons]
      refine ⟨⟨completion, mem_cons_self, hf⟩, fun r hr => ?_⟩
      obtain ⟨slot, hm, hc⟩ := ha r hr
      exact ⟨slot, mem_cons_of_mem completion hm, hc⟩

end EmuFlow.Tdm
