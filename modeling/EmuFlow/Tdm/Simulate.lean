import EmuFlow.Tdm.Accepted

/-!
# Replay of a schedule

`simulate_tdm_schedule` of `emuflow/tdm.py`: slot by slot, the entries of a slot read the value at
their source, and the values that arrive in the slot are stored at their sinks. The source computes
the value of a demand in a frame from a digest; here it is any function.
-/

namespace EmuFlow.Tdm

open Check SortedSet Routing TdmRatio List Keyed

/-! ## the simulation -/

section Simulation

variable {β : Type}

structure ReplayState (β : Type) where
  nodeValues : List ((String × String) × β)
  arrivals : List (TdmEntry × β)

def transmit (nodeValues : List ((String × String) × β)) (arrivals : List (TdmEntry × β))
    (entry : TdmEntry) : Result (List (TdmEntry × β)) :=
  match nodeValues.lookup (entry.demand, entry.source) with
  | some value => .ok (arrivals ++ [(entry, value)])
  | none => .error (.validation "TDM simulation: data unavailable for %r" [entry.id])

def replayOrder (entry : TdmEntry) := lex entry.hop entry.id

/-- One turn of the loop over the slots: first the transmissions, then the arrivals. -/
def simulateSlot (entries : List TdmEntry) (state : ReplayState β) (slot : Nat) :
    Result (ReplayState β) := do
  let sent := sortedBy replayOrder (entries.filter fun entry => entry.slot = slot)
  let arrivals ← sent.foldlM (transmit state.nodeValues) state.arrivals
  let arrived := sortedBy (fun item : TdmEntry × β => replayOrder item.1)
    (arrivals.filter fun item => item.1.arrivalSlot = slot)
  return { nodeValues := (arrived.map fun item =>
             ((item.1.demand, item.1.sink), item.2)).reverse ++ state.nodeValues
           arrivals := arrivals }

structure Delivery (β : Type) where
  frame : Nat
  demand : String
  sink : String
  value : β

/-- The routes by their demand, sorted; of two routes with one demand the later one counts. -/
def demandRoutes (routes : List Route) : List Route :=
  (sortedSet (routes.map Route.id)).filterMap (Keyed.find Route.id routes.reverse)

def checkDelivery [DecidableEq β] (frame : Nat) (nodeValues : List ((String × String) × β))
    (route : Route) (expected : β) (sink : String) : Result (Delivery β) :=
  match nodeValues.lookup (route.id, sink) with
  | some actual => do
    raiseIf (actual ≠ expected)
      (.validation "TDM simulation frame %s: demand %r sink %r expected %s, got %r"
        [toString frame, route.id, sink])
    return { frame := frame, demand := route.id, sink := sink, value := actual }
  | none => .error
    (.validation "TDM simulation frame %s: demand %r sink %r expected %s, got %r"
      [toString frame, route.id, sink])

/-- One turn of the loop over the frames; `value frame demand net` is the value of a source. -/
def simulateFrame [DecidableEq β] (value : Nat → String → String → β) (routes : List Route)
    (schedule : TdmSchedule) (frame : Nat) : Result (List (Delivery β)) := do
  let demands := demandRoutes routes
  let start : ReplayState β :=
    { nodeValues := demands.map fun route =>
        ((route.id, route.source), value frame route.id route.net)
      arrivals := [] }
  let final ← (List.range schedule.metrics.frameSlots).foldlM (simulateSlot schedule.entries) start
  let delivered ← demands.mapM fun route =>
    route.sinks.mapM (checkDelivery frame final.nodeValues route (value frame route.id route.net))
  return delivered.flatten

/-- The result of the simulation; the source returns a digest of `trace`. -/
structure SimulationReport (β : Type) where
  frames : Nat
  demands : Nat
  deliveredSinkValues : Nat
  trace : List (Delivery β)

def simulateTdmSchedule [DecidableEq β] (value : Nat → String → String → β) (routes : List Route)
    (schedule : TdmSchedule) (frames : Nat) : Result (SimulationReport β) := do
  raiseIf (frames = 0) (ValidationError "TDM simulation frames: expected a positive integer")
  let traces ← (List.range frames).mapM (simulateFrame value routes schedule)
  return { frames := frames
           demands := (demandRoutes routes).length
           deliveredSinkValues := traces.flatten.length
           trace := traces.flatten }

end Simulation

/-! ## the replay of one frame -/

/-- Entries that only send what they have: each leaves the source of its route, or a node that an
earlier entry of its demand has reached. -/
structure StoreAndForward (routes : List Route) (entries : List TdmEntry) (frameSlots : Nat) :
    Prop where
  available : ∀ entry ∈ entries,
    (∃ route ∈ routes, route.id = entry.demand ∧ route.source = entry.source) ∨
      ∃ above ∈ entries, above.demand = entry.demand ∧ above.sink = entry.source ∧
        above.arrivalSlot < entry.slot
  slot_nonneg : ∀ entry ∈ entries, 0 ≤ entry.slot
  slot_le : ∀ entry ∈ entries, entry.slot ≤ entry.arrivalSlot
  arrival_lt : ∀ entry ∈ entries, entry.arrivalSlot < frameSlots

section Frame

variable {β : Type} {routes : List Route} {entries : List TdmEntry}

def Carries (value : String → String → β) (routes : List Route) (demand : String) (v : β) : Prop :=
  ∃ route ∈ routes, route.id = demand ∧ v = value route.id route.net

/-- The replay before `slot`: only values of demands are around, every entry that was due has been
sent, and every entry that was to arrive has arrived. -/
structure Replay (value : String → String → β) (routes : List Route) (entries : List TdmEntry)
    (slot : Nat) (state : ReplayState β) : Prop where
  sound : ∀ item ∈ state.nodeValues, Carries value routes item.1.1 item.2
  source : ∀ route ∈ routes, (route.id, route.source) ∈ state.nodeValues.map Prod.fst
  arrived : ∀ entry ∈ entries, entry.arrivalSlot < slot →
    (entry.demand, entry.sink) ∈ state.nodeValues.map Prod.fst
  pending : ∀ item ∈ state.arrivals, Carries value routes item.1.demand item.2
  sent : ∀ entry ∈ entries, entry.slot < slot → entry ∈ state.arrivals.map Prod.fst

theorem foldlM_transmit {nodeValues : List ((String × String) × β)} :
    ∀ (sent : List TdmEntry) (arrivals : List (TdmEntry × β)),
      (∀ e ∈ sent, (e.demand, e.source) ∈ nodeValues.map Prod.fst) →
      ∃ values, sent.foldlM (transmit nodeValues) arrivals = .ok (arrivals ++ values) ∧
        values.map Prod.fst = sent ∧
        ∀ item ∈ values, ((item.1.demand, item.1.source), item.2) ∈ nodeValues
  | [], arrivals, _ => ⟨[], by simp [pure, Except.pure], rfl, by simp⟩
  | e :: sent, arrivals, h => by
    rw [forall_mem_cons] at h
    obtain ⟨v, hv⟩ := exists_lookup h.1
    obtain ⟨values, hvl, hm, hmm⟩ := foldlM_transmit sent (arrivals ++ [(e, v)]) h.2
    have hst : transmit nodeValues arrivals e = .ok (arrivals ++ [(e, v)]) := by
      rw [transmit, hv]
    refine ⟨(e, v) :: values, ?_, by rw [map_cons, hm], ?_⟩
    · rw [foldlM_cons, bind_eq_ok]
      exact ⟨_, hst, by rw [hvl, append_assoc]; rfl⟩
    · rw [forall_mem_cons]
      exact ⟨mem_of_lookup hv, hmm⟩

variable {value : String → String → β} {slot : Nat} {state : ReplayState β}

section

variable {frameSlots : Nat} (hs : StoreAndForward routes entries frameSlots)
include hs

theorem Replay.source_known
    (h : Replay value routes entries slot state) {entry : TdmEntry} (he : entry ∈ entries)
    (hsl : entry.slot = slot) : (entry.demand, entry.source) ∈ state.nodeValues.map Prod.fst := by
  rcases hs.available entry he with ⟨route, hr, hid, hsr⟩ | ⟨above, ha, hd, hn, hlt⟩
  · rw [← hid, ← hsr]
    exact h.source route hr
  · rw [← hd, ← hn]
    exact h.arrived above ha (hsl ▸ hlt)

theorem Replay.step (h : Replay value routes entries slot state) :
    ∃ state', simulateSlot entries state slot = .ok state' ∧
      Replay value routes entries (slot + 1) state' := by
  have hk : ∀ en ∈ sortedBy replayOrder (entries.filter fun en => en.slot = slot),
      (en.demand, en.source) ∈ state.nodeValues.map Prod.fst := by
    intro en he
    rw [mem_sortedBy, mem_filter, decide_eq_true_eq] at he
    exact h.source_known hs he.1 he.2
  obtain ⟨values, hsn, hm, hmm⟩ := foldlM_transmit _ state.arrivals hk
  have hp : ∀ item ∈ state.arrivals ++ values, Carries value routes item.1.demand item.2 := by
    intro item hi
    rcases List.mem_append.mp hi with ho | hn
    · exact h.pending item ho
    · exact h.sound _ (hmm item hn)
  have ha : ∀ en ∈ entries, en.slot < (slot + 1 : Nat) →
      en ∈ (state.arrivals ++ values).map Prod.fst := by
    intro en he hlt
    rw [map_append, List.mem_append, hm, mem_sortedBy, mem_filter, decide_eq_true_eq]
    rcases Int.lt_or_eq_of_le (show en.slot ≤ slot by omega) with ho | hnw
    · exact Or.inl (h.sent en he ho)
    · exact Or.inr ⟨he, hnw⟩
  refine ⟨_, bind_eq_ok.mpr ⟨_, hsn, rfl⟩, ?_, ?_, ?_, hp, ha⟩
  · -- what has arrived was pending
    intro item hi
    rcases List.mem_append.mp hi with hn | ho
    · obtain ⟨arrival, har, rfl⟩ := mem_map.mp (mem_reverse.mp hn)
      rw [mem_sortedBy, mem_filter] at har
      exact hp arrival har.1
    · exact h.sound item ho
  · intro route hr
    rw [map_append, List.mem_append]
    exact Or.inr (h.source route hr)
  · intro en he hlt
    rw [map_append, List.mem_append]
    rcases Int.lt_or_eq_of_le (show en.arrivalSlot ≤ slot by omega) with ho | hnw
    · exact Or.inr (h.arrived en he ho)
    · -- it has been sent by now, so it is among the arrivals of this slot
      left
      have hle := hs.slot_le en he
      obtain ⟨⟨e, v⟩, hi, rfl⟩ := mem_map.mp (ha en he (by push_cast; omega))
      rw [map_reverse, mem_reverse, map_map]
      refine mem_map.mpr ⟨(e, v), ?_, rfl⟩
      rw [mem_sortedBy, mem_filter, decide_eq_true_eq]
      exact ⟨hi, hnw⟩

theorem Replay.run :
    ∀ (slots : Nat) {slot : Nat} {state : ReplayState β}, Replay value routes entries slot state →
      ∃ state', (range' slot slots).foldlM (simulateSlot entries) state = .ok state' ∧
        Replay value routes entries (slot + slots) state'
  | 0, slot, state, h => ⟨state, rfl, h⟩
  | slots + 1, slot, state, h => by
    obtain ⟨state₁, hst, h₁⟩ := h.step hs
    obtain ⟨state', hr, h'⟩ := Replay.run slots h₁
    refine ⟨state', ?_, ?_⟩
    · rw [range'_succ, foldlM_cons, bind_eq_ok]
      exact ⟨state₁, hst, hr⟩
    · rwa [Nat.add_comm slots 1, ← Nat.add_assoc]

end

theorem mem_demandRoutes (hids : (routes.map Route.id).Nodup) {route : Route} :
    route ∈ demandRoutes routes ↔ route ∈ routes := by
  have hrv : (routes.reverse.map Route.id).Nodup := by
    rwa [map_reverse, nodup_reverse]
  unfold demandRoutes
  rw [mem_filterMap]
  constructor
  · rintro ⟨id, -, hf⟩
    exact mem_reverse.mp (mem_of_find hf)
  · intro hr
    exact ⟨route.id, mem_sortedSet.mpr (mem_map_of_mem hr),
      find_of_mem hrv (mem_reverse.mpr hr)⟩

theorem Replay.start {frameSlots : Nat} (hids : (routes.map Route.id).Nodup)
    (hs : StoreAndForward routes entries frameSlots) : Replay value routes entries 0
      { nodeValues := (demandRoutes routes).map fun route =>
          ((route.id, route.source), value route.id route.net)
        arrivals := [] } := by
  refine ⟨?_, ?_, ?_, fun _ hi => absurd hi not_mem_nil, ?_⟩
  · intro item hi
    obtain ⟨route, hr, rfl⟩ := mem_map.mp hi
    exact ⟨route, (mem_demandRoutes hids).mp hr, rfl, rfl⟩
  · intro route hr
    rw [map_map]
    exact mem_map.mpr ⟨route, (mem_demandRoutes hids).mpr hr, rfl⟩
  · intro e he hlt
    have h₁ := hs.slot_nonneg e he
    have h₂ := hs.slot_le e he
    omega
  · intro e he hlt
    have := hs.slot_nonneg e he
    omega

theorem Replay.checkDelivery [DecidableEq β] (hids : (routes.map Route.id).Nodup)
    (h : Replay value routes entries slot state) {route : Route} (hr : route ∈ routes)
    {entry : TdmEntry} (he : entry ∈ entries) (ha : entry.arrivalSlot < slot)
    (hd : entry.demand = route.id) (frame : Nat) :
    checkDelivery frame state.nodeValues route (value route.id route.net) entry.sink =
      .ok { frame := frame, demand := route.id, sink := entry.sink
            value := value route.id route.net } := by
  have hk := h.arrived entry he ha
  rw [hd] at hk
  obtain ⟨v, hv⟩ := exists_lookup hk
  obtain ⟨route', hr', hid, hvl⟩ := h.sound _ (mem_of_lookup hv)
  obtain rfl : route' = route := inj_on_of_nodup_map hids hr' hr hid
  obtain rfl : v = value route'.id route'.net := hvl
  rw [Tdm.checkDelivery, hv]
  simp [raiseIf, bind, Except.bind, pure, Except.pure]

end Frame

def SinksReached (routes : List Route) (entries : List TdmEntry) : Prop :=
  ∀ route ∈ routes, ∀ sink ∈ route.sinks,
    ∃ entry ∈ entries, entry.demand = route.id ∧ entry.sink = sink

section Frames

variable {β : Type} [DecidableEq β] {routes : List Route} {schedule : TdmSchedule}
  (hids : (routes.map Route.id).Nodup)
  (hs : StoreAndForward routes schedule.entries schedule.metrics.frameSlots)
  (hsinks : SinksReached routes schedule.entries)
include hids hs hsinks

theorem simulateFrame_delivers (value : Nat → String → String → β) (frame : Nat) :
    ∃ delivered, simulateFrame value routes schedule frame = .ok delivered ∧
      ∀ route ∈ routes, ∀ sink ∈ route.sinks,
        { frame := frame, demand := route.id, sink := sink
          value := value frame route.id route.net } ∈ delivered := by
  have hst : Replay (value frame) routes schedule.entries 0 _ := Replay.start hids hs
  obtain ⟨final, hrn, hf⟩ := Replay.run hs schedule.metrics.frameSlots hst
  rw [← range_eq_range'] at hrn
  rw [Nat.zero_add] at hf
  have hc : ∀ route ∈ routes, ∀ sink ∈ route.sinks,
      checkDelivery frame final.nodeValues route (value frame route.id route.net) sink =
        .ok { frame := frame, demand := route.id, sink := sink
              value := value frame route.id route.net } := by
    intro route hr sink hsn
    obtain ⟨e, he, hd, rfl⟩ := hsinks route hr sink hsn
    exact hf.checkDelivery hids hr he (hs.arrival_lt e he) hd frame
  have hm : (demandRoutes routes).mapM (fun route => route.sinks.mapM
      (checkDelivery frame final.nodeValues route (value frame route.id route.net))) =
        .ok ((demandRoutes routes).map fun route => route.sinks.map fun sink =>
          { frame := frame, demand := route.id, sink := sink
            value := value frame route.id route.net }) :=
    mapM_eq_ok_map fun route hr => mapM_eq_ok_map fun sink hsn =>
      hc route ((mem_demandRoutes hids).mp hr) sink hsn
  refine ⟨_, bind_eq_ok.mpr ⟨final, hrn, bind_eq_ok.mpr ⟨_, hm, rfl⟩⟩, ?_⟩
  intro route hr sink hsn
  exact mem_flatten.mpr ⟨_, mem_map.mpr ⟨route, (mem_demandRoutes hids).mpr hr, rfl⟩,
    mem_map.mpr ⟨sink, hsn, rfl⟩⟩

theorem simulateTdmSchedule_ok (value : Nat → String → String → β) {frames : Nat}
    (hf : frames ≠ 0) :
    ∃ report, simulateTdmSchedule value routes schedule frames = .ok report ∧
      ∀ frame < frames, ∀ route ∈ routes, ∀ sink ∈ route.sinks,
        { frame := frame, demand := route.id, sink := sink
          value := value frame route.id route.net } ∈ report.trace := by
  obtain ⟨traces, ht⟩ := exists_mapM_eq_ok
    (f := simulateFrame value routes schedule) (l := List.range frames) fun frame _ => by
      obtain ⟨delivered, hok, -⟩ := simulateFrame_delivers hids hs hsinks value frame
      exact ⟨delivered, hok⟩
  refine ⟨_, raiseIf_bind.mpr ⟨hf, bind_eq_ok.mpr ⟨traces, ht, rfl⟩⟩, ?_⟩
  intro frame hfr route hr sink hsn
  obtain ⟨delivered, hm, hok⟩ := mem_mapM_of_mem ht (mem_range.mpr hfr)
  obtain ⟨delivered', hok', ha⟩ := simulateFrame_delivers hids hs hsinks value frame
  rw [hok'] at hok
  cases hok
  exact mem_flatten.mpr ⟨_, hm, ha route hr sink hsn⟩

end Frames

/-! ## accepted schedules -/

variable {artifact : RoutesArtifact} {ratioPlan : Option RatioPlan} {schedule : TdmSchedule}

theorem validateTdmRatioPlan_of_academicPlan {platform : Platform} {plan : RatioPlan}
    (h : academicPlan artifact platform schedule ratioPlan = .ok (some plan)) :
    ∃ summary, validateTdmRatioPlan artifact platform plan = .ok summary := by
  unfold academicPlan at h
  split at h
  · cases ratioPlan with
    | none => cases h
    | some given =>
      obtain ⟨summary, hv, h⟩ := bind_eq_ok.mp h
      obtain ⟨-, h⟩ := raiseIf_bind.mp h
      cases h
      exact ⟨summary, hv⟩
  · obtain ⟨-, h⟩ := raiseIf_bind.mp h
    cases h

namespace AcceptedSchedule

variable {artifact : RoutesArtifact} {platform : Platform} {schedule : TdmSchedule}
  {ratioPlan : Option RatioPlan} {mode : ScheduleMode} {ctx : EntryContext}
  {ordered : List Route} {state : ProgressState}
  (h : AcceptedSchedule artifact platform schedule ratioPlan mode ctx ordered state)
include h

theorem storeAndForward :
    StoreAndForward artifact.routes schedule.entries schedule.metrics.frameSlots := by
  refine ⟨fun e he => ?_, fun e he => (h.slot_range he).1,
    fun e he => (h.slot_range he).2.1, fun e he => ?_⟩
  · obtain ⟨route, hr, edge, hed, hk⟩ := h.exists_edge he
    have hd : e.demand = route.id := congrArg Prod.fst hk
    have hsr : e.source = edge.source := congrArg (fun k : HopKey => k.2.2.1) hk
    obtain ⟨ready, hops, hsc⟩ := h.routeScheduled hr
    obtain ⟨depth, hh⟩ := hsc.tree.exists_hop hed
    obtain ⟨entry', hf, hrd, hle⟩ := hsc.exists_entry hh
    obtain rfl : e = entry' := by
      rw [← hk, h.findEntry_of_mem he] at hf
      exact Option.some.inj hf
    rcases hsc.tree.parent hh with ⟨hs, -⟩ | ⟨above, ha, hs, -⟩
    · exact Or.inl ⟨route, hr, hd.symm, hs.symm.trans hsr.symm⟩
    · obtain ⟨parent, hp, -, -⟩ := hsc.exists_entry ha
      have hpk : parent.key = hopKey route.id above.2 := key_of_find hp
      have hps : parent.sink = above.2.sink := congrArg (fun k : HopKey => k.2.2.2) hpk
      refine Or.inr ⟨parent, mem_of_find hp, ?_, ?_, ?_⟩
      · exact (congrArg Prod.fst hpk).trans hd.symm
      · rw [hps, hs, hsr]
      · rw [hsc.ready_above ha hs, entryArrival_eq hp] at hrd
        omega
  · have := (h.slot_range he).2.2
    rw [RUNTIME_BARRIER_SLOTS] at this
    omega

theorem sinksReached (hsr : ∀ route ∈ artifact.routes, route.source ∉ route.sinks) :
    SinksReached artifact.routes schedule.entries := by
  intro route hr sink hsn
  obtain ⟨ready, hops, hsc⟩ := h.routeScheduled hr
  obtain ⟨hop, hh, rfl⟩ := hsc.exists_sink_hop (hsr route hr) hsn
  obtain ⟨e, he, -⟩ := hsc.exists_entry hh
  have hk : e.key = hopKey route.id hop.2 := key_of_find he
  exact ⟨e, mem_of_find he, congrArg Prod.fst hk,
    congrArg (fun k : HopKey => k.2.2.2) hk⟩

theorem capacityKey_eq {entry : TdmEntry} (he : entry ∈ schedule.entries) :
    entry.capacityKey = ctx.graph.capacityKeyOf entry.key.2 := by
  obtain ⟨arc, ha, hc⟩ := (h.entries entry he).arc
  have ha' : ctx.graph.findArc entry.key.2 = some arc := ha
  rw [DirectedGraph.capacityKeyOf, ha', hc]
  rfl

theorem tdmRatio_eq {a b : TdmEntry} (ha : a ∈ schedule.entries) (hb : b ∈ schedule.entries)
    {link : BoardLink} (hla : platform.findLink a.link = some link)
    (hlb : platform.findLink b.link = some link) (hm : link.tdmDelayModel ≠ none)
    (hky : a.capacityKey = b.capacityKey) (hln : a.lane = b.lane) : a.tdmRatio = b.tdmRatio := by
  obtain ⟨la, hla', hlc⟩ := (h.entries a ha).link
  obtain ⟨lb, hlb', hll⟩ := (h.entries b hb).link
  have hcp : ctx.graph.capacityKeyOf a.key.2 = ctx.graph.capacityKeyOf b.key.2 := by
    rw [← h.capacityKey_eq ha, ← h.capacityKey_eq hb, hky]
  cases hpl : ctx.plan with
  | none =>
    have hbs := h.baseline
    rw [hpl] at hbs
    have hcv : ∀ e ∈ schedule.entries, platform.findLink e.link = some link →
        ∃ hop, findBaseline ctx.baseline e.key = some hop := by
      intro e hen hlk
      obtain ⟨route, hrt, edge, hed, hek⟩ := h.exists_edge hen
      have hmm : e.key ∈ hopKeys artifact.routes :=
        mem_flatMap.mpr ⟨route, hrt, mem_map.mpr ⟨edge, hed, hek.symm⟩⟩
      exact baselineRatioHops_cover hbs hmm hlk hm
    obtain ⟨x, hx⟩ := hcv a ha hla
    obtain ⟨y, hy⟩ := hcv b hb hlb
    obtain ⟨hxl, hxr, -⟩ := hlc.baseline x hx
    obtain ⟨hyl, hyr, -⟩ := hll.baseline y hy
    have hsm : x.discreteRatio = y.discreteRatio :=
      baselineRatioHops_homogeneous hbs (mem_of_find hx) (mem_of_find hy)
        (by rw [key_of_find hx, key_of_find hy, hcp])
        (by rw [← hxl, ← hyl, hln])
    rw [hxr, hyr, hsm]
  | some plan =>
    obtain ⟨x, hx, -, -, hxr, -, hxl, -⟩ := hlc.plan plan hpl
    obtain ⟨y, hy, -, -, hyr, -, hyl, -⟩ := hll.plan plan hpl
    obtain ⟨summary, hvl⟩ := validateTdmRatioPlan_of_academicPlan (hpl ▸ h.plan)
    obtain ⟨model, hmd, hls⟩ := validateTdmRatioPlan_eq_ok hvl
    obtain ⟨graph, delays, allocations, raw, hp⟩ := prepareModel_eq_ok hmd
    -- the plan was made for the graph of this platform
    have hcn : model.constraints = ctx.constraints :=
      Except.ok.inj (hp.normalized.symm.trans h.normalized)
    have hgr : graph = ctx.graph := by
      have hbl := hp.built
      rw [hcn, h.graph] at hbl
      exact (Except.ok.inj hbl).symm
    subst hgr
    have hsm : x.discreteRatio = y.discreteRatio :=
      hls.ratio_eq hp (mem_reverse.mp (mem_of_find hx))
        (mem_reverse.mp (mem_of_find hy))
        (by rw [key_of_find hx, key_of_find hy, hcp])
        (by rw [← hxl, ← hyl, hln])
    rw [hxr, hyr, hsm]

theorem latency_eq {a b : TdmEntry} (ha : a ∈ schedule.entries) (hb : b ∈ schedule.entries)
    (hln : a.link = b.link) (hk : a.capacityKey = b.capacityKey) (hlan : a.lane = b.lane) :
    a.arrivalSlot - a.slot = b.arrivalSlot - b.slot := by
  obtain ⟨la, hla, hlc⟩ := (h.entries a ha).link
  obtain ⟨lb, hlb, hll⟩ := (h.entries b hb).link
  obtain rfl : la = lb := by
    rw [hln, hlb] at hla
    exact (Option.some.inj hla).symm
  rw [h.platform_eq] at hla hlb
  have hl : linkLatency la a.ratio = linkLatency la b.ratio := by
    by_cases hm : la.tdmDelayModel = none
    · rw [linkLatency, linkLatency, hm]
    · rw [TdmEntry.ratio, TdmEntry.ratio, h.tdmRatio_eq ha hb hla hlb hm hk hlan]
  rw [hlc.arrival, hll.arrival, hl]
  omega

end AcceptedSchedule

def TdmEntry.rxSlot (entry : TdmEntry) : String × Int × Int :=
  (entry.capacityKey, entry.arrivalSlot, entry.lane)

/-- No wire sends twice in a slot or receives twice in a slot, and every frame delivers the value
of every source to its sinks. -/
structure ConflictFree (routes : List Route) (schedule : TdmSchedule) : Prop where
  tx : (schedule.entries.map TdmEntry.wireSlot).Nodup
  rx : (schedule.entries.map TdmEntry.rxSlot).Nodup
  delivers : ∀ {β : Type} [DecidableEq β] (value : Nat → String → String → β) {frames : Nat},
    frames ≠ 0 → ∃ report, simulateTdmSchedule value routes schedule frames = .ok report ∧
      ∀ frame < frames, ∀ route ∈ routes, ∀ sink ∈ route.sinks,
        { frame := frame, demand := route.id, sink := sink
          value := value frame route.id route.net } ∈ report.trace

/-- Where two links have one capacity key, they do not deliver on one lane in one slot. -/
def LinksApart (entries : List TdmEntry) : Prop :=
  ∀ a ∈ entries, ∀ b ∈ entries, a.link ≠ b.link → a.capacityKey = b.capacityKey →
    a.lane = b.lane → a.arrivalSlot ≠ b.arrivalSlot

theorem AcceptedSchedule.nodup_rxSlot_iff {platform : Platform} {mode : ScheduleMode}
    {ctx : EntryContext} {ordered : List Route} {state : ProgressState}
    (h : AcceptedSchedule artifact platform schedule ratioPlan mode ctx ordered state) :
    (schedule.entries.map TdmEntry.rxSlot).Nodup ↔ LinksApart schedule.entries := by
  constructor
  · intro hn a ha b hb hln hk hl har
    have hsm : a = b := inj_on_of_nodup_map hn ha hb (Prod.ext hk (Prod.ext har hl))
    exact hln (congrArg TdmEntry.link hsm)
  · intro hap
    refine Nodup.map_on (fun a ha b hb hr => ?_) h.keys_nodup.of_map
    have hk : a.capacityKey = b.capacityKey := congrArg Prod.fst hr
    have har : a.arrivalSlot = b.arrivalSlot := congrArg (fun r => r.2.1) hr
    have hl : a.lane = b.lane := congrArg (fun r => r.2.2) hr
    by_cases hln : a.link = b.link
    · -- one link takes equally long, so the two left in one slot
      have hlt := h.latency_eq ha hb hln hk hl
      have hsl : a.slot = b.slot := by omega
      exact inj_on_of_nodup_map h.wires_nodup ha hb (Prod.ext hk (Prod.ext hsl hl))
    · exact absurd har (hap a ha b hb hln hk hl)

/-- **An accepted schedule is free of conflicts and delivers every value, exactly when no two links
of one capacity key deliver on one lane in one slot.** -/
theorem schedule_conflictFree_iff {assignment : Assignment} {platform : Platform}
    {artifact : RoutesArtifact} {routesSummary : RoutesSummary}
    (hroutes : validateSystemRoutes assignment platform artifact = .ok routesSummary)
    {contract : Option RouteContract} {digests : Digests} {schedule : TdmSchedule}
    {ratioPlan : Option RatioPlan} {summary : ScheduleSummary}
    (hschedule : validateTdmSchedule digests (artifact.hydrate contract) platform schedule
      ratioPlan = .ok summary) :
    ConflictFree (artifact.hydrate contract).routes schedule ↔ LinksApart schedule.entries := by
  obtain ⟨constraints, graph, totals, ha⟩ := validateSystemRoutes_eq_ok hroutes
  have hnets : ((artifact.hydrate contract).routes.map Route.net).Nodup := ha.nets_nodup
  obtain ⟨mode, ctx, ordered, state, hs⟩ := validateTdmSchedule_eq_ok hnets hschedule
  constructor
  · intro hfree
    exact hs.nodup_rxSlot_iff.mp hfree.rx
  · intro hapart
    refine ⟨hs.wires_nodup, hs.nodup_rxSlot_iff.mpr hapart, fun value frames hframes => ?_⟩
    exact simulateTdmSchedule_ok ha.ids_nodup hs.storeAndForward
      (hs.sinksReached fun route hroute => (ha.route route hroute).source_not_sink) value hframes

/-! ## two links of one capacity key -/

/-- The links `a` from `b:c` and `a:b` from `c` to `d` have one capacity key. -/
def aliasedBoard : Platform :=
  { name := "aliased"
    fpgas := [⟨"b:c"⟩, ⟨"c"⟩, ⟨"d"⟩]
    links := [oneLaneLink "a" "b:c" "d" 1 (by decide), oneLaneLink "a:b" "c" "d" 2 (by decide)]
    fpgas_ne_nil := by decide
    fpga_ids_nodup := by decide
    link_ids_nodup := by decide
    endpoints_known := by decide }

def aliasedNets : Assignment :=
  { platform := "aliased"
    cutNets := [("n0", "c"), ("n1", "b:c")].map fun n =>
      { net := n.1, sourceFpgas := [n.2], sinkFpgas := ["d"] } }

def aliasedEdges : List TreeEdge := [⟨"a:b", "c", "d"⟩, ⟨"a", "b:c", "d"⟩]

def aliasedDemands : List ((String × String) × TreeEdge) :=
  [("d000000", "n0"), ("d000001", "n1")].zip aliasedEdges

def aliasedRoutes : RoutesArtifact :=
  { constraints := some { schema := some SYSTEM_ROUTE_CONSTRAINTS_SCHEMA, frameSlots := some 8 }
    demands := aliasedDemands.map fun d =>
      { id := d.1.1, net := d.1.2, source := d.2.source, sinks := ["d"], widthBits := 1 }
    routes := aliasedDemands.map fun d =>
      { id := d.1.1, net := d.1.2, source := d.2.source, sinks := ["d"], widthBits := 1
        treeEdges := [d.2], maxLatencyCycles := if d.2.link = "a" then 1 else 2 }
    linkUtilization := [{ capacity := { key := "a:b:c->d", link := "a", direction := "b:c->d"
                                        capacityBits := 8, bank := none }
                          usedBits := 2, utilization := 1 / 4 }]
    metrics := { demands := 2, routedSinks := 2, treeEdges := 2, maxLinkUtilization := 1 / 4
                 totalLinkBitHops := 2 } }

/-- The first net leaves in slot `0`, the second in `slot`. -/
def aliasedSchedule (slot : Nat) : TdmSchedule :=
  let arrival (edge : TreeEdge) : Int := if edge.link = "a" then slot + 1 else 2
  { platform := "aliased"
    provider := TDM_BASELINE_PROVIDER
    transportSemantics := "registered-boundary"
    routeConstraints := aliasedRoutes.constraints
    routes := routeMetadata true aliasedRoutes.routes
    entries := aliasedDemands.map fun d =>
      { id := "s" ++ d.1.1, demand := d.1.1, net := d.1.2, hop := 0, link := d.2.link
        source := d.2.source, sink := d.2.sink, capacityKey := "a:b:c->d"
        slot := if d.2.link = "a" then slot else 0
        lane := 0, readySlot := 0, arrivalSlot := arrival d.2 }
    demandCompletions := aliasedDemands.map fun d =>
      { demand := d.1.1, net := d.1.2, completionSlot := arrival d.2, sourceReadySlot := some 0
        transportRound := some 0, sinkArrivalSlots := none }
    domainSchedules :=
      [{ key := "a:b:c->d", link := "a", direction := "b:c->d", lanes := 1, frameSlots := 8
         scheduledBitHops := 2, capacityBitHops := 8, utilization := 1 / 4 }]
    metrics := { demands := 2, scheduledBitHops := 2, frameSlots := 8
                 completionSlot := max 2 (slot + 1), maxDomainUtilization := 1 / 4, collisions := 0
                 transportRounds := some 1, roundBarriers := some 0, maxTransportRound := some 0
                 combinationalSettleSlots := some 1 } }

/-- In slot one the shorter link catches up with the longer one. -/
theorem aliasedSchedule_conflict :
    (∃ summary, validateSystemRoutes aliasedNets aliasedBoard aliasedRoutes = .ok summary) ∧
      (∃ summary, validateTdmSchedule Digests.unused aliasedRoutes aliasedBoard
        (aliasedSchedule 1) none = .ok summary) ∧
      ¬ ((aliasedSchedule 1).entries.map TdmEntry.rxSlot).Nodup ∧
      ¬ ConflictFree aliasedRoutes.routes (aliasedSchedule 1) := by
  have hrx : ¬ ((aliasedSchedule 1).entries.map TdmEntry.rxSlot).Nodup := by decide +kernel
  exact ⟨exists_of_isOk (by decide +kernel), exists_of_isOk (by decide +kernel), hrx,
    fun hfree => hrx hfree.rx⟩

/-- In slot three it comes after. -/
theorem aliasedSchedule_conflictFree : ConflictFree aliasedRoutes.routes (aliasedSchedule 3) := by
  obtain ⟨routesSummary, hroutes⟩ : ∃ summary,
      validateSystemRoutes aliasedNets aliasedBoard aliasedRoutes = .ok summary :=
    exists_of_isOk (by decide +kernel)
  obtain ⟨summary, hschedule⟩ : ∃ summary,
      validateTdmSchedule Digests.unused (aliasedRoutes.hydrate none) aliasedBoard
        (aliasedSchedule 3) none = .ok summary :=
    exists_of_isOk (by decide +kernel)
  refine (schedule_conflictFree_iff hroutes hschedule).mpr ?_
  unfold LinksApart
  decide +kernel

end EmuFlow.Tdm
