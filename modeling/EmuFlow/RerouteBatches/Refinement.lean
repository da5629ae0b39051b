import EmuFlow.RerouteBatches.Native

/-!
# Rerouting the batches

`propose_reroute` and `run_batched_refinement` of `native/tlr_router.cpp`. The paths of a batch are
rerouted from one state, each on its own copy; the proposals are then applied in the order of their
paths, each on trial in a small model and all at once in a large one. A trial that is no
improvement restores the routes and the usage. What the route generators find, and how two routings
compare, is left open.
-/

namespace EmuFlow.RerouteBatches

open Check SortedSet Routing ConflictBatches List

def SINGLE_TRIAL_LIMIT : Nat := 4096

/-! ## routes and usage -/

structure Route where
  arcs : List Nat
  maxDelayNs : ℚ
  deriving DecidableEq

/-- `routes_` and `usage_`. -/
structure RoutingState where
  routes : List Route
  usage : Nat → Int

def demandWidth (model : NativeModel) (demand : Nat) : Int :=
  ((model.demands[demand]?).map fun d => (d.widthBits : Int)).getD 0

def arcsIn (model : NativeModel) (route : Route) (domain : Nat) : Nat :=
  route.arcs.countP fun arc => (model.arcs[arc]?).map NativeArc.capacityDomain = some domain

/-- `usage_[domain] += signed_width` for the domain of an arc. -/
def addArcUsage (model : NativeModel) (signedWidth : Int) (usage : Nat → Int) (arc : Nat) :
    Nat → Int :=
  match model.arcs[arc]? with
  | none => usage
  | some arc =>
    Function.update usage arc.capacityDomain (usage arc.capacityDomain + signedWidth)

def addUsage (model : NativeModel) (usage : Nat → Int) (route : Route) (signedWidth : Int) :
    Nat → Int :=
  route.arcs.foldl (addArcUsage model signedWidth) usage

def recomputedUsage (model : NativeModel) (routes : List Route) : Nat → Int :=
  routes.zipIdx.foldl (fun usage item => addUsage model usage item.1 (demandWidth model item.2))
    fun _ => 0

def RoutingState.Exact (model : NativeModel) (state : RoutingState) : Prop :=
  state.usage = recomputedUsage model state.routes

def replaceRoute (model : NativeModel) (state : RoutingState) (replacement : Nat × Route) :
    RoutingState :=
  match state.routes[replacement.1]? with
  | none => state
  | some old =>
    { routes := state.routes.set replacement.1 replacement.2
      usage := addUsage model
        (addUsage model state.usage old (-demandWidth model replacement.1))
        replacement.2 (demandWidth model replacement.1) }

/-! ## proposals -/

/-- What the router chooses by: the routes it finds for a demand, whether a usage is legal, and the
objective. -/
structure Router (ω : Type) where
  routeForGenerator : RoutingState → Nat → List Nat → Option Route
  capacityLegal : (Nat → Int) → Bool
  objective : RoutingState → ω
  better : ω → ω → Bool

/-- `RerouteProposal`. -/
structure RerouteProposal where
  path : Nat
  generated : Bool
  replacements : List (Nat × Route)
  deriving DecidableEq

/-- `affected`: the demands of a path, sorted and without repetition. -/
def affectedDemands (model : NativeModel) (path : Nat) : List Nat :=
  sortedSet ((model.paths.map NativePath.demands).getD path [])

def rerouteAffected {ω : Type} (model : NativeModel) (router : Router ω) (discouraged : List Nat) :
    List Nat → RoutingState → List (Nat × Route) → Bool × RoutingState × List (Nat × Route)
  | [], worker, replacements => (true, worker, replacements)
  | demand :: rest, worker, replacements =>
    match router.routeForGenerator worker demand discouraged with
    | none => (false, worker, replacements)
    | some route =>
      rerouteAffected model router discouraged rest
        { routes := worker.routes.set demand route
          usage := addUsage model worker.usage route (demandWidth model demand) }
        (replacements ++ [(demand, route)])

def proposeReroute {ω : Type} (model : NativeModel) (router : Router ω) (state : RoutingState)
    (path : Nat) : RerouteProposal :=
  let affected := affectedDemands model path
  let routeOf := fun demand => state.routes.getD demand { arcs := [], maxDelayNs := 0 }
  let discouraged := sortedSet (affected.flatMap fun demand => (routeOf demand).arcs)
  let withdrawn := affected.foldl
    (fun usage demand => addUsage model usage (routeOf demand) (-demandWidth model demand))
    state.usage
  match rerouteAffected model router discouraged affected { state with usage := withdrawn } [] with
  | (found, worker, replacements) =>
    { path := path
      generated := found && router.capacityLegal worker.usage
      replacements := replacements }

def applyProposal (model : NativeModel) (state : RoutingState) (proposal : RerouteProposal) :
    RoutingState :=
  if proposal.generated then proposal.replacements.foldl (replaceRoute model) state else state

/-! ## refinement -/

/-- The routes with the best objective, `accepted_reroutes_` and `rolled_back_reroutes_`. -/
structure Refinement (ω : Type) where
  state : RoutingState
  best : ω
  acceptedReroutes : Nat
  rolledBackReroutes : Nat

variable {ω : Type}

def decideTrial (router : Router ω) (run : Refinement ω) (candidate : RoutingState)
    (generated : Nat)
    (proposals : Nat) : Refinement ω :=
  if generated ≠ 0 ∧ router.capacityLegal candidate.usage ∧
      router.better (router.objective candidate) run.best then
    { state := candidate
      best := router.objective candidate
      acceptedReroutes := run.acceptedReroutes + generated
      rolledBackReroutes := run.rolledBackReroutes }
  else { run with rolledBackReroutes := run.rolledBackReroutes + proposals }

def tryProposal (model : NativeModel) (router : Router ω) (run : Refinement ω)
    (proposal : RerouteProposal) : Refinement ω :=
  decideTrial router run (applyProposal model run.state proposal)
    (if proposal.generated then 1 else 0) 1

def batchProposals (model : NativeModel) (router : Router ω) (state : RoutingState)
    (batch : List (Task Nat (Nat ⊕ Nat))) : List RerouteProposal :=
  sortedBy RerouteProposal.path (batch.map fun item => proposeReroute model router state item.id)

def refineBatch (model : NativeModel) (router : Router ω) (run : Refinement ω)
    (batch : List (Task Nat (Nat ⊕ Nat))) : Refinement ω :=
  let proposals := batchProposals model router run.state batch
  if model.paths.length ≤ SINGLE_TRIAL_LIMIT then
    proposals.foldl (tryProposal model router) run
  else
    decideTrial router run (proposals.foldl (applyProposal model) run.state)
      (proposals.countP RerouteProposal.generated) proposals.length

def refineBatches (model : NativeModel) (columns : Columns model) (router : Router ω)
    (start : RoutingState) (batches : Nat) : Refinement ω :=
  ((buildRerouteBatches model columns).take batches).foldl (refineBatch model router)
    { state := start
      best := router.objective start
      acceptedReroutes := 0
      rolledBackReroutes := 0 }

def runBatchedRefinement (model : NativeModel) (columns : Columns model) (router : Router ω)
    (rerouteRounds : Int) (start : RoutingState) : Refinement ω :=
  refineBatches model columns router start
    (min rerouteRounds (buildRerouteBatches model columns).length).toNat

/-! ## usage -/

theorem addUsage_apply (model : NativeModel) (usage : Nat → Int) (route : Route) (width : Int)
    (domain : Nat) :
    addUsage model usage route width domain = usage domain + arcsIn model route domain * width := by
  unfold addUsage arcsIn
  induction route.arcs generalizing usage with
  | nil => simp
  | cons arc rest ih =>
    rw [foldl_cons, ih, countP_cons]
    unfold addArcUsage
    cases harc : model.arcs[arc]? with
    | none => simp
    | some found =>
      by_cases hd : found.capacityDomain = domain
      · subst hd
        simp only [Function.update_self, Option.map_some, decide_true, if_true]
        push_cast
        ring
      · simp [Function.update_of_ne (Ne.symm hd), hd]

theorem recomputedUsage_apply (model : NativeModel) (routes : List Route) (domain : Nat) :
    recomputedUsage model routes domain = (routes.mapIdx fun d route =>
        (arcsIn model route domain * demandWidth model d : Int)).sum := by
  have hf : ∀ (items : List (Route × Nat)) (usage : Nat → Int),
      items.foldl (fun usage item => addUsage model usage item.1 (demandWidth model item.2))
        usage domain = usage domain + (items.map fun item =>
          (arcsIn model item.1 domain * demandWidth model item.2 : Int)).sum := by
    intro items
    induction items with
    | nil => simp
    | cons item rest ih =>
      intro usage
      rw [foldl_cons, ih, addUsage_apply, map_cons, sum_cons, add_assoc]
  rw [recomputedUsage, hf, zero_add, mapIdx_eq_zipIdx_map]

variable {model : NativeModel} {state : RoutingState}

theorem exact_replaceRoute (h : state.Exact model)
    (replacement : Nat × Route) : (replaceRoute model state replacement).Exact model := by
  unfold replaceRoute
  cases ho : state.routes[replacement.1]? with
  | none => exact h
  | some old =>
    obtain ⟨hlt, hg⟩ := List.getElem?_eq_some_iff.mp ho
    funext domain
    show addUsage model _ _ _ domain = recomputedUsage model (state.routes.set _ _) domain
    rw [recomputedUsage_apply, mapIdx_set, sum_set', addUsage_apply, addUsage_apply, h,
      recomputedUsage_apply, dif_pos (by simpa using hlt), getElem_mapIdx, hg]
    ring

theorem exact_applyProposal (h : state.Exact model)
    (proposal : RerouteProposal) : (applyProposal model state proposal).Exact model := by
  have hrn : ∀ (replacements : List (Nat × Route)) (state : RoutingState), state.Exact model →
      (replacements.foldl (replaceRoute model) state).Exact model := by
    intro replacements
    induction replacements with
    | nil => exact fun _ h => h
    | cons replacement rest ih => exact fun _ h => ih _ (exact_replaceRoute h replacement)
  unfold applyProposal
  split
  · exact hrn _ _ h
  · exact h

theorem decideTrial_state (router : Router ω) (run : Refinement ω) (candidate : RoutingState)
    (generated proposals : Nat) :
    (decideTrial router run candidate generated proposals).state = candidate ∨
      (decideTrial router run candidate generated proposals).state = run.state := by
  unfold decideTrial
  split
  · exact .inl rfl
  · exact .inr rfl

variable {router : Router ω}

theorem exact_decideTrial {run : Refinement ω}
    {candidate : RoutingState} (h : run.state.Exact model) (hc : candidate.Exact model)
    (generated proposals : Nat) :
    (decideTrial router run candidate generated proposals).state.Exact model := by
  rcases decideTrial_state router run candidate generated proposals with heq | heq
  · rwa [heq]
  · rwa [heq]

theorem exact_refineBatch {run : Refinement ω}
    (h : run.state.Exact model) (batch : List (Task Nat (Nat ⊕ Nat))) :
    (refineBatch model router run batch).state.Exact model := by
  unfold refineBatch
  dsimp only
  generalize batchProposals model router run.state batch = proposals
  split
  · -- each proposal on trial
    induction proposals generalizing run with
    | nil => exact h
    | cons proposal rest ih => exact ih (exact_decideTrial h (exact_applyProposal h proposal) _ _)
  · have ha : ∀ (proposals : List RerouteProposal) (state : RoutingState), state.Exact model →
        (proposals.foldl (applyProposal model) state).Exact model := by
      intro proposals
      induction proposals with
      | nil => exact fun _ h => h
      | cons proposal rest ih => exact fun _ h => ih _ (exact_applyProposal h proposal)
    exact exact_decideTrial h (ha proposals run.state h) _ _

theorem exact_refineBatches (columns : Columns model) (router : Router ω)
    {start : RoutingState} (h : start.Exact model) (batches : Nat) :
    (refineBatches model columns router start batches).state.Exact model := by
  have hrun : ∀ (batches : List (List (Task Nat (Nat ⊕ Nat)))) (run : Refinement ω),
      run.state.Exact model → (batches.foldl (refineBatch model router) run).state.Exact model := by
    intro batches
    induction batches with
    | nil => exact fun _ h => h
    | cons batch rest ih => exact fun _ h => ih _ (exact_refineBatch h batch)
  exact hrun _ { state := start
                 best := router.objective start
                 acceptedReroutes := 0
                 rolledBackReroutes := 0 } h

/-! ## the order of the proposals -/

theorem replaceRoute_comm (model : NativeModel) (state : RoutingState)
    {first second : Nat × Route} (hne : first.1 ≠ second.1) :
    replaceRoute model (replaceRoute model state first) second =
      replaceRoute model (replaceRoute model state second) first := by
  unfold replaceRoute
  cases hf : state.routes[first.1]? with
  | none =>
    cases hs : state.routes[second.1]? with
    | none => simp [hf]
    | some old => simp [List.getElem?_set_ne hne.symm, hf]
  | some old =>
    cases hs : state.routes[second.1]? with
    | none => simp [List.getElem?_set_ne hne, hf, hs]
    | some old' =>
      simp only [List.getElem?_set_ne hne, List.getElem?_set_ne hne.symm, hf, hs,
        RoutingState.mk.injEq]
      refine ⟨(set_comm _ _ hne), ?_⟩
      funext domain
      simp only [addUsage_apply]
      ring

variable {replacement : Nat × Route}

theorem foldl_replaceRoute_comm (model : NativeModel) (replacements : List (Nat × Route))
    (hne : ∀ other ∈ replacements, other.1 ≠ replacement.1)
    (state : RoutingState) :
    replaceRoute model (replacements.foldl (replaceRoute model) state) replacement =
      replacements.foldl (replaceRoute model) (replaceRoute model state replacement) := by
  induction replacements generalizing state with
  | nil => rfl
  | cons other rest ih =>
    rw [foldl_cons, foldl_cons, ih fun o ho => hne o (mem_cons_of_mem _ ho),
      replaceRoute_comm model state (hne other mem_cons_self)]

def ReplaceApart (first second : RerouteProposal) : Prop :=
  ∀ r ∈ first.replacements, ∀ q ∈ second.replacements, r.1 ≠ q.1

instance : Std.Symm ReplaceApart :=
  ⟨fun _ _ h r hr q hq heq => h q hq r hr heq.symm⟩

theorem applyProposal_comm (model : NativeModel) {first second : RerouteProposal}
    (h : ReplaceApart first second) (state : RoutingState) :
    applyProposal model (applyProposal model state first) second =
      applyProposal model (applyProposal model state second) first := by
  have hrn : ∀ (replacements : List (Nat × Route)) (state : RoutingState),
      (∀ r ∈ first.replacements, ∀ q ∈ replacements, r.1 ≠ q.1) →
      replacements.foldl (replaceRoute model)
          (first.replacements.foldl (replaceRoute model) state) =
        first.replacements.foldl (replaceRoute model)
          (replacements.foldl (replaceRoute model) state) := by
    intro replacements
    induction replacements with
    | nil => exact fun _ _ => rfl
    | cons q rest ih =>
      intro state ha
      rw [foldl_cons, foldl_cons,
        foldl_replaceRoute_comm model _ (fun r hr => ha r hr q mem_cons_self),
        ih _ fun r hr p hp => ha r hr p (mem_cons_of_mem _ hp)]
  unfold applyProposal
  by_cases hf : first.generated <;> by_cases hs : second.generated
  · simp only [hf, hs, if_true]
    exact hrn _ _ h
  all_goals simp [hf, hs]

theorem foldl_applyProposal_perm (model : NativeModel) {order proposals : List RerouteProposal}
    (hp : order.Perm proposals) (ha : proposals.Pairwise ReplaceApart)
    (state : RoutingState) :
    order.foldl (applyProposal model) state = proposals.foldl (applyProposal model) state := by
  refine hp.foldl_eq' (fun first hf second hs state => ?_) state
  by_cases heq : first = second
  · rw [heq]
  · exact applyProposal_comm model
      (ha.forall (hp.subset hf) (hp.subset hs) heq) state

theorem mem_replacements
    {path : Nat}
    (h : replacement ∈ (proposeReroute model router state path).replacements) :
    replacement.1 ∈ affectedDemands model path := by
  have hrn : ∀ (discouraged demands : List Nat) (worker : RoutingState)
      (replacements : List (Nat × Route)),
      (∀ r ∈ replacements, r.1 ∈ affectedDemands model path) →
      (∀ demand ∈ demands, demand ∈ affectedDemands model path) →
      ∀ r ∈ (rerouteAffected model router discouraged demands worker replacements).2.2,
        r.1 ∈ affectedDemands model path := by
    intro discouraged demands
    induction demands with
    | nil => exact fun _ _ hr _ => hr
    | cons demand rest ih =>
      intro worker replacements hr hd
      unfold rerouteAffected
      cases router.routeForGenerator worker demand discouraged with
      | none => exact hr
      | some route =>
        refine ih _ _ (fun r hmem => ?_) fun d hmem => hd d (mem_cons_of_mem _ hmem)
        rcases List.mem_append.mp hmem with hmem | hmem
        · exact hr r hmem
        · obtain rfl := mem_singleton.mp hmem
          exact hd demand mem_cons_self
  exact hrn _ _ _ [] (by simp) (fun _ h => h) _ h

/-! ## the batches -/

def routedPaths (model : NativeModel) : List Nat :=
  (List.range model.paths.length).filter fun path => affectedDemands model path ≠ []

/-- Two items of work share no demand, no timing path and no capacity domain. -/
structure Apart (model : NativeModel) (first second : Task Nat (Nat ⊕ Nat)) : Prop where
  demands : ∀ demand ∈ affectedDemands model first.id, demand ∉ affectedDemands model second.id
  timingPaths : ∀ path, .inr path ∈ first.uses → .inr path ∉ second.uses
  domains : ∀ domain, .inl domain ∈ first.uses → .inl domain ∉ second.uses

theorem mem_affectedDemands {path demand : Nat} : demand ∈ affectedDemands model path ↔
      demand ∈ (model.paths.map NativePath.demands).getD path [] := mem_sortedSet

theorem mem_rerouteWork (columns : Columns model) {path other demand : Nat}
    (hp : demand ∈ affectedDemands model path) (ho : demand ∈ affectedDemands model other)
    (hlt : path < model.paths.length) : .inr path ∈ (rerouteWork model columns other).uses := by
  refine mem_append_right _ (mem_map_of_mem (mem_flatMap.mpr ⟨demand, ho, ?_⟩))
  refine mem_filter.mpr ⟨mem_range.mpr (by simpa using hlt), ?_⟩
  simpa using mem_affectedDemands.mp hp

theorem flatten_buildRerouteBatches (model : NativeModel) (columns : Columns model) :
    (buildRerouteBatches model columns).flatten.Perm
      ((routedPaths model).map (rerouteWork model columns)) := by
  refine (flatten_batchesOf FIRST_FIT_LIMIT _).trans (Perm.map _ ?_)
  have ho : (rerouteOrder model).Perm (List.range model.paths.length) := perm_insertionSort _ _
  refine (ho.filter _).trans (Perm.of_eq (filter_congr fun path _ => ?_))
  have hn : affectedDemands model path = [] ↔
      (model.paths[path]?.map NativePath.demands).getD [] = [] := by
    rw [← List.getElem?_map, ← getD_eq_getElem?_getD]
    simp only [eq_nil_iff_forall_not_mem, mem_affectedDemands]
  simp [hn]

variable {batch : List (Task Nat (Nat ⊕ Nat))}

theorem mem_buildRerouteBatches {columns : Columns model}
    (hb : batch ∈ buildRerouteBatches model columns)
    {item : Task Nat (Nat ⊕ Nat)} (hi : item ∈ batch) :
    item.id < model.paths.length ∧ item = rerouteWork model columns item.id := by
  have hmem := (flatten_buildRerouteBatches model columns).subset
    (mem_flatten.mpr ⟨batch, hb, hi⟩)
  obtain ⟨path, hp, rfl⟩ := mem_map.mp hmem
  exact ⟨mem_range.mp (mem_filter.mp hp).1, rfl⟩

theorem apart_of_batch {columns : Columns model}
    (hb : batch ∈ buildRerouteBatches model columns) :
    batch.Pairwise (Apart model) := by
  have hsp : Separate batch := batchesOf_separate _ _ batch hb
  refine hsp.imp_of_mem fun {first second} hf hs hd => ?_
  obtain ⟨hlt, heq⟩ := mem_buildRerouteBatches hb hf
  obtain ⟨-, heq'⟩ := mem_buildRerouteBatches hb hs
  refine ⟨fun d hdm hsh => ?_, fun _ h h' => hd h h', fun _ h h' =>
    hd h h'⟩
  -- both would list the first path
  have hf' := mem_rerouteWork columns hdm hdm hlt
  have hs' := mem_rerouteWork columns hdm hsh hlt
  rw [← heq] at hf'
  rw [← heq'] at hs'
  exact hd hf' hs'

theorem pairwise_proposals {columns : Columns model} (router : Router ω) (state : RoutingState)
    (hb : batch ∈ buildRerouteBatches model columns) :
    (batchProposals model router state batch).Pairwise ReplaceApart := by
  refine ((sortedBy_perm _ _).pairwise_iff fun {a b} h => Std.Symm.symm a b h).mpr ?_
  refine pairwise_map.mpr ((apart_of_batch hb).imp fun ha r hr q hq heq => ?_)
  exact ha.demands _ (mem_replacements hr) (heq ▸ mem_replacements hq)

/-- **The batches are conflict-free and the refinement keeps the usage.** Every path with demands is
in one batch; two items of a batch share no demand, timing path or capacity domain; the proposals of
a batch give the same routes and usage in any order; and after any number of batches the usage is
the sum of the routes. -/
theorem buildRerouteBatches_sound (model : NativeModel) (columns : Columns model)
    (router : Router ω) :
    ((buildRerouteBatches model columns).flatten.map Task.id).Perm (routedPaths model) ∧
      (∀ batch ∈ buildRerouteBatches model columns, batch.Pairwise (Apart model) ∧
        ∀ start state : RoutingState, ∀ order : List RerouteProposal,
          order.Perm (batchProposals model router start batch) →
          order.foldl (applyProposal model) state =
            (batchProposals model router start batch).foldl (applyProposal model) state) ∧
      ∀ start : RoutingState, start.Exact model →
        (∀ batches, (refineBatches model columns router start batches).state.Exact model) ∧
          ∀ rounds, (runBatchedRefinement model columns router rounds start).state.Exact model := by
  refine ⟨?_, fun batch hbatch => ⟨apart_of_batch hbatch, fun start state order hperm => ?_⟩,
    fun start hstart => ⟨exact_refineBatches columns router hstart, fun rounds =>
      exact_refineBatches columns router hstart _⟩⟩
  · have hids := (flatten_buildRerouteBatches model columns).map Task.id
    rw [map_map] at hids
    exact hids.trans (Perm.of_eq (map_id _))
  · exact foldl_applyProposal_perm model hperm (pairwise_proposals router start hbatch) state

def parallelModel : NativeModel :=
  { demands := [("d000000", "n0"), ("d000001", "n1")].map fun d =>
      { id := d.1, net := d.2, source := "fa", sinks := ["fb"], widthBits := 1 }
    layered := false
    arcKeys := [(none, "l0", "fa", "fb"), (none, "l1", "fa", "fb")]
    arcs := [⟨(none, "fa"), (none, "fb"), 0, none, 0⟩, ⟨(none, "fa"), (none, "fb"), 1, none, 0⟩]
    paths := [⟨1, 0, [0]⟩, ⟨1, 1, [1, 1]⟩]
    normalization :=
      { positiveSlackScaleNs := 1, negativeSlackScaleNs := 1, maxClockPeriodNs := 1 } }

def parallelColumns : Columns parallelModel :=
  { generated := fun _ => false
    routes := fun _ => []
    final := [[], []]
    demands_ne_nil := cons_ne_nil _ _
    routes_length := fun _ => rfl
    final_length := rfl
    routes_grown := fun _ index demand route _ hroute => by simp at hroute
    final_grown := fun index demand route _ hroute => by
      have hmem := mem_of_getElem? hroute
      simp only [mem_cons, not_mem_nil, or_false, or_self] at hmem
      subst hmem
      exact fun arc harc => absurd harc (not_mem_nil) }

def secondArcRouter : Router Int :=
  { routeForGenerator := fun _ _ _ => some { arcs := [1], maxDelayNs := 1 }
    capacityLegal := fun usage => usage 1 ≤ 2
    objective := fun state => state.usage 0
    better := fun left right => left < right }

def firstArcRoutes : List Route := List.replicate 2 { arcs := [0], maxDelayNs := 1 }

/-- Both paths are rerouted in one batch, and the usage follows. -/
theorem parallelModel_refined :
    let run := runBatchedRefinement parallelModel parallelColumns secondArcRouter 8
      { routes := firstArcRoutes, usage := recomputedUsage parallelModel firstArcRoutes }
    batchIds (buildRerouteBatches parallelModel parallelColumns) = [[0, 1]] ∧
      run.state.Exact parallelModel ∧ run.acceptedReroutes = 2 ∧
      run.state.usage 0 = 0 ∧ run.state.usage 1 = 2 := by
  refine ⟨by decide +kernel, ?_, by decide +kernel, by decide +kernel, by decide +kernel⟩
  have hstart : RoutingState.Exact parallelModel
      { routes := firstArcRoutes, usage := recomputedUsage parallelModel firstArcRoutes } := rfl
  exact ((buildRerouteBatches_sound parallelModel parallelColumns secondArcRouter).2.2 _ hstart).2 8

end EmuFlow.RerouteBatches
