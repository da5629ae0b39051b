import EmuFlow.Lib.ReadyQueue
import EmuFlow.Tdm.Readiness
import EmuFlow.TdmRatio.Validate

/-!
# The order in which routes are scheduled

`_round_order` and `_exact_dependency_order` of `emuflow/tdm.py`: by transport round, or, under an
exact contract, along the dependency graph of the cuts.
-/

namespace EmuFlow.Tdm

open Check SortedSet Routing TdmRatio List Keyed ReadyQueue

/-! ## transport rounds -/

def plannedRatios (plan : RatioPlan) (route : Route) (hops : List (Nat × TreeEdge)) :
    Result (List ℚ) :=
  hops.mapM fun hop => do
    let planned ← lookupOrRaise hop.2.link (plan.findHop (hopKey route.id hop.2))
    return planned.continuousRatio

/-- `-max(depth)`. -/
def negDepth (hops : List (Nat × TreeEdge)) : Int := -(maxOrZero (hops.map Prod.fst) : Nat)

abbrev RoundKey := Int ×ₗ WithTop ℚ ×ₗ Int ×ₗ String ×ₗ String

def leastRatio (plan : Option RatioPlan) (route : Route) (hops : List (Nat × TreeEdge)) :
    Result (WithTop ℚ) :=
  match plan with
  | none => .ok ((0 : ℚ) : WithTop ℚ)
  | some plan => do
    let ratios ← plannedRatios plan route hops
    return ratios.min?

def roundKey (plan : Option RatioPlan) (route : Route) : Result RoundKey := do
  let hops ← routeHops route
  let ratio ← leastRatio plan route hops
  return lex route.round (lex ratio (lex (negDepth hops) (lex route.net route.id)))

def keyedRoute (plan : Option RatioPlan) (route : Route) : Result (RoundKey × Route) := do
  let key ← roundKey plan route
  return (key, route)

/-- `_round_order`: the routes in order and the active rounds. -/
def roundOrder (routes : List Route) (plan : Option RatioPlan) :
    Result (List Route × List Int) := do
  forM routes fun route => raiseIf (route.round < 0)
    (.validation "TDM route %r.transport_round must be a non-negative integer" [route.id])
  let keyed ← routes.mapM (keyedRoute plan)
  return ((sortedBy Prod.fst keyed).map Prod.snd, sortedSet (routes.map Route.round))

variable {plan : Option RatioPlan}

theorem keyedRoute_eq_ok {route : Route} {keyed : RoundKey × Route}
    (h : keyedRoute plan route = .ok keyed) :
    keyed.2 = route ∧ (ofLex keyed.1).1 = route.round ∧ ∃ hops, routeHops route = .ok hops := by
  obtain ⟨key, hk, h⟩ := bind_eq_ok.mp h
  rw [← Except.ok.inj h]
  obtain ⟨hops, hh, hk⟩ := bind_eq_ok.mp hk
  obtain ⟨ratio, -, hk⟩ := bind_eq_ok.mp hk
  rw [← Except.ok.inj hk]
  exact ⟨rfl, rfl, hops, hh⟩

variable {routes ordered : List Route}

theorem roundOrder_spec
    {rounds : List Int} (h : roundOrder routes plan = .ok (ordered, rounds)) :
    ordered.Perm routes ∧ ordered.Pairwise (fun a b => a.round ≤ b.round) ∧
      rounds = sortedSet (routes.map Route.round) ∧ (∀ route ∈ routes, 0 ≤ route.round) ∧
      ∀ route ∈ routes, ∃ hops, routeHops route = .ok hops := by
  unfold roundOrder at h
  obtain ⟨⟨⟩, hrn, h⟩ := bind_eq_ok.mp h
  obtain ⟨keyed, hky, h⟩ := bind_eq_ok.mp h
  cases h
  have hs : keyed.map Prod.snd = routes.map id :=
    map_of_mapM (fun _ _ hok => (keyedRoute_eq_ok hok).1) hky
  rw [map_id] at hs
  refine ⟨?_, ?_, rfl, fun route hrt => ?_, fun route hrt => ?_⟩
  · rw [← hs]
    exact (sortedBy_perm Prod.fst keyed).map Prod.snd
  · rw [pairwise_map]
    have hke : ∀ x ∈ keyed, x.2.round = (ofLex x.1).1 := by
      intro x hx
      obtain ⟨route, -, hok⟩ := exists_of_mem_mapM hky hx
      obtain ⟨hr, hk, -⟩ := keyedRoute_eq_ok hok
      rw [hr, hk]
    refine (pairwise_sortedBy Prod.fst keyed).imp_of_mem fun {a b} ha hb hab => ?_
    rw [hke a (mem_sortedBy.mp ha), hke b (mem_sortedBy.mp hb)]
    rcases Prod.Lex.le_iff.mp hab with hlt | ⟨heq, -⟩
    · exact hlt.le
    · exact heq.le
  · exact not_lt.mp (raiseIf_eq_ok.mp (forM_eq_ok.mp hrn route hrt))
  · obtain ⟨x, -, hok⟩ := mem_mapM_of_mem hky hrt
    exact (keyedRoute_eq_ok hok).2.2

/-! ## the dependency graph of exact cuts -/

/-- A node of `exact_nodes`. -/
structure ExactNode where
  net : String
  dependencyLevel : Option Int
  predecessorCutNets : Option (List String)

/-- `list(node.get("predecessor_cut_nets", []))`. -/
def ExactNode.predecessors (node : ExactNode) : List String := node.predecessorCutNets.getD []

def routeNode (route : Route) : ExactNode :=
  { net := route.net
    dependencyLevel := route.dependencyLevel
    predecessorCutNets := route.predecessorCutNets }

def cutNode (node : CutNode) : ExactNode :=
  { net := node.net
    dependencyLevel := node.dependencyLevel
    predecessorCutNets := node.predecessorCutNets }

/-- `successors[net]`, sorted. -/
def exactSuccessors (nodes : List ExactNode) (net : String) : List String :=
  sorted (nodes.flatMap fun node => List.replicate (node.predecessors.count net) node.net)

def exactIndegree (nodes : List ExactNode) (net : String) : Int :=
  match find ExactNode.net nodes net with
  | some node => node.predecessors.length
  | none => 0

def levelKey (node : ExactNode) : Result ((Int ×ₗ String) × ExactNode) := do
  let level ← lookupOrRaise "dependency_level" node.dependencyLevel
  return (lex level node.net, node)

/-- One turn of the loop that computes `remaining_depth`, deepest level first. -/
def addDepth (remaining : String → Nat) (node : ExactNode) : String → Nat :=
  node.predecessors.foldl
    (fun remaining predecessor net =>
      if net = predecessor then max (remaining net) (remaining node.net + 1) else remaining net)
    remaining

def remainingDepth (nodes : List ExactNode) : Result (String → Nat) := do
  let keyed ← nodes.mapM levelKey
  return ((sortedBy Prod.fst keyed).map Prod.snd).reverse.foldl addDepth fun _ => 0

abbrev ExactPriority := Int ×ₗ ℚ ×ₗ Int ×ₗ String

def leastRatioOrZero (plan : Option RatioPlan) (route : Route) (hops : List (Nat × TreeEdge)) :
    Result ℚ :=
  match plan with
  | none => .ok 0
  | some plan => do
    let ratios ← plannedRatios plan route hops
    return ratios.min?.getD 0

/-- The inner function `priority`. -/
def exactPriority (routes : List Route) (plan : Option RatioPlan) (remaining : String → Nat)
    (net : String) : Result ExactPriority := do
  let route ← lookupOrRaise net (find Route.net routes net)
  let hops ← routeHops route
  let ratio ← leastRatioOrZero plan route hops
  return lex (-(remaining net : Int)) (lex ratio (lex (negDepth hops) net))

def exactDependencyOrder (nodes : List ExactNode) (routes : List Route)
    (plan : Option RatioPlan) : Result (List Route) := do
  raiseIf (¬ (routes.map Route.net).Nodup ∨
      ¬ SameSet (routes.map Route.net) (nodes.map ExactNode.net))
    (ValidationError "cross-layer timing cut coverage does not match routes")
  forM nodes fun node =>
    raiseIf (∃ p ∈ node.predecessors, p ∉ nodes.map ExactNode.net)
      (.validation "cross-layer timing cut %r has unknown predecessors %s" (node.net ::
        sortedSet (node.predecessors.filter fun p => p ∉ nodes.map ExactNode.net)))
  let remaining ← remainingDepth nodes
  let roots := sorted ((nodes.map ExactNode.net).filter fun net => exactIndegree nodes net = 0)
  -- one node more than there are routes is enough to see that the counts differ
  let nets ← run (exactPriority routes plan remaining) (exactSuccessors nodes)
    (routes.length + 1) roots (exactIndegree nodes)
  let ordered ← nets.mapM fun net => lookupOrRaise net (find Route.net routes net)
  raiseIf (ordered.length ≠ routes.length)
    (ValidationError "cross-layer timing dependency graph is cyclic")
  return ordered

variable {nodes : List ExactNode}

theorem count_exactSuccessors (hn : (nodes.map ExactNode.net).Nodup) (a b : String) :
    (exactSuccessors nodes a).count b = if b ∈ nodes.map ExactNode.net then
        (((find ExactNode.net nodes b).map ExactNode.predecessors).getD []).count a
      else 0 := by
  rw [exactSuccessors, sorted, (sortedBy_perm id _).count_eq, count_flatMap]
  induction nodes with
  | nil => rfl
  | cons node nodes ih =>
    rw [map_cons, nodup_cons] at hn
    rw [map_cons, sum_cons, ih hn.2, Function.comp_apply, count_replicate]
    simp only [map_cons, mem_cons]
    by_cases hb : b = node.net
    · subst hb
      simp [hn.1, find]
    · have hb' : ¬ node.net = b := fun h => hb h.symm
      simp [hb, hb', find]

def exactPredecessors (nodes : List ExactNode) (net : String) : List String :=
  ((find ExactNode.net nodes net).map ExactNode.predecessors).getD []

theorem exactIndegree_eq (nodes : List ExactNode) (net : String) :
    exactIndegree nodes net = (exactPredecessors nodes net).length := by
  unfold exactIndegree exactPredecessors
  cases find ExactNode.net nodes net <;> rfl

theorem mem_exactRoots {net : String} :
    net ∈ sorted ((nodes.map ExactNode.net).filter fun net => exactIndegree nodes net = 0) ↔
      net ∈ nodes.map ExactNode.net ∧ exactPredecessors nodes net = [] := by
  rw [mem_sorted, mem_filter, decide_eq_true_eq, exactIndegree_eq]
  simp

/-- The run of the queue in `exactDependencyOrder`. -/
abbrev exactRun (nodes : List ExactNode) (routes : List Route) (plan : Option RatioPlan)
    (remaining : String → Nat) : Result (List String) :=
  run (exactPriority routes plan remaining) (exactSuccessors nodes)
    (routes.length + 1) (sorted ((nodes.map ExactNode.net).filter fun net =>
      exactIndegree nodes net = 0)) (exactIndegree nodes)

theorem exactDependencyOrder_eq_ok : exactDependencyOrder nodes routes plan = .ok ordered ↔
    ((routes.map Route.net).Nodup ∧ SameSet (routes.map Route.net) (nodes.map ExactNode.net)) ∧
      (∀ node ∈ nodes, ∀ p ∈ node.predecessors, p ∈ nodes.map ExactNode.net) ∧
      ∃ rem, remainingDepth nodes = .ok rem ∧
        ∃ nets, exactRun nodes routes plan rem = .ok nets ∧
          (nets.mapM fun net => lookupOrRaise net (find Route.net routes net)) =
            .ok ordered ∧ ordered.length = routes.length := by
  unfold exactDependencyOrder
  constructor
  · intro h
    obtain ⟨hc, h⟩ := raiseIf_bind.mp h
    rw [not_or, not_not, not_not] at hc
    obtain ⟨⟨⟩, hk, h⟩ := bind_eq_ok.mp h
    obtain ⟨rem, hr, h⟩ := bind_eq_ok.mp h
    obtain ⟨nets, hn, h⟩ := bind_eq_ok.mp h
    obtain ⟨ordered', ho, h⟩ := bind_eq_ok.mp h
    obtain ⟨hl, h⟩ := raiseIf_bind.mp h
    cases h
    refine ⟨hc, fun node hnd p hp => ?_, rem, hr, nets, hn, ho,
      not_not.mp hl⟩
    by_contra hot
    exact raiseIf_eq_ok.mp (forM_eq_ok.mp hk node hnd) ⟨p, hp, hot⟩
  · rintro ⟨hc, hk, rem, hr, nets, hn, ho, hl⟩
    refine raiseIf_bind.mpr ⟨?_, bind_eq_ok.mpr ⟨(), forM_eq_ok.mpr fun node hnd =>
      raiseIf_eq_ok.mpr ?_, bind_eq_ok.mpr ⟨rem, hr, bind_eq_ok.mpr ⟨nets, hn,
        bind_eq_ok.mpr ⟨ordered, ho, raiseIf_bind.mpr ⟨not_not.mpr hl, rfl⟩⟩⟩⟩⟩⟩
    · rw [not_or, not_not, not_not]
      exact hc
    · rintro ⟨p, hp, hot⟩
      exact hot (hk node hnd p hp)

theorem map_net_of_lookup {nets : List String}
    (h : (nets.mapM fun net => lookupOrRaise net (find Route.net routes net)) =
      .ok ordered) : ordered.map Route.net = nets := by
  rw [map_of_mapM (fun _ _ hok => key_of_find (lookupOrRaise_eq_ok.mp hok)) h, map_id']

theorem exactDependencyOrder_perm (hn : (nodes.map ExactNode.net).Nodup)
    (h : exactDependencyOrder nodes routes plan = .ok ordered) : ordered.Perm routes := by
  obtain ⟨-, -, rem, -, nets, hnt, ho, hl⟩ := exactDependencyOrder_eq_ok.mp h
  obtain ⟨hnd, -⟩ := run_spec (count_exactSuccessors hn)
    (fun net _ => exactIndegree_eq nodes net) (fun _ => mem_exactRoots)
    (nodup_sorted.mpr (hn.filter _)) hnt
  have hndo : ordered.Nodup := Nodup.of_map Route.net (map_net_of_lookup ho ▸ hnd)
  refine (subperm_of_subset hndo fun route hr => ?_).perm_of_length_le hl.ge
  obtain ⟨net, -, hok⟩ := exists_of_mem_mapM ho hr
  exact mem_of_find (lookupOrRaise_eq_ok.mp hok)

/-! ## when there is an order -/

theorem exists_exactPriority {net : String} (remaining remaining' : String → Nat)
    (h : ∃ key, exactPriority routes plan remaining net = .ok key) :
    ∃ key, exactPriority routes plan remaining' net = .ok key := by
  obtain ⟨key, h⟩ := h
  obtain ⟨route, hr, h⟩ := bind_eq_ok.mp h
  obtain ⟨hops, hh, h⟩ := bind_eq_ok.mp h
  obtain ⟨ratio, hrt, -⟩ := bind_eq_ok.mp h
  exact ⟨_, bind_eq_ok.mpr ⟨route, hr, bind_eq_ok.mpr ⟨hops, hh,
    bind_eq_ok.mpr ⟨ratio, hrt, rfl⟩⟩⟩⟩

theorem exists_remainingDepth : (∃ rem, remainingDepth nodes = .ok rem) ↔
    ∀ node ∈ nodes, node.dependencyLevel.isSome = true := by
  have hl : ∀ node : ExactNode, (∃ keyed, levelKey node = .ok keyed) ↔
      node.dependencyLevel.isSome = true := by
    intro node
    unfold levelKey
    cases node.dependencyLevel <;> simp [lookupOrRaise, bind, Except.bind, pure, Except.pure]
  constructor
  · rintro ⟨rem, h⟩ node hn
    obtain ⟨keyed, hk, -⟩ := bind_eq_ok.mp h
    obtain ⟨pair, -, hok⟩ := mem_mapM_of_mem hk hn
    exact (hl node).mp ⟨pair, hok⟩
  · intro h
    obtain ⟨keyed, hk⟩ := exists_mapM_eq_ok fun node hn => (hl node).mpr (h node hn)
    exact ⟨_, bind_eq_ok.mpr ⟨keyed, hk, rfl⟩⟩

def ExactDependsOn (nodes : List ExactNode) (predecessor net : String) : Prop :=
  net ∈ nodes.map ExactNode.net ∧ predecessor ∈ exactPredecessors nodes net

/-- The routes are those of the cuts, and what the order reads of each cut is there: its level, the
hops of its route and their planned ratios. -/
structure Orderable (nodes : List ExactNode) (routes : List Route) (plan : Option RatioPlan) :
    Prop where
  distinct : (routes.map Route.net).Nodup
  cover : SameSet (routes.map Route.net) (nodes.map ExactNode.net)
  level : ∀ node ∈ nodes, node.dependencyLevel.isSome = true
  readable : ∀ net ∈ nodes.map ExactNode.net,
    ∃ key, exactPriority routes plan (fun _ => 0) net = .ok key

/--
**The dependency order of exact cuts.**

It lists every route once and every predecessor before its successors. Between cuts and routes that
can be ordered at all it is missing exactly if a cut depends on itself or on an unknown cut.
-/
theorem exactDependencyOrder_spec (hnodup : (nodes.map ExactNode.net).Nodup) :
    (∀ ordered, exactDependencyOrder nodes routes plan = .ok ordered → ordered.Perm routes ∧
        ReadyQueue.Sorted (exactPredecessors nodes) (ordered.map Route.net)) ∧
    ((∃ ordered, exactDependencyOrder nodes routes plan = .ok ordered) ↔
      Orderable nodes routes plan ∧
        (∀ node ∈ nodes, ∀ p ∈ node.predecessors, p ∈ nodes.map ExactNode.net) ∧
        ∀ net, ¬ Relation.TransGen (ExactDependsOn nodes) net net) := by
  have hindegree := fun net (_ : net ∈ nodes.map ExactNode.net) => exactIndegree_eq nodes net
  have hroots : (sorted ((nodes.map ExactNode.net).filter fun net =>
      exactIndegree nodes net = 0)).Nodup := nodup_sorted.mpr (hnodup.filter _)
  have hclosed (hknown : ∀ node ∈ nodes, ∀ p ∈ node.predecessors, p ∈ nodes.map ExactNode.net) :
      ∀ net ∈ nodes.map ExactNode.net, ∀ p ∈ exactPredecessors nodes net,
        p ∈ nodes.map ExactNode.net := by
    intro net hnet p hp
    obtain ⟨node, hnode⟩ := exists_find hnet
    rw [exactPredecessors, hnode] at hp
    exact hknown node (mem_of_find hnode) p hp
  have hlength (hdistinct : (routes.map Route.net).Nodup)
      (hcover : SameSet (routes.map Route.net) (nodes.map ExactNode.net)) :
      (nodes.map ExactNode.net).length = routes.length := by
    rw [← length_map Route.net]
    exact ((perm_ext_iff_of_nodup hnodup hdistinct).mpr fun net =>
      ⟨hcover.2 net, hcover.1 net⟩).length_eq
  refine ⟨fun ordered h => ⟨exactDependencyOrder_perm hnodup h, ?_⟩, ?_, ?_⟩
  · obtain ⟨-, -, remaining, -, nets, hnets, hordered, -⟩ := exactDependencyOrder_eq_ok.mp h
    rw [map_net_of_lookup hordered]
    exact (run_sorted (count_exactSuccessors hnodup) hindegree (fun _ => mem_exactRoots)
      hroots hnets).1
  · rintro ⟨ordered, h⟩
    have hperm := exactDependencyOrder_perm hnodup h
    obtain ⟨⟨hdistinct, hcover⟩, hknown, remaining, hremaining, nets, hnets, hordered, -⟩ :=
      exactDependencyOrder_eq_ok.mp h
    have hall : ∀ net ∈ nodes.map ExactNode.net, net ∈ nets := by
      intro net hnet
      rw [← map_net_of_lookup hordered, (hperm.map Route.net).mem_iff]
      exact hcover.2 net hnet
    refine ⟨⟨hdistinct, hcover, exists_remainingDepth.mp ⟨remaining, hremaining⟩, fun net hnet =>
      exists_exactPriority remaining _ (run_priority hnets net (hall net hnet))⟩,
      hknown, ?_⟩
    exact (run_all_iff (count_exactSuccessors hnodup) hindegree
      (fun _ => mem_exactRoots) hroots (by rw [hlength hdistinct hcover]; omega) hnets
      (hclosed hknown)).mp hall
  · rintro ⟨hable, hknown, hacyclic⟩
    obtain ⟨remaining, hremaining⟩ := exists_remainingDepth.mpr hable.level
    have hlen := hlength hable.distinct hable.cover
    have hsucc : ∀ a, ∀ b ∈ exactSuccessors nodes a, b ∈ nodes.map ExactNode.net := by
      intro a b hb
      by_contra hout
      have hcount := count_exactSuccessors hnodup a b
      rw [if_neg hout] at hcount
      exact count_eq_zero.mp hcount hb
    obtain ⟨nets, hnets⟩ : ∃ nets, exactRun nodes routes plan remaining = .ok nets :=
      exists_run
        (fun net hnet => exists_exactPriority _ remaining (hable.readable net hnet))
        (fun net hnet => (mem_exactRoots.mp hnet).1) hsucc
    obtain ⟨hnd, hsub⟩ := run_spec (count_exactSuccessors hnodup) hindegree
      (fun _ => mem_exactRoots) hroots hnets
    have hall := (run_all_iff (count_exactSuccessors hnodup) hindegree
      (fun _ => mem_exactRoots) hroots (by omega) hnets (hclosed hknown)).mpr hacyclic
    obtain ⟨ordered, hordered⟩ : ∃ ordered, (nets.mapM fun net =>
        lookupOrRaise net (find Route.net routes net)) = .ok ordered :=
      exists_mapM_eq_ok fun net hnet => (exists_find
        (hable.cover.2 net (hsub net hnet))).imp fun route => lookupOrRaise_eq_ok.mpr
    refine ⟨ordered, exactDependencyOrder_eq_ok.mpr ⟨⟨hable.distinct, hable.cover⟩, hknown,
      remaining, hremaining, nets, hnets, hordered, ?_⟩⟩
    rw [← hlen, ← ((perm_ext_iff_of_nodup hnd hnodup).mpr fun net =>
      ⟨hsub net, hall net⟩).length_eq, ← map_net_of_lookup hordered, length_map]

/-- Two cuts that depend on each other have no order. -/
theorem exactDependencyOrder_spec_cycle :
    ¬ ∃ ordered, exactDependencyOrder [⟨"a", some 0, some ["b"]⟩, ⟨"b", some 1, some ["a"]⟩]
      [⟨"r", "a", "f0", ["f1"], 1, none, [], 0, none, none, none, none, none⟩,
        ⟨"s", "b", "f1", ["f0"], 1, none, [], 0, none, none, none, none, none⟩] none =
        .ok ordered := by
  intro h
  obtain ⟨-, -, hacyclic⟩ := (exactDependencyOrder_spec (by decide)).2.mp h
  exact hacyclic "a" (.tail (.single (b := "b") ⟨by decide, by decide⟩) ⟨by decide, by decide⟩)

/-- A route without a cut is refused, with no dependency at all. -/
theorem exactDependencyOrder_uncovered :
    (∀ node ∈ ([] : List ExactNode), ∀ p ∈ node.predecessors, False) ∧
      (∀ net, ¬ Relation.TransGen (ExactDependsOn []) net net) ∧
      exactDependencyOrder [] [⟨"r", "a", "f0", ["f1"], 1, none, [], 0, none, none, none, none,
        none⟩] none =
        .error (ValidationError "cross-layer timing cut coverage does not match routes") := by
  refine ⟨fun node hnode => absurd hnode not_mem_nil, fun net h => ?_, rfl⟩
  obtain ⟨_, -, hlast⟩ := Relation.TransGen.tail'_iff.mp h
  exact absurd hlast.1 not_mem_nil

/-!
## Rounds, arrivals and completions

What the scheduler and its validator keep while they go through the ordered routes: the completion
of the transport rounds, the arrivals under an exact contract, and the completion records.
-/

/-! ## modes -/

/-- How sources become ready: by transport rounds, or under an exact contract. -/
inductive ScheduleMode where
  | registered
  | indexed (contract : IndexedContract) (timing : TimingConstraints)
  | full (contract : Contract) (timing : TimingConstraints)
  deriving DecidableEq

def scheduleMode (contract : Option RouteContract) (frameSlots : Nat) : Result ScheduleMode :=
  match contract with
  | none => .ok .registered
  | some (.indexed contract) => do
    let timing ← sampledVirtualWireTimingConstraints frameSlots
    return .indexed contract timing
  | some (.full contract) => do
    let timing ← sampledVirtualWireTimingConstraints frameSlots
    return .full contract timing

namespace ScheduleMode

/-- `exact_contract is not None`. -/
def isExact : ScheduleMode → Bool
  | .registered => false
  | .indexed _ _ | .full _ _ => true

def timing : ScheduleMode → Option TimingConstraints
  | .registered => none
  | .indexed _ timing | .full _ timing => some timing

/-- `exact_contract["schema"]`. -/
def contractSchema : ScheduleMode → Option String
  | .registered => none
  | .indexed contract _ => some contract.schema
  | .full contract _ => some contract.schema

end ScheduleMode

/-- The ordered routes and the active rounds of a mode; only the scheduler orders rounds by the
planned ratios. -/
def orderRoutes (mode : ScheduleMode) (routes : List Route)
    (roundPlan exactPlan : Option RatioPlan) :
    Result (List Route × List Int) :=
  match mode with
  | .registered => roundOrder routes roundPlan
  | .indexed _ _ => do
    indexedExactNodes routes
    let ordered ← exactDependencyOrder (routes.map routeNode) routes exactPlan
    return (ordered, [0])
  | .full contract _ => do
    exactContractIndexes contract
    let ordered ← exactDependencyOrder (contract.cutNodes.map cutNode) routes exactPlan
    return (ordered, [0])

/-! ## rounds -/

structure RoundState where
  completionByRound : List (Int × Int)
  priorRoundCompletion : Int
  activeRound : Option Int
  deriving DecidableEq

namespace RoundState

def start : RoundState :=
  { completionByRound := [], priorRoundCompletion := -1, activeRound := none }

/-- `completion_by_round[transport_round]`; the active round always has its entry. -/
def completionOf (s : RoundState) (round : Int) : Int :=
    (s.completionByRound.lookup round).getD (-1)

def enter (s : RoundState) (round : Int) : RoundState :=
  if s.activeRound = some round then s
  else
    { s with
      priorRoundCompletion := match s.activeRound with
        | none => s.priorRoundCompletion
        | some active => max s.priorRoundCompletion (s.completionOf active)
      activeRound := some round }

def sourceReady (s : RoundState) : Int :=
  if 0 ≤ s.priorRoundCompletion then s.priorRoundCompletion + COMBINATIONAL_SETTLE_SLOTS else 0

/-- `completion_by_round[transport_round] = max(...)`. -/
def record (s : RoundState) (round completion : Int) : RoundState :=
  { s with completionByRound :=
      (round, max completion ((s.completionByRound.lookup round).getD completion)) ::
        s.completionByRound }

end RoundState

/-! ## one route -/

/-- `arrival_by_node`, the latest assignment first. -/
abbrev ArrivalByNode := List (String × Int)

structure ProgressState where
  rounds : RoundState
  exactArrivals : ExactArrivals
  readinessRecords : List DemandReadiness
  completions : List Completion
  deriving DecidableEq

def ProgressState.start : ProgressState :=
  { rounds := RoundState.start, exactArrivals := [], readinessRecords := [], completions := [] }

abbrev FullReadiness :=
  CutNode → List LogicSegment → ExactArrivals → TimingConstraints →
    Result (Int × List SegmentEvidence)

def sourceReadySlot (readiness : FullReadiness) (mode : ScheduleMode) (state : ProgressState)
    (route : Route) : Result (Int × List DemandReadiness) :=
  match mode with
  | .registered => .ok (state.rounds.sourceReady, [])
  | .indexed _ timing => do
    let (ready, _) ← indexedSourceReadiness route state.exactArrivals timing
    return (ready, [])
  | .full contract timing => do
    let node ← lookupOrRaise route.net (find CutNode.net contract.cutNodes route.net)
    let (ready, evidence) ← readiness node contract.logicSegments state.exactArrivals timing
    return (ready, [{ demand := route.id, net := route.net, source := route.source
                      sourceReadySlot := ready, evidence := evidence }])

def hopReady (route : Route) (sourceReady : Int) (arrivals : ArrivalByNode) (edge : TreeEdge) :
    Result Int :=
  if edge.source = route.source then .ok sourceReady
  else do
    let arrival ← lookupOrRaise edge.source (arrivals.lookup edge.source)
    return arrival + 1

/-- `max(arrival_by_node[sink] for sink in route["sinks"])`. -/
def completionSlot (route : Route) (arrivals : ArrivalByNode) (missing : EmuFlowError) :
    Result Int := do
  raiseIf (∃ sink ∈ route.sinks, sink ∉ arrivals.map Prod.fst) missing
  let slots ← route.sinks.mapM fun sink => lookupOrRaise sink (arrivals.lookup sink)
  maximumOf slots

def sinkArrivals (route : Route) (arrivals : ArrivalByNode) : Result (List (String × Int)) :=
  (sorted route.sinks).mapM fun sink => do
    let arrival ← lookupOrRaise sink (arrivals.lookup sink)
    return (sink, arrival)

/-- The completion record of a route; `extended` schedules state the readiness of the source. -/
def completionRecord (extended : Bool) (mode : ScheduleMode) (route : Route)
    (sourceReady completion : Int) (sinks : List (String × Int)) : Completion :=
  { demand := route.id
    net := route.net
    completionSlot := completion
    sourceReadySlot := if extended then some sourceReady else none
    transportRound := if extended ∧ ¬ mode.isExact then some route.round else none
    sinkArrivalSlots := if mode.isExact then some sinks else none }

def ProgressState.enter (state : ProgressState) (route : Route) : ProgressState :=
  { state with rounds := state.rounds.enter route.round }

def finishRoute (extended : Bool) (mode : ScheduleMode) (missing : EmuFlowError)
    (state : ProgressState) (route : Route) (sourceReady : Int) (records : List DemandReadiness)
    (arrivals : ArrivalByNode) : Result ProgressState := do
  let completion ← completionSlot route arrivals missing
  let sinks ← sinkArrivals route arrivals
  return { rounds := state.rounds.record route.round completion
           exactArrivals :=
             if mode.isExact then
               (sinks.map fun s => ((route.net, s.1), s.2)).reverse ++ state.exactArrivals
             else state.exactArrivals
           readinessRecords := state.readinessRecords ++ records
           completions := state.completions ++
             [completionRecord extended mode route sourceReady completion sinks] }

/-! ## records over all routes -/

def roundBarrierRealization (activeRounds : List Int) (rounds : RoundState)
    (plannedSourceReadySlot : Option Int) : RoundBarrierRealization :=
  let realized : Option Int := match activeRounds with
    | _ :: second :: _ =>
      some (((rounds.completionByRound.filter fun item => item.1 < second).map fun item =>
        item.2 + COMBINATIONAL_SETTLE_SLOTS).max?.getD 0)
    | _ => none
  { activeRounds := activeRounds
    capacitySplitSlot := plannedSourceReadySlot
    sourceReadySlot := realized
    shiftSlots := match realized, plannedSourceReadySlot with
      | some realized, some planned => realized - planned
      | _, _ => 0 }

def domainScheduleRecords (platform : Platform) (constraints : RouteConstraints)
    (graph : DirectedGraph) (entries : List TdmEntry) : Result (List DomainSchedule) :=
  (sortedBy CapacityRecord.key graph.capacities).mapM fun capacity => do
    let link ← lookupOrRaise capacity.link (platform.findLink capacity.link)
    let lanes := link.transportBitsPerCyclePerDirection
    let scheduled := entries.countP fun entry => entry.capacityKey = capacity.key
    return { key := capacity.key
             link := capacity.link
             direction := capacity.direction
             lanes := lanes
             frameSlots := constraints.frameSlots
             scheduledBitHops := scheduled
             capacityBitHops := lanes * constraints.frameSlots
             utilization := scheduled / (lanes * constraints.frameSlots : Nat) }

/-- The certificate of an exact schedule; `captures` computes the capture records of a full
contract. -/
def scheduleCertificate (digests : Digests)
    (captures : List LogicSegment → List CaptureRequirement → ExactArrivals → TimingConstraints →
      Result (List CaptureReadiness × Option Int))
    (mode : ScheduleMode) (ordered : List Route) (state : ProgressState) :
    Result (Option Certificate) :=
  match mode with
  | .registered => .ok none
  | .indexed _ timing => do
    let certificate ← indexedCertificate digests ordered state.exactArrivals timing
    return some (.indexed certificate)
  | .full contract timing => do
    let (records, slack) ← captures contract.logicSegments contract.captureRequirements
      state.exactArrivals timing
    return some (.full
      { schema := SAMPLED_VIRTUAL_WIRE_SCHEDULE_CERTIFICATE_SCHEMA
        provider := "independent-readiness-certificate-v1"
        topologicalCutOrder := ordered.map Route.net
        demandReadiness := state.readinessRecords
        captureReadiness := records
        minimumCaptureSlackSlots := slack })

/-- `max(route["combinational_dependency_depth"] for route in ordered_routes)`. -/
def maximumDepth (ordered : List Route) : Result Int := do
  let depths ← ordered.mapM fun route =>
    lookupOrRaise "combinational_dependency_depth" route.combinationalDependencyDepth
  return depths.max?.getD 0

def baseMetrics (demands scheduledBitHops frameSlots : Nat) (completions : List Completion)
    (domains : List DomainSchedule) : ScheduleMetrics :=
  { demands := demands
    scheduledBitHops := scheduledBitHops
    frameSlots := frameSlots
    completionSlot := (completions.map Completion.completionSlot).max?.getD 0
    maxDomainUtilization := (domains.map DomainSchedule.utilization).max?.getD 0
    collisions := 0 }

/-- The metrics of the mode; schedules that are not `extended` state nothing about rounds. -/
def modeMetrics (extended : Bool) (mode : ScheduleMode) (ordered : List Route)
    (activeRounds : List Int) (certificate : Option Certificate) (metrics : ScheduleMetrics) :
    Result ScheduleMetrics :=
  match mode, certificate with
  | .indexed _ timing, some (.indexed certificate) => do
    let depth ← maximumDepth ordered
    return { metrics with
      transportOrderingPolicy := some "path-local-dependency-dag-v1"
      commitSlot := some timing.commitSlot
      dependencyEdges := some certificate.dependencyEdges
      maximumCombinationalDependencyDepth := some depth
      conservativeSinkReadinessChecks := some certificate.sinkReadinessChecks
      minimumCaptureSlackSlots := some certificate.minimumSinkSlackSlots }
  | .full contract timing, some (.full certificate) =>
    .ok { metrics with
      transportOrderingPolicy := some "path-local-dependency-dag-v1"
      commitSlot := some timing.commitSlot
      dependencyEdges := some contract.dependencyEdges.length
      maximumCombinationalDependencyDepth := some contract.maximumCombinationalDependencyDepth
      captureRequirements := some certificate.captureReadiness.length
      minimumCaptureSlackSlots := some certificate.minimumCaptureSlackSlots }
  | _, _ =>
    if extended then
      .ok { metrics with
        transportRounds := some activeRounds.length
        roundBarriers := some (activeRounds.length - 1)
        maxTransportRound := some (activeRounds.max?.getD 0)
        combinationalSettleSlots := some COMBINATIONAL_SETTLE_SLOTS }
    else .ok metrics

def ratioMetrics (hops : Nat) (entries : List TdmEntry) (metrics : ScheduleMetrics) :
    Result ScheduleMetrics := do
  let ratios ← entries.mapM fun entry => lookupOrRaise "tdm_ratio" entry.tdmRatio
  let waits ← entries.mapM fun entry => lookupOrRaise "ratio_wait_slots" entry.ratioWaitSlots
  let maxRatio ← maximumOf ratios
  let maxWait ← maximumOf waits
  return { metrics with
    ratioConstrainedHops := some hops
    maxTdmRatio := some maxRatio
    maximumRatioWaitSlots := some maxWait }

end EmuFlow.Tdm
