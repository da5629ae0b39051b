import EmuFlow.Tdm.Records
import Mathlib.Data.List.ReduceOption

/-!
# Baseline wire groups

`_baseline_ratio_hops` of `emuflow/tdm.py`: without a ratio plan, the hops of links with a ratio
model are bound to fixed wires before they are scheduled. The hops of one capacity key are dealt to
its wires in turn, and the ratio of a wire is the least discrete one that holds its hops.
-/

namespace EmuFlow.Tdm

open Check SortedSet DiscreteRatio Routing TdmRatio List

structure LaneBudget where
  offset : Nat
  lanes : Nat

def laneBudget (allocations : BankAllocations) (link : BoardLink) (arc : ArcKey) : LaneBudget :=
  match allocations.lookup arc with
  | some budget => { offset := budget.laneOffset, lanes := budget.lanes }
  | none => { offset := 0, lanes := link.transportBitsPerCyclePerDirection }

/-- What `_baseline_ratio_hops` assigns to a hop. -/
structure BaselineHop where
  key : HopKey
  lane : Int
  discreteRatio : Int

def hopKeys (routes : List Route) : List HopKey :=
  routes.flatMap fun route => route.treeEdges.map (hopKey route.id)

def hopOrder (key : HopKey) := lex key.1 (lex key.2.1 (lex key.2.2.1 key.2.2.2))

def modelHop (platform : Platform) (graph : DirectedGraph) (key : HopKey) :
    Result (Option (String × HopKey)) := do
  let link ← lookupOrRaise key.2.1 (platform.findLink key.2.1)
  if link.tdmDelayModel = none then return none
  let arc ← lookupOrRaise key.2.1 (graph.findArc key.2)
  return some (arc.capacityKey, key)

/-- The hops of one wire of a group of `size` hops. -/
def wireCount (size lanes localLane : Nat) : Nat := (size - 1 - localLane) / lanes + 1

/-- The wire and the ratio of the hop at position `i` of its group. -/
def baselineHop (constraints : RouteConstraints) (budget : LaneBudget) (size : Nat)
    (item : HopKey × Nat) : Result BaselineHop := do
  let localLane := item.2 % budget.lanes
  let ratio := roundUp constraints.tdmRatioQuantum
    (max (wireCount size budget.lanes localLane) constraints.tdmMinRatio)
  raiseIf (constraints.frameSlots < ratio)
    (.tdmScheduleInfeasible "baseline wire group exceeds maximum TDM ratio" [])
  return { key := item.1, lane := budget.offset + localLane, discreteRatio := ratio }

/-- One turn of the loop over the groups; `keys` are the sorted hops of a capacity key. -/
def baselineGroup (platform : Platform) (allocations : BankAllocations)
    (constraints : RouteConstraints) (keys : List HopKey) : Result (List BaselineHop) :=
  match keys with
  | [] => .ok []
  | first :: _ => do
    let link ← lookupOrRaise first.2.1 (platform.findLink first.2.1)
    let budget := laneBudget allocations link first.2
    raiseIf (budget.lanes = 0)
      (.tdmScheduleInfeasible "active direction has no allocated bank" [])
    keys.zipIdx.mapM (baselineHop constraints budget keys.length)

def baselineRatioHops (routes : List Route) (platform : Platform) (graph : DirectedGraph)
    (allocations : BankAllocations) (constraints : RouteConstraints) :
    Result (List BaselineHop) := do
  let hops ← (hopKeys routes).mapM (modelHop platform graph)
  let grouped := hops.reduceOption
  let groups ← (grouped.map Prod.fst).eraseDups.mapM fun capacityKey =>
    baselineGroup platform allocations constraints
      (sortedBy hopOrder ((grouped.filter fun hop => hop.1 = capacityKey).map Prod.snd))
  return groups.flatten

/-- `baseline_hops.get(key)`. -/
def findBaseline (hops : List BaselineHop) (key : HopKey) : Option BaselineHop :=
  Keyed.find BaselineHop.key hops key

section Group

variable {platform : Platform} {allocations : BankAllocations} {constraints : RouteConstraints}

theorem baselineHop_eq_ok {budget : LaneBudget} {size : Nat} {item : HopKey × Nat}
    {hop : BaselineHop} :
    baselineHop constraints budget size item = .ok hop ↔ roundUp constraints.tdmRatioQuantum
          (max (wireCount size budget.lanes (item.2 % budget.lanes)) constraints.tdmMinRatio) ≤
        constraints.frameSlots ∧
      hop = { key := item.1
              lane := budget.offset + (item.2 % budget.lanes : Nat)
              discreteRatio := roundUp constraints.tdmRatioQuantum
                (max (wireCount size budget.lanes (item.2 % budget.lanes))
                  constraints.tdmMinRatio) } := by
  unfold baselineHop
  rw [raiseIf_bind, not_lt]
  exact and_congr_right fun _ => ⟨fun h => (Except.ok.inj h).symm, fun h => by rw [h]; rfl⟩

variable {hops : List BaselineHop} {keys : List HopKey}

theorem baselineGroup_eq_ok (hne : keys ≠ [])
    (h : baselineGroup platform allocations constraints keys = .ok hops) :
    ∃ first ∈ keys, ∃ link, platform.findLink first.2.1 = some link ∧
      0 < (laneBudget allocations link first.2).lanes ∧
      keys.zipIdx.mapM (baselineHop constraints (laneBudget allocations link first.2)
        keys.length) = .ok hops := by
  cases keys with
  | nil => exact absurd rfl hne
  | cons first rest =>
    obtain ⟨link, hln, h⟩ := bind_eq_ok.mp h
    obtain ⟨hl, h⟩ := raiseIf_bind.mp h
    exact ⟨first, mem_cons_self, link, lookupOrRaise_eq_ok.mp hln, Nat.pos_of_ne_zero hl, h⟩

theorem mem_baselineGroup {hop : BaselineHop}
    (h : baselineGroup platform allocations constraints keys = .ok hops) (hh : hop ∈ hops) :
    hop.key ∈ keys ∧ ∃ first ∈ keys, ∃ link, platform.findLink first.2.1 = some link ∧
      (laneBudget allocations link first.2).offset ≤ hop.lane ∧
      hop.lane < (laneBudget allocations link first.2).offset +
        (laneBudget allocations link first.2).lanes ∧
      hop.discreteRatio ≤ constraints.frameSlots := by
  have hne : keys ≠ [] := by
    rintro rfl
    rw [← Except.ok.inj h] at hh
    exact not_mem_nil hh
  obtain ⟨first, hf, link, hln, hl, hm⟩ := baselineGroup_eq_ok hne h
  obtain ⟨item, hi, hok⟩ := exists_of_mem_mapM hm hh
  obtain ⟨hr, rfl⟩ := baselineHop_eq_ok.mp hok
  have hmd : item.2 % (laneBudget allocations link first.2).lanes <
      (laneBudget allocations link first.2).lanes := Nat.mod_lt _ hl
  refine ⟨?_, first, hf, link, hln, ?_, ?_, ?_⟩
  · obtain ⟨key, i⟩ := item
    exact fst_mem_of_mem_zipIdx hi
  · dsimp only
    omega
  · dsimp only
    omega
  · dsimp only
    exact_mod_cast hr

theorem baselineGroup_homogeneous
    (h : baselineGroup platform allocations constraints keys = .ok hops) {a b : BaselineHop}
    (ha : a ∈ hops) (hb : b ∈ hops) (hl : a.lane = b.lane) :
    a.discreteRatio = b.discreteRatio := by
  have hne : keys ≠ [] := by
    rintro rfl
    rw [← Except.ok.inj h] at ha
    exact not_mem_nil ha
  obtain ⟨first, -, link, -, -, hm⟩ := baselineGroup_eq_ok hne h
  obtain ⟨i, -, hi⟩ := exists_of_mem_mapM hm ha
  obtain ⟨j, -, hj⟩ := exists_of_mem_mapM hm hb
  obtain ⟨-, rfl⟩ := baselineHop_eq_ok.mp hi
  obtain ⟨-, rfl⟩ := baselineHop_eq_ok.mp hj
  simp only [add_right_inj, Nat.cast_inj] at hl
  simp only [hl]

end Group

section Groups

variable {routes : List Route} {platform : Platform} {graph : DirectedGraph}
  {allocations : BankAllocations} {constraints : RouteConstraints} {hops : List BaselineHop}

theorem modelHop_eq_ok {key : HopKey} {hop : Option (String × HopKey)}
    (h : modelHop platform graph key = .ok hop) :
    ∃ link, platform.findLink key.2.1 = some link ∧ ((link.tdmDelayModel = none ∧ hop = none) ∨
        link.tdmDelayModel ≠ none ∧ ∃ arc, graph.findArc key.2 = some arc ∧
          hop = some (arc.capacityKey, key)) := by
  obtain ⟨link, hl, h⟩ := bind_eq_ok.mp h
  rw [lookupOrRaise_eq_ok] at hl
  refine ⟨link, hl, ?_⟩
  split at h
  · next hm => exact Or.inl ⟨hm, (Except.ok.inj h).symm⟩
  · next hm =>
    obtain ⟨arc, ha, h⟩ := bind_eq_ok.mp h
    exact Or.inr ⟨hm, arc, lookupOrRaise_eq_ok.mp ha, (Except.ok.inj h).symm⟩

variable (h : baselineRatioHops routes platform graph allocations constraints = .ok hops)
include h

theorem exists_baselineGroup {hop : BaselineHop} (hhp : hop ∈ hops) :
    ∃ keys group, baselineGroup platform allocations constraints keys = .ok group ∧
      hop ∈ group ∧ (∀ key ∈ keys, key ∈ hopKeys routes ∧
        graph.capacityKeyOf key.2 = graph.capacityKeyOf hop.key.2 ∧
        ∃ link, platform.findLink key.2.1 = some link ∧ link.tdmDelayModel ≠ none) ∧
      ∀ other ∈ hops, graph.capacityKeyOf other.key.2 = graph.capacityKeyOf hop.key.2 →
        other ∈ group := by
  obtain ⟨modelHops, hmd, h⟩ := bind_eq_ok.mp h
  obtain ⟨groups, hgr, h⟩ := bind_eq_ok.mp h
  cases h
  have hky : ∀ capacityKey, ∀ key ∈ sortedBy hopOrder
      ((modelHops.reduceOption.filter fun hop => hop.1 = capacityKey).map Prod.snd),
      key ∈ hopKeys routes ∧ graph.capacityKeyOf key.2 = capacityKey ∧
        ∃ link, platform.findLink key.2.1 = some link ∧ link.tdmDelayModel ≠ none := by
    intro capacityKey key hke
    rw [mem_sortedBy, mem_map] at hke
    obtain ⟨⟨c, k⟩, hme, rfl⟩ := hke
    rw [mem_filter, reduceOption_mem_iff, decide_eq_true_eq] at hme
    obtain ⟨hme, rfl⟩ := hme
    obtain ⟨k', hk', hok⟩ := exists_of_mem_mapM hmd hme
    obtain ⟨link, hln, ⟨-, hcn⟩ | ⟨hm, arc, har, heq⟩⟩ := modelHop_eq_ok hok
    · cases hcn
    · cases heq
      exact ⟨hk', by simp [DirectedGraph.capacityKeyOf, har], link, hln, hm⟩
  -- every hop of a group has the capacity key the group was made for
  have hmm : ∀ other ∈ groups.flatten, ∃ capacityKey group,
      baselineGroup platform allocations constraints (sortedBy hopOrder
        ((modelHops.reduceOption.filter fun hop => hop.1 = capacityKey).map Prod.snd)) =
          .ok group ∧ other ∈ group ∧ graph.capacityKeyOf other.key.2 = capacityKey := by
    intro other hot
    obtain ⟨group, hgp, hog⟩ := mem_flatten.mp hot
    obtain ⟨capacityKey, -, hok⟩ := exists_of_mem_mapM hgr hgp
    exact ⟨capacityKey, group, hok, hog, (hky _ _ (mem_baselineGroup hok hog).1).2.1⟩
  obtain ⟨capacityKey, group, hok, hg, hcp⟩ := hmm hop hhp
  refine ⟨_, group, hok, hg, fun key hke => ?_, fun other hot heq => ?_⟩
  · rw [hcp]
    exact hky capacityKey key hke
  · obtain ⟨capacityKey', group', hok', hg', hcp'⟩ := hmm other hot
    rw [← hcp', heq, hcp] at hok'
    rw [hok] at hok'
    exact Except.ok.inj hok' ▸ hg'

theorem baselineRatioHops_homogeneous {a b : BaselineHop} (ha : a ∈ hops) (hb : b ∈ hops)
    (hk : graph.capacityKeyOf a.key.2 = graph.capacityKeyOf b.key.2)
    (hl : a.lane = b.lane) : a.discreteRatio = b.discreteRatio := by
  obtain ⟨keys, group, hok, hag, -, hal⟩ := exists_baselineGroup h ha
  exact baselineGroup_homogeneous hok hag (hal b hb hk.symm) hl

theorem baselineRatioHops_cover {key : HopKey} (hky : key ∈ hopKeys routes) {link : BoardLink}
    (hln : platform.findLink key.2.1 = some link) (hm : link.tdmDelayModel ≠ none) :
    ∃ hop, findBaseline hops key = some hop := by
  obtain ⟨modelHops, hmd, h⟩ := bind_eq_ok.mp h
  obtain ⟨groups, hgr, h⟩ := bind_eq_ok.mp h
  cases h
  obtain ⟨o, ho, hok⟩ := mem_mapM_of_mem hmd hky
  obtain ⟨link', hln', ⟨hm', -⟩ | ⟨-, arc, har, rfl⟩⟩ := modelHop_eq_ok hok
  · rw [hln] at hln'
    cases hln'
    exact absurd hm' hm
  · have hmm : (arc.capacityKey, key) ∈ modelHops.reduceOption := reduceOption_mem_iff.mpr ho
    obtain ⟨group, hgp, hgk⟩ := mem_mapM_of_mem hgr
      (mem_eraseDups.mpr (mem_map_of_mem hmm))
    have hks : key ∈ sortedBy hopOrder
        ((modelHops.reduceOption.filter fun hop => hop.1 = arc.capacityKey).map Prod.snd) := by
      rw [mem_sortedBy]
      exact mem_map.mpr ⟨_, mem_filter.mpr ⟨hmm, by simp⟩, rfl⟩
    obtain ⟨first, -, link₁, -, -, hmp⟩ := baselineGroup_eq_ok (ne_nil_of_mem hks) hgk
    obtain ⟨i, hgt⟩ := mem_iff_getElem?.mp hks
    obtain ⟨hop, hhp, hhk⟩ := mem_mapM_of_mem hmp
      ((List.mem_zipIdx_iff_getElem? (x := (key, i))).mpr hgt)
    obtain ⟨-, rfl⟩ := baselineHop_eq_ok.mp hhk
    exact Keyed.exists_find (mem_map.mpr ⟨_, mem_flatten.mpr ⟨group, hgp, hhp⟩, rfl⟩)

end Groups

end EmuFlow.Tdm
