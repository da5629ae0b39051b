import EmuFlow.Lib.MarginalFlow

/-!
# Transport networks

A source supplies the rights, lanes of one unit each lead from rights to lefts, and the lefts
deliver to a sink. A flow is a choice of lanes that keeps the capacities of their ends, and every
such choice is a flow.
-/

namespace Transport

open ResidualGraph List Arc

inductive Vertex where
  | source
  | right (index : ℕ)
  | left (index : ℕ)
  | sink
  deriving DecidableEq

structure Lane where
  right : ℕ
  left : ℕ
  cost : ℤ
  deriving DecidableEq

/-- `add_edge(source, right, capacity, 0)` -/
def supplyArc (right : ℕ) (capacity : ℤ) : Arc Vertex :=
  { source := .source, target := .right right, capacity := capacity, reverse := 0, cost := 0 }

/-- `add_edge(right, left, 1, cost)` -/
def laneArc (lane : Lane) : Arc Vertex :=
  { source := .right lane.right, target := .left lane.left, capacity := 1, reverse := 0
    cost := lane.cost }

/-- `add_edge(left, sink, capacity, 0)` -/
def demandArc (left : ℕ) (capacity : ℤ) : Arc Vertex :=
  { source := .left left, target := .sink, capacity := capacity, reverse := 0, cost := 0 }

def supplyName (arc : Arc Vertex) : Option ℕ :=
  match arc.source, arc.target with
  | .source, .right right => some right
  | _, _ => none

def laneOf (arc : Arc Vertex) : Option Lane :=
  match arc.source, arc.target with
  | .right right, .left left => some { right := right, left := left, cost := arc.cost }
  | _, _ => none

def demandName (arc : Arc Vertex) : Option ℕ :=
  match arc.source, arc.target with
  | .left left, .sink => some left
  | _, _ => none

def lanes (graph : List (Arc Vertex)) : List Lane := graph.filterMap laneOf

def chosen (graph : List (Arc Vertex)) : List Lane :=
  (graph.filter fun arc => arc.capacity = 0).filterMap laneOf

inductive Shaped (arc : Arc Vertex) : Prop
  | supply (right : ℕ) : arc.source = .source → arc.target = .right right → arc.cost = 0 →
    Shaped arc
  | lane (right left : ℕ) : arc.source = .right right → arc.target = .left left →
    arc.capacity + arc.reverse = 1 → Shaped arc
  | demand (left : ℕ) : arc.source = .left left → arc.target = .sink → arc.cost = 0 → Shaped arc

variable {graph other network : List (Arc Vertex)} {arc : Arc Vertex} {value : ℤ}

/-! ## the parts of a flow -/

def laneFlow (p : Lane → Bool) (graph : List (Arc Vertex)) : ℤ :=
  (graph.map fun arc =>
    match laneOf arc with
    | some lane => if p lane then arc.reverse else 0
    | none => 0).sum

def supplyFlow (right : ℕ) (graph : List (Arc Vertex)) : ℤ :=
  (graph.map fun arc => if supplyName arc = some right then arc.reverse else 0).sum

def demandFlow (left : ℕ) (graph : List (Arc Vertex)) : ℤ :=
  (graph.map fun arc => if demandName arc = some left then arc.reverse else 0).sum

def supplyCapacity (right : ℕ) (graph : List (Arc Vertex)) : ℤ :=
  (graph.map fun arc => if supplyName arc = some right then arc.capacity + arc.reverse else 0).sum

def demandCapacity (left : ℕ) (graph : List (Arc Vertex)) : ℤ :=
  (graph.map fun arc => if demandName arc = some left then arc.capacity + arc.reverse else 0).sum

theorem excess_right (h : ∀ arc ∈ graph, Shaped arc) (right : ℕ) : excess graph (.right right) =
      supplyFlow right graph - laneFlow (fun lane => lane.right = right) graph := by
  rw [excess, supplyFlow, laneFlow, ← sum_map_sub]
  congr 1
  refine map_congr_left fun arc ha => ?_
  rcases h arc ha with ⟨r, hs, ht, -⟩ | ⟨r, l, hs, ht, -⟩ | ⟨l, hs, ht, -⟩
  · simp [supplyName, laneOf, hs, ht]
  · simp [supplyName, laneOf, hs, ht]
  · simp [supplyName, laneOf, hs, ht]

theorem excess_left (h : ∀ arc ∈ graph, Shaped arc) (left : ℕ) : excess graph (.left left) =
      laneFlow (fun lane => lane.left = left) graph - demandFlow left graph := by
  rw [excess, demandFlow, laneFlow, ← sum_map_sub]
  congr 1
  refine map_congr_left fun arc ha => ?_
  rcases h arc ha with ⟨r, hs, ht, -⟩ | ⟨r, l, hs, ht, -⟩ | ⟨l, hs, ht, -⟩
  · simp [demandName, laneOf, hs, ht]
  · simp [demandName, laneOf, hs, ht]
  · simp [demandName, laneOf, hs, ht]

theorem laneFlow_eq (h : ∀ arc ∈ graph, Shaped arc) (nodes : Finset Vertex)
    (hn : ∀ arc ∈ graph, arc.source ∈ nodes ∧ arc.target ∈ nodes) :
    laneFlow (fun _ => true) graph =
      ∑ node ∈ nodes, (match node with | .left _ | .sink => 1 | _ => 0) * excess graph node := by
  rw [← sum_price (fun node : Vertex => match node with | .left _ | .sink => (1 : ℤ) | _ => 0)
    nodes hn, laneFlow]
  congr 1
  refine map_congr_left fun arc ha => ?_
  rcases h arc ha with ⟨r, hs, ht, -⟩ | ⟨r, l, hs, ht, -⟩ | ⟨l, hs, ht, -⟩
  · simp [laneOf, hs, ht]
  · simp [laneOf, hs, ht]
  · simp [laneOf, hs, ht]

theorem chosen_cons_of_none (h : laneOf arc = none) : chosen (arc :: graph) = chosen graph := by
  simp only [chosen, filter_cons]
  split_ifs
  · simp [h]
  · rfl

theorem chosen_cons_of_some {lane : Lane} (h : laneOf arc = some lane) : chosen (arc :: graph) =
      if arc.capacity = 0 then lane :: chosen graph else chosen graph := by
  simp only [chosen, filter_cons, decide_eq_true_eq]
  split_ifs
  · simp [h]
  · rfl

theorem laneFlow_eq_countP (p : Lane → Bool) : ∀ {graph : List (Arc Vertex)},
    (∀ arc ∈ graph, Shaped arc) → (∀ arc ∈ graph, 0 ≤ arc.capacity ∧ 0 ≤ arc.reverse) →
    laneFlow p graph = ((chosen graph).countP p : ℤ)
  | [], _, _ => rfl
  | arc :: graph, h, hps => by
    obtain ⟨ha, hrs⟩ := forall_mem_cons.mp h
    obtain ⟨⟨hc, hr⟩, hps⟩ := forall_mem_cons.mp hps
    have ih := laneFlow_eq_countP p hrs hps
    have hcn : laneFlow p (arc :: graph) = (match laneOf arc with
        | some lane => if p lane then arc.reverse else 0
        | none => 0) + laneFlow p graph := by
      rw [laneFlow, map_cons, sum_cons, laneFlow]
    rw [hcn, ih]
    rcases ha with ⟨r, hs, ht, -⟩ | ⟨r, l, hs, ht, htt⟩ | ⟨l, hs, ht, -⟩
    · have hl : laneOf arc = none := by simp [laneOf, hs, ht]
      simp [chosen_cons_of_none hl, hl]
    · have hl : laneOf arc = some ⟨r, l, arc.cost⟩ := by simp [laneOf, hs, ht]
      rw [hl, chosen_cons_of_some hl]
      by_cases hf : arc.capacity = 0
      · have ho : arc.reverse = 1 := by omega
        rw [if_pos hf, countP_cons, ho]
        by_cases hp : p ⟨r, l, arc.cost⟩ = true
        · simp [hp, add_comm]
        · simp [hp]
      · have hz : arc.reverse = 0 := by omega
        simp [hf, hz]
    · have hl : laneOf arc = none := by simp [laneOf, hs, ht]
      simp [chosen_cons_of_none hl, hl]

theorem cost_eq_chosen : ∀ {graph : List (Arc Vertex)}, (∀ arc ∈ graph, Shaped arc) →
    (∀ arc ∈ graph, 0 ≤ arc.capacity ∧ 0 ≤ arc.reverse) →
    ResidualGraph.cost graph = ((chosen graph).map Lane.cost).sum
  | [], _, _ => rfl
  | arc :: graph, h, hp => by
    obtain ⟨ha, hrs⟩ := forall_mem_cons.mp h
    obtain ⟨⟨hc, hr⟩, hp⟩ := forall_mem_cons.mp hp
    have ih := cost_eq_chosen hrs hp
    have hcn : ResidualGraph.cost (arc :: graph) =
        arc.cost * arc.reverse + ResidualGraph.cost graph := by
      rw [ResidualGraph.cost, map_cons, sum_cons, ResidualGraph.cost]
    rw [hcn, ih]
    rcases ha with ⟨r, hs, ht, hcs⟩ | ⟨r, l, hs, ht, htt⟩ | ⟨l, hs, ht, hcs⟩
    · have hl : laneOf arc = none := by simp [laneOf, hs, ht]
      rw [chosen_cons_of_none hl, hcs, zero_mul, zero_add]
    · have hl : laneOf arc = some ⟨r, l, arc.cost⟩ := by simp [laneOf, hs, ht]
      rw [chosen_cons_of_some hl]
      by_cases hf : arc.capacity = 0
      · have ho : arc.reverse = 1 := by omega
        simp [hf, ho]
      · have hz : arc.reverse = 0 := by omega
        simp [hf, hz]
    · have hl : laneOf arc = none := by simp [laneOf, hs, ht]
      rw [chosen_cons_of_none hl, hcs, zero_mul, zero_add]

/-! ## what depends on the frame only -/

theorem exists_of_frame (hsame : graph.map frame = network.map frame) (h : arc ∈ graph) :
    ∃ arc' ∈ network, arc'.frame = arc.frame := by
  have hm : arc.frame ∈ network.map frame := hsame ▸ mem_map_of_mem h
  exact mem_map.mp hm

theorem shaped_of_frame {arc' : Arc Vertex} (hf : arc'.frame = arc.frame) (h : Shaped arc') :
    Shaped arc := by
  simp only [frame, Prod.mk.injEq] at hf
  obtain ⟨hsr, htr, hcs, htt⟩ := hf
  rcases h with ⟨r, hs, ht, hc⟩ | ⟨r, l, hs, ht, ht'⟩ | ⟨l, hs, ht, hc⟩
  · exact .supply r (hsr ▸ hs) (htr ▸ ht) (hcs ▸ hc)
  · exact .lane r l (hsr ▸ hs) (htr ▸ ht) (htt ▸ ht')
  · exact .demand l (hsr ▸ hs) (htr ▸ ht) (hcs ▸ hc)

theorem shaped_of_same (hsame : graph.map frame = network.map frame)
    (h : ∀ arc ∈ network, Shaped arc) : ∀ arc ∈ graph, Shaped arc := by
  intro arc ha
  obtain ⟨arc', ha', hf⟩ := exists_of_frame hsame ha
  exact shaped_of_frame hf (h arc' ha')

theorem map_of_same {β : Type} (F : Arc Vertex → β) (G : Vertex × Vertex × ℤ × ℤ → β)
    (hf : ∀ arc, F arc = G arc.frame) (hsame : graph.map frame = network.map frame) :
    graph.map F = network.map F := by
  have hm := congrArg (List.map G) hsame
  rw [map_map, map_map] at hm
  rw [map_congr_left fun arc _ => hf arc, map_congr_left fun arc _ => hf arc]
  exact hm

section

variable (hsame : graph.map frame = network.map frame)
include hsame

theorem supplyCapacity_of_same (right : ℕ) :
    supplyCapacity right graph = supplyCapacity right network := by
  refine congrArg List.sum (map_of_same _ (fun f => if (match f.1, f.2.1 with
    | .source, .right right => some right
    | _, _ => none) = some right then f.2.2.2 else 0) (fun arc => ?_) hsame)
  rfl

theorem demandCapacity_of_same (left : ℕ) :
    demandCapacity left graph = demandCapacity left network := by
  refine congrArg List.sum (map_of_same _ (fun f => if (match f.1, f.2.1 with
    | .left left, .sink => some left
    | _, _ => none) = some left then f.2.2.2 else 0) (fun arc => ?_) hsame)
  rfl

theorem lanes_of_same : lanes graph = lanes network := by
  have hm : graph.map laneOf = network.map laneOf := map_of_same _ (fun f => (match f.1, f.2.1 with
    | .right right, .left left => some { right := right, left := left, cost := f.2.2.1 }
    | _, _ => none)) (fun arc => rfl) hsame
  have hf := congrArg (List.filterMap id) hm
  rwa [filterMap_map, filterMap_map] at hf

end

theorem supplyFlow_le (hp : ∀ arc ∈ graph, 0 ≤ arc.capacity ∧ 0 ≤ arc.reverse) (right : ℕ) :
    supplyFlow right graph ≤ supplyCapacity right graph := by
  refine sum_le_sum fun arc ha => ?_
  have hc := (hp arc ha).1
  split_ifs <;> omega

theorem demandFlow_le (hp : ∀ arc ∈ graph, 0 ≤ arc.capacity ∧ 0 ≤ arc.reverse) (left : ℕ) :
    demandFlow left graph ≤ demandCapacity left graph := by
  refine sum_le_sum fun arc ha => ?_
  have hc := (hp arc ha).1
  split_ifs <;> omega

/-- Lanes of a network that keep the capacities of their ends. -/
structure Choice (network : List (Arc Vertex)) (choice : List Lane) : Prop where
  sublist : choice.Sublist (lanes network)
  rights : ∀ right, (choice.countP fun lane => lane.right = right : ℤ) ≤
    supplyCapacity right network
  lefts : ∀ left, (choice.countP fun lane => lane.left = left : ℤ) ≤ demandCapacity left network

/-- **The lanes of a flow**: as many as its value, at its cost. -/
theorem chosen_of_flow (hsh : ∀ arc ∈ network, Shaped arc)
    (hsame : graph.map frame = network.map frame) (hf : Flow graph .source .sink value) :
    Choice network (chosen graph) ∧ ((chosen graph).length : ℤ) = value ∧
      ResidualGraph.cost graph = ((chosen graph).map Lane.cost).sum := by
  have hs := shaped_of_same hsame hsh
  refine ⟨⟨?_, fun right => ?_, fun left => ?_⟩, ?_, cost_eq_chosen hs hf.nonneg⟩
  · rw [← lanes_of_same hsame]
    exact filter_sublist.filterMap _
  · have he := excess_right hs right
    have hle := supplyFlow_le hf.nonneg right
    rw [hf.excess, if_neg (by simp), if_neg (by simp),
      laneFlow_eq_countP _ hs hf.nonneg] at he
    rw [← supplyCapacity_of_same hsame]
    omega
  · have he := excess_left hs left
    have hle := demandFlow_le hf.nonneg left
    rw [hf.excess, if_neg (by simp), if_neg (by simp),
      laneFlow_eq_countP _ hs hf.nonneg] at he
    rw [← demandCapacity_of_same hsame]
    omega
  · let nodes := insert Vertex.sink (nodesOf graph)
    have hl := laneFlow_eq hs nodes fun arc ha =>
      ⟨Finset.mem_insert_of_mem (mem_nodesOf ha).1, Finset.mem_insert_of_mem (mem_nodesOf ha).2⟩
    rw [laneFlow_eq_countP _ hs hf.nonneg, countP_true, Finset.sum_eq_single_of_mem Vertex.sink
      (Finset.mem_insert_self _ _) fun node _ hne => ?_] at hl
    · rw [hl, hf.excess, if_pos rfl, if_neg (by simp)]
      ring
    · rw [hf.excess, if_neg hne]
      cases node <;> simp

/-! ## the flow of a choice -/

/-- The arcs of a choice: its lanes are full, and the other arcs carry what the lanes need. -/
def Loaded (rights lefts : ℕ → ℤ) (arc : Arc Vertex) : Prop :=
  (∀ right, supplyName arc = some right → arc.reverse = rights right) ∧
    (∀ left, demandName arc = some left → arc.reverse = lefts left) ∧
    ((laneOf arc).isSome → 0 ≤ arc.capacity ∧ 0 ≤ arc.reverse)

theorem chosen_eq_nil (h : ∀ arc ∈ graph, laneOf arc = none) : chosen graph = [] :=
  filterMap_eq_nil_iff.mpr fun arc ha => h arc (mem_filter.mp ha).1

theorem exists_loaded (rights lefts : ℕ → ℤ) : ∀ {network : List (Arc Vertex)} {choice : List Lane},
    (∀ arc ∈ network, Shaped arc) → choice.Sublist (lanes network) →
    ∃ graph, graph.map frame = network.map frame ∧ chosen graph = choice ∧
      ∀ arc ∈ graph, Loaded rights lefts arc
  | [], choice, _, hsub => by
    rw [sublist_nil.mp hsub]
    exact ⟨[], rfl, rfl, fun _ h => absurd h not_mem_nil⟩
  | arc :: network, choice, h, hsub => by
    obtain ⟨harc, hrest⟩ := forall_mem_cons.mp h
    -- the arc with an amount on it, in front of the loaded rest
    have hcons : ∀ (amount : ℤ) {rest choice' : List Lane} {graph : List (Arc Vertex)},
        graph.map frame = network.map frame → chosen graph = rest →
        (∀ arc ∈ graph, Loaded rights lefts arc) →
        Loaded rights lefts { arc with capacity := arc.capacity + arc.reverse - amount
                                       reverse := amount } →
        chosen [{ arc with capacity := arc.capacity + arc.reverse - amount
                           reverse := amount }] ++ rest = choice' →
        ∃ graph, graph.map frame = (arc :: network).map frame ∧ chosen graph = choice' ∧
          ∀ arc ∈ graph, Loaded rights lefts arc := by
      intro amount rest choice' graph hsame hchosen hloaded hhead hfront
      refine ⟨{ arc with capacity := arc.capacity + arc.reverse - amount, reverse := amount } ::
        graph, ?_, ?_, forall_mem_cons.mpr ⟨hhead, hloaded⟩⟩
      · rw [map_cons, map_cons, hsame]
        congr 1
        simp [frame]
      · rw [← hfront, ← hchosen, chosen, chosen, chosen, ← filterMap_append, ← filter_append]
        rfl
    rcases harc with ⟨r, hs, ht, hc⟩ | ⟨r, l, hs, ht, htotal⟩ | ⟨l, hs, ht, hc⟩
    · have hnone : laneOf arc = none := by simp [laneOf, hs, ht]
      rw [lanes, filterMap_cons_none hnone] at hsub
      obtain ⟨graph, hsame, hchosen, hloaded⟩ := exists_loaded rights lefts hrest hsub
      refine hcons (rights r) hsame hchosen hloaded ?_ ?_
      · simp [Loaded, supplyName, demandName, laneOf, hs, ht]
      · have hempty : chosen [{ arc with capacity := arc.capacity + arc.reverse - rights r
                                         reverse := rights r }] = [] :=
          chosen_eq_nil (by simp [laneOf, hs, ht])
        rw [hempty, nil_append]
    · have hlane : laneOf arc = some ⟨r, l, arc.cost⟩ := by simp [laneOf, hs, ht]
      rw [lanes, filterMap_cons_some hlane] at hsub
      rcases sublist_cons_iff.mp hsub with hsub | ⟨choice', rfl, hsub'⟩
      · obtain ⟨graph, hsame, hchosen, hloaded⟩ := exists_loaded rights lefts hrest hsub
        refine hcons 0 hsame hchosen hloaded ?_ ?_
        · simp [Loaded, supplyName, demandName, laneOf, hs, ht, htotal]
        · have hempty : chosen [{ arc with capacity := arc.capacity + arc.reverse - 0
                                           reverse := 0 }] = [] := by
            simp [chosen, htotal]
          rw [hempty, nil_append]
      · obtain ⟨graph, hsame, hchosen, hloaded⟩ := exists_loaded rights lefts hrest hsub'
        refine hcons 1 hsame hchosen hloaded ?_ ?_
        · simp [Loaded, supplyName, demandName, laneOf, hs, ht, htotal]
        · have hfull : chosen [{ arc with capacity := arc.capacity + arc.reverse - 1
                                          reverse := 1 }] = [⟨r, l, arc.cost⟩] := by
            simp [chosen, htotal, laneOf, hs, ht]
          rw [hfull]
          rfl
    · have hnone : laneOf arc = none := by simp [laneOf, hs, ht]
      rw [lanes, filterMap_cons_none hnone] at hsub
      obtain ⟨graph, hsame, hchosen, hloaded⟩ := exists_loaded rights lefts hrest hsub
      refine hcons (lefts l) hsame hchosen hloaded ?_ ?_
      · simp [Loaded, supplyName, demandName, laneOf, hs, ht]
      · have hempty : chosen [{ arc with capacity := arc.capacity + arc.reverse - lefts l
                                         reverse := lefts l }] = [] :=
          chosen_eq_nil (by simp [laneOf, hs, ht])
        rw [hempty, nil_append]

section named

variable {name : Arc Vertex → Option ℕ} {F : Arc Vertex → ℤ} {index : ℕ}

theorem sum_unnamed (h : ∀ arc ∈ graph, name arc ≠ some index) :
    (graph.map fun arc => if name arc = some index then F arc else 0).sum = 0 :=
  sum_eq_zero fun c hc => by
    obtain ⟨arc, ha, rfl⟩ := mem_map.mp hc
    exact if_neg (h arc ha)

theorem sum_named : ∀ {graph : List (Arc Vertex)}, (graph.filterMap name).Nodup → arc ∈ graph →
    name arc = some index →
    (graph.map fun arc => if name arc = some index then F arc else 0).sum = F arc
  | [], _, h, _ => absurd h not_mem_nil
  | first :: graph, hnd, h, hn => by
    rw [map_cons, sum_cons]
    rcases mem_cons.mp h with rfl | h
    · rw [filterMap_cons_some hn, nodup_cons] at hnd
      have hr : ∀ arc' ∈ graph, name arc' ≠ some index := fun arc' ha' hsame =>
        hnd.1 (mem_filterMap.mpr ⟨arc', ha', hsame⟩)
      rw [if_pos hn, sum_unnamed hr, add_zero]
    · have ho : name first ≠ some index := by
        intro hsame
        rw [filterMap_cons_some hsame, nodup_cons] at hnd
        exact hnd.1 (mem_filterMap.mpr ⟨arc, h, hn⟩)
      have hr : (graph.filterMap name).Nodup := by
        refine hnd.sublist ?_
        exact (sublist_cons_self first graph).filterMap name
      rw [if_neg ho, zero_add, sum_named hr h hn]

end named

structure Network (network : List (Arc Vertex)) : Prop where
  shaped : ∀ arc ∈ network, Shaped arc
  supplies : (network.filterMap supplyName).Nodup
  demands : (network.filterMap demandName).Nodup

theorem Network.of_same (h : Network network)
    (hsame : graph.map frame = network.map frame) : Network graph := by
  have hs : graph.map supplyName = network.map supplyName :=
    map_of_same _ (fun f => (match f.1, f.2.1 with
      | .source, .right right => some right
      | _, _ => none)) (fun _ => rfl) hsame
  have hd : graph.map demandName = network.map demandName :=
    map_of_same _ (fun f => (match f.1, f.2.1 with
      | .left left, .sink => some left
      | _, _ => none)) (fun _ => rfl) hsame
  have hn := congrArg (List.filterMap id) hs
  have hn' := congrArg (List.filterMap id) hd
  rw [filterMap_map, filterMap_map] at hn hn'
  refine ⟨shaped_of_same hsame h.shaped, ?_, ?_⟩
  · exact (congrArg Nodup hn).mpr h.supplies
  · exact (congrArg Nodup hn').mpr h.demands

/-- **The flow of a choice**: it carries a unit along every lane, and each end what its lanes
need. -/
theorem exists_flow (hnt : Network network) {choice : List Lane}
    (hch : Choice network choice) :
    ∃ graph, graph.map frame = network.map frame ∧ chosen graph = choice ∧
      Flow graph .source .sink choice.length ∧
      ∀ arc ∈ graph, Loaded (fun right => choice.countP fun lane => lane.right = right)
        (fun left => choice.countP fun lane => lane.left = left) arc := by
  obtain ⟨graph, hsame, hcs, hld⟩ := exists_loaded
    (fun right => (choice.countP fun lane => lane.right = right : ℤ))
    (fun left => (choice.countP fun lane => lane.left = left : ℤ)) hnt.shaped hch.sublist
  have hgr := hnt.of_same hsame
  refine ⟨graph, hsame, hcs, ?_, hld⟩
  have hps : ∀ arc ∈ graph, 0 ≤ arc.capacity ∧ 0 ≤ arc.reverse := by
    intro arc har
    obtain ⟨hsp, hdm, hla⟩ := hld arc har
    rcases hgr.shaped arc har with ⟨r, hs, ht, -⟩ | ⟨r, l, hs, ht, -⟩ | ⟨l, hs, ht, -⟩
    · have hnm : supplyName arc = some r := by simp [supplyName, hs, ht]
      have hcp : supplyCapacity r graph = arc.capacity + arc.reverse :=
        sum_named hgr.supplies har hnm
      have hle := hch.rights r
      rw [← supplyCapacity_of_same hsame, hcp] at hle
      have hrv : arc.reverse = (choice.countP fun lane => lane.right = r : ℤ) :=
        hsp r hnm
      omega
    · exact hla (by simp [laneOf, hs, ht])
    · have hnm : demandName arc = some l := by simp [demandName, hs, ht]
      have hcp : demandCapacity l graph = arc.capacity + arc.reverse :=
        sum_named hgr.demands har hnm
      have hle := hch.lefts l
      rw [← demandCapacity_of_same hsame, hcp] at hle
      have hrv : arc.reverse = (choice.countP fun lane => lane.left = l : ℤ) := hdm l hnm
      omega
  have hrg : ∀ right, excess graph (.right right) = 0 := by
    intro right
    rw [excess_right hgr.shaped, laneFlow_eq_countP _ hgr.shaped hps, hcs]
    by_cases hnd : ∃ arc ∈ graph, supplyName arc = some right
    · obtain ⟨arc, har, hnm⟩ := hnd
      have hfl : supplyFlow right graph = arc.reverse := sum_named hgr.supplies har hnm
      rw [hfl, (hld arc har).1 right hnm, sub_self]
    · have hnn : ∀ arc ∈ graph, supplyName arc ≠ some right := fun arc har hnm =>
        hnd ⟨arc, har, hnm⟩
      have hfl : supplyFlow right graph = 0 := sum_unnamed hnn
      have hcp : supplyCapacity right graph = 0 := sum_unnamed hnn
      have hle := hch.rights right
      rw [← supplyCapacity_of_same hsame, hcp] at hle
      rw [hfl]
      omega
  have hlf : ∀ left, excess graph (.left left) = 0 := by
    intro left
    rw [excess_left hgr.shaped, laneFlow_eq_countP _ hgr.shaped hps, hcs]
    by_cases hnd : ∃ arc ∈ graph, demandName arc = some left
    · obtain ⟨arc, har, hnm⟩ := hnd
      have hfl : demandFlow left graph = arc.reverse := sum_named hgr.demands har hnm
      rw [hfl, (hld arc har).2.1 left hnm, sub_self]
    · have hnn : ∀ arc ∈ graph, demandName arc ≠ some left := fun arc har hnm =>
        hnd ⟨arc, har, hnm⟩
      have hfl : demandFlow left graph = 0 := sum_unnamed hnn
      have hcp : demandCapacity left graph = 0 := sum_unnamed hnn
      have hle := hch.lefts left
      rw [← demandCapacity_of_same hsame, hcp] at hle
      rw [hfl]
      omega
  let nodes := insert Vertex.source (insert Vertex.sink (nodesOf graph))
  have hns : ∀ arc ∈ graph, arc.source ∈ nodes ∧ arc.target ∈ nodes := fun arc har =>
    ⟨Finset.mem_insert_of_mem (Finset.mem_insert_of_mem (mem_nodesOf har).1),
      Finset.mem_insert_of_mem (Finset.mem_insert_of_mem (mem_nodesOf har).2)⟩
  have hsn : Vertex.sink ∈ nodes := Finset.mem_insert_of_mem (Finset.mem_insert_self _ _)
  have hsk : excess graph .sink = choice.length := by
    have hln := laneFlow_eq hgr.shaped nodes hns
    rw [laneFlow_eq_countP _ hgr.shaped hps, countP_true, hcs,
      Finset.sum_eq_single_of_mem Vertex.sink hsn fun node _ hne => ?_] at hln
    · rw [hln]
      ring
    · cases node with
      | source => simp
      | right index => simp
      | left index => simp [hlf]
      | sink => exact absurd rfl hne
  have hsr : excess graph .source = -choice.length := by
    have hal := sum_price (fun _ : Vertex => (1 : ℤ)) nodes hns
    have hzr : (graph.map fun arc => ((1 : ℤ) - 1) * arc.reverse).sum = 0 := by simp
    rw [hzr, Finset.sum_eq_add_of_mem Vertex.source Vertex.sink (Finset.mem_insert_self _ _)
      hsn (by simp) fun node _ hne => ?_, hsk] at hal
    · omega
    · cases node with
      | source => exact absurd rfl hne.1
      | right index => simp [hrg]
      | left index => simp [hlf]
      | sink => exact absurd rfl hne.2
  refine ⟨hps, fun node => ?_⟩
  cases node with
  | source => simp [hsr]
  | right index => simp [hrg]
  | left index => simp [hlf]
  | sink => simp [hsk]

/-- After every choice one with a lane more costs less than `infinity` more. -/
def Extendable (network : List (Arc Vertex)) (infinity : ℤ) (last : ℕ) : Prop :=
  ∀ choice, Choice network choice → choice.length < last → ∃ next, Choice network next ∧
    next.length = choice.length + 1 ∧
    (next.map Lane.cost).sum < (choice.map Lane.cost).sum + infinity

theorem affordable_iff (hn : Network network) {infinity : ℤ} {last : ℕ} :
    Affordable network .source .sink infinity 0 last ↔ Extendable network infinity last := by
  constructor
  · intro h c hch hl
    obtain ⟨graph, hsame, hcn, hf, -⟩ := exists_flow hn hch
    obtain ⟨next, hnx, hm, hc⟩ := h c.length (by omega) (by exact_mod_cast hl)
      graph hsame hf
    obtain ⟨-, -, hg⟩ := chosen_of_flow hn.shaped hsame hf
    obtain ⟨hch', hl', hc'⟩ := chosen_of_flow hn.shaped hnx hm
    rw [hg, hc', hcn] at hc
    exact ⟨chosen next, hch', by exact_mod_cast hl', hc⟩
  · intro h value hle hlt graph hsame hf
    obtain ⟨hch, hl, hc⟩ := chosen_of_flow hn.shaped hsame hf
    obtain ⟨c, hch', hl', hc'⟩ := h _ hch (by omega)
    obtain ⟨next, hnx, hcn, hm, -⟩ := exists_flow hn hch'
    obtain ⟨-, -, hnc⟩ := chosen_of_flow hn.shaped hnx hm
    have hv : (c.length : ℤ) = value + 1 := by omega
    rw [hv] at hm
    refine ⟨next, hnx, hm, ?_⟩
    rw [hnc, hcn, hc]
    exact hc'

end Transport
