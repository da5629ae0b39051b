import EmuFlow.Lib.ShortestPath

/-!
# Minimum-cost flow by successive shortest paths

While the sink is reached, one unit goes along the path that the search remembers. The distances
make the next prices, so that no residual graph ever has a cycle of negative cost; the flow has the
least cost among the flows of its value, and when the sink is not reached, the largest value.
-/

namespace ResidualGraph

open List

variable {ν : Type} [DecidableEq ν]

/-- `for (int node = sink; node != source; node = previous_node[node])`; `none` without the fuel
to finish. -/
def augment (previous : ν → Option (Step ν)) (source : ν) :
    ℕ → ν → List (Arc ν) → Option (Except String (List (Arc ν)))
  | 0, _, _ => none
  | fuel + 1, node, graph =>
    if node = source then some (.ok graph)
    else
      match previous node with
      | none => some (.error "broken augmenting path")
      | some e => augment previous source fuel e.source (push graph e)

structure Solved (ν : Type) where
  graph : List (Arc ν)
  flow : ℤ
  totalCost : ℤ

/-- `while (flow < target_flow)`, with the units that are left to send; `none` without the fuel for
a search or a walk. -/
def solve (fuel : ℕ) (infinity : ℤ) (source sink : ν) :
    ℕ → List (Arc ν) → ℤ → ℤ → Option (Except String (Solved ν))
  | 0, graph, flow, totalCost =>
    some (.ok { graph := graph, flow := flow, totalCost := totalCost })
  | remaining + 1, graph, flow, totalCost =>
    match search graph fuel (Search.start infinity source) with
    | none => none
    | some s =>
      if s.distance sink = infinity then
        some (.ok { graph := graph, flow := flow, totalCost := totalCost })
      else
        match augment s.previous source fuel sink graph with
        | none => none
        | some (.error e) => some (.error e)
        | some (.ok graph) =>
          solve fuel infinity source sink remaining graph (flow + 1)
            (totalCost + s.distance sink)

variable {graph original : List (Arc ν)} {source sink : ν} {infinity : ℤ} {price : ν → ℤ}
  {s : Search ν} {v : ν} {p : List (Step ν)} {value : ℤ}

/-! ## one unit -/

/-- `augment` pushes one unit over each arc of a traced path. -/
theorem augment_of_traced {previous : ν → Option (Step ν)} (h : Traced previous source v p) :
    ∀ {graph : List (Arc ν)} {fuel : ℕ}, p.length < fuel →
      augment previous source fuel v graph = some (.ok (p.foldl push graph)) := by
  induction h with
  | nil =>
    intro graph fuel hf
    obtain ⟨m, rfl⟩ := Nat.exists_eq_add_of_le' (show 1 ≤ fuel by omega)
    rw [augment, if_pos rfl]
    rfl
  | @cons v e p hne hp _ ih =>
    intro graph fuel hf
    rw [length_cons] at hf
    obtain ⟨m, rfl⟩ := Nat.exists_eq_add_of_le' (show 1 ≤ fuel by omega)
    rw [augment, if_neg hne, hp]
    exact ih (by omega)

theorem of_augment {previous : ν → Option (Step ν)} (h : Traced previous source v p) :
    ∀ {graph : List (Arc ν)} {fuel : ℕ} {r : Except String (List (Arc ν))},
      augment previous source fuel v graph = some r → r = .ok (p.foldl push graph) := by
  induction h with
  | nil =>
    intro graph fuel r hr
    cases fuel with
    | zero => cases hr
    | succ fuel =>
      rw [augment, if_pos rfl] at hr
      exact (Option.some.inj hr).symm
  | @cons v e p hne hp _ ih =>
    intro graph fuel r hr
    cases fuel with
    | zero => cases hr
    | succ fuel =>
      rw [augment, if_neg hne, hp] at hr
      exact ih hr

/-- The pushes along a path move one unit from its source to its end. -/
theorem excess_foldl_push {original : List (Arc ν)} (hf : Labelled original source infinity s)
    (hp : Traced s.previous source v p) (hv : s.distance v < infinity) :
    ∀ {graph : List (Arc ν)}, (∀ e ∈ p, OnArc graph e) → ∀ node,
      excess (p.foldl push graph) node = excess graph node +
        ((if v = node then 1 else 0) - if source = node then 1 else 0) := by
  induction hp with
  | nil =>
    intro graph _ node
    simp
  | @cons v e p hne hpr _ ih =>
    intro graph hp node
    have hed := hf.tree v e hne hv hpr
    obtain ⟨he, hr⟩ := forall_mem_cons.mp hp
    rw [foldl_cons, ih hed.reached (fun e' he' => (hr e' he').push e) node,
      excess_push he, hed.target]
    ring

omit [DecidableEq ν] in
/-- They add the costs of its steps. -/
theorem cost_foldl_push : ∀ {p : List (Step ν)} {graph : List (Arc ν)}, (∀ e ∈ p, OnArc graph e) →
    cost (p.foldl push graph) = cost graph + (p.map Step.cost).sum
  | [], graph, _ => by simp
  | e :: p, graph, hp => by
    obtain ⟨he, hr⟩ := forall_mem_cons.mp hp
    rw [foldl_cons, cost_foldl_push fun e' he' => (hr e' he').push e, cost_push he,
      map_cons, sum_cons]
    ring

/-- The prices after a search: distances, but nowhere more above the old prices than at the sink. -/
def nextPrice (infinity : ℤ) (source sink : ν) (s : Search ν) (price : ν → ℤ) (v : ν) : ℤ :=
  if s.distance v < infinity then
    min (s.distance v + price source) (price v + (s.distance sink + price source - price sink))
  else price v + (s.distance sink + price source - price sink)

omit [DecidableEq ν] in
theorem reduced_le (hf : Labelled graph source infinity s) (hpc : Potential graph price)
    (hp : Traced s.previous source v p) (hv : s.distance v < infinity) :
    ∀ e ∈ p, s.distance e.target - price e.target ≤ s.distance v - price v ∧
      s.distance e.source - price e.source ≤ s.distance v - price v ∧
      s.distance e.target = s.distance e.source + e.cost ∧ s.distance e.source < infinity ∧
      s.distance e.target < infinity := by
  induction hp with
  | nil => exact fun _ h => absurd h not_mem_nil
  | @cons v e p hne hpr _ ih =>
    have he := hf.tree v e hne hv hpr
    have hle := hpc e he.mem he.room
    have ht := he.tight
    rw [he.target] at hle
    intro e' he'
    rcases mem_cons.mp he' with rfl | he'
    · rw [he.target]
      exact ⟨le_refl _, by omega, ht, he.reached, hv⟩
    · obtain ⟨htr, hs, hr⟩ := ih he.reached e' he'
      exact ⟨by omega, by omega, hr⟩

omit [DecidableEq ν] in
/-- The next prices are a potential of the graph after the pushes. -/
theorem potential_foldl_push (hf : Found graph source infinity s)
    (hpr : Potential graph price) (hp : Traced s.previous source sink p)
    (hsn : s.distance sink < infinity) :
    Potential (p.foldl push graph) (nextPrice infinity source sink s price) := by
  have ho : ∀ e ∈ p, OnArc graph e := fun e he => onArc_of_mem_steps
    ((distance_of_traced hf.source_zero hf.tree hp hsn).2 e he).1
  intro e he hcp
  rcases residual_foldl_push ho he hcp with
    ⟨e', he', hcp', hs, ht, hc⟩ | ⟨e', he', hs, ht, hc⟩
  · -- an edge that had room before
    have hle := hpr e' he' hcp'
    have hcl := hf.closed e' he' hcp'
    rw [hs, ht, hc] at hle
    rw [hs, ht, hc] at hcl
    unfold nextPrice
    by_cases hr : s.distance e.source < infinity
    · obtain ⟨hd, htr⟩ := hcl hr
      rw [if_pos hr, if_pos htr]
      omega
    · rw [if_neg hr]
      split_ifs <;> omega
  · -- the reverse of an edge of the path, where the distances are tight
    obtain ⟨htr, hsr, htg, hr, hr'⟩ := reduced_le hf.labelled hpr hp hsn e' he'
    unfold nextPrice
    rw [hs, ht, hc, if_pos hr, if_pos hr']
    omega

/-- One more unit is sent, at the distance of the sink. -/
theorem augmented (hf : Labelled graph source infinity s)
    (hfl : Flow graph source sink value) (hp : Traced s.previous source sink p)
    (hnd : (p.map Step.index).Nodup) (hs : s.distance sink < infinity) :
    Flow (p.foldl push graph) source sink (value + 1) ∧
      cost (p.foldl push graph) = cost graph + s.distance sink := by
  obtain ⟨hd, hed⟩ := distance_of_traced hf.source_zero hf.tree hp hs
  have ho : ∀ e ∈ p, OnArc graph e := fun e he => onArc_of_mem_steps (hed e he).1
  refine ⟨⟨nonneg_foldl_push hnd (fun e he => ⟨(hed e he).1, (hed e he).2.1⟩) hfl.nonneg,
    fun node => ?_⟩, ?_⟩
  · rw [excess_foldl_push hf hp hs ho, hfl.excess]
    simp only [eq_comm (a := sink), eq_comm (a := source)]
    split_ifs <;> ring
  · rw [cost_foldl_push ho, hd]

/-! ## the run -/

/-- What holds between two units. -/
structure Sending (original : List (Arc ν)) (source sink : ν) (graph : List (Arc ν))
    (value total : ℤ) : Prop where
  frame : graph.map Arc.frame = original.map Arc.frame
  flow : Flow graph source sink value
  total : cost graph = total
  /-- No cycle of the residual graph has a negative cost. -/
  priced : ∃ price, Potential graph price

/-- The result has the least cost among the flows of its value, and it has the value asked for, or
the largest. -/
structure Optimal (original : List (Arc ν)) (source sink : ν) (value : ℤ) (r : Solved ν) :
    Prop where
  frame : r.graph.map Arc.frame = original.map Arc.frame
  flow : Flow r.graph source sink r.flow
  total : cost r.graph = r.totalCost
  /-- No cycle of the residual graph has a negative cost. -/
  priced : ∃ price, Potential r.graph price
  bounded : r.flow ≤ value
  least : ∀ other, other.map Arc.frame = original.map Arc.frame →
    Flow other source sink r.flow → r.totalCost ≤ cost other
  largest : r.flow = value ∨ ∀ other flow, other.map Arc.frame = original.map Arc.frame →
    Flow other source sink flow → flow ≤ r.flow

variable {total : ℤ}

/-- With a potential no other flow of the value costs less. -/
theorem Sending.optimal (h : Sending original source sink graph value total)
    {target : ℤ} (hle : value ≤ target) (hl : value = target ∨ ∀ other flow,
      other.map Arc.frame = original.map Arc.frame → Flow other source sink flow → flow ≤ value) :
    Optimal original source sink target { graph := graph, flow := value, totalCost := total } := by
  obtain ⟨price, hp⟩ := h.priced
  refine ⟨h.frame, h.flow, h.total, h.priced, hle, fun other hs ho => ?_, hl⟩
  rw [← h.total]
  exact cost_le_of_potential (h.frame.trans hs.symm) hp h.flow ho

omit [DecidableEq ν] in
theorem sum_cost_of_frame (h : graph.map Arc.frame = original.map Arc.frame) :
    graph.map Arc.cost = original.map Arc.cost := by
  have hcost := congrArg (List.map fun f : ν × ν × ℤ × ℤ => f.2.2.1) h
  rwa [map_map, map_map] at hcost

section

variable (h : Sending original source sink graph value total)
  (hcost : ∀ arc ∈ original, 0 ≤ arc.cost)
include h hcost

theorem Sending.cost_nonneg : ∀ arc ∈ graph, 0 ≤ arc.cost := fun arc ha => by
  have hm : arc.cost ∈ original.map Arc.cost := sum_cost_of_frame h.frame ▸ mem_map_of_mem ha
  obtain ⟨arc', ha', heq⟩ := mem_map.mp hm
  exact heq ▸ hcost arc' ha'

theorem Sending.of_search (hs : (original.map Arc.cost).sum < infinity)
    {fuel : ℕ} {next : List (Arc ν)}
    (hsr : search graph fuel (Search.start infinity source) = some s)
    (hsn : s.distance sink ≠ infinity)
    (ha : augment s.previous source fuel sink graph = some (.ok next)) :
    Sending original source sink next (value + 1) (total + s.distance sink) := by
  obtain ⟨price, hpr⟩ := h.priced
  have hg := h.cost_nonneg hcost
  have hgr : (graph.map Arc.cost).sum < infinity := sum_cost_of_frame h.frame ▸ hs
  obtain ⟨hi, hq⟩ := searchInv_of_search hpr
    (searchInv_start (infinity_pos hg hgr)) hsr
  have hf := found_of_searchInv hg hgr hi hq
  have hlt : s.distance sink < infinity := lt_of_le_of_ne (hf.le_infinity sink) hsn
  obtain ⟨p, hp, hnd⟩ := hf.traced sink hlt
  obtain rfl := Except.ok.inj (of_augment hp ha)
  obtain ⟨hfl, ht⟩ := augmented hf.labelled h.flow hp hnd hlt
  exact ⟨(map_frame_foldl_push p graph).trans h.frame, hfl, by rw [ht, h.total],
    _, potential_foldl_push hf hpr hp hlt⟩

/-- One turn: no flow sends more, or one unit more is sent. -/
theorem Sending.next (hs : (original.map Arc.cost).sum < infinity) :
    ∃ bound s, (∀ fuel ≥ bound, search graph fuel (Search.start infinity source) = some s) ∧
      (s.distance sink = infinity → ∀ other flow, other.map Arc.frame = original.map Arc.frame →
        Flow other source sink flow → flow ≤ value) ∧
      (s.distance sink ≠ infinity → ∃ next, (∀ fuel ≥ bound,
        augment s.previous source fuel sink graph = some (.ok next)) ∧
        Sending original source sink next (value + 1) (total + s.distance sink)) := by
  obtain ⟨price, hpr⟩ := h.priced
  obtain ⟨bound, s, hr, hfn⟩ := @search_spec _ _ graph source infinity price hpr
    (h.cost_nonneg hcost) (sum_cost_of_frame h.frame ▸ hs)
  have hst : s.distance source < infinity := by
    rw [hfn.source_zero]
    exact infinity_pos hcost hs
  by_cases hsn : s.distance sink = infinity
  · refine ⟨bound, s, hr, fun _ other flow hsm ho => ?_, fun h => absurd hsn h⟩
    exact value_le_of_closed (fun node => decide (s.distance node < infinity))
      (h.frame.trans hsm.symm)
      (fun e he hc hrc => by
        rw [decide_eq_true_eq] at hrc ⊢
        exact (hfn.closed e he hc hrc).2)
      (by simpa using hst) (by simp [hsn]) h.flow ho
  · have hlt : s.distance sink < infinity := lt_of_le_of_ne (hfn.le_infinity sink) hsn
    obtain ⟨p, hp, hnd⟩ := hfn.traced sink hlt
    have hw : ∀ fuel, p.length < fuel →
        augment s.previous source fuel sink graph = some (.ok (p.foldl push graph)) :=
      fun _ hf => augment_of_traced hp hf
    refine ⟨max bound (p.length + 1), s, fun fuel hf => hr fuel (le_of_max_le_left hf),
      fun h => absurd h hsn, fun _ => ⟨p.foldl push graph,
        fun fuel hf => hw fuel (le_of_max_le_right hf), ?_⟩⟩
    exact h.of_search hcost hs (hr (max bound (p.length + 1)) (le_max_left _ _)) hsn
      (hw (max bound (p.length + 1)) (Nat.lt_of_succ_le (le_max_right _ _)))

end

theorem solve_of_sending (hcost : ∀ arc ∈ original, 0 ≤ arc.cost)
    (hsm : (original.map Arc.cost).sum < infinity) : ∀ (remaining : ℕ) {graph : List (Arc ν)}
    {value total : ℤ}, Sending original source sink graph value total →
    ∃ bound r, (∀ fuel ≥ bound, solve fuel infinity source sink remaining graph value total =
      some (.ok r)) ∧ Optimal original source sink (value + remaining) r
  | 0, graph, value, total, h =>
    ⟨0, _, fun _ _ => rfl, h.optimal (by simp) (.inl (by simp))⟩
  | remaining + 1, graph, value, total, h => by
    obtain ⟨bound, s, hsr, hst, hn⟩ := h.next hcost hsm
    by_cases hs : s.distance sink = infinity
    · refine ⟨bound, _, fun fuel hf => ?_, h.optimal (by omega) (.inr (hst hs))⟩
      simp only [solve, hsr fuel hf, if_pos hs]
    · obtain ⟨next, ha, hsn⟩ := hn hs
      obtain ⟨bound', r, hrn, hr⟩ := solve_of_sending hcost hsm remaining hsn
      refine ⟨max bound bound', r, fun fuel hf => ?_, ?_⟩
      · simp only [solve, hsr fuel (le_of_max_le_left hf), if_neg hs,
          ha fuel (le_of_max_le_left hf)]
        exact hrn fuel (le_of_max_le_right hf)
      · have hv : value + 1 + (remaining : ℤ) = value + ((remaining + 1 : ℕ) : ℤ) := by
          push_cast
          ring
        exact hv ▸ hr

/-- The residual graphs of a run: the network, and what a search and a walk make of one. -/
inductive Sent (fuel : ℕ) (infinity : ℤ) (source sink : ν) (original : List (Arc ν)) :
    List (Arc ν) → Prop
  | start : Sent fuel infinity source sink original original
  | next {graph next : List (Arc ν)} {s : Search ν} :
    Sent fuel infinity source sink original graph →
    search graph fuel (Search.start infinity source) = some s → s.distance sink ≠ infinity →
    augment s.previous source fuel sink graph = some (.ok next) →
    Sent fuel infinity source sink original next

inductive Walk (graph : List (Arc ν)) : ν → ν → ℤ → Prop
  | nil (node : ν) : Walk graph node node 0
  | cons {e : Step ν} {node : ν} {total : ℤ} : e ∈ steps graph → 0 < e.capacity →
    Walk graph e.target node total → Walk graph e.source node (e.cost + total)

omit [DecidableEq ν] in
theorem Potential.le_walk {u w : ν} (hp : Potential graph price) (h : Walk graph u w total) :
    price w ≤ price u + total := by
  induction h with
  | nil => simp
  | @cons e node total he hc _ ih =>
    have hle := hp e he hc
    omega

section

variable (h : ∀ arc ∈ original, 0 ≤ arc.capacity ∧ arc.reverse = 0 ∧ 0 ≤ arc.cost)
include h

theorem sending_start : Sending original source sink original 0 0 where
  frame := rfl
  flow :=
    { nonneg := fun arc ha => ⟨(h arc ha).1, (h arc ha).2.1.ge⟩
      excess := fun node => by
        have hz : ∀ c ∈ original.map (fun arc => (if arc.target = node then arc.reverse else 0) -
            if arc.source = node then arc.reverse else 0), c = 0 := fun c hc => by
          obtain ⟨arc, ha, rfl⟩ := mem_map.mp hc
          rw [(h arc ha).2.1]
          simp
        rw [ResidualGraph.excess, sum_eq_zero hz]
        simp }
  total := sum_eq_zero fun c hc => by
    obtain ⟨arc, ha, rfl⟩ := mem_map.mp hc
    rw [(h arc ha).2.1, mul_zero]
  priced := ⟨fun _ => 0, fun e he hcp => by
    obtain ⟨arc, ha, hs⟩ := mem_steps.mp he
    obtain ⟨-, hr, hcost⟩ := h arc (mem_of_getElem? ha)
    rw [hs] at hcp ⊢
    cases hf : e.forward <;> rw [hf] at hcp <;> simp only [Arc.step] at hcp ⊢ <;> omega⟩

/-- **The flow is optimal**, and enough fuel gives it. -/
theorem solve_spec (hs : (original.map Arc.cost).sum < infinity) (target : ℕ) :
    ∃ bound r, (∀ fuel ≥ bound,
      solve fuel infinity source sink target original 0 0 = some (.ok r)) ∧
      Optimal original source sink target r := by
  obtain ⟨bound, r, hrn, hr⟩ := solve_of_sending (fun arc ha => (h arc ha).2.2) hs target
    (@sending_start ν _ original source sink h)
  exact ⟨bound, r, hrn, by simpa using hr⟩

/-- No cycle of the residual graph lowers the cost. -/
theorem cycle_nonneg (hsm : (original.map Arc.cost).sum < infinity) {fuel : ℕ}
    (hsn : Sent fuel infinity source sink original graph) (hc : Walk graph v v total) :
    0 ≤ total := by
  have hs : ∃ value total, Sending original source sink graph value total := by
    clear hc
    induction hsn with
    | start => exact ⟨0, 0, sending_start h⟩
    | next _ hsr hsk ha ih =>
      obtain ⟨value, total, hs⟩ := ih
      exact ⟨_, _, hs.of_search (fun arc har => (h arc har).2.2) hsm hsr hsk
        ha⟩
  obtain ⟨_, _, hs⟩ := hs
  obtain ⟨price, hp⟩ := hs.priced
  have hle := hp.le_walk hc
  omega

end

end ResidualGraph
