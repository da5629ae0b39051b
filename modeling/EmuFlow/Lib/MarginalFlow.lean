import EmuFlow.Lib.MinCostFlow

/-!
# Flows below a sentinel

`infinity` stands for an unreached node, but the costs may let a node be farther than that. Prices
that are nowhere above that of the sink tell that no shortest path to the sink leaves the distances
the search can hold. So the run sends a unit as long as it costs less than `infinity`, and every
flow it reaches has the least cost of its value.
-/

namespace ResidualGraph

variable {ν : Type} [DecidableEq ν]

variable {graph original other : List (Arc ν)} {source sink : ν} {infinity : ℤ} {price : ν → ℤ}
  {s : Search ν} {v : ν} {p : List (Step ν)} {value value' total : ℤ}

/-- Prices between the units of a run. -/
structure Capped (graph : List (Arc ν)) (source sink : ν) (infinity : ℤ) (price : ν → ℤ) :
    Prop where
  potential : Potential graph price
  cap : ∀ v, price v ≤ price sink
  gap : price sink - price source < infinity

omit [DecidableEq ν] in
theorem Labelled.price_le (hf : Labelled graph source infinity s)
    (hpc : Potential graph price) (hp : Traced s.previous source v p)
    (hv : s.distance v < infinity) : price v - price source ≤ s.distance v := by
  induction hp with
  | nil => rw [hf.source_zero, sub_self]
  | @cons v e p hne hpr _ ih =>
    have he := hf.tree v e hne hv hpr
    have hle := hpc e he.mem he.room
    have hr := ih he.reached
    have ht := he.tight
    rw [he.target] at hle
    omega

omit [DecidableEq ν] in
theorem nextPrice_le (v : ν) : nextPrice infinity source sink s price v ≤
    price v + (s.distance sink + price source - price sink) := by
  unfold nextPrice
  split_ifs
  · exact min_le_right _ _
  · exact le_refl _

omit [DecidableEq ν] in
theorem Capped.nextPrice_edge (h : Capped graph source sink infinity price)
    (hf : Labelled graph source infinity s) {e : Step ν} (he : e ∈ steps graph)
    (hcp : 0 < e.capacity) : nextPrice infinity source sink s price e.target ≤
      nextPrice infinity source sink s price e.source + e.cost := by
  have hle := h.potential e he hcp
  have hc := hf.closed e he hcp
  have htp := hf.le_infinity sink
  have hb := h.cap e.target
  have ht := hf.le_infinity e.target
  unfold nextPrice
  by_cases hr : s.distance e.source < infinity
  · have hd := hc hr
    rw [if_pos hr]
    split_ifs <;> omega
  · rw [if_neg hr]
    split_ifs <;> omega

omit [DecidableEq ν] in
theorem Capped.next (h : Capped graph source sink infinity price)
    (hf : Labelled graph source infinity s) (hp : Traced s.previous source sink p)
    (hsn : s.distance sink < infinity) :
    Capped (p.foldl push graph) source sink infinity (nextPrice infinity source sink s price) := by
  have ho : ∀ e ∈ p, OnArc graph e := fun e he => onArc_of_mem_steps
    ((distance_of_traced hf.source_zero hf.tree hp hsn).2 e he).1
  have ha : nextPrice infinity source sink s price sink = s.distance sink + price source := by
    rw [nextPrice, if_pos hsn]
    omega
  have hl := hf.price_le h.potential hp hsn
  refine ⟨fun e he hcp => ?_, fun v => ?_, ?_⟩
  · rcases residual_foldl_push ho he hcp with
      ⟨e', he', hcp', hs, ht, hc⟩ | ⟨e', he', hs, ht, hc⟩
    · rw [← hs, ← ht, ← hc]
      exact h.nextPrice_edge hf he' hcp'
    · -- the reverse of an edge of the path, where the distances are tight
      obtain ⟨htr, hsr, htg, hr, hr'⟩ :=
        reduced_le hf h.potential hp hsn e' he'
      unfold nextPrice
      rw [hs, ht, hc, if_pos hr, if_pos hr']
      omega
  · have hle := @nextPrice_le _ source sink infinity price s v
    have hcp := h.cap v
    omega
  · have hz := hf.source_zero
    have hg := h.gap
    have hcp := h.cap source
    have hsr : price source ≤ nextPrice infinity source sink s price source := by
      rw [nextPrice, hz, if_pos (by omega)]
      omega
    omega

/-! ## the run -/

/-- What holds between two units. -/
structure SendingBelow (original : List (Arc ν)) (source sink : ν) (infinity : ℤ)
    (graph : List (Arc ν)) (value total : ℤ) : Prop where
  frame : graph.map Arc.frame = original.map Arc.frame
  flow : Flow graph source sink value
  total : cost graph = total
  priced : ∃ price, Capped graph source sink infinity price

theorem SendingBelow.le (h : SendingBelow original source sink infinity graph value total)
    (hs : other.map Arc.frame = original.map Arc.frame)
    (ho : Flow other source sink value) : total ≤ cost other := by
  obtain ⟨price, hp⟩ := h.priced
  rw [← h.total]
  exact cost_le_of_potential (h.frame.trans hs.symm) hp.potential h.flow ho

theorem Capped.stuck (h : Capped graph source sink infinity price)
    (hf : Labelled graph source infinity s) (hi : 0 < infinity)
    (hs : s.distance sink = infinity) (hsm : graph.map Arc.frame = other.map Arc.frame)
    (hfl : Flow graph source sink value) (ho : Flow other source sink value') :
    cost graph + (value' - value) * infinity ≤ cost other := by
  have hle := cost_add_le_of_potential hsm
    (fun e he hc => h.nextPrice_edge hf he hc) hfl ho
  have hg := h.gap
  have ha : nextPrice infinity source sink s price sink -
      nextPrice infinity source sink s price source = infinity := by
    unfold nextPrice
    rw [hs, hf.source_zero, if_neg (lt_irrefl _), if_pos hi]
    omega
  rwa [ha] at hle

theorem SendingBelow.next (h : SendingBelow original source sink infinity graph value total)
    (hin : 0 < infinity) :
    ∃ bound s, (∀ fuel ≥ bound, search graph fuel (Search.start infinity source) = some s) ∧
      (s.distance sink = infinity → ∀ other, other.map Arc.frame = original.map Arc.frame →
        Flow other source sink (value + 1) → total + infinity ≤ cost other) ∧
      (s.distance sink ≠ infinity → s.distance sink < infinity ∧ ∃ next, (∀ fuel ≥ bound,
        augment s.previous source fuel sink graph = some (.ok next)) ∧
        SendingBelow original source sink infinity next (value + 1) (total + s.distance sink)) := by
  obtain ⟨price, hpr⟩ := h.priced
  obtain ⟨bound, s, hr, hi, hq⟩ :=
    exists_search hpr.potential _ (searchInv_start hin)
  have hf := labelled_of_searchInv hi hq
  by_cases hs : s.distance sink = infinity
  · refine ⟨bound, s, hr, fun _ other hsm ho => ?_, fun hne => absurd hs hne⟩
    have hle := hpr.stuck hf hin hs (h.frame.trans hsm.symm) h.flow ho
    rw [h.total] at hle
    linarith
  · have hlt : s.distance sink < infinity := lt_of_le_of_ne (hf.le_infinity sink) hs
    obtain ⟨p, hp, hnd⟩ := hf.traced sink hlt
    obtain ⟨hfw, ht⟩ := augmented hf h.flow hp hnd hlt
    refine ⟨max bound (p.length + 1), s, fun fuel hfl => hr fuel (le_of_max_le_left hfl),
      fun heq => absurd heq hs, fun _ => ⟨hlt, p.foldl push graph, fun fuel hfl => ?_,
        (map_frame_foldl_push p graph).trans h.frame, hfw, by rw [ht, h.total],
        _, hpr.next hf hp hlt⟩⟩
    exact augment_of_traced hp (Nat.lt_of_succ_le (le_of_max_le_right hfl))

/-- After every flow one with a unit more costs less than `infinity` more. -/
def Affordable (original : List (Arc ν)) (source sink : ν) (infinity first last : ℤ) : Prop :=
  ∀ value, first ≤ value → value < last → ∀ graph,
    graph.map Arc.frame = original.map Arc.frame → Flow graph source sink value →
    ∃ next, next.map Arc.frame = original.map Arc.frame ∧ Flow next source sink (value + 1) ∧
      cost next < cost graph + infinity

/-- As long as units can be sent the run goes on; it sends them all when all are affordable. -/
theorem solve_of_sendingBelow (hin : 0 < infinity) : ∀ (remaining : ℕ)
    {graph : List (Arc ν)} {value total : ℤ},
    SendingBelow original source sink infinity graph value total →
    ∃ bound r, (∀ fuel ≥ bound, solve fuel infinity source sink remaining graph value total =
      some (.ok r)) ∧ SendingBelow original source sink infinity r.graph r.flow r.totalCost ∧
      (r.flow = value + remaining ↔
        Affordable original source sink infinity value (value + remaining))
  | 0, graph, value, total, h => by
    refine ⟨0, ⟨graph, value, total⟩, fun _ _ => rfl, h, fun _ value' hle hlt => ?_,
      fun _ => by simp⟩
    simp only [Nat.cast_zero, add_zero] at hlt
    omega
  | remaining + 1, graph, value, total, h => by
    obtain ⟨bound, s, hsr, hst, hnx⟩ := h.next hin
    by_cases hsk : s.distance sink = infinity
    · refine ⟨bound, ⟨graph, value, total⟩, fun fuel hfl => ?_, h, fun hfu => ?_, fun haf => ?_⟩
      · simp only [solve, hsr fuel hfl, if_pos hsk]
      · dsimp only at hfu
        push_cast at hfu
        omega
      · obtain ⟨next, hsm, hfw, hlt⟩ := haf value (le_refl _) (by push_cast; omega)
          graph h.frame h.flow
        have hle := hst hsk next hsm hfw
        rw [h.total] at hlt
        omega
    · obtain ⟨hlt, next, hag, hsn⟩ := hnx hsk
      obtain ⟨bound', r, hrn, hr, hif⟩ := solve_of_sendingBelow hin remaining hsn
      have hvl : value + 1 + (remaining : ℤ) = value + ((remaining + 1 : ℕ) : ℤ) := by
        push_cast
        ring
      refine ⟨max bound bound', r, fun fuel hfl => ?_, hr, ?_⟩
      · simp only [solve, hsr fuel (le_of_max_le_left hfl), if_neg hsk,
          hag fuel (le_of_max_le_left hfl)]
        exact hrn fuel (le_of_max_le_right hfl)
      · rw [← hvl, hif]
        constructor
        · intro hrs value' hle hls graph' hsm hfw
          rcases eq_or_lt_of_le hle with rfl | hmr
          · refine ⟨next, hsn.frame, hsn.flow, ?_⟩
            have hlea := h.le hsm hfw
            rw [hsn.total]
            omega
          · exact hrs value' (by omega) hls graph' hsm hfw
        · exact fun hal value' hle hls => hal value' (by omega) hls

theorem solve_affordable (h : ∀ arc ∈ original, 0 ≤ arc.capacity ∧ arc.reverse = 0 ∧ 0 ≤ arc.cost)
    (hi : 0 < infinity) (target : ℕ) : ∃ bound r, (∀ fuel ≥ bound,
      solve fuel infinity source sink target original 0 0 = some (.ok r)) ∧
      SendingBelow original source sink infinity r.graph r.flow r.totalCost ∧
      (r.flow = target ↔ Affordable original source sink infinity 0 target) := by
  have hs := @sending_start ν _ original source sink h
  have hb : SendingBelow original source sink infinity original 0 0 := by
    refine ⟨rfl, hs.flow, hs.total, fun _ => 0, fun e he hcp => ?_, fun _ => le_refl _,
      by simpa using hi⟩
    obtain ⟨arc, ha, hst⟩ := mem_steps.mp he
    obtain ⟨-, hrv, hc⟩ := h arc (List.mem_of_getElem? ha)
    rw [hst] at hcp ⊢
    cases hf : e.forward <;> rw [hf] at hcp <;> simp only [Arc.step] at hcp ⊢ <;> omega
  obtain ⟨bound, r, hrn, hr, hif⟩ := solve_of_sendingBelow hi target hb
  exact ⟨bound, r, hrn, hr, by simpa using hif⟩

end ResidualGraph
