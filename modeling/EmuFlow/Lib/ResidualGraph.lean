import Mathlib.Algebra.BigOperators.Ring.Finset
import Mathlib.Algebra.Order.BigOperators.Group.Finset
import Mathlib.Tactic

/-!
# Residual graphs

A flow network keeps for each arc the capacity that is left, and that of its reverse edge: the
amount that flows. Both are steps of the residual graph. Pushing a unit along a step changes the
excess of its two ends and the cost by the cost of the step.
-/

namespace ResidualGraph

open List

variable {ν : Type}

structure Arc (ν : Type) where
  source : ν
  target : ν
  capacity : ℤ
  /-- The capacity of the reverse edge, which is the amount that flows. -/
  reverse : ℤ
  cost : ℤ

structure Step (ν : Type) where
  index : ℕ
  forward : Bool
  source : ν
  target : ν
  capacity : ℤ
  cost : ℤ
  deriving DecidableEq

/-- `Edge forward{to, ..., capacity, cost}` and `Edge reverse{from, ..., 0, -cost}` -/
def Arc.step (arc : Arc ν) (index : ℕ) : Bool → Step ν
  | true => { index := index, forward := true, source := arc.source, target := arc.target,
              capacity := arc.capacity, cost := arc.cost }
  | false => { index := index, forward := false, source := arc.target, target := arc.source,
               capacity := arc.reverse, cost := -arc.cost }

def steps (graph : List (Arc ν)) : List (Step ν) :=
  graph.zipIdx.flatMap fun entry => [entry.1.step entry.2 true, entry.1.step entry.2 false]

def edgesFrom [DecidableEq ν] (graph : List (Arc ν)) (node : ν) : List (Step ν) :=
  (steps graph).filter fun e => e.source = node

def Arc.push (arc : Arc ν) : Bool → Arc ν
  | true => { arc with capacity := arc.capacity - 1, reverse := arc.reverse + 1 }
  | false => { arc with capacity := arc.capacity + 1, reverse := arc.reverse - 1 }

def push (graph : List (Arc ν)) (e : Step ν) : List (Arc ν) :=
  graph.modify e.index fun arc => arc.push e.forward

variable {graph other : List (Arc ν)} {e e' : Step ν} {arc : Arc ν} {p : List (Step ν)}

/-! ## steps -/

theorem mem_steps : e ∈ steps graph ↔
    ∃ arc, graph[e.index]? = some arc ∧ e = arc.step e.index e.forward := by
  simp only [steps, mem_flatMap, mem_cons, not_mem_nil, or_false, Prod.exists,
    List.mem_zipIdx_iff_getElem?]
  constructor
  · rintro ⟨arc, i, ha, rfl | rfl⟩
    · exact ⟨arc, ha, rfl⟩
    · exact ⟨arc, ha, rfl⟩
  · rintro ⟨arc, ha, he⟩
    refine ⟨arc, e.index, ha, ?_⟩
    cases hf : e.forward with
    | true => exact .inl (hf ▸ he)
    | false => exact .inr (hf ▸ he)

theorem mem_edgesFrom [DecidableEq ν] {node : ν} :
    e ∈ edgesFrom graph node ↔ e ∈ steps graph ∧ e.source = node := by
  simp [edgesFrom]

def OnArc (graph : List (Arc ν)) (e : Step ν) : Prop :=
  ∃ arc, graph[e.index]? = some arc ∧
    e = { arc.step e.index e.forward with capacity := e.capacity }

theorem onArc_of_mem_steps (h : e ∈ steps graph) : OnArc graph e := by
  obtain ⟨arc, ha, he⟩ := mem_steps.mp h
  refine ⟨arc, ha, ?_⟩
  rw [he]
  cases e.forward <;> rfl

theorem getElem?_push (i : ℕ) : (push graph e)[i]? =
    if e.index = i then (graph[i]?).map fun arc => arc.push e.forward else graph[i]? := by
  rw [push, List.getElem?_modify]
  split_ifs with h
  · rfl
  · cases graph[i]? <;> rfl

theorem OnArc.push (h : OnArc graph e') (e : Step ν) : OnArc (push graph e) e' := by
  obtain ⟨arc, ha, he⟩ := h
  by_cases hi : e.index = e'.index
  · refine ⟨arc.push e.forward, by rw [getElem?_push, if_pos hi, ha]; rfl, ?_⟩
    rw [he]
    cases e.forward <;> cases e'.forward <;> rfl
  · exact ⟨arc, by rw [getElem?_push, if_neg hi, ha], he⟩

theorem residual_push (he : OnArc graph e) (h : e' ∈ steps (push graph e))
    (hc : 0 < e'.capacity) :
    (∃ e'' ∈ steps graph, 0 < e''.capacity ∧ e''.source = e'.source ∧ e''.target = e'.target ∧
        e''.cost = e'.cost) ∨
      (e'.source = e.target ∧ e'.target = e.source ∧ e'.cost = -e.cost) := by
  obtain ⟨arc', ha', hs'⟩ := mem_steps.mp h
  rw [getElem?_push] at ha'
  by_cases hi : e.index = e'.index
  · rw [if_pos hi] at ha'
    obtain ⟨arc, ha, rfl⟩ := Option.map_eq_some_iff.mp ha'
    obtain ⟨arc₀, ha₀, hs⟩ := he
    rw [hi, ha] at ha₀
    cases ha₀
    by_cases hf : e'.forward = e.forward
    · -- the pushed edge itself, which had more capacity before
      refine .inl ⟨arc.step e'.index e'.forward, mem_steps.mpr ⟨arc, ?_, ?_⟩, ?_, ?_, ?_, ?_⟩
      · cases e'.forward <;> exact ha
      · cases e'.forward <;> rfl
      · have hp : 0 < ((arc.push e.forward).step e'.index e'.forward).capacity := hs' ▸ hc
        rw [hf] at hp ⊢
        cases hb : e.forward <;> rw [hb] at hp <;>
          simp only [Arc.push, Arc.step] at hp ⊢ <;> omega
      · rw [hs']; cases e.forward <;> cases e'.forward <;> rfl
      · rw [hs']; cases e.forward <;> cases e'.forward <;> rfl
      · rw [hs']; cases e.forward <;> cases e'.forward <;> rfl
    · right
      have hbc : e'.forward = !e.forward := Bool.eq_not_iff.mpr hf
      rw [hs', hs, hbc]
      cases e.forward <;> simp [Arc.step, Arc.push]
  · rw [if_neg hi] at ha'
    exact .inl ⟨e', mem_steps.mpr ⟨arc', ha', hs'⟩, hc, rfl, rfl, rfl⟩

theorem residual_foldl_push : ∀ {p : List (Step ν)} {graph : List (Arc ν)},
    (∀ e ∈ p, OnArc graph e) → e' ∈ steps (p.foldl push graph) → 0 < e'.capacity →
    (∃ e'' ∈ steps graph, 0 < e''.capacity ∧ e''.source = e'.source ∧ e''.target = e'.target ∧
        e''.cost = e'.cost) ∨
      ∃ e ∈ p, e'.source = e.target ∧ e'.target = e.source ∧ e'.cost = -e.cost
  | [], graph, _, h, hcp => .inl ⟨e', h, hcp, rfl, rfl, rfl⟩
  | e :: p, graph, hp, h, hcp => by
    obtain ⟨he, hr⟩ := forall_mem_cons.mp hp
    rcases residual_foldl_push (fun e' he' => (hr e' he').push e) h hcp with
      ⟨e'', hm, hcp'', hs, ht, hc⟩ | ⟨e'', hm, hsm⟩
    · rcases residual_push he hm hcp'' with ⟨e₃, hm₃, hcp₃, hs₃, ht₃, hc₃⟩ | ⟨hs₃, ht₃, hc₃⟩
      · exact .inl ⟨e₃, hm₃, hcp₃, hs₃.trans hs, ht₃.trans ht, hc₃.trans hc⟩
      · exact .inr ⟨e, mem_cons_self, hs ▸ hs₃, ht ▸ ht₃, hc ▸ hc₃⟩
    · exact .inr ⟨e'', mem_cons_of_mem _ hm, hsm⟩

/-! ## sums over the arcs -/

theorem sum_map_modify {α : Type} (F : α → ℤ) (f : α → α) :
    ∀ (l : List α) (i : ℕ) {a : α}, l[i]? = some a →
      ((l.modify i f).map F).sum = (l.map F).sum + (F (f a) - F a)
  | [], _, _, h => by simp at h
  | x :: l, 0, a, h => by
    obtain rfl : x = a := by simpa using h
    simp only [modify_zero_cons, map_cons, sum_cons]
    ring
  | x :: l, i + 1, a, h => by
    have ih := sum_map_modify F f l i (show l[i]? = some a by simpa using h)
    simp only [modify_succ_cons, map_cons, sum_cons, ih]
    ring

theorem map_modify_of_same {α β : Type} (F : α → β) (f : α → α) (hf : ∀ a, F (f a) = F a) :
    ∀ (l : List α) (i : ℕ), (l.modify i f).map F = l.map F
  | [], i => by simp
  | x :: l, 0 => by simp [hf]
  | x :: l, i + 1 => by simp [map_modify_of_same F f hf l i]

/-- What does not change when a unit is pushed. -/
def Arc.frame (arc : Arc ν) : ν × ν × ℤ × ℤ :=
  (arc.source, arc.target, arc.cost, arc.capacity + arc.reverse)

@[simp] theorem frame_push (arc : Arc ν) (b : Bool) : (arc.push b).frame = arc.frame := by
  cases b
  · simp only [Arc.frame, Arc.push, Prod.mk.injEq, true_and]
    ring
  · simp only [Arc.frame, Arc.push, Prod.mk.injEq, true_and]
    ring

theorem map_frame_push (graph : List (Arc ν)) (e : Step ν) :
    (push graph e).map Arc.frame = graph.map Arc.frame :=
  map_modify_of_same _ _ (fun arc => frame_push arc e.forward) graph e.index

theorem map_frame_foldl_push (p : List (Step ν)) (graph : List (Arc ν)) :
    (p.foldl push graph).map Arc.frame = graph.map Arc.frame := by
  induction p generalizing graph with
  | nil => rfl
  | cons e p ih => rw [foldl_cons, ih, map_frame_push]

def cost (graph : List (Arc ν)) : ℤ := (graph.map fun arc => arc.cost * arc.reverse).sum

def excess [DecidableEq ν] (graph : List (Arc ν)) (node : ν) : ℤ :=
  (graph.map fun arc => (if arc.target = node then arc.reverse else 0) -
    if arc.source = node then arc.reverse else 0).sum

theorem cost_push (h : OnArc graph e) : cost (push graph e) = cost graph + e.cost := by
  obtain ⟨arc, ha, he⟩ := h
  rw [cost, push, sum_map_modify _ _ _ _ ha, ← cost, he]
  congr 1
  cases e.forward
  · simp only [Arc.push, Arc.step]
    ring
  · simp only [Arc.push, Arc.step]
    ring

theorem excess_push [DecidableEq ν] (h : OnArc graph e) (node : ν) : excess (push graph e) node =
      excess graph node + ((if e.target = node then 1 else 0) -
        if e.source = node then 1 else 0) := by
  obtain ⟨arc, ha, he⟩ := h
  rw [excess, push, sum_map_modify _ _ _ _ ha, ← excess, he]
  congr 1
  by_cases ht : arc.target = node <;> by_cases hs : arc.source = node <;>
    cases e.forward <;> simp [Arc.push, Arc.step, ht, hs]

/-! ## flows -/

structure Flow [DecidableEq ν] (graph : List (Arc ν)) (source sink : ν) (value : ℤ) : Prop where
  nonneg : ∀ arc ∈ graph, 0 ≤ arc.capacity ∧ 0 ≤ arc.reverse
  excess : ∀ node, ResidualGraph.excess graph node =
    (if node = sink then value else 0) - if node = source then value else 0

/-- Two flows over the same arcs: one that no residual edge can make better for a weight is best. -/
theorem sum_weight_le (weight : ν → ν → ℤ → ℤ) : ∀ {graph other : List (Arc ν)},
    graph.map Arc.frame = other.map Arc.frame →
    (∀ arc ∈ graph, (0 < arc.capacity → 0 ≤ weight arc.source arc.target arc.cost) ∧
      (0 < arc.reverse → weight arc.source arc.target arc.cost ≤ 0)) →
    (∀ arc ∈ graph, 0 ≤ arc.capacity ∧ 0 ≤ arc.reverse) →
    (∀ arc ∈ other, 0 ≤ arc.capacity ∧ 0 ≤ arc.reverse) →
    (graph.map fun arc => weight arc.source arc.target arc.cost * arc.reverse).sum ≤
      (other.map fun arc => weight arc.source arc.target arc.cost * arc.reverse).sum
  | [], [], _, _, _, _ => le_refl _
  | [], _ :: _, h, _, _, _ => by simp at h
  | _ :: _, [], h, _, _, _ => by simp at h
  | arc :: graph, arc' :: other, h, ho, hp, hp' => by
    rw [map_cons, map_cons, List.cons.injEq] at h
    obtain ⟨hf, hrs⟩ := h
    simp only [Arc.frame, Prod.mk.injEq] at hf
    obtain ⟨hs, ht, hcs, htt⟩ := hf
    obtain ⟨⟨hfw, hb⟩, ho⟩ := forall_mem_cons.mp ho
    obtain ⟨⟨hc, hr⟩, hp⟩ := forall_mem_cons.mp hp
    obtain ⟨⟨hc', hr'⟩, hp'⟩ := forall_mem_cons.mp hp'
    have ih := sum_weight_le weight hrs ho hp hp'
    rw [map_cons, map_cons, sum_cons, sum_cons, ← hs, ← ht, ← hcs]
    have hh : weight arc.source arc.target arc.cost * arc.reverse ≤
        weight arc.source arc.target arc.cost * arc'.reverse := by
      rcases lt_trichotomy (weight arc.source arc.target arc.cost) 0 with hw | hw | hw
      · -- the arc is full
        have hfl : arc.capacity = 0 := by
          rcases hc.lt_or_eq with hlt | heq
          · exact absurd (hfw hlt) (not_le.mpr hw)
          · exact heq.symm
        exact mul_le_mul_of_nonpos_left (by omega) hw.le
      · rw [hw, zero_mul, zero_mul]
      · -- the arc is empty
        have he : arc.reverse = 0 := by
          rcases hr.lt_or_eq with hlt | heq
          · exact absurd (hb hlt) (not_le.mpr hw)
          · exact heq.symm
        exact mul_le_mul_of_nonneg_left (by omega) hw.le
    exact add_le_add hh ih

variable [DecidableEq ν]

theorem sum_price (price : ν → ℤ) (nodes : Finset ν) : ∀ {graph : List (Arc ν)},
    (∀ arc ∈ graph, arc.source ∈ nodes ∧ arc.target ∈ nodes) →
    (graph.map fun arc => (price arc.target - price arc.source) * arc.reverse).sum =
      ∑ node ∈ nodes, price node * excess graph node
  | [], _ => by simp [excess]
  | arc :: graph, h => by
    obtain ⟨⟨hs, ht⟩, hr⟩ := forall_mem_cons.mp h
    have ih := sum_price price nodes hr
    have he : ∀ node, excess (arc :: graph) node =
        ((if arc.target = node then arc.reverse else 0) -
          if arc.source = node then arc.reverse else 0) + excess graph node := fun node => by
      simp [excess]
    rw [map_cons, sum_cons, ih]
    simp only [he, mul_add, mul_sub, mul_ite, mul_zero, Finset.sum_add_distrib,
      Finset.sum_sub_distrib, Finset.sum_ite_eq, hs, ht, if_true]
    ring

omit [DecidableEq ν] in
theorem sum_map_sub (F G : Arc ν → ℤ) (graph : List (Arc ν)) :
    (graph.map fun arc => F arc - G arc).sum = (graph.map F).sum - (graph.map G).sum := by
  induction graph with
  | nil => rfl
  | cons arc graph ih =>
    simp only [map_cons, sum_cons, ih]
    ring

def nodesOf (graph : List (Arc ν)) : Finset ν :=
  (graph.map Arc.source ++ graph.map Arc.target).toFinset

theorem mem_nodesOf (h : arc ∈ graph) : arc.source ∈ nodesOf graph ∧
    arc.target ∈ nodesOf graph := by
  simp only [nodesOf, mem_toFinset, List.mem_append, mem_map]
  exact ⟨.inl ⟨arc, h, rfl⟩, .inr ⟨arc, h, rfl⟩⟩

theorem mem_nodesOf_of_frame (hs : graph.map Arc.frame = other.map Arc.frame)
    (h : arc ∈ other) : arc.source ∈ nodesOf graph ∧ arc.target ∈ nodesOf graph := by
  have hm : arc.frame ∈ graph.map Arc.frame := hs ▸ mem_map_of_mem h
  obtain ⟨arc', ha', hf⟩ := mem_map.mp hm
  simp only [Arc.frame, Prod.mk.injEq] at hf
  rw [← hf.1, ← hf.2.1]
  exact mem_nodesOf ha'

/-- Prices that no residual edge undercuts. -/
def Potential (graph : List (Arc ν)) (price : ν → ℤ) : Prop :=
  ∀ e ∈ steps graph, 0 < e.capacity → price e.target ≤ price e.source + e.cost

omit [DecidableEq ν] in
theorem Potential.on_arc {price : ν → ℤ} (h : Potential graph price) (ha : arc ∈ graph) :
    (0 < arc.capacity → price arc.target ≤ price arc.source + arc.cost) ∧
      (0 < arc.reverse → price arc.source ≤ price arc.target - arc.cost) := by
  obtain ⟨i, hi⟩ := mem_iff_getElem?.mp ha
  constructor
  · exact h (arc.step i true) (mem_steps.mpr ⟨arc, hi, rfl⟩)
  · intro hc
    have hle := h (arc.step i false) (mem_steps.mpr ⟨arc, hi, rfl⟩) hc
    simp only [Arc.step] at hle
    omega

/-- Prices bound what another flow of the same arcs weighs; its value may differ. -/
theorem sum_add_le_of_price {source sink : ν} {value value' : ℤ} {price : ν → ℤ} (w : ℤ → ℤ)
    (hs : graph.map Arc.frame = other.map Arc.frame)
    (hpc : ∀ arc ∈ graph, (0 < arc.capacity → price arc.target ≤ price arc.source + w arc.cost) ∧
      (0 < arc.reverse → price arc.source ≤ price arc.target - w arc.cost))
    (hf : Flow graph source sink value) (ho : Flow other source sink value') :
    (graph.map fun arc => w arc.cost * arc.reverse).sum +
        (value' - value) * (price sink - price source) ≤
      (other.map fun arc => w arc.cost * arc.reverse).sum := by
  have hle := sum_weight_le (fun source target c => w c - (price target - price source)) hs
    (fun arc ha => ⟨fun hc => by have := (hpc arc ha).1 hc; omega,
      fun hr => by have := (hpc arc ha).2 hr; omega⟩) hf.nonneg ho.nonneg
  simp only [sub_mul (_ : ℤ) (price _ - price _), sum_map_sub] at hle
  -- all nodes, the two ends included
  let nodes := insert source (insert sink (nodesOf graph))
  have hnd : ∀ {node}, node ∈ nodesOf graph → node ∈ nodes := fun h =>
    Finset.mem_insert_of_mem (Finset.mem_insert_of_mem h)
  have hp := sum_price price nodes fun arc ha =>
    ⟨hnd (mem_nodesOf ha).1, hnd (mem_nodesOf ha).2⟩
  have hp' := sum_price price nodes fun arc ha =>
    ⟨hnd (mem_nodesOf_of_frame hs ha).1, hnd (mem_nodesOf_of_frame hs ha).2⟩
  have hv : ∀ {graph : List (Arc ν)} {value : ℤ}, Flow graph source sink value →
      (∑ node ∈ nodes, price node * excess graph node) = value * (price sink - price source) := by
    intro graph value hf
    have hsn : sink ∈ nodes := by simp [nodes]
    have hsr : source ∈ nodes := by simp [nodes]
    simp only [hf.excess, mul_sub, mul_ite, mul_zero, Finset.sum_sub_distrib,
      Finset.sum_ite_eq', if_pos hsn, if_pos hsr]
    ring
  rw [hv hf] at hp
  rw [hv ho] at hp'
  rw [sub_mul]
  omega

theorem cost_add_le_of_potential {source sink : ν} {value value' : ℤ} {price : ν → ℤ}
    (hs : graph.map Arc.frame = other.map Arc.frame) (hp : Potential graph price)
    (hf : Flow graph source sink value) (ho : Flow other source sink value') :
    cost graph + (value' - value) * (price sink - price source) ≤ cost other :=
  sum_add_le_of_price id hs (fun _ ha => hp.on_arc ha) hf ho

theorem cost_le_of_potential {source sink : ν} {value : ℤ} {price : ν → ℤ}
    (hs : graph.map Arc.frame = other.map Arc.frame) (hp : Potential graph price)
    (hf : Flow graph source sink value) (ho : Flow other source sink value) :
    cost graph ≤ cost other := by
  have hle := cost_add_le_of_potential hs hp hf ho
  rwa [sub_self, zero_mul, add_zero] at hle

theorem value_le_of_closed {source sink : ν} {value value' : ℤ} (reached : ν → Bool)
    (hs : graph.map Arc.frame = other.map Arc.frame)
    (hcl : ∀ e ∈ steps graph, 0 < e.capacity → reached e.source = true →
      reached e.target = true) (hsr : reached source = true) (hsn : reached sink = false)
    (hf : Flow graph source sink value) (ho : Flow other source sink value') :
    value' ≤ value := by
  let price : ν → ℤ := fun node => if reached node then 0 else 1
  have hp : ∀ e ∈ steps graph, 0 < e.capacity → price e.target ≤ price e.source := by
    intro e he hc
    have hm := hcl e he hc
    simp only [price]
    split_ifs <;> simp_all
  have hr : ∀ arc ∈ graph, (0 < arc.capacity → price arc.target ≤ price arc.source + 0) ∧
      (0 < arc.reverse → price arc.source ≤ price arc.target - 0) := by
    intro arc ha
    obtain ⟨i, hi⟩ := mem_iff_getElem?.mp ha
    have hfr := hp (arc.step i true) (mem_steps.mpr ⟨arc, hi, rfl⟩)
    have hb := hp (arc.step i false) (mem_steps.mpr ⟨arc, hi, rfl⟩)
    rw [add_zero, sub_zero]
    exact ⟨hfr, hb⟩
  have hle := sum_add_le_of_price (fun _ => 0) hs hr hf ho
  simp [price, hsr, hsn] at hle
  omega

omit [DecidableEq ν] in
theorem nonneg_foldl_push : ∀ {p : List (Step ν)} {graph : List (Arc ν)},
    (p.map Step.index).Nodup → (∀ e ∈ p, e ∈ steps graph ∧ 0 < e.capacity) →
    (∀ arc ∈ graph, 0 ≤ arc.capacity ∧ 0 ≤ arc.reverse) →
    ∀ arc ∈ p.foldl push graph, 0 ≤ arc.capacity ∧ 0 ≤ arc.reverse
  | [], _, _, _, hps => hps
  | e :: p, graph, hnd, hp, hps => by
    rw [map_cons, nodup_cons] at hnd
    obtain ⟨⟨he, hc⟩, hr⟩ := forall_mem_cons.mp hp
    refine @nonneg_foldl_push p (push graph e) hnd.2 (fun e' he' => ?_) fun arc ha => ?_
    · obtain ⟨arc, ha, hs⟩ := mem_steps.mp (hr e' he').1
      have hne : e.index ≠ e'.index := fun h => hnd.1 (h ▸ mem_map_of_mem he')
      exact ⟨mem_steps.mpr ⟨arc, by rw [getElem?_push, if_neg hne, ha], hs⟩, (hr e' he').2⟩
    · obtain ⟨i, hi⟩ := mem_iff_getElem?.mp ha
      rw [getElem?_push] at hi
      split_ifs at hi with hin
      · obtain ⟨arc₀, ha₀, rfl⟩ := Option.map_eq_some_iff.mp hi
        obtain ⟨arc₁, ha₁, hs⟩ := mem_steps.mp he
        rw [hin, ha₀] at ha₁
        cases ha₁
        have h₀ := hps arc₀ (mem_of_getElem? ha₀)
        rw [hs] at hc
        cases hb : e.forward <;> rw [hb] at hc <;> simp only [Arc.step] at hc <;>
          simp only [Arc.push] <;> omega
      · exact hps arc (mem_of_getElem? hi)

end ResidualGraph
