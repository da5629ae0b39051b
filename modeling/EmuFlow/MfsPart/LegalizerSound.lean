import EmuFlow.MfsPart.Legalizer

/-!
# Filling parts: the run

What the legalizer's loop keeps: the tables are those of the assignment, the capacities and the
fixed nodes are respected, every step fills the lowest-numbered empty part and empties none, and the
deltas of the moves add up to the change of the two metrics. The loop fails only when no movable
node has room in the lowest-numbered empty part.
-/

namespace EmuFlow.MfsPart.Legalizer

open SortedSet List Reassign Binary64
open Function (update update_of_ne update_self)

variable {numParts n dims m : ℕ}

/-! ## the metrics -/

section metrics

variable (input : Input numParts n dims m) (a : Fin n → Fin numParts)

def partLoad (part : Fin numParts) (dimension : Fin dims) : ℤ :=
  Reassign.total (fun node => ((input.nodes node).weights dimension : ℤ)) a part

def usedBy (a : Fin n → Fin numParts) : Finset (Fin numParts) := Finset.univ.image a

def touched (net : Net n) : Finset (Fin numParts) := (net.pins.map a).toFinset

def netPairCut (net : Net n) : ℚ :=
  (net.sinks.map fun sink => net.weight * (differ (a net.source) (a sink) : ℤ)).sum

def netConnectivity (net : Net n) : ℚ := net.weight * ((touched a net).card - 1 : ℤ)

def pairCut : ℚ := ((finRange m).map fun net => netPairCut a (input.nets net)).sum

def connectivity : ℚ :=
  ((finRange m).map fun net => netConnectivity a (input.nets net)).sum

end metrics

/-! ## counts -/

def countOf (nodes : List (Fin n)) (a : Fin n → Fin numParts) : Fin numParts → ℤ :=
  Reassign.total (fun node => (nodes.count node : ℤ)) a

theorem countOf_cons (node : Fin n) (rest : List (Fin n))
    (a : Fin n → Fin numParts) (part : Fin numParts) :
    countOf (node :: rest) a part = countOf rest a part + if a node = part then 1 else 0 := by
  unfold countOf total
  rw [sum_eq_of_off node (f := fun i => if a i = part then (rest.count i : ℤ) else 0)]
  · split_ifs
    · simp only [count_cons_self]
      push_cast
      ring
    · ring
  · intro other hne
    simp only [count_cons_of_ne hne.symm]

theorem countParts_eq (input : Input numParts n dims m)
    (nodes : List (Fin n)) : countParts input nodes = countOf nodes input.assignment := by
  have hf : ∀ (nodes : List (Fin n)) (counts : Fin numParts → ℤ) (part : Fin numParts),
      nodes.foldl (fun counts node => update counts (input.assignment node)
        (counts (input.assignment node) + 1)) counts part =
        counts part + countOf nodes input.assignment part := by
    intro nodes
    induction nodes with
    | nil => simp [countOf, total]
    | cons node rest ih =>
      intro counts part
      rw [foldl_cons, ih, countOf_cons]
      by_cases hp : input.assignment node = part
      · subst hp
        simp
        ring
      · simp [hp, update_of_ne (Ne.symm hp)]
  funext part
  rw [countParts, hf, zero_add]

theorem countOf_pos_iff {nodes : List (Fin n)} {a : Fin n → Fin numParts}
    {part : Fin numParts} : 0 < countOf nodes a part ↔ ∃ node ∈ nodes, a node = part := by
  rw [countOf, total_pos_iff fun _ => Int.natCast_nonneg _]
  simp only [Nat.cast_pos, count_pos_iff]
  exact ⟨fun ⟨node, h, hm⟩ => ⟨node, hm, h⟩, fun ⟨node, hm, h⟩ => ⟨node, h, hm⟩⟩

section

variable (nodes : List (Fin n)) (a : Fin n → Fin numParts)
include nodes a

theorem countOf_nonneg (part : Fin numParts) : 0 ≤ countOf nodes a part :=
  total_nonneg (fun _ => Int.natCast_nonneg _) a part

theorem usedParts_countOf : usedParts (countOf nodes a) = ((nodes.map a).toFinset.card : ℤ) := by
  rw [usedParts, used_eq_card]
  congr 2
  ext part
  simp [countOf_pos_iff]

theorem countOf_update (node : Fin n) (target : Fin numParts) :
    countOf nodes (update a node target) =
      Reassign.shift (countOf nodes a) (a node) target (nodes.count node : ℤ) :=
  total_update _ a node target

end

/-! ## the initial state -/

section initial

variable (input : Input numParts n dims m)

def listedLoad (nodes : List (Fin n)) (part : Fin numParts)
    (dimension : Fin dims) : ℤ :=
  (nodes.map fun node => if input.assignment node = part then
    ((input.nodes node).weights dimension : ℤ) else 0).sum

theorem listedLoad_finRange : listedLoad input (finRange n) = partLoad input input.assignment := by
  funext part dimension
  rw [listedLoad, partLoad, total, Fin.sum_univ_def]

variable {input}

theorem listedLoad_append (done rest : List (Fin n)) (part : Fin numParts) (dimension : Fin dims) :
    listedLoad input (done ++ rest) part dimension =
      listedLoad input done part dimension + listedLoad input rest part dimension := by
  rw [listedLoad, map_append, sum_append]
  rfl

theorem listedLoad_nonneg (nodes : List (Fin n)) (part : Fin numParts)
    (dimension : Fin dims) : 0 ≤ listedLoad input nodes part dimension := by
  refine sum_nonneg fun load hl => ?_
  obtain ⟨node, -, rfl⟩ := mem_map.mp hl
  split_ifs
  · exact Int.natCast_nonneg _
  · exact le_rfl

theorem foldlM_addWeight {node : Fin n} :
    ∀ {dimensions : List (Fin dims)} {loads : Fin numParts → Fin dims → ℤ}, dimensions.Nodup →
      (∀ dimension ∈ dimensions,
        loads (input.assignment node) dimension + (input.nodes node).weights dimension ≤
          input.capacities (input.assignment node) dimension) →
      dimensions.foldlM (addWeight input node) loads = .ok fun part dimension =>
        loads part dimension + if input.assignment node = part ∧ dimension ∈ dimensions then
          ((input.nodes node).weights dimension : ℤ) else 0
  | [], _, _, _ => by simp; rfl
  | dimension :: rest, loads, hnd, hr => by
    have hf := nodup_cons.mp hnd
    rw [foldlM_cons, addWeight]
    simp only [if_neg (not_lt.mpr (hr dimension mem_cons_self))]
    show List.foldlM (addWeight input node) _ rest = _
    rw [foldlM_addWeight hf.2]
    · congr 1
      funext part other
      by_cases hp : input.assignment node = part
      · subst hp
        by_cases hd : other = dimension
        · subst hd
          simp [hf.1]
        · simp [hd]
      · simp [update_of_ne (Ne.symm hp), hp]
    · intro other ho
      -- the dimensions that come later are as they were
      have hne : other ≠ dimension := fun heq => hf.1 (heq ▸ ho)
      rw [update_self, update_of_ne hne]
      exact hr other (mem_cons_of_mem _ ho)

theorem initialLoads_eq (hc : ∀ part dimension,
      partLoad input input.assignment part dimension ≤ input.capacities part dimension) :
    initialLoads input = .ok (partLoad input input.assignment) := by
  have hrn : ∀ (rest done : List (Fin n)), done ++ rest = finRange n →
      rest.foldlM (fun loads node =>
        (finRange dims).foldlM (addWeight input node) loads)
        (listedLoad input done) = .ok (partLoad input input.assignment) := by
    intro rest
    induction rest with
    | nil =>
      intro done hd
      rw [append_nil] at hd
      rw [hd, listedLoad_finRange]
      rfl
    | cons node rest ih =>
      intro done hd
      have hn : ∀ part dimension, listedLoad input (done ++ [node]) part dimension =
          listedLoad input done part dimension + if input.assignment node = part then
            ((input.nodes node).weights dimension : ℤ) else 0 := by
        intro part dimension
        rw [listedLoad_append]
        simp [listedLoad]
      have hs : done ++ node :: rest = (done ++ [node]) ++ rest := by simp
      rw [foldlM_cons, foldlM_addWeight (nodup_finRange _)]
      · show List.foldlM _ _ rest = _
        rw [← ih (done ++ [node]) (by rw [← hs, hd])]
        congr 1
        funext part dimension
        rw [hn]
        simp
      · intro dimension _
        have ht := hc (input.assignment node) dimension
        rw [← listedLoad_finRange, ← hd, hs, listedLoad_append, hn, if_pos rfl] at ht
        have hr : 0 ≤ listedLoad input rest (input.assignment node) dimension :=
          listedLoad_nonneg rest _ dimension
        omega
  have hst : listedLoad input [] = fun _ _ => 0 := rfl
  rw [initialLoads, ← hst]
  exact hrn _ [] rfl

end initial

/-! ## the state of an assignment -/

structure Consistent (input : Input numParts n dims m)
    (state : State numParts n dims m) : Prop where
  counts_eq : state.counts = countOf (finRange n) state.assignment
  loads_eq : state.loads = partLoad input state.assignment
  netPartCounts_eq : ∀ net, state.netPartCounts net = countOf (input.nets net).pins state.assignment

section turns

variable {input : Input numParts n dims m}
  {state : State numParts n dims m}

theorem initialState_eq (hc : ∀ part d,
      partLoad input input.assignment part d ≤ input.capacities part d) :
    ∃ start, initialState input = .ok start ∧ start.assignment = input.assignment ∧
      start.moves = [] ∧ Consistent input start := by
  refine ⟨{ assignment := input.assignment
            counts := countParts input (finRange n)
            loads := partLoad input input.assignment
            netPartCounts := fun net => countParts input (input.nets net).pins
            moves := [] }, ?_, rfl, rfl, countParts_eq _ _, rfl, fun net => countParts_eq _ _⟩
  rw [initialState, initialLoads_eq hc]
  rfl

theorem partLoad_update (a : Fin n → Fin numParts) (node : Fin n)
    (target part : Fin numParts) (dimension : Fin dims) :
    partLoad input (update a node target) part dimension =
      Reassign.shift (fun q => partLoad input a q dimension) (a node) target
        ((input.nodes node).weights dimension) part := by
  rw [partLoad, total_update]
  rfl

variable {node : Fin n}

theorem mem_incident {net : Fin m} : net ∈ incident input node ↔ node ∈ (input.nets net).pins := by
  simp [incident]

variable {move : Move numParts n}

theorem Consistent.applyMove (h : Consistent input state)
    (hs : state.assignment move.node = move.source) :
    Consistent input (applyMove input state move) := by
  constructor
  · show shift _ _ _ 1 = countOf _ (update _ _ _)
    rw [countOf_update, h.counts_eq, hs,
      count_eq_one_of_mem (nodup_finRange _) (mem_finRange _)]
    rfl
  · funext part dimension
    have hl : (Legalizer.applyMove input state move).loads part dimension =
        shift (fun q => state.loads q dimension) move.source move.target
          ((input.nodes move.node).weights dimension) part := rfl
    rw [hl, h.loads_eq, ← hs]
    exact (partLoad_update state.assignment move.node move.target part dimension).symm
  · intro net
    show (if net ∈ incident input move.node then _ else _) = countOf _ (update _ _ _)
    rw [countOf_update, h.netPartCounts_eq, hs]
    split_ifs with hm
    · rw [count_eq_one_of_mem (input.nets net).nodup_pins (mem_incident.mp hm)]
      rfl
    · -- a net without the node keeps its counts
      rw [count_eq_zero_of_not_mem fun hp => hm (mem_incident.mpr hp)]
      funext part
      simp [shift]

theorem sum_incident (node : Fin n) {f g : Fin m → ℚ}
    (h : ∀ net, node ∉ (input.nets net).pins → g net = f net) :
    ((incident input node).map fun net => g net - f net).sum =
      ((finRange m).map g).sum - ((finRange m).map f).sum := by
  have hs := sum_map_of_filter (l := finRange m) (f := f) (g := g)
    (p := fun net => decide (node ∈ (input.nets net).pins)) fun net _ hn =>
      h net (by simpa using hn)
  have hsb : ((incident input node).map fun net => g net - f net).sum =
      ((incident input node).map g).sum - ((incident input node).map f).sum := by
    induction incident input node with
    | nil => simp
    | cons net rest ih =>
      simp only [map_cons, sum_cons, ih]
      ring
  rw [hsb, hs, incident]
  ring

/-! ## the deltas -/

/-- The weights of the nets, each counted once for every sink, are added without rounding. -/
def WeightsExact (input : Input numParts n dims m) : Prop :=
  ∃ k, Binary64.Exact k ((arcs input (finRange m)).map fun arc => (input.nets arc.1).weight)

/-- Every net has a sink. -/
theorem weights_sublist (nets : List (Fin m)) :
    (nets.map fun net => (input.nets net).weight).Sublist
      ((arcs input nets).map fun arc => (input.nets arc.1).weight) := by
  induction nets with
  | nil => exact .slnil
  | cons net rest ih =>
    obtain ⟨sink, sinks, hs⟩ := exists_cons_of_ne_nil (input.nets net).sinks_ne
    have hf : [(input.nets net).weight].Sublist
        ((arcs input [net]).map fun arc => (input.nets arc.1).weight) := by
      simp [arcs, hs]
    have ha := hf.append ih
    rwa [← map_append, arcs, arcs, ← flatMap_append] at ha

theorem sum_arcs (nets : List (Fin m)) (g : Fin m × Fin n → ℚ) :
    ((arcs input nets).map g).sum =
      (nets.map fun net => ((input.nets net).sinks.map fun sink => g (net, sink)).sum).sum := by
  induction nets with
  | nil => rfl
  | cons net rest ih =>
    rw [arcs, flatMap_cons, map_append, sum_append, map_map, map_cons, sum_cons, ← ih]
    rfl

theorem abs_mul_le {weight : ℚ} {d : ℤ} (hd : |d| ≤ 1) : |weight * d| ≤ |weight| := by
  rw [abs_mul]
  refine mul_le_of_le_one_right (abs_nonneg _) ?_
  exact_mod_cast hd

theorem pairDelta_eq (he : WeightsExact input) (node : Fin n) (target : Fin numParts) :
    pairDelta input state node target =
      pairCut input (update state.assignment node target) - pairCut input state.assignment := by
  obtain ⟨k, hk⟩ := he
  have ha : (arcs input (incident input node)).Sublist (arcs input (finRange m)) :=
    filter_sublist.flatMap _
  have ht := hk.of_sublist (ha.map _)
  have hw : ∀ arc ∈ arcs input (incident input node),
      (input.nets arc.1).weight ∈ grid k := fun arc har =>
    ht.mem_grid _ (mem_map_of_mem har)
  unfold pairDelta mul
  simp only [← Function.update_apply]
  rw [Binary64.Exact.foldl_round (ht.of_abs_le
    (fun arc har => intCast_mul_mem_grid (hw arc har) _)
    fun arc _ => abs_mul_le ?_), sum_arcs]
  · unfold pairCut
    rw [← sum_incident node]
    · unfold netPairCut
      congr 1
      refine map_congr_left fun net _ => ?_
      induction (input.nets net).sinks with
      | nil => simp
      | cons sink rest ih =>
        simp only [map_cons, sum_cons, ih]
        push_cast
        ring
    · intro net hn
      unfold netPairCut
      have hs : (input.nets net).source ≠ node := fun heq => hn (heq ▸ mem_cons_self)
      refine congrArg List.sum (map_congr_left fun sink hsn => ?_)
      have hne : sink ≠ node := fun heq => hn (heq ▸ mem_cons_of_mem _ hsn)
      rw [update_of_ne hs, update_of_ne hne]
  · unfold differ
    split_ifs <;> decide

/-- Moving one pin adds at most one part to a net and takes at most one away. -/
theorem abs_card_touched_le (net : Net n) (a : Fin n → Fin numParts) (node : Fin n)
    (target : Fin numParts) :
    |((touched (update a node target) net).card - (touched a net).card : ℤ)| ≤ 1 := by
  have hn : touched (update a node target) net ⊆ insert target (touched a net) := by
    intro part hp
    simp only [touched, mem_toFinset, mem_map, Finset.mem_insert] at hp ⊢
    obtain ⟨pin, hpn, rfl⟩ := hp
    by_cases heq : pin = node
    · exact .inl (heq ▸ update_self ..)
    · exact .inr ⟨pin, hpn, (update_of_ne heq ..).symm⟩
  have ho : touched a net ⊆ insert (a node) (touched (update a node target) net) := by
    intro part hp
    simp only [touched, mem_toFinset, mem_map, Finset.mem_insert] at hp ⊢
    obtain ⟨pin, hpn, rfl⟩ := hp
    by_cases heq : pin = node
    · exact .inl (heq ▸ rfl)
    · exact .inr ⟨pin, hpn, update_of_ne heq ..⟩
  have hg := (Finset.card_le_card hn).trans (Finset.card_insert_le _ _)
  have hl := (Finset.card_le_card ho).trans (Finset.card_insert_le _ _)
  rw [abs_le]
  omega

theorem connectivityDelta_eq (h : Consistent input state) (he : WeightsExact input)
    (node : Fin n) (target : Fin numParts) :
    connectivityDelta input state node (state.assignment node) target =
      connectivity input (update state.assignment node target) -
        connectivity input state.assignment := by
  obtain ⟨k, hk⟩ := he
  have hi : (incident input node).Sublist (finRange m) := filter_sublist
  have ht := (hk.of_sublist (weights_sublist _)).of_sublist (hi.map _)
  have hparts : ∀ net ∈ incident input node,
      usedParts (shift (state.netPartCounts net) (state.assignment node) target 1) -
          usedParts (state.netPartCounts net) =
        (touched (update state.assignment node target) (input.nets net)).card -
          (touched state.assignment (input.nets net)).card := by
    intro net hn
    have hc : (input.nets net).pins.count node = 1 :=
      count_eq_one_of_mem (input.nets net).nodup_pins (mem_incident.mp hn)
    have hs : shift (state.netPartCounts net) (state.assignment node) target 1 =
        countOf (input.nets net).pins (update state.assignment node target) := by
      rw [countOf_update, hc, h.netPartCounts_eq]
      rfl
    rw [hs, h.netPartCounts_eq, usedParts_countOf, usedParts_countOf]
    rfl
  unfold connectivityDelta mul
  rw [Binary64.Exact.foldl_round (ht.of_abs_le
    (fun net hn => intCast_mul_mem_grid
      (ht.mem_grid _ (mem_map_of_mem hn)) _) fun net hn => abs_mul_le ?_)]
  · unfold connectivity
    rw [← sum_incident node]
    · unfold netConnectivity
      congr 1
      refine map_congr_left fun net hn => ?_
      rw [hparts net hn]
      push_cast
      ring
    · intro net hn
      have htc : touched (update state.assignment node target) (input.nets net) =
          touched state.assignment (input.nets net) := by
        refine congrArg toFinset (map_congr_left fun pin hp => ?_)
        have hne : pin ≠ node := fun heq => hn (heq ▸ hp)
        exact update_of_ne hne _ _
      rw [netConnectivity, netConnectivity, htc]
  · rw [hparts net hn]
    exact abs_card_touched_le _ _ _ _

/-! ## what a turn does -/

theorem foldl_better (input : Input numParts n dims m) (moves : List (Move numParts n)) :
    (∀ best, moves.foldl (better input) none = some best → best ∈ moves) ∧
      (moves.foldl (better input) none = none → moves = []) := by
  have hr : ∀ (rest : List (Move numParts n)) (kept : Move numParts n),
      ∃ best, rest.foldl (better input) (some kept) = some best ∧ (best = kept ∨ best ∈ rest) := by
    intro rest
    induction rest with
    | nil => exact fun kept => ⟨kept, rfl, .inl rfl⟩
    | cons move rest ih =>
      intro kept
      rw [foldl_cons, better]
      split
      · obtain ⟨best, hb, hm⟩ := ih move
        exact ⟨best, hb, .inr (mem_cons.mpr hm)⟩
      · obtain ⟨best, hb, hm⟩ := ih kept
        exact ⟨best, hb, hm.imp id (mem_cons_of_mem _)⟩
  cases moves with
  | nil => exact ⟨by simp, fun _ => rfl⟩
  | cons move rest =>
    obtain ⟨best, hb, hm⟩ := hr rest move
    have hf : (move :: rest).foldl (better input) none = some best := hb
    rw [hf]
    exact ⟨fun _ h => Option.some.inj h ▸ mem_cons.mpr hm, fun h => by cases h⟩

structure LowestEmpty (a : Fin n → Fin numParts) (target : Fin numParts) : Prop where
  empty : target ∉ usedBy a
  lowest : ∀ part < target, part ∈ usedBy a

variable {a : Fin n → Fin numParts}

theorem mem_usedBy {part : Fin numParts} : part ∈ usedBy a ↔ ∃ node, a node = part := by
  simp [usedBy]

theorem usedParts_eq (a : Fin n → Fin numParts) :
    usedParts (countOf (finRange n) a) = ((usedBy a).card : ℤ) := by
  have hparts : ((finRange n).map a).toFinset = usedBy a := by
    ext part
    simp [mem_usedBy]
  rw [usedParts_countOf, hparts]

theorem countOf_eq_zero_iff {part : Fin numParts} :
    countOf (finRange n) a part = 0 ↔ part ∉ usedBy a := by
  have hn := countOf_nonneg (finRange n) a part
  have hp : 0 < countOf (finRange n) a part ↔ part ∈ usedBy a := by
    rw [countOf_pos_iff, mem_usedBy]
    simp
  rw [← hp]
  omega

theorem find_lowestEmpty (h : (usedBy a).card < numParts) : ∃ target, (finRange numParts).find?
        (fun part => countOf (finRange n) a part = 0) = some target ∧ LowestEmpty a target := by
  cases hf : (finRange numParts).find? fun part =>
      countOf (finRange n) a part = 0 with
  | none =>
    have ha : usedBy a = Finset.univ := by
      refine Finset.eq_univ_of_forall fun part => ?_
      have hp := List.find?_eq_none.mp hf part (mem_finRange _)
      simpa [countOf_eq_zero_iff] using hp
    rw [ha, Finset.card_univ, Fintype.card_fin] at h
    exact absurd h (lt_irrefl _)
  | some target =>
    refine ⟨target, rfl, countOf_eq_zero_iff.mp (by simpa using List.find?_some hf), ?_⟩
    intro part hlt
    obtain ⟨-, position, hps, heq, hb⟩ := List.find?_eq_some_iff_getElem.mp hf
    rw [getElem_finRange] at heq
    subst heq
    have hp := hb part.1 hlt
    rw [getElem_finRange] at hp
    by_contra he
    simp [countOf_eq_zero_iff.mpr he] at hp

structure Movable (input : Input numParts n dims m)
    (a : Fin n → Fin numParts) (node : Fin n) : Prop where
  free : (input.nodes node).fixedPart = none
  shared : ∃ other, other ≠ node ∧ a other = a node

theorem one_lt_countOf :
    1 < countOf (finRange n) a (a node) ↔ ∃ other, other ≠ node ∧ a other = a node := by
  -- without the node, the count is of the others
  have hs : countOf (finRange n) a (a node) =
      countOf ((finRange n).erase node) a (a node) + 1 := by
    have hp := perm_cons_erase (mem_finRange node)
    have hc := countOf_cons node ((finRange n).erase node) a (a node)
    rw [if_pos rfl] at hc
    rw [← hc, countOf, countOf]
    congr 1
    funext i
    rw [hp.count_eq]
  have hps : 1 < countOf (finRange n) a (a node) ↔
      0 < countOf ((finRange n).erase node) a (a node) := by
    rw [hs]
    omega
  rw [hps, countOf_pos_iff]
  refine exists_congr fun other => and_congr_left fun _ => ?_
  rw [(nodup_finRange n).mem_erase_iff]
  simp

theorem Consistent.movable_iff (h : Consistent input state) :
    movable input state node ↔ Movable input state.assignment node := by
  rw [movable, h.counts_eq, Bool.and_eq_true, decide_eq_true_iff, one_lt_countOf,
    Option.isNone_iff_eq_none]
  exact ⟨fun ⟨hs, hf⟩ => ⟨hf, hs⟩, fun ⟨hf, hs⟩ => ⟨hs, hf⟩⟩

theorem Consistent.fits_iff (h : Consistent input state) {target : Fin numParts}
    (he : target ∉ usedBy state.assignment) : fits input state target node ↔ ∀ dimension,
      ((input.nodes node).weights dimension : ℤ) ≤ input.capacities target dimension := by
  have hl : ∀ dimension, partLoad input state.assignment target dimension = 0 := by
    intro dimension
    rw [partLoad, total]
    refine Finset.sum_eq_zero fun other _ => if_neg fun heq => he ?_
    exact mem_usedBy.mpr ⟨other, heq⟩
  simp [fits, h.loads_eq, hl]

theorem Consistent.mem_candidates (h : Consistent input state) {target : Fin numParts}
    (hm : move ∈ candidates input state target) :
    move.target = target ∧ move.source = state.assignment move.node ∧
      Movable input state.assignment move.node ∧ fits input state target move.node ∧
      move.pairDelta = pairDelta input state move.node target ∧ move.connectivityDelta =
        connectivityDelta input state move.node (state.assignment move.node) target := by
  obtain ⟨node, hn, rfl⟩ := mem_map.mp hm
  have hf := (mem_filter.mp hn).2
  rw [Bool.and_eq_true] at hf
  exact ⟨rfl, rfl, h.movable_iff.mp hf.1, hf.2, rfl, rfl⟩

theorem Consistent.turn_cases (h : Consistent input state) :
    (input.minUsed ≤ (usedBy state.assignment).card ∧ turn input state = .ok none) ∨
      (usedBy state.assignment).card < input.minUsed ∧
        ∃ target, LowestEmpty state.assignment target ∧ ((∃ move ∈ candidates input state target,
              turn input state = .ok (some (Legalizer.applyMove input state move))) ∨
            (∀ node, Movable input state.assignment node → ¬ fits input state target node) ∧
              turn input state = .error "no legal move can satisfy min_used") := by
  have hu : usedParts state.counts = ((usedBy state.assignment).card : ℤ) := by
    rw [h.counts_eq, usedParts_eq]
  unfold turn
  rw [hu]
  by_cases hlt : (usedBy state.assignment).card < input.minUsed
  · refine .inr ⟨hlt, ?_⟩
    obtain ⟨target, hf, hl⟩ := find_lowestEmpty (hlt.trans_le input.minUsed_le)
    refine ⟨target, hl, ?_⟩
    rw [if_pos (by exact_mod_cast hlt), h.counts_eq, hf]
    obtain ⟨hs, hn⟩ := foldl_better input (candidates input state target)
    dsimp only
    cases hb : (candidates input state target).foldl (better input) none with
    | some best => exact .inl ⟨best, hs best hb, rfl⟩
    | none =>
      refine .inr ⟨fun node hm hft => ?_, rfl⟩
      have hnl : (finRange n).filter (fun node =>
          movable input state node && fits input state target node) = [] :=
        map_eq_nil_iff.mp (hn hb)
      have hmm := filter_eq_nil_iff.mp hnl node (mem_finRange _)
      rw [Bool.and_eq_true] at hmm
      exact hmm ⟨h.movable_iff.mpr hm, hft⟩
  · rw [if_neg (by exact_mod_cast hlt)]
    exact .inl ⟨not_lt.mp hlt, rfl⟩

/-! ## the run -/

/-- The state is the one after a number of turns that made a move. -/
inductive Reaches (input : Input numParts n dims m)
    (start : State numParts n dims m) :
    ℕ → State numParts n dims m → Prop where
  | refl : Reaches input start 0 start
  | step {steps : ℕ} {state next : State numParts n dims m}
      (h : Reaches input start steps state) (hturn : turn input state = .ok (some next)) :
      Reaches input start (steps + 1) next

structure Sound (input : Input numParts n dims m) (steps : ℕ)
    (state : State numParts n dims m) : Prop where
  within : ∀ part dimension,
    partLoad input state.assignment part dimension ≤ input.capacities part dimension
  fixed : ∀ node fixed, (input.nodes node).fixedPart = some fixed → state.assignment node = fixed
  moves_length : state.moves.length = steps
  used : (usedBy state.assignment).card = (usedBy input.assignment).card + steps
  pair_sum : WeightsExact input → (state.moves.map Move.pairDelta).sum =
    pairCut input state.assignment - pairCut input input.assignment
  connectivity_sum : WeightsExact input → (state.moves.map Move.connectivityDelta).sum =
    connectivity input state.assignment - connectivity input input.assignment

structure Fills (a b : Fin n → Fin numParts) : Prop where
  exists_target : ∃ target, LowestEmpty a target ∧ usedBy b = insert target (usedBy a)

theorem usedBy_update (target : Fin numParts) (h : ∃ other, other ≠ node ∧ a other = a node) :
    usedBy (update a node target) = insert target (usedBy a) := by
  obtain ⟨other, hne, heq⟩ := h
  ext part
  rw [Finset.mem_insert, mem_usedBy, mem_usedBy]
  constructor
  · rintro ⟨i, rfl⟩
    by_cases hi : i = node
    · subst hi
      exact .inl (update_self ..)
    · exact .inr ⟨i, (update_of_ne hi ..).symm⟩
  · rintro (rfl | ⟨i, rfl⟩)
    · exact ⟨node, update_self ..⟩
    · -- the source keeps the other node
      by_cases hi : i = node
      · subst hi
        exact ⟨other, by rw [update_of_ne hne, heq]⟩
      · exact ⟨i, update_of_ne hi ..⟩

theorem Sound.step (h : Consistent input state) {steps : ℕ} (hs : Sound input steps state)
    {target : Fin numParts} (hl : LowestEmpty state.assignment target)
    {move : Move numParts n} (hm : move ∈ candidates input state target) :
    Consistent input (applyMove input state move) ∧
      Sound input (steps + 1) (applyMove input state move) ∧
      Fills state.assignment (applyMove input state move).assignment := by
  obtain ⟨rfl, hsr, hmv, hft, hp, hc⟩ := h.mem_candidates hm
  have ha : (applyMove input state move).assignment =
      update state.assignment move.node move.target := rfl
  have hms : (applyMove input state move).moves = state.moves ++ [move] := rfl
  have hu := usedBy_update move.target hmv.shared
  have hne : state.assignment move.node ≠ move.target := fun heq =>
    hl.empty (mem_usedBy.mpr ⟨move.node, heq⟩)
  refine ⟨h.applyMove hsr.symm, ⟨?_, ?_, ?_, ?_, ?_, ?_⟩, ⟨move.target, hl, hu⟩⟩
  · intro part d
    rw [ha, partLoad_update]
    have hr := of_decide_eq_true (all_eq_true.mp hft d (mem_finRange _))
    rw [h.loads_eq] at hr
    by_cases ht : part = move.target
    · subst ht
      rw [shift_target hne]
      exact hr
    · -- every other part gets no more
      have hle := hs.within part d
      simp only [shift, if_neg ht, add_zero]
      split_ifs <;> omega
  · intro node fixed hf
    rw [ha]
    have ho : node ≠ move.node := fun heq => by
      rw [heq, hmv.free] at hf
      cases hf
    rw [update_of_ne ho]
    exact hs.fixed node fixed hf
  · rw [hms, length_append, hs.moves_length]
    rfl
  · rw [ha, hu, Finset.card_insert_of_notMem hl.empty, hs.used]
    rfl
  · intro he
    rw [hms, map_append, sum_append, hs.pair_sum he, map_singleton,
      sum_singleton, hp, pairDelta_eq he, ha]
    ring
  · intro he
    rw [hms, map_append, sum_append, hs.connectivity_sum he, map_singleton,
      sum_singleton, hc, connectivityDelta_eq h he, ha]
    ring

theorem Sound.start {start : State numParts n dims m}
    (ha : start.assignment = input.assignment) (hm : start.moves = [])
    (hc : ∀ part d,
      partLoad input input.assignment part d ≤ input.capacities part d) :
    Sound input 0 start := by
  constructor
  · rwa [ha]
  · intro node fixed hf
    rw [ha]
    exact (input.fixed_eq node fixed hf).symm
  · rw [hm]
    rfl
  · rw [ha, Nat.add_zero]
  · rw [hm, ha]
    simp
  · rw [hm, ha]
    simp

theorem Consistent.exists_move (h : Consistent input state) {next : State numParts n dims m}
    (hturn : turn input state = .ok (some next)) : ∃ target, LowestEmpty state.assignment target ∧
      ∃ move ∈ candidates input state target, next = Legalizer.applyMove input state move := by
  rcases h.turn_cases with ⟨-, heq⟩ | ⟨-, target, hl, ⟨move, hm, heq⟩ | ⟨-, heq⟩⟩
  · rw [heq] at hturn
    cases hturn
  · rw [heq] at hturn
    exact ⟨target, hl, move, hm, (Option.some.inj (Except.ok.inj hturn)).symm⟩
  · rw [heq] at hturn
    cases hturn

variable {start : State numParts n dims m}

theorem Reaches.sound
    (hcn : Consistent input start) (hst : Sound input 0 start) {steps : ℕ}
    (h : Reaches input start steps state) : Consistent input state ∧ Sound input steps state := by
  induction h with
  | refl => exact ⟨hcn, hst⟩
  | step _ hturn ih =>
    obtain ⟨hc, hs⟩ := ih
    obtain ⟨target, hl, move, hm, rfl⟩ := hc.exists_move hturn
    obtain ⟨hc', hs', -⟩ := hs.step hc hl hm
    exact ⟨hc', hs'⟩

theorem Consistent.minUsed_le_of_done (h : Consistent input state)
    (hturn : turn input state = .ok none) : input.minUsed ≤ (usedBy state.assignment).card := by
  rcases h.turn_cases with ⟨hle, -⟩ | ⟨-, target, -, ⟨move, -, heq⟩ | ⟨-, heq⟩⟩
  · exact hle
  · rw [heq] at hturn
    cases hturn
  · rw [heq] at hturn
    cases hturn

theorem Reaches.le_missing
    (hcn : Consistent input start) (hst : Sound input 0 start) {steps : ℕ}
    (h : Reaches input start steps state) :
    steps ≤ input.minUsed - (usedBy input.assignment).card := by
  cases h with
  | refl => exact Nat.zero_le _
  | @step steps before _ hr hturn =>
    obtain ⟨hc, hs⟩ := hr.sound hcn hst
    have hu := hs.used
    rcases hc.turn_cases with ⟨-, heq⟩ | ⟨hlt, -⟩
    · rw [heq] at hturn
      cases hturn
    · omega

theorem legalize_returns (hcn : Consistent input start) (hst : Sound input 0 start) :
    ∀ (fuel steps : ℕ) (state : State numParts n dims m),
      Reaches input start steps state → input.minUsed - (usedBy state.assignment).card < fuel →
      ∃ r, legalize input fuel state = some r ∧
        (∀ final, r = .ok final → ∃ total, Reaches input start total final ∧
          turn input final = .ok none) ∧
        ∀ error, r = .error error → ∃ total last, Reaches input start total last ∧
          turn input last = .error error
  | 0, _, _, _, hfl => absurd hfl (Nat.not_lt_zero _)
  | fuel + 1, steps, state, hr, hfl => by
    obtain ⟨hc, hs⟩ := hr.sound hcn hst
    rw [legalize]
    rcases hc.turn_cases with ⟨-, heq⟩ | ⟨hlt, target, hl, ⟨move, hm, heq⟩ | ⟨-, heq⟩⟩
    · rw [heq]
      exact ⟨_, rfl, fun final hf => ⟨steps, Except.ok.inj hf ▸ hr,
        Except.ok.inj hf ▸ heq⟩, fun error he => by cases he⟩
    · rw [heq]
      obtain ⟨-, hs', -⟩ := hs.step hc hl hm
      refine legalize_returns hcn hst fuel (steps + 1) _ (hr.step heq) ?_
      have hu := hs.used
      have hu' := hs'.used
      omega
    · rw [heq]
      exact ⟨_, rfl, fun final hf => (by cases hf), fun error he =>
        ⟨steps, state, hr, Except.error.inj he ▸ heq⟩⟩

end turns

/-! ## two nodes in one part -/

def pairInput {numParts : ℕ} [NeZero numParts] (capacities : Fin numParts → ℤ)
    (hcapacities : ∀ part, 0 < capacities part) (hparts : 2 ≤ numParts) :
    Input numParts 2 1 1 :=
  { minUsed := 2
    capacities := fun part _ => capacities part
    nodes := fun _ => { fixedPart := none, weights := fun _ => 5 }
    nets := fun _ =>
      { weight := 1
        source := 0
        sinks := [1]
        weight_pos := by norm_num
        sinks_ne := by decide
        sinks_nodup := by decide
        source_not_sink := by decide }
    assignment := fun _ => 0
    nodes_pos := Nat.two_pos
    dimensions_pos := Nat.one_pos
    minUsed_pos := Nat.two_pos
    minUsed_le := hparts
    capacities_pos := fun part _ => hcapacities part
    front_pos := fun _ => Nat.zero_lt_succ 4
    fixed_eq := fun _ _ h => nomatch h }

def roomyInput : Input 2 2 1 1 :=
  pairInput (fun part => if part = 0 then 20 else 10) (by decide) le_rfl

local instance threeParts : NeZero 3 := ⟨Nat.succ_ne_zero 2⟩

/-- The lowest-numbered empty part is too small, the next one is not. -/
def smallFirstInput : Input 3 2 1 1 :=
  pairInput (fun part => if part = 0 then 20 else if part = 1 then 1 else 10) (by decide)
    (by decide)

def failure (input : Input numParts n dims m) (fuel : ℕ) : Option String :=
  match initialState input with
  | .error error => some error
  | .ok start =>
    match legalize input fuel start with
    | some (.error error) => some error
    | _ => none

end EmuFlow.MfsPart.Legalizer
