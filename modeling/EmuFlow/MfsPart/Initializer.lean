import Mathlib
import EmuFlow.Lib.MachineNumber
import EmuFlow.Lib.TrialPropagation

/-!
# Initial partitioning by propagation

The propagation and the first phase of `native/mfspart_initializer.cpp`. A node with a single
candidate part is an anchor: it filters the candidates of the nodes that a truncated breadth-first
search of the circuit finds around it, and the nodes left with one candidate follow. The worklist
is that of the library, whose `narrow` is the body of the loop over the reached nodes. The first
phase assigns nodes one at a time; which node and which of its choices come next is left open.
-/

namespace EmuFlow.MfsPart.Initializer

open DomainPropagation List Option
open Function (update update_of_ne update_self)
open MachineInt (int32 int64)

structure Node (numParts dims : ℕ) where
  /-- `-1` in the file when the node is not fixed. -/
  fixedPart : Option (Fin numParts)
  weights : Fin dims → ℕ

structure Net (n : ℕ) where
  source : Fin n
  sinks : List (Fin n)
  sinks_ne : sinks ≠ []
  sinks_nodup : sinks.Nodup
  source_not_sink : source ∉ sinks

/-- An input the reader accepts. The weights of the nets, the degrees of the parts and the
parameters of the score are read by the choice among the legal parts only. -/
structure Input (numParts n dims : ℕ) where
  hmax : ℕ
  distances : Fin numParts → Fin numParts → ℕ
  capacities : Fin numParts → Fin dims → ℤ
  nodes : Fin n → Node numParts dims
  nets : List (Net n)
  nodes_pos : 0 < n
  hmax_pos : 1 ≤ hmax
  distances_self : ∀ part, distances part part = 0
  distances_symm : ∀ part other, distances part other = distances other part
  capacities_pos : ∀ part dimension, 0 < capacities part dimension

variable {numParts n dims : ℕ}

section definitions

variable (input : Input numParts n dims)

/-! ## the search -/

/-- `adjacency[node]`, in order. -/
def adjacency (node : Fin n) : List (Fin n) :=
  input.nets.flatMap fun net => net.sinks.flatMap fun sink =>
    (if net.source = node then [sink] else []) ++ if sink = node then [net.source] else []

/-- `circuit_distance`, `bfs` and `reached`. -/
structure Search (n : ℕ) where
  circuitDistance : Fin n → Option ℕ
  queue : List (Fin n)
  reached : List (Fin n)

def discover (distance : ℕ) (s : Search n) (neighbor : Fin n) : Search n :=
  match s.circuitDistance neighbor with
  | some _ => s
  | none =>
    { circuitDistance := update s.circuitDistance neighbor (some (distance + 1))
      queue := s.queue ++ [neighbor]
      reached := s.reached ++ [neighbor] }

def searchLoop (maxDistance : ℕ) : ℕ → Search n → Search n
  | 0, s => s
  | fuel + 1, s =>
    match s.queue with
    | [] => s
    | node :: queue =>
      let distance := (s.circuitDistance node).getD 0
      if (maxDistance : ℤ) ≤ int32 ((distance + 1) * input.hmax) then
        searchLoop maxDistance fuel { s with queue := queue }
      else
        searchLoop maxDistance fuel
          ((adjacency input node).foldl (discover distance) { s with queue := queue })

def searchStart (anchor : Fin n) : Search n :=
  { circuitDistance := update (fun _ => none) anchor (some 0)
    queue := [anchor]
    reached := [anchor] }

def search (anchor : Fin n) (maxDistance : ℕ) : Search n :=
  searchLoop input maxDistance n (searchStart anchor)

/-! ## propagation -/

/-- `*max_element` of the distances of a part. -/
def maxDistance (part : Fin numParts) : ℕ :=
  ((finRange numParts).map (input.distances part)).foldr max 0

def targets : Targets (Fin n) (Fin numParts) := fun anchor anchorPart =>
  if maxDistance input anchorPart ≤ input.hmax then []
  else
    let found := search input anchor (maxDistance input anchorPart)
    found.reached.filterMap fun node =>
      let distance := (found.circuitDistance node).getD 0
      let limit := int32 (distance * input.hmax)
      if node = anchor ∨ (maxDistance input anchorPart : ℤ) ≤ limit then none
      else some (node, fun part => (input.distances anchorPart part : ℤ) ≤ limit)

/-- `propagate_new_anchors`, with fuel for the anchors and every node. -/
def propagateNewAnchors (state : State (Fin n) (Fin numParts))
    (anchors : List (Fin n)) : Work (Fin n) (Fin numParts) :=
  run (targets input) (anchors.length + n) state anchors

def unpropagated (assigned : Fin n → Option (Fin numParts)) :
    State (Fin n) (Fin numParts) :=
  { domain := fun node =>
      match assigned node with
      | some part => [part]
      | none => finRange numParts
    processed := fun _ => false }

def initialPropagation (assigned : Fin n → Option (Fin numParts)) :
    State (Fin n) (Fin numParts) :=
  (propagateNewAnchors input (unpropagated assigned)
    ((finRange n).filter fun node => (assigned node).isSome)).toState

def trialEmptiesDomain (state : State (Fin n) (Fin numParts)) (node : Fin n)
    (part : Fin numParts) : Bool :=
  trial (targets input) (1 + n) state node part

/-! ## the first phase -/

def fits (loads : Fin numParts → Fin dims → ℤ) (node : Fin n)
    (part : Fin numParts) : Bool :=
  (finRange dims).all fun dimension =>
    int64 (loads part dimension + (input.nodes node).weights dimension) ≤
      input.capacities part dimension

/-- `assigned`, `loads`, `propagation` and `phase_two`. -/
structure PhaseState (numParts n dims : ℕ) where
  assigned : Fin n → Option (Fin numParts)
  loads : Fin numParts → Fin dims → ℤ
  propagation : State (Fin n) (Fin numParts)
  phaseTwo : Fin n → Bool

def addLoad (loads : Fin numParts → Fin dims → ℤ) (node : Fin n)
    (part : Fin numParts) : Fin numParts → Fin dims → ℤ :=
  update loads part fun dimension =>
    int64 (loads part dimension + (input.nodes node).weights dimension)

def fixedLoads : Except String (Fin numParts → Fin dims → ℤ) :=
  (finRange n).foldlM (fun loads node =>
    match (input.nodes node).fixedPart with
    | none => .ok loads
    | some part =>
      if fits input loads node part then .ok (addLoad input loads node part)
      else .error "fixed nodes exceed FPGA capacity") fun _ _ => 0

/-- The assignment the first phase begins with: the fixed nodes, or one node in a part that has room
for it where none is fixed. -/
inductive Initial : (Fin n → Option (Fin numParts)) →
    (Fin numParts → Fin dims → ℤ) → Prop where
  | fixed {loads : Fin numParts → Fin dims → ℤ}
      (hfixed : ∃ node, (input.nodes node).fixedPart ≠ none)
        (hloads : fixedLoads input = .ok loads) :
      Initial (fun node => (input.nodes node).fixedPart) loads
  | seeded {node : Fin n} {part : Fin numParts}
      (hfree : ∀ node, (input.nodes node).fixedPart = none)
      (hfits : fits input (fun _ _ => 0) node part) :
      Initial (update (fun _ => none) node (some part))
        (addLoad input (fun _ _ => 0) node part)

def phaseStart (assigned : Fin n → Option (Fin numParts))
    (loads : Fin numParts → Fin dims → ℤ) : PhaseState numParts n dims :=
  { assigned := assigned
    loads := loads
    propagation := initialPropagation input assigned
    phaseTwo := fun _ => false }

/-- The parts a node may be assigned to. The trial is left out for a part with no part too far. -/
def choices (state : PhaseState numParts n dims) (node : Fin n) :
    List (Fin numParts) :=
  (state.propagation.domain node).filter fun part =>
    fits input state.loads node part &&
      !(decide (input.hmax < maxDistance input part) &&
        trialEmptiesDomain input state.propagation node part)

def commit (state : PhaseState numParts n dims) (node : Fin n)
    (part : Fin numParts) : PhaseState numParts n dims :=
  { assigned := update state.assigned node (some part)
    loads := addLoad input state.loads node part
    propagation := (propagateNewAnchors input (state.propagation.assign node part) [node]).toState
    phaseTwo := state.phaseTwo }

/-- The states of the first phase, whatever node and choice comes next. -/
inductive Phase1 : PhaseState numParts n dims → Prop where
  | start {assigned : Fin n → Option (Fin numParts)}
      {loads : Fin numParts → Fin dims → ℤ} (h : Initial input assigned loads)
      (hlegal : ∀ node, assigned node ≠ none →
        (initialPropagation input assigned).domain node ≠ []) :
      Phase1 (phaseStart input assigned loads)
  | commit {state : PhaseState numParts n dims} {node : Fin n}
      {part : Fin numParts} (h : Phase1 state) (hfree : state.assigned node = none)
      (hphase : state.phaseTwo node = false) (hpart : part ∈ choices input state node) :
      Phase1 (commit input state node part)
  | defer {state : PhaseState numParts n dims} {node : Fin n}
      (h : Phase1 state) (hfree : state.assigned node = none)
      (hnone : choices input state node = []) :
      Phase1 { state with phaseTwo := update state.phaseTwo node true }

end definitions

/-! ## what the search finds -/

section search

variable {input : Input numParts n dims}

inductive Walk (input : Input numParts n dims) (anchor : Fin n) :
    Fin n → ℕ → Prop where
  | refl : Walk input anchor anchor 0
  | step {node neighbor : Fin n} {distance : ℕ} (h : Walk input anchor node distance)
      (hadj : neighbor ∈ adjacency input node) : Walk input anchor neighbor (distance + 1)

/-- What the search multiplies is in the range of `int`. -/
def ProductsInRange (input : Input numParts n dims) : Prop :=
  ∀ part other, input.distances part other + input.hmax < 2 ^ 31

/-- The distances found so far are walked and not too far, and everything queued or reached has
one. -/
structure Search.Walked (input : Input numParts n dims) (far : ℕ) (anchor : Fin n)
    (s : Search n) : Prop where
  walk : ∀ node distance, s.circuitDistance node = some distance → Walk input anchor node distance
  near : ∀ node distance, s.circuitDistance node = some distance →
    distance = 0 ∨ distance * input.hmax < far
  queued : ∀ node ∈ s.queue, s.circuitDistance node ≠ none
  seen : ∀ node ∈ s.reached, s.circuitDistance node ≠ none

theorem Search.Walked.start (far : ℕ) (anchor : Fin n) :
    Search.Walked input far anchor (searchStart anchor) := by
  have hs : ∀ node ∈ [anchor], (searchStart anchor).circuitDistance node ≠ none := by
    intro node hn
    obtain rfl := mem_singleton.mp hn
    show update (fun _ => none) node (some 0) node ≠ none
    rw [update_self]
    exact some_ne_none 0
  have hz : ∀ node distance, (searchStart anchor).circuitDistance node = some distance →
      node = anchor ∧ distance = 0 := by
    intro node distance h
    have h' : update (fun _ => none) anchor (some 0) node = some distance := h
    by_cases hn : node = anchor
    · rw [hn, update_self] at h'
      exact ⟨hn, (some.inj h').symm⟩
    · rw [update_of_ne hn] at h'
      cases h'
  refine ⟨fun node distance h => ?_, fun node distance h => .inl (hz node distance h).2, hs,
    hs⟩
  obtain ⟨rfl, rfl⟩ := hz node distance h
  exact .refl

theorem Search.Walked.discover {anchor node neighbor : Fin n} {distance : ℕ}
    {far : ℕ} {s : Search n} (h : s.Walked input far anchor)
    (hw : Walk input anchor node distance) (hn : (distance + 1) * input.hmax < far)
    (hadj : neighbor ∈ adjacency input node) :
    (discover distance s neighbor).Walked input far anchor := by
  unfold Initializer.discover
  split
  · exact h
  · next hnone =>
    have hg : ∀ other, s.circuitDistance other ≠ none →
        update s.circuitDistance neighbor (some (distance + 1)) other ≠ none := by
      intro other ho
      by_cases heq : other = neighbor
      · rw [heq, update_self]
        exact some_ne_none _
      · rwa [update_of_ne heq]
    have hnw : update s.circuitDistance neighbor (some (distance + 1)) neighbor ≠ none := by
      rw [update_self]
      exact some_ne_none _
    have hf : ∀ other d, update s.circuitDistance neighbor (some (distance + 1)) other =
        some d → other = neighbor ∧ d = distance + 1 ∨ s.circuitDistance other = some d := by
      intro other d hd
      by_cases heq : other = neighbor
      · rw [heq, update_self] at hd
        exact .inl ⟨heq, (some.inj hd).symm⟩
      · rw [update_of_ne heq] at hd
        exact .inr hd
    refine ⟨fun other d hd => ?_, fun other d hd => ?_, fun other ho => ?_,
      fun other ho => ?_⟩
    · rcases hf other d hd with ⟨rfl, rfl⟩ | hol
      · exact hw.step hadj
      · exact h.walk other d hol
    · rcases hf other d hd with ⟨rfl, rfl⟩ | hol
      · exact .inr hn
      · exact h.near other d hol
    · rcases List.mem_append.mp ho with ho | ho
      · exact hg other (h.queued other ho)
      · obtain rfl := mem_singleton.mp ho
        exact hnw
    · rcases List.mem_append.mp ho with ho | ho
      · exact hg other (h.seen other ho)
      · obtain rfl := mem_singleton.mp ho
        exact hnw

theorem Search.Walked.foldl {anchor node : Fin n} {distance far : ℕ}
    (hw : Walk input anchor node distance) (hn : (distance + 1) * input.hmax < far)
    (neighbors : List (Fin n)) :
    ∀ {s : Search n}, s.Walked input far anchor → (∀ m ∈ neighbors, m ∈ adjacency input node) →
      (neighbors.foldl (Initializer.discover distance) s).Walked input far anchor := by
  induction neighbors with
  | nil => exact fun h _ => h
  | cons m rest ih =>
    intro s h hadj
    exact ih (h.discover hw hn (hadj m mem_cons_self))
      fun other ho => hadj other (mem_cons_of_mem _ ho)

/-- The product with the distance of a found node does not wrap, nor the next one. -/
theorem Search.Walked.product_eq {anchor node : Fin n} {distance far : ℕ} {s : Search n}
    (hr : far + input.hmax < 2 ^ 31) (h : s.Walked input far anchor)
    (hd : s.circuitDistance node = some distance) :
    int32 (distance * input.hmax) = (distance * input.hmax : ℕ) ∧
      int32 ((distance + 1) * input.hmax) = ((distance + 1) * input.hmax : ℕ) := by
  have hlt : (distance + 1) * input.hmax < 2 ^ 31 := by
    rcases h.near node distance hd with rfl | hn
    · omega
    · rw [Nat.add_mul, Nat.one_mul]
      omega
  have hle : distance * input.hmax ≤ (distance + 1) * input.hmax :=
    Nat.mul_le_mul_right _ (Nat.le_succ distance)
  constructor
  · rw [← Nat.cast_mul]
    exact MachineInt.int32_eq (by omega) (by omega)
  · rw [← Nat.cast_add_one, ← Nat.cast_mul]
    exact MachineInt.int32_eq (by omega) (by omega)

theorem searchLoop_nil {far fuel : ℕ} {s : Search n} (hq : s.queue = []) :
    searchLoop input far (fuel + 1) s = s := by
  unfold searchLoop
  rw [hq]

theorem searchLoop_cons {far fuel : ℕ} {s : Search n} {node : Fin n} {queue : List (Fin n)}
    (hq : s.queue = node :: queue) :
    searchLoop input far (fuel + 1) s =
      if (far : ℤ) ≤ int32 (((s.circuitDistance node).getD 0 + 1) * input.hmax) then
        searchLoop input far fuel { s with queue := queue }
      else
        searchLoop input far fuel ((adjacency input node).foldl
          (discover ((s.circuitDistance node).getD 0)) { s with queue := queue }) := by
  rw [searchLoop, hq]

theorem Search.Walked.loop {anchor : Fin n} {far : ℕ} (hr : far + input.hmax < 2 ^ 31)
    (fuel : ℕ) : ∀ {s : Search n}, s.Walked input far anchor →
      (searchLoop input far fuel s).Walked input far anchor := by
  induction fuel with
  | zero => exact fun h => h
  | succ fuel ih =>
    intro s h
    cases hq : s.queue with
    | nil =>
      rw [searchLoop_nil hq]
      exact h
    | cons node queue =>
      have hp : Search.Walked input far anchor { s with queue := queue } :=
        ⟨h.walk, h.near, fun other ho => h.queued other (hq ▸ mem_cons_of_mem _ ho), h.seen⟩
      obtain ⟨dist, hd⟩ :=
        ne_none_iff_exists'.mp (h.queued node (hq ▸ mem_cons_self))
      rw [searchLoop_cons hq, hd, getD_some, (h.product_eq hr hd).2]
      split
      · exact ih hp
      · next hn =>
        exact ih (Search.Walked.foldl (h.walk node dist hd) (by omega) _ hp
          fun _ hm => hm)

def Search.remaining (s : Search n) : ℕ :=
  s.queue.length + (Finset.univ.filter fun node => s.circuitDistance node = none).card

theorem remaining_discover (distance : ℕ) (s : Search n) (neighbor : Fin n) :
    (discover distance s neighbor).remaining = s.remaining := by
  unfold discover
  split
  · rfl
  · next hnone =>
    have hs : (Finset.univ.filter fun node =>
          update s.circuitDistance neighbor (some (distance + 1)) node = none) =
        (Finset.univ.filter fun node => s.circuitDistance node = none).erase neighbor := by
      ext node
      rw [Finset.mem_erase, Finset.mem_filter, Finset.mem_filter]
      by_cases heq : node = neighbor
      · rw [heq, update_self]
        simp
      · rw [update_of_ne heq]
        simp [heq]
    have hm : neighbor ∈ Finset.univ.filter fun node => s.circuitDistance node = none :=
      Finset.mem_filter.mpr ⟨Finset.mem_univ _, hnone⟩
    have hp := Finset.card_pos.mpr ⟨neighbor, hm⟩
    unfold Search.remaining
    rw [hs, Finset.card_erase_of_mem hm, length_append, length_singleton]
    omega

theorem remaining_foldl (distance : ℕ) (neighbors : List (Fin n)) (s : Search n) :
    (neighbors.foldl (discover distance) s).remaining = s.remaining := by
  induction neighbors generalizing s with
  | nil => rfl
  | cons m rest ih =>
    rw [foldl_cons, ih]
    exact remaining_discover distance s m

theorem searchLoop_queue {far : ℕ} (fuel : ℕ) : ∀ {s : Search n}, s.remaining ≤ fuel →
    (searchLoop input far fuel s).queue = [] := by
  induction fuel with
  | zero =>
    intro s h
    have hl : s.queue.length = 0 := by
      unfold Search.remaining at h
      omega
    exact length_eq_zero_iff.mp hl
  | succ fuel ih =>
    intro s h
    cases hq : s.queue with
    | nil =>
      rw [searchLoop_nil hq]
      exact hq
    | cons node queue =>
      have hp : Search.remaining { s with queue := queue } ≤ fuel := by
        unfold Search.remaining at h ⊢
        rw [hq, length_cons] at h
        dsimp only
        omega
      rw [searchLoop_cons hq]
      split
      · exact ih hp
      · exact ih ((remaining_foldl _ _ _).trans_le hp)

theorem search_queue (anchor : Fin n) (far : ℕ) : (search input anchor far).queue = [] := by
  refine searchLoop_queue n ?_
  have hs : (Finset.univ.filter fun node => (searchStart anchor).circuitDistance node = none) =
      Finset.univ.erase anchor := by
    ext node
    rw [Finset.mem_filter, Finset.mem_erase]
    show (_ ∧ update (fun _ => none) anchor (some 0) node = none) ↔ _
    by_cases heq : node = anchor
    · rw [heq, update_self]
      simp
    · rw [update_of_ne heq]
      simp [heq]
  have hp : 0 < n := anchor.pos
  unfold Search.remaining
  rw [hs, Finset.card_erase_of_mem (Finset.mem_univ _), Finset.card_univ, Fintype.card_fin]
  show 1 + (n - 1) ≤ n
  omega

theorem maxDistance_lt (hr : ProductsInRange input) (part : Fin numParts) :
    maxDistance input part + input.hmax < 2 ^ 31 := by
  have hf : ∀ l : List (Fin numParts), (l.map (input.distances part)).foldr max 0 = 0 ∨
      ∃ other, (l.map (input.distances part)).foldr max 0 = input.distances part other := by
    intro l
    induction l with
    | nil => exact .inl rfl
    | cons x l ih =>
      rw [map_cons, foldr_cons]
      rcases max_choice (input.distances part x) ((l.map (input.distances part)).foldr max 0) with
        h | h
      · exact .inr ⟨x, h⟩
      · rw [h]
        exact ih
  have hs := hr part part
  rcases hf (finRange numParts) with hz | ⟨other, ho⟩
  · rw [maxDistance, hz]
    omega
  · rw [maxDistance, ho]
    exact hr part other

theorem walk_of_mem_targets (hr : ProductsInRange input) {anchor : Fin n}
    {anchorPart : Fin numParts}
    {target : Fin n × (Fin numParts → Bool)} (h : target ∈ targets input anchor anchorPart) :
    ∃ dist, Walk input anchor target.1 dist ∧ target.1 ≠ anchor ∧
      ∀ part, target.2 part = true ↔ input.distances anchorPart part ≤ dist * input.hmax := by
  unfold targets at h
  split at h
  · cases h
  · dsimp only at h
    obtain ⟨node, hn, ht⟩ := mem_filterMap.mp h
    have hf := maxDistance_lt hr anchorPart
    have hs : Search.Walked input (maxDistance input anchorPart) anchor (searchStart anchor) :=
      .start _ anchor
    have hw := hs.loop hf n
    obtain ⟨dist, hd⟩ := ne_none_iff_exists'.mp (hw.seen node hn)
    have hp := (hw.product_eq hf hd).1
    split at ht
    · cases ht
    · next hk =>
      cases ht
      refine ⟨dist, hw.walk node dist hd, fun heq => hk (.inl heq),
        fun part => ?_⟩
      rw [decide_eq_true_iff, search, hd, getD_some, hp]
      exact Nat.cast_le

end search

end EmuFlow.MfsPart.Initializer
