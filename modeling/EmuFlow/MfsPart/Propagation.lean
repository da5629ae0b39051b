import EmuFlow.Lib.Check
import EmuFlow.MfsPart.Initializer

/-!
# What propagation keeps

No assignment that keeps every driver-sink pair within the limit loses a part to propagation: along
a walk the distances of the parts add up. Where propagation empties no domain, the order of the
anchors does not matter.

For a node that was not propagated yet, `trial_empties_domain` finds out whether taking the part and
propagating it leaves a node it reaches without a candidate. A node that was propagated before is
propagated again to no effect, and its trial looks at nothing. So no commit of the first phase
empties a domain.

* `propagation_sound` — what propagation keeps
* `Phase1.settled` — in the first phase everything propagated has had its effect
* `trial_equals_commit` — the trial against the commit
-/

namespace EmuFlow.MfsPart.Initializer

open DomainPropagation Function List

variable {numParts n dims : ℕ} {input : Input numParts n dims}

/-- The distances of the parts obey the triangle inequality; that they are symmetric and zero from a
part to itself is checked. -/
def Triangle (input : Input numParts n dims) : Prop :=
  ∀ a b c, input.distances a c ≤ input.distances a b + input.distances b c

instance : Decidable (Triangle input) :=
  inferInstanceAs (Decidable (∀ a b c, input.distances a c ≤ input.distances a b +
    input.distances b c))

def KeepsPairs (input : Input numParts n dims)
    (choice : Fin n → Fin numParts) : Prop :=
  ∀ net ∈ input.nets, ∀ sink ∈ net.sinks,
    input.distances (choice net.source) (choice sink) ≤ input.hmax

instance (choice : Fin n → Fin numParts) : Decidable (KeepsPairs input choice) :=
  inferInstanceAs (Decidable (∀ net ∈ input.nets, ∀ sink ∈ net.sinks,
    input.distances (choice net.source) (choice sink) ≤ input.hmax))

def Agrees (choice : Fin n → Fin numParts)
    (assigned : Fin n → Option (Fin numParts)) : Prop :=
  ∀ node part, assigned node = some part → choice node = part

variable {choice : Fin n → Fin numParts}

theorem KeepsPairs.adjacent (h : KeepsPairs input choice)
    {node neighbor : Fin n} (ha : neighbor ∈ adjacency input node) :
    input.distances (choice node) (choice neighbor) ≤ input.hmax := by
  obtain ⟨net, hn, hm⟩ := mem_flatMap.mp ha
  obtain ⟨sink, hs, hm⟩ := mem_flatMap.mp hm
  have hp := h net hn sink hs
  rcases mem_append.mp hm with hm | hm
  · split at hm
    · next heq =>
      rw [mem_singleton] at hm
      rwa [hm, ← heq]
    · cases hm
  · split at hm
    · next heq =>
      rw [mem_singleton] at hm
      rw [hm, ← heq, input.distances_symm]
      exact hp
    · cases hm

theorem KeepsPairs.walk (ht : Triangle input)
    (h : KeepsPairs input choice) {anchor node : Fin n} {distance : ℕ}
    (hw : Walk input anchor node distance) :
    input.distances (choice anchor) (choice node) ≤ distance * input.hmax := by
  induction hw with
  | refl => rw [input.distances_self, Nat.zero_mul]
  | @step node neighbor distance _ ha ih =>
    calc input.distances (choice anchor) (choice neighbor)
        ≤ input.distances (choice anchor) (choice node) +
            input.distances (choice node) (choice neighbor) := ht _ _ _
      _ ≤ distance * input.hmax + input.hmax := Nat.add_le_add ih (h.adjacent ha)
      _ = (distance + 1) * input.hmax := by rw [Nat.add_mul, Nat.one_mul]

theorem KeepsPairs.respects (hr : ProductsInRange input) (ht : Triangle input)
    (h : KeepsPairs input choice) : Respects (targets input) choice := by
  intro anchor target htr
  obtain ⟨dist, hw, -, hk⟩ := walk_of_mem_targets hr htr
  exact (hk _).mpr (h.walk ht hw)

theorem propagate_queue (state : State (Fin n) (Fin numParts)) (anchors : List (Fin n)) :
    (propagateNewAnchors input state anchors).queue = [] :=
  run_queue _ _ (by rw [Fintype.card_fin])

variable {assigned : Fin n → Option (Fin numParts)}

theorem mem_unpropagated (h : Agrees choice assigned)
    (node : Fin n) : choice node ∈ (unpropagated assigned).domain node := by
  unfold unpropagated
  dsimp only
  split
  · next part hp => exact mem_singleton.mpr (h node part hp)
  · exact mem_finRange _

theorem mem_initialPropagation (hr : ProductsInRange input) (ht : Triangle input)
    (hp : KeepsPairs input choice) (h : Agrees choice assigned) (node : Fin n) :
    choice node ∈ (initialPropagation input assigned).domain node :=
  mem_run (hp.respects hr ht) _ _ (mem_unpropagated h) node

theorem mem_phase1 (hr : ProductsInRange input) (ht : Triangle input)
    (hp : KeepsPairs input choice) {state : PhaseState numParts n dims}
    (hrc : Phase1 input state) (h : Agrees choice state.assigned) (node : Fin n) :
    choice node ∈ state.propagation.domain node := by
  induction hrc generalizing node with
  | start => exact mem_initialPropagation hr ht hp h node
  | @commit before chosen part _ hf _ _ ih =>
    -- the assignment agreed with the nodes assigned before
    have hc : choice chosen = part := h chosen part (update_self ..)
    have hb : Agrees choice before.assigned := by
      intro other q ho
      have hne : other ≠ chosen := fun heq => by
        rw [heq, hf] at ho
        cases ho
      exact h other q ((update_of_ne hne ..).trans ho)
    refine mem_run (hp.respects hr ht) _ _ (fun other => ?_) node
    show choice other ∈ update before.propagation.domain chosen [part] other
    by_cases heq : other = chosen
    · rw [heq, update_self]
      exact mem_singleton.mpr hc
    · rw [update_of_ne heq]
      exact ih hb other
  | defer _ _ _ ih => exact ih h node

/-- **Propagation is sound, and its order does not matter where it empties no domain.** An
assignment that agrees with the assigned nodes and keeps every pair within the limit loses no part:
in any propagation, in the initial one and in the first phase. Anchors in two orders give the same
domains where one order empties none, so wherever there is such an assignment. -/
theorem propagation_sound (input : Input numParts n dims) (hrange : ProductsInRange input)
    (htriangle : Triangle input) :
    (∀ choice, KeepsPairs input choice →
      (∀ state anchors, (∀ node, choice node ∈ state.domain node) →
        ∀ node, choice node ∈ (propagateNewAnchors input state anchors).domain node) ∧
      (∀ assigned, Agrees choice assigned →
        ∀ node, choice node ∈ (initialPropagation input assigned).domain node) ∧
      ∀ state, Phase1 input state → Agrees choice state.assigned →
        ∀ node, choice node ∈ state.propagation.domain node) ∧
    ∀ state (anchors anchors' : List (Fin n)), (∀ node, node ∈ anchors' ↔ node ∈ anchors) →
      (KeepsNonempty (propagateNewAnchors input state anchors).domain state.domain ∨
        ∃ choice, KeepsPairs input choice ∧ ∀ node, choice node ∈ state.domain node) →
      (propagateNewAnchors input state anchors').toState =
        (propagateNewAnchors input state anchors).toState := by
  refine ⟨fun choice hpairs => ⟨fun state anchors h => mem_run
    (hpairs.respects hrange htriangle) _ _ h,
    fun assigned h => mem_initialPropagation hrange htriangle hpairs h,
    fun state hreach h => mem_phase1 hrange htriangle hpairs hreach h⟩,
    fun state anchors anchors' hanchors hcase => ?_⟩
  refine run_eq_of_mem hanchors (propagate_queue state anchors) (propagate_queue state anchors') ?_
  rcases hcase with h | ⟨choice, hpairs, h⟩
  · exact h
  · exact fun node _ => ne_nil_of_mem (mem_run (hpairs.respects hrange htriangle) _ _ h node)

/-! ## anchors in conflict -/

local instance chainSize : NeZero 3 := ⟨Nat.succ_ne_zero 2⟩

def chainInput : Input 3 3 1 :=
  { hmax := 1
    distances := fun a b => (a.1 - b.1) + (b.1 - a.1)
    capacities := fun _ _ => 10
    nodes := fun _ => { fixedPart := none, weights := fun _ => 1 }
    nets := [{ source := 1, sinks := [0, 2], sinks_ne := by decide,
               sinks_nodup := by decide, source_not_sink := by decide }]
    nodes_pos := Nat.le_add_left 1 2
    hmax_pos := le_rfl
    distances_self := by decide
    distances_symm := by decide
    capacities_pos := fun _ _ => by decide }

/-- A compatible assignment of the chain, and its propagation in two orders. -/
theorem chain_in_order :
    (propagateNewAnchors chainInput (unpropagated fun node => if node = 2 then none else some 0)
        [1, 0]).toState =
      (propagateNewAnchors chainInput (unpropagated fun node => if node = 2 then none else some 0)
        [0, 1]).toState := by
  have hrange : ProductsInRange chainInput := by
    show ∀ part other : Fin 3, (part.1 - other.1) + (other.1 - part.1) + 1 < 2 ^ 31
    decide
  refine (propagation_sound chainInput hrange (by decide +kernel)).2 _ [0, 1] [1, 0] (by decide)
    (.inr ?_)
  exact ⟨fun _ => 0, by decide +kernel, by decide +kernel⟩

def conflictState : State (Fin 3) (Fin 3) :=
  unpropagated fun node => if node = 0 then some 0 else if node = 1 then some 2 else none

/-- **The order of two anchors in conflict decides about a third node**: the first to come empties
the domain of the other, which is not propagated any more. -/
theorem conflict_order : Triangle chainInput ∧
      (propagateNewAnchors chainInput conflictState [0, 1]).domain 2 = [0, 1, 2] ∧
      (propagateNewAnchors chainInput conflictState [1, 0]).domain 2 = [1, 2] := by
  refine ⟨by decide +kernel, by decide +kernel, by decide +kernel⟩

/-! ## the trial and the commit of the first phase -/

def reachedNodes (input : Input numParts n dims)
    (state : State (Fin n) (Fin numParts)) (node : Fin n) (part : Fin numParts) :
    List (Fin n) :=
  reached (targets input) (1 + n) (start (state.assign node part) [node])

def afterCommit (input : Input numParts n dims)
    (state : State (Fin n) (Fin numParts)) (node : Fin n) (part : Fin numParts) :
    State (Fin n) (Fin numParts) :=
  (propagateNewAnchors input (state.assign node part) [node]).toState

variable {node : Fin n} {part : Fin numParts} {state : State (Fin n) (Fin numParts)}

theorem settled_afterCommit
    (h : ∀ m, state.processed m = true → ∃ v, Settled (targets input) state.domain m v)
    (hp : part ∈ state.domain node)
    {m : Fin n} (hm : (afterCommit input state node part).processed m = true) :
    ∃ v, Settled (targets input) (afterCommit input state node part).domain m v := by
  have hi := inv_run (targets input) ([node].length + n) (state.assign node part) [node]
  by_cases hb : (state.assign node part).processed m = true
  · -- propagated before and not the node itself
    have hne : m ≠ node := fun heq => by
      rw [heq, show (state.assign node part).processed node =
        update state.processed node false node from rfl, update_self] at hb
      cases hb
    have ho : state.processed m = true := by
      rwa [show (state.assign node part).processed m =
        update state.processed node false m from rfl, update_of_ne hne] at hb
    obtain ⟨v, hs⟩ := h m ho
    have hsm : (state.assign node part).domain m = state.domain m := update_of_ne hne ..
    refine ⟨v, hi.below.of_single (hsm ▸ hs.single), fun target ht q hq => ?_⟩
    refine hs.passed target ht q ?_
    have hmm : q ∈ update state.domain node [part] target.1 := hi.below.mem hq
    by_cases ht' : target.1 = node
    · rw [ht', update_self, mem_singleton] at hmm
      rw [ht', hmm]
      exact hp
    · rwa [update_of_ne ht'] at hmm
  · exact hi.settled m (fun hf => hf) hm (by simpa using hb)

theorem mem_of_mem_choices {state : PhaseState numParts n dims}
    (h : part ∈ choices input state node) :
    part ∈ state.propagation.domain node := (mem_filter.mp h).1

theorem Phase1.settled {state : PhaseState numParts n dims}
    (h : Phase1 input state) : ∀ m, state.propagation.processed m = true →
      ∃ v, Settled (targets input) state.propagation.domain m v := by
  induction h with
  | @start assigned _ _ _ =>
    intro m hm
    exact (inv_run (targets input) _ (unpropagated assigned) _).settled m (fun hf => hf) hm rfl
  | commit _ _ _ hp ih => exact fun m hm => settled_afterCommit ih (mem_of_mem_choices hp) hm
  | defer _ _ _ ih => exact ih

theorem trial_of_near (hnw : state.processed node = false)
    (hn : maxDistance input part ≤ input.hmax) :
    trialEmptiesDomain input state node part = false := by
  have hnl : reachedNodes input state node part = [] := by
    have hq : (start (state.assign node part) [node]).queue = [node] := by
      simp [start, enqueue, State.assign]
    have hf : firing (targets input) (state.assign node part) node = [] := by
      simp [firing, State.assign, targets, hn]
    have htr : (turn (targets input) { start (state.assign node part) [node] with queue := [] }
        node).queue = [] := by
      show ((firing (targets input) (state.assign node part) node).foldl narrow _).queue = []
      rw [hf]
      rfl
    have hr : ∀ (fuel : ℕ) (w : Work (Fin n) (Fin numParts)), w.queue = [] →
        reached (targets input) fuel w = [] := by
      intro fuel w hw
      cases fuel with
      | zero => rfl
      | succ fuel =>
        unfold reached
        rw [hw]
    unfold reachedNodes
    rw [Nat.add_comm]
    unfold reached
    rw [hq]
    dsimp only
    rw [hr _ _ htr, append_nil]
    exact map_eq_nil_iff.mpr hf
  by_contra ht
  obtain ⟨other, ho, -⟩ := (trial_iff (targets input) (1 + n) hnw part).mp
    ((Bool.not_eq_false _).mp ht)
  have hm : other ∈ reachedNodes input state node part := ho
  rw [hnl] at hm
  cases hm

/-- **The trial against the commit, in every state of the first phase.** For a node that was not
propagated the trial fails exactly where the commit leaves a node it reaches without a candidate.
The trial of a node that was propagated does not fail, and its commit changes no domain. No choice
empties a domain. -/
theorem trial_equals_commit (input : Input numParts n dims)
    (state : PhaseState numParts n dims) (hreach : Phase1 input state)
    (node : Fin n) :
    (∀ part ∈ state.propagation.domain node, (state.propagation.processed node = false →
        (trialEmptiesDomain input state.propagation node part = true ↔
          ∃ other ∈ reachedNodes input state.propagation node part,
            (afterCommit input state.propagation node part).domain other = [])) ∧
      (state.propagation.processed node = true →
        trialEmptiesDomain input state.propagation node part = false ∧
          afterCommit input state.propagation node part = state.propagation)) ∧
    ∀ part ∈ choices input state node,
      KeepsNonempty (commit input state node part).propagation.domain
        state.propagation.domain := by
  -- what is known of a node that was propagated
  have hold : ∀ part ∈ state.propagation.domain node, state.propagation.processed node = true →
      trialEmptiesDomain input state.propagation node part = false ∧
        afterCommit input state.propagation node part = state.propagation := by
    intro part hpart hprocessed
    obtain ⟨value, hsettled⟩ := hreach.settled node hprocessed
    have hdomain : state.propagation.domain node = [value] := by
      rcases hsettled.single with h | h
      · exact h
      · rw [h] at hpart
        cases hpart
    obtain rfl : part = value := by
      rw [hdomain] at hpart
      exact mem_singleton.mp hpart
    exact ⟨trial_processed _ _ hprocessed part,
      run_assign_settled (Nat.add_pos_left Nat.one_pos n) hprocessed hdomain hsettled⟩
  refine ⟨fun part hpart => ⟨fun hnew => ?_, hold part hpart⟩, fun part hpart => ?_⟩
  · exact trial_iff (targets input) (1 + n) hnew part
  · have hmem := mem_of_mem_choices hpart
    show KeepsNonempty (afterCommit input state.propagation node part).domain _
    by_cases hprocessed : state.propagation.processed node = true
    · rw [(hold part hmem hprocessed).2]
      exact fun _ h => h
    · have hnew : state.propagation.processed node = false := by simpa using hprocessed
      have htrial : trialEmptiesDomain input state.propagation node part = false := by
        by_cases hnear : maxDistance input part ≤ input.hmax
        · exact trial_of_near hnew hnear
        · have hchoice := (mem_filter.mp hpart).2
          rw [Bool.and_eq_true, Bool.not_eq_true', decide_eq_true (not_le.mp hnear),
            Bool.true_and] at hchoice
          exact hchoice.2
      have hkeep := keepsNonempty_of_trial hnew htrial
      intro other hother
      refine hkeep other ?_
      show update state.propagation.domain node [part] other ≠ []
      by_cases heq : other = node
      · rw [heq, update_self]
        exact cons_ne_nil _ _
      · rwa [update_of_ne heq]

/-! ## a ring of six parts -/

local instance ringParts : NeZero 6 := ⟨Nat.succ_ne_zero 5⟩

local instance ringNodes : NeZero 7 := ⟨Nat.succ_ne_zero 6⟩

/-- Six parts in a ring. Five fixed nodes leave the sixth node one part and the seventh, which is
next to it, none. -/
def ringInput : Input 6 7 1 :=
  { hmax := 1
    distances := fun a b => min ((a - b).1) ((b - a).1)
    capacities := fun _ _ => 10
    nodes := fun node =>
      { fixedPart := [some 0, some 2, some 4, some 5, some 1].getD node.1 none
        weights := fun _ => 1 }
    nets :=
      [{ source := 6, sinks := [0, 1, 2, 5], sinks_ne := by decide, sinks_nodup := by decide,
         source_not_sink := by decide },
       { source := 5, sinks := [3, 4], sinks_ne := by decide, sinks_nodup := by decide,
         source_not_sink := by decide }]
    nodes_pos := by decide
    hmax_pos := le_rfl
    distances_self := by decide
    distances_symm := by decide
    capacities_pos := fun _ _ => by decide }

def ringPropagation : State (Fin 7) (Fin 6) :=
  initialPropagation ringInput fun node => (ringInput.nodes node).fixedPart

theorem ring_starts : ∃ state, Phase1 ringInput state ∧ state.assigned 5 = none ∧
    state.propagation = ringPropagation := by
  obtain ⟨loads, hl⟩ := Check.exists_of_isOk (x := fixedLoads ringInput) (by decide +kernel)
  exact ⟨_, .start (.fixed ⟨0, by decide⟩ hl) (by decide +kernel), rfl, rfl⟩

/-- **The trial of a node that was propagated misses a domain that is empty already.** -/
theorem ring_trial : ∃ state, Phase1 ringInput state ∧ state.assigned 5 = none ∧
    0 ∈ state.propagation.domain 5 ∧
    trialEmptiesDomain ringInput state.propagation 5 0 = false ∧
    ∃ other ∈ reachedNodes ringInput state.propagation 5 0,
      (afterCommit ringInput state.propagation 5 0).domain other = [] := by
  obtain ⟨state, hreach, hfree, heq⟩ := ring_starts
  refine ⟨state, hreach, hfree, ?_⟩
  rw [heq]
  exact ⟨by decide +kernel, by decide +kernel, 6, by decide +kernel, by decide +kernel⟩

/-- The trial against the commit: for the node of the ring, and for a node of the chain that was not
propagated, next to one in the first part. -/
theorem ring_commit : (∃ state, Phase1 ringInput state ∧
      afterCommit ringInput state.propagation 5 0 = state.propagation) ∧
    ∃ state, Phase1 chainInput state ∧ 1 ∈ state.propagation.domain 1 ∧
      state.propagation.processed 1 = false ∧
      ¬∃ other ∈ reachedNodes chainInput state.propagation 1 1,
        (afterCommit chainInput state.propagation 1 1).domain other = [] := by
  constructor
  · obtain ⟨state, hreach, -, heq⟩ := ring_starts
    have hpart : 0 ∈ state.propagation.domain 5 := by
      rw [heq]
      decide +kernel
    have hprocessed : state.propagation.processed 5 = true := by
      rw [heq]
      decide +kernel
    exact ⟨state, hreach, (((trial_equals_commit ringInput state hreach 5).1 0 hpart).2
      hprocessed).2⟩
  · have hreach : Phase1 chainInput (phaseStart chainInput
        (update (fun _ => none) 0 (some 0)) (addLoad chainInput (fun _ _ => 0) 0 0)) :=
      .start (.seeded (fun _ => rfl) (by decide)) (by decide +kernel)
    have hpart : 1 ∈ (phaseStart chainInput (update (fun _ => none) 0 (some 0))
        (addLoad chainInput (fun _ _ => 0) 0 0)).propagation.domain 1 := by decide +kernel
    refine ⟨_, hreach, hpart, by decide +kernel, ?_⟩
    rw [← ((trial_equals_commit chainInput _ hreach 1).1 1 hpart).1 (by decide +kernel)]
    decide +kernel

end EmuFlow.MfsPart.Initializer
