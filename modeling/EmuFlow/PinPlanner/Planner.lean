import EmuFlow.Lib.WorkPool
import EmuFlow.PinPlanner.Optimal
import Mathlib.Data.List.Lex

/-!
# The plan of all domains

`solve_domain` and `run` of `native/placement_aware_pin_planner.cpp`. Workers solve the domains, and
the results of the domains are put together in their order.
-/

namespace EmuFlow.PinPlanner

open Check SortedSet WorkPool List

/-- `DomainResult` -/
structure DomainResult (n : ℕ) where
  /-- Signals with their groups and pins. -/
  assignments : List (Fin n × ℕ × ℤ)
  groupObjectives : List ℚ
  deriving DecidableEq

structure Plan (n : ℕ) where
  groups : ℕ
  objective : ℚ
  assignments : List (Fin n × ℕ × ℤ)

namespace Input

variable (input : Input)

def orderedGroups (groups : List (Group input.size)) : List (Group input.size) :=
  sortedBy (fun group => lex group.ratio (lex (input.groupMeanY group) group.signals))
    (ofFn (input.refineGroups groups.get))

def domainResult (groups : List (Group input.size)) (pins : List ℤ) : DomainResult input.size where
  assignments := (groups.zip pins).zipIdx.flatMap fun entry =>
    entry.1.1.signals.map fun i => (i, entry.2, entry.1.2)
  groupObjectives := groups.map input.groupCost

/-- `solve_domain`, or `none` when the search for the pins does not end. -/
def solveDomain (domain : ℕ) : Option (Except String (DomainResult input.size)) :=
  match input.initialGrouping domain with
  | .error message => some (.error message)
  | .ok groups =>
    (input.assignPins (input.orderedGroups groups) (input.lanes.getD domain 0)).map fun pins =>
      .ok (input.domainResult (input.orderedGroups groups) pins)

def addDomain (plan : Plan input.size) (result : DomainResult input.size) : Plan input.size where
  groups := plan.groups + result.groupObjectives.length
  objective := plan.objective + result.groupObjectives.sum
  assignments := plan.assignments ++
    result.assignments.map fun entry => (entry.1, plan.groups + entry.2.1, entry.2.2)

def assemble (results : List (DomainResult input.size)) : Plan input.size :=
  let plan := results.foldl input.addDomain { groups := 0, objective := 0, assignments := [] }
  { plan with
    assignments := sortedBy (fun entry => lex entry.1 (lex entry.2.1 entry.2.2)) plan.assignments }

/-- What `run` does once its workers have returned. -/
def planned {workers : ℕ} (s : State String (DomainResult input.size) workers) :
    Except String (Plan input.size) :=
  match s.failure with
  | some message => .error message
  | none => .ok (input.assemble ((range input.lanes.length).map fun domain =>
      (s.results domain).getD { assignments := [], groupObjectives := [] }))

end Input

variable {input : Input}

theorem solveDomain_outcome (input : Input) (domain : ℕ) :
    input.solveDomain domain = some (.error capacityMessage) ∨
      ∃ r, input.solveDomain domain = some (.ok r) := by
  have h := initialGrouping_outcome input domain
  unfold Input.solveDomain
  split at h
  · rw [h]
    exact .inl rfl
  · obtain ⟨groups, hg, hlg⟩ := h
    rw [hg]
    have hl : (input.orderedGroups groups).length ≤ input.lanes.getD domain 0 := by
      rw [Input.orderedGroups, length_sortedBy, length_ofFn]
      exact hlg.length_le
    obtain ⟨pins, hp, -⟩ := assignPins_optimal input (input.orderedGroups groups) hl
    dsimp only
    rw [hp]
    exact .inr ⟨_, rfl⟩

/-- **Every run of any workers makes one plan**: that of the domains in order, or the message of the
domains with too few lanes. -/
theorem planned_of_runs {workers : ℕ} (hw : 0 < workers)
    {s : State String (DomainResult input.size) workers}
    (h : Runs input.solveDomain input.lanes.length {} s) (hdn : s.Done) :
    input.planned s = if ∃ domain < input.lanes.length,
          input.solveDomain domain = some (.error capacityMessage) then .error capacityMessage
      else .ok (input.assemble ((range input.lanes.length).filterMap fun domain =>
        (input.solveDomain domain).bind Except.toOption)) := by
  unfold Input.planned
  rcases outcome_of_run hw h hdn with ⟨e, he, domain, hd, hs⟩ | ⟨hn, ha⟩
  · have hm : e = capacityMessage := by
      rcases solveDomain_outcome input domain with hc | ⟨r, hr⟩
      · rw [hc] at hs
        exact (Except.error.inj (Option.some.inj hs)).symm
      · rw [hr] at hs
        cases Option.some.inj hs
    subst hm
    rw [he, if_pos ⟨domain, hd, hs⟩]
  · rw [hn, if_neg]
    · refine congrArg (fun results => Except.ok (input.assemble results)) ?_
      rw [← filterMap_eq_map]
      refine filterMap_congr fun domain hd => ?_
      obtain ⟨r, hr, hs⟩ := ha domain (mem_range.mp hd)
      rw [hs]
      show some ((s.results domain).getD _) = _
      rw [hr]
      rfl
    · rintro ⟨domain, hd, her⟩
      obtain ⟨r, -, hs⟩ := ha domain hd
      rw [her] at hs
      cases Option.some.inj hs

theorem legal_of_initialGrouping {domain : ℕ} {groups : List (Group input.size)}
    (h : input.initialGrouping domain = .ok groups) : Legal input groups.get := by
  have ho := initialGrouping_outcome input domain
  split at ho
  · rw [ho] at h
    cases h
  · obtain ⟨groups', hg', hl⟩ := ho
    obtain rfl := Except.ok.inj (hg'.symm.trans h)
    intro index
    have hf := hl.filled _ (groups'.get_mem index)
    exact ⟨hf.legal, hf.ne_nil⟩

/-- **Pin planning.** From the initial groups of a domain, every round of swaps keeps the sizes, the
ratios and the distinct slots; an accepted swap costs what was foreseen of it and lowers the costs,
and the swaps end. The pins of groups that do not outnumber them are distinct and cost least, and
all runs of any workers make the same plan. -/
theorem pinPlanning (input : Input) : (∀ domain groups, input.initialGrouping domain = .ok groups →
      (∀ rounds, (∀ index, (input.refineRounds rounds groups.get index).signals.length =
            (groups.get index).signals.length ∧
          (input.refineRounds rounds groups.get index).ratio = (groups.get index).ratio ∧
          ((input.refineRounds rounds groups.get index).signals.map fun i =>
            (input.signals i).slot).Nodup) ∧
        ∀ next, input.refineTurn (input.refineRounds rounds groups.get) = some next →
          input.objective next < input.objective (input.refineRounds rounds groups.get) ∧
          ∃ swap : Swap (input.refineRounds rounds groups.get), next = swap.apply input.signals ∧
            input.groupCost (next swap.a) = input.costAfterSwap
              (input.refineRounds rounds groups.get swap.a) (input.signals swap.sa)
              (input.signals swap.sb) ((input.refineRounds rounds groups.get swap.a).crossingWithout
                (input.signals swap.sa).crossing) ∧
            input.groupCost (next swap.b) = input.costAfterSwap
              (input.refineRounds rounds groups.get swap.b) (input.signals swap.sb)
              (input.signals swap.sa) ((input.refineRounds rounds groups.get swap.b).crossingWithout
                (input.signals swap.sb).crossing)) ∧
      ∃ rounds, input.refineTurn (input.refineRounds rounds groups.get) = none) ∧
    (∀ (groups : List (Group input.size)) (lanes : ℕ), groups.length ≤ lanes →
      ∃ pins : Fin groups.length → Fin lanes,
        input.assignPins groups lanes = some (List.ofFn fun i => (pins i : ℤ)) ∧
        Function.Injective pins ∧
        ∀ other : Fin groups.length → Fin lanes, Function.Injective other →
          ∑ i, input.pinCost lanes (groups.get i) (pins i + 1) ≤
            ∑ i, input.pinCost lanes (groups.get i) (other i + 1)) ∧
    ∀ workers workers' : ℕ, 0 < workers → 0 < workers' →
      ∀ (s : State String (DomainResult input.size) workers)
        (s' : State String (DomainResult input.size) workers'),
        Runs input.solveDomain input.lanes.length {} s → s.Done →
        Runs input.solveDomain input.lanes.length {} s' → s'.Done →
        input.planned s = input.planned s' := by
  refine ⟨fun domain groups hgroups => ?_, fun groups lanes hlanes =>
    assignPins_optimal input groups hlanes, fun workers workers' hpos hpos' s s' h hdone h'
      hdone' =>
      (planned_of_runs hpos h hdone).trans (planned_of_runs hpos' h' hdone').symm⟩
  have hlegal := legal_of_initialGrouping hgroups
  refine ⟨fun rounds => ?_, exists_last_round hlegal⟩
  obtain ⟨hrounds, hratio, hlength, -⟩ := refineRounds_legal hlegal rounds
  refine ⟨fun index => ⟨hlength index, hratio index, (hrounds index).1.slots_nodup⟩,
    fun next hnext => ?_⟩
  obtain ⟨himproves, swap, -, happly, hcostA, hcostB⟩ := refineTurn_spec hrounds hnext
  have hlt := himproves.objective_lt
  exact ⟨by linarith, swap, happly, hcostA, hcostB⟩

def twoSignals : Input where
  refinementIterations := 100
  crossingWeight := 1
  positionWeight := 1
  lanes := [2]
  size := 2
  signals := fun i =>
    { domain := 0, ratio := 1, slot := 0, crossing := 1, sourceY := i, sinkY := 1 }
  crossingWeight_nonneg := zero_le_one
  positionWeight_nonneg := zero_le_one
  lanes_ne_nil := cons_ne_nil 2 []
  lanes_pos := by simp
  size_pos := Nat.two_pos
  domain_lt := fun _ => Nat.one_pos
  ratio_pos := fun _ => Nat.one_pos

/-- The signals are grouped and get their pins, and one worker plans as two do. -/
theorem twoSignals_planned : (∃ groups, twoSignals.initialGrouping 0 = .ok groups ∧
      (∃ rounds, twoSignals.refineTurn (twoSignals.refineRounds rounds groups.get) = none) ∧
      ∃ pins : Fin groups.length → Fin 2,
        twoSignals.assignPins groups 2 = some (List.ofFn fun i => (pins i : ℤ)) ∧
        Function.Injective pins) ∧
    ∃ (s : State String (DomainResult 2) 1) (s' : State String (DomainResult 2) 2),
      Runs twoSignals.solveDomain 1 {} s ∧ s.Done ∧ Runs twoSignals.solveDomain 1 {} s' ∧
        s'.Done ∧ twoSignals.planned s = twoSignals.planned s' := by
  obtain ⟨groups, hgroups, hlength⟩ := exists_of_returns
    (P := fun groups : List (Group twoSignals.size) => groups.length ≤ 2)
    (x := twoSignals.initialGrouping 0) (by decide +kernel)
  obtain ⟨hrefine, hpins, hruns⟩ := pinPlanning twoSignals
  obtain ⟨pins, hassign, hinj, -⟩ := hpins groups 2 hlength
  obtain ⟨s, hs, hdone⟩ := exists_done_of_exec twoSignals.solveDomain 1
    ([0, 0, 0, 0] : List (Fin 1)) (by decide +kernel)
  obtain ⟨s', hs', hdone'⟩ := exists_done_of_exec twoSignals.solveDomain 1
    ([1, 0, 1, 1, 1] : List (Fin 2)) (by decide +kernel)
  exact ⟨⟨groups, hgroups, (hrefine 0 groups hgroups).2, pins, hassign, hinj⟩, s, s', hs, hdone,
    hs',
    hdone', hruns 1 2 (by decide) (by decide) s s' hs hdone hs' hdone'⟩

end EmuFlow.PinPlanner
