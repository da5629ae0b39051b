import EmuFlow.BankChannels.Stages

/-!
# Stage two is feasible

Once stage one has put no more groups on a bank than it has channels, the groups section by section
are a complete assignment of its channels. `solve_bank` finds one, except where a group costs so
much more than the others that its channels count as unreached.
-/

namespace EmuFlow.BankChannels

open Check Transport List

variable {input : Input} {bank : BankPair} {groups : List Group} {priority : ℕ}
  {candidates : List CandidateEdge}

/-! ## candidates -/

/-- The candidate costs add up within 64 bits, and with them every distance, potential and total:
these are the costs of paths without repeated nodes. -/
def CostsInRange (input : Input) (bank : BankPair) (groups : List Group) (priority : ℕ) : Prop :=
  ∀ candidates, channelCandidates input bank groups priority = .ok candidates →
    (∀ edge ∈ candidates, 0 ≤ edge.cost) ∧ (candidates.map Lane.cost).sum < 2 ^ 63

theorem costsInRange_of_eq (h : channelCandidates input bank groups priority = .ok candidates)
    (hn : ∀ edge ∈ candidates, 0 ≤ edge.cost)
    (hs : (candidates.map Lane.cost).sum < 2 ^ 63) : CostsInRange input bank groups priority := by
  intro candidates' h'
  rw [h] at h'
  cases h'
  exact ⟨hn, hs⟩

theorem mem_channelCandidates (h : channelCandidates input bank groups priority = .ok candidates)
    {edge : CandidateEdge} (hed : edge ∈ candidates) :
    edge.right < bank.channels.length ∧ edge.left < groups.length ∧
      eligible groups priority edge.right (groups.getD edge.left default) ∧
      channelCost input (bank.channels.getD edge.right 0) (groups.getD edge.left default) =
        .ok edge.cost := by
  obtain ⟨pair, hpr, hs⟩ := exists_of_mem_mapM h hed
  obtain ⟨cost, hc, heq⟩ := bind_eq_ok.mp hs
  obtain ⟨hp, he⟩ := mem_filter.mp hpr
  obtain ⟨hr, hl⟩ := mem_product.mp hp
  cases heq
  exact ⟨mem_range.mp hr, mem_range.mp hl, of_decide_eq_true he, hc⟩

theorem exists_candidate (h : channelCandidates input bank groups priority = .ok candidates)
    {right left : ℕ} (hr : right < bank.channels.length) (hl : left < groups.length)
    (he : eligible groups priority right (groups.getD left default)) :
    ∃ edge ∈ candidates, edge.right = right ∧ edge.left = left := by
  have hp : (right, left) ∈ eligiblePairs groups priority bank.channels.length :=
    mem_filter.mpr ⟨mem_product.mpr ⟨mem_range.mpr hr, mem_range.mpr hl⟩,
      decide_eq_true he⟩
  obtain ⟨edge, hed, hc⟩ := mem_mapM_of_mem h hp
  obtain ⟨cost, -, heq⟩ := bind_eq_ok.mp hc
  cases heq
  exact ⟨_, hed, rfl, rfl⟩

theorem ranged_channelCandidates (hr : CostsInRange input bank groups priority)
    (h : channelCandidates input bank groups priority = .ok candidates) :
    Ranged (List.replicate bank.channels.length 1) groups.length candidates where
  nonneg capacity hc := by
    rw [eq_of_mem_replicate hc]
    exact zero_le_one
  range edge he := by
    obtain ⟨hrg, hl, -⟩ := mem_channelCandidates h he
    rw [length_replicate]
    exact ⟨hrg, hl, (hr candidates h).1 edge he⟩

theorem getD_replicate (count right : ℕ) :
    (List.replicate count (1 : ℤ)).getD right 0 = if right < count then 1 else 0 := by
  rw [getD_eq_getElem?_getD, List.getElem?_replicate]
  split_ifs <;> rfl

theorem exists_complete (hg : Sound groups) (hpr : priority < 2)
    (hf : groups.length ≤ bank.channels.length)
    (h : channelCandidates input bank groups priority = .ok candidates) :
    ∃ assignment, Complete (List.replicate bank.channels.length 1) groups.length candidates
      assignment := by
  have hln : (order groups priority).length = groups.length := by
    rw [order_perm.length_eq, length_range]
  have he : ∀ right (hr : right < (order groups priority).length),
      ∃ edge ∈ candidates, edge.right = right ∧ edge.left = (order groups priority)[right] := by
    intro right hr
    obtain ⟨hl, hel⟩ := order_eligible hg hpr (List.getElem?_eq_getElem hr)
    exact exists_candidate h (by omega) hl hel
  choose edgeAt hmm hr hl using he
  let edges := ofFn fun i : Fin (order groups priority).length => edgeAt i i.isLt
  have hls : (edges.map Lane.left).Perm (List.range groups.length) := by
    have hm : edges.map Lane.left = order groups priority := by
      refine ext_getElem (by simp [edges]) fun i hi hi' => ?_
      simp [edges, hl]
    rw [hm]
    exact order_perm
  have hrh : (edges.map Lane.right).Nodup := by
    have hm : edges.map Lane.right = List.range (order groups priority).length := by
      refine ext_getElem (by simp [edges]) fun i hi hi' => ?_
      simp [edges, hr]
    rw [hm]
    exact nodup_range
  have hc : ∀ edge ∈ edges, edge ∈ candidates := by
    intro edge he
    obtain ⟨i, rfl⟩ := mem_ofFn.mp he
    exact hmm i i.isLt
  obtain ⟨hs, hp⟩ := lefts_flatMap_filter hls
  refine ⟨_, hs, fun edge he => hc edge (hp.mem_iff.mp he), fun right => ?_⟩
  rw [hp.countP_eq, countP_right, getD_replicate]
  split_ifs with hlt
  · exact_mod_cast nodup_iff_count_le_one.mp hrh right
  · rw [count_eq_zero_of_not_mem fun hin => ?_]
    · rfl
    · obtain ⟨edge, he, rfl⟩ := mem_map.mp hin
      exact hlt (mem_channelCandidates h (hc edge he)).1

structure Matching (candidates edges : List CandidateEdge) : Prop where
  legal : ∀ edge ∈ edges, edge ∈ candidates
  rights : (edges.map Lane.right).Nodup
  lefts : (edges.map Lane.left).Nodup

/-- After every matching of fewer lefts one of a left more costs less than `infinity` more. -/
def CheapSteps (candidates : List CandidateEdge) (leftCount : ℕ) : Prop :=
  ∀ edges, Matching candidates edges → edges.length < leftCount → ∃ next,
    Matching candidates next ∧ next.length = edges.length + 1 ∧
      (next.map Lane.cost).sum < (edges.map Lane.cost).sum + infinity

variable {count leftCount : ℕ}

theorem matching_of_choice {choice : List CandidateEdge}
    (h : Choice (flowNetwork (List.replicate count 1) leftCount candidates) choice) :
    Matching candidates choice := by
  refine ⟨legal_of_choice h, nodup_iff_count_le_one.mpr fun right => ?_, nodup_lefts_of_choice h⟩
  have hle := h.rights right
  rw [supplyCapacity_flowNetwork, getD_replicate, countP_right] at hle
  split_ifs at hle <;> omega

theorem choice_of_matching (hr : Ranged (List.replicate count 1) leftCount candidates)
    {edges : List CandidateEdge} (h : Matching candidates edges) : ∃ choice, choice.Perm edges ∧
      Choice (flowNetwork (List.replicate count 1) leftCount candidates) choice := by
  obtain ⟨choice, hp, hs⟩ := Nodup.subperm (Nodup.of_map _ h.rights) h.legal
  refine ⟨choice, hp, lanes_flowNetwork ▸ hs, fun right => ?_, fun left => ?_⟩
  · rw [supplyCapacity_flowNetwork, getD_replicate, hp.countP_eq, countP_right]
    split_ifs with hrg
    · exact_mod_cast nodup_iff_count_le_one.mp h.rights right
    · rw [count_eq_zero_of_not_mem fun hin => ?_]
      · rfl
      · obtain ⟨edge, he, rfl⟩ := mem_map.mp hin
        have hlt := (hr.range edge (h.legal edge he)).1
        rw [length_replicate] at hlt
        exact hrg hlt
  · rw [demandCapacity_flowNetwork, hp.countP_eq, countP_left]
    split_ifs with hl
    · exact_mod_cast nodup_iff_count_le_one.mp h.lefts left
    · rw [count_eq_zero_of_not_mem fun hin => ?_]
      · rfl
      · obtain ⟨edge, he, rfl⟩ := mem_map.mp hin
        exact hl (hr.range edge (h.legal edge he)).2.1

theorem extendable_iff_cheapSteps (hr : Ranged (List.replicate count 1) leftCount candidates) :
    Extendable (flowNetwork (List.replicate count 1) leftCount candidates) infinity leftCount ↔
      CheapSteps candidates leftCount := by
  constructor
  · intro h edges he hl
    obtain ⟨c, hp, hc⟩ := choice_of_matching hr he
    obtain ⟨next, hn, hm, hls⟩ := h c hc (by rw [hp.length_eq]; exact hl)
    rw [hp.length_eq] at hm
    rw [(hp.map Lane.cost).sum_eq] at hls
    exact ⟨next, matching_of_choice hn, hm, hls⟩
  · intro h c hc hl
    obtain ⟨edges, he, hm, hls⟩ := h c (matching_of_choice hc) hl
    obtain ⟨next, hp, hn⟩ := choice_of_matching hr he
    refine ⟨next, hn, by rw [hp.length_eq, hm], ?_⟩
    rw [(hp.map Lane.cost).sum_eq]
    exact hls

/-- The channels of a bank as stage two leaves them. -/
structure Placed (bank : BankPair) (groups : List Group) (priority : ℕ)
    (assignment : List CandidateEdge) : Prop where
  lefts : assignment.map Lane.left = List.range groups.length
  channels : ∀ edge ∈ assignment, edge.right < bank.channels.length
  distinct : (assignment.map fun edge => bank.channels.getD edge.right 0).Nodup
  sections : ∀ edge ∈ assignment,
    InSection groups priority edge.right (groups.getD edge.left default)

/-- `solve_bank` ends without the error that there is no assignment, and what it returns is placed
in its sections. -/
def Feasible (input : Input) (bank : BankPair) (groups : List Group) (priority : ℕ) : Prop :=
  ∃ bound outcome, (∀ fuel ≥ bound, solveBank fuel input bank groups priority = some outcome) ∧
    outcome ≠ .error noAssignment ∧
    ∀ result, outcome = .ok result → Placed bank groups priority result.assignment

theorem placed_of_complete (hg : Sound groups) (hp : priority < 2)
    (hbn : bank.channels.Nodup)
    (h : channelCandidates input bank groups priority = .ok candidates)
    {assignment : List CandidateEdge}
    (hc : Complete (List.replicate bank.channels.length 1) groups.length candidates
      assignment) : Placed bank groups priority assignment := by
  have hin := fun edge he => mem_channelCandidates h (hc.legal edge he)
  have hr : (assignment.map Lane.right).Nodup := by
    refine nodup_iff_count_le_one.mpr fun right => ?_
    have hle := hc.rights right
    rw [getD_replicate, countP_right] at hle
    split_ifs at hle <;> omega
  refine ⟨hc.lefts, fun edge he => (hin edge he).1, ?_, fun edge he => ?_⟩
  · have hm : assignment.map (fun edge => bank.channels.getD edge.right 0) =
        (assignment.map Lane.right).map fun right => bank.channels.getD right 0 := by
      rw [map_map]
      rfl
    rw [hm]
    refine Nodup.map_on (fun a ha b hb heq => ?_) hr
    obtain ⟨edge, he, rfl⟩ := mem_map.mp ha
    obtain ⟨edge', he', rfl⟩ := mem_map.mp hb
    have hlt := (hin edge he).1
    have hlt' := (hin edge' he').1
    rw [getD_eq_getElem?_getD, getD_eq_getElem?_getD, List.getElem?_eq_getElem hlt,
      List.getElem?_eq_getElem hlt'] at heq
    exact (hbn.getElem_inj_iff).mp heq
  · obtain ⟨-, hl, hel, -⟩ := hin edge he
    refine inSection_of_eligible hg hp ?_ hel
    rw [getD_eq_getElem?_getD, List.getElem?_eq_getElem hl]
    exact getElem_mem hl

/-- The condition: the groups have one channel each that they can take, or matchings can be extended
below `infinity`. -/
def Reachable (input : Input) (bank : BankPair) (groups : List Group) (priority : ℕ) : Prop :=
  ∀ candidates, channelCandidates input bank groups priority = .ok candidates →
    uniqueCandidates bank.channels.length groups.length candidates ≠ none ∨
      CheapSteps candidates groups.length

theorem error_of_channelCandidates {e : String}
    (h : channelCandidates input bank groups priority = .error e) : e = edgeOutOfRange := by
  obtain ⟨pair, -, hc⟩ := of_mapM_eq_error h
  rcases bind_eq_error.mp hc with he | ⟨cost, -, he⟩
  · unfold channelCost rankedCost at he
    dsimp only at he
    split at he
    · exact (Except.error.inj he).symm
    · rcases bind_eq_error.mp he with hrs | ⟨_, -, hr⟩
      · exact (raiseIf_eq_error.mp hrs).2.symm
      · cases hr
  · cases he

theorem feasible_iff (hrg : CostsInRange input bank groups priority) (hgr : Sound groups)
    (hpr : priority < 2) (hbn : bank.channels.Nodup) (hft : groups.length ≤ bank.channels.length) :
    Feasible input bank groups priority ↔ Reachable input bank groups priority := by
  cases h : channelCandidates input bank groups priority with
  | error e =>
    have her := error_of_channelCandidates h
    refine ⟨fun _ candidates hcn => ?_, fun _ => ⟨0, .error e, fun fuel _ => ?_,
      fun heq => ?_, fun r heq => ?_⟩⟩
    · rw [h] at hcn
      cases hcn
    · rw [solveBank, h]
    · rw [her] at heq
      exact absurd (Except.error.inj heq) (by decide)
    · cases heq
  | ok candidates =>
    obtain ⟨other, hot⟩ := exists_complete hgr hpr hft h
    have hrn := ranged_channelCandidates hrg h
    obtain ⟨bound, outcome, hru, hst, hif⟩ := assign_extendable hrn hot
    rw [extendable_iff_cheapSteps hrn, length_replicate] at hif
    have hsl : ∀ fuel ≥ bound,
        solveBank fuel input bank groups priority = some outcome := fun fuel hfl => by
      rw [solveBank, h]
      exact hru fuel hfl
    constructor
    · rintro ⟨bound', outcome', hru', hne, -⟩ candidates' hcn
      rw [h] at hcn
      cases hcn
      have hsm : outcome' = outcome := Option.some.inj <|
        (hru' (max bound bound') (le_max_right _ _)).symm.trans
          (hsl (max bound bound') (le_max_left _ _))
      rw [hsm] at hne
      by_contra hnt
      rw [not_or, not_not] at hnt
      exact hne (hif.mpr hnt)
    · intro hrc
      refine ⟨bound, outcome, hsl, fun heq => ?_, fun r heq => ?_⟩
      · obtain ⟨hnn, hcs⟩ := hif.mp heq
        exact (hrc candidates h).elim (fun hun => hun hnn) hcs
      · cases hst r heq with
        | assigned hcm _ _ _ =>
          exact placed_of_complete hgr hpr hbn h hcm

/-! ## the run -/

/-- Stage one has put every group on a bank, and no more on a bank than it has channels. -/
structure StageOne (input : Input) (rightForLeft : List ℕ) : Prop where
  groups : rightForLeft.length = input.groups.length
  capacity : ∀ bank < input.banks.length, (groupsOf rightForLeft bank).length ≤
    (input.banks.getD bank default).channels.length

theorem sound_bankGroups (hi : input.Accepted) {rightForLeft : List ℕ}
    (hs : StageOne input rightForLeft) (index : ℕ) :
    Sound (bankGroups input rightForLeft index) := by
  intro group hg
  obtain ⟨left, hl, rfl⟩ := mem_map.mp hg
  have hlt : left < input.groups.length := by
    rw [← hs.groups]
    exact mem_range.mp (mem_filter.mp hl).1
  rw [getD_eq_getElem?_getD, List.getElem?_eq_getElem hlt]
  obtain ⟨hk, hd, -⟩ := hi.kinds _ (getElem_mem hlt)
  exact ⟨hk, hd⟩

/-- One bank with two channels, and one group whose pins are `distance` away from its sink. -/
def onePair (distance : ℚ) : Input where
  costScale := 1
  banks := [⟨0, ⟨0, 0⟩, ⟨0, 0⟩, [0, 1]⟩]
  channels := [⟨⟨distance, 0⟩, ⟨0, 0⟩⟩, ⟨⟨distance, 0⟩, ⟨0, 0⟩⟩]
  groups := [⟨0, 0, 0, [⟨0, 1, ⟨0, 0⟩, [⟨0, 0⟩]⟩]⟩]

theorem onePair_accepted (distance : ℚ) : (onePair distance).Accepted where
  costScale := zero_lt_one
  banks := by simp [onePair]
  channels := by simp [onePair]
  groups := by simp [onePair]
  bankChannels := by simp [onePair]
  kinds := by simp [onePair]
  members := by simp [onePair]
  bundles := by simp [onePair]

theorem onePair_stageOne (distance : ℚ) : StageOne (onePair distance) [0] where
  groups := rfl
  capacity := by
    intro bank hb
    obtain rfl : bank = 0 := Nat.lt_one_iff.mp hb
    show (groupsOf [0] 0).length ≤ 2
    decide

end EmuFlow.BankChannels
