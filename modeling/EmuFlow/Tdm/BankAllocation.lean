import EmuFlow.Routing.Validate

/-!
# Shared-bank allocation

`allocate_shared_banks` of `emuflow/bank_allocation.py` and `_bank_direction_allocations` of
`emuflow/tdm.py`: the banks of a link are split between its two directions so that the worst
discrete ratio is smallest.

Phase 4 counts the demand of a bank against all slots of the frame, Phase 5 against the largest
discrete ratio that fits into the frame. The two agree when the ratio quantum divides the frame.
-/

namespace EmuFlow.Tdm

open Check SortedSet DiscreteRatio Routing List

/-! ## one link -/

structure BankSplit where
  forwardBanks : Nat
  reverseBanks : Nat
  forwardLanes : Nat
  reverseLanes : Nat
  forwardRatio : Nat
  reverseRatio : Nat

/-- The ratio of the inner function `ratio`, or `None` where the split is infeasible. -/
def bankRatio (wiresPerBank minRatio ratioQuantum : Nat) (maxRatio : Option Nat)
    (signals banks : Nat) : Option Nat :=
  if signals = 0 then some 1
  else if banks = 0 then none
  else
    let lanes := banks * wiresPerBank
    let value := roundUp ratioQuantum (max minRatio (ceilDiv signals lanes))
    if ∀ limit ∈ maxRatio, value ≤ limit then some value else none

def bankPressure (wiresPerBank signals banks : Nat) : ℚ :=
  if banks = 0 then 0 else signals / (banks * wiresPerBank : Nat)

abbrev BankObjective := Nat ×ₗ Nat ×ₗ ℚ ×ₗ ℚ ×ₗ Nat

def bankCandidate (forwardSignals reverseSignals bankCount wiresPerBank minRatio
    ratioQuantum : Nat) (maxRatio : Option Nat) (forward : Nat) :
    Option (BankObjective × BankSplit) := do
  let reverse := bankCount - forward
  let forwardRatio ←
    bankRatio wiresPerBank minRatio ratioQuantum maxRatio forwardSignals forward
  let reverseRatio ←
    bankRatio wiresPerBank minRatio ratioQuantum maxRatio reverseSignals reverse
  let forwardPressure := bankPressure wiresPerBank forwardSignals forward
  let reversePressure := bankPressure wiresPerBank reverseSignals reverse
  return (lex (max forwardRatio reverseRatio) (lex (forwardRatio + reverseRatio)
      (lex (max forwardPressure reversePressure) (lex (forwardPressure + reversePressure)
        forward))),
    { forwardBanks := forward
      reverseBanks := reverse
      forwardLanes := forward * wiresPerBank
      reverseLanes := reverse * wiresPerBank
      forwardRatio := forwardRatio
      reverseRatio := reverseRatio })

/-- `best`, after one more candidate. -/
def betterSplit (best : Option (BankObjective × BankSplit))
    (candidate : BankObjective × BankSplit) : Option (BankObjective × BankSplit) :=
  match best with
  | none => some candidate
  | some b => if candidate.1 < b.1 then some candidate else some b

def allocateSharedBanks (forwardSignals reverseSignals bankCount wiresPerBank minRatio
    ratioQuantum : Nat) (maxRatio : Option Nat) : Result (Option BankSplit) := do
  raiseIf (bankCount < 1) (.valueError "%s must be an integer >= %s" ["bank_count", "1"])
  raiseIf (wiresPerBank < 1) (.valueError "%s must be an integer >= %s" ["wires_per_bank", "1"])
  raiseIf (minRatio < 1) (.valueError "%s must be an integer >= %s" ["min_ratio", "1"])
  raiseIf (ratioQuantum < 1) (.valueError "%s must be an integer >= %s" ["ratio_quantum", "1"])
  raiseIf (∃ limit ∈ maxRatio, limit < minRatio)
    (.valueError "max_ratio must be an integer >= min_ratio" [])
  let candidates := (List.range (bankCount + 1)).filterMap
    (bankCandidate forwardSignals reverseSignals bankCount wiresPerBank minRatio ratioQuantum
      maxRatio)
  return (candidates.foldl betterSplit none).map Prod.snd

/-! ## all links -/

structure BankBudget where
  bankCount : Nat
  wiresPerBank : Nat
  laneOffset : Nat
  lanes : Nat
  deriving DecidableEq

abbrev BankAllocations := List (ArcKey × BankBudget)

/-- `counts[(link, from, to)]`. -/
def edgeCount (routes : List Route) (key : ArcKey) : Nat :=
  (routes.flatMap Route.treeEdges).countP fun edge => edge.key = key

def sortedEndpoints (link : BoardLink) : String × String :=
  if link.endpoints.1 ≤ link.endpoints.2 then link.endpoints else link.endpoints.swap

def bankEntries (link : BoardLink) (banks : SharedBanks) (split : BankSplit) : BankAllocations :=
  let ends := sortedEndpoints link
  [((link.id, ends.1, ends.2),
      { bankCount := split.forwardBanks, wiresPerBank := banks.wiresPerBank
        laneOffset := 0, lanes := split.forwardLanes }),
   ((link.id, ends.2, ends.1),
      { bankCount := split.reverseBanks, wiresPerBank := banks.wiresPerBank
        laneOffset := split.forwardLanes, lanes := split.reverseLanes })]

def addBankAllocation (routes : List Route) (constraints : RouteConstraints)
    (result : BankAllocations) (link : BoardLink) : Result BankAllocations :=
  match link.banks with
  | none => .ok result
  | some banks => do
    let ends := sortedEndpoints link
    let forward : ArcKey := (link.id, ends.1, ends.2)
    let reverse : ArcKey := (link.id, ends.2, ends.1)
    match ← allocateSharedBanks (edgeCount routes forward) (edgeCount routes reverse)
      banks.bankCount banks.wiresPerBank constraints.tdmMinRatio constraints.tdmRatioQuantum
      (some constraints.frameSlots) with
    | none => throw (.tdmScheduleInfeasible
        "shared bank allocation is infeasible for link %r" [link.id])
    | some split => return result ++ bankEntries link banks split

def bankDirectionAllocations (routes : List Route) (platform : Platform)
    (constraints : RouteConstraints) : Result BankAllocations :=
  platform.links.foldlM (addBankAllocation routes constraints) []

/-- `best` keeps the first of the smallest candidates. -/
theorem foldl_betterSplit_isSome :
    ∀ {candidates : List (BankObjective × BankSplit)} {best : Option (BankObjective × BankSplit)},
      (candidates.foldl betterSplit best).isSome ↔ best.isSome ∨ candidates ≠ []
  | [], best => by simp
  | c :: candidates, best => by
    rw [foldl_cons, foldl_betterSplit_isSome]
    have hs : (betterSplit best c).isSome := by
      unfold betterSplit
      cases best with
      | none => rfl
      | some b =>
        dsimp only
        split <;> rfl
    simp [hs]

section Split

variable {wiresPerBank minRatio ratioQuantum limit : Nat}

theorem bankRatio_isSome (hw : 0 < wiresPerBank) (hm : 0 < minRatio) (hq : 0 < ratioQuantum)
    (hlg : minRatio = 1 ∨ ratioQuantum ∣ minRatio) (hle : minRatio ≤ limit)
    {signals banks : Nat} :
    (bankRatio wiresPerBank minRatio ratioQuantum (some limit) signals banks).isSome ↔
      ceilDiv signals (wiresPerBank * largest ratioQuantum limit) ≤ banks := by
  have hl : 0 < limit := hm.trans_le hle
  have hp : 0 < wiresPerBank * largest ratioQuantum limit := Nat.mul_pos hw (largest_pos hq)
  rw [ceilDiv_le_iff hp]
  unfold bankRatio
  by_cases hs : signals = 0
  · simp [hs]
  · by_cases hb : banks = 0
    · simp [hs, hb]
    · have hln : 0 < banks * wiresPerBank := Nat.mul_pos (Nat.pos_of_ne_zero hb) hw
      have hf : roundUp ratioQuantum (max minRatio (ceilDiv signals (banks * wiresPerBank))) ≤
          limit ↔ signals ≤ banks * (wiresPerBank * largest ratioQuantum limit) := by
        rw [roundUp_le_iff hq (lt_max_of_lt_left hm) hl, max_le_iff,
          and_iff_right (le_largest hq hm hlg hle), ceilDiv_le_iff hln]
        rw [Nat.mul_comm (largest ratioQuantum limit), Nat.mul_assoc]
      simp only [hs, hb, if_false, Option.mem_def, Option.some.injEq, forall_eq', hf]
      split <;> simp_all

theorem bankCandidate_isSome {forwardSignals reverseSignals bankCount forward : Nat}
    {maxRatio : Option Nat} :
    (bankCandidate forwardSignals reverseSignals bankCount wiresPerBank minRatio ratioQuantum
      maxRatio forward).isSome ↔
      (bankRatio wiresPerBank minRatio ratioQuantum maxRatio forwardSignals forward).isSome ∧
      (bankRatio wiresPerBank minRatio ratioQuantum maxRatio reverseSignals
        (bankCount - forward)).isSome := by
  unfold bankCandidate
  cases bankRatio wiresPerBank minRatio ratioQuantum maxRatio forwardSignals forward with
  | none => simp
  | some f =>
    cases hr : bankRatio wiresPerBank minRatio ratioQuantum maxRatio reverseSignals
      (bankCount - forward) with
    | none => simp [hr]
    | some r => simp [hr]

theorem allocateSharedBanks_isSome (forwardSignals reverseSignals : Nat) {bankCount : Nat}
    (hb : 0 < bankCount) (hw : 0 < wiresPerBank) (hm : 0 < minRatio) (hq : 0 < ratioQuantum)
    (hl : minRatio = 1 ∨ ratioQuantum ∣ minRatio) (hle : minRatio ≤ limit) :
    ∃ split, allocateSharedBanks forwardSignals reverseSignals bankCount wiresPerBank minRatio
        ratioQuantum (some limit) = .ok split ∧
      (split.isSome ↔ ceilDiv forwardSignals (wiresPerBank * largest ratioQuantum limit) +
        ceilDiv reverseSignals (wiresPerBank * largest ratioQuantum limit) ≤ bankCount) := by
  refine ⟨(((List.range (bankCount + 1)).filterMap (bankCandidate forwardSignals reverseSignals
    bankCount wiresPerBank minRatio ratioQuantum (some limit))).foldl betterSplit none).map
      Prod.snd, ?_, ?_⟩
  · unfold allocateSharedBanks
    simp only [raiseIf_bind]
    exact ⟨by omega, by omega, by omega, by omega, by simpa using hle, rfl⟩
  · rw [Option.isSome_map, foldl_betterSplit_isSome]
    simp only [Option.isSome_none, Bool.false_eq_true, false_or, ne_eq,
      filterMap_eq_nil_iff, mem_range, ← Option.not_isSome_iff_eq_none,
      bankCandidate_isSome, bankRatio_isSome hw hm hq hl hle, not_forall, not_not]
    constructor
    · rintro ⟨forward, hf, h1, h2⟩
      omega
    · intro h
      exact ⟨ceilDiv forwardSignals (wiresPerBank * largest ratioQuantum limit),
        by omega, le_rfl, by omega⟩

end Split

/-! ## what an allocation is -/

structure BankSplit.Fits (split : BankSplit) (banks : SharedBanks) : Prop where
  banks_eq : split.forwardBanks + split.reverseBanks = banks.bankCount
  forwardLanes_eq : split.forwardLanes = split.forwardBanks * banks.wiresPerBank
  reverseLanes_eq : split.reverseLanes = split.reverseBanks * banks.wiresPerBank

theorem foldl_betterSplit_mem :
    ∀ {candidates : List (BankObjective × BankSplit)} {best : Option (BankObjective × BankSplit)}
      {c : BankObjective × BankSplit}, candidates.foldl betterSplit best = some c →
      best = some c ∨ c ∈ candidates
  | [], best, c, h => Or.inl h
  | d :: candidates, best, c, h => by
    rw [foldl_cons] at h
    rcases foldl_betterSplit_mem h with hb | hm
    · have hd : betterSplit best d = best ∨ betterSplit best d = some d := by
        unfold betterSplit
        cases best with
        | none => exact Or.inr rfl
        | some b =>
          dsimp only
          split
          · exact Or.inr rfl
          · exact Or.inl rfl
      rcases hd with hd | hd
      · exact Or.inl (hd.symm.trans hb)
      · rw [hd] at hb
        exact Or.inr (Option.some.inj hb ▸ mem_cons_self)
    · exact Or.inr (mem_cons_of_mem d hm)

theorem allocateSharedBanks_fits {forwardSignals reverseSignals minRatio ratioQuantum : Nat}
    {banks : SharedBanks} {maxRatio : Option Nat} {split : BankSplit}
    (h : allocateSharedBanks forwardSignals reverseSignals banks.bankCount banks.wiresPerBank
      minRatio ratioQuantum maxRatio = .ok (some split)) : split.Fits banks := by
  unfold allocateSharedBanks at h
  simp only [raiseIf_bind] at h
  obtain ⟨-, -, -, -, -, h⟩ := h
  obtain ⟨c, hc, rfl⟩ := Option.map_eq_some_iff.mp (Except.ok.inj h)
  rcases foldl_betterSplit_mem hc with hn | hm
  · cases hn
  · obtain ⟨forward, hf, hcn⟩ := mem_filterMap.mp hm
    rw [mem_range] at hf
    obtain ⟨f, -, hcn⟩ := Option.bind_eq_some_iff.mp hcn
    obtain ⟨r, -, hcn⟩ := Option.bind_eq_some_iff.mp hcn
    cases hcn
    exact ⟨by dsimp only; omega, rfl, rfl⟩

structure AllocatedLink where
  link : BoardLink
  banks : SharedBanks
  split : BankSplit
  banks_eq : link.banks = some banks
  fits : split.Fits banks

theorem addBankAllocation_eq_ok {routes : List Route} {constraints : RouteConstraints}
    {result result' : BankAllocations} {link : BoardLink}
    (h : addBankAllocation routes constraints result link = .ok result') :
    result' = result ∨ ∃ a : AllocatedLink, a.link = link ∧
      result' = result ++ bankEntries a.link a.banks a.split := by
  unfold addBankAllocation at h
  split at h
  · exact Or.inl (Except.ok.inj h).symm
  · next banks hb =>
    obtain ⟨split, hs, h⟩ := bind_eq_ok.mp h
    cases split with
    | none => cases h
    | some split =>
      exact Or.inr ⟨⟨link, banks, split, hb, allocateSharedBanks_fits hs⟩, rfl,
        (Except.ok.inj h).symm⟩

theorem bankDirectionAllocations_eq_ok {routes : List Route} {platform : Platform}
    {constraints : RouteConstraints} {allocations : BankAllocations}
    (h : bankDirectionAllocations routes platform constraints = .ok allocations) :
    ∃ allocated : List AllocatedLink,
      allocations = allocated.flatMap (fun a => bankEntries a.link a.banks a.split) ∧
        (allocated.map AllocatedLink.link).Sublist platform.links := by
  have hal : ∀ (links : List BoardLink) (r result' : BankAllocations),
      links.foldlM (addBankAllocation routes constraints) r = .ok result' →
      ∃ allocated : List AllocatedLink,
        result' = r ++ allocated.flatMap (fun a => bankEntries a.link a.banks a.split) ∧
          (allocated.map AllocatedLink.link).Sublist links := by
    intro links
    induction links with
    | nil =>
      intro r result' h
      exact ⟨[], by simpa using (Except.ok.inj h).symm, Sublist.refl _⟩
    | cons link links ih =>
      intro r result' h
      rw [foldlM_cons] at h
      obtain ⟨mid, hm, h⟩ := bind_eq_ok.mp h
      obtain ⟨allocated, rfl, hs⟩ := ih mid result' h
      rcases addBankAllocation_eq_ok hm with rfl | ⟨a, rfl, rfl⟩
      · exact ⟨allocated, rfl, hs.cons link⟩
      · exact ⟨a :: allocated, by simp, hs.cons_cons a.link⟩
  obtain ⟨allocated, hr, hs⟩ := hal platform.links [] allocations h
  exact ⟨allocated, by simpa using hr, hs⟩

section Budgets

variable {routes : List Route} {platform : Platform} {constraints : RouteConstraints}
  {allocations : BankAllocations}
  (h : bankDirectionAllocations routes platform constraints = .ok allocations)
include h

theorem exists_allocatedLink : ∃ allocated : List AllocatedLink,
      (∀ a ∈ allocated, ∀ b ∈ allocated, a.link.id = b.link.id → a = b) ∧
        (∀ a ∈ allocated, a.link ∈ platform.links) ∧
        ∀ arc budget, allocations.lookup arc = some budget →
          ∃ a ∈ allocated, (arc, budget) ∈ bankEntries a.link a.banks a.split := by
  obtain ⟨allocated, rfl, hs⟩ := bankDirectionAllocations_eq_ok h
  have hi : ((allocated.map AllocatedLink.link).map BoardLink.id).Nodup :=
    platform.link_ids_nodup.sublist (hs.map BoardLink.id)
  refine ⟨allocated, fun a ha b hb hab => ?_, fun a ha => hs.subset (mem_map_of_mem ha),
    fun arc budget hl => ?_⟩
  · rw [map_map] at hi
    exact inj_on_of_nodup_map hi ha hb hab
  · obtain ⟨pre, post, heq, -⟩ := lookup_eq_some_iff.mp hl
    obtain ⟨a, ha, hm⟩ := mem_flatMap.mp (heq ▸ mem_append_right pre mem_cons_self :
        (arc, budget) ∈ allocated.flatMap fun a => bankEntries a.link a.banks a.split)
    exact ⟨a, ha, hm⟩

/-- **A bank never serves both directions**: wires of one bank have one arc. -/
theorem bank_direction_unique {arc arc' : ArcKey} {budget budget' : BankBudget} {lane lane' : Int}
    (hlk : allocations.lookup arc = some budget)
    (hlk' : allocations.lookup arc' = some budget') (hli : arc.1 = arc'.1)
    (hl : (budget.laneOffset : Int) ≤ lane ∧ lane < budget.laneOffset + budget.lanes)
    (hl' : (budget'.laneOffset : Int) ≤ lane' ∧ lane' < budget'.laneOffset + budget'.lanes)
    (hbn : lane / budget.wiresPerBank = lane' / budget'.wiresPerBank) : arc = arc' := by
  obtain ⟨allocated, hu, -, hex⟩ := exists_allocatedLink h
  obtain ⟨a, ha, he⟩ := hex arc budget hlk
  obtain ⟨b, hb, he'⟩ := hex arc' budget' hlk'
  simp only [bankEntries, mem_cons, Prod.mk.injEq, not_mem_nil, or_false]
    at he he'
  have hid : a.link.id = b.link.id := by
    rcases he with ⟨rfl, -⟩ | ⟨rfl, -⟩ <;> rcases he' with ⟨rfl, -⟩ | ⟨rfl, -⟩ <;>
      exact hli
  obtain rfl := hu a ha b hb hid
  have hw : (0 : Int) < a.banks.wiresPerBank := by exact_mod_cast a.banks.wiresPerBank_pos
  have hf := a.fits
  -- the forward banks are numbered below the reverse banks
  have hfr : ∀ x : Int, x < a.split.forwardLanes →
      x / a.banks.wiresPerBank < a.split.forwardBanks := by
    intro x hx
    rw [Int.ediv_lt_iff_lt_mul hw]
    rw [hf.forwardLanes_eq] at hx
    exact_mod_cast hx
  have hr : ∀ x : Int, (a.split.forwardLanes : Int) ≤ x →
      (a.split.forwardBanks : Int) ≤ x / a.banks.wiresPerBank := by
    intro x hx
    rw [Int.le_ediv_iff_mul_le hw]
    rw [hf.forwardLanes_eq] at hx
    exact_mod_cast hx
  rcases he with ⟨rfl, rfl⟩ | ⟨rfl, rfl⟩ <;> rcases he' with ⟨rfl, rfl⟩ | ⟨rfl, rfl⟩
  · rfl
  · have h1 := hfr lane (by simpa using hl.2)
    have h2 := hr lane' hl'.1
    dsimp only at hbn
    omega
  · have h1 := hfr lane' (by simpa using hl'.2)
    have h2 := hr lane hl.1
    dsimp only at hbn
    omega
  · rfl

end Budgets

/-! ## when Phase 5 can allocate -/

def BanksSuffice (routes : List Route) (constraints : RouteConstraints) (link : BoardLink) : Prop :=
  ∀ banks ∈ link.banks, ceilDiv (edgeCount routes (link.id, link.endpoints.1, link.endpoints.2))
        (banks.wiresPerBank * largest constraints.tdmRatioQuantum constraints.frameSlots) +
      ceilDiv (edgeCount routes (link.id, link.endpoints.2, link.endpoints.1))
        (banks.wiresPerBank * largest constraints.tdmRatioQuantum constraints.frameSlots) ≤
      banks.bankCount

section Allocation

variable {routes : List Route} {platform : Platform} {constraints : RouteConstraints}

theorem addBankAllocation_isOk_iff (hc : constraints.WellFormed platform) {link : BoardLink}
    {result : BankAllocations} :
    (∃ result', addBankAllocation routes constraints result link = .ok result') ↔
      BanksSuffice routes constraints link := by
  unfold addBankAllocation BanksSuffice
  cases link.banks with
  | none => simp
  | some banks =>
    obtain ⟨split, hs, hi⟩ := allocateSharedBanks_isSome
      (edgeCount routes (link.id, (sortedEndpoints link).1, (sortedEndpoints link).2))
      (edgeCount routes (link.id, (sortedEndpoints link).2, (sortedEndpoints link).1))
      banks.bankCount_pos
      banks.wiresPerBank_pos hc.minRatio_pos hc.quantum_pos hc.minRatio_legal hc.minRatio_le
    simp only [exists_bind_eq_ok, hs, Option.mem_def, Option.some.injEq, forall_eq',
      Except.ok.injEq, exists_eq_left']
    -- the endpoints are sorted, so forward is either of the two directions
    have hsy : edgeCount routes (link.id, (sortedEndpoints link).1, (sortedEndpoints link).2) =
          edgeCount routes (link.id, link.endpoints.1, link.endpoints.2) ∧
        edgeCount routes (link.id, (sortedEndpoints link).2, (sortedEndpoints link).1) =
          edgeCount routes (link.id, link.endpoints.2, link.endpoints.1) ∨
      edgeCount routes (link.id, (sortedEndpoints link).1, (sortedEndpoints link).2) =
          edgeCount routes (link.id, link.endpoints.2, link.endpoints.1) ∧
        edgeCount routes (link.id, (sortedEndpoints link).2, (sortedEndpoints link).1) =
          edgeCount routes (link.id, link.endpoints.1, link.endpoints.2) := by
      unfold sortedEndpoints
      split
      · exact Or.inl ⟨rfl, rfl⟩
      · exact Or.inr ⟨rfl, rfl⟩
    have hsm : (∃ result', (match split with
        | none => throw (.tdmScheduleInfeasible
            "shared bank allocation is infeasible for link %r" [link.id])
        | some split => return result ++ bankEntries link banks split : Result BankAllocations) =
          .ok result') ↔ split.isSome := by
      cases split with
      | none => simp [throw, throwThe, MonadExceptOf.throw]
      | some split => simp [pure, Except.pure]
    rw [hsm, hi]
    rcases hsy with ⟨h1, h2⟩ | ⟨h1, h2⟩
    · rw [h1, h2]
    · rw [h1, h2, Nat.add_comm]

theorem bankDirectionAllocations_isOk (hc : constraints.WellFormed platform) :
    (∃ allocations, bankDirectionAllocations routes platform constraints = .ok allocations) ↔
      ∀ link ∈ platform.links, BanksSuffice routes constraints link :=
  foldlM_isOk_iff fun _ _ _ => addBankAllocation_isOk_iff hc

end Allocation

section Accepted

variable {platform : Platform} {artifact : RoutesArtifact} {constraints : RouteConstraints}
  {graph : DirectedGraph} {totals : RouteTotals}
  (ha : Accepted platform artifact constraints graph totals)
include ha

theorem edgeCount_le_usage {link : BoardLink} {banks : SharedBanks} (hl : link ∈ platform.links)
    (hb : link.banks = some banks) (source sink : String) :
    edgeCount artifact.routes (link.id, source, sink) ≤
      totals.usage (link.id ++ ":" ++ source ++ "->" ++ sink) := by
  rw [ha.usage_eq, edgeCount]
  refine countP_mono_left fun edge he hk => ?_
  rw [decide_eq_true_eq] at hk ⊢
  obtain ⟨route, hr, hed⟩ := mem_flatMap.mp he
  obtain ⟨arc, har⟩ := (ha.route route hr).arcs edge hed
  obtain ⟨reserve, hbl⟩ := ha.built
  rw [hk] at har ⊢
  obtain ⟨l, hlm, hid, -, -, rfl⟩ := exists_link_of_findArc hbl har
  obtain rfl := inj_on_of_nodup_map platform.link_ids_nodup hlm hl hid
  simp [DirectedGraph.capacityKeyOf, har, arcOf, capacityKey, sharesCapacity, hb]

theorem edgeCount_unavailable {link : BoardLink} (hl : link ∈ platform.links)
    (hu : link.id ∈ constraints.unavailableLinks) (source sink : String) :
    edgeCount artifact.routes (link.id, source, sink) = 0 := by
  rw [edgeCount, countP_eq_zero]
  intro edge he hk
  rw [decide_eq_true_eq] at hk
  obtain ⟨route, hr, hed⟩ := mem_flatMap.mp he
  obtain ⟨arc, har⟩ := (ha.route route hr).arcs edge hed
  obtain ⟨reserve, hb⟩ := ha.built
  rw [hk] at har
  obtain ⟨l, hlm, hid, hav, -⟩ := exists_link_of_findArc hb har
  obtain rfl := inj_on_of_nodup_map platform.link_ids_nodup hlm hl hid
  exact hav hu

theorem banksSuffice_of_dvd (hd : constraints.tdmRatioQuantum ∣ constraints.frameSlots)
    {link : BoardLink} (hl : link ∈ platform.links) :
    BanksSuffice artifact.routes constraints link := by
  intro banks hb
  have hc := normalizeRouteConstraints_wellFormed ha.normalized
  rw [largest_of_dvd hc.frameSlots_pos hd]
  have hp : 0 < banks.wiresPerBank * constraints.frameSlots :=
    Nat.mul_pos banks.wiresPerBank_pos hc.frameSlots_pos
  by_cases hu : link.id ∈ constraints.unavailableLinks
  · simp [edgeCount_unavailable ha hl hu, ceilDiv_zero hp]
  · have hch := ha.banks link hl
    rw [checkBanks, hb] at hch
    simp only [hu, if_false, raiseIf_eq_ok, not_lt] at hch
    calc _ ≤ banksNeeded banks constraints.frameSlots link totals.usage :=
          Nat.add_le_add (ceilDiv_mono hp (edgeCount_le_usage ha hl hb _ _))
            (ceilDiv_mono hp (edgeCount_le_usage ha hl hb _ _))
      _ ≤ banks.bankCount := hch

end Accepted

/-- **Phase 5 allocates the banks of an accepted artifact exactly when they suffice at the largest
discrete ratio, and always when the ratio quantum divides the frame.** -/
theorem bankDirectionAllocations_isOk_iff {assignment : Assignment} {platform : Platform}
    {artifact : RoutesArtifact} {summary : RoutesSummary}
    (h : validateSystemRoutes assignment platform artifact = .ok summary) :
    ∃ constraints, normalizeRouteConstraints artifact.constraints platform = .ok constraints ∧
      ((∃ allocations,
          bankDirectionAllocations artifact.routes platform constraints = .ok allocations) ↔
        ∀ link ∈ platform.links, BanksSuffice artifact.routes constraints link) ∧
      (constraints.tdmRatioQuantum ∣ constraints.frameSlots → ∃ allocations,
          bankDirectionAllocations artifact.routes platform constraints = .ok allocations) := by
  obtain ⟨constraints, graph, totals, ha⟩ := validateSystemRoutes_eq_ok h
  have hiff : (∃ allocations,
      bankDirectionAllocations artifact.routes platform constraints = .ok allocations) ↔
        ∀ link ∈ platform.links, BanksSuffice artifact.routes constraints link :=
    bankDirectionAllocations_isOk (normalizeRouteConstraints_wellFormed ha.normalized)
  exact ⟨constraints, ha.normalized, hiff, fun hdvd =>
    hiff.mpr fun link hl => banksSuffice_of_dvd ha hdvd hl⟩

def oneWireBoard : Platform :=
  { name := "one-wire"
    fpgas := [⟨"f0"⟩, ⟨"f1"⟩]
    links := [{ id := "bank", endpoints := ("f0", "f1"), direction := .full_duplex
                mode := .parallel, dataLanesPerDirection := 1, fabricClockMhz := 100
                latencyCycles := 1, capacitySharing := .shared_bidirectional
                banks := some ⟨1, 1, Nat.one_pos, Nat.one_pos⟩
                endpoints_ne := by decide, lanes_pos := Nat.one_pos
                clock_pos := hundredMhz_pos, payload_pos := Nat.one_pos
                payload_serial := parallel_payload, shared_full_duplex := by decide
                banks_shared := by decide }]
    fpgas_ne_nil := by decide
    fpga_ids_nodup := by decide
    link_ids_nodup := by decide
    endpoints_known := by decide }

def threeNets : Assignment :=
  { platform := "one-wire"
    cutNets := ["n0", "n1", "n2"].map fun net =>
      { net := net, sourceFpgas := ["f0"], sinkFpgas := ["f1"] } }

/-- Their routes in a frame of `frameSlots` slots at a quantum of two. -/
def threeNetRoutes (frameSlots : Nat) : RoutesArtifact :=
  { constraints := some
      { schema := some SYSTEM_ROUTE_CONSTRAINTS_SCHEMA, frameSlots := some frameSlots
        tdmRatioQuantum := some 2 }
    demands := [("d000000", "n0"), ("d000001", "n1"), ("d000002", "n2")].map fun d =>
      { id := d.1, net := d.2, source := "f0", sinks := ["f1"], widthBits := 1 }
    routes := [("d000000", "n0"), ("d000001", "n1"), ("d000002", "n2")].map fun d =>
      { id := d.1, net := d.2, source := "f0", sinks := ["f1"], widthBits := 1
        treeEdges := [⟨"bank", "f0", "f1"⟩], maxLatencyCycles := 1 }
    linkUtilization := [("f0", "f1", 3), ("f1", "f0", 0)].map fun u =>
      { capacity :=
          { key := "bank:" ++ u.1 ++ "->" ++ u.2.1, link := "bank"
            direction := u.1 ++ "->" ++ u.2.1, capacityBits := frameSlots
            bank := some
              { bankGroup := "bank", bankCount := 1, wiresPerBank := 1
                oppositeCapacityKey := "bank:" ++ u.2.1 ++ "->" ++ u.1 } }
        usedBits := u.2.2
        utilization := u.2.2 / frameSlots }
    metrics := { demands := 3, routedSinks := 3, treeEdges := 3
                 maxLinkUtilization := 3 / frameSlots, totalLinkBitHops := 3 } }

/-- Phase 4 counts three slots of the wire, Phase 5 needs the ratio four. -/
theorem threeNetRoutes_not_allocatable :
    (∃ summary, validateSystemRoutes threeNets oneWireBoard (threeNetRoutes 3) = .ok summary) ∧
      ∃ constraints,
        normalizeRouteConstraints (threeNetRoutes 3).constraints oneWireBoard = .ok constraints ∧
        bankDirectionAllocations (threeNetRoutes 3).routes oneWireBoard constraints =
          .error (.tdmScheduleInfeasible "shared bank allocation is infeasible for link %r"
            ["bank"]) :=
  ⟨exists_of_isOk (by decide +kernel), exists_of_bind_eq_error (by decide +kernel)
    (by decide +kernel)⟩

/-- In a frame of four slots both phases accept the three nets. -/
theorem threeNetRoutes_allocatable : ∃ constraints,
      normalizeRouteConstraints (threeNetRoutes 4).constraints oneWireBoard = .ok constraints ∧
      ∃ allocations, bankDirectionAllocations (threeNetRoutes 4).routes oneWireBoard constraints =
        .ok allocations := by
  obtain ⟨summary, h⟩ : ∃ summary,
      validateSystemRoutes threeNets oneWireBoard (threeNetRoutes 4) = .ok summary :=
    exists_of_isOk (by decide +kernel)
  obtain ⟨constraints, hnorm, hiff, -⟩ := bankDirectionAllocations_isOk_iff h
  refine ⟨constraints, hnorm, hiff.mpr ?_⟩
  have hall : ∀ c ∈ (normalizeRouteConstraints (threeNetRoutes 4).constraints
      oneWireBoard).toOption, c.tdmRatioQuantum = 2 ∧ c.frameSlots = 4 := by
    decide +kernel
  obtain ⟨hq, hf⟩ := hall constraints (by rw [hnorm]; rfl)
  intro link hl banks hb
  obtain rfl := mem_singleton.mp hl
  cases hb
  rw [hq, hf]
  decide +kernel

end EmuFlow.Tdm
