import EmuFlow.Tdm.Validate

/-!
# The entries of a schedule

What the loop of the validator over the entries accepts, as one condition on each entry and two on
their list: no two entries are the same hop, and no two have one wire in one slot.
-/

namespace EmuFlow.Tdm

open Check SortedSet Routing TdmRatio List TdmEntry Option

def TdmEntry.ratio (entry : TdmEntry) : Int := entry.tdmRatio.getD 1

def TdmEntry.wireSlot (entry : TdmEntry) : String × Int × Int :=
  (entry.capacityKey, entry.slot, entry.lane)

structure LinkLocal (ctx : EntryContext) (link : BoardLink) (entry : TdmEntry) : Prop where
  slot_nonneg : 0 ≤ entry.slot
  slot_lt : entry.slot < ctx.constraints.frameSlots
  lane_nonneg : 0 ≤ entry.lane
  lane_lt : entry.lane < link.transportBitsPerCyclePerDirection
  bank : ∀ budget ∈ ctx.allocations.lookup entry.arcKey, (budget.laneOffset : Int) ≤ entry.lane ∧
    entry.lane < budget.laneOffset + budget.lanes
  ratio : link.tdmDelayModel ≠ none → ∃ ratio ∈ entry.tdmRatio,
    (ctx.constraints.tdmMinRatio : Int) ≤ ratio ∧ ratio ≤ ctx.constraints.frameSlots ∧
      (ratio = 1 ∨ ratio % ctx.constraints.tdmRatioQuantum = 0)
  plan : ∀ plan ∈ ctx.plan, ∃ planned, plan.findHop entry.key = some planned ∧
    entry.ratioPlanHop = some planned.index ∧
    entry.continuousRatio = some planned.continuousRatio ∧
    entry.tdmRatio = some planned.discreteRatio ∧
    entry.ratioWaitSlots = some (entry.slot - entry.readySlot) ∧
    entry.lane = planned.lane ∧ entry.slot - entry.readySlot < planned.discreteRatio
  baseline : ∀ hop ∈ findBaseline ctx.baseline entry.key, entry.lane = hop.lane ∧
    entry.tdmRatio = some hop.discreteRatio ∧ entry.slot - entry.readySlot < hop.discreteRatio
  arrival : entry.arrivalSlot = entry.slot + linkLatency link entry.ratio
  deadline : entry.arrivalSlot < (ctx.constraints.frameSlots : Int) - RUNTIME_BARRIER_SLOTS

structure EntryLocal (ctx : EntryContext) (entry : TdmEntry) : Prop where
  expected : ∃ hop, findExpected ctx.expected entry.key = some hop ∧
    entry.net = hop.route.net ∧ entry.hop = hop.depth
  arc : ∃ arc, ctx.graph.findArc entry.arcKey = some arc ∧ entry.capacityKey = arc.capacityKey
  link : ∃ link, ctx.platform.findLink entry.link = some link ∧ LinkLocal ctx link entry

def tablesOf (ctx : EntryContext) (entries : List TdmEntry) : EntryTables :=
  { entries := entries
    occupancy := entries.map TdmEntry.wireSlot
    bankDirections := entries.filterMap fun entry =>
      (ctx.allocations.lookup entry.arcKey).map fun budget => entryBank budget entry }

section Local

variable {ctx : EntryContext} {tables : EntryTables} {link : BoardLink} {index : Nat}
  {entry : TdmEntry}

theorem checkEntryHop_eq_ok : checkEntryHop ctx tables index entry = .ok () ↔
      (∃ hop, findExpected ctx.expected entry.key = some hop ∧ entry.net = hop.route.net ∧
        entry.hop = hop.depth) ∧ entry.key ∉ tables.entries.map TdmEntry.key := by
  unfold checkEntryHop
  cases findExpected ctx.expected entry.key with
  | none => simp
  | some hop =>
    simp only [raiseIf_bind, raiseIf_eq_ok, not_or, not_not, some.injEq,
      exists_eq_left']
    exact and_comm

theorem checkEntryRange_eq_ok : checkEntryRange ctx link index entry = .ok () ↔
      (0 ≤ entry.slot ∧ entry.slot < ctx.constraints.frameSlots) ∧
        0 ≤ entry.lane ∧ entry.lane < link.transportBitsPerCyclePerDirection := by
  unfold checkEntryRange
  simp only [raiseIf_bind, raiseIf_eq_ok, not_or, not_lt, not_le]

theorem checkEntryRatio_eq_ok : checkEntryRatio ctx link entry = .ok () ↔
      (link.tdmDelayModel ≠ none → ∃ ratio ∈ entry.tdmRatio,
        (ctx.constraints.tdmMinRatio : Int) ≤ ratio ∧ ratio ≤ ctx.constraints.frameSlots ∧
          (ratio = 1 ∨ ratio % ctx.constraints.tdmRatioQuantum = 0)) := by
  unfold checkEntryRatio
  by_cases hm : link.tdmDelayModel = none
  · simp [hm]
  · rw [if_neg hm, forall_prop_of_true hm]
    cases entry.tdmRatio with
    | none => simp
    | some ratio =>
      simp only [raiseIf_eq_ok, not_or, not_lt, not_and, not_not, ne_eq, mem_def,
        some.injEq, exists_eq_left']
      refine and_congr_right fun _ => and_congr_right fun _ => ?_
      exact or_iff_not_imp_left.symm

theorem checkEntryPlan_eq_ok : checkEntryPlan ctx index entry = .ok () ↔
      ∀ plan ∈ ctx.plan, ∃ planned, plan.findHop entry.key = some planned ∧
        entry.ratioPlanHop = some planned.index ∧
        entry.continuousRatio = some planned.continuousRatio ∧
        entry.tdmRatio = some planned.discreteRatio ∧
        entry.ratioWaitSlots = some (entry.slot - entry.readySlot) ∧
        entry.lane = planned.lane ∧ entry.slot - entry.readySlot < planned.discreteRatio := by
  unfold checkEntryPlan
  cases ctx.plan with
  | none => simp
  | some plan =>
    simp only [bind_eq_ok, lookupOrRaise_eq_ok, raiseIf_eq_ok, ne_eq, not_not, not_le,
      mem_def, some.injEq, forall_eq']
    constructor
    · rintro ⟨planned, hp, ⟨⟩, h1, ⟨⟩, h2, ⟨⟩, h3, ⟨⟩, h4, ⟨⟩, h5, h6⟩
      exact ⟨planned, hp, h1, h2, h3, h4, h5, h6⟩
    · rintro ⟨planned, hp, h1, h2, h3, h4, h5, h6⟩
      exact ⟨planned, hp, ⟨⟩, h1, ⟨⟩, h2, ⟨⟩, h3, ⟨⟩, h4, ⟨⟩, h5, h6⟩

theorem checkEntryBaseline_eq_ok : checkEntryBaseline ctx entry = .ok () ↔
      ∀ hop ∈ findBaseline ctx.baseline entry.key, entry.lane = hop.lane ∧
        entry.tdmRatio = some hop.discreteRatio ∧
        entry.slot - entry.readySlot < hop.discreteRatio := by
  unfold checkEntryBaseline
  cases findBaseline ctx.baseline entry.key with
  | none => simp
  | some hop =>
    simp only [raiseIf_bind, raiseIf_eq_ok, not_or, not_not, not_le, ne_eq, mem_def,
      some.injEq, forall_eq', and_assoc]

theorem checkEntryArrival_eq_ok (hl : ctx.platform.findLink entry.link = some link)
    (hr : link.tdmDelayModel ≠ none → 1 ≤ entry.ratio) :
    checkEntryArrival ctx link index entry = .ok () ↔
      entry.arrivalSlot = entry.slot + linkLatency link entry.ratio ∧
        entry.arrivalSlot < (ctx.constraints.frameSlots : Int) - RUNTIME_BARRIER_SLOTS := by
  unfold checkEntryArrival
  rw [bind_eq_ok]
  simp only [raiseIf_bind, raiseIf_eq_ok, not_not, not_le]
  have hlt : ∀ latency, hopLatency ctx.platform ctx.constraints link entry.arcKey
      (entry.tdmRatio.getD 1) = .ok latency ↔ latency = linkLatency link entry.ratio := by
    intro latency
    have hf : ctx.platform.findLink entry.arcKey.1 = some link := hl
    rw [hopLatency_eq_ok hf]
    exact and_iff_right hr
  simp only [hlt, exists_eq_left]
  exact and_congr_right fun ha => by rw [ha]

end Local

section Loop

variable {ctx : EntryContext} (hc : ctx.constraints.WellFormed ctx.platform)
  {routes : List Route}
  (halloc : bankDirectionAllocations routes ctx.platform ctx.constraints = .ok ctx.allocations)
include hc

theorem LinkLocal.ratio_pos {link : BoardLink} {entry : TdmEntry} (h : LinkLocal ctx link entry)
    (hm : link.tdmDelayModel ≠ none) : 1 ≤ entry.ratio := by
  obtain ⟨ratio, hr, hmn, -⟩ := h.ratio hm
  have := hc.minRatio_pos
  rw [TdmEntry.ratio, mem_def.mp hr, getD_some]
  omega

omit hc
include halloc

theorem checkEntryBank_eq_ok {seen : List TdmEntry} {entry : TdmEntry}
    (hs : ∀ e ∈ seen, EntryLocal ctx e)
    {directions : List ((String × Int) × String × String)} :
    checkEntryBank ctx (tablesOf ctx seen) entry = .ok directions ↔
      (∀ budget ∈ ctx.allocations.lookup entry.arcKey, (budget.laneOffset : Int) ≤ entry.lane ∧
        entry.lane < budget.laneOffset + budget.lanes) ∧
        directions = (tablesOf ctx (seen ++ [entry])).bankDirections := by
  unfold checkEntryBank
  cases hb : ctx.allocations.lookup entry.arcKey with
  | none => simp [tablesOf, hb, eq_comm]
  | some budget =>
    simp only [raiseIf_bind, not_or, not_lt, not_le, not_not, mem_def,
      some.injEq, forall_eq']
    refine and_congr_right fun hr => ?_
    have hd : ((tablesOf ctx seen).bankDirections.lookup (entryBank budget entry).1).getD
        (entryBank budget entry).2 = (entryBank budget entry).2 := by
      cases hl : (tablesOf ctx seen).bankDirections.lookup (entryBank budget entry).1 with
      | none => rfl
      | some direction =>
        rw [getD_some]
        obtain ⟨pre, post, heq, -⟩ := lookup_eq_some_iff.mp hl
        have hm : ((entryBank budget entry).1, direction) ∈ (tablesOf ctx seen).bankDirections :=
          heq ▸ mem_append_right pre mem_cons_self
        obtain ⟨e, he, ho⟩ := mem_filterMap.mp hm
        obtain ⟨budget', hb', hbn⟩ := map_eq_some_iff.mp ho
        obtain ⟨link, -, hlc⟩ := (hs e he).link
        simp only [entryBank, Prod.mk.injEq] at hbn
        obtain ⟨⟨hln, hdv⟩, rfl⟩ := hbn
        have ha : e.arcKey = entry.arcKey :=
          bank_direction_unique halloc hb' hb hln (hlc.bank budget' hb') hr hdv
        simp only [arcKey, Prod.mk.injEq] at ha
        rw [entryBank, ha.2.1, ha.2.2]
    simp only [hd, true_and]
    simp only [tablesOf, filterMap_append, filterMap_cons, filterMap_nil, hb, map_some]
    exact ⟨fun h => (Except.ok.inj h).symm, fun h => by rw [h]; rfl⟩

include hc

theorem checkEntry_eq_ok {seen : List TdmEntry} {entry : TdmEntry} {index : Nat}
    {tables : EntryTables} (hsn : ∀ e ∈ seen, EntryLocal ctx e) :
    checkEntry ctx (tablesOf ctx seen) (entry, index) = .ok tables ↔
      EntryLocal ctx entry ∧ entry.key ∉ seen.map TdmEntry.key ∧
        entry.wireSlot ∉ seen.map TdmEntry.wireSlot ∧ tables = tablesOf ctx (seen ++ [entry]) := by
  unfold checkEntry
  simp only [bind_eq_ok, raiseIf_eq_ok, lookupOrRaise_eq_ok, not_not, ne_eq]
  constructor
  · rintro ⟨⟨⟩, hhp, arc, hac, ⟨⟩, hcp, link, hln, ⟨⟩, hrn, directions, hbn, ⟨⟩, hrt,
      ⟨⟩, hoc, ⟨⟩, hpl, ⟨⟩, hbs, ⟨⟩, har, hrs⟩
    rw [checkEntryHop_eq_ok] at hhp
    rw [checkEntryRange_eq_ok] at hrn
    rw [checkEntryBank_eq_ok halloc hsn] at hbn
    rw [checkEntryRatio_eq_ok] at hrt
    rw [checkEntryPlan_eq_ok] at hpl
    rw [checkEntryBaseline_eq_ok] at hbs
    have hps : link.tdmDelayModel ≠ none → 1 ≤ entry.ratio := by
      intro hm
      obtain ⟨ratio, hr, hmn, -⟩ := hrt hm
      have := hc.minRatio_pos
      rw [TdmEntry.ratio, mem_def.mp hr, getD_some]
      omega
    rw [checkEntryArrival_eq_ok hln hps] at har
    have hlc : LinkLocal ctx link entry :=
      { slot_nonneg := hrn.1.1, slot_lt := hrn.1.2, lane_nonneg := hrn.2.1
        lane_lt := hrn.2.2, bank := hbn.1, ratio := hrt, plan := hpl
        baseline := hbs, arrival := har.1, deadline := har.2 }
    refine ⟨⟨hhp.1, ⟨arc, hac, hcp⟩, link, hln, hlc⟩, hhp.2, ?_, ?_⟩
    · rw [TdmEntry.wireSlot, hcp]
      exact hoc
    · rw [← Except.ok.inj hrs, hbn.2]
      simp [tablesOf, TdmEntry.wireSlot, hcp]
  · rintro ⟨⟨hex, ⟨arc, hac, hcp⟩, link, hln, hlc⟩, hky, hoc, rfl⟩
    refine ⟨⟨⟩, checkEntryHop_eq_ok.mpr ⟨hex, hky⟩, arc, hac, ⟨⟩, hcp, link, hln, ⟨⟩,
      checkEntryRange_eq_ok.mpr
        ⟨⟨hlc.slot_nonneg, hlc.slot_lt⟩, hlc.lane_nonneg, hlc.lane_lt⟩,
      _, (checkEntryBank_eq_ok halloc hsn).mpr ⟨hlc.bank, rfl⟩, ⟨⟩,
      checkEntryRatio_eq_ok.mpr hlc.ratio, ⟨⟩, ?_, ⟨⟩, checkEntryPlan_eq_ok.mpr hlc.plan, ⟨⟩,
      checkEntryBaseline_eq_ok.mpr hlc.baseline, ⟨⟩,
      (checkEntryArrival_eq_ok hln (hlc.ratio_pos hc)).mpr
        ⟨hlc.arrival, hlc.deadline⟩, ?_⟩
    · rw [TdmEntry.wireSlot, hcp] at hoc
      exact hoc
    · simp [tablesOf, TdmEntry.wireSlot, hcp, pure, Except.pure]

theorem foldlM_checkEntry : ∀ {entries seen : List TdmEntry} {index : Nat} {tables : EntryTables},
      (∀ e ∈ seen, EntryLocal ctx e) → (seen.map TdmEntry.key).Nodup →
      (seen.map TdmEntry.wireSlot).Nodup →
      ((entries.zipIdx index).foldlM (checkEntry ctx) (tablesOf ctx seen) = .ok tables ↔
        (∀ e ∈ entries, EntryLocal ctx e) ∧ ((seen ++ entries).map TdmEntry.key).Nodup ∧
          ((seen ++ entries).map TdmEntry.wireSlot).Nodup ∧ tables = tablesOf ctx (seen ++ entries))
  | [], seen, index, tables, hs, hk, hw => by
    rw [zipIdx_nil, foldlM_nil, append_nil]
    constructor
    · intro h
      exact ⟨fun _ he => absurd he not_mem_nil, hk, hw, (Except.ok.inj h).symm⟩
    · rintro ⟨-, -, -, rfl⟩
      rfl
  | entry :: entries, seen, index, tables, hs, hk, hw => by
    rw [zipIdx_cons, foldlM_cons, bind_eq_ok, forall_mem_cons]
    have hap : seen ++ entry :: entries = seen ++ [entry] ++ entries := append_cons ..
    have hn : EntryLocal ctx entry → ∀ e ∈ seen ++ [entry], EntryLocal ctx e := by
      intro hl e he
      rcases List.mem_append.mp he with he | he
      · exact hs e he
      · exact mem_singleton.mp he ▸ hl
    constructor
    · rintro ⟨t, ht, hr⟩
      obtain ⟨hl, hky, hsl, rfl⟩ := (checkEntry_eq_ok hc halloc hs).mp ht
      obtain ⟨ha, hk', hw', rfl⟩ := (foldlM_checkEntry (hn hl)
        (Keyed.nodup_map_snoc.mpr ⟨hk, hky⟩) (Keyed.nodup_map_snoc.mpr ⟨hw, hsl⟩)).mp hr
      rw [hap]
      exact ⟨⟨hl, ha⟩, hk', hw', rfl⟩
    · rintro ⟨⟨hl, ha⟩, hk', hw', rfl⟩
      rw [hap] at hk' hw' ⊢
      have hk₁ : ((seen ++ [entry]).map key).Nodup := by
        rw [map_append] at hk'
        exact (nodup_append.mp hk').1
      have hw₁ : ((seen ++ [entry]).map wireSlot).Nodup := by
        rw [map_append] at hw'
        exact (nodup_append.mp hw').1
      exact ⟨tablesOf ctx (seen ++ [entry]), (checkEntry_eq_ok hc halloc hs).mpr
          ⟨hl, (Keyed.nodup_map_snoc.mp hk₁).2, (Keyed.nodup_map_snoc.mp hw₁).2, rfl⟩,
        (foldlM_checkEntry (hn hl) hk₁ hw₁).mpr ⟨ha, hk', hw', rfl⟩⟩

/-- What accepted entries have passed. -/
theorem checkEntries_eq_ok {entries : List TdmEntry} {tables : EntryTables} :
    checkEntries ctx entries = .ok tables ↔
      (∀ e ∈ entries, EntryLocal ctx e) ∧ (entries.map TdmEntry.key).Nodup ∧
        (entries.map TdmEntry.wireSlot).Nodup ∧
        SameSet (entries.map TdmEntry.key) (ctx.expected.map ExpectedHop.key) ∧
        tables = tablesOf ctx entries := by
  unfold checkEntries
  have hl : ∀ {t}, entries.zipIdx.foldlM (checkEntry ctx) EntryTables.start = .ok t ↔
      (∀ e ∈ entries, EntryLocal ctx e) ∧ (entries.map key).Nodup ∧
        (entries.map wireSlot).Nodup ∧ t = tablesOf ctx entries := fun {t} =>
by
    have hn : ∀ e ∈ ([] : List TdmEntry), EntryLocal ctx e := fun _ he =>
      absurd he not_mem_nil
    exact foldlM_checkEntry hc halloc hn nodup_nil nodup_nil
  rw [bind_eq_ok]
  simp only [hl, raiseIf_bind, not_not]
  constructor
  · rintro ⟨t, ⟨ha, hk, hw, rfl⟩, hcv, hr⟩
    exact ⟨ha, hk, hw, hcv, (Except.ok.inj hr).symm⟩
  · rintro ⟨ha, hk, hw, hcv, rfl⟩
    exact ⟨_, ⟨ha, hk, hw, rfl⟩, hcv, rfl⟩

end Loop

end EmuFlow.Tdm
