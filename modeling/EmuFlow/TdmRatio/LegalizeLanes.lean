import EmuFlow.TdmRatio.LegalizeComplete

/-!
# Lanes after the legalization, and the whole run

Once no domain needs more lanes than it has, the lanes are dealt out without an error. With the
steps before it this tells exactly which runs do not raise.
-/

namespace EmuFlow.TdmRatio

open Check SortedSet Routing Tdm DifferenceArray List

variable {barrier : Barrier} {counts : BucketCounts} {slot maxRatio quantum : Int}
  {s s' : LegalizeState}

/-! ## lanes of one domain -/

abbrev BucketLanes := (BucketKey × RoundCounts) × Int

def Holds (entry : BucketLanes) : Prop :=
  0 < entry.1.1.ratio ∧ (entry.1.2.total : Int) ≤ entry.2 * entry.1.1.ratio

def addLane (key : BucketKey) (entry : BucketLanes) : BucketLanes :=
  if entry.1.1 = key then (entry.1, entry.2 + 1) else entry

theorem addLane_fst (key : BucketKey) (entry : BucketLanes) : (addLane key entry).1 = entry.1 := by
  unfold addLane
  split <;> rfl

theorem Holds.addLane {entry : BucketLanes} (h : Holds entry) (key : BucketKey) :
    Holds (addLane key entry) := by
  unfold TdmRatio.addLane
  split
  · exact ⟨h.1, by have := h.2; have := h.1; dsimp only; linarith⟩
  · exact h

theorem sum_addLane (key : BucketKey) (laneCounts : List BucketLanes) :
    ((laneCounts.map (addLane key)).map Prod.snd).sum = (laneCounts.map Prod.snd).sum +
      (laneCounts.map fun entry => entry.1.1).count key := by
  induction laneCounts with
  | nil => simp
  | cons entry rest ih =>
    simp only [map_cons, sum_cons, ih, count_cons]
    by_cases h : entry.1.1 = key
    · simp only [addLane, beq_iff_eq, h]
      push_cast
      ring
    · simp only [addLane, beq_iff_eq, h]
      push_cast
      ring

theorem splitLanes_spec (remaining : Nat) (laneCounts : List BucketLanes)
    (hn : (laneCounts.map fun entry => entry.1.1).Nodup) (hh : ∀ entry ∈ laneCounts, Holds entry) :
    (∀ entry ∈ splitLanes remaining laneCounts, Holds entry) ∧
      (splitLanes remaining laneCounts).map Prod.fst = laneCounts.map Prod.fst ∧
      ((splitLanes remaining laneCounts).map Prod.snd).sum ≤
        (laneCounts.map Prod.snd).sum + remaining := by
  induction remaining generalizing laneCounts with
  | zero => exact ⟨hh, rfl, by simp [splitLanes]⟩
  | succ remaining ih =>
    rw [splitLanes]
    split
    · exact ⟨hh, rfl, by push_cast; omega⟩
    next selected _ =>
    have hf : (laneCounts.map (addLane selected.1.1)).map Prod.fst = laneCounts.map Prod.fst := by
      rw [map_map]
      exact map_congr_left fun entry _ => addLane_fst _ entry
    have hk : ((laneCounts.map (addLane selected.1.1)).map fun entry => entry.1.1) =
        laneCounts.map fun entry => entry.1.1 := by
      rw [map_map]
      exact map_congr_left fun entry _ => congrArg Prod.fst (addLane_fst _ entry)
    have hs := sum_addLane selected.1.1 laneCounts
    have hon := nodup_iff_count_le_one.mp hn selected.1.1
    obtain ⟨h1, h2, h3⟩ := ih (laneCounts.map (addLane selected.1.1)) (hk ▸ hn)
      fun entry he => by
        obtain ⟨old, ho, rfl⟩ := mem_map.mp he
        exact (hh old ho).addLane _
    refine ⟨h1, h2.trans hf, h3.trans ?_⟩
    rw [hs]
    push_cast
    omega

variable {hops : List PlanHop}

theorem exists_assignBuckets {laneCounts : List BucketLanes} (h : ∀ entry ∈ laneCounts,
      ((bucketHops hops entry.1.1).length : Int) ≤ max 0 entry.2 * entry.1.1.ratio)
    (state : Int × List (Nat × Int)) : ∃ lanes, laneCounts.foldlM (assignBucket hops) state =
      .ok (state.1 + (laneCounts.map Prod.snd).sum, lanes) := by
  induction laneCounts generalizing state with
  | nil => exact ⟨state.2, by simp [List.foldlM, pure, Except.pure]⟩
  | cons entry rest ih =>
    have hen := h entry mem_cons_self
    obtain ⟨next, hn, hf⟩ : ∃ next, assignBucket hops state entry = .ok next ∧
        next.1 = state.1 + entry.2 := by
      refine ⟨_, raiseIf_bind.mpr ⟨?_, rfl⟩, rfl⟩
      rw [length_sortedBy]
      omega
    obtain ⟨lanes, hl⟩ := ih (fun e he => h e (mem_cons_of_mem _ he)) next
    refine ⟨lanes, ?_⟩
    rw [foldlM_cons, hn]
    show rest.foldlM (assignBucket hops) next = _
    rw [hl, hf, map_cons, sum_cons, add_assoc]

theorem total_roundCounts (h : ∀ hop ∈ hops, hop.transportRound = 0 ∨ hop.transportRound = 1) :
    (roundCounts hops).total = hops.length := by
  induction hops with
  | nil => rfl
  | cons hop rest ih =>
    have := ih fun other ho => h other (mem_cons_of_mem _ ho)
    simp only [roundCounts, RoundCounts.total, countP_cons, length_cons] at this ⊢
    rcases h hop mem_cons_self with hr | hr <;> simp [hr] <;> omega

theorem get_roundCounts {round : Int} (hr : round = 0 ∨ round = 1)
    (h : ∀ hop ∈ hops, hop.transportRound = round) :
    (roundCounts hops).get round = (roundCounts hops).total := by
  rcases hr with rfl | rfl
  · have ho : hops.countP (fun hop => hop.transportRound = 1) = 0 :=
      countP_eq_zero.mpr fun hop hh => by simp [h hop hh]
    simp [roundCounts, RoundCounts.get, RoundCounts.total, ho]
  · have hz : hops.countP (fun hop => hop.transportRound = 0) = 0 :=
      countP_eq_zero.mpr fun hop hh => by simp [h hop hh]
    simp [roundCounts, RoundCounts.get, RoundCounts.total, hz]

def Barrier.Supported (barrier : Barrier) : Prop :=
  ∀ round ∈ barrier.rounds, round = 0 ∨ round = 1

variable {entry : BucketKey × RoundCounts}

section

variable (hinv : barrier.Inv maxRatio s) (h : barrier.Room maxRatio slot)
  (hdelays : barrier.DelaysNonneg)
include hinv h hdelays

theorem Barrier.Inv.hasRoom (he : entry ∈ countsByBucket s.hops) :
    ∃ latency, barrier.latencyFor entry.1.domain entry.1.ratio = .ok latency ∧
      barrier.HasRoom latency s.boundary.sourceReadySlot := by
  obtain ⟨required, dist, hb⟩ := Barrier.boundaryScore_eq_ok hdelays
    (fun entry he => (hinv.hops.legalKey he).ratio_pos) hinv.boundary
  by_cases hr : ∀ round, barrier.rounds ≠ [round]
  · exact hb.latency hr entry he
  -- with one round the room does not depend on the slot
  · obtain ⟨round, hrn⟩ := not_forall_not.mp hr
    obtain ⟨latency, hl, hroom⟩ := h entry.1 (hinv.hops.legalKey he)
    refine ⟨latency, hl, ?_⟩
    unfold Barrier.HasRoom at hroom ⊢
    rwa [hrn] at hroom ⊢

theorem Barrier.Inv.exists_need (hrd : barrier.Supported)
    (he : entry ∈ countsByBucket s.hops) :
    ∃ need, barrier.laneNeed entry.1 entry.2 s.boundary.sourceReadySlot = .ok need ∧
      Holds (entry, need) := by
  have hr := (hinv.hops.legalKey he).ratio_pos
  obtain ⟨latency, hl, hroom⟩ := hinv.hasRoom h hdelays he
  obtain ⟨need, hn⟩ := (h.known (hinv.hops.legalKey he)).exists_laneNeed entry.2
    s.boundary.sourceReadySlot
  refine ⟨need, hn, hr, Barrier.laneNeed_bound hr hl hroom ?_ hn⟩
  intro round hrn
  obtain ⟨hop, hh, -, hc⟩ := mem_countsByBucket.mp he
  rw [hc]
  refine get_roundCounts (hrd round (by rw [hrn]; simp)) fun other ho => ?_
  have := hinv.hops.rounds other (mem_of_mem_filter ho)
  rw [hrn] at this
  exact mem_singleton.mp this

theorem Barrier.Inv.exists_assignDomain
    (hrn : barrier.Supported) {record : RatioDomain} {sum : Int}
    (hsm : barrier.plainSum (countsByBucket s.hops) record.index s.boundary.sourceReadySlot =
      .ok sum) (hle : sum ≤ record.lanes) :
    ∃ lanes, barrier.assignDomain s.hops s.boundary.sourceReadySlot record = .ok lanes := by
  -- the need of each bucket of the domain as a function
  have hex : ∀ entry : BucketKey × RoundCounts, ∃ need : Int, entry ∈ countsByBucket s.hops →
      barrier.laneNeed entry.1 entry.2 s.boundary.sourceReadySlot = .ok need ∧
        Holds (entry, need) := by
    intro entry
    by_cases hen : entry ∈ countsByBucket s.hops
    · obtain ⟨need, hnd⟩ := hinv.exists_need h hdelays hrn hen
      exact ⟨need, fun _ => hnd⟩
    · exact ⟨0, fun hmm => absurd hmm hen⟩
  choose need hnd using hex
  obtain ⟨needs, hns, hsm⟩ := bind_eq_ok.mp hsm
  cases hsm
  set own := (countsByBucket s.hops).filter fun entry => entry.1.domain = record.index with how
  set entries := sortedBy (fun entry : BucketKey × RoundCounts => keyOrder entry.1) own with her
  have hpr : entries.Perm own := sortedBy_perm _ own
  have hmm : ∀ entry ∈ entries, entry ∈ countsByBucket s.hops :=
    fun entry hen => mem_of_mem_filter (hpr.mem_iff.mp hen)
  have hns' : needs = own.map need := Except.ok.inj (hns.symm.trans
    (mapM_eq_ok_map fun entry hen => (hnd entry (mem_of_mem_filter hen)).1))
  have hls : (entries.mapM fun entry => do
      let need ← barrier.laneNeed entry.1 entry.2 s.boundary.sourceReadySlot
      return (entry, need)) = .ok (entries.map fun entry => (entry, need entry)) :=
    mapM_eq_ok_map fun entry hen => bind_eq_ok.mpr ⟨_, (hnd entry (hmm entry hen)).1, rfl⟩
  have htt : ((entries.map fun entry => (entry, need entry)).map Prod.snd).sum = needs.sum := by
    rw [map_map, hns']
    exact (hpr.map need).sum_eq
  have hnp : ((entries.map fun entry => (entry, need entry)).map fun entry => entry.1.1).Nodup := by
    rw [map_map]
    refine ((hpr.map Prod.fst).nodup_iff).mpr ?_
    refine (filter_sublist.map Prod.fst).nodup ?_
    simp only [countsByBucket, map_map]
    exact (map_id'' (fun _ => rfl) (bucketKeys s.hops)).symm ▸ nodup_dedup _
  obtain ⟨hhl, hfs, hsp⟩ := splitLanes_spec
    (record.lanes - ((entries.map fun entry => (entry, need entry)).map Prod.snd).sum).toNat
    _ hnp fun entry hen => by
      obtain ⟨old, hol, rfl⟩ := mem_map.mp hen
      exact (hnd old (hmm old hol)).2
  -- each bucket has as many hops as its counts say
  have hln : ∀ entry ∈ splitLanes
      (record.lanes - ((entries.map fun entry => (entry, need entry)).map Prod.snd).sum).toNat
      (entries.map fun entry => (entry, need entry)),
      ((bucketHops s.hops entry.1.1).length : Int) ≤ max 0 entry.2 * entry.1.1.ratio := by
    intro entry hen
    obtain ⟨hrt, hbn⟩ := hhl entry hen
    have hin : entry.1 ∈ entries := by
      have := mem_map_of_mem (f := Prod.fst) hen
      rw [hfs, map_map] at this
      obtain ⟨old, hol, heq⟩ := mem_map.mp this
      exact heq ▸ hol
    obtain ⟨-, -, -, hcn⟩ := mem_countsByBucket.mp (hmm entry.1 hin)
    have hrn' : (roundCounts (bucketHops s.hops entry.1.1)).total =
        (bucketHops s.hops entry.1.1).length :=
      total_roundCounts fun hop hhp =>
        hrn _ (hinv.hops.rounds hop (mem_of_mem_filter hhp))
    rw [← hrn', ← hcn]
    exact hbn.trans (mul_le_mul_of_nonneg_right (le_max_right _ _) hrt.le)
  obtain ⟨lanes, has⟩ := exists_assignBuckets hln (0, [])
  refine ⟨lanes, bind_eq_ok.mpr ⟨_, hls, bind_eq_ok.mpr ⟨_, has,
    raiseIf_bind.mpr ⟨?_, rfl⟩⟩⟩⟩
  dsimp only
  omega

end

/-! ## the end of a run -/

theorem le_lanes_of_maxExcess {required : List (RatioDomain × Int)} {distance : Int}
    (h : (boundaryAt required slot distance).maxExcess ≤ 0) :
    ∀ entry ∈ required, entry.2 ≤ entry.1.lanes := by
  intro entry he
  have hmm : max 0 (entry.2 - (entry.1.lanes : ℤ)) ∈ excesses required :=
    mem_map.mpr ⟨entry, he, rfl⟩
  have hmax : maxDefault (excesses required) ≤ 0 := h
  obtain ⟨m, hm⟩ := Option.ne_none_iff_exists'.mp (mt List.max?_eq_none_iff.mp (ne_nil_of_mem hmm))
  rw [maxDefault, hm, Option.getD_some] at hmax
  have := (List.max?_eq_some_iff.mp hm).2 _ hmm
  omega

theorem finish_isOk (hinv : barrier.Inv maxRatio s) (h : barrier.Room maxRatio slot)
    (hdelays : barrier.DelaysNonneg) (hr : barrier.Supported)
    (hd : s.boundary.maxExcess ≤ 0) (worst : Option ℚ) :
    ∃ result, barrier.finish worst s = .ok result := by
  obtain ⟨required, dist, hb⟩ := Barrier.boundaryScore_eq_ok hdelays
    (fun entry he => (hinv.hops.legalKey he).ratio_pos) hinv.boundary
  rw [hb.boundary_eq] at hd
  have hf := le_lanes_of_maxExcess hd
  obtain ⟨lanes, hl⟩ := exists_mapM_eq_ok
    (l := sortedBy RatioDomain.index barrier.model.domains)
    (f := barrier.assignDomain s.hops s.boundary.sourceReadySlot) fun r hrc => by
      obtain ⟨entry, he, hs⟩ := mem_mapM_of_mem hb.sums (mem_sortedBy.mp hrc)
      obtain ⟨sum, hp, hs⟩ := bind_eq_ok.mp hs
      cases hs
      exact hinv.exists_assignDomain h hdelays hr hp (hf _ he)
  exact ⟨_, bind_eq_ok.mpr ⟨lanes, hl, rfl⟩⟩

def Barrier.Step (barrier : Barrier) (maxRatio quantum : Int) (s s' : LegalizeState) : Prop :=
  0 < s.boundary.maxExcess ∧ barrier.promote maxRatio quantum s = .ok s'

/-- The states of the run from `s`. -/
def Barrier.Reaches (barrier : Barrier) (maxRatio quantum : Int) :
    LegalizeState → LegalizeState → Prop :=
  Relation.ReflTransGen (barrier.Step maxRatio quantum)

/-- In every state the loop does not end in, there is something to promote. -/
def Barrier.LiveFrom (barrier : Barrier) (maxRatio quantum : Int)
    (initial : LegalizeState) : Prop :=
  ∀ s, barrier.Reaches maxRatio quantum initial s → 0 < s.boundary.maxExcess →
    barrier.Live maxRatio s

theorem exists_legalizeLoop (h : barrier.Room maxRatio slot) (hdelays : barrier.DelaysNonneg)
    (fuel : Nat) (hinv : barrier.Inv maxRatio s) (hfl : 1024 < s.promotionSteps + fuel)
    (hl : barrier.LiveFrom maxRatio quantum s) :
    ∃ final, barrier.legalizeLoop maxRatio quantum fuel s = .ok final ∧
      barrier.Inv maxRatio final ∧ final.boundary.maxExcess ≤ 0 := by
  induction fuel generalizing s with
  | zero =>
    rw [Barrier.legalizeLoop]
    by_cases hd : s.boundary.maxExcess ≤ 0
    · rw [if_pos hd]
      exact ⟨s, rfl, hinv, hd⟩
    · have := (hl s .refl (not_le.mp hd)).1
      omega
  | succ fuel ih =>
    rw [Barrier.legalizeLoop]
    by_cases hd : s.boundary.maxExcess ≤ 0
    · rw [if_pos hd]
      exact ⟨s, rfl, hinv, hd⟩
    rw [if_neg hd]
    have hp := not_le.mp hd
    obtain ⟨next, -, hn, hi', hs, -⟩ :=
      h.exists_promote quantum hdelays hinv (hl s .refl hp)
    obtain ⟨final, hf, he⟩ := ih hi' (by omega) fun t ht =>
      hl t (Relation.ReflTransGen.head ⟨hp, hn⟩ ht)
    exact ⟨final, bind_eq_ok.mpr ⟨next, hn, hf⟩, he⟩

theorem liveFrom_of_legalizeLoop (h : barrier.Room maxRatio slot) (hdelays : barrier.DelaysNonneg)
    (fuel : Nat) {final : LegalizeState} (hinv : barrier.Inv maxRatio s)
    (hl : barrier.legalizeLoop maxRatio quantum fuel s = .ok final) :
    barrier.LiveFrom maxRatio quantum s := by
  induction fuel generalizing s with
  | zero =>
    rw [Barrier.legalizeLoop] at hl
    split at hl
    · next hd =>
      intro t ht hp
      rcases Relation.ReflTransGen.cases_head ht with rfl | ⟨next, hs, -⟩
      · omega
      · exact absurd hs.1 (not_lt.mpr hd)
    · cases hl
  | succ fuel ih =>
    rw [Barrier.legalizeLoop] at hl
    split at hl
    · next hd =>
      intro t ht hp
      rcases Relation.ReflTransGen.cases_head ht with rfl | ⟨next, hs, -⟩
      · omega
      · exact absurd hs.1 (not_lt.mpr hd)
    · obtain ⟨next, hn, hl⟩ := bind_eq_ok.mp hl
      have hlv := (promote_isOk_iff h hdelays hinv).mp ⟨next, hn⟩
      obtain ⟨next', -, hn', hi', -⟩ := h.exists_promote quantum hdelays hinv hlv
      obtain rfl : next = next' := Except.ok.inj (hn.symm.trans hn')
      intro t ht hp
      rcases Relation.ReflTransGen.cases_head ht with rfl | ⟨first, hs, hr⟩
      · exact hlv
      · obtain rfl : next = first := Except.ok.inj (hn.symm.trans hs.2)
        exact ih hi' hl t hr hp

/-! ## the whole run -/

/-- Every barrier and every capacity is satisfied with the second round at `slot`. -/
structure Barrier.Satisfied (barrier : Barrier) (counts : BucketCounts) (slot : Int) : Prop where
  room : ∀ entry ∈ counts, ∃ latency,
    barrier.latencyFor entry.1.domain entry.1.ratio = .ok latency ∧ barrier.HasRoom latency slot
  fits : ∀ record ∈ barrier.model.domains, ∃ sum,
    barrier.plainSum counts record.index slot = .ok sum ∧ sum ≤ record.lanes

def atMaxRatio (maxRatio : Int) (hops : List PlanHop) : List PlanHop :=
  hops.map fun hop => { hop with discreteRatio := maxRatio }

theorem Barrier.Satisfied.room_of_le
    (h : barrier.Satisfied (countsByBucket (atMaxRatio maxRatio barrier.hops)) slot)
    (hdelays : barrier.DelaysNonneg) : barrier.Room maxRatio slot := by
  intro key hk
  obtain ⟨hop, hh, hd⟩ := hk.domain_used
  have hm : ({ hop with discreteRatio := maxRatio } : PlanHop) ∈
      atMaxRatio maxRatio barrier.hops :=
    mem_map.mpr ⟨hop, hh, rfl⟩
  obtain ⟨latency', hl', hroom⟩ := h.room _ (bucket_mem_countsByBucket hm)
  have hl : barrier.latencyFor key.domain maxRatio = .ok latency' := hd ▸ hl'
  obtain ⟨latency, hok, hle⟩ := Barrier.latencyFor_mono hdelays hk.ratio_pos hk.ratio_le hl
  exact ⟨latency, hok, hroom.mono hle⟩

variable {model : RatioModel} {platform : Platform}

theorem barrierOf_supported : (barrierOf platform model hops).Supported ↔
      ∀ hop ∈ hops, hop.transportRound = 0 ∨ hop.transportRound = 1 := by
  simp [Barrier.Supported, barrierOf]

theorem legalHops_barrierOf (hne : hops ≠ [])
    (hr : ∀ hop ∈ hops, 0 < hop.discreteRatio ∧ hop.discreteRatio ≤ maxRatio) :
    (barrierOf platform model hops).LegalHops maxRatio hops where
  ne_nil := hne
  keys hop hh := ⟨(hr hop hh).1, (hr hop hh).2, hop, hh, rfl⟩
  rounds hop hh := mem_sortedSet.mpr (mem_map.mpr ⟨hop, hh, rfl⟩)

theorem initialState_isOk_iff (h : (barrierOf platform model hops).Room maxRatio slot)
    (hdelays : (barrierOf platform model hops).DelaysNonneg)
    (hrt : ∀ hop ∈ hops, 0 < hop.discreteRatio ∧ hop.discreteRatio ≤ maxRatio) :
    (∃ initial, (barrierOf platform model hops).initialState = .ok initial) ↔
      hops ≠ [] ∧ (barrierOf platform model hops).Supported := by
  have hn : (barrierOf platform model hops).rounds = [] ↔ hops = [] := by
    rw [barrierOf, eq_nil_iff_forall_not_mem, eq_nil_iff_forall_not_mem]
    simp
  constructor
  · rintro ⟨initial, hi⟩
    obtain ⟨hbd, -⟩ := raiseIf_bind.mp hi
    rw [not_or, hn] at hbd
    refine ⟨hbd.1, fun round hr => ?_⟩
    by_contra hne
    exact hbd.2 ⟨round, hr, not_or.mp hne⟩
  · rintro ⟨hne, hs⟩
    obtain ⟨boundary, hb⟩ := h.exists_boundary hdelays
      (legalHops_barrierOf hne hrt).legalCounts
    refine ⟨_, raiseIf_bind.mpr ⟨?_, raiseIf_bind.mpr ⟨?_,
      bind_eq_ok.mpr ⟨boundary, hb, rfl⟩⟩⟩⟩
    · rw [not_or, hn]
      refine ⟨hne, ?_⟩
      rintro ⟨round, hr, h0, h1⟩
      exact (hs round hr).elim h0 h1
    · have hsb : (barrierOf platform model hops).rounds ⊆ [0, 1] := fun round hr => by
        simpa using hs round hr
      have := ((nodup_sortedSet _).subperm hsb).length_le
      simpa [barrierOf] using this

theorem initialState_eq_ok {initial : LegalizeState} (h : barrier.initialState = .ok initial) :
    initial.hops = barrier.hops ∧ initial.promotionSteps = 0 ∧
      barrier.boundaryScore (countsByBucket initial.hops) = .ok initial.boundary := by
  obtain ⟨-, h⟩ := raiseIf_bind.mp h
  obtain ⟨-, h⟩ := raiseIf_bind.mp h
  obtain ⟨boundary, hb, h⟩ := bind_eq_ok.mp h
  cases h
  exact ⟨rfl, rfl, hb⟩

/-- **Exactly which runs do not raise.** Where all hops at the largest ratio satisfy every barrier
and every capacity, the legalization ends with a result if and only if the rounds are supported and
in every state it does not end in some failing domain has a hop below the largest ratio and the
limit of promotions is not reached. -/
theorem roundBarrierLegalize_isOk_iff (hops : List PlanHop) (model : RatioModel)
    (platform : Platform) (maxRatio ratioQuantum : Int)
    (hrt : ∀ hop ∈ hops, 0 < hop.discreteRatio ∧ hop.discreteRatio ≤ maxRatio)
    (hdelays : ∀ hop ∈ hops, 0 ≤ hop.baseDelayNs)
    (hmax : ∃ slot, (barrierOf platform model hops).Satisfied
      (countsByBucket (atMaxRatio maxRatio hops)) slot) :
    (∃ result, roundBarrierLegalize hops model platform maxRatio ratioQuantum = .ok result) ↔
      hops ≠ [] ∧ (∀ hop ∈ hops, hop.transportRound = 0 ∨ hop.transportRound = 1) ∧
        ∀ initial, (barrierOf platform model hops).initialState = .ok initial →
          (barrierOf platform model hops).LiveFrom maxRatio ratioQuantum initial := by
  obtain ⟨slot, hmax⟩ := hmax
  have hmax' : (barrierOf platform model hops).Satisfied
      (countsByBucket (atMaxRatio maxRatio (barrierOf platform model hops).hops)) slot :=
    hmax
  have hd : (barrierOf platform model hops).DelaysNonneg := hdelays
  have h := hmax'.room_of_le hd
  have hinv : ∀ initial, (barrierOf platform model hops).initialState = .ok initial →
      (barrierOf platform model hops).Inv maxRatio initial := by
    intro initial hi
    obtain ⟨hh, -, hb⟩ := initialState_eq_ok hi
    have hne := ((initialState_isOk_iff h hd hrt).mp ⟨initial, hi⟩).1
    exact ⟨hh ▸ legalHops_barrierOf hne hrt, hb⟩
  rw [← barrierOf_supported, ← and_assoc]
  constructor
  · rintro ⟨result, hr⟩
    obtain ⟨initial, hi, hr⟩ := bind_eq_ok.mp hr
    obtain ⟨final, hl, -⟩ := bind_eq_ok.mp hr
    refine ⟨(initialState_isOk_iff h hd hrt).mp ⟨initial, hi⟩, fun other ho => ?_⟩
    obtain rfl : initial = other := Except.ok.inj (hi.symm.trans ho)
    exact liveFrom_of_legalizeLoop h hd 1025 (hinv initial hi) hl
  · rintro ⟨hs, hlv⟩
    obtain ⟨initial, hi⟩ := (initialState_isOk_iff h hd hrt).mpr hs
    obtain ⟨-, hst, -⟩ := initialState_eq_ok hi
    obtain ⟨final, hl, hf, hdn⟩ := exists_legalizeLoop h hd 1025 (hinv initial hi)
      (by omega) (hlv initial hi)
    obtain ⟨result, hr⟩ := finish_isOk hf h hd hs.2 hdn
      (discreteTimingRecords model hops).2
    exact ⟨result, bind_eq_ok.mpr ⟨initial, hi, bind_eq_ok.mpr ⟨final, hl, hr⟩⟩⟩

/-! ## a condition on the input -/

def domainHops (hops : List PlanHop) (domain : Nat) : List PlanHop :=
  hops.filter fun hop => hop.domain = domain

theorem dedup_filter {α : Type} [DecidableEq α] (p : α → Bool) (l : List α) :
    (l.filter p).dedup = l.dedup.filter p := by
  induction l with
  | nil => rfl
  | cons a l ih =>
    by_cases hm : a ∈ l
    · rw [dedup_cons_of_mem hm, ← ih, filter_cons]
      split
      · next ha => exact dedup_cons_of_mem (mem_filter.mpr ⟨hm, ha⟩)
      · rfl
    · rw [dedup_cons_of_notMem hm, filter_cons, filter_cons, ← ih]
      split
      · exact dedup_cons_of_notMem fun h => hm (mem_of_mem_filter h)
      · rfl

theorem filter_countsByBucket (hops : List PlanHop) (domain : Nat) :
    (countsByBucket hops).filter (fun entry => entry.1.domain = domain) =
      countsByBucket (domainHops hops domain) := by
  have hk : bucketKeys (domainHops hops domain) =
      (bucketKeys hops).filter fun key => key.domain = domain := by
    unfold bucketKeys domainHops
    rw [← dedup_filter, filter_map]
    rfl
  unfold countsByBucket
  rw [hk, filter_map]
  refine map_congr_left fun key hky => ?_
  obtain rfl : key.domain = domain := by simpa using (mem_filter.mp hky).2
  -- a bucket lies in one domain
  have hb : bucketHops (domainHops hops key.domain) key = bucketHops hops key := by
    unfold bucketHops domainHops
    rw [filter_filter]
    refine filter_congr fun hop _ => ?_
    by_cases h : hop.bucketKey = key
    · simp [← h, PlanHop.bucketKey]
    · simp [h]
  rw [hb]

theorem Barrier.plainSum_domainHops (barrier : Barrier) (hops : List PlanHop) (domain : Nat)
    (slot : Int) : barrier.plainSum (countsByBucket (domainHops hops domain)) domain slot =
      barrier.plainSum (countsByBucket hops) domain slot := by
  have h := filter_countsByBucket (domainHops hops domain) domain
  unfold Barrier.plainSum
  rw [h, filter_countsByBucket]
  simp [domainHops]

/-- Domain by domain: at every slot that leaves room for the hops over it, `hops` fit in its
lanes. -/
def Barrier.FitsApart (barrier : Barrier) (hops : List PlanHop) : Prop :=
  ∀ record ∈ barrier.model.domains, ∀ slot,
    (∀ entry ∈ countsByBucket (domainHops hops record.index), ∃ latency,
      barrier.latencyFor entry.1.domain entry.1.ratio = .ok latency ∧
        barrier.HasRoom latency slot) →
    ∃ sum, barrier.plainSum (countsByBucket hops) record.index slot = .ok sum ∧ sum ≤ record.lanes

/-- No domain can be left over its lanes by the slot that another one needs: each fits at the
largest ratio wherever its own hops have room, or there is only one, or nothing has to change. -/
def Barrier.Uncoupled (barrier : Barrier) (maxRatio : Int) : Prop :=
  barrier.FitsApart (atMaxRatio maxRatio barrier.hops) ∨
    (∃ domain, ∀ hop ∈ barrier.hops, hop.domain = domain) ∨
    ∃ slot, barrier.Satisfied (countsByBucket barrier.hops) slot

theorem atMaxRatio_eq_self (h : ∀ hop ∈ hops, hop.discreteRatio = maxRatio) :
    atMaxRatio maxRatio hops = hops := by
  refine (map_congr_left fun hop hh => ?_).trans (map_id _)
  rw [← h hop hh]
  rfl

theorem domainHops_atMaxRatio {domain : Nat}
    (h : ∀ hop ∈ domainHops hops domain, hop.discreteRatio = maxRatio) :
    domainHops (atMaxRatio maxRatio hops) domain = domainHops hops domain := by
  calc domainHops (atMaxRatio maxRatio hops) domain
      = atMaxRatio maxRatio (domainHops hops domain) := filter_map ..
    _ = domainHops hops domain := atMaxRatio_eq_self h

theorem atMaxRatio_promoteHops (hops : List PlanHop) (key : BucketKey) (target : Int) :
    atMaxRatio maxRatio (promoteHops hops key target) = atMaxRatio maxRatio hops := by
  unfold atMaxRatio promoteHops
  rw [map_map]
  refine map_congr_left fun hop _ => ?_
  dsimp only [Function.comp_apply]
  split <;> rfl

theorem Barrier.Satisfied.maxExcess_le {boundary : Boundary} {required : List (RatioDomain × Int)}
    {distance : Int} (h : barrier.Satisfied counts slot)
    (hb : barrier.BoundaryOf counts boundary required distance) :
    boundary.maxExcess ≤ 0 := by
  obtain ⟨other, ho⟩ : ∃ other, barrier.requiredSums counts slot = .ok other :=
    exists_mapM_eq_ok fun r hr => by
      obtain ⟨sum, hs, -⟩ := h.fits r hr
      exact ⟨(r, sum), bind_eq_ok.mpr ⟨sum, hs, rfl⟩⟩
  refine (hb.least slot other ho h.room).trans ?_
  unfold maxDefault
  cases hmax : (excesses other).max? with
  | none => exact le_rfl
  | some excess =>
    obtain ⟨entry, he, rfl⟩ := mem_map.mp (List.max?_eq_some_iff.mp hmax).1
    obtain ⟨r, hr, ha⟩ := exists_of_mem_mapM ho he
    obtain ⟨sum, hs, ha⟩ := bind_eq_ok.mp ha
    cases ha
    obtain ⟨sum', hs', hle⟩ := h.fits r hr
    obtain rfl : sum = sum' := Except.ok.inj (hs.symm.trans hs')
    exact max_le le_rfl (by dsimp only; omega)

/-- A boundary that lacks lanes has a failing domain, with a hop over it. -/
theorem Barrier.BoundaryOf.exists_failing {boundary : Boundary}
    {required : List (RatioDomain × Int)} {distance : Int}
    (h : barrier.BoundaryOf (countsByBucket hops) boundary required distance)
    (hp : 0 < boundary.maxExcess) : ∃ r ∈ barrier.model.domains, ∃ sum : Int,
      barrier.plainSum (countsByBucket hops) r.index boundary.sourceReadySlot = .ok sum ∧
        r.lanes < sum ∧ barrier.failing boundary r.index = true ∧
        ∃ hop ∈ hops, hop.domain = r.index := by
  have hmax : 0 < maxDefault (excesses required) := by
    rw [h.boundary_eq] at hp
    exact hp
  obtain ⟨entry, he, ho⟩ : ∃ entry ∈ required, (entry.1.lanes : Int) < entry.2 := by
    by_contra hn
    push Not at hn
    refine absurd hmax (not_lt.mpr ?_)
    unfold maxDefault
    cases hm : (excesses required).max? with
    | none => exact le_rfl
    | some excess =>
      obtain ⟨entry, he, rfl⟩ := mem_map.mp (List.max?_eq_some_iff.mp hm).1
      exact max_le le_rfl (by have := hn entry he; omega)
  obtain ⟨r, hr, ha⟩ := exists_of_mem_mapM h.sums he
  obtain ⟨sum, hs, ha⟩ := bind_eq_ok.mp ha
  cases ha
  refine ⟨r, hr, sum, hs, ho, ?_, ?_⟩
  · unfold Barrier.failing
    rw [h.boundary_eq]
    refine any_eq_true.mpr ⟨_, mem_map_of_mem he, ?_⟩
    simp only [decide_true, Bool.true_and]
    exact any_eq_true.mpr ⟨r, hr, by simpa using ho⟩
  -- without a hop over it a domain needs no lane
  · by_contra hn
    push Not at hn
    have hem : domainHops hops r.index = [] :=
      filter_eq_nil_iff.mpr fun hop hh => by simpa using hn hop hh
    rw [← Barrier.plainSum_domainHops, hem] at hs
    obtain rfl : (0 : Int) = sum := Except.ok.inj hs
    dsimp only at ho
    omega

/-! ## the rungs a run climbs -/

/-- The ratios a promotion of a run from `hops` can go up to. -/
def rungs (quantum maxRatio : Int) (hops : List PlanHop) : Finset Int :=
  ((slots 1 maxRatio).filter fun target => Rung quantum maxRatio hops target).toFinset

theorem mem_rungs {target : Int} : target ∈ rungs quantum maxRatio hops ↔
    (1 ≤ target ∧ target ≤ maxRatio) ∧ Rung quantum maxRatio hops target := by
  rw [rungs, mem_toFinset, mem_filter, DifferenceArray.mem_slots, decide_eq_true_eq]

/-- The rungs of `ladder` above each bucket of `hops`. -/
def climb (ladder : Finset Int) (hops : List PlanHop) : Nat :=
  ∑ key ∈ (hops.map PlanHop.bucketKey).toFinset, (ladder.filter (key.ratio < ·)).card

theorem climb_promoteHops_lt {ladder : Finset Int} {hop : PlanHop} {target : Int}
    (hh : hop ∈ hops) (hlt : hop.discreteRatio < target) (hm : target ∈ ladder) :
    climb ladder (promoteHops hops hop.bucketKey target) < climb ladder hops := by
  have hs : ((promoteHops hops hop.bucketKey target).map PlanHop.bucketKey).toFinset ⊆
      insert (hop.bucketKey.withRatio target)
        ((hops.map PlanHop.bucketKey).toFinset.erase hop.bucketKey) := by
    intro key hk
    obtain ⟨new, hn, rfl⟩ := mem_map.mp (mem_toFinset.mp hk)
    obtain ⟨old, ho, rfl⟩ := mem_map.mp hn
    by_cases hsm : old.bucketKey = hop.bucketKey
    · rw [if_pos hsm, ← hsm]
      exact Finset.mem_insert_self ..
    · rw [if_neg hsm]
      exact Finset.mem_insert_of_mem
        (Finset.mem_erase.mpr ⟨hsm, mem_toFinset.mpr (mem_map_of_mem ho)⟩)
  have hf : (ladder.filter (target < ·)).card <
      (ladder.filter (hop.bucketKey.ratio < ·)).card := by
    refine Finset.card_lt_card ((Finset.ssubset_iff_of_subset fun rung hr => ?_).mpr ?_)
    · obtain ⟨hin, ha⟩ := Finset.mem_filter.mp hr
      exact Finset.mem_filter.mpr ⟨hin, hlt.trans ha⟩
    · exact ⟨target, Finset.mem_filter.mpr ⟨hm, hlt⟩, by simp⟩
  have ho : hop.bucketKey ∈ (hops.map PlanHop.bucketKey).toFinset :=
    mem_toFinset.mpr (mem_map_of_mem hh)
  refine (Finset.sum_le_sum_of_subset hs).trans_lt ?_
  unfold climb
  rw [← Finset.add_sum_erase _ _ ho]
  by_cases hmr : hop.bucketKey.withRatio target ∈
      (hops.map PlanHop.bucketKey).toFinset.erase hop.bucketKey
  · rw [Finset.insert_eq_of_mem hmr]
    omega
  · rw [Finset.sum_insert hmr]
    exact Nat.add_lt_add_right hf _

/-- What holds along a run: the ratios are rungs, the hops differ from the given ones in them only,
and every promotion has used up a rung. -/
structure Barrier.Climbing (barrier : Barrier) (quantum maxRatio : Int) (s : LegalizeState) :
    Prop where
  inv : barrier.Inv maxRatio s
  same : atMaxRatio maxRatio s.hops = atMaxRatio maxRatio barrier.hops
  rung : ∀ hop ∈ s.hops, hop.discreteRatio ∈ rungs quantum maxRatio barrier.hops
  steps : s.promotionSteps + climb (rungs quantum maxRatio barrier.hops) s.hops ≤
    climb (rungs quantum maxRatio barrier.hops) barrier.hops

section

variable (hroom : barrier.Room maxRatio slot) (hdelays : barrier.DelaysNonneg)
include hroom hdelays

theorem Barrier.Climbing.step (h : barrier.Climbing quantum maxRatio s)
    (hs : barrier.Step maxRatio quantum s s') : barrier.Climbing quantum maxRatio s' := by
  obtain ⟨next, c, hnx, hinv, hsp, hpr, hhp⟩ := hroom.exists_promote quantum
    hdelays h.inv ((promote_isOk_iff hroom hdelays h.inv).mp ⟨s', hs.2⟩)
  obtain rfl : s' = next := Except.ok.inj (hs.2.symm.trans hnx)
  obtain ⟨hop, hh, hk⟩ := hpr.exists_hop
  have hlt := hpr.ratio_lt
  rw [← hk] at hlt hhp
  -- the target is a rung of the given hops too
  have hm : c.target ∈ rungs quantum maxRatio barrier.hops := by
    rcases hpr.rung with ⟨other, hot, hr⟩ | hrs
    · exact hr ▸ h.rung other hot
    · have hp := (h.inv.hops.keys hop hh).ratio_pos
      exact mem_rungs.mpr ⟨⟨by omega, hpr.target_le⟩, .inr hrs⟩
  refine ⟨hinv, ?_, fun new hn => ?_, ?_⟩
  · rw [hhp, atMaxRatio_promoteHops, h.same]
  · rw [hhp] at hn
    obtain ⟨old, ho, rfl⟩ := mem_map.mp hn
    split
    · exact hm
    · exact h.rung old ho
  · have hc := climb_promoteHops_lt hh hlt hm
    rw [← hhp] at hc
    have := h.steps
    omega

theorem Barrier.Climbing.run (h : barrier.Climbing quantum maxRatio s)
    (hr : barrier.Reaches maxRatio quantum s s') : barrier.Climbing quantum maxRatio s' := by
  induction hr with
  | refl => exact h
  | tail _ hs ih => exact ih.step hroom hdelays hs

theorem Barrier.Climbing.live (h : barrier.Climbing quantum maxRatio s)
    (hmax : barrier.Satisfied (countsByBucket (atMaxRatio maxRatio barrier.hops)) slot)
    (hst : climb (rungs quantum maxRatio barrier.hops) barrier.hops ≤ 1024)
    (hun : barrier.FitsApart (atMaxRatio maxRatio barrier.hops) ∨
      ∃ domain, ∀ hop ∈ barrier.hops, hop.domain = domain)
    (hps : 0 < s.boundary.maxExcess) : barrier.Live maxRatio s := by
  obtain ⟨required, dist, hbn⟩ := Barrier.boundaryScore_eq_ok hdelays
    (fun entry hen => (h.inv.hops.legalKey hen).ratio_pos) h.inv.boundary
  obtain ⟨r, hrc, sum, hsu, hov, hfl, hop, hhp, hdn⟩ :=
    hbn.exists_failing hps
  obtain ⟨low, hlw, hsm, hlt⟩ : ∃ low ∈ s.hops, low.domain = r.index ∧
      low.discreteRatio < maxRatio := by
    by_contra hnn
    push Not at hnn
    have hat : ∀ low ∈ domainHops s.hops r.index, low.discreteRatio = maxRatio := by
      intro low hlw
      obtain ⟨hmm, hin⟩ := mem_filter.mp hlw
      exact le_antisymm (h.inv.hops.keys low hmm).ratio_le
        (hnn low hmm (of_decide_eq_true hin))
    rcases hun with hap | ⟨domain, hon⟩
    -- the failing domain has the buckets it has at the largest ratio
    · have hsm : domainHops (atMaxRatio maxRatio barrier.hops) r.index =
          domainHops s.hops r.index := by
        rw [← h.same, domainHops_atMaxRatio hat]
      obtain ⟨sum', hsu', hle⟩ := hap r hrc s.boundary.sourceReadySlot
        fun entry hen => by
          rw [hsm, ← filter_countsByBucket] at hen
          exact h.inv.hasRoom hroom hdelays (mem_of_mem_filter hen)
      rw [← Barrier.plainSum_domainHops, hsm, Barrier.plainSum_domainHops, hsu] at hsu'
      cases hsu'
      omega
    -- all hops are at the largest ratio
    · have hdm : ∀ low ∈ s.hops, low.domain = domain := by
        intro low hlw
        have hmm : ({ low with discreteRatio := maxRatio } : PlanHop) ∈
            atMaxRatio maxRatio barrier.hops := h.same ▸ mem_map_of_mem hlw
        obtain ⟨given, hgv, heq⟩ := mem_map.mp hmm
        exact (congrArg (fun hop : PlanHop => hop.domain) heq).symm.trans (hon given hgv)
      have hal : ∀ low ∈ s.hops, low.discreteRatio = maxRatio := fun low hlw =>
        hat low (mem_filter.mpr ⟨hlw, decide_eq_true
          ((hdm low hlw).trans ((hdm hop hhp).symm.trans hdn))⟩)
      rw [← h.same, atMaxRatio_eq_self hal] at hmax
      exact absurd (hmax.maxExcess_le hbn) (not_le.mpr hps)
  refine ⟨?_, low, hlw, hsm ▸ hfl, hlt⟩
  -- the hop below the largest ratio still has a rung above it
  have hrn : 0 < climb (rungs quantum maxRatio barrier.hops) s.hops := by
    refine Finset.sum_pos' (fun _ _ => Nat.zero_le _)
      ⟨low.bucketKey, mem_toFinset.mpr (mem_map_of_mem hlw), Finset.card_pos.mpr ⟨maxRatio, ?_⟩⟩
    have := (h.inv.hops.keys low hlw).ratio_pos
    have : 1 ≤ maxRatio := by
      have hrt : 0 < low.discreteRatio := this
      omega
    exact Finset.mem_filter.mpr ⟨mem_rungs.mpr ⟨⟨this, le_rfl⟩, .inr (.inr rfl)⟩, hlt⟩
  have := h.steps
  omega

end

instance {latency : Int} : Decidable (barrier.HasRoom latency slot) := by
  unfold Barrier.HasRoom
  split <;> infer_instance

def Barrier.checkSatisfied (barrier : Barrier) (counts : BucketCounts) (slot : Int) : Bool :=
  (counts.all fun entry =>
    match barrier.latencyFor entry.1.domain entry.1.ratio with
    | .ok latency => decide (barrier.HasRoom latency slot)
    | .error _ => false) &&
  barrier.model.domains.all fun record =>
    match barrier.plainSum counts record.index slot with
    | .ok sum => decide (sum ≤ record.lanes)
    | .error _ => false

theorem Barrier.satisfied_of_check (h : barrier.checkSatisfied counts slot = true) :
    barrier.Satisfied counts slot := by
  obtain ⟨hroom, hf⟩ := Bool.and_eq_true_iff.mp h
  refine ⟨fun entry he => ?_, fun r hr => ?_⟩
  · have := all_eq_true.mp hroom entry he
    split at this
    · next latency hl => exact ⟨latency, hl, of_decide_eq_true this⟩
    · cases this
  · have := all_eq_true.mp hf r hr
    split at this
    · next sum hs => exact ⟨sum, hs, of_decide_eq_true this⟩
    · cases this

/-- Eight hops over one link in round zero; over another link ten hops in round one, five of them at
the largest ratio. -/
def stuckHops : List PlanHop :=
  (List.range 8).map (fun i => pairHop i 0 0 12 0) ++
    (List.range 5).map (fun i => pairHop (8 + i) 1 1 8 0) ++
    (List.range 5).map (fun i => pairHop (13 + i) 1 1 12 1)

/-- Three hops over the first link in two buckets, which need two lanes until they are merged. -/
def mergedHops : List PlanHop := [pairHop 0 0 0 4 0, pairHop 1 0 0 8 0, pairHop 2 0 1 4 0]

end EmuFlow.TdmRatio
