import EmuFlow.TdmRatio.Legalize

/-!
# When the legalization does not raise

Where all hops at the largest ratio satisfy every barrier and every capacity, there is a boundary
for every state on the way. What is left to go wrong is the choice of a bucket: only domains that
fail at the chosen boundary are looked at, so a failing domain that is at the largest ratio ends the
run although promoting another domain would let the boundary move.
-/

namespace EmuFlow.TdmRatio

open Check SortedSet Routing Tdm DifferenceArray List

variable {barrier : Barrier} {counts : BucketCounts} {key : BucketKey} {count : RoundCounts}
  {slot maxRatio quantum : Int} {s s' : LegalizeState}

variable {ratio ratio' latency' : Int}

theorem tdmHopLatencyCycles_mono {link : BoardLink} {base : ℚ}
    (hb : 0 ≤ base) (h1 : 1 ≤ ratio) (hle : ratio ≤ ratio')
    (h : tdmHopLatencyCycles link ratio' (some base) = .ok latency') :
    ∃ latency, tdmHopLatencyCycles link ratio (some base) = .ok latency ∧ latency ≤ latency' := by
  unfold tdmHopLatencyCycles at h ⊢
  cases hm : link.tdmDelayModel with
  | none =>
    simp only [hm] at h
    exact ⟨latency', h, le_rfl⟩
  | some model =>
    simp only [hm] at h
    obtain ⟨-, h⟩ := raiseIf_bind.mp h
    cases h
    exact ⟨_, raiseIf_bind.mpr ⟨by omega, rfl⟩, delayCycles_mono link
      (delayFrom_nonneg model hb h1) (delayFrom_mono model hb h1 hle)⟩

theorem Barrier.latencyFor_mono {domain : Nat} (hdelays : barrier.DelaysNonneg) (h1 : 1 ≤ ratio)
    (hle : ratio ≤ ratio') (h : barrier.latencyFor domain ratio' = .ok latency') :
    ∃ latency, barrier.latencyFor domain ratio = .ok latency ∧ latency ≤ latency' := by
  unfold Barrier.latencyFor at h ⊢
  obtain ⟨r, hr, h⟩ := bind_eq_ok.mp h
  obtain ⟨link, hln, h⟩ := bind_eq_ok.mp h
  obtain ⟨hop, hh, h⟩ := bind_eq_ok.mp h
  have hm : hop ∈ barrier.hops := mem_of_find?_eq_some (lookupOrRaise_eq_ok.mp hh)
  obtain ⟨latency, hl, hle'⟩ := tdmHopLatencyCycles_mono (hdelays hop hm) h1 hle h
  exact ⟨latency, bind_eq_ok.mpr ⟨r, hr, bind_eq_ok.mpr ⟨link, hln,
    bind_eq_ok.mpr ⟨hop, hh, hl⟩⟩⟩, hle'⟩

/-! ## room -/

def Barrier.HasRoom (barrier : Barrier) (latency slot : Int) : Prop :=
  match barrier.rounds with
  | [_] => 0 < barrier.lastLaunch latency
  | _ => latency < slot ∧ slot < barrier.lastLaunch latency

theorem Barrier.HasRoom.mono {latency latency' : Int} (h : barrier.HasRoom latency' slot)
    (hle : latency ≤ latency') : barrier.HasRoom latency slot := by
  unfold Barrier.HasRoom Barrier.lastLaunch at *
  split at h
  · omega
  · exact ⟨by omega, by omega⟩

theorem Barrier.hasRoom_iff {latency : Int} (hr : ∀ round, barrier.rounds ≠ [round]) :
    barrier.HasRoom latency slot ↔ latency < slot ∧ slot < barrier.lastLaunch latency := by
  unfold Barrier.HasRoom
  split
  · next round hrn => exact absurd hrn (hr round)
  · rfl

def Barrier.Known (barrier : Barrier) (key : BucketKey) : Prop :=
  0 < key.ratio ∧ ∃ latency, barrier.latencyFor key.domain key.ratio = .ok latency

theorem Barrier.Known.exists_laneNeed (h : barrier.Known key) (count : RoundCounts) (slot : Int) :
    ∃ need, barrier.laneNeed key count slot = .ok need := by
  obtain ⟨hr, latency, hl⟩ := h
  unfold Barrier.laneNeed
  rw [hl]
  dsimp only [bind, Except.bind]
  split
  · split
    · exact ⟨_, rfl⟩
    · exact ⟨_, ceilDivide_eq (lt_min hr (by omega))⟩
  · split
    · exact ⟨_, rfl⟩
    · next hrm =>
      rw [ceilDivide_eq (lt_min hr (by omega)), ceilDivide_eq (by omega),
        ceilDivide_eq (by omega)]
      exact ⟨_, rfl⟩

theorem Barrier.exists_plainSum (h : ∀ entry ∈ counts, barrier.Known entry.1) (domain : Nat)
    (slot : Int) : ∃ sum, barrier.plainSum counts domain slot = .ok sum := by
  obtain ⟨needs, hn⟩ := exists_mapM_eq_ok
    (l := counts.filter fun entry => entry.1.domain = domain)
    fun entry he => (h entry (mem_of_mem_filter he)).exists_laneNeed entry.2 slot
  exact ⟨needs.sum, bind_eq_ok.mpr ⟨needs, hn, rfl⟩⟩

theorem Barrier.exists_requiredSums (h : ∀ entry ∈ counts, barrier.Known entry.1) (slot : Int) :
    ∃ required, barrier.requiredSums counts slot = .ok required := by
  refine exists_mapM_eq_ok fun r _ => ?_
  obtain ⟨sum, hs⟩ := Barrier.exists_plainSum h r.index slot
  exact ⟨(r, sum), bind_eq_ok.mpr ⟨sum, hs, rfl⟩⟩

theorem Barrier.laneNeed_bound {latency need : Int} (hrt : 0 < key.ratio)
    (hl : barrier.latencyFor key.domain key.ratio = .ok latency)
    (hr : barrier.HasRoom latency slot)
    (hc : ∀ round, barrier.rounds = [round] → count.get round = count.total)
    (h : barrier.laneNeed key count slot = .ok need) : (count.total : Int) ≤ need * key.ratio := by
  -- the shared term alone already has a wire for every `ratio` hops
  have hs : ∀ available : Int, 0 < available →
      (count.total : Int) ≤ ceilDiv count.total (min key.ratio available) * key.ratio := by
    intro available hp
    have hm : 0 < min key.ratio available := lt_min hrt hp
    calc (count.total : Int)
        ≤ ceilDiv count.total (min key.ratio available) * min key.ratio available :=
          le_ceilDiv_mul hm
      _ ≤ ceilDiv count.total (min key.ratio available) * key.ratio :=
          mul_le_mul_of_nonneg_left (min_le_left _ _) (ceilDiv_nonneg (by omega) hm)
  unfold Barrier.laneNeed at h
  unfold Barrier.HasRoom at hr
  rw [hl] at h
  dsimp only [bind, Except.bind] at h
  split at h
  · next round hrn =>
    rw [hrn] at hr
    dsimp only at hr
    rw [if_neg (by omega), hc round hrn, ceilDivide_eq (lt_min hrt hr)] at h
    cases h
    exact hs _ hr
  · next hrn =>
    split at hr
    · next round hrd => exact absurd hrd (hrn round)
    obtain ⟨h1, h2⟩ := hr
    have hp : 0 < slot - latency + (barrier.lastLaunch latency - slot) := by omega
    rw [if_neg (by omega), ceilDivide_eq (lt_min hrt hp), ceilDivide_eq (by omega),
      ceilDivide_eq (by omega)] at h
    cases h
    refine (hs _ hp).trans (mul_le_mul_of_nonneg_right ?_ hrt.le)
    exact (le_max_left _ _).trans (le_max_left _ _)

/-! ## boundaries -/

/-- A bucket the run can have: its domain has a hop and its ratio is at most the largest. -/
structure Barrier.LegalKey (barrier : Barrier) (maxRatio : Int) (key : BucketKey) : Prop where
  ratio_pos : 0 < key.ratio
  ratio_le : key.ratio ≤ maxRatio
  domain_used : ∃ hop ∈ barrier.hops, hop.domain = key.domain

/-- With the boundary at `slot` every such bucket has room. -/
def Barrier.Room (barrier : Barrier) (maxRatio slot : Int) : Prop :=
  ∀ key, barrier.LegalKey maxRatio key →
    ∃ latency, barrier.latencyFor key.domain key.ratio = .ok latency ∧ barrier.HasRoom latency slot

theorem Barrier.Room.known (h : barrier.Room maxRatio slot) (hk : barrier.LegalKey maxRatio key) :
    barrier.Known key := by
  obtain ⟨latency, hl, -⟩ := h key hk
  exact ⟨hk.ratio_pos, latency, hl⟩

theorem foldl_bestBoundary (best : Boundary) (candidates : List Boundary) :
    ∃ boundary, candidates.foldl bestBoundary (some best) = some boundary ∧
      (boundary = best ∨ boundary ∈ candidates) ∧
      ∀ c ∈ best :: candidates, boundary.score ≤ c.score := by
  induction candidates generalizing best with
  | nil => exact ⟨best, rfl, .inl rfl, by simp⟩
  | cons c rest ih =>
    rw [foldl_cons]
    by_cases hlt : c.score < best.score
    · rw [bestBoundary, if_pos hlt]
      obtain ⟨boundary, hf, hm, hle⟩ := ih c
      exact ⟨boundary, hf, .inr (mem_cons.mpr hm), forall_mem_cons.mpr
        ⟨(hle c mem_cons_self).trans hlt.le, hle⟩⟩
    · rw [bestBoundary, if_neg hlt]
      obtain ⟨boundary, hf, hm, hle⟩ := ih best
      obtain ⟨hb, hr⟩ := forall_mem_cons.mp hle
      exact ⟨boundary, hf, hm.imp_right (mem_cons_of_mem _), forall_mem_cons.mpr
        ⟨hb, forall_mem_cons.mpr ⟨hb.trans (not_lt.mp hlt), hr⟩⟩⟩

theorem exists_bestBoundary {candidates : List Boundary} (h : candidates ≠ []) :
    ∃ boundary ∈ candidates, candidates.foldl bestBoundary none = some boundary ∧
      ∀ c ∈ candidates, boundary.score ≤ c.score := by
  obtain ⟨first, rest, rfl⟩ := exists_cons_of_ne_nil h
  obtain ⟨boundary, hf, hm, hle⟩ := foldl_bestBoundary first rest
  exact ⟨boundary, mem_cons.mpr hm, hf, hle⟩

structure Barrier.LegalCounts (barrier : Barrier) (maxRatio : Int) (counts : BucketCounts) :
    Prop where
  ne_nil : counts ≠ []
  keys : ∀ entry ∈ counts, barrier.LegalKey maxRatio entry.1

theorem Barrier.Room.exists_slotRange (h : barrier.Room maxRatio slot)
    (hr : ∀ round, barrier.rounds ≠ [round]) (hc : barrier.LegalCounts maxRatio counts) :
    ∃ first last, barrier.slotRange counts = .ok (first, last) := by
  obtain ⟨latencies, hl⟩ := exists_mapM_eq_ok (l := counts)
    (f := fun entry => barrier.latencyFor entry.1.domain entry.1.ratio) fun entry he =>
      (h.known (hc.keys entry he)).2
  have hne : latencies ≠ [] := by
    obtain ⟨entry, he⟩ := exists_mem_of_ne_nil counts hc.ne_nil
    obtain ⟨latency, hmm, -⟩ := mem_mapM_of_mem hl he
    exact ne_nil_of_mem hmm
  obtain ⟨m, hm⟩ := Option.ne_none_iff_exists'.mp (mt List.max?_eq_none_iff.mp hne)
  have hmax := maximumOf_eq_ok.mpr hm
  obtain ⟨entry, he, hlt⟩ := exists_of_mem_mapM hl (maximumOf_spec hmax).1
  -- the slot where all have room lies inside the range of the largest latency
  obtain ⟨latency, hlt', hrm⟩ := h entry.1 (hc.keys entry he)
  obtain rfl : m = latency := Except.ok.inj (hlt.symm.trans hlt')
  obtain ⟨h1, h2⟩ := (Barrier.hasRoom_iff hr).mp hrm
  exact ⟨_, _, bind_eq_ok.mpr ⟨latencies, hl, bind_eq_ok.mpr ⟨m, hmax,
    raiseIf_bind.mpr ⟨by omega, rfl⟩⟩⟩⟩

theorem Barrier.Room.exists_boundary (h : barrier.Room maxRatio slot)
    (hdelays : barrier.DelaysNonneg) (hcn : barrier.LegalCounts maxRatio counts) :
    ∃ boundary, barrier.boundaryScore counts = .ok boundary := by
  rw [Barrier.boundaryScore_eq hdelays fun entry he => (hcn.keys entry he).ratio_pos]
  have hk : ∀ entry ∈ counts, barrier.Known entry.1 :=
    fun entry he => h.known (hcn.keys entry he)
  unfold Barrier.directScore
  dsimp only
  split
  · obtain ⟨required, hr⟩ := Barrier.exists_requiredSums hk 0
    exact ⟨_, bind_eq_ok.mpr ⟨required, hr, rfl⟩⟩
  next hrd =>
  obtain ⟨first, last, hrn⟩ := h.exists_slotRange hrd hcn
  have hle := (Barrier.slotRange_eq_ok hrn).first_le
  obtain ⟨cands, hc⟩ := exists_mapM_eq_ok (l := slots first last) (f := fun slot => do
      let required ← barrier.requiredSums counts slot
      return boundaryAt required slot
        |slot - (barrier.model.constraints.frameSlots : Int) / 2|) fun slot _ => by
    obtain ⟨required, hr⟩ := Barrier.exists_requiredSums hk slot
    exact ⟨_, bind_eq_ok.mpr ⟨required, hr, rfl⟩⟩
  obtain ⟨c, hcd, -⟩ := mem_mapM_of_mem hc (mem_slots.mpr ⟨le_rfl, hle⟩)
  obtain ⟨boundary, -, hb, -⟩ := exists_bestBoundary (ne_nil_of_mem hcd)
  refine ⟨boundary, bind_eq_ok.mpr ⟨(first, last), hrn, bind_eq_ok.mpr
    ⟨cands, hc, ?_⟩⟩⟩
  rw [hb]
  rfl

/-- What a boundary says: its required lanes are the plain sums at its slot, at which every bucket
has room, and its excess is the least of the slots at which every bucket has. -/
structure Barrier.BoundaryOf (barrier : Barrier) (counts : BucketCounts) (boundary : Boundary)
    (required : List (RatioDomain × Int)) (distance : Int) : Prop where
  sums : barrier.requiredSums counts boundary.sourceReadySlot = .ok required
  boundary_eq : boundary = boundaryAt required boundary.sourceReadySlot distance
  latency : (∀ round, barrier.rounds ≠ [round]) → ∀ entry ∈ counts, ∃ latency,
    barrier.latencyFor entry.1.domain entry.1.ratio = .ok latency ∧
      barrier.HasRoom latency boundary.sourceReadySlot
  least : ∀ slot other, barrier.requiredSums counts slot = .ok other →
    (∀ entry ∈ counts, ∃ latency, barrier.latencyFor entry.1.domain entry.1.ratio = .ok latency ∧
      barrier.HasRoom latency slot) → boundary.maxExcess ≤ maxDefault (excesses other)

theorem Barrier.requiredSums_one {round : Int} (hr : barrier.rounds = [round]) (slot : Int) :
    barrier.requiredSums counts slot = barrier.requiredSums counts 0 := by
  unfold Barrier.requiredSums Barrier.plainSum Barrier.laneNeed
  simp only [hr]

theorem Barrier.InRange.mem_slots {first last : Int} (h : barrier.InRange counts first last)
    (hrn : ∀ round, barrier.rounds ≠ [round])
    (hr : ∀ entry ∈ counts, ∃ latency,
      barrier.latencyFor entry.1.domain entry.1.ratio = .ok latency ∧
        barrier.HasRoom latency slot) :
    slot ∈ slots first last := by
  obtain ⟨entry, he, ha⟩ := h.attained
  obtain ⟨latency, hl, hr⟩ := hr entry he
  obtain rfl : first - 1 = latency := Except.ok.inj (ha.symm.trans hl)
  obtain ⟨haf, hb⟩ := (Barrier.hasRoom_iff hrn).mp hr
  have hs := h.sum_eq
  unfold Barrier.lastLaunch at hs hb
  exact DifferenceArray.mem_slots.mpr ⟨by omega, by omega⟩

theorem Barrier.boundaryScore_eq_ok {boundary : Boundary} (hdelays : barrier.DelaysNonneg)
    (hrt : ∀ entry ∈ counts, 0 < entry.1.ratio)
    (h : barrier.boundaryScore counts = .ok boundary) :
    ∃ required distance, barrier.BoundaryOf counts boundary required distance := by
  rw [Barrier.boundaryScore_eq hdelays hrt] at h
  unfold Barrier.directScore at h
  dsimp only at h
  split at h
  · next round hrd =>
    obtain ⟨required, hrq, h⟩ := bind_eq_ok.mp h
    obtain rfl := Except.ok.inj h
    refine ⟨required, _, hrq, rfl, fun hrn => absurd hrd (hrn round),
      fun slot other hot _ => ?_⟩
    rw [Barrier.requiredSums_one hrd, hrq] at hot
    obtain rfl := Except.ok.inj hot
    exact le_rfl
  next hrn =>
  obtain ⟨⟨first, last⟩, hrg, h⟩ := bind_eq_ok.mp h
  obtain ⟨cands, hcn, h⟩ := bind_eq_ok.mp h
  split at h
  · cases h
  next best hbs =>
  obtain rfl := Except.ok.inj h
  have hne : cands ≠ [] := by
    rintro rfl
    cases hbs
  obtain ⟨boundary, hmm, hbs', hls⟩ := exists_bestBoundary hne
  obtain rfl : best = boundary := Option.some.inj (hbs.symm.trans hbs')
  have hin := Barrier.slotRange_eq_ok hrg
  obtain ⟨slot, hsl, hat⟩ := exists_of_mem_mapM hcn hmm
  obtain ⟨required, hrq, hat⟩ := bind_eq_ok.mp hat
  obtain rfl := Except.ok.inj hat
  refine ⟨required, _, hrq, rfl, fun _ entry hen => ?_, fun slot other hot hrm => ?_⟩
  · obtain ⟨latency, hln, h1, h2⟩ := hin.latency entry hen
    obtain ⟨h3, h4⟩ := mem_slots.mp hsl
    refine ⟨latency, hln, (Barrier.hasRoom_iff hrn).mpr ⟨?_, ?_⟩⟩
    · exact h1.trans_le h3
    · exact h4.trans_lt h2
  · -- the slot is among the candidates
    obtain ⟨c, hcd, hat⟩ :=
      mem_mapM_of_mem hcn (hin.mem_slots hrn hrm)
    obtain ⟨required', hrq', hat⟩ := bind_eq_ok.mp hat
    obtain rfl : other = required' := Except.ok.inj (hot.symm.trans hrq')
    obtain rfl := Except.ok.inj hat
    rcases Prod.Lex.toLex_le_toLex.mp (hls _ hcd) with hlt | ⟨heq, -⟩
    · exact hlt.le
    · exact heq.le

/-! ## one promotion -/

structure Barrier.LegalHops (barrier : Barrier) (maxRatio : Int) (hops : List PlanHop) : Prop where
  ne_nil : hops ≠ []
  keys : ∀ hop ∈ hops, barrier.LegalKey maxRatio hop.bucketKey
  rounds : ∀ hop ∈ hops, hop.transportRound ∈ barrier.rounds

variable {entry : BucketKey × RoundCounts} {hops : List PlanHop}

theorem mem_countsByBucket : entry ∈ countsByBucket hops ↔
      ∃ hop ∈ hops, hop.bucketKey = entry.1 ∧ entry.2 = roundCounts (bucketHops hops entry.1) := by
  simp only [countsByBucket, bucketKeys, mem_map, mem_dedup]
  constructor
  · rintro ⟨key, ⟨hop, hh, rfl⟩, rfl⟩
    exact ⟨hop, hh, rfl, rfl⟩
  · rintro ⟨hop, hh, hk, hc⟩
    exact ⟨entry.1, ⟨hop, hh, hk⟩, Prod.ext rfl hc.symm⟩

theorem bucket_mem_countsByBucket {hop : PlanHop} (h : hop ∈ hops) :
    (hop.bucketKey, roundCounts (bucketHops hops hop.bucketKey)) ∈ countsByBucket hops :=
  mem_countsByBucket.mpr ⟨hop, h, rfl, rfl⟩

theorem Barrier.LegalHops.legalKey (h : barrier.LegalHops maxRatio hops)
    (he : entry ∈ countsByBucket hops) : barrier.LegalKey maxRatio entry.1 := by
  obtain ⟨hop, hh, hk, -⟩ := mem_countsByBucket.mp he
  exact hk ▸ h.keys hop hh

theorem Barrier.LegalHops.legalCounts (h : barrier.LegalHops maxRatio hops) :
    barrier.LegalCounts maxRatio (countsByBucket hops) where
  ne_nil := by
    obtain ⟨hop, hh⟩ := exists_mem_of_ne_nil hops h.ne_nil
    exact ne_nil_of_mem (bucket_mem_countsByBucket hh)
  keys := fun _ he => h.legalKey he

theorem Barrier.LegalKey.withRatio (h : barrier.LegalKey maxRatio key) {target : Int}
    (hp : key.ratio < target) (hle : target ≤ maxRatio) :
    barrier.LegalKey maxRatio (key.withRatio target) where
  ratio_pos := h.ratio_pos.trans hp
  ratio_le := hle
  domain_used := h.domain_used

/-- A ratio that a promotion can go up to: one in use, a multiple of the quantum or the largest. -/
def Rung (quantum maxRatio : Int) (hops : List PlanHop) (target : Int) : Prop :=
  (∃ hop ∈ hops, hop.discreteRatio = target) ∨ quantum ∣ target ∨ target = maxRatio

instance {hops : List PlanHop} {target : Int} : Decidable (Rung quantum maxRatio hops target) :=
  inferInstanceAs (Decidable (_ ∨ _))

theorem mem_higherRatios {total before target : Int} (h : barrier.LegalHops maxRatio s.hops)
    (hk : barrier.LegalKey maxRatio key) (hlt : key.ratio < maxRatio)
    (ht : target ∈ higherRatios s.hops quantum maxRatio key total before) :
    key.ratio < target ∧ target ≤ maxRatio ∧ Rung quantum maxRatio s.hops target := by
  unfold higherRatios at ht
  rw [mem_sortedSet, List.mem_append, List.mem_append] at ht
  rcases ht with (he | hth) | hmax
  · obtain ⟨other, ho, rfl⟩ := mem_map.mp he
    obtain ⟨hm, ho⟩ := mem_filter.mp ho
    obtain ⟨hop, hh, rfl⟩ := mem_map.mp (mem_dedup.mp hm)
    simp only [decide_eq_true_eq] at ho
    exact ⟨ho.2.2, (h.keys hop hh).ratio_le, .inl ⟨hop, hh, rfl⟩⟩
  · obtain ⟨hm, hr⟩ := mem_filter.mp hth
    obtain ⟨hgt, hle⟩ := of_decide_eq_true hr
    refine ⟨hgt, hle, .inr (.inl ?_)⟩
    obtain ⟨lanes, -, rfl⟩ := mem_map.mp hm
    have hp := hk.ratio_pos
    -- a threshold of one is not above the ratio
    unfold thresholdRatio at hgt ⊢
    dsimp only at hgt ⊢
    split at hgt
    · omega
    · next hmn =>
      rw [if_neg hmn]
      exact dvd_mul_left ..
  · obtain rfl := mem_singleton.mp hmax
    exact ⟨hlt, le_rfl, .inr (.inr rfl)⟩

theorem maxRatio_mem_higherRatios {total before : Int} :
    maxRatio ∈ higherRatios s.hops quantum maxRatio key total before := by
  rw [higherRatios, mem_sortedSet]
  simp

def choiceOf : Candidate ⊕ Migration → Candidate := Sum.elim id Migration.toCandidate

theorem Barrier.Room.exists_lanesAfter (h : barrier.Room maxRatio slot) {targetKey : BucketKey}
    (hk : barrier.LegalKey maxRatio key) (htr : barrier.LegalKey maxRatio targetKey)
    (counts : BucketCounts) (at_ before : Int) (count merged : RoundCounts) :
    ∃ after, barrier.lanesAfter counts at_ before key targetKey count merged = .ok after := by
  obtain ⟨own, how⟩ := (h.known hk).exists_laneNeed count at_
  obtain ⟨together, ht⟩ := (h.known htr).exists_laneNeed merged at_
  unfold Barrier.lanesAfter
  cases hc : countsOf counts targetKey with
  | none =>
    exact ⟨_, bind_eq_ok.mpr ⟨own, how, bind_eq_ok.mpr ⟨0, rfl,
      bind_eq_ok.mpr ⟨together, ht, rfl⟩⟩⟩⟩
  | some targetCount =>
    obtain ⟨other, ho⟩ := (h.known htr).exists_laneNeed targetCount at_
    exact ⟨_, bind_eq_ok.mpr ⟨own, how, bind_eq_ok.mpr ⟨other, ho,
      bind_eq_ok.mpr ⟨together, ht, rfl⟩⟩⟩⟩

theorem Barrier.LegalHops.candidateCounts
    (h : barrier.LegalHops maxRatio hops) {targetKey : BucketKey}
    (ht : barrier.LegalKey maxRatio targetKey) (key : BucketKey) (merged : RoundCounts) :
    barrier.LegalCounts maxRatio (candidateCounts (countsByBucket hops) key targetKey merged) where
  ne_nil := by simp [TdmRatio.candidateCounts]
  keys := by
    intro entry he
    rcases List.mem_append.mp he with he | he
    · exact h.legalKey (mem_of_mem_filter he)
    · obtain rfl := mem_singleton.mp he
      exact ht

section

variable (h : barrier.Room maxRatio slot) (hdelays : barrier.DelaysNonneg)
  (hhops : barrier.LegalHops maxRatio s.hops)
include h hdelays hhops

theorem Barrier.Room.exists_evaluateTarget
    {before target : Int} (hk : barrier.LegalKey maxRatio key)
    (ht : barrier.LegalKey maxRatio (key.withRatio target)) :
    ∃ c, barrier.evaluateTarget s key count before target = .ok c ∧
      (choiceOf c).key = key ∧ (choiceOf c).target = target := by
  obtain ⟨after, ha⟩ := h.exists_lanesAfter hk ht (countsByBucket s.hops)
    s.boundary.sourceReadySlot before count
    (mergedCount (countsByBucket s.hops) (key.withRatio target) count)
  obtain ⟨boundary, hb⟩ := h.exists_boundary hdelays (hhops.candidateCounts ht key
    (mergedCount (countsByBucket s.hops) (key.withRatio target) count))
  unfold Barrier.evaluateTarget
  dsimp only
  rw [ha]
  dsimp only [bind, Except.bind]
  by_cases hs : 0 < before - after
  · rw [if_pos hs]
    exact ⟨_, rfl, rfl, rfl⟩
  · rw [if_neg hs, hb]
    exact ⟨_, rfl, rfl, rfl⟩

theorem Barrier.Room.exists_evaluateBucket (he : entry ∈ countsByBucket s.hops)
    (hlt : entry.1.ratio < maxRatio) :
    ∃ choices, barrier.evaluateBucket maxRatio quantum s entry = .ok choices ∧ choices ≠ [] ∧
      ∀ c ∈ choices, (choiceOf c).key = entry.1 ∧
        entry.1.ratio < (choiceOf c).target ∧ (choiceOf c).target ≤ maxRatio ∧
        Rung quantum maxRatio s.hops (choiceOf c).target := by
  have hky := hhops.legalKey he
  obtain ⟨before, hb⟩ := Barrier.exists_plainSum
    (fun entry he => h.known (hhops.legalKey he)) entry.1.domain s.boundary.sourceReadySlot
  have hec : ∀ target ∈ higherRatios s.hops quantum maxRatio entry.1 entry.2.total before,
      ∃ c, barrier.evaluateTarget s entry.1 entry.2 before target = .ok c ∧
        (choiceOf c).key = entry.1 ∧
        entry.1.ratio < (choiceOf c).target ∧ (choiceOf c).target ≤ maxRatio ∧
        Rung quantum maxRatio s.hops (choiceOf c).target := by
    intro target htr
    obtain ⟨h1, h2, hr⟩ := mem_higherRatios hhops hky hlt htr
    obtain ⟨c, hcc, hk, ht⟩ :=
      h.exists_evaluateTarget hdelays hhops hky (hky.withRatio h1 h2)
    exact ⟨c, hcc, hk, ht.symm ▸ ⟨h1, h2, hr⟩⟩
  obtain ⟨choices, hch⟩ := exists_mapM_eq_ok fun target htr =>
    (hec target htr).imp fun _ hc => hc.1
  refine ⟨choices, bind_eq_ok.mpr ⟨before, hb, hch⟩, ?_, fun c hcc => ?_⟩
  · obtain ⟨c, hm, -⟩ := mem_mapM_of_mem hch maxRatio_mem_higherRatios
    exact ne_nil_of_mem hm
  · obtain ⟨target, htr, hok⟩ := exists_of_mem_mapM hch hcc
    obtain ⟨choice', hok', hs⟩ := hec target htr
    obtain rfl : c = choice' := Except.ok.inj (hok.symm.trans hok')
    exact hs

end

theorem head?_sortedBy_ne_none {α κ : Type} [LinearOrder κ] {order : α → κ} {l : List α} {a : α}
    (h : a ∈ l) : (sortedBy order l).head? ≠ none := by
  rw [ne_eq, List.head?_eq_none_iff]
  exact ne_nil_of_mem (mem_sortedBy.mpr h)

theorem selectPromotion_spec (choices : List (Candidate ⊕ Migration)) :
    (choices = [] → ∃ e, selectPromotion choices = .error e) ∧
      (choices ≠ [] → ∃ choice ∈ choices, selectPromotion choices = .ok (choiceOf choice)) := by
  refine ⟨fun h => ⟨_, by rw [h]; rfl⟩, fun h => ?_⟩
  unfold selectPromotion
  split
  · next candidate hh =>
    have hm := mem_sortedBy.mp (List.mem_of_mem_head? hh)
    obtain ⟨choice, hc, hl⟩ := mem_filterMap.mp hm
    cases choice with
    | inl c =>
      obtain rfl : c = candidate := by simpa using hl
      exact ⟨_, hc, rfl⟩
    | inr m => simp at hl
  · next hn =>
    split
    · next migration hh =>
      have hm := mem_sortedBy.mp (List.mem_of_mem_head? hh)
      obtain ⟨choice, hc, hr⟩ := mem_filterMap.mp hm
      cases choice with
      | inl c => simp at hr
      | inr m =>
        obtain rfl : m = migration := by simpa using hr
        exact ⟨_, hc, rfl⟩
    · next hn' =>
      -- every choice is of one of the two kinds
      obtain ⟨choice, hc⟩ := exists_mem_of_ne_nil choices h
      cases choice with
      | inl c =>
        exact absurd hn (head?_sortedBy_ne_none (mem_filterMap.mpr ⟨_, hc, rfl⟩))
      | inr m =>
        exact absurd hn' (head?_sortedBy_ne_none (mem_filterMap.mpr ⟨_, hc, rfl⟩))

structure Barrier.Inv (barrier : Barrier) (maxRatio : Int) (s : LegalizeState) : Prop where
  hops : barrier.LegalHops maxRatio s.hops
  boundary : barrier.boundaryScore (countsByBucket s.hops) = .ok s.boundary

/-- A domain that fails at the chosen boundary has a hop below the largest ratio, and the promotions
have not come to their limit. -/
def Barrier.Live (barrier : Barrier) (maxRatio : Int) (s : LegalizeState) : Prop :=
  s.promotionSteps < 1024 ∧
    ∃ hop ∈ s.hops, barrier.failing s.boundary hop.domain = true ∧ hop.discreteRatio < maxRatio

instance : Decidable (barrier.Live maxRatio s) := inferInstanceAs (Decidable (_ ∧ _))

theorem mem_promotable : entry ∈ barrier.promotable maxRatio s ↔ entry ∈ countsByBucket s.hops ∧
      barrier.failing s.boundary entry.1.domain = true ∧ entry.1.ratio < maxRatio := by
  rw [Barrier.promotable, mem_filter, mem_sortedBy]
  simp

theorem promotable_ne_nil_iff : barrier.promotable maxRatio s ≠ [] ↔
    ∃ hop ∈ s.hops, barrier.failing s.boundary hop.domain = true ∧
      hop.discreteRatio < maxRatio := by
  constructor
  · intro h
    obtain ⟨entry, he⟩ := exists_mem_of_ne_nil _ h
    obtain ⟨hm, hf, hlt⟩ := mem_promotable.mp he
    obtain ⟨hop, hh, hk, -⟩ := mem_countsByBucket.mp hm
    rw [← hk] at hf hlt
    exact ⟨hop, hh, hf, hlt⟩
  · rintro ⟨hop, hh, hf, hlt⟩
    have he : (hop.bucketKey, roundCounts (bucketHops s.hops hop.bucketKey)) ∈
        barrier.promotable maxRatio s :=
      mem_promotable.mpr ⟨bucket_mem_countsByBucket hh, hf, hlt⟩
    exact ne_nil_of_mem he

theorem Barrier.LegalHops.promote (h : barrier.LegalHops maxRatio hops)
    {target : Int} (hk : barrier.LegalKey maxRatio (key.withRatio target)) :
    barrier.LegalHops maxRatio (promoteHops hops key target) where
  ne_nil := by simpa [promoteHops] using h.ne_nil
  keys := by
    intro hop hm
    obtain ⟨old, ho, rfl⟩ := mem_map.mp hm
    by_cases hs : old.bucketKey = key
    · rw [if_pos hs]
      have hn : ({ old with discreteRatio := target } : PlanHop).bucketKey =
          key.withRatio target := by
        rw [← hs]
        rfl
      exact hn ▸ hk
    · rw [if_neg hs]
      exact h.keys old ho
  rounds := by
    intro hop hm
    obtain ⟨old, ho, rfl⟩ := mem_map.mp hm
    have := h.rounds old ho
    split <;> exact this

/-- A choice of a bucket in use and of a rung above its ratio. -/
structure Promotes (quantum maxRatio : Int) (hops : List PlanHop) (choice : Candidate) : Prop where
  exists_hop : ∃ hop ∈ hops, hop.bucketKey = choice.key
  ratio_lt : choice.key.ratio < choice.target
  target_le : choice.target ≤ maxRatio
  rung : Rung quantum maxRatio hops choice.target

theorem Barrier.Room.exists_choices (quantum : Int) (h : barrier.Room maxRatio slot)
    (hdelays : barrier.DelaysNonneg) (hin : barrier.Inv maxRatio s) :
    ∃ choices, (barrier.promotable maxRatio s).mapM (barrier.evaluateBucket maxRatio quantum s) =
        .ok choices ∧ (choices.flatten = [] ↔ barrier.promotable maxRatio s = []) ∧
      ∀ c ∈ choices.flatten, Promotes quantum maxRatio s.hops (choiceOf c) := by
  have hec : ∀ entry ∈ barrier.promotable maxRatio s, ∃ choices,
      barrier.evaluateBucket maxRatio quantum s entry = .ok choices ∧ choices ≠ [] ∧
        ∀ c ∈ choices, (choiceOf c).key = entry.1 ∧
          entry.1.ratio < (choiceOf c).target ∧ (choiceOf c).target ≤ maxRatio ∧
          Rung quantum maxRatio s.hops (choiceOf c).target := by
    intro entry hen
    obtain ⟨hmm, -, hlt⟩ := mem_promotable.mp hen
    exact h.exists_evaluateBucket hdelays hin.hops hmm hlt
  obtain ⟨choices, hch⟩ := exists_mapM_eq_ok fun entry hen =>
    (hec entry hen).imp fun _ hc => hc.1
  have hsp : ∀ own ∈ choices, own ≠ [] ∧
      ∀ c ∈ own, Promotes quantum maxRatio s.hops (choiceOf c) := by
    intro own how
    obtain ⟨entry, hen, hok⟩ := exists_of_mem_mapM hch how
    obtain ⟨own', hok', hne, hal⟩ := hec entry hen
    obtain rfl : own = own' := Except.ok.inj (hok.symm.trans hok')
    obtain ⟨hop, hhp, hky, -⟩ := mem_countsByBucket.mp (mem_promotable.mp hen).1
    refine ⟨hne, fun c hcc => ?_⟩
    obtain ⟨hsm, hlt, hle, hrn⟩ := hal c hcc
    exact ⟨⟨hop, hhp, hky.trans hsm.symm⟩, hsm.symm ▸ hlt, hle, hrn⟩
  refine ⟨choices, hch, ⟨fun hem => ?_, fun hem => ?_⟩, fun c hcc => ?_⟩
  · rw [flatten_eq_nil_iff] at hem
    rw [eq_nil_iff_forall_not_mem]
    intro entry hen
    obtain ⟨own, how, -⟩ := mem_mapM_of_mem hch hen
    exact (hsp own how).1 (hem own how)
  · rw [hem] at hch
    rw [mapM_nil_eq_ok.mp hch]
    rfl
  · obtain ⟨own, how, hmm⟩ := mem_flatten.mp hcc
    exact (hsp own how).2 c hmm

theorem Barrier.Room.exists_promote (quantum : Int) (h : barrier.Room maxRatio slot)
    (hdelays : barrier.DelaysNonneg) (hi : barrier.Inv maxRatio s)
    (hl : barrier.Live maxRatio s) :
    ∃ s' c, barrier.promote maxRatio quantum s = .ok s' ∧ barrier.Inv maxRatio s' ∧
      s'.promotionSteps = s.promotionSteps + 1 ∧ Promotes quantum maxRatio s.hops c ∧
      s'.hops = promoteHops s.hops c.key c.target := by
  obtain ⟨choices, hc, he, hpm⟩ := h.exists_choices quantum hdelays hi
  have hne : choices.flatten ≠ [] := mt he.mp (promotable_ne_nil_iff.mpr hl.2)
  obtain ⟨c, hm, hs⟩ := (selectPromotion_spec choices.flatten).2 hne
  have hp := hpm c hm
  obtain ⟨hop, hh, hk⟩ := hp.exists_hop
  have hhops := hi.hops.promote
    ((hk ▸ hi.hops.keys hop hh).withRatio hp.ratio_lt hp.target_le)
  obtain ⟨boundary, hb⟩ := h.exists_boundary hdelays hhops.legalCounts
  refine ⟨_, _, bind_eq_ok.mpr ⟨choices, hc, bind_eq_ok.mpr ⟨_, hs,
    raiseIf_bind.mpr ⟨?_, bind_eq_ok.mpr ⟨boundary, hb, rfl⟩⟩⟩⟩, ?_, rfl, hp, rfl⟩
  · have := hl.1
    omega
  · exact ⟨hhops, hb⟩

/-- A promotion succeeds exactly in a live state. -/
theorem promote_isOk_iff (h : barrier.Room maxRatio slot) (hdelays : barrier.DelaysNonneg)
    (hi : barrier.Inv maxRatio s) :
    (∃ s', barrier.promote maxRatio quantum s = .ok s') ↔ barrier.Live maxRatio s := by
  refine ⟨?_, fun hl => (h.exists_promote quantum hdelays hi hl).imp fun _ hs => hs.choose_spec.1⟩
  rintro ⟨s', hs⟩
  obtain ⟨choices, hc, hem, -⟩ := h.exists_choices quantum hdelays hi
  obtain ⟨choices', hc', hs⟩ := bind_eq_ok.mp hs
  obtain rfl : choices = choices' := Except.ok.inj (hc.symm.trans hc')
  obtain ⟨selected, hsl, hs⟩ := bind_eq_ok.mp hs
  obtain ⟨hlm, -⟩ := raiseIf_bind.mp hs
  refine ⟨by omega, promotable_ne_nil_iff.mp fun hn => ?_⟩
  obtain ⟨e, he⟩ := (selectPromotion_spec choices.flatten).1 (hem.mpr hn)
  rw [he] at hsl
  cases hsl

end EmuFlow.TdmRatio
