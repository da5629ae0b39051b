import EmuFlow.Chimew.RefineRun

/-!
# The objective of exact positions

Where the positions are on one grid, few and small enough, no sum of the objective is rounded. It is
then the sum of the distances in each group, whatever order the groups are taken in, and a deal that
widens the groups does so by more than the margin.
-/

namespace EmuFlow.Chimew

open Binary64 SortedSet List

/-! ## the terms of a group -/

def exactTerms : ℕ → ℚ → List ℚ → List ℚ
  | _, _, [] => []
  | index, before, value :: values =>
    (value * index - before) :: exactTerms (index + 1) (before + value) values

theorem exactTerms_nonneg : ∀ {values : List ℚ} {index : ℕ} {before : ℚ},
    values.Pairwise (· ≤ ·) → (∀ v ∈ values, before ≤ v * index) →
    ∀ t ∈ exactTerms index before values, 0 ≤ t
  | [], _, _, _, _, _, ht => absurd ht not_mem_nil
  | value :: values, index, before, hs, hb, t, ht => by
    obtain ⟨hvl, hs⟩ := pairwise_cons.mp hs
    obtain ⟨hf, hr⟩ := forall_mem_cons.mp hb
    rcases mem_cons.mp ht with rfl | ht
    · linarith
    · refine exactTerms_nonneg hs (fun v hv => ?_) t ht
      push_cast
      linarith [hvl v hv, hr v hv]

variable {k : ℤ}

/-- The terms of at most `count` values of magnitudes up to `total` in all. -/
theorem pairTerms_eq {total : ℚ} {count : ℕ} (hk : -1074 ≤ k)
    (hrm : 2 * count * total < 2 ^ 53 * 2 ^ k) :
    ∀ {values : List ℚ} {index : ℕ} {before : ℚ}, (∀ v ∈ values, v ∈ grid k) → before ∈ grid k →
      index + values.length ≤ count → |before| + (values.map abs).sum ≤ total →
      pairTerms index before values = exactTerms index before values ∧
        (∀ t ∈ exactTerms index before values, t ∈ grid k) ∧
        ((exactTerms index before values).map abs).sum ≤
          count * (values.map abs).sum + values.length * total
  | [], _, _, _, _, _, _ => by simp [pairTerms, exactTerms]
  | value :: values, index, before, hgr, hbf, hcn, htt => by
    obtain ⟨hvl, hvs⟩ := forall_mem_cons.mp hgr
    rw [length_cons] at hcn
    rw [map_cons, sum_cons] at htt
    have hrs := sum_abs_nonneg values
    have hbr := abs_nonneg before
    have hab : |value| ≤ total := by linarith
    have hnn : 0 ≤ total := (abs_nonneg value).trans hab
    have hin : (index : ℚ) + 1 ≤ count := by
      have hlt : index + 1 ≤ count := by omega
      exact_mod_cast hlt
    have hon : total ≤ count * total :=
      le_mul_of_one_le_left hnn (by linarith [(Nat.cast_nonneg index : (0 : ℚ) ≤ index)])
    have hpr : |value * index| ≤ count * |value| := by
      rw [abs_mul, Nat.abs_cast, mul_comm]
      exact mul_le_mul_of_nonneg_right (by linarith) (abs_nonneg value)
    have hle : count * |value| ≤ count * total :=
      mul_le_mul_of_nonneg_left hab (Nat.cast_nonneg count)
    have hmm : value * index ∈ grid k := by exact_mod_cast intCast_mul_mem_grid hvl index
    have htm : |value * index - before| ≤ count * |value| + total :=
      (abs_sub _ _).trans (by linarith [abs_nonneg value])
    have hml : mul value index = value * index := round_eq hk hmm (by linarith)
    have hsb : sub (value * index) before = value * index - before :=
      round_eq hk ((grid k).sub_mem hmm hbf) (by linarith)
    have had : add before value = before + value :=
      round_eq hk ((grid k).add_mem hbf hvl) (by linarith [abs_add_le before value])
    have hcn' : index + 1 + values.length ≤ count := by omega
    obtain ⟨heq, htr, hsm⟩ := pairTerms_eq hk hrm hvs
      ((grid k).add_mem hbf hvl) hcn' (by linarith [abs_add_le before value])
    rw [pairTerms, exactTerms, hml, hsb, had, heq]
    refine ⟨rfl, forall_mem_cons.mpr ⟨(grid k).sub_mem hmm hbf, htr⟩, ?_⟩
    simp only [map_cons, sum_cons, length_cons]
    push_cast
    linarith

/-! ## the objective -/

variable {ι : Type} {sourceY : ι → ℚ} {signals : List ι} {groups groups' : List ℕ}

def exactObjective (sourceY : ι → ℚ) (members : ℕ → List ι) (groups : List ℕ) : ℚ :=
  (groups.flatMap fun group => exactTerms 0 0 (sorted ((members group).map sourceY))).sum

theorem exactObjective_perm (members : ℕ → List ι) (h : groups.Perm groups') :
    exactObjective sourceY members groups = exactObjective sourceY members groups' :=
  (h.flatMap_right _).sum_eq

theorem exactObjective_append (members : ℕ → List ι) (groups groups' : List ℕ) :
    exactObjective sourceY members (groups ++ groups') =
      exactObjective sourceY members groups + exactObjective sourceY members groups' := by
  unfold exactObjective
  rw [flatMap_append, sum_append]

theorem exactObjective_nonneg (members : ℕ → List ι) :
    0 ≤ exactObjective sourceY members groups := by
  refine sum_nonneg fun t ht => ?_
  obtain ⟨g, -, ht⟩ := mem_flatMap.mp ht
  exact exactTerms_nonneg (pairwise_sortedBy id _) (by simp) t ht

/-- The positions of the signals are on one grid, and no sum of the objective leaves its range. -/
structure Exact (k : ℤ) (sourceY : ι → ℚ) (signals : List ι) : Prop where
  least : -38 ≤ k
  most : k ≤ 971
  mem_grid : ∀ i ∈ signals, sourceY i ∈ grid k
  sum_lt : 2 * signals.length * (signals.map fun i => |sourceY i|).sum < 2 ^ 52 * 2 ^ k

variable (sourceY) in
theorem sum_abs_le_of_subperm {gathered : List ι} (hs : gathered <+~ signals) :
    gathered.length ≤ signals.length ∧ (gathered.map fun i => |sourceY i|).sum ≤
      (signals.map fun i => |sourceY i|).sum := by
  obtain ⟨l, hp, hl⟩ := hs
  refine ⟨hp.length_eq ▸ hl.length_le, ?_⟩
  rw [← (hp.map _).sum_eq]
  exact (hl.map _).sum_le_sum (by simp)

/-- The terms of a group, of which the sums are exact. -/
theorem Exact.group (h : Exact k sourceY signals) {members : List ι}
    (hs : members <+~ signals) :
    pairTerms 0 0 (sorted (members.map sourceY)) =
        exactTerms 0 0 (sorted (members.map sourceY)) ∧
      (∀ t ∈ exactTerms 0 0 (sorted (members.map sourceY)), t ∈ grid k) ∧
      ((exactTerms 0 0 (sorted (members.map sourceY))).map abs).sum ≤
        signals.length * (members.map fun i => |sourceY i|).sum +
          members.length * (signals.map fun i => |sourceY i|).sum := by
  obtain ⟨hl, hsm⟩ := sum_abs_le_of_subperm sourceY hs
  have hp : (sorted (members.map sourceY)).Perm (members.map sourceY) := sortedBy_perm id _
  have ha : ((sorted (members.map sourceY)).map abs).sum =
      (members.map fun i => |sourceY i|).sum := by
    rw [(hp.map abs).sum_eq, map_map]
    rfl
  have hr : 2 * (signals.length : ℚ) * (signals.map fun i => |sourceY i|).sum <
      2 ^ 53 * 2 ^ k := h.sum_lt.trans (by linarith [two_pow_pos k])
  have hls := h.least
  have ht := @pairTerms_eq k _ _ (by omega) hr (sorted (members.map sourceY)) 0 0
    (fun v hv => ?_) (grid k).zero_mem (by simpa using hl)
    (by rw [abs_zero, zero_add, ha]; exact hsm)
  · rw [ha, length_sorted, length_map] at ht
    exact ht
  · obtain ⟨i, hi, rfl⟩ := mem_map.mp (mem_sorted.mp hv)
    exact h.mem_grid i (hs.subset hi)

variable [LinearOrder ι] {κ : Type} {encoding : ι → ℕ} {kind : ι → κ} {state start : Refined ι}
  {order order' : List ℕ → List ℕ}

theorem subperm_gathered (hs : Consistent signals state) (hg : groups.Nodup) :
    groups.flatMap state.members <+~ signals := by
  refine Nodup.subperm (nodup_flatMap.mpr
    ⟨fun g _ => (hs.sorted g).imp ne_of_lt, hg.imp fun hne i hi hj => ?_⟩) fun i hi => ?_
  · exact hne (((hs.mem_iff _ i).mp hi).2.symm.trans ((hs.mem_iff _ i).mp hj).2)
  · obtain ⟨g, -, hi⟩ := mem_flatMap.mp hi
    exact ((hs.mem_iff g i).mp hi).1

theorem Exact.objective (h : Exact k sourceY signals) (hst : Consistent signals state)
    (hgp : groups.Nodup) :
    pairwiseObjective sourceY state.members groups =
        exactObjective sourceY state.members groups ∧
      exactObjective sourceY state.members groups ∈ grid k ∧
      |exactObjective sourceY state.members groups| < 2 ^ 52 * 2 ^ k := by
  obtain ⟨hl, hs⟩ := sum_abs_le_of_subperm sourceY
    (subperm_gathered hst hgp)
  have hm : ∀ g, state.members g <+~ signals := fun g => by
    simpa using subperm_gathered hst (nodup_singleton g)
  have htr : (groups.flatMap fun g => pairTerms 0 0 (sorted ((state.members g).map sourceY))) =
      groups.flatMap fun g => exactTerms 0 0 (sorted ((state.members g).map sourceY)) :=
    flatMap_congr fun g _ => (h.group (hm g)).1
  have hgr : ∀ t ∈ groups.flatMap fun g =>
      exactTerms 0 0 (sorted ((state.members g).map sourceY)), t ∈ grid k := fun t ht => by
    obtain ⟨g, -, ht⟩ := mem_flatMap.mp ht
    exact (h.group (hm g)).2.1 t ht
  -- the bounds of the groups add up over the signals gathered from them
  have ha : ∀ groups : List ℕ, ((groups.flatMap fun g =>
        exactTerms 0 0 (sorted ((state.members g).map sourceY))).map abs).sum ≤
      signals.length * ((groups.flatMap state.members).map fun i => |sourceY i|).sum +
        (groups.flatMap state.members).length * (signals.map fun i => |sourceY i|).sum := by
    intro groups
    induction groups with
    | nil => simp
    | cons g groups ih =>
      have hg := (h.group (hm g)).2.2
      rw [flatMap_cons, flatMap_cons, map_append, map_append, sum_append, sum_append, length_append]
      push_cast
      linarith
  have hn : 0 ≤ (signals.map fun i => |sourceY i|).sum := sum_nonneg (by simp)
  have hb : ((groups.flatMap fun g =>
      exactTerms 0 0 (sorted ((state.members g).map sourceY))).map abs).sum < 2 ^ 52 * 2 ^ k := by
    have hf := mul_le_mul_of_nonneg_left hs (Nat.cast_nonneg (α := ℚ) signals.length)
    have hsc := mul_le_mul_of_nonneg_right
      (Nat.cast_le (α := ℚ).mpr hl) hn
    linarith [ha groups, h.sum_lt]
  have hls := h.least
  have he : Binary64.Exact k (0 :: groups.flatMap fun g =>
      exactTerms 0 0 (sorted ((state.members g).map sourceY))) :=
    { least := by omega
      most := h.most
      mem_grid := forall_mem_cons.mpr ⟨(grid k).zero_mem, hgr⟩
      sum_abs_lt := by
        rw [map_cons, sum_cons, abs_zero, zero_add]
        linarith [two_pow_pos k] }
  refine ⟨?_, (grid k).list_sum_mem hgr, (le_sum_of_subadditive abs abs_zero.le
    abs_add_le _).trans_lt hb⟩
  rw [pairwiseObjective, htr, he.foldl_add, zero_add, exactObjective]

/-! ## the verdict -/

theorem margin_spec : 0 ≤ margin ∧ margin ≤ 2 ^ (-39 : ℤ) := by
  decide +kernel

theorem le_add_slack {b slack : ℚ} (hk : -38 ≤ k) (hb : b ∈ grid k) (hn : 0 ≤ b)
    (hlt : |b| < 2 ^ 52 * 2 ^ k) (hs : 0 ≤ slack) : b ≤ add b slack := by
  have hm := round_mono hn (le_add_of_nonneg_right hs : b ≤ b + slack)
  rwa [round_eq (by omega) hb (hlt.trans (by linarith [two_pow_pos k]))] at hm

/-- Values of one grid apart by more than its step are apart by more than the margin. -/
theorem add_margin_lt_iff {b a : ℚ} (hk : -38 ≤ k) (hb : b ∈ grid k) (ha : a ∈ grid k)
    (hnn : 0 ≤ b) (hbl : |b| < 2 ^ 52 * 2 ^ k) (hal : |a| < 2 ^ 52 * 2 ^ k) :
    add b margin < a ↔ b < a := by
  obtain ⟨hmr, hsm⟩ := margin_spec
  have hst := two_pow_pos k
  constructor
  · intro h
    exact (le_add_slack hk hb hnn hbl hmr).trans_lt h
  · intro hlt
    -- the midpoint after `b` is a double, too
    obtain ⟨m, hm⟩ := mem_grid.mp hb
    obtain ⟨j, hj⟩ := mem_grid.mp ha
    have hhl : (2 : ℚ) ^ k = 2 * 2 ^ (k - 1) := by
      rw [zpow_sub_one₀ two_ne_zero]
      ring
    have hnx : b + 2 ^ k ≤ a := by
      have hin : m + 1 ≤ j := by
        rw [hm, hj] at hlt
        exact_mod_cast (mul_lt_mul_iff_left₀ hst).mp hlt
      have hcs : (m : ℚ) + 1 ≤ j := by exact_mod_cast hin
      have hml := mul_le_mul_of_nonneg_right hcs hst.le
      rw [hm, hj]
      linarith
    have hhf := two_pow_pos (k - 1)
    have hmi : b + 2 ^ (k - 1) ∈ grid (k - 1) := by
      refine mem_grid.mpr ⟨2 * m + 1, ?_⟩
      rw [hm, hhl]
      push_cast
      ring
    have hmd : |b + 2 ^ (k - 1)| < 2 ^ 53 * 2 ^ (k - 1) := by
      rw [abs_of_nonneg (by linarith)]
      linarith [le_abs_self a]
    have hle : margin ≤ 2 ^ (k - 1) :=
      hsm.trans (zpow_le_zpow_right₀ one_le_two (by omega))
    have hmn := round_mono (by linarith) (by linarith : b + margin ≤ b + 2 ^ (k - 1))
    rw [round_eq (by omega) hmi hmd] at hmn
    exact hmn.trans_lt (by linarith)

theorem Exact.rises_iff {after : Refined ι} (h : Exact k sourceY signals)
    (hs : Consistent signals state) (haf : Consistent signals after)
    (hg : groups.Nodup) : Rises sourceY state.members after.members groups ↔
      exactObjective sourceY state.members groups < exactObjective sourceY
        after.members groups := by
  obtain ⟨hbf, hb, hbl⟩ := h.objective hs hg
  obtain ⟨ho, ha, hal⟩ := h.objective haf hg
  unfold Rises
  rw [hbf, ho]
  exact add_margin_lt_iff h.least hb ha (exactObjective_nonneg _) hbl hal

section

variable (h : Exact k sourceY signals) (horder : ∀ groups, (order groups).Perm (sortedSet groups))
include h horder

theorem Exact.rises_deal_iff (hs : Consistent signals state) {bucket : ℕ × List ι}
    (hb : Bucket kind signals bucket) :
    Rises sourceY state.members (deal sourceY encoding state bucket).members
        (order (bucket.2.map state.group)) ↔
      exactObjective sourceY state.members (affectedGroups state bucket.2) <
        exactObjective sourceY (deal sourceY encoding state bucket).members
          (affectedGroups state bucket.2) := by
  have hd := hs.deal sourceY encoding hb.nodup hb.sub
  have hp := horder (bucket.2.map state.group)
  rw [h.rises_iff hs hd (hp.nodup_iff.mpr (nodup_sortedSet _)),
    exactObjective_perm _ hp, exactObjective_perm _ hp]
  rfl

theorem Exact.sameVerdicts (ho' : ∀ groups, (order' groups).Perm (sortedSet groups))
    (hnd : signals.Nodup) : ∀ {buckets : List (ℕ × List ι)} {state : Refined ι},
      Kept kind signals start state → (∀ bucket ∈ buckets, Bucket kind signals bucket) →
      SameVerdicts order order' sourceY encoding buckets state
  | [], _, _, _ => trivial
  | bucket :: buckets, _, hk, ha => by
    have hbc := ha bucket mem_cons_self
    refine ⟨fun _ => ?_, Exact.sameVerdicts ho' hnd
      (kept_refineWith order sourceY encoding hnd hk hbc)
      fun b hb => ha b (mem_cons_of_mem _ hb)⟩
    rw [h.rises_deal_iff horder hk.consistent hbc,
      h.rises_deal_iff ho' hk.consistent hbc]

variable (encoding) in
theorem Exact.refineWith_le (hgr : groups.Nodup) (hs : Consistent signals state)
    (hm : ∀ i ∈ signals, state.group i ∈ groups) {bucket : ℕ × List ι}
    (hb : Bucket kind signals bucket) :
    exactObjective sourceY (refineWith order sourceY encoding state bucket).members groups ≤
      exactObjective sourceY state.members groups := by
  classical
  rw [refineWith_eq sourceY encoding hs hb.nodup hb.sub]
  split
  · next hac =>
    have hle := hac.2
    rw [h.rises_deal_iff horder hs hb, not_lt] at hle
    have ha : ∀ g ∈ affectedGroups state bucket.2, g ∈ groups := by
      intro g hg
      obtain ⟨i, hi, rfl⟩ := mem_map.mp (mem_sortedSet.mp hg)
      exact hm i (hb.sub i hi)
    have hsp : groups.Perm (affectedGroups state bucket.2 ++
        groups.filter fun g => g ∉ affectedGroups state bucket.2) :=
      perm_append_rest hgr (nodup_sortedSet _) ha
    have hr : exactObjective sourceY (deal sourceY encoding state bucket).members
          (groups.filter fun g => g ∉ affectedGroups state bucket.2) =
        exactObjective sourceY state.members
          (groups.filter fun g => g ∉ affectedGroups state bucket.2) := by
      refine congrArg List.sum (flatMap_congr fun g hg => ?_)
      rw [members_deal sourceY encoding hs hb.nodup hb.sub
        (by simpa using (mem_filter.mp hg).2)]
    show exactObjective sourceY (deal sourceY encoding state bucket).members groups ≤ _
    rw [exactObjective_perm _ hsp, exactObjective_perm _ hsp, exactObjective_append,
      exactObjective_append, hr]
    linarith
  · exact le_rfl

variable (encoding) in
theorem Exact.foldl_le (hg : groups.Nodup) (hnd : signals.Nodup)
    (hm : ∀ i ∈ signals, start.group i ∈ groups) :
    ∀ {buckets : List (ℕ × List ι)} {state : Refined ι}, Kept kind signals start state →
      (∀ bucket ∈ buckets, Bucket kind signals bucket) →
      exactObjective sourceY
          (buckets.foldl (refineWith order sourceY encoding) state).members groups ≤
        exactObjective sourceY state.members groups
  | [], _, _, _ => le_rfl
  | bucket :: buckets, state, hk, ha => by
    have hbc := ha bucket mem_cons_self
    have hs := h.refineWith_le encoding horder hg hk.consistent
      (hk.group_mem hm) hbc
    rw [foldl_cons]
    exact (Exact.foldl_le hg hnd hm
      (kept_refineWith order sourceY encoding hnd hk hbc)
      fun b hb => ha b (mem_cons_of_mem _ hb)).trans hs

end

end EmuFlow.Chimew
