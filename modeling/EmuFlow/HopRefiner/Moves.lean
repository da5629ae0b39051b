import EmuFlow.HopRefiner.Refine

/-!
# Hop-limit refinement: what a move does

A selected move keeps the fixed clusters and the bounds, and the loads and counts kept beside the
assignment stay the assignment's own. A single move's objective is the one of the assignment it
leads to; an exchange's is as soon as enough parts stay in use.
-/

namespace EmuFlow.HopRefiner

open List Reassign Placement Option
open Function (update update_of_ne)

variable {numParts n dims : ℕ}
variable {input : Input numParts n dims} {k reach : ℤ} {a : Fin n → Fin numParts}

theorem partLoads_update (cluster : Fin n) (target part : Fin numParts) (dimension : Fin dims) :
    partLoads input (update a cluster target) part dimension =
      Reassign.shift (fun q => partLoads input a q dimension) (a cluster) target
        ((input.clusters cluster).weights dimension) part := by
  rw [partLoads, sum_update (fun c q => if q = part then
    ((input.clusters c).weights dimension : ℤ) else 0) a cluster target]
  simp only [shift, partLoads, eq_comm]

theorem partLoads_nonneg (a : Fin n → Fin numParts) (part : Fin numParts) (dimension : Fin dims) :
    0 ≤ partLoads input a part dimension :=
  Finset.sum_nonneg fun cluster _ => by split_ifs <;> omega

/-- No sum of loads leaves the 64 bits. -/
theorem SumsExact.int64_partLoads (he : SumsExact input k reach) (a : Fin n → Fin numParts)
    (part : Fin numParts) (dimension : Fin dims) :
    MachineInt.int64 (partLoads input a part dimension) = partLoads input a part dimension := by
  have hle : partLoads input a part dimension ≤
      ∑ cluster, ((input.clusters cluster).weights dimension : ℤ) :=
    Finset.sum_le_sum fun cluster _ => by split_ifs <;> omega
  have hlt := he.loads_lt dimension
  have hge : 0 ≤ partLoads input a part dimension := partLoads_nonneg a part dimension
  exact MachineInt.int64_eq (by omega) (by omega)

theorem partCounts_update (cluster : Fin n) (target : Fin numParts) :
    partCounts (update a cluster target) =
      Reassign.shift (partCounts a) (a cluster) target 1 := by
  funext part
  rw [partCounts, sum_update (fun _ q => if q = part then (1 : ℤ) else 0) a cluster target]
  simp only [shift, partCounts, eq_comm]

theorem partCounts_nonneg (part : Fin numParts) : 0 ≤ partCounts a part := by
  refine Finset.sum_nonneg fun cluster _ => ?_
  split_ifs <;> decide

theorem partCounts_pos (cluster : Fin n) : 1 ≤ partCounts a (a cluster) := by
  have hle := Finset.single_le_sum (f := fun c => if a c = a cluster then (1 : ℤ) else 0)
    (fun c _ => by split_ifs <;> decide) (Finset.mem_univ cluster)
  simpa [partCounts] using hle

theorem transfer_ofAssignment {t : Transfer numParts n} (h : a t.cluster = t.source) :
    (ofAssignment input a).transfer input t =
      ofAssignment input (update a t.cluster t.target) := by
  simp only [transfer, ofAssignment, mk.injEq, true_and]
  constructor
  · funext part dimension
    rw [partLoads_update, h]
    simp only [shift, sub_eq_add_neg, add_assoc, MachineInt.int64_add_int64]
  · rw [partCounts_update, h]

variable {s : Pass numParts n dims} {move : Move numParts n}

theorem mem_of_foldl_consider {selected : Option (Move numParts n)} :
    ∀ (moves : List (Move numParts n)), moves.foldl consider selected = some move →
      selected = some move ∨ move ∈ moves
  | [], h => .inl h
  | candidate :: moves, h => by
    rcases mem_of_foldl_consider moves h with hn | hm
    · simp only [consider] at hn
      split at hn
      · exact .inr (by simp [some.inj hn])
      · split_ifs at hn
        · exact .inr (by simp [some.inj hn])
        · exact .inl hn
    · exact .inr (mem_cons_of_mem _ hm)

theorem mem_of_selectMove (h : selectMove input s = some move) : move ∈ candidateMoves input s := by
  rcases mem_of_foldl_consider _ h with hn | hm
  · cases hn
  · exact hm

theorem donates_of_mem {cluster donor : Fin n} {source target : Fin numParts}
    (h : donor ∈ donorCandidates input s cluster source target) :
    donates input s cluster source target donor = true := by
  have hs := mem_of_mem_take h
  rw [mem_insertionSort, mem_filter] at hs
  exact hs.2

theorem candidateMoves_cases (h : move ∈ candidateMoves input s) :
    ∃ cluster target, movable input s cluster = true ∧ target ≠ s.placement.assignment cluster ∧
      (singleMove input s cluster (s.placement.assignment cluster) target = some move ∨
        ∃ donor, donates input s cluster (s.placement.assignment cluster) target donor = true ∧
          pairMove input s cluster (s.placement.assignment cluster) target donor = some move) := by
  simp only [candidateMoves, mem_flatMap, mem_filter, List.mem_append,
    mem_toList, mem_filterMap, decide_eq_true_eq] at h
  obtain ⟨cluster, ⟨-, hm⟩, target, ⟨-, hne⟩, hs | ⟨donor, hd, hp⟩⟩ := h
  · exact ⟨cluster, target, hm, hne, .inl hs⟩
  · exact ⟨cluster, target, hm, hne, .inr ⟨donor, donates_of_mem hd, hp⟩⟩

variable {cluster : Fin n}

theorem not_fixed_of_movable (h : movable input s cluster = true) :
    (input.clusters cluster).fixedPart = none := by
  rw [movable, Bool.and_eq_true] at h
  exact isNone_iff_eq_none.mp h.2

/-! ## the constraints -/

/-- The fixed clusters are where they have to be and every part is within its bounds. -/
structure Placed (input : Input numParts n dims)
    (assignment : Fin n → Fin numParts) : Prop where
  fixed : ∀ cluster fixed, (input.clusters cluster).fixedPart = some fixed →
    assignment cluster = fixed
  bounds : ∀ part dimension, withinBound input part dimension
    (partLoads input assignment part dimension) = true

theorem withinBound_mono {part : Fin numParts} {dimension : Fin dims} {x y : ℤ} (hx : 0 ≤ x)
    (hle : x ≤ y) (h : withinBound input part dimension y = true) :
    withinBound input part dimension x = true := by
  have hr : Binary64.round x ≤ Binary64.round y :=
    Binary64.round_mono (by exact_mod_cast hx) (by exact_mod_cast hle)
  rw [withinBound, Bool.and_eq_true, decide_eq_true_eq, decide_eq_true_eq] at *
  exact ⟨le_trans hle h.1, le_trans hr h.2⟩

variable {target : Fin numParts}

theorem fixed_update (hfr : (input.clusters cluster).fixedPart = none)
    (h : ∀ c fixed, (input.clusters c).fixedPart = some fixed → a c = fixed) :
    ∀ c fixed, (input.clusters c).fixedPart = some fixed →
      update a cluster target c = fixed := by
  intro c fixed hf
  have hne : c ≠ cluster := by
    rintro rfl
    rw [hfr] at hf
    cases hf
  rw [update_of_ne hne]
  exact h c fixed hf

/-- The placement's loads and counts are those of its assignment, which keeps the constraints. -/
structure Sound (input : Input numParts n dims)
    (placement : Placement numParts n dims) : Prop where
  consistent : placement = ofAssignment input placement.assignment
  placed : Placed input placement.assignment

theorem Sound.ofAssignment (h : Placed input a) : Sound input (ofAssignment input a) :=
  ⟨rfl, h⟩

variable {placement : Placement numParts n dims}

theorem Sound.loads_eq (he : SumsExact input k reach) (h : Sound input placement) :
    placement.loads = partLoads input placement.assignment :=
  (congrArg loads h.consistent).trans
    (funext fun _ => funext fun _ => he.int64_partLoads _ _ _)

theorem Sound.counts_eq
    (h : Sound input placement) : placement.counts = partCounts placement.assignment :=
  congrArg counts h.consistent

def Move.apply (input : Input numParts n dims)
    (move : Move numParts n) (placement : Placement numParts n dims) :
    Placement numParts n dims :=
  move.transfers.foldl (transfer input) placement

section single

variable {cluster : Fin n} {target : Fin numParts}

theorem singleMove_eq {source : Fin numParts}
    (h : singleMove input s cluster source target = some move) :
    fits input s.placement.loads cluster target = true ∧
      move.first = { cluster := cluster, source := source, target := target } ∧
      move.second = none := by
  simp only [singleMove, ite_none_right_eq_some, some.injEq] at h
  obtain ⟨hf, rfl⟩ := h
  exact ⟨hf, rfl, rfl⟩

theorem fits_iff {loads : Fin numParts → Fin dims → ℤ} :
    fits input loads cluster target = true ↔ ∀ d, withinBound input target d
      (MachineInt.int64 (loads target d + (input.clusters cluster).weights d)) =
        true := by
  simp [fits]

theorem placed_single (he : SumsExact input k reach) (hp : Placed input a)
    (hf : (input.clusters cluster).fixedPart = none) (hne : target ≠ a cluster)
    (hft : fits input (partLoads input a) cluster target = true) :
    Placed input (update a cluster target) := by
  refine ⟨fixed_update hf hp.fixed, fun part d => ?_⟩
  by_cases ht : part = target
  · subst ht
    have hl := fits_iff.mp hft d
    rwa [← shift_target (c := fun q => partLoads input a q d) hne.symm,
      ← partLoads_update, he.int64_partLoads] at hl
  · refine withinBound_mono (partLoads_nonneg _ _ _) ?_ (hp.bounds part d)
    rw [partLoads_update]
    simp only [shift, if_neg ht]
    split_ifs <;> omega

theorem apply_single (hsn : Sound input s.placement)
    (h : singleMove input s cluster (s.placement.assignment cluster) target = some move) :
    move.apply input s.placement =
      ofAssignment input (update s.placement.assignment cluster target) := by
  obtain ⟨-, hf, hs⟩ := singleMove_eq h
  rw [Move.apply, Move.transfers, hs, hf, hsn.consistent]
  exact transfer_ofAssignment rfl

end single

section pair

variable {cluster donor : Fin n} {target : Fin numParts}

structure Donor (input : Input numParts n dims)
    (s : Pass numParts n dims) (cluster : Fin n)
    (target : Fin numParts) (donor : Fin n) : Prop where
  ne : donor ≠ cluster
  free : (input.clusters donor).fixedPart = none
  away : s.placement.assignment donor ≠ s.placement.assignment cluster
  kept : s.placement.assignment donor = target ∨
    (s.placement.counts (s.placement.assignment cluster) = 1 ∧
      s.placement.counts (s.placement.assignment donor) ≠ 1)

theorem donor_of_donates
    (h : donates input s cluster (s.placement.assignment cluster) target donor = true) :
    Donor input s cluster target donor := by
  simp only [donates, Bool.and_eq_true, decide_eq_true_eq, Bool.not_eq_true', ne_eq,
    decide_not, Bool.not_eq_false', Bool.and_eq_false_iff, decide_eq_false_iff_not] at h
  obtain ⟨⟨⟨⟨hne, hm⟩, ha⟩, hf⟩, hs⟩ := h
  refine ⟨by simpa using hne, not_fixed_of_movable hm, by simpa using ha, ?_⟩
  by_cases ht : s.placement.assignment donor = target
  · exact .inl ht
  · refine .inr ⟨?_, ?_⟩
    · by_contra hc
      simp_all
    · by_contra hc
      simp_all

theorem pairMove_eq {source : Fin numParts}
    (h : pairMove input s cluster source target donor = some move) :
    pairFits input s cluster donor source target (s.placement.assignment donor) = true ∧
      move.first = { cluster := cluster, source := source, target := target } ∧
      move.second = some
        { cluster := donor, source := s.placement.assignment donor, target := source } := by
  simp only [pairMove, ite_none_right_eq_some, some.injEq] at h
  obtain ⟨hf, rfl⟩ := h
  exact ⟨hf, rfl, rfl⟩

def exchange (a : Fin n → Fin numParts) (cluster donor : Fin n)
    (target : Fin numParts) : Fin n → Fin numParts :=
  update (update a cluster target) donor (a cluster)

theorem exchange_of_ne {c : Fin n} (h : c ≠ cluster) (h' : c ≠ donor) :
    exchange a cluster donor target c = a c := by
  rw [exchange, update_of_ne h', update_of_ne h]

theorem apply_pair (hsn : Sound input s.placement) (hne : donor ≠ cluster)
    (h : pairMove input s cluster (s.placement.assignment cluster) target donor = some move) :
    move.apply input s.placement =
      ofAssignment input (exchange s.placement.assignment cluster donor target) := by
  obtain ⟨-, hf, hs⟩ := pairMove_eq h
  rw [Move.apply, Move.transfers, hs, hf, hsn.consistent]
  show transfer input (transfer input _ _) _ = _
  rw [transfer_ofAssignment (by rfl), transfer_ofAssignment]
  · rfl
  · exact update_of_ne hne target s.placement.assignment

theorem partLoads_exchange (hne : donor ≠ cluster) (part : Fin numParts) (dimension : Fin dims) :
    partLoads input (exchange a cluster donor target) part dimension =
      partLoads input a part dimension +
        (if part = a cluster then ((input.clusters donor).weights dimension : ℤ) -
          (input.clusters cluster).weights dimension else 0) +
        (if part = target then ((input.clusters cluster).weights dimension : ℤ) else 0) -
        (if part = a donor then ((input.clusters donor).weights dimension : ℤ) else 0) := by
  rw [exchange, partLoads_update, update_of_ne hne]
  simp only [shift, partLoads_update]
  split_ifs <;> ring

theorem placed_pair (he : SumsExact input k reach) (hs : Sound input s.placement)
    (hc : (input.clusters cluster).fixedPart = none)
    (hd : Donor input s cluster target donor)
    (hf : pairFits input s cluster donor (s.placement.assignment cluster) target
      (s.placement.assignment donor) = true) :
    Placed input (exchange s.placement.assignment cluster donor target) := by
  refine ⟨fixed_update hd.free (fixed_update hc hs.placed.fixed),
    fun part d => ?_⟩
  by_cases ha : part ∈ [s.placement.assignment cluster, target, s.placement.assignment donor]
  · have hp := all_eq_true.mp
      (all_eq_true.mp hf part ha) d (mem_finRange d)
    rw [hs.loads_eq he, Bool.and_eq_true, ← partLoads_exchange hd.ne,
      he.int64_partLoads] at hp
    exact hp.2
  · rw [partLoads_exchange hd.ne]
    simp only [mem_cons, not_mem_nil, or_false, not_or] at ha
    rw [if_neg ha.1, if_neg ha.2.1, if_neg ha.2.2]
    simpa using hs.placed.bounds part d

theorem used_exchange (hs : Sound input s.placement)
    (hd : Donor input s cluster target donor) :
    Reassign.used (partCounts (exchange s.placement.assignment cluster donor target)) =
      Reassign.used s.placement.counts + (if s.placement.counts target = 0 then 1 else 0) := by
  have hc := hs.counts_eq
  have hps : 1 ≤ s.placement.counts (s.placement.assignment donor) := by
    rw [hc]
    exact partCounts_pos donor
  rw [exchange, partCounts_update, partCounts_update, update_of_ne hd.ne, ← hc]
  rcases hd.kept with ht | ⟨-, hm⟩
  · rw [ht] at hps ⊢
    rw [shift_shift_symm, if_neg (by omega), add_zero]
  · have hp : shift (shift s.placement.counts
        (s.placement.assignment cluster) target 1) (s.placement.assignment donor)
        (s.placement.assignment cluster) 1 =
          shift s.placement.counts (s.placement.assignment donor) target 1 := by
      funext part
      simp only [shift]
      ring
    by_cases ht : s.placement.assignment donor = target
    · rw [ht] at hps ⊢
      rw [shift_shift_symm, if_neg (by omega), add_zero]
    · rw [hp, used_shift ht hps
        (by rw [hc]; exact partCounts_nonneg target), if_neg hm]
      ring

end pair

theorem singleMove_exact (he : SumsExact input k reach) (hs : Sound input s.placement)
    (hw : s.working = totalObjective input s.placement.assignment)
    (hne : target ≠ s.placement.assignment cluster)
    (h : singleMove input s cluster (s.placement.assignment cluster) target = some move) :
    move.objective =
      totalObjective input (update s.placement.assignment cluster target) := by
  simp only [singleMove, ite_none_right_eq_some, some.injEq] at h
  obtain ⟨-, rfl⟩ := h
  rw [hw]
  refine totalObjective_update he ?_ ?_
  · intro net _ ha c ht
    have hne' : c ≠ cluster := by
      rintro rfl
      rw [ht] at ha
      cases ha
    exact update_of_ne hne' target s.placement.assignment
  · rw [usedPartDeficit, partCounts_update, hs.counts_eq, used_shift hne.symm
      (partCounts_pos cluster) (partCounts_nonneg target)]

theorem pairMove_exact_iff (he : SumsExact input k reach) {cluster donor : Fin n}
    (hs : Sound input s.placement)
    (hw : s.working = totalObjective input s.placement.assignment)
    (hdn : Donor input s cluster target donor)
    (h : pairMove input s cluster (s.placement.assignment cluster) target donor = some move) :
    move.objective = totalObjective input (exchange s.placement.assignment cluster donor target) ↔
      input.minUsedParts ≤ Reassign.used s.placement.counts +
        (if s.placement.counts target = 0 then 1 else 0) := by
  rw [← used_exchange hs hdn, ← deficit_eq_zero]
  simp only [pairMove, ite_none_right_eq_some, some.injEq] at h
  obtain ⟨-, rfl⟩ := h
  constructor
  · intro heq
    have hd := congrArg Objective.usedPartDeficit heq
    rw [totalObjective_deficit] at hd
    exact hd.symm
  · intro hz
    rw [hw]
    refine totalObjective_update he ?_ hz.symm
    intro net _ ha c ht
    rw [Bool.or_eq_false_iff] at ha
    refine exchange_of_ne ?_ ?_
    · rintro rfl
      rw [ht] at ha
      cases ha.1
    · rintro rfl
      rw [ht] at ha
      cases ha.2

/-- The move leaves enough parts in use: it is no exchange, or the parts in use before it, with
the target when it is empty, are enough. -/
def KeepsUsedParts (input : Input numParts n dims)
    (s : Pass numParts n dims) (move : Move numParts n) : Prop :=
  move.second ≠ none → input.minUsedParts ≤ Reassign.used s.placement.counts +
    (if s.placement.counts move.first.target = 0 then 1 else 0)

theorem apply_sound (he : SumsExact input k reach) (hs : Sound input s.placement)
    (h : move ∈ candidateMoves input s) :
    Sound input (move.apply input s.placement) := by
  obtain ⟨cluster, target, hm, hne, hsn | ⟨donor, hdn, hp⟩⟩ :=
    candidateMoves_cases h
  · rw [apply_single hs hsn]
    refine Sound.ofAssignment
      (placed_single he hs.placed (not_fixed_of_movable hm) hne ?_)
    rw [← hs.loads_eq he]
    exact (singleMove_eq hsn).1
  · have hd := donor_of_donates hdn
    rw [apply_pair hs hd.ne hp]
    exact Sound.ofAssignment (placed_pair he hs (not_fixed_of_movable hm) hd
      (pairMove_eq hp).1)

theorem apply_exact_iff (he : SumsExact input k reach) (hs : Sound input s.placement)
    (hw : s.working = totalObjective input s.placement.assignment)
    (h : move ∈ candidateMoves input s) :
    move.objective = totalObjective input (move.apply input s.placement).assignment ↔
      KeepsUsedParts input s move := by
  obtain ⟨cluster, target, -, hne, hsn | ⟨donor, hdn, hp⟩⟩ := candidateMoves_cases h
  · rw [apply_single hs hsn]
    have hn := (singleMove_eq hsn).2.2
    exact iff_of_true (singleMove_exact he hs hw hne hsn) fun hsm =>
      absurd hn hsm
  · have hd := donor_of_donates hdn
    obtain ⟨-, hf, hsc⟩ := pairMove_eq hp
    rw [apply_pair hs hd.ne hp]
    refine (pairMove_exact_iff he hs hw hd hp).trans ?_
    rw [KeepsUsedParts, hf, hsc]
    simp

end EmuFlow.HopRefiner
