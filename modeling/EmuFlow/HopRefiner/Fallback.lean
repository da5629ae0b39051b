import EmuFlow.HopRefiner.Moves

/-!
# Hop-limit refinement: the fallback finds legal assignments

The depth-first search places the clusters one after the other; what it has placed keeps the
constraints, so a leaf it records is a legal assignment without violations.
-/

namespace EmuFlow.HopRefiner

open Function

variable {numParts n dims : ℕ}
variable {input : Input numParts n dims} {k reach : ℤ}

structure Legal (input : Input numParts n dims)
    (assignment : Fin n → Fin numParts) : Prop
    extends Placed input assignment where
  used : input.minUsedParts ≤ Reassign.used (partCounts assignment)

/-- The candidate of the search while the clusters of `rest` are still to be placed. -/
structure Partial (input : Input numParts n dims)
    (rest : List (Fin n)) (candidate : Placement numParts n dims) :
    Prop where
  fixed : ∀ cluster ∉ rest, ∀ fixed, (input.clusters cluster).fixedPart = some fixed →
    candidate.assignment cluster = fixed
  loads : ∀ part dimension, candidate.loads part dimension =
    ∑ cluster, if cluster ∉ rest ∧ candidate.assignment cluster = part then
      ((input.clusters cluster).weights dimension : ℤ) else 0
  counts : ∀ part, candidate.counts part =
    ∑ cluster, if cluster ∉ rest ∧ candidate.assignment cluster = part then 1 else 0
  bounds : ∀ part dimension, withinBound input part dimension
    (candidate.loads part dimension) = true

theorem sum_place {cluster : Fin n} {rest : List (Fin n)}
    (hn : cluster ∉ rest) (a : Fin n → Fin numParts) (part q : Fin numParts)
    (weight : Fin n → ℤ) :
    (∑ c, if c ∉ rest ∧ update a cluster part c = q then weight c else 0) =
      (∑ c, if c ∉ cluster :: rest ∧ a c = q then weight c else 0) +
        if q = part then weight cluster else 0 := by
  rw [Reassign.sum_eq_of_off cluster (f := fun c =>
    if c ∉ cluster :: rest ∧ a c = q then weight c else 0)]
  · simp [hn, eq_comm]
  · intro c hne
    simp [hne]

variable {candidate : Placement numParts n dims}

theorem Partial.load_place (he : SumsExact input k reach) {cluster : Fin n}
    {rest : List (Fin n)} (h : Partial input (cluster :: rest) candidate)
    (hn : cluster ∉ rest) (part q : Fin numParts) (dimension : Fin dims) :
    MachineInt.int64 (candidate.loads q dimension +
        if q = part then ((input.clusters cluster).weights dimension : ℤ) else 0) =
      ∑ c, if c ∉ rest ∧ update candidate.assignment cluster part c = q then
        ((input.clusters c).weights dimension : ℤ) else 0 := by
  have hs := sum_place hn candidate.assignment part q
    fun c => ((input.clusters c).weights dimension : ℤ)
  have hle : (∑ c, if c ∉ rest ∧ update candidate.assignment cluster part c = q then
      ((input.clusters c).weights dimension : ℤ) else 0) ≤
        ∑ c, ((input.clusters c).weights dimension : ℤ) :=
    Finset.sum_le_sum fun c _ => by split_ifs <;> omega
  have hge : (0 : ℤ) ≤ ∑ c, if c ∉ rest ∧ update candidate.assignment cluster part c = q
      then ((input.clusters c).weights dimension : ℤ) else 0 :=
    Finset.sum_nonneg fun c _ => by split_ifs <;> omega
  have hlt := he.loads_lt dimension
  rw [h.loads, ← hs]
  exact MachineInt.int64_eq (by omega) (by omega)

theorem Partial.place (he : SumsExact input k reach) {cluster : Fin n} {rest : List (Fin n)}
    {part : Fin numParts}
    (h : Partial input (cluster :: rest) candidate) (hn : cluster ∉ rest)
    (hch : part ∈ choices input cluster)
    (hft : fits input candidate.loads cluster part = true) :
    Partial input rest (candidate.place input cluster part) where
  fixed := by
    intro c hc fixed hf
    show update candidate.assignment cluster part c = fixed
    by_cases hne : c = cluster
    · subst hne
      rw [update_self]
      simpa [choices, hf] using hch
    · rw [update_of_ne hne]
      exact h.fixed c (by simp [hne, hc]) fixed hf
  loads := by
    intro q d
    exact h.load_place he hn part q d
  counts := by
    intro q
    show candidate.counts q + _ = _
    rw [h.counts]
    exact (sum_place hn _ _ _ fun _ => 1).symm
  bounds := by
    intro q d
    show withinBound input q d (MachineInt.int64 (candidate.loads q d + _)) = true
    by_cases hq : q = part
    · subst hq
      rw [if_pos rfl]
      exact fits_iff.mp hft d
    · have hl := h.load_place he hn part q d
      rw [if_neg hq, add_zero] at hl ⊢
      rw [hl, sum_place hn _ _ _ fun c => ((input.clusters c).weights d : ℤ),
        if_neg hq, add_zero, ← h.loads]
      exact h.bounds q d

theorem Partial.placed
    (h : Partial input [] candidate) : Placed input candidate.assignment where
  fixed cluster fixed hf := h.fixed cluster List.not_mem_nil fixed hf
  bounds part dimension := by
    have hl : partLoads input candidate.assignment part dimension =
        candidate.loads part dimension := by
      rw [h.loads, partLoads]
      simp
    rw [hl]
    exact h.bounds part dimension

theorem Partial.counts_eq
    (h : Partial input [] candidate) : candidate.counts = partCounts candidate.assignment := by
  funext part
  rw [h.counts, partCounts]
  simp

/-- What is known of a recorded leaf. -/
structure Feasible (input : Input numParts n dims)
    (assignment : Fin n → Fin numParts) (objective : Objective) : Prop where
  legal : Legal input assignment
  objective_eq : objective = totalObjective input assignment
  violations : objective.violations = 0

def FoundFeasible (input : Input numParts n dims)
    (found : Found numParts n) : Prop :=
  ∀ assignment objective, found = some (assignment, objective) → Feasible input assignment objective

theorem considerLeaf_feasible
    {best : Found numParts n} (h : Partial input [] candidate)
    (hb : FoundFeasible input best) : FoundFeasible input (considerLeaf input candidate best) := by
  simp only [considerLeaf]
  split_ifs with hu hv
  · exact hb
  · exact hb
  · simp only [ne_eq, Bool.or_eq_true, decide_eq_true_eq, not_or, not_not] at hv
    have hl : Feasible input candidate.assignment (totalObjective input candidate.assignment) :=
      { legal :=
          { toPlaced := h.placed
            used := by
              rw [← h.counts_eq]
              exact not_lt.mp hu }
        objective_eq := rfl
        violations := hv.1 }
    have hs : FoundFeasible input
        (some (candidate.assignment, totalObjective input candidate.assignment)) := by
      intro a objective hf
      cases hf
      exact hl
    cases best with
    | none => exact hs
    | some current =>
      dsimp only
      split_ifs
      · exact hs
      · exact hb

theorem search_feasible (he : SumsExact input k reach) :
    ∀ {rest : List (Fin n)} {candidate : Placement numParts n dims}
      {best : Found numParts n}, rest.Nodup → Partial input rest candidate →
      FoundFeasible input best → FoundFeasible input (search input rest candidate best)
  | [], _, _, _, h, hb => considerLeaf_feasible h hb
  | cluster :: rest, candidate, best, hnd, h, hb => by
    rw [List.nodup_cons] at hnd
    refine List.foldlRecOn (choices input cluster) _ hb fun best hb part hp => ?_
    by_cases hf : fits input candidate.loads cluster part = true
    · rw [if_pos hf]
      exact search_feasible he hnd.2 (h.place he hnd.1 hp hf) hb
    · rw [if_neg hf]
      exact hb

theorem withinBound_zero (part : Fin numParts) (dimension : Fin dims) :
    withinBound input part dimension 0 = true := by
  have he : (0 : ℚ) ≤ kEps := by decide +kernel
  have hb := input.balance_nonneg part dimension
  rw [withinBound, Bool.and_eq_true, decide_eq_true_eq, decide_eq_true_eq]
  exact ⟨input.hard_nonneg part dimension,
    Binary64.round_mono (by simp) (by push_cast; linarith)⟩

/-- What the exact fallback returns is legal. -/
theorem exactFeasibleFallback_feasible (he : SumsExact input k reach) :
    FoundFeasible input (exactFeasibleFallback input) := by
  have hn : FoundFeasible input none := fun _ _ h => by cases h
  rw [exactFeasibleFallback]
  split_ifs
  · exact hn
  · exact hn
  · refine search_feasible he (List.nodup_finRange _) ⟨?_, ?_, ?_, ?_⟩ hn
    · exact fun cluster hc => absurd (List.mem_finRange cluster) hc
    · simp
    · simp
    · exact withinBound_zero

end EmuFlow.HopRefiner
