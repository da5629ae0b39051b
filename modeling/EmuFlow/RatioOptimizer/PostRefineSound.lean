import Mathlib.Data.List.TakeWhile
import EmuFlow.RatioOptimizer.PostRefine

/-!
# Post-refinement improves and keeps its index

The metrics of the paths off a change stay what they are, so the first unaffected entry of the
ordered index and the recomputed entries give the worst metric after the change, and the counts of
the affected metrics tell how the sorted vector of all metrics moves.
-/

namespace EmuFlow.RatioOptimizer

open List hiding lex
open SortedSet
open Function (update update_of_ne update_self)

variable {numDomains numHops numPaths : ℕ}

/-! ## indexes -/

variable {κ ι : Type}

@[simp] theorem lex_inj [LinearOrder κ] {a b : κ} {i j : ι} :
    lex a i = lex b j ↔ a = b ∧ i = j := by
  simp [lex]

theorem index_update [LinearOrder κ] [LinearOrder ι] {items : List ι} (f : ι → κ)
    {i : ι} (hi : i ∈ items) (v : κ) :
    emplace (lex v i) (eraseKey (lex (f i) i) (sortedSet (items.map fun j => lex (f j) j))) =
      sortedSet (items.map fun j => lex (update f i v j) j) := by
  refine sortedSet_congr fun a => ?_
  simp only [eraseKey, mem_cons, mem_filter, mem_sortedSet, mem_map,
    decide_eq_true_eq]
  constructor
  · rintro (rfl | ⟨⟨j, hj, rfl⟩, hne⟩)
    · exact ⟨i, hi, by rw [update_self]⟩
    · have hji : j ≠ i := by
        rintro rfl
        exact hne rfl
      exact ⟨j, hj, by rw [update_of_ne hji]⟩
  · rintro ⟨j, hj, rfl⟩
    by_cases hji : j = i
    · subst hji
      exact .inl (by rw [update_self])
    · rw [update_of_ne hji]
      exact .inr ⟨⟨j, hj, rfl⟩, fun heq => hji (lex_inj.mp heq).2⟩

theorem index_swap [LinearOrder κ] [LinearOrder ι] {items : List ι} (f : ι → κ)
    {i j : ι} (hi : i ∈ items) (hj : j ∈ items) (hne : f j ≠ f i) :
    emplace (lex (f i) j) (emplace (lex (f j) i) (eraseKey (lex (f j) j) (eraseKey (lex (f i) i)
        (sortedSet (items.map fun k => lex (f k) k))))) =
      sortedSet (items.map fun k => lex
        (update (update f i (f j)) j (f i) k) k) := by
  have hij : i ≠ j := fun h => hne (h ▸ rfl)
  refine sortedSet_congr fun a => ?_
  simp only [eraseKey, emplace, mem_cons, mem_filter, mem_sortedSet, mem_map,
    decide_eq_true_eq]
  constructor
  · rintro (rfl | rfl | ⟨⟨⟨k, hk, rfl⟩, h1⟩, h2⟩)
    · exact ⟨j, hj, by rw [update_self]⟩
    · exact ⟨i, hi, by rw [update_of_ne hij, update_self]⟩
    · have hki : k ≠ i := by
        rintro rfl
        exact h1 rfl
      have hkj : k ≠ j := by
        rintro rfl
        exact h2 rfl
      exact ⟨k, hk, by rw [update_of_ne hkj, update_of_ne hki]⟩
  · rintro ⟨k, hk, rfl⟩
    by_cases hkj : k = j
    · subst hkj
      exact .inl (by rw [update_self])
    by_cases hki : k = i
    · subst hki
      exact .inr (.inl (by rw [update_of_ne hkj, update_self]))
    · rw [update_of_ne hkj, update_of_ne hki]
      exact .inr (.inr ⟨⟨⟨k, hk, rfl⟩, fun heq => hki (lex_inj.mp heq).2⟩,
        fun heq => hkj (lex_inj.mp heq).2⟩)

variable {entry : ℚ ×ₗ Fin numPaths}

theorem mem_orderedMetricsOf {f : Fin numPaths → ℚ} :
    entry ∈ orderedMetricsOf f ↔ ∃ path, lex (f path) path = entry := by
  simp [orderedMetricsOf]

theorem foldlM_acceptMetric (paths : List (Fin numPaths)) (f g : Fin numPaths → ℚ) :
    (paths.map fun path => (path, g path)).foldlM acceptMetric (f, orderedMetricsOf f) =
      .ok (fun path => if path ∈ paths then g path else f path,
        orderedMetricsOf fun path => if path ∈ paths then g path else f path) := by
  induction paths generalizing f with
  | nil =>
    simp only [map_nil, foldlM_nil, not_mem_nil, if_false]
    rfl
  | cons path rest ih =>
    have hm : lex (f path) path ∈ orderedMetricsOf f := mem_orderedMetricsOf.mpr ⟨path, rfl⟩
    have hs : acceptMetric (f, orderedMetricsOf f) (path, g path) = .ok (update f path (g path),
          orderedMetricsOf (update f path (g path))) := by
      rw [acceptMetric, if_pos hm]
      dsimp only
      rw [orderedMetricsOf, index_update f (mem_finRange path), orderedMetricsOf]
    rw [map_cons, foldlM_cons, hs]
    show foldlM acceptMetric _ _ = _
    rw [ih]
    have heq : (fun p => if p ∈ rest then g p else update f path (g path) p) =
        fun p => if p ∈ path :: rest then g p else f p := by
      funext p
      by_cases hp : p = path
      · subst hp
        simp
      · simp [hp]
    rw [heq]

variable {input : Input numDomains numHops numPaths} {s s' : State numDomains numHops numPaths}

variable {hops : List (Fin numHops)}

theorem mem_affectedPaths {path : Fin numPaths} :
    path ∈ affectedPaths input hops ↔ ∃ hop ∈ hops, hop ∈ (input.paths path).hops := by
  simp [affectedPaths]

variable {d d' : Fin numHops → ℤ}

theorem metricsOf_eq_of_not_mem (h : ∀ hop, hop ∉ hops → d' hop = d hop) {path : Fin numPaths}
    (hp : path ∉ affectedPaths input hops) : metricsOf input d' path = metricsOf input d path := by
  have ho : ∀ hop ∈ (input.paths path).hops, d' hop = d hop := by
    intro hop hh
    refine h hop fun hm => hp (mem_affectedPaths.mpr ⟨hop, hm, hh⟩)
  unfold metricsOf pathMetric
  rw [map_congr_left fun hop hh => by rw [ho hop hh]]

theorem metricsOf_split (h : ∀ hop, hop ∉ hops → d' hop = d hop) :
    (fun path => if path ∈ affectedPaths input hops then metricsOf input d' path
      else metricsOf input d path) = metricsOf input d' := by
  funext path
  split
  · rfl
  · next hp => exact (metricsOf_eq_of_not_mem h hp).symm

/-- The least metric of the paths at the given ratios. -/
structure IsWorst (input : Input numDomains numHops numPaths) (discrete : Fin numHops → ℤ)
    (worst : ℚ) : Prop where
  attained : ∃ path, metricsOf input discrete path = worst
  le : ∀ path, worst ≤ metricsOf input discrete path

theorem foldl_minMetric (candidate : CandidateMetrics numPaths) (start : Option ℚ) :
    (candidate.foldl (fun r entry => minMetric r entry.2) start = none →
      start = none ∧ candidate = []) ∧
    ∀ worst, candidate.foldl (fun r entry => minMetric r entry.2) start = some worst →
      (start = some worst ∨ ∃ entry ∈ candidate, entry.2 = worst) ∧
        (∀ value, start = some value → worst ≤ value) ∧ ∀ entry ∈ candidate, worst ≤ entry.2 := by
  induction candidate generalizing start with
  | nil =>
    refine ⟨fun h => ⟨h, rfl⟩, fun worst h => ?_⟩
    obtain rfl : start = some worst := h
    exact ⟨.inl rfl, fun value hvl => (Option.some.inj hvl).le, by simp⟩
  | cons entry rest ih =>
    obtain ⟨hn, hs⟩ := ih (minMetric start entry.2)
    rw [foldl_cons]
    refine ⟨fun h => ?_, fun worst h => ?_⟩
    · have := (hn h).1
      cases start <;> simp [minMetric] at this
    obtain ⟨hin, hle, hr⟩ := hs worst h
    cases start with
    | none =>
      have hen : worst ≤ entry.2 := hle entry.2 rfl
      refine ⟨?_, by simp, fun e he => ?_⟩
      · rcases hin with hin | ⟨e, he, hv⟩
        · exact .inr ⟨entry, mem_cons_self, Option.some.inj hin⟩
        · exact .inr ⟨e, mem_cons_of_mem _ he, hv⟩
      · rcases mem_cons.mp he with rfl | he
        · exact hen
        · exact hr e he
    | some first =>
      have hb : worst ≤ min first entry.2 := hle _ rfl
      refine ⟨?_, fun value hvl => ?_, fun e he => ?_⟩
      · rcases hin with hin | ⟨e, he, hv⟩
        · have hm : min first entry.2 = worst := Option.some.inj hin
          rcases min_choice first entry.2 with hc | hc
          · exact .inl (by rw [← hm, hc])
          · exact .inr ⟨entry, mem_cons_self, by rw [← hm, hc]⟩
        · exact .inr ⟨e, mem_cons_of_mem _ he, hv⟩
      · cases hvl
        exact hb.trans (min_le_left _ _)
      · rcases mem_cons.mp he with rfl | he
        · exact hb.trans (min_le_right _ _)
        · exact hr e he

theorem pairwise_orderedMetricsOf (f : Fin numPaths → ℚ) : (orderedMetricsOf f).Pairwise (· ≤ ·) :=
  pairwise_sortedBy id _

theorem find?_orderedMetricsOf {f : Fin numPaths → ℚ} (p : Fin numPaths → Prop) [DecidablePred p]
    (h : (orderedMetricsOf f).find? (fun e => decide (p (ofLex e).2)) = some entry) :
    p (ofLex entry).2 ∧ f (ofLex entry).2 = (ofLex entry).1 ∧
      ∀ path, p path → (ofLex entry).1 ≤ f path := by
  obtain ⟨hp, before, after, hs, hb⟩ := find?_eq_some_iff_append.mp h
  have hm : entry ∈ orderedMetricsOf f := hs ▸ by simp
  obtain ⟨path, rfl⟩ := mem_orderedMetricsOf.mp hm
  refine ⟨by simpa using hp, rfl, fun other ho => ?_⟩
  have hin : lex (f other) other ∈ before ++ lex (f path) path :: after :=
    hs ▸ mem_orderedMetricsOf.mpr ⟨other, rfl⟩
  have hpr := pairwise_orderedMetricsOf f
  rw [hs] at hpr
  rcases mem_append.mp hin with hin | hin
  -- an entry before the first one does not have the property
  · have hn := hb _ hin
    simp only [Bool.not_eq_true', decide_eq_false_iff_not] at hn
    exact absurd ho hn
  · rcases mem_cons.mp hin with heq | hin
    · exact (lex_inj.mp heq).1.ge
    · have hle := (pairwise_cons.mp (pairwise_append.mp hpr).2.1).1 _ hin
      rcases Prod.Lex.le_iff.mp hle with hlt | ⟨heq, -⟩
      · exact hlt.le
      · exact heq.le

theorem candidateWorst_eq (h : ∀ hop, hop ∉ hops → d' hop = d hop) :
    ∃ worst, candidateWorst (orderedMetricsOf (metricsOf input d))
      (candidateMetrics input hops d') =
      some worst ∧ IsWorst input d' worst := by
  have hk : (candidateMetrics input hops d').map Prod.fst = affectedPaths input hops := by
    rw [candidateMetrics, map_map]
    exact map_id'' (fun _ => rfl) _
  unfold candidateWorst
  rw [hk]
  dsimp only
  obtain ⟨hn, hs⟩ := foldl_minMetric (candidateMetrics input hops d')
    (((orderedMetricsOf (metricsOf input d)).find? fun entry =>
      decide ((ofLex entry).2 ∉ affectedPaths input hops)).map fun entry => (ofLex entry).1)
  have hc : ∀ path ∈ affectedPaths input hops,
      (path, metricsOf input d' path) ∈ candidateMetrics input hops d' :=
    fun path hpt => mem_map.mpr ⟨path, hpt, rfl⟩
  cases hfl : (candidateMetrics input hops d').foldl
      (fun r entry => minMetric r entry.2)
      (((orderedMetricsOf (metricsOf input d)).find? fun entry =>
        decide ((ofLex entry).2 ∉ affectedPaths input hops)).map fun entry => (ofLex entry).1) with
  | none =>
    -- with a path there is an affected or an unaffected one
    obtain ⟨hfn, he⟩ := hn hfl
    rw [Option.map_eq_none_iff, find?_eq_none] at hfn
    have hpt := hfn _ (mem_orderedMetricsOf.mpr ⟨⟨0, input.numPaths_pos⟩, rfl⟩)
    simp only [decide_not, Bool.not_eq_eq_eq_not, Bool.not_true, decide_eq_false_iff_not,
      not_not] at hpt
    have := hc _ hpt
    rw [he] at this
    exact absurd this not_mem_nil
  | some worst =>
    obtain ⟨hin, hst, hr⟩ := hs worst hfl
    refine ⟨worst, rfl, ?_, fun path => ?_⟩
    · rcases hin with hin | ⟨entry, hen, hv⟩
      · obtain ⟨entry, hfn, hv⟩ := Option.map_eq_some_iff.mp hin
        obtain ⟨hp, hf, -⟩ :=
          find?_orderedMetricsOf (fun path => path ∉ affectedPaths input hops) hfn
        exact ⟨(ofLex entry).2, by rw [metricsOf_eq_of_not_mem h hp, hf, hv]⟩
      · obtain ⟨path, -, rfl⟩ := mem_map.mp hen
        exact ⟨path, hv⟩
    · by_cases hpt : path ∈ affectedPaths input hops
      · exact hr _ (hc path hpt)
      · rw [metricsOf_eq_of_not_mem h hpt]
        cases hfn : (orderedMetricsOf (metricsOf input d)).find? fun entry =>
            decide ((ofLex entry).2 ∉ affectedPaths input hops) with
        | none =>
          rw [find?_eq_none] at hfn
          have := hfn _ (mem_orderedMetricsOf.mpr ⟨path, rfl⟩)
          simp only [decide_not, Bool.not_eq_eq_eq_not, Bool.not_true, decide_eq_false_iff_not,
            not_not] at this
          exact absurd this hpt
        | some entry =>
          obtain ⟨-, -, hle⟩ :=
            find?_orderedMetricsOf (fun path => path ∉ affectedPaths input hops) hfn
          exact (hst _ (by rw [hfn]; rfl)).trans (hle path hpt)

/-! ## accepted changes -/

def sortedMetrics (input : Input numDomains numHops numPaths) (discrete : Fin numHops → ℤ) :
    List ℚ :=
  SortedVector.sorted (finRange numPaths) (metricsOf input discrete)

theorem multiplicityDelta_eq (hops : List (Fin numHops)) (d d' : Fin numHops → ℤ) (value : ℚ) :
    multiplicityDelta (candidateMetrics input hops d') (metricsOf input d) value =
      SortedVector.delta (affectedPaths input hops) (metricsOf input d) (metricsOf input d')
        value := by
  simp only [multiplicityDelta, candidateMetrics, countP_map, Function.comp_def,
    SortedVector.delta]

theorem sorted_lt_of_improves (h : ∀ hop, hop ∉ hops → d' hop = d hop)
    (hi : lexicographicallyImproves (candidateMetrics input hops d') (metricsOf input d) =
      true) : sortedMetrics input d < sortedMetrics input d' := by
  unfold lexicographicallyImproves at hi
  dsimp only at hi
  split at hi
  · next value hf =>
    obtain ⟨-, before, after, hs, hb⟩ := find?_eq_some_iff_append.mp hf
    have hl := of_decide_eq_true hi
    rw [multiplicityDelta_eq] at hl
    refine SortedVector.sorted_lt_of_delta ((finRange numPaths).filter fun path =>
        !decide (∃ hop ∈ hops, hop ∈ (input.paths path).hops))
      (filter_append_perm _ _).symm (fun path hp => ?_) (fun w hw => ?_) hl
    · refine metricsOf_eq_of_not_mem h fun hm => ?_
      have := (mem_filter.mp hp).2
      simp only [Bool.not_eq_true', decide_eq_false_iff_not] at this
      exact this (mem_affectedPaths.mp hm)
    · show SortedVector.delta (affectedPaths input hops) _ _ w = 0
      rw [← multiplicityDelta_eq]
      by_cases hw' : w ∈ sortedSet ((candidateMetrics input hops d').map
          (fun entry => metricsOf input d entry.1) ++ (candidateMetrics input hops d').map Prod.snd)
      -- a smaller metric of the change comes before the first one that differs
      · have hpr : (before ++ value :: after).Pairwise (· ≤ ·) := hs ▸ pairwise_sortedBy id _
        rw [hs] at hw'
        rcases mem_append.mp hw' with hin | hin
        · simpa using hb w hin
        · rcases mem_cons.mp hin with rfl | hin
          · exact absurd hw (lt_irrefl _)
          · have := (pairwise_cons.mp (pairwise_append.mp hpr).2.1).1 w hin
            exact absurd this (not_le.mpr hw)
      · rw [mem_sortedSet, mem_append, not_or] at hw'
        have ho : (candidateMetrics input hops d').countP
            (fun entry => decide (metricsOf input d entry.1 = w)) = 0 :=
          countP_eq_zero.mpr fun entry he heq =>
            hw'.1 (mem_map.mpr ⟨entry, he, of_decide_eq_true heq⟩)
        have hn : (candidateMetrics input hops d').countP (fun entry => decide (entry.2 = w)) =
            0 :=
          countP_eq_zero.mpr fun entry he heq =>
            hw'.2 (mem_map.mpr ⟨entry, he, of_decide_eq_true heq⟩)
        rw [multiplicityDelta, ho, hn, sub_self]
  · exact absurd hi Bool.false_ne_true

theorem isWorst_head {d : Fin numHops → ℤ}
    (h : (orderedMetricsOf (metricsOf input d)).head? = some entry) :
    IsWorst input d (metricsOf input d (ofLex entry).2) := by
  have hf : (orderedMetricsOf (metricsOf input d)).find? (fun e =>
      decide ((fun _ : Fin numPaths => True) (ofLex e).2)) = some entry := by
    cases hl : orderedMetricsOf (metricsOf input d) with
    | nil =>
      rw [hl] at h
      cases h
    | cons first rest =>
      rw [hl] at h
      simpa using h
  obtain ⟨-, heq, hle⟩ := find?_orderedMetricsOf (fun _ => True) hf
  exact ⟨⟨_, rfl⟩, fun path => heq ▸ hle path trivial⟩

theorem exists_head (d : Fin numHops → ℤ) :
    ∃ entry, (orderedMetricsOf (metricsOf input d)).head? = some entry := by
  have hm : lex _ ⟨0, input.numPaths_pos⟩ ∈ orderedMetricsOf (metricsOf input d) :=
    mem_orderedMetricsOf.mpr ⟨⟨0, input.numPaths_pos⟩, rfl⟩
  obtain ⟨first, rest, hl⟩ := exists_cons_of_ne_nil (ne_nil_of_mem hm)
  exact ⟨first, by rw [hl]; rfl⟩

theorem IsWorst.le_of_sorted_lt {worst worst' : ℚ}
    (h : IsWorst input d worst) (h' : IsWorst input d' worst')
    (hlt : sortedMetrics input d < sortedMetrics input d') : worst ≤ worst' := by
  unfold sortedMetrics at hlt
  cases hs : SortedVector.sorted (finRange numPaths) (metricsOf input d') with
  | nil =>
    rw [hs] at hlt
    exact absurd hlt (not_lt_nil _)
  | cons b m =>
    cases hs' : SortedVector.sorted (finRange numPaths) (metricsOf input d) with
    | nil =>
      have hl := congrArg length hs'
      rw [SortedVector.length_sorted, length_finRange] at hl
      exact absurd hl input.numPaths_pos.ne'
    | cons a l =>
      rw [hs, hs'] at hlt
      have ha : a ≤ b := by
        rcases cons_lt_cons_iff.mp hlt with ha | ⟨ha, -⟩
        · exact ha.le
        · exact ha.le
      obtain ⟨path, hp⟩ := h'.attained
      obtain ⟨⟨first, -, hf⟩, -⟩ := SortedVector.head_sorted hs'
      calc worst ≤ metricsOf input d first := h.le first
        _ = a := hf
        _ ≤ b := ha
        _ ≤ metricsOf input d' path := (SortedVector.head_sorted hs).2 path (mem_finRange path)
        _ = worst' := hp

theorem sorted_lt_of_accepts {current : ℚ}
    (h : ∀ hop, hop ∉ hops → d' hop = d hop) (hm : s.metrics = metricsOf input d)
    (ho : s.orderedMetrics = orderedMetricsOf (metricsOf input d))
    (hc : IsWorst input d current)
    (ha : accepts input current s (candidateMetrics input hops d') = true) :
    sortedMetrics input d < sortedMetrics input d' := by
  obtain ⟨worst, hw, hi⟩ := candidateWorst_eq h
  unfold accepts at ha
  rw [ho, hw, hm] at ha
  dsimp only at ha
  rcases Bool.or_eq_true_iff.mp ha with hr | hp
  -- the least metric itself rises
  · have hlt := of_decide_eq_true hr
    have hcn := input.convergence_pos
    obtain ⟨path, hpt⟩ := hc.attained
    refine SortedVector.sorted_lt_of_head_lt ?_ ⟨path, mem_finRange path, hpt⟩
      fun other _ => (by linarith : current < worst).trans_le (hi.le other)
    exact ne_nil_of_mem (mem_finRange path)
  · exact sorted_lt_of_improves h (Bool.and_eq_true_iff.mp hp).2

/-! ## proposals -/

/-- A change whose candidate metrics are those of its ratios, and whose classes are indexed. -/
structure Sound (input : Input numDomains numHops numPaths)
    (s : State numDomains numHops numPaths) (proposal : Proposal numDomains numHops numPaths) :
    Prop where
  candidate : ∃ hops, proposal.candidate = candidateMetrics input hops proposal.discrete ∧
    ∀ hop, hop ∉ hops → proposal.discrete hop = s.discrete hop
  ratioHops : proposal.ratioHops = ratioHopsOf input proposal.discrete

variable {c : RatioClass numDomains}

theorem ratioHopsOf_congr (h : ∀ hop, ratioClass input hop = c → d' hop = d hop) :
    ratioHopsOf input d' c = ratioHopsOf input d c := by
  unfold ratioHopsOf
  rw [map_congr_left fun hop hh => ?_]
  rw [h hop (by simpa using hh)]

theorem mem_class {hop : Fin numHops} :
    hop ∈ (finRange numHops).filter (fun hop => ratioClass input hop = c) ↔
      ratioClass input hop = c := by
  simp

variable {proposal : Proposal numDomains numHops numPaths}

theorem sound_harmonic {hop : Fin numHops} (hi : s.ratioHops = ratioHopsOf input s.discrete)
    (h : harmonicProposal input s hop = some proposal) : Sound input s proposal := by
  unfold harmonicProposal at h
  dsimp only at h
  split at h
  · cases h
  cases h
  refine ⟨⟨[hop], rfl, fun other ho => ?_⟩, ?_⟩
  · exact update_of_ne (by simpa using ho) _ _
  · funext c
    dsimp only
    by_cases hc : c = ratioClass input hop
    · subst hc
      rw [update_self, hi]
      exact index_update s.discrete (mem_class.mpr rfl) _
    · rw [update_of_ne hc, hi]
      refine (ratioHopsOf_congr fun other ho => ?_).symm
      refine update_of_ne ?_ _ _
      rintro rfl
      exact hc ho.symm

theorem swappedRatio_eq (d : Fin numHops → ℤ) (lhs rhs : Fin numHops) :
    swappedRatio d lhs rhs = update (update d lhs (d rhs)) rhs (d lhs) := by
  funext hop
  unfold swappedRatio
  by_cases hr : hop = rhs
  · subst hr
    rw [update_self]
    split
    · next hl => rw [hl]
    · rw [if_pos rfl]
  · rw [update_of_ne hr]
    by_cases hl : hop = lhs
    · subst hl
      rw [if_pos rfl, update_self]
    · rw [if_neg hl, if_neg hr, update_of_ne hl]

theorem sound_swap {lhs rhs : Fin numHops} (hi : s.ratioHops = ratioHopsOf input s.discrete)
    (hcl : ratioClass input rhs = ratioClass input lhs)
    (hne : s.discrete rhs ≠ s.discrete lhs) : Sound input s (swapProposal input s lhs rhs) := by
  refine ⟨⟨[lhs, rhs], ?_, fun other ho => ?_⟩, ?_⟩
  · unfold swapProposal
    dsimp only
    rw [swappedRatio_eq]
  · obtain ⟨hl, hr⟩ : other ≠ lhs ∧ other ≠ rhs := by simpa using ho
    exact (update_of_ne hr _ _).trans (update_of_ne hl _ _)
  · funext c
    unfold swapProposal
    dsimp only
    by_cases hc : c = ratioClass input lhs
    · subst hc
      rw [update_self, hi]
      exact index_swap s.discrete (mem_class.mpr rfl) (mem_class.mpr hcl) hne
    · rw [update_of_ne hc, hi]
      refine (ratioHopsOf_congr fun other ho => ?_).symm
      have hl : other ≠ lhs := by
        rintro rfl
        exact hc ho.symm
      have hr : other ≠ rhs := by
        rintro rfl
        exact hc (ho.symm.trans hcl)
      rw [update_of_ne hr, update_of_ne hl]

theorem sound_of_mem {critical : Fin numPaths} (hi : s.ratioHops = ratioHopsOf input s.discrete)
    (h : proposal ∈ proposals input s critical) : Sound input s proposal := by
  unfold proposals at h
  rcases mem_append.mp h with h | h
  · split at h
    · obtain ⟨hop, -, hp⟩ := mem_filterMap.mp h
      exact sound_harmonic hi hp
    · exact absurd h not_mem_nil
  · obtain ⟨lhs, -, hs⟩ := mem_flatMap.mp h
    obtain ⟨entry, he, rfl⟩ := mem_map.mp hs
    have hlt : (ofLex entry).1 < s.discrete lhs := by
      simpa using mem_takeWhile_imp (p := fun entry : ℤ ×ₗ Fin numHops =>
        decide ((ofLex entry).1 < s.discrete lhs)) he
    have hm := (takeWhile_sublist _).subset he
    rw [hi, ratioHopsOf, mem_sortedSet, mem_map] at hm
    obtain ⟨rhs, hr, rfl⟩ := hm
    exact sound_swap hi (mem_class.mp hr) (ne_of_lt hlt)

/-- Everything the state keeps is what it would be if computed again. -/
def Indexed (input : Input numDomains numHops numPaths) (s : State numDomains numHops numPaths) :
    Prop :=
  s = startState input s.discrete s.lane

theorem takeOver_eq (hs : Indexed input s) (h : Sound input s proposal) :
    takeOver s proposal = .ok (startState input proposal.discrete proposal.lane) := by
  obtain ⟨⟨hops, hc, hof⟩, hr⟩ := h
  have hm : s.metrics = metricsOf input s.discrete := congrArg State.metrics hs
  have ho : s.orderedMetrics = orderedMetricsOf (metricsOf input s.discrete) :=
    congrArg State.orderedMetrics hs
  unfold takeOver
  rw [hc, hm, ho, candidateMetrics, foldlM_acceptMetric,
    metricsOf_split hof, hr]
  rfl

theorem refineOnce_spec (hs : Indexed input s) : refineOnce input s = .ok none ∨
      ∃ s', refineOnce input s = .ok (some s') ∧ Indexed input s' ∧
        sortedMetrics input s.discrete < sortedMetrics input s'.discrete := by
  have hm : s.metrics = metricsOf input s.discrete := congrArg State.metrics hs
  have ho : s.orderedMetrics = orderedMetricsOf (metricsOf input s.discrete) :=
    congrArg State.orderedMetrics hs
  have hi : s.ratioHops = ratioHopsOf input s.discrete := congrArg State.ratioHops hs
  obtain ⟨entry, he⟩ := exists_head s.discrete
  unfold refineOnce
  rw [ho, he]
  dsimp only
  split
  · exact .inl rfl
  · next proposal hf =>
    have hsn := sound_of_mem hi (mem_of_find?_eq_some hf)
    have ha := find?_some hf
    rw [takeOver_eq hs hsn]
    refine .inr ⟨startState input proposal.discrete proposal.lane, rfl, rfl, ?_⟩
    obtain ⟨⟨hops, hc, hof⟩, -⟩ := hsn
    rw [hc, hm] at ha
    exact sorted_lt_of_accepts hof hm ho (isWorst_head he) ha

/-! ## runs -/

def Step (input : Input numDomains numHops numPaths) (s s' : State numDomains numHops numPaths) :
    Prop :=
  refineOnce input s = .ok (some s')

/-- The states of a run from `s`. -/
def Reaches (input : Input numDomains numHops numPaths) :
    State numDomains numHops numPaths → State numDomains numHops numPaths → Prop :=
  Relation.ReflTransGen (Step input)

theorem Step.spec (hs : Indexed input s) (h : Step input s s') :
    Indexed input s' ∧ sortedMetrics input s.discrete < sortedMetrics input s'.discrete := by
  rcases refineOnce_spec hs with hn | ⟨next, hnx, hsp⟩
  · unfold Step at h
    rw [hn] at h
    cases h
  · obtain rfl : s' = next := Option.some.inj (Except.ok.inj (h.symm.trans hnx))
    exact hsp

theorem Reaches.spec (hs : Indexed input s) (h : Reaches input s s') :
    Indexed input s' ∧ sortedMetrics input s.discrete ≤ sortedMetrics input s'.discrete := by
  induction h with
  | refl => exact ⟨hs, le_rfl⟩
  | tail _ hst ih =>
    obtain ⟨hi, hlt⟩ := hst.spec ih.1
    exact ⟨hi, ih.2.trans hlt.le⟩

theorem refineLoop_spec (iterations : ℕ) (hs : Indexed input s) :
    ∃ final, refineLoop input iterations s = .ok final ∧ Reaches input s final := by
  induction iterations generalizing s with
  | zero => exact ⟨s, rfl, .refl⟩
  | succ iterations ih =>
    rw [refineLoop]
    rcases refineOnce_spec hs with hnn | ⟨next, hn, hi, -⟩
    · rw [hnn]
      exact ⟨s, rfl, .refl⟩
    · obtain ⟨final, hf, hr⟩ := ih hi
      rw [hn]
      exact ⟨final, hf, .head hn hr⟩

/-- **Post-refinement never cycles or regresses.** From any ratios and lanes the refinement ends
without an error. In every state on the way the index is the one computed anew, the worst metric of
every change it tries is the worst one of the changed state, and after an accepted change the sorted
vector of all metrics stays above what it was before, and its least element is not below. -/
theorem postRefine_sound (input : Input numDomains numHops numPaths)
    (discrete lane : Fin numHops → ℤ) :
    (∃ final, postRefine input discrete lane = .ok final ∧
      Reaches input (startState input discrete lane) final) ∧
    ∀ s, Reaches input (startState input discrete lane) s → s = startState input s.discrete s.lane ∧
      (∀ critical, ∀ proposal ∈ proposals input s critical, ∃ worst,
        candidateWorst s.orderedMetrics proposal.candidate = some worst ∧
          IsWorst input proposal.discrete worst) ∧
      ∀ s', Step input s s' →
        (∀ t, Reaches input s' t → sortedMetrics input s.discrete < sortedMetrics
          input t.discrete) ∧
        ∀ worst worst', IsWorst input s.discrete worst → IsWorst input s'.discrete worst' →
          worst ≤ worst' := by
  have hstart : Indexed input (startState input discrete lane) := rfl
  refine ⟨refineLoop_spec _ hstart, fun s hreaches => ?_⟩
  have hs := (hreaches.spec hstart).1
  refine ⟨hs, fun critical proposal hmem => ?_, fun s' hstep => ⟨fun t ht => ?_, ?_⟩⟩
  · obtain ⟨⟨hops, hcandidate, hoff⟩, -⟩ := sound_of_mem (congrArg State.ratioHops hs) hmem
    have hordered : s.orderedMetrics = orderedMetricsOf (metricsOf input s.discrete) :=
      congrArg State.orderedMetrics hs
    rw [hcandidate, hordered]
    exact candidateWorst_eq hoff
  · obtain ⟨hs', hlt⟩ := hstep.spec hs
    exact hlt.trans_le (ht.spec hs').2
  · intro worst worst' h h'
    exact h.le_of_sorted_lt h' (hstep.spec hs).2

/-- Two hops of one link on paths of their own, whose ratios a change may exchange. -/
def twoHops : Input 1 2 2 where
  ratioQuantum := 1
  minRatio := 1
  harmonicLegalization := false
  postRefinementIterations := 4
  convergence := 1 / 2
  positiveScale := 1
  negativeScale := 1
  maxPeriod := 10
  lanes := fun _ => 2
  hops := fun _ => { domain := .last 0, direction := 0, compatibility := 0, baseDelayNs := 1
                     betaNs := 1 }
  paths := fun path => { clockPeriodNs := 10, requiredTimeNs := if path = .last 1 then 9 else 4
                         fixedDelayNs := 0, hops := [path] }
  numPaths_pos := Nat.zero_lt_two
  convergence_pos := by norm_num

theorem twoHops_refined : ∃ final, postRefine twoHops ![4, 1] ![0, 1] = .ok final ∧
    Reaches twoHops (startState twoHops ![4, 1] ![0, 1]) final :=
  (postRefine_sound twoHops ![4, 1] ![0, 1]).1

end EmuFlow.RatioOptimizer
