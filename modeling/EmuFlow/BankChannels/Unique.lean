import EmuFlow.BankChannels.Types

/-!
# Lefts with one candidate each

When every left has exactly one candidate these are the only assignment there can be. Its flow fills
every lane, so that its residual edges only lead back, and the costs of the lefts are potentials.
-/

namespace EmuFlow.BankChannels

open Check ResidualGraph SortedSet Transport List

variable {capacities : List ℤ} {leftCount : ℕ} {candidates choice : List CandidateEdge}
  {graph : List (Arc Vertex)} {potentials : Vertex → ℤ}

/-! ## potentials of a choice -/

theorem not_chosen : ∀ {graph : List (Arc Vertex)}, (lanes graph).Nodup →
    ∀ {arc : Arc Vertex} {lane : Lane}, arc ∈ graph → laneOf arc = some lane →
      arc.capacity ≠ 0 → lane ∉ chosen graph
  | [], _, _, _, h, _, _ => absurd h not_mem_nil
  | first :: graph, hnd, arc, lane, h, hln, hr => by
    have hs : chosen (first :: graph) = chosen [first] ++ chosen graph := by
      rw [chosen, chosen, chosen, ← filterMap_append, ← filter_append]
      rfl
    have hsb : ∀ {l : Lane}, l ∈ chosen graph → l ∈ lanes graph := fun hl =>
      (filter_sublist.filterMap laneOf).subset hl
    rw [hs, List.mem_append, not_or]
    rcases mem_cons.mp h with rfl | h
    · rw [lanes, filterMap_cons_some hln, nodup_cons] at hnd
      exact ⟨by simp [chosen, hr], fun hin => hnd.1 (hsb hin)⟩
    · have hrs : (lanes graph).Nodup :=
        hnd.sublist ((sublist_cons_self first graph).filterMap laneOf)
      refine ⟨fun hin => ?_, not_chosen hrs h hln hr⟩
      obtain ⟨arc', ha', hln'⟩ := mem_filterMap.mp hin
      rw [mem_singleton.mp (mem_filter.mp ha').1] at hln'
      rw [lanes, filterMap_cons_some hln', nodup_cons] at hnd
      exact hnd.1 (mem_filterMap.mpr ⟨arc, h, hln⟩)

theorem mem_chosen_of_full {arc : Arc Vertex} {lane : Lane} (h : arc ∈ graph)
    (hl : laneOf arc = some lane) (hf : arc.capacity = 0) : lane ∈ chosen graph :=
  mem_filterMap.mpr ⟨arc, mem_filter.mpr ⟨h, decide_eq_true hf⟩, hl⟩

theorem potential_of_arcs (h : ∀ arc ∈ graph,
    (0 < arc.capacity → potentials arc.target ≤ potentials arc.source + arc.cost) ∧
      (0 < arc.reverse → potentials arc.source ≤ potentials arc.target - arc.cost)) :
    Potential graph potentials := by
  intro e he hc
  obtain ⟨arc, ha, hs⟩ := mem_steps.mp he
  obtain ⟨hfr, hb⟩ := h arc (mem_of_getElem? ha)
  rw [hs] at hc ⊢
  cases hf : e.forward with
  | true =>
    rw [hf] at hc
    exact hfr hc
  | false =>
    rw [hf] at hc
    have hle := hb hc
    simp only [Arc.step]
    omega

structure Reduced (capacities : List ℤ) (leftCount : ℕ) (candidates choice : List CandidateEdge)
    (potentials : Vertex → ℤ) : Prop where
  rights : ∀ right < capacities.length,
    ((choice.countP fun edge => edge.right = right : ℤ) < capacities.getD right 0 →
      potentials (.right right) ≤ potentials .source) ∧
    (0 < choice.countP (fun edge => edge.right = right) →
      potentials .source ≤ potentials (.right right))
  others : ∀ candidate ∈ candidates, candidate ∉ choice →
    potentials (.left candidate.left) ≤ potentials (.right candidate.right) + candidate.cost
  taken : ∀ edge ∈ choice, potentials (.right edge.right) ≤ potentials (.left edge.left) - edge.cost
  lefts : ∀ left < leftCount, potentials (.left left) ≤ potentials .sink

theorem potential_of_choice (hnd : candidates.Nodup)
    (hfr : graph.map Arc.frame = (flowNetwork capacities leftCount candidates).map Arc.frame)
    (hch : chosen graph = choice)
    (hld : ∀ arc ∈ graph, Loaded (fun right => choice.countP fun lane => lane.right = right)
      (fun left => choice.countP fun lane => lane.left = left) arc)
    (hls : (choice.map Lane.left).Perm (List.range leftCount))
    (h : Reduced capacities leftCount candidates choice potentials) :
    Potential graph potentials := by
  have hln : lanes graph = candidates := (lanes_of_same hfr).trans lanes_flowNetwork
  refine potential_of_arcs fun arc har => ?_
  obtain ⟨hsp, hdm, hla⟩ := hld arc har
  obtain ⟨arc', har', hsm⟩ := exists_of_frame hfr har
  simp only [Arc.frame, Prod.mk.injEq] at hsm
  obtain ⟨hs, ht, hc, htt⟩ := hsm
  simp only [flowNetwork, List.mem_append, mem_map] at har'
  rcases har' with (⟨entry, hen, rfl⟩ | ⟨candidate, hcn, rfl⟩) | ⟨left, hlf, rfl⟩
  · have hnm : supplyName arc = some entry.2 := by simp [supplyName, ← hs, ← ht, supplyArc]
    have hrv : arc.reverse = (choice.countP fun lane => lane.right = entry.2 : ℤ) :=
      hsp _ hnm
    have hlt := snd_lt_of_mem_zipIdx hen
    obtain ⟨hles, hus⟩ := h.rights entry.2 (by omega)
    have hcp : capacities.getD entry.2 0 = arc.capacity + arc.reverse := by
      have hgt := List.mk_mem_zipIdx_iff_getElem?.mp hen
      rw [getD_eq_getElem?_getD, hgt, ← htt]
      simp [supplyArc]
    rw [← hs, ← ht, ← hc]
    simp only [supplyArc]
    constructor
    · intro hca
      have hle := hles (by omega)
      omega
    · intro hre
      have hle := hus (by omega)
      omega
  · have hnm : laneOf arc = some candidate := by
      simp [laneOf, ← hs, ← ht, ← hc, laneArc]
    obtain ⟨hca₀, hre₀⟩ := hla (by rw [hnm]; rfl)
    have hun : arc.capacity + arc.reverse = 1 := htt.symm
    rw [← hs, ← ht, ← hc]
    simp only [laneArc]
    constructor
    · intro hca
      have hnt : candidate ∉ choice := hch ▸ not_chosen (hln ▸ hnd) har hnm (by omega)
      exact h.others candidate hcn hnt
    · intro hre
      have hin : candidate ∈ choice := hch ▸ mem_chosen_of_full har hnm (by omega)
      exact h.taken candidate hin
  · have hnm : demandName arc = some left := by simp [demandName, ← hs, ← ht, demandArc]
    have hrv : arc.reverse = (choice.countP fun lane => lane.left = left : ℤ) :=
      hdm _ hnm
    have hct : choice.countP (fun lane => lane.left = left) = 1 := by
      rw [countP_left, hls.count_eq]
      exact count_eq_one_of_mem nodup_range hlf
    have hun : arc.capacity + arc.reverse = 1 := htt.symm
    have hle := h.lefts left (mem_range.mp hlf)
    rw [← hs, ← ht, ← hc]
    simp only [demandArc]
    constructor
    · intro hca
      omega
    · intro _
      omega

variable {edges : List CandidateEdge}

theorem settles_of_reduced {totalCost : ℤ} (hn : candidates.Nodup)
    (hch : Choice (flowNetwork capacities leftCount candidates) choice)
    (hp : choice.Perm edges) (hl : edges.map Lane.left = List.range leftCount)
    (ht : totalCost = (edges.map Lane.cost).sum)
    (h : Reduced capacities leftCount candidates choice potentials) :
    Settles capacities leftCount candidates (.ok (resultOf edges totalCost potentials)) := by
  obtain ⟨graph, hf, hc, hfl, hld⟩ := exists_flow network_flowNetwork hch
  have hm : (choice.map Lane.left).Perm (List.range leftCount) := by
    rw [← hl]
    exact hp.map Lane.left
  have hln : choice.length = leftCount := by
    have hle := hm.length_eq
    rwa [length_map, length_range] at hle
  rw [hln] at hfl
  exact settles_of_certified hf hfl (hc ▸ hp) hl ht
    (potential_of_choice hn hf hc hld hm h)

structure Filled (rightCount leftCount : ℕ) (done : List CandidateEdge)
    (unique : List (Option CandidateEdge)) : Prop where
  length : unique.length = leftCount
  range : ∀ candidate ∈ done, candidate.left < leftCount ∧ candidate.right < rightCount
  lefts : (done.map Lane.left).Nodup
  entries : ∀ left candidate, unique[left]? = some (some candidate) ↔
    candidate ∈ done ∧ candidate.left = left

variable {rightCount : ℕ} {done : List CandidateEdge} {unique : List (Option CandidateEdge)}
  {candidate : CandidateEdge}

theorem Filled.step (h : Filled rightCount leftCount done unique)
    {next : List (Option CandidateEdge)}
    (hst : addUnique rightCount leftCount unique candidate = some next) :
    Filled rightCount leftCount (done ++ [candidate]) next := by
  unfold addUnique at hst
  split_ifs at hst with hsk
  cases hst
  rw [not_or, not_or] at hsk
  obtain ⟨hl, hr, he⟩ := hsk
  have hn : candidate.left ∉ done.map Lane.left := by
    intro hm
    obtain ⟨other, ho, heq⟩ := mem_map.mp hm
    have hen := (h.entries candidate.left other).mpr ⟨ho, heq⟩
    rw [hen] at he
    exact he rfl
  refine ⟨by rw [length_set, h.length], ?_, ?_, fun left other => ?_⟩
  · intro other ho
    rcases List.mem_append.mp ho with ho | ho
    · exact h.range other ho
    · rw [mem_singleton.mp ho]
      exact ⟨not_le.mp hl, not_le.mp hr⟩
  · rw [map_append, nodup_append]
    refine ⟨h.lefts, nodup_singleton _, ?_⟩
    intro a ha b hb hab
    rw [map_singleton, mem_singleton] at hb
    exact hn (hb ▸ hab ▸ ha)
  · rw [List.mem_append, mem_singleton, List.getElem?_set]
    by_cases hs : candidate.left = left
    · rw [if_pos hs, if_pos (by rw [h.length]; omega)]
      constructor
      · intro hsm
        rw [← Option.some.inj (Option.some.inj hsm)]
        exact ⟨.inr rfl, hs⟩
      · rintro ⟨ho | rfl, heq⟩
        · exact absurd (mem_map.mpr ⟨other, ho, heq.trans hs.symm⟩) hn
        · rfl
    · rw [if_neg hs, h.entries]
      constructor
      · exact fun ho => ⟨.inl ho.1, ho.2⟩
      · rintro ⟨ho | rfl, heq⟩
        · exact ⟨ho, heq⟩
        · exact absurd heq hs

theorem Filled.run : ∀ {rest done : List CandidateEdge} {unique next : List (Option CandidateEdge)},
    Filled rightCount leftCount done unique →
    rest.foldlM (addUnique rightCount leftCount) unique = some next →
    Filled rightCount leftCount (done ++ rest) next
  | [], done, unique, next, h, hrn => by
    cases hrn
    rwa [append_nil]
  | candidate :: rest, done, unique, next, h, hrn => by
    rw [foldlM_cons] at hrn
    obtain ⟨mid, hs, hr⟩ := Option.bind_eq_some_iff.mp hrn
    have hl := Filled.run (h.step hs) hr
    rwa [append_assoc] at hl

theorem mapM_id_eq_some : ∀ {l : List (Option CandidateEdge)} {m : List CandidateEdge},
    l.mapM id = some m → l = m.map some
  | [], m, h => by
    rw [mapM_nil] at h
    cases h
    rfl
  | a :: l, m, h => by
    rw [mapM_cons] at h
    obtain ⟨b, hb, h⟩ := Option.bind_eq_some_iff.mp h
    obtain ⟨m', hm, h⟩ := Option.bind_eq_some_iff.mp h
    cases h
    rw [map_cons, ← mapM_id_eq_some hm]
    exact congrArg (· :: l) hb

theorem uniqueCandidates_spec (h : uniqueCandidates rightCount leftCount candidates = some edges) :
    edges.map Lane.left = List.range leftCount ∧ candidates.Perm edges := by
  obtain ⟨next, hr, hm⟩ := Option.bind_eq_some_iff.mp h
  have hs : Filled rightCount leftCount [] (List.replicate leftCount none) := by
    refine ⟨length_replicate, fun _ h => absurd h not_mem_nil, nodup_nil,
      fun left candidate => ⟨fun he => ?_, fun hmm => absurd hmm.1 not_mem_nil⟩⟩
    rw [List.getElem?_replicate] at he
    split_ifs at he
    cases he
  have hf := hs.run hr
  rw [nil_append, mapM_id_eq_some hm] at hf
  have hln : edges.length = leftCount := by rw [← hf.length, length_map]
  have ha : ∀ left (hl : left < edges.length), edges[left] ∈ candidates ∧
      edges[left].left = left := fun left hl =>
    (hf.entries left _).mp (by rw [List.getElem?_map, List.getElem?_eq_getElem hl]; rfl)
  have hlt : edges.map Lane.left = List.range leftCount := by
    refine ext_getElem (by rw [length_map, length_range, hln]) fun left hl _ => ?_
    rw [getElem_map, getElem_range]
    exact (ha left (by rwa [length_map] at hl)).2
  refine ⟨hlt, ?_⟩
  have hnd : edges.Nodup := Nodup.of_map Lane.left (hlt ▸ nodup_range)
  refine (perm_ext_iff_of_nodup (Nodup.of_map Lane.left hf.lefts) hnd).mpr
    fun candidate => ⟨fun hin => ?_, fun hin => ?_⟩
  · have he := (hf.entries candidate.left candidate).mpr ⟨hin, rfl⟩
    rw [List.getElem?_map, Option.map_eq_some_iff] at he
    obtain ⟨edge, hed, heq⟩ := he
    rw [← Option.some.inj heq]
    exact mem_of_getElem? hed
  · obtain ⟨left, hl, rfl⟩ := getElem_of_mem hin
    exact (ha left hl).1

/-! ## the loop over the lefts -/

def usage (edges : List CandidateEdge) : (ℕ → ℤ) × ℤ :=
  (fun right => edges.countP fun edge => edge.right = right, (edges.map Lane.cost).sum)

theorem usage_append (done : List CandidateEdge) (edge : CandidateEdge) :
    usage (done ++ [edge]) = (Function.update (usage done).1 edge.right
      ((usage done).1 edge.right + 1), (usage done).2 + edge.cost) := by
  refine Prod.ext (funext fun right => ?_) (by simp [usage])
  by_cases hr : right = edge.right
  · simp [usage, hr, countP_append]
  · simp [usage, hr, Ne.symm hr, countP_append, Function.update_of_ne]

theorem bindUnique_eq (hc : (usage done).2 + candidate.cost ≤ int64Max) :
    bindUnique capacities (usage done) candidate =
      if (usage (done ++ [candidate])).1 candidate.right ≤ capacities.getD candidate.right 0
      then .ok (usage (done ++ [candidate])) else .error noAssignment := by
  rw [usage_append]
  simp only [bindUnique, Function.update_self]
  split_ifs with hf
  · refine raiseIf_bind.mpr ⟨not_lt.mpr hf, ?_⟩
    exact raiseIf_bind.mpr ⟨by omega, rfl⟩
  · rw [raiseIf, if_pos (by omega)]
    rfl

theorem usage_le (done rest : List CandidateEdge) (right : ℕ) :
    (usage done).1 right ≤ (usage (done ++ rest)).1 right := by
  simp only [usage, countP_append]
  push_cast
  omega

theorem cost_so_far_le {rest : List CandidateEdge} (h : ∀ edge ∈ rest, 0 ≤ edge.cost)
    (hs : (usage (done ++ candidate :: rest)).2 ≤ int64Max) :
    (usage done).2 + candidate.cost ≤ int64Max := by
  have hr : 0 ≤ (rest.map Lane.cost).sum := sum_nonneg fun c hc => by
    obtain ⟨edge, he, rfl⟩ := mem_map.mp hc
    exact h edge he
  simp only [usage, map_append, map_cons, sum_append, sum_cons] at hs ⊢
  omega

theorem foldlM_bindUnique : ∀ {rest done : List CandidateEdge},
    (∀ edge ∈ rest, 0 ≤ edge.cost) → (usage (done ++ rest)).2 ≤ int64Max →
    (∀ right, (usage (done ++ rest)).1 right ≤ capacities.getD right 0) →
    rest.foldlM (bindUnique capacities) (usage done) = .ok (usage (done ++ rest))
  | [], done, _, _, _ => by
    rw [append_nil]
    rfl
  | candidate :: rest, done, hc, hsm, hf => by
    obtain ⟨-, hr⟩ := forall_mem_cons.mp hc
    have hs : done ++ candidate :: rest = (done ++ [candidate]) ++ rest := by
      rw [append_assoc]
      rfl
    have hle : (usage (done ++ [candidate])).1 candidate.right ≤
        capacities.getD candidate.right 0 :=
      (usage_le _ rest _).trans (hs ▸ hf candidate.right)
    rw [foldlM_cons, bindUnique_eq (cost_so_far_le hr hsm), if_pos hle, hs]
    exact foldlM_bindUnique hr (hs ▸ hsm) (hs ▸ hf)

theorem foldlM_bindUnique_error : ∀ {rest done : List CandidateEdge},
    (∀ edge ∈ rest, 0 ≤ edge.cost) → (usage (done ++ rest)).2 ≤ int64Max →
    (∀ right, (usage done).1 right ≤ capacities.getD right 0) →
    (∃ right, capacities.getD right 0 < (usage (done ++ rest)).1 right) →
    rest.foldlM (bindUnique capacities) (usage done) = .error noAssignment
  | [], done, _, _, hd, h => by
    obtain ⟨right, hlt⟩ := h
    rw [append_nil] at hlt
    exact absurd hlt (not_lt.mpr (hd right))
  | candidate :: rest, done, hc, hsm, hd, h => by
    obtain ⟨-, hrs⟩ := forall_mem_cons.mp hc
    have hs : done ++ candidate :: rest = (done ++ [candidate]) ++ rest := by
      rw [append_assoc]
      rfl
    rw [foldlM_cons, bindUnique_eq (cost_so_far_le hrs hsm)]
    split_ifs with hf
    · refine foldlM_bindUnique_error hrs (hs ▸ hsm) (fun right => ?_) (hs ▸ h)
      by_cases hr : right = candidate.right
      · rw [hr]
        exact hf
      · rw [usage_append]
        dsimp only
        rw [Function.update_of_ne hr]
        exact hd right
    · rfl

theorem le_foldl_max : ∀ {l : List ℤ} {start : ℤ},
    start ≤ l.foldl max start ∧ ∀ c ∈ l, c ≤ l.foldl max start
  | [], start => ⟨le_refl _, fun _ h => absurd h not_mem_nil⟩
  | c :: l, start => by
    obtain ⟨hs, ha⟩ := @le_foldl_max l (max start c)
    refine ⟨(le_max_left _ _).trans hs, forall_mem_cons.mpr ⟨?_, ha⟩⟩
    exact (le_max_right _ _).trans hs

theorem settles_of_unique (hp : candidates.Perm edges)
    (hl : edges.map Lane.left = List.range leftCount)
    (hf : ∀ right, (usage edges).1 right ≤ capacities.getD right 0) :
    Settles capacities leftCount candidates
      (.ok (resultOf edges (edges.map Lane.cost).sum (uniquePotentials edges))) := by
  have hc : Choice (flowNetwork capacities leftCount candidates) candidates := by
    refine ⟨by rw [lanes_flowNetwork], fun right => ?_, fun left => ?_⟩
    · rw [supplyCapacity_flowNetwork, hp.countP_eq]
      exact hf right
    · rw [demandCapacity_flowNetwork, hp.countP_eq, countP_left, hl, count_range_eq]
  have hnd : candidates.Nodup :=
    hp.nodup_iff.mpr (Nodup.of_map Lane.left (hl ▸ nodup_range))
  -- the potential of a left is the cost of its edge
  have ha : ∀ edge ∈ edges, uniquePotentials edges (.left edge.left) = edge.cost := by
    intro edge he
    obtain ⟨left, hlt, rfl⟩ := getElem_of_mem he
    have hin : edges[left].left = left := by
      have hm : (edges.map Lane.left)[left]? = some edges[left].left := by
        rw [List.getElem?_map, List.getElem?_eq_getElem hlt]
        rfl
      rw [hl] at hm
      obtain ⟨_, heq⟩ := List.getElem?_eq_some_iff.mp hm
      rwa [getElem_range, eq_comm] at heq
    rw [uniquePotentials, hin, List.getElem?_eq_getElem hlt]
    rfl
  refine settles_of_reduced hnd hc hp hl rfl ⟨fun right _ => ?_,
    fun candidate hcn hn => absurd hcn hn, fun edge he => ?_,
    fun left hlt => ?_⟩
  · exact ⟨fun _ => le_refl _, fun _ => le_refl _⟩
  · rw [ha edge (hp.mem_iff.mp he)]
    show (0 : ℤ) ≤ edge.cost - edge.cost
    omega
  · have hmm : left ∈ edges.map Lane.left := by
      rw [hl]
      exact mem_range.mpr hlt
    obtain ⟨edge, he, rfl⟩ := mem_map.mp hmm
    rw [ha edge he]
    exact le_foldl_max.2 edge.cost (mem_map_of_mem he)

theorem fits_of_complete {edges other : List CandidateEdge} (hp : candidates.Perm edges)
    (hl : edges.map Lane.left = List.range leftCount)
    (ho : Complete capacities leftCount candidates other) (right : ℕ) :
    (usage edges).1 right ≤ capacities.getD right 0 := by
  have hsb : other.Subperm edges := Nodup.subperm ho.nodup fun edge he =>
    hp.mem_iff.mp (ho.legal edge he)
  have hs : other.Perm edges := by
    refine hsb.perm_of_length_le ?_
    have hln := congrArg List.length hl
    rw [length_map, length_range] at hln
    rw [hln, ho.length]
  have hle := ho.rights right
  rw [hs.countP_eq] at hle
  exact hle

/-- **Lefts with one candidate each**: their candidates, or no assignment. -/
theorem assignUnique_settles (ha : Accepted capacities leftCount candidates)
    (h : uniqueCandidates capacities.length leftCount candidates = some edges) :
    Settles capacities leftCount candidates (assignUnique capacities edges) := by
  obtain ⟨hl, hp⟩ := uniqueCandidates_spec h
  have hcs : ∀ edge ∈ edges, 0 ≤ edge.cost := fun edge he =>
    (ha.range edge (hp.mem_iff.mpr he)).2.2
  have hs : (usage ([] ++ edges)).2 ≤ int64Max := by
    show (edges.map Lane.cost).sum ≤ int64Max
    have hb := ha.sum
    rw [(hp.map Lane.cost).sum_eq] at hb
    have hin : infinity ≤ int64Max := by decide
    omega
  have hst : usage [] = ((fun _ => 0), 0) := rfl
  by_cases hf : ∀ right, (usage ([] ++ edges)).1 right ≤ capacities.getD right 0
  · have hr : assignUnique capacities edges =
        .ok (resultOf edges (edges.map Lane.cost).sum (uniquePotentials edges)) := by
      rw [assignUnique, ← hst, foldlM_bindUnique hcs hs hf]
      rfl
    rw [hr]
    exact settles_of_unique hp hl hf
  · have ho : ∃ right, capacities.getD right 0 < (usage ([] ++ edges)).1 right := by
      by_contra hn
      refine hf fun right => ?_
      by_contra hlt
      exact hn ⟨right, not_le.mp hlt⟩
    have hz : ∀ right, (usage []).1 right ≤ capacities.getD right 0 := by
      intro right
      show (0 : ℤ) ≤ capacities.getD right 0
      rw [getD_eq_getElem?_getD]
      cases hc : capacities[right]? with
      | none => exact le_refl _
      | some capacity => exact ha.nonneg capacity (mem_of_getElem? hc)
    have hr : assignUnique capacities edges = .error noAssignment := by
      rw [assignUnique, ← hst, foldlM_bindUnique_error hcs hs hz ho]
      rfl
    rw [hr]
    refine .none fun other hot => hf fun right => ?_
    exact fits_of_complete hp hl hot right

theorem foldlM_bindUnique_cases : ∀ {rest done : List CandidateEdge},
    (∀ right, (usage (done ++ rest)).1 right ≤ capacities.getD right 0) →
    rest.foldlM (bindUnique capacities) (usage done) = .ok (usage (done ++ rest)) ∨
      rest.foldlM (bindUnique capacities) (usage done) =
        .error "Chimew assignment cost is out of range"
  | [], done, _ => by
    rw [append_nil]
    exact .inl rfl
  | candidate :: rest, done, hf => by
    have hs : done ++ candidate :: rest = (done ++ [candidate]) ++ rest := by
      rw [append_assoc]
      rfl
    have hle : (usage (done ++ [candidate])).1 candidate.right ≤
        capacities.getD candidate.right 0 :=
      (usage_le _ rest _).trans (hs ▸ hf candidate.right)
    rw [foldlM_cons]
    by_cases hr : (usage done).2 + candidate.cost ≤ int64Max
    · rw [bindUnique_eq hr, if_pos hle, hs]
      exact foldlM_bindUnique_cases (hs ▸ hf)
    · right
      rw [usage_append] at hle
      rw [bindUnique]
      dsimp only at hle ⊢
      rw [raiseIf, if_neg (not_lt.mpr hle), raiseIf, if_pos (by omega)]
      rfl

theorem assignUnique_cases {edges other : List CandidateEdge}
    (h : uniqueCandidates capacities.length leftCount candidates = some edges)
    (ho : Complete capacities leftCount candidates other) :
    (∃ r, assignUnique capacities edges = .ok r ∧
        Settles capacities leftCount candidates (.ok r)) ∨
      assignUnique capacities edges = .error "Chimew assignment cost is out of range" := by
  obtain ⟨hl, hp⟩ := uniqueCandidates_spec h
  have hf := fits_of_complete hp hl ho
  have hs : usage [] = ((fun _ => 0), 0) := rfl
  rcases @foldlM_bindUnique_cases capacities edges [] hf with hr | hr
  · refine .inl ⟨_, ?_, settles_of_unique hp hl hf⟩
    rw [assignUnique, ← hs, hr]
    rfl
  · right
    rw [assignUnique, ← hs, hr]
    rfl

end EmuFlow.BankChannels
