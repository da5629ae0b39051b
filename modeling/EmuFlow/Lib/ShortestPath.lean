import EmuFlow.Lib.ResidualGraph

/-!
# Queue-based shortest paths in a residual graph

A node taken from the queue offers its distance to the ends of its edges; an end that improves
remembers the edge and is queued. Edges may cost less than zero. With prices that no edge undercuts,
distances are bounded below and the remembered edges never close a cycle, so that the search ends.
-/

namespace ResidualGraph

open List
open Function (update update_of_ne update_self)

variable {ν : Type} [DecidableEq ν]

/-- `distance`, `previous_node` with `previous_edge`, `queue` and `in_queue`. -/
structure Search (ν : Type) where
  distance : ν → ℤ
  previous : ν → Option (Step ν)
  queue : List ν
  queued : ν → Bool

def Search.start (infinity : ℤ) (source : ν) : Search ν where
  distance := update (fun _ => infinity) source 0
  previous _ := none
  queue := [source]
  queued := update (fun _ => false) source true

def relax (s : Search ν) (e : Step ν) : Search ν :=
  if e.capacity ≤ 0 then s
  else
    let candidate := s.distance e.source + e.cost
    if candidate < s.distance e.target then
      { distance := update s.distance e.target candidate
        previous := update s.previous e.target (some e)
        queue := if s.queued e.target then s.queue else s.queue ++ [e.target]
        queued := update s.queued e.target true }
    else s

/-- `while (!queue.empty())`; `none` without the fuel to finish. -/
def search (graph : List (Arc ν)) : ℕ → Search ν → Option (Search ν)
  | 0, _ => none
  | fuel + 1, s =>
    match s.queue with
    | [] => some s
    | node :: queue =>
      search graph fuel ((edgesFrom graph node).foldl relax
        { s with queue := queue, queued := update s.queued node false })

/-- The remembered edges lead from a node back to the source. -/
inductive Traced (previous : ν → Option (Step ν)) (source : ν) : ν → List (Step ν) → Prop
  | nil : Traced previous source source []
  | cons {v : ν} {e : Step ν} {p : List (Step ν)} : v ≠ source → previous v = some e →
    Traced previous source e.source p → Traced previous source v (e :: p)

variable {graph : List (Arc ν)} {source : ν} {infinity : ℤ} {price : ν → ℤ} {s : Search ν}
  {e : Step ν} {pending : List (Step ν)} {v : ν} {p p' : List (Step ν)}

/-! ## the invariant -/

/-- What holds between two edges; those of the node at hand that are still to come are pending. -/
structure SearchInv (graph : List (Arc ν)) (source : ν) (infinity : ℤ) (price : ν → ℤ)
    (pending : List (Step ν)) (s : Search ν) : Prop where
  source_zero : s.distance source = 0
  le_infinity : ∀ v, s.distance v ≤ infinity
  lower : ∀ v, s.distance v < infinity → price v - price source ≤ s.distance v
  tree : ∀ v, v ≠ source → s.distance v < infinity → ∃ e, s.previous v = some e ∧
    e ∈ steps graph ∧ 0 < e.capacity ∧ e.target = v ∧ s.distance e.source < infinity ∧
    s.distance e.source + e.cost ≤ s.distance v
  traced : ∀ v, s.distance v < infinity → ∃ p, Traced s.previous source v p
  queued : ∀ v, s.queued v = true → v ∈ s.queue
  reached : ∀ v ∈ s.queue, s.distance v < infinity
  closed : ∀ e ∈ steps graph, 0 < e.capacity → s.distance e.source < infinity →
    e.source ∉ s.queue → e ∉ pending → s.distance e.target ≤ s.distance e.source + e.cost

theorem searchInv_start (h : 0 < infinity) :
    SearchInv graph source infinity price [] (Search.start infinity source) := by
  have hd : ∀ v, (Search.start infinity source).distance v =
      if v = source then 0 else infinity := fun v => by
    simp [Search.start, Function.update_apply]
  have ho : ∀ v, (Search.start infinity source).distance v < infinity → v = source := by
    intro v hv
    by_contra hne
    rw [hd, if_neg hne] at hv
    exact lt_irrefl _ hv
  refine ⟨by simp [hd], fun v => ?_, fun v hv => ?_, fun v hne hv => ?_, fun v hv => ?_,
    fun v hv => ?_, fun v hv => ?_, fun e _ _ hv hot => ?_⟩
  · rw [hd]
    split_ifs
    · exact h.le
    · exact le_refl _
  · rw [ho v hv, hd, if_pos rfl, sub_self]
  · exact absurd (ho v hv) hne
  · rw [ho v hv]
    exact ⟨[], .nil⟩
  · by_contra hne
    simp only [Search.start, mem_singleton] at hne hv
    rw [update_of_ne hne] at hv
    exact absurd hv (by simp)
  · rw [mem_singleton.mp hv, hd, if_pos rfl]
    exact h
  · exact absurd (mem_singleton.mpr (ho _ hv)) hot

/-- What an edge changes when it improves its end. -/
structure Improved (s : Search ν) (e : Step ν) (t : Search ν) : Prop where
  capacity : 0 < e.capacity
  less : s.distance e.source + e.cost < s.distance e.target
  distance : ∀ v, t.distance v = if v = e.target then s.distance e.source + e.cost else s.distance v
  previous : ∀ v, t.previous v = if v = e.target then some e else s.previous v
  queue : (s.queued e.target = true → e.target ∈ s.queue) →
    ∀ v, v ∈ t.queue ↔ v = e.target ∨ v ∈ s.queue
  queued : ∀ v, t.queued v = true → v = e.target ∨ s.queued v = true

theorem relax_cases (s : Search ν) (e : Step ν) :
    (relax s e = s ∧ (0 < e.capacity → s.distance e.target ≤ s.distance e.source + e.cost)) ∨
      Improved s e (relax s e) := by
  unfold relax
  by_cases hc : e.capacity ≤ 0
  · exact .inl ⟨if_pos hc, fun h => absurd h (not_lt.mpr hc)⟩
  rw [if_neg hc]
  by_cases hl : s.distance e.source + e.cost < s.distance e.target
  · simp only [if_pos hl]
    refine .inr ⟨not_le.mp hc, hl, fun v => Function.update_apply _ _ _ v,
      fun v => Function.update_apply _ _ _ v, fun hqd v => ?_, fun v hv => ?_⟩
    · by_cases hq : s.queued e.target = true
      · simp only [if_pos hq]
        exact ⟨.inr, fun h => h.elim (fun h => h ▸ hqd hq) id⟩
      · simp only [if_neg hq, List.mem_append, mem_singleton]
        exact or_comm
    · by_cases ht : v = e.target
      · exact .inl ht
      · exact .inr (by simpa [update_of_ne ht] using hv)
  · simp only [if_neg hl]
    exact .inl ⟨trivial, fun _ => not_lt.mp hl⟩

variable {t : Search ν}

theorem Improved.kept (h : Improved s e t) (hv : v ≠ e.target) :
    t.distance v = s.distance v ∧ t.previous v = s.previous v :=
  ⟨by rw [h.distance, if_neg hv], by rw [h.previous, if_neg hv]⟩

theorem Improved.le (h : Improved s e t) (v : ν) : t.distance v ≤ s.distance v := by
  rw [h.distance]
  split_ifs with hv
  · rw [hv]
    exact h.less.le
  · exact le_refl _

theorem traced_or_le (hprice : Potential graph price)
    (hinv : SearchInv graph source infinity price pending s) (hi : Improved s e t)
    {w : ν} (hw : s.distance w < infinity) (h : Traced s.previous source w p) :
    (∃ p', Traced t.previous source w p') ∨
      s.distance e.target - price e.target ≤ s.distance w - price w := by
  induction h with
  | nil => exact .inl ⟨[], .nil⟩
  | @cons w e' p hs hp _ ih =>
    obtain ⟨e'', hsm, hm, hc, ht, hreached, hle⟩ := hinv.tree w hs hw
    rw [hp] at hsm
    cases hsm
    rcases ih hreached with ⟨p', hp'⟩ | hl
    · by_cases hsl : w = e.target
      · right
        rw [hsl]
      · exact .inl ⟨e' :: p', .cons hs ((hi.kept hsl).2.trans hp) hp'⟩
    · right
      have hed := hprice e' hm hc
      rw [ht] at hed
      omega

theorem traced_of_improved {path : List (Step ν)} (hi : Improved s e t)
    (hne : e.target ≠ source) (hpt : Traced t.previous source e.source path)
    (h : Traced s.previous source v p) : ∃ p', Traced t.previous source v p' := by
  have ht : Traced t.previous source e.target (e :: path) :=
    .cons hne (by rw [hi.previous, if_pos rfl]) hpt
  induction h with
  | nil => exact ⟨[], .nil⟩
  | @cons w e' p hsr hp _ ih =>
    by_cases hs : w = e.target
    · exact ⟨e :: path, hs ▸ ht⟩
    · obtain ⟨p', hp'⟩ := ih
      exact ⟨e' :: p', .cons hsr ((hi.kept hs).2.trans hp) hp'⟩

section

variable (hprice : Potential graph price)
  (hinv : SearchInv graph source infinity price (e :: pending) s) (he : e ∈ steps graph)
  (hreached : s.distance e.source < infinity)
include hprice hinv he hreached

theorem SearchInv.improve (h : Improved s e t) :
    SearchInv graph source infinity price pending t := by
  have hed := hprice e he h.capacity
  have hlw := hinv.lower _ hreached
  have hin := hinv.le_infinity e.target
  have hls := h.less
  have hne : e.target ≠ source := by
    intro htr
    rw [htr, hinv.source_zero] at hls
    rw [htr] at hed
    omega
  have hlp : e.source ≠ e.target := by
    intro hsm
    rw [hsm] at hls hed
    omega
  have hqu := h.queue (hinv.queued e.target)
  -- the prices tell that the source of the edge is not behind its target
  obtain ⟨path, hpt⟩ : ∃ path, Traced t.previous source e.source path := by
    obtain ⟨p, hp⟩ := hinv.traced _ hreached
    rcases traced_or_le hprice hinv h hreached hp with htc | hbc
    · exact htc
    · omega
  have hnw : t.distance e.target = s.distance e.source + e.cost := by
    rw [h.distance, if_pos rfl]
  refine ⟨?_, fun v => (h.le v).trans (hinv.le_infinity v), fun v hv => ?_, fun v hv hlt => ?_,
    fun v hlt => ?_, fun v hv => ?_, fun v hv => ?_, fun e' he' hcp' hlt hot hpn => ?_⟩
  · exact (h.kept hne.symm).1.trans hinv.source_zero
  · by_cases htr : v = e.target
    · rw [htr, hnw]
      omega
    · rw [(h.kept htr).1] at hv ⊢
      exact hinv.lower v hv
  · by_cases htr : v = e.target
    · refine ⟨e, by rw [h.previous, if_pos htr], he, h.capacity, htr.symm, ?_, ?_⟩
      · rw [(h.kept hlp).1]
        exact hreached
      · rw [htr, hnw, (h.kept hlp).1]
    · rw [(h.kept htr).1] at hlt
      obtain ⟨e', hpr, hmm, hcp', ht', hr', hle'⟩ := hinv.tree v hv hlt
      refine ⟨e', (h.kept htr).2.trans hpr, hmm, hcp', ht', (h.le _).trans_lt hr', ?_⟩
      have hsr := h.le e'.source
      rw [(h.kept htr).1]
      omega
  · by_cases htr : v = e.target
    · exact ⟨e :: path, htr ▸ .cons hne (by rw [h.previous, if_pos rfl]) hpt⟩
    · rw [(h.kept htr).1] at hlt
      obtain ⟨p, hp⟩ := hinv.traced v hlt
      exact traced_of_improved h hne hpt hp
  · exact (hqu v).mpr ((h.queued v hv).imp_right (hinv.queued v))
  · rcases (hqu v).mp hv with rfl | hv
    · rw [hnw]
      omega
    · exact (h.le v).trans_lt (hinv.reached v hv)
  · have hsr : e'.source ≠ e.target := fun hs => hot ((hqu _).mpr (.inl hs))
    have hol : e'.source ∉ s.queue := fun hs => hot ((hqu _).mpr (.inr hs))
    rw [(h.kept hsr).1] at hlt ⊢
    by_cases hsm : e' = e
    · rw [hsm, hnw]
    · have hle := hinv.closed e' he' hcp' hlt hol (by simp [hsm, hpn])
      exact (h.le _).trans hle

theorem SearchInv.step : SearchInv graph source infinity price pending (relax s e) := by
  rcases relax_cases s e with ⟨hsm, hd⟩ | hi
  · rw [hsm]
    exact { hinv with
      closed := fun e' he' hc hlt ho hp => by
        by_cases hs : e' = e
        · exact hs ▸ hd (hs ▸ hc)
        · exact hinv.closed e' he' hc hlt ho (by simp [hs, hp]) }
  · exact hinv.improve hprice he hreached hi

end

theorem distance_relax_le (s : Search ν) (e : Step ν) (v : ν) :
    (relax s e).distance v ≤ s.distance v := by
  rcases relax_cases s e with ⟨hs, -⟩ | hi
  · rw [hs]
  · exact hi.le v

theorem SearchInv.foldl_step (hprice : Potential graph price) {node : ν} :
    ∀ {l : List (Step ν)} {s : Search ν}, SearchInv graph source infinity price l s →
      (∀ e ∈ l, e ∈ steps graph ∧ e.source = node) → s.distance node < infinity →
      SearchInv graph source infinity price [] (l.foldl relax s)
  | [], _, hinv, _, _ => hinv
  | e :: l, s, hinv, hl, hreached => by
    obtain ⟨⟨he, hs⟩, hr⟩ := forall_mem_cons.mp hl
    have hn := hinv.step hprice he (hs ▸ hreached)
    rw [foldl_cons]
    exact SearchInv.foldl_step hprice hn hr ((distance_relax_le s e node).trans_lt hreached)

theorem SearchInv.pop {node : ν} {queue : List ν}
    (hinv : SearchInv graph source infinity price [] s) (hq : s.queue = node :: queue) :
    SearchInv graph source infinity price (edgesFrom graph node)
      { s with queue := queue, queued := update s.queued node false } where
  source_zero := hinv.source_zero
  le_infinity := hinv.le_infinity
  lower := hinv.lower
  tree := hinv.tree
  traced := hinv.traced
  queued := fun v hv => by
    have hv : update s.queued node false v = true := hv
    by_cases hs : v = node
    · rw [hs, update_self] at hv
      exact absurd hv (by simp)
    · rw [update_of_ne hs] at hv
      have hm := hinv.queued v hv
      rw [hq] at hm
      exact (mem_cons.mp hm).resolve_left hs
  reached := fun v hv => hinv.reached v (hq ▸ mem_cons_of_mem _ hv)
  closed := fun e he hc hlt ho hp => by
    refine hinv.closed e he hc hlt (fun hm => ?_) not_mem_nil
    rw [hq] at hm
    rcases mem_cons.mp hm with hs | hm
    · exact hp (mem_edgesFrom.mpr ⟨he, hs⟩)
    · exact ho hm

/-! ## the search ends -/

/-- How far the distances can still fall. -/
def slack (graph : List (Arc ν)) (source : ν) (price : ν → ℤ) (s : Search ν) : ℕ :=
  ∑ v ∈ nodesOf graph, (s.distance v - (price v - price source)).toNat

theorem target_mem_nodesOf (he : e ∈ steps graph) : e.target ∈ nodesOf graph := by
  obtain ⟨arc, ha, hs⟩ := mem_steps.mp he
  have hm := mem_nodesOf (mem_of_getElem? ha)
  rw [hs]
  cases e.forward
  · exact hm.1
  · exact hm.2

theorem slack_relax (hprice : Potential graph price)
    (hinv : SearchInv graph source infinity price pending s) (he : e ∈ steps graph)
    (hreached : s.distance e.source < infinity) :
    relax s e = s ∨ slack graph source price (relax s e) < slack graph source price s := by
  rcases relax_cases s e with ⟨hs, -⟩ | hi
  · exact .inl hs
  · right
    refine Finset.sum_lt_sum (fun v _ => ?_) ⟨e.target, target_mem_nodesOf he, ?_⟩
    · have hle := hi.le v
      omega
    · have hed := hprice e he hi.capacity
      have hlw := hinv.lower _ hreached
      have hl := hi.less
      rw [hi.distance, if_pos rfl]
      omega

theorem slack_foldl_relax (hprice : Potential graph price) {node : ν} :
    ∀ {l : List (Step ν)} {s : Search ν}, SearchInv graph source infinity price l s →
      (∀ e ∈ l, e ∈ steps graph ∧ e.source = node) → s.distance node < infinity →
      l.foldl relax s = s ∨ slack graph source price (l.foldl relax s) < slack graph source price s
  | [], _, _, _, _ => .inl rfl
  | e :: l, s, hinv, hl, hreached => by
    obtain ⟨⟨he, hsr⟩, hr⟩ := forall_mem_cons.mp hl
    have hs : s.distance e.source < infinity := hsr ▸ hreached
    have hn := hinv.step hprice he hs
    have hrec := slack_foldl_relax hprice hn hr
      ((distance_relax_le s e node).trans_lt hreached)
    rw [foldl_cons]
    rcases slack_relax hprice hinv he hs with hsm | hlt
    · rw [hsm] at hrec ⊢
      exact hrec
    · rcases hrec with hk | hls
      · rw [hk]
        exact .inr hlt
      · exact .inr (hls.trans hlt)

theorem exists_search (hprice : Potential graph price) : ∀ s : Search ν,
    SearchInv graph source infinity price [] s → ∃ bound s', (∀ fuel ≥ bound,
      search graph fuel s = some s') ∧ SearchInv graph source infinity price [] s' ∧
        s'.queue = [] := by
  have hen : ∀ n : ℕ, ∀ queue : List ν, ∀ s : Search ν, slack graph source price s = n →
      s.queue = queue → SearchInv graph source infinity price [] s → ∃ bound s',
        (∀ fuel ≥ bound, search graph fuel s = some s') ∧
          SearchInv graph source infinity price [] s' ∧ s'.queue = [] := by
    intro n
    -- on the slack, and for the same slack on the queue
    induction n using Nat.strong_induction_on with
    | _ n ihn =>
      intro queue
      induction queue with
      | nil =>
        intro s _ hq hinv
        refine ⟨1, s, fun fuel hf => ?_, hinv, hq⟩
        obtain ⟨m, rfl⟩ := Nat.exists_eq_add_of_le' hf
        rw [search, hq]
      | cons node queue ihq =>
        intro s hs hq hinv
        have hp := hinv.pop hq
        have hed : ∀ e ∈ edgesFrom graph node, e ∈ steps graph ∧ e.source = node :=
          fun e he => mem_edgesFrom.mp he
        have hreached : s.distance node < infinity := hinv.reached node (hq ▸ mem_cons_self)
        have hn := SearchInv.foldl_step hprice hp hed hreached
        obtain ⟨bound, s', hr, hs'⟩ : ∃ bound s', (∀ fuel ≥ bound, search graph fuel
            ((edgesFrom graph node).foldl relax
              { s with queue := queue, queued := update s.queued node false }) =
                some s') ∧ SearchInv graph source infinity price [] s' ∧ s'.queue = [] := by
          rcases slack_foldl_relax hprice hp hed hreached with hsm | hl
          · rw [hsm] at hn ⊢
            exact ihq _ hs rfl hn
          · exact ihn _ (hs ▸ hl) _ _ rfl rfl hn
        refine ⟨bound + 1, s', fun fuel hf => ?_, hs'⟩
        obtain ⟨m, rfl⟩ := Nat.exists_eq_add_of_le' (show 1 ≤ fuel by omega)
        rw [search, hq]
        exact hr m (by omega)
  intro s hinv
  exact hen _ _ s rfl rfl hinv

theorem searchInv_of_search (hprice : Potential graph price) : ∀ {fuel : ℕ} {s t : Search ν},
    SearchInv graph source infinity price [] s → search graph fuel s = some t →
    SearchInv graph source infinity price [] t ∧ t.queue = []
  | 0, _, _, _, h => absurd h (by simp [search])
  | fuel + 1, s, t, hinv, h => by
    rw [search] at h
    cases hq : s.queue with
    | nil =>
      rw [hq] at h
      cases h
      exact ⟨hinv, hq⟩
    | cons node queue =>
      rw [hq] at h
      refine searchInv_of_search hprice ?_ h
      exact SearchInv.foldl_step hprice (hinv.pop hq) (fun e he => mem_edgesFrom.mp he)
        (hinv.reached node (hq ▸ mem_cons_self))

variable {previous : ν → Option (Step ν)}

omit [DecidableEq ν] in
theorem Traced.eq (h : Traced previous source v p) (h' : Traced previous source v p') : p = p' := by
  induction h generalizing p' with
  | nil =>
    cases h' with
    | nil => rfl
    | cons hne => exact absurd rfl hne
  | @cons v e p hne hp _ ih =>
    cases h' with
    | nil => exact absurd rfl hne
    | cons _ hp' hr' =>
      rw [hp] at hp'
      cases hp'
      rw [ih hr']

omit [DecidableEq ν] in
theorem Traced.suffix {reached : ν → Prop}
    (hb : ∀ w e, w ≠ source → reached w → previous w = some e → reached e.source)
    (h : Traced previous source v p) (hv : reached v) (he : e ∈ p) :
    ∃ w q, Traced previous source w (e :: q) ∧ q.length < p.length ∧ w ≠ source ∧ reached w ∧
      Traced previous source e.source q ∧ previous w = some e := by
  induction h with
  | nil => cases he
  | @cons v e' p hne hp hr ih =>
    rcases mem_cons.mp he with rfl | he
    · exact ⟨v, p, .cons hne hp hr, Nat.lt_succ_self _, hne, hv, hr, hp⟩
    · obtain ⟨w, q, hw, hlt, hq⟩ := ih (hb v e' hne hv hp) he
      exact ⟨w, q, hw, Nat.lt_succ_of_lt hlt, hq⟩

omit [DecidableEq ν] in
theorem same_or_back {e' : Step ν} (he : OnArc graph e) (he' : OnArc graph e')
    (h : e.index = e'.index) : (e.source = e'.source ∧ e.target = e'.target) ∨
      (e.source = e'.target ∧ e.target = e'.source) := by
  obtain ⟨arc, ha, hs⟩ := he
  obtain ⟨arc', ha', hs'⟩ := he'
  rw [h, ha'] at ha
  cases ha
  rw [hs, hs']
  cases e.forward <;> cases e'.forward <;> simp [Arc.step]

omit [DecidableEq ν] in
theorem Traced.nodup_index {reached : ν → Prop}
    (hbc : ∀ w e, w ≠ source → reached w → previous w = some e →
      reached e.source ∧ e.target = w ∧ OnArc graph e)
    (h : Traced previous source v p) (hv : reached v) : (p.map Step.index).Nodup := by
  induction h with
  | nil => exact nodup_nil
  | @cons v e p hne hpr hrs ih =>
    obtain ⟨hreached, htr, hon⟩ := hbc v e hne hv hpr
    rw [map_cons, nodup_cons]
    refine ⟨fun hmm => ?_, ih hreached⟩
    obtain ⟨e', he', hin⟩ := mem_map.mp hmm
    obtain ⟨w, q, hw, hlt, hne', hw', hq, hpr'⟩ :=
      hrs.suffix (fun w e hne hw hpv => (hbc w e hne hw hpv).1) hreached he'
    obtain ⟨-, htr', hol⟩ := hbc w e' hne' hw' hpr'
    have hln : ∀ {q' : List (Step ν)}, Traced previous source v q' → q'.length ≤ p.length →
        False := fun hq' hle => by
      rw [hq'.eq (.cons hne hpr hrs), length_cons] at hle
      omega
    rcases same_or_back hol hon hin with ⟨-, hsm⟩ | ⟨hbc', -⟩
    · -- both lead into the same node
      have hwv : w = v := htr'.symm.trans (hsm.trans htr)
      exact hln (hwv ▸ hw) (by rw [length_cons]; exact hlt)
    · -- the other leads out of it
      have hsr : e'.source = v := hbc'.trans htr
      exact hln (hsr ▸ hq) hlt.le

/-! ## distances at the end -/

omit [DecidableEq ν] in
theorem sum_cost_le (hc : ∀ arc ∈ graph, 0 ≤ arc.cost) (hp : ∀ e ∈ p, OnArc graph e)
    (hnd : (p.map Step.index).Nodup) : (p.map Step.cost).sum ≤ (graph.map Arc.cost).sum := by
  have hat : ∀ i : ℕ, 0 ≤ ((graph[i]?).map Arc.cost).getD 0 := by
    intro i
    cases h : graph[i]? with
    | none => simp
    | some arc => simpa using hc arc (mem_of_getElem? h)
  have ht : ∀ l : List (Arc ν),
      ∑ i ∈ Finset.range l.length, ((l[i]?).map Arc.cost).getD 0 = (l.map Arc.cost).sum := by
    intro l
    induction l with
    | nil => rfl
    | cons arc l ih =>
      rw [length_cons, Finset.sum_range_succ']
      simp only [List.getElem?_cons_succ, ih, List.getElem?_cons_zero, Option.map_some,
        Option.getD_some, map_cons, sum_cons]
      ring
  calc (p.map Step.cost).sum
      ≤ ((p.map Step.index).map fun i => ((graph[i]?).map Arc.cost).getD 0).sum := by
        rw [map_map]
        refine sum_le_sum fun e he => ?_
        obtain ⟨arc, ha, hs⟩ := hp e he
        have hn := hc arc (mem_of_getElem? ha)
        simp only [Function.comp_apply, ha, Option.map_some, Option.getD_some]
        rw [hs]
        cases e.forward <;> simp only [Arc.step] <;> omega
    _ = ∑ i ∈ (p.map Step.index).toFinset, ((graph[i]?).map Arc.cost).getD 0 :=
        (sum_toFinset _ hnd).symm
    _ ≤ ∑ i ∈ Finset.range graph.length, ((graph[i]?).map Arc.cost).getD 0 := by
        refine Finset.sum_le_sum_of_subset_of_nonneg (fun i hi => ?_) fun i _ _ => hat i
        obtain ⟨e, he, rfl⟩ := mem_map.mp (mem_toFinset.mp hi)
        obtain ⟨arc, ha, -⟩ := hp e he
        obtain ⟨hlt, -⟩ := List.getElem?_eq_some_iff.mp ha
        exact Finset.mem_range.mpr hlt
    _ = (graph.map Arc.cost).sum := ht graph

structure TreeEdge (graph : List (Arc ν)) (infinity : ℤ) (s : Search ν) (v : ν) (e : Step ν) :
    Prop where
  mem : e ∈ steps graph
  room : 0 < e.capacity
  target : e.target = v
  reached : s.distance e.source < infinity
  tight : s.distance v = s.distance e.source + e.cost

/-- What a finished search knows, even when a node is farther than `infinity`. -/
structure Labelled (graph : List (Arc ν)) (source : ν) (infinity : ℤ) (s : Search ν) : Prop where
  le_infinity : ∀ v, s.distance v ≤ infinity
  source_zero : s.distance source = 0
  closed : ∀ e ∈ steps graph, 0 < e.capacity → s.distance e.source < infinity →
    s.distance e.target ≤ s.distance e.source + e.cost
  tree : ∀ v e, v ≠ source → s.distance v < infinity → s.previous v = some e →
    TreeEdge graph infinity s v e
  traced : ∀ v, s.distance v < infinity →
    ∃ p, Traced s.previous source v p ∧ (p.map Step.index).Nodup

structure Found (graph : List (Arc ν)) (source : ν) (infinity : ℤ) (s : Search ν) : Prop where
  le_infinity : ∀ v, s.distance v ≤ infinity
  source_zero : s.distance source = 0
  closed : ∀ e ∈ steps graph, 0 < e.capacity → s.distance e.source < infinity →
    s.distance e.target ≤ s.distance e.source + e.cost ∧ s.distance e.target < infinity
  tree : ∀ v e, v ≠ source → s.distance v < infinity → s.previous v = some e →
    TreeEdge graph infinity s v e
  traced : ∀ v, s.distance v < infinity →
    ∃ p, Traced s.previous source v p ∧ (p.map Step.index).Nodup

omit [DecidableEq ν] in
theorem Found.labelled (h : Found graph source infinity s) : Labelled graph source infinity s :=
  ⟨h.le_infinity, h.source_zero, fun e he hc hlt => (h.closed e he hc hlt).1, h.tree, h.traced⟩

omit [DecidableEq ν] in
theorem distance_of_traced (hz : s.distance source = 0)
    (ht : ∀ v e, v ≠ source → s.distance v < infinity → s.previous v = some e →
      TreeEdge graph infinity s v e) (hp : Traced s.previous source v p)
    (hv : s.distance v < infinity) :
    s.distance v = (p.map Step.cost).sum ∧ ∀ e ∈ p, e ∈ steps graph ∧ 0 < e.capacity ∧
      s.distance e.source < infinity ∧ s.distance e.target < infinity := by
  induction hp with
  | nil => exact ⟨hz, fun _ h => absurd h not_mem_nil⟩
  | @cons v e p hne hpr _ ih =>
    have hed := ht v e hne hv hpr
    obtain ⟨hd, heg⟩ := ih hed.reached
    refine ⟨?_, fun e' he' => ?_⟩
    · rw [map_cons, sum_cons, ← hd, hed.tight]
      ring
    · rcases mem_cons.mp he' with rfl | he'
      · exact ⟨hed.mem, hed.room, hed.reached, hed.target ▸ hv⟩
      · exact heg e' he'

omit [DecidableEq ν] in
theorem labelled_of_searchInv (hinv : SearchInv graph source infinity price [] s)
    (hq : s.queue = []) : Labelled graph source infinity s := by
  have hcl : ∀ e ∈ steps graph, 0 < e.capacity → s.distance e.source < infinity →
      s.distance e.target ≤ s.distance e.source + e.cost := fun e he hc hlt =>
    hinv.closed e he hc hlt (by rw [hq]; exact not_mem_nil) not_mem_nil
  have ht : ∀ v e, v ≠ source → s.distance v < infinity → s.previous v = some e →
      TreeEdge graph infinity s v e := by
    intro v e hne hv hpr
    obtain ⟨e', hs, hm, hc, htr, hreached, hle⟩ := hinv.tree v hne hv
    rw [hpr] at hs
    cases hs
    exact ⟨hm, hc, htr, hreached, le_antisymm (htr ▸ hcl e hm hc hreached) hle⟩
  have hb : ∀ w e, w ≠ source → s.distance w < infinity → s.previous w = some e →
      s.distance e.source < infinity ∧ e.target = w ∧ OnArc graph e := fun w e hne hw hpr =>
    have hed := ht w e hne hw hpr
    ⟨hed.reached, hed.target, onArc_of_mem_steps hed.mem⟩
  refine ⟨hinv.le_infinity, hinv.source_zero, hcl, ht, fun v hv => ?_⟩
  obtain ⟨p, hp⟩ := hinv.traced v hv
  exact ⟨p, hp, hp.nodup_index hb hv⟩

omit [DecidableEq ν] in
theorem found_of_searchInv (hcs : ∀ arc ∈ graph, 0 ≤ arc.cost)
    (hsu : (graph.map Arc.cost).sum < infinity)
    (hinv : SearchInv graph source infinity price [] s) (hqu : s.queue = []) :
    Found graph source infinity s := by
  have h := labelled_of_searchInv hinv hqu
  refine ⟨h.le_infinity, h.source_zero, fun e he hcp hlt => ⟨h.closed e he hcp hlt, ?_⟩,
    h.tree, h.traced⟩
  -- an edge out of the reached nodes would run along an arc that no path has used
  by_contra hot
  obtain ⟨p, hp, hnp⟩ := h.traced _ hlt
  obtain ⟨hds, hed⟩ := distance_of_traced h.source_zero h.tree hp hlt
  have hfr : e.index ∉ p.map Step.index := by
    intro hmm
    obtain ⟨e', he', hin⟩ := mem_map.mp hmm
    obtain ⟨hst, -, hsr, htr⟩ := hed e' he'
    rcases same_or_back (onArc_of_mem_steps he) (onArc_of_mem_steps hst) hin.symm with
      ⟨-, hsm⟩ | ⟨-, hsm⟩
    · exact hot (hsm ▸ htr)
    · exact hot (hsm ▸ hsr)
  have hnd : ((e :: p).map Step.index).Nodup := nodup_cons.mpr ⟨hfr, hnp⟩
  have hon : ∀ e' ∈ e :: p, OnArc graph e' := fun e' he' => by
    rcases mem_cons.mp he' with rfl | he'
    · exact onArc_of_mem_steps he
    · exact onArc_of_mem_steps (hed e' he').1
  have hbn := sum_cost_le hcs hon hnd
  rw [map_cons, sum_cons, ← hds] at hbn
  have hle := h.closed e he hcp hlt
  omega

omit [DecidableEq ν] in
theorem infinity_pos (hcs : ∀ arc ∈ graph, 0 ≤ arc.cost)
    (hs : (graph.map Arc.cost).sum < infinity) : 0 < infinity := by
  refine lt_of_le_of_lt (sum_nonneg fun c hc => ?_) hs
  obtain ⟨arc, ha, rfl⟩ := mem_map.mp hc
  exact hcs arc ha

/-- **The search ends with shortest distances**, traced back to the source. -/
theorem search_spec (hprice : Potential graph price) (hc : ∀ arc ∈ graph, 0 ≤ arc.cost)
    (hs : (graph.map Arc.cost).sum < infinity) :
    ∃ bound s, (∀ fuel ≥ bound, search graph fuel (Search.start infinity source) = some s) ∧
      Found graph source infinity s := by
  obtain ⟨bound, s, hr, hinv, hq⟩ :=
    exists_search hprice _ (searchInv_start (infinity_pos hc hs))
  exact ⟨bound, s, hr, found_of_searchInv hc hs hinv hq⟩

end ResidualGraph
